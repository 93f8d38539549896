import SwiftTree.Kind

/-!
# Spellings that never vary

`Kind.fixedText` gives the spelling of punctuation, keywords and quotes. The words that the scanner
reserves are looked up through the same table, so a reserved word and its spelling cannot disagree
(`Kind.Spells`).
-/

namespace SwiftTree.Kind

/-- The source text of a token whose spelling never varies. -/
def fixedText : Kind → Option String
  | .leftParen => some "("
  | .rightParen => some ")"
  | .leftBracket => some "["
  | .rightBracket => some "]"
  | .leftBrace => some "\x7b"
  | .rightBrace => some "\x7d"
  | .leftAngle => some "<"
  | .rightAngle => some ">"
  | .comma => some ","
  | .colon => some ":"
  | .semicolon => some ";"
  | .period => some "."
  | .equal => some "="
  | .arrow => some "->"
  | .atSign => some "@"
  | .pound => some "#"
  | .backslash => some "\\"
  | .infixQuestionMark => some "?"
  | .letKw => some "let"
  | .varKw => some "var"
  | .funcKw => some "func"
  | .ifKw => some "if"
  | .elseKw => some "else"
  | .guardKw => some "guard"
  | .switchKw => some "switch"
  | .caseKw => some "case"
  | .defaultKw => some "default"
  | .doKw => some "do"
  | .catchKw => some "catch"
  | .forKw => some "for"
  | .inKw => some "in"
  | .whileKw => some "while"
  | .repeatKw => some "repeat"
  | .returnKw => some "return"
  | .breakKw => some "break"
  | .continueKw => some "continue"
  | .throwKw => some "throw"
  | .throwsKw => some "throws"
  | .rethrowsKw => some "rethrows"
  | .deferKw => some "defer"
  | .fallthroughKw => some "fallthrough"
  | .whereKw => some "where"
  | .asKw => some "as"
  | .isKw => some "is"
  | .tryKw => some "try"
  | .trueKw => some "true"
  | .falseKw => some "false"
  | .nilKw => some "nil"
  | .selfKw => some "self"
  | .capitalSelfKw => some "Self"
  | .superKw => some "super"
  | .initKw => some "init"
  | .inoutKw => some "inout"
  | .asyncKw => some "async"
  | .awaitKw => some "await"
  | .moveKw => some "_move"
  | .anyKw => some "any"
  | .someKw => some "some"
  | .weakKw => some "weak"
  | .unownedKw => some "unowned"
  | .poundIf => some "#if"
  | .poundElseif => some "#elseif"
  | .poundElse => some "#else"
  | .poundEndif => some "#endif"
  | .underscore => some "_"
  | .stringQuote => some "\""
  | .multilineStringQuote => some "\"\"\""
  | .singleQuote => some "'"
  | .endOfFile => some ""
  | _ => none

/-- The words that no name can have. -/
def reserved : List Kind :=
  [.letKw, .varKw, .funcKw, .ifKw, .elseKw, .guardKw, .switchKw, .caseKw, .defaultKw, .doKw,
   .catchKw, .forKw, .inKw, .whileKw, .repeatKw, .returnKw, .breakKw, .continueKw, .throwKw,
   .throwsKw, .rethrowsKw, .deferKw, .fallthroughKw, .whereKw, .asKw, .isKw, .tryKw, .trueKw,
   .falseKw, .nilKw, .selfKw, .capitalSelfKw, .superKw, .initKw, .inoutKw, .underscore]

/-- The directives, spelled with their `#`. -/
def directives : List Kind := [.poundIf, .poundElseif, .poundElse, .poundEndif]

/-- The reserved word with a given spelling. -/
def ofKeyword? (text : List Char) : Option Kind :=
  reserved.find? fun k => k.fixedText.map String.toList == some text

/-- The directive with a given spelling. -/
def ofPoundKeyword? (text : List Char) : Option Kind :=
  directives.find? fun k => k.fixedText.map String.toList == some text

/-- Whether a text is the one that the kind prescribes, if it prescribes any. -/
def Spells (k : Kind) (text : List Char) : Prop := ∀ s ∈ k.fixedText, text = s.toList

/-- Any text spells a kind without a fixed text. -/
theorem Spells.of_none {k : Kind} (h : k.fixedText = none) (text : List Char) : k.Spells text := by
  rw [Spells, h]
  exact nofun

/-- The fixed text of a kind spells it. -/
theorem Spells.of_some {k : Kind} {text : List Char}
    (h : k.fixedText.map String.toList = some text) : k.Spells text := by
  obtain ⟨s, hs, rfl⟩ := Option.map_eq_some_iff.mp h
  intro s' hs'
  obtain rfl := Option.some.inj (hs.symm.trans hs')
  rfl

/-- A kind that is found by its spelling is spelled so. -/
theorem Spells.of_find? {ks : List Kind} {text : List Char} {k : Kind}
    (h : (ks.find? fun k => k.fixedText.map String.toList == some text) = some k) :
    k.Spells text := by
  have hk := List.find?_some h
  exact .of_some (beq_iff_eq.mp hk)

/-- A word is spelled as its kind prescribes: it was found by its spelling, or it is an
identifier. -/
theorem spells_getD_ofKeyword? (text : List Char) :
    ((ofKeyword? text).getD .identifier).Spells text := by
  cases h : ofKeyword? text with
  | none => exact .of_none rfl text
  | some k => exact .of_find? h

/-- The same for words behind a number sign. -/
theorem spells_getD_ofPoundKeyword? (text : List Char) :
    ((ofPoundKeyword? text).getD .poundIdentifier).Spells text := by
  cases h : ofPoundKeyword? text with
  | none => exact .of_none rfl text
  | some k => exact .of_find? h

/-- A word stands alone, whether it is reserved or not. -/
theorem standsAlone_getD_ofKeyword? (text : List Char) :
    ((ofKeyword? text).getD .identifier).standsAlone := by
  have all : ∀ k ∈ reserved, k.standsAlone := by decide
  cases h : ofKeyword? text with
  | none => rfl
  | some k => exact all k (List.mem_of_find?_eq_some h)

/-- The same for words behind a number sign. -/
theorem standsAlone_getD_ofPoundKeyword? (text : List Char) :
    ((ofPoundKeyword? text).getD .poundIdentifier).standsAlone := by
  have all : ∀ k ∈ directives, k.standsAlone := by decide
  cases h : ofPoundKeyword? text with
  | none => rfl
  | some k => exact all k (List.mem_of_find?_eq_some h)

end SwiftTree.Kind
