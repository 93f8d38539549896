import SwiftTree.Kind.Set
import SwiftTree.Kind.Spelling
import SwiftTree.Text.Blank
import SwiftTree.Token

/-!
# Tokens outside string literals

`Token.plain` recognises the token at the front of a text that starts with a character `c`. Its
answer is a kind and the number of characters behind `c` that belong to the token, so a token is
never empty and never longer than the text.

Two decisions look back: whether an operator touches what stands before it, which makes it a prefix,
postfix or binary operator, and whether a `/` can open a regular expression.

A token whose kind has a fixed text is spelled so (`Token.plain_spells`): words are looked up by the
table that spells them, and operators are told apart by their text.
-/

namespace SwiftTree.Token

open Text

/-- The letters of the Latin alphabet, the underscore, and everything outside ASCII but blanks. -/
def isNameStart (c : Char) : Bool :=
  c.isAlpha || c == '_' || (c.toNat ≥ 0x80 && !isBlank c)

/-- What can follow in a name. -/
def isNameChar (c : Char) : Bool := isNameStart c || c.isDigit

/-- The characters that operators are made of. -/
def isOperatorChar (c : Char) : Bool := "/=-+*%<>!&|^~.?".toList.contains c

/-- Tokens after which a `/` divides instead of opening a regular expression. -/
def endsOperand : KindSet := .ofList
  [.identifier, .dollarIdentifier, .underscore, .integerLiteral, .floatLiteral, .regexLiteral,
   .editorPlaceholder, .poundIdentifier, .rightParen, .rightBracket, .rightBrace,
   .postfixOperator, .stringQuote, .multilineStringQuote, .singleQuote, .rawStringDelimiter,
   .selfKw, .capitalSelfKw, .superKw, .initKw, .trueKw, .falseKw, .nilKw]

/-- The number of characters of a name behind its first one. -/
def nameLength (cs : Text) : Nat := (cs.takeWhile isNameChar).length

/-! ### Numbers -/

/-- The digits and underscores at the front of a text. -/
def digitsLength (cs : Text) : Nat := (cs.takeWhile fun c => c.isDigit || c == '_').length

/-- The same, with the letters of hexadecimal digits. -/
def hexDigitsLength (cs : Text) : Nat :=
  (cs.takeWhile fun c => c.isDigit || c == '_' || "abcdefABCDEF".toList.contains c).length

/-- An exponent: the letter, a sign and digits. -/
def exponentLength (cs : Text) : Nat :=
  if peek cs == 'e' || peek cs == 'E' then
    let sign := if second cs == '-' || second cs == '+' then 1 else 0
    1 + sign + digitsLength (cs.drop (1 + sign))
  else 0

/-- A number without a radix mark, of which `n` more digits are known to come first. -/
def decimal (n : Nat) (cs : Text) : Kind × Nat :=
  let rest := cs.drop n
  if peek rest == '.' && (second rest).isDigit then
    let fraction := 1 + digitsLength rest.tail
    (.floatLiteral, n + fraction + exponentLength (rest.drop fraction))
  else if peek rest == 'e' || peek rest == 'E' then (.floatLiteral, n + exponentLength rest)
  else (.integerLiteral, n)

/-- A number that starts with the digit `c`. -/
def number (c : Char) (cs : Text) : Kind × Nat :=
  if c == '0' && (peek cs == 'b' || peek cs == 'o') then
    (.integerLiteral, 1 + digitsLength cs.tail)
  else if c == '0' && peek cs == 'x' then (.integerLiteral, 1 + hexDigitsLength cs.tail)
  else decimal (digitsLength cs) cs

/-! ### Regular expressions, placeholders and quoted names -/

/-- The number of characters before the `/` and `pounds` times `#` that close a regular expression.
A backslash hides the character behind it; without `#` the literal stays on its line. -/
def regexBodyLength? (pounds : Nat) : Text → Option Nat
  | [] => none
  | '\\' :: [] => none
  | '\\' :: _ :: cs => (regexBodyLength? pounds cs).map (· + 2)
  | c :: cs =>
    if pounds == 0 && isLineBreak c then none
    else if c == '/' && pounds ≤ countLeading '#' cs then some 0
    else (regexBodyLength? pounds cs).map (· + 1)

/-- The whole length of the regular expression behind `pounds` times `#` and a `/`. -/
def regexLength? (pounds : Nat) (body : Text) : Option Nat :=
  (regexBodyLength? pounds body).map fun n => (pounds + 1) + n + (1 + pounds)

/-- Whether a `/` before `cs` can open a regular expression. -/
def regexAllowed (prev : Option Token) (cs : Text) : Bool :=
  !isBlank (peek cs) && peek cs != '\x00' && !prev.any fun t => endsOperand.contains t.kind

/-- What a backquote starts: a quoted name that ends on the line, or an unknown character. -/
def quotedName (cs : Text) : Kind × Nat :=
  match splitAtFirst ['\x60'] (restOfLine cs) with
  | some (name, _) => if name.isEmpty then (.unknown, 0) else (.identifier, name.length + 1)
  | none => (.unknown, 0)

/-! ### Operators -/

/-- The number of operator characters at the front of a text that continue an operator. A comment or
a placeholder ends it, and so does a dot unless the operator starts with one. -/
def operatorLength (dotted : Bool) : Text → Nat
  | [] => 0
  | c :: cs =>
    if !isOperatorChar c || (c == '.' && !dotted)
        || (c == '/' && (peek cs == '/' || peek cs == '*')) || (c == '<' && peek cs == '#') then 0
    else operatorLength dotted cs + 1

/-- Whether the text before an operator touches it. -/
def leftBound (prev : Option Token) (leading : Trivia) : Bool :=
  leading.isEmpty && prev.any fun t =>
    let last := t.text.getLastD '\x00'
    t.trailing.isEmpty && !isBlank last && !"([\x7b,:;\x00".toList.contains last

/-- Whether the text behind an operator touches it. -/
def rightBound (left : Bool) (rest : Text) : Bool :=
  let c := peek rest
  if ")]\x7d,;:\x00".toList.contains c then false
  else if c == '.' then !left
  else if c == '/' && (second rest == '/' || second rest == '*') then false
  else !isBlank c

/-- The kind of an operator, by its spelling and by what touches it. -/
def operatorKind (text : Text) (left right : Bool) : Kind :=
  if text == "=".toList then .equal
  else if text == "->".toList then .arrow
  else if text == ".".toList then .period
  else if text == "?".toList && !left then .infixQuestionMark
  else if left == right then .binaryOperator
  else if left then .postfixOperator
  else .prefixOperator

/-- An operator that starts with `c`. -/
def operator (prev : Option Token) (leading : Trivia) (c : Char) (cs : Text) : Kind × Nat :=
  let n := operatorLength (c == '.') cs
  let left := leftBound prev leading
  (operatorKind (c :: cs.take n) left (rightBound left (cs.drop n)), n)

/-! ### The token at the front of a text -/

/-- What a `#` starts, when it opens no string. -/
def poundWord (cs : Text) : Kind × Nat :=
  let more := countLeading '#' cs
  let regex := if nth cs more == '/' then regexLength? (more + 1) (cs.drop (more + 1)) else none
  match regex with
  | some n => (.regexLiteral, n - 1)
  | none =>
    if isNameStart (peek cs) then
      let n := nameLength cs
      ((Kind.ofPoundKeyword? ('#' :: cs.take n)).getD .poundIdentifier, n)
    else (.pound, 0)

/-- What `<#` starts: a placeholder that ends on the line, or an operator. -/
def placeholder (prev : Option Token) (leading : Trivia) (cs : Text) : Kind × Nat :=
  match splitAtFirst "#>".toList (restOfLine cs.tail) with
  | some (name, _) => (.editorPlaceholder, 1 + name.length + 2)
  | none => operator prev leading '<' cs

/-- The kind of the token that starts with `c` before `cs`, and how many characters of `cs` belong
to it. -/
def plain (prev : Option Token) (leading : Trivia) (c : Char) (cs : Text) : Kind × Nat :=
  match c with
  | '(' => (.leftParen, 0)
  | ')' => (.rightParen, 0)
  | '[' => (.leftBracket, 0)
  | ']' => (.rightBracket, 0)
  | '\x7b' => (.leftBrace, 0)
  | '\x7d' => (.rightBrace, 0)
  | ',' => (.comma, 0)
  | ':' => (.colon, 0)
  | ';' => (.semicolon, 0)
  | '@' => (.atSign, 0)
  | '\\' => (.backslash, 0)
  | '#' => poundWord cs
  | '\x60' => quotedName cs
  | '$' => (.dollarIdentifier, nameLength cs)
  | c =>
    if c.isDigit then number c cs
    else if c == '<' && peek cs == '#' then placeholder prev leading cs
    else if c == '/' && regexAllowed prev cs then
      match regexLength? 0 cs with
      | some n => (.regexLiteral, n - 1)
      | none => operator prev leading c cs
    else if isNameStart c then
      let n := nameLength cs
      ((Kind.ofKeyword? (c :: cs.take n)).getD .identifier, n)
    else if isOperatorChar c then operator prev leading c cs
    else (.unknown, 0)

/-! ### None of them is a part of a string literal -/

/-- A number is one of the tokens that stand alone. -/
theorem decimal_standsAlone (n : Nat) (cs : Text) : (decimal n cs).1.standsAlone := by
  unfold decimal
  dsimp only
  split
  · rfl
  · split <;> rfl

/-- A number is one of them in every notation. -/
theorem number_standsAlone (c : Char) (cs : Text) : (number c cs).1.standsAlone := by
  unfold number
  split
  · rfl
  · split
    · rfl
    · exact decimal_standsAlone _ _

/-- A name in backticks is one of them. -/
theorem quotedName_standsAlone (cs : Text) : (quotedName cs).1.standsAlone := by
  unfold quotedName
  split
  · split <;> rfl
  · rfl

/-- Operators of all forms are among them. -/
theorem operatorKind_standsAlone (text : Text) (left right : Bool) :
    (operatorKind text left right).standsAlone := by
  unfold operatorKind
  repeat' split
  all_goals rfl

theorem operator_standsAlone (prev : Option Token) (leading : Trivia) (c : Char) (cs : Text) :
    (operator prev leading c cs).1.standsAlone := operatorKind_standsAlone _ _ _

/-- A word behind a number sign is one of them, whatever it spells. -/
theorem poundWord_standsAlone (cs : Text) : (poundWord cs).1.standsAlone := by
  unfold poundWord
  dsimp only
  split
  · rfl
  · split
    · exact Kind.standsAlone_getD_ofPoundKeyword? _
    · rfl

/-- An editor placeholder is one of them, and what only looks like the start of one is an
operator. -/
theorem placeholder_standsAlone (prev : Option Token) (leading : Trivia) (cs : Text) :
    (placeholder prev leading cs).1.standsAlone := by
  unfold placeholder
  split
  · rfl
  · exact operator_standsAlone _ _ _ _

/-- Whatever is recognised outside of literals stands alone: quotes and the parts of literals are
left to the tokenizer. -/
theorem plain_standsAlone (prev : Option Token) (leading : Trivia) (c : Char) (cs : Text) :
    (plain prev leading c cs).1.standsAlone := by
  unfold plain
  split
  case h_12 => exact poundWord_standsAlone cs
  case h_13 => exact quotedName_standsAlone cs
  case h_15 =>
    split
    · exact number_standsAlone _ cs
    · split
      · exact placeholder_standsAlone prev leading cs
      · split
        · split
          · rfl
          · exact operator_standsAlone _ _ _ _
        · split
          · exact Kind.standsAlone_getD_ofKeyword? _
          · split
            · exact operator_standsAlone _ _ _ _
            · rfl
  all_goals rfl

theorem plain_isSolid (prev : Option Token) (leading : Trivia) (c : Char) (cs : Text) :
    (plain prev leading c cs).1.isSolid := Kind.isSolid_of_standsAlone (plain_standsAlone _ _ _ _)

/-! ### They are spelled as their kinds prescribe -/

/-- No spelling is prescribed for numbers. -/
theorem decimal_fixedText (n : Nat) (cs : Text) : (decimal n cs).1.fixedText = none := by
  unfold decimal
  dsimp only
  split
  · rfl
  · split <;> rfl

/-- The same for numbers of every notation. -/
theorem number_fixedText (c : Char) (cs : Text) : (number c cs).1.fixedText = none := by
  unfold number
  split
  · rfl
  · split
    · rfl
    · exact decimal_fixedText _ _

/-- No spelling is prescribed for names in backticks. -/
theorem quotedName_fixedText (cs : Text) : (quotedName cs).1.fixedText = none := by
  unfold quotedName
  split
  · split <;> rfl
  · rfl

/-- An operator has a kind with a fixed text only when it is that text. -/
theorem operatorKind_spells (text : Text) (left right : Bool) :
    (operatorKind text left right).Spells text := by
  unfold operatorKind
  split
  · rename_i h
    rw [beq_iff_eq.mp h]
    exact .of_some rfl
  · split
    · rename_i h
      rw [beq_iff_eq.mp h]
      exact .of_some rfl
    · split
      · rename_i h
        rw [beq_iff_eq.mp h]
        exact .of_some rfl
      · split
        · rename_i h
          rw [Bool.and_eq_true] at h
          rw [beq_iff_eq.mp h.1]
          exact .of_some rfl
        · split
          · exact .of_none rfl _
          · split <;> exact .of_none rfl _

theorem operator_spells (prev : Option Token) (leading : Trivia) (c : Char) (cs : Text) :
    (operator prev leading c cs).1.Spells (c :: cs.take (operator prev leading c cs).2) :=
  operatorKind_spells _ _ _

/-- A word behind a number sign is spelled as its kind prescribes. -/
theorem poundWord_spells (cs : Text) :
    (poundWord cs).1.Spells ('#' :: cs.take (poundWord cs).2) := by
  unfold poundWord
  dsimp only
  split
  · exact .of_none rfl _
  · split
    · exact Kind.spells_getD_ofPoundKeyword? _
    · exact .of_some rfl

/-- A placeholder is spelled as its kind prescribes, and so is an operator in its place. -/
theorem placeholder_spells (prev : Option Token) (leading : Trivia) (cs : Text) :
    (placeholder prev leading cs).1.Spells ('<' :: cs.take (placeholder prev leading cs).2) := by
  unfold placeholder
  split
  · exact .of_none rfl _
  · exact operator_spells _ _ _ _

/-- Outside of literals, a token is spelled as its kind prescribes. Words were looked up by their
spelling, and operators are told apart by theirs; for most other kinds no spelling is prescribed. -/
theorem plain_spells (prev : Option Token) (leading : Trivia) (c : Char) (cs : Text) :
    (plain prev leading c cs).1.Spells (c :: cs.take (plain prev leading c cs).2) := by
  unfold plain
  split
  case h_12 => exact poundWord_spells cs
  case h_13 => exact .of_none (quotedName_fixedText cs) _
  case h_14 => exact .of_none rfl _
  case h_15 =>
    split
    · exact .of_none (number_fixedText _ cs) _
    · split
      · rename_i h
        rw [Bool.and_eq_true] at h
        obtain rfl := beq_iff_eq.mp h.1
        exact placeholder_spells prev leading cs
      · split
        · split
          · exact .of_none rfl _
          · exact operator_spells _ _ _ _
        · split
          · exact Kind.spells_getD_ofKeyword? _
          · split
            · exact operator_spells _ _ _ _
            · exact .of_none rfl _
  all_goals exact .of_some rfl

end SwiftTree.Token
