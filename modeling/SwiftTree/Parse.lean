import SwiftTree.Diagnostic.Report
import SwiftTree.Grammar.Event
import SwiftTree.Grammar.Run

/-!
# Parsing a text

A text is parsed from an `Entry`: as a whole file, or as one construct with everything behind it
kept as unexpected text. The tree always covers the whole text; what is wrong with it only shows in
the diagnostics, which are read off the tree and what the rules have noted beside it.

The rules write events, from which a `Builder` over the text makes the tree. Each of the two can
fail (`Parse.Fault`): the rules when they are not granted enough calls and rounds or stop before the
end of the file, the events when they do not describe one tree over the whole text.
-/

namespace SwiftTree

open Grammar

/-- What a text is parsed as. -/
inductive Entry where
  | sourceFile
  | expression (mode : Mode)
  | statement
  | closure
  | returnStatement
deriving DecidableEq, Repr

namespace Entry

/-- The kind of the root. -/
def root : Entry → Kind
  | sourceFile => .sourceFile
  | _ => .sourceFragment

/-- The rule for the whole text. -/
def rule : Entry → Parser Unit
  | sourceFile => visit (.statements {})
  | expression mode => do
    expr mode
    skipUntil .empty
  | statement => do
    visit .statement
    skipUntil .empty
  | closure => do
    visit .closure
    skipUntil .empty
  | returnStatement => do
    Grammar.returnStatement
    skipUntil .empty

end Entry

namespace Grammar

/-- The tokens of a text, as the grammar sees them. -/
def Ahead.ofText (text : Text) : Ahead :=
  Lexeme.ofTokens (Token.lastOpensLine (Token.stream text)) 0 none (Token.stream text).dropLast
    fun _ ht => Token.solid_of_mem_dropLast ht

end Grammar

namespace Parse

/-- What can be wrong with the way from a text to its tree. -/
inductive Fault where
  /-- calls or rounds have run out -/
  | exhausted
  /-- the rules stop before the end of the file -/
  | inputLeft
  /-- a marker is neither completed nor given up -/
  | unfinished
  /-- a marker is none -/
  | notMarker
  /-- the events are no tree -/
  | event (fault : Event.Fault)
deriving DecidableEq, Repr

end Parse

namespace Entry

/-- What the rules make of a text with `n` calls, on top of what was put together before. -/
def outcome {σ : Type} [Assembly σ] (e : Entry) (n : Nat) (text : Text) (built : σ) :
    Option (State σ) :=
  (e.rule.run (.ofLimit n) ⟨.ofText text, built⟩).map Prod.snd

/-- The end of the file, as the last token of a text. -/
def endOfFile (text : Text) : Token := (Token.stream text).getLastD default

/-- The events of a text, with `n` calls, and what is noted beside them. The last token is the end
of the file. -/
def events (e : Entry) (n : Nat) (text : Text) : Except Parse.Fault (Log × Notes) :=
  let (root, log) := Log.empty.start
  match e.outcome n text (log, ({} : Notes)) with
  | none => .error .exhausted
  | some s =>
    if s.ahead.isEmpty then
      let (log, notes) := Assembly.token (endOfFile text) (Text.byteLen text) s.built
      .ok (log.complete root e.root, notes)
    else .error .inputLeft

/-- Builds the tree of a text from its events. -/
def assemble (log : Log) (text : Text) : Except Parse.Fault Green :=
  if log.broken then .error .notMarker
  else if log.unfinished ≠ 0 then .error .unfinished
  else
    match (Event.build log.events.toList (Builder.new text)).bind fun b =>
        b.finish.mapError .builder with
    | .ok tree => .ok tree
    | .error fault => .error (.event fault)

/-- Builds the tree of a text. Beside it stands what is reported in the place of unexpected text. -/
def build (e : Entry) (text : Text) : Except Parse.Fault (Green × List Override) := do
  let (log, notes) ← e.events (callLimit (Text.byteLen text)) text
  return (← assemble log text, notes.overrides)

/-- The tree of a text, and what is reported in the place of unexpected text. -/
def parsed (e : Entry) (text : Text) : Green × List Override :=
  match e.build text with
  | .ok parsed => parsed
  | .error _ => (.node e.root [], [])

/-- The tree of a text. -/
def tree (e : Entry) (text : Text) : Green := (e.parsed text).1

/-- What was noted while a text was read, in the order in which it was noted. -/
def overrides (e : Entry) (text : Text) : List Override := (e.parsed text).2

end Entry

/-- A tree and its diagnostics. -/
structure Parse where
  /-- the tree -/
  tree : Green
  /-- what is wrong, in source order -/
  diagnostics : List Diagnostic
deriving DecidableEq

namespace Parse

/-- Parses a text. -/
def ofText (e : Entry) (text : Text) : Parse :=
  let (tree, overrides) := e.parsed text
  ⟨tree, (Node.ofGreen tree).diagnostics overrides⟩

/-- The root of the tree. -/
def root (p : Parse) : Node := .ofGreen p.tree

/-- Whether anything is wrong. -/
def hasErrors (p : Parse) : Bool := !p.diagnostics.isEmpty

/-- The innermost node that starts at a position. -/
def nodeAt (p : Parse) (pos : Nat) : Option Node := p.root.startingAt pos

/-- The first node, in source order, that starts at a position or behind it and passes a test. -/
def firstNodeAfter (p : Parse) (pos : Nat) (test : Node → Bool) : Option Node :=
  p.root.descendants.find? fun n => pos ≤ n.trimmedRange.start && test n

end Parse

end SwiftTree
