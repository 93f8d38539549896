import SwiftTree.Diagnostic
import SwiftTree.Grammar.Ahead

/-!
# Rules of the grammar

A rule is a `Parser`: it reads tokens and says which trees they make up. It can look ahead without
limit, and it never fails. What it misses, it adds as a missing token or as an empty placeholder
node, so that the tree says where and what.

Rules are data. A `Parser` is a program over the few steps that its constructors name, and it is
left to those who run it what they put together from the steps: a list of events, a tree, or nothing
at all. The types of the steps bound what a rule can do. Tokens are only taken in order (`take`),
after one has perhaps been cut in two (`splitHead`); nodes open and close around whole rules, so
they are properly nested; and a kind comes with the proof that it is one of a token, or one of a
node.

What is wrong is read off the tree later on. Only where a rule knows better what is to be said of
the text that it skips, it notes that by position (`override`).

Rules call each other through `Goal`s, and repeat each other with `repeatUntil`. How deep calls may
go, and how often a loop may go round, is again left to those who run them.
-/

namespace SwiftTree.Grammar

/-- The mode of an expression. -/
structure Mode where
  /-- a brace behind the expression opens a body and no closure, as in `if x {` -/
  noTrailingClosure : Bool := false
  /-- the expression is the condition of a directive, which ends with its line -/
  directive : Bool := false
  /-- bare names introduce bindings, as in `case let .some(x)` -/
  bindingPattern : Bool := false
deriving DecidableEq, Repr

namespace Mode

/-- The mode of an expression on its own. -/
def plain : Mode := {}

/-- The mode of the header of a statement with a body. -/
def header : Mode := { noTrailingClosure := true }

/-- The mode inside parentheses and brackets. -/
def nested (m : Mode) : Mode := { bindingPattern := m.bindingPattern }

/-- The mode behind `let` and `var` in a pattern. -/
def binding (m : Mode) : Mode := { m with bindingPattern := true }

end Mode

/-- Where a list of statements stops. -/
structure Body where
  /-- at a closing brace -/
  braced : Bool := false
  /-- at the next clause of a conditional compilation block -/
  directive : Bool := false
  /-- at the next case of a `switch` -/
  inCase : Bool := false
deriving DecidableEq, Repr

/-- The rules that can be called from everywhere. -/
inductive Goal where
  /-- operands joined by operators that bind at least as strongly as `power` -/
  | sequence (mode : Mode) (power : Nat)
  /-- an operand with what stands before it -/
  | unary (mode : Mode) (power : Nat)
  /-- an operand with what is attached behind it -/
  | operand (mode : Mode)
  | closure
  | type
  /-- a type that is no composition -/
  | plainType
  | pattern
  | casePattern (mode : Mode)
  | statement
  | statements (body : Body)
  | switchCases (inDirective : Bool)
deriving DecidableEq, Repr

/-- A rule with an answer. -/
inductive Parser : Type → Type 1 where
  /-- an answer -/
  | pure {α : Type} (a : α) : Parser α
  /-- one rule behind another -/
  | bind {α β : Type} (first : Parser α) (next : α → Parser β) : Parser β
  /-- a look at the tokens ahead -/
  | look {α : Type} (f : Ahead → α) : Parser α
  /-- takes the next token, perhaps as one of another kind; at the end of the file nothing
  happens -/
  | take (kind : Option SolidKind) : Parser Unit
  /-- cuts the next token behind its first character -/
  | splitHead (head : SolidKind) (rest : Option SolidKind) : Parser Unit
  /-- adds a missing token with a spelling -/
  | missing (kind : SolidKind) (spelling : Text) : Parser Unit
  /-- adds an empty node in the place of what was not found -/
  | placeholder (kind : Placeholder) : Parser Unit
  /-- takes the next token and so many more into a node of their own, as text that no rule wanted;
  at the end of the file nothing happens -/
  | unexpected (more : Nat) : Parser Unit
  /-- notes what is reported in the place of the unexpected text that starts at a position; it may
  depend on where the last token that was taken ends -/
  | override (start : Nat) (diagnostic : Nat → Diagnostic) : Parser Unit
  /-- makes a node of what a rule adds, if the rule gives it a kind -/
  | mark {α : Type} (body : Parser (Option Construct × α)) : Parser α
  /-- makes a node of the node that was added last and of what a rule adds -/
  | enclose {α : Type} (kind : Construct) (body : Parser α) : Parser α
  /-- reaches a goal; the answer says whether an expression ends in a missing operand -/
  | call (goal : Goal) : Parser Bool
  /-- repeats a rule until it has an answer -/
  | repeatUntil {α : Type} (body : Parser (Option α)) : Parser α

namespace Parser

instance : Monad Parser where
  pure := .pure
  bind := .bind

end Parser

/-! ### Looking ahead -/

/-- A look at the tokens ahead. -/
def look {α : Type} (f : Ahead → α) : Parser α := .look f

/-- Whether the next token is of a kind. -/
def isAt (k : Kind) : Parser Bool := look (Ahead.isAt k)

/-- Follows a rule if a condition holds. -/
def onlyIf (b : Bool) (rule : Parser Unit) : Parser Unit := if b then rule else pure ()

/-- Follows a rule if the tokens ahead pass a test. -/
def ifAhead (test : Ahead → Bool) (rule : Parser Unit) : Parser Unit := do
  if ← look test then rule else pure ()

/-- Follows a rule if the next token is of a kind. -/
def ifAt (k : Kind) (rule : Parser Unit) : Parser Unit := ifAhead (Ahead.isAt k) rule

/-- Follows a rule unless the next token is of a kind. -/
def unlessAt (k : Kind) (rule : Parser Unit) : Parser Unit :=
  ifAhead (fun ts => !ts.isAt k) rule

/-! ### Taking tokens -/

-- What a kind has to be is computed. `Eq.refl true` proves it without a lemma for each rule that
-- names the kind, as `decide` would leave.

/-- Takes the next token, as one of another kind. -/
def advanceAs (k : Kind) (h : k.isSolid := by exact Eq.refl true) : Parser Unit :=
  .take (some ⟨k, h⟩)

/-- Takes the next token. -/
def advance : Parser Unit := .take none

/-- Takes several tokens. -/
def advanceBy : Nat → Parser Unit
  | 0 => pure ()
  | n + 1 => do advance; advanceBy n

/-- Takes the next token if it is of a kind. -/
def eat (k : Kind) : Parser Bool := do
  if ← isAt k then
    advance
    return true
  else
    return false

/-- Takes the next token if it is of a kind, whatever comes of it. -/
def skip (k : Kind) : Parser Unit := ifAt k advance

/-- Whether the next token is the word that a keyword is spelled as. -/
def Ahead.isKeywordWord (k : Kind) (ts : Ahead) : Bool := k.fixedText.any ts.isWord

/-- Takes the next token, as a keyword, if it is the word with that spelling. -/
def eatWord (k : Kind) (h : k.isSolid := by exact Eq.refl true) : Parser Bool := do
  if ← look (Ahead.isKeywordWord k) then
    advanceAs k h
    return true
  else
    return false

/-- Cuts the next token behind its first character. What is left of it is of the kind `rest`, or of
the kind that the whole token had. -/
def splitHead (head : Kind) (rest : Option SolidKind) (h : head.isSolid := by exact Eq.refl true) :
    Parser Unit := .splitHead ⟨head, h⟩ rest

/-! ### Missing parts -/

/-- Adds a missing token with a spelling. -/
def missingSpelled (k : Kind) (spelling : Text) (h : k.isSolid := by exact Eq.refl true) :
    Parser Unit := .missing ⟨k, h⟩ spelling

/-- Adds a missing token. -/
def missing (k : Kind) (h : k.isSolid := by exact Eq.refl true) : Parser Unit :=
  missingSpelled k ((k.fixedText.getD "").toList) h

/-- Takes the next token if it is of a kind, and otherwise adds it as missing. -/
def expect (k : Kind) (h : k.isSolid := by exact Eq.refl true) : Parser Bool := do
  if ← eat k then
    return true
  else
    missing k h
    return false

/-- Takes the next token if it is of a kind, and otherwise adds it as missing, whatever comes of
it. -/
def require (k : Kind) (h : k.isSolid := by exact Eq.refl true) : Parser Unit := do
  let _ ← expect k h

/-- Adds an empty node in the place of what was not found. -/
def placeholder (k : Kind) (h : k.isMissingNode := by exact Eq.refl true) : Parser Unit :=
  .placeholder ⟨k, h⟩

/-- Takes the next token and so many more as text that no rule wanted. -/
def unexpected (more : Nat) : Parser Unit := .unexpected more

/-- Notes what is reported in the place of the unexpected text that starts at a position. It may
depend on where the last token that was taken ends, with its trailing trivia. -/
def override (start : Nat) (diagnostic : Nat → Diagnostic) : Parser Unit :=
  .override start diagnostic

/-! ### Nodes -/

/-- Makes a node of what a rule adds. The rule also answers with the kind of the node. -/
def nodeBy {α : Type} (body : Parser (Construct × α)) : Parser α :=
  .mark do
    let (kind, a) ← body
    return (some kind, a)

/-- Makes a node of what a rule adds. -/
def node {α : Type} (kind : Kind) (body : Parser α)
    (h : kind.isConstruct := by exact Eq.refl true) :
    Parser α :=
  .mark do return (some ⟨kind, h⟩, ← body)

/-- Makes a node of what a rule adds, unless the rule answers that there is none. -/
def nodeIf (kind : Kind) (body : Parser Bool) (h : kind.isConstruct := by exact Eq.refl true) :
    Parser Bool :=
  .mark do
    let found ← body
    return (if found then some ⟨kind, h⟩ else none, found)

/-- An empty node. -/
def emptyNode (kind : Kind) (h : kind.isConstruct := by exact Eq.refl true) : Parser Unit :=
  node kind (pure ()) h

/-- Makes a node of the node that was added last and of what a rule adds. -/
def enclose {α : Type} (kind : Kind) (body : Parser α)
    (h : kind.isConstruct := by exact Eq.refl true) :
    Parser α :=
  .enclose ⟨kind, h⟩ body

/-! ### Calls and loops -/

/-- Reaches a goal. -/
def call (g : Goal) : Parser Bool := .call g

/-- Reaches a goal whose answer does not matter. -/
def visit (g : Goal) : Parser Unit := do
  let _ ← call g

/-- Repeats a rule until it has an answer. -/
def repeatUntil {α : Type} (body : Parser (Option α)) : Parser α := .repeatUntil body

/-- Repeats a rule as long as it answers `true`. -/
def repeatWhile (body : Parser Bool) : Parser Unit :=
  repeatUntil do return if ← body then none else some ()

/-- Repeats a rule as long as the tokens ahead pass a test. -/
def whileAhead (test : Ahead → Bool) (rule : Parser Unit) : Parser Unit :=
  repeatWhile do
    if ← look test then
      rule
      return true
    else
      return false

/-- Nodes of one kind, each with the comma behind it. A comma asks for another one unless the list
ends there. -/
def commaList (kind : Kind) (ends : Ahead → Bool) (body : Parser Unit)
    (h : kind.isConstruct := by exact Eq.refl true) : Parser Unit :=
  repeatWhile do
    let comma ← node kind (h := h) do
      body
      eat .comma
    return comma && !(← look ends)

end SwiftTree.Grammar
