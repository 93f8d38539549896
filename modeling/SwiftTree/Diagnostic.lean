import SwiftTree.Node
import SwiftTree.Text.Lines

/-!
# Diagnostics

What a parse has to complain about, where, and in which words (`Cause.message`). A list of
diagnostics is kept in source order by a stable sort (`Diagnostic.sort`).

Nearly all of them are read off the finished tree. The few that a parser decides on while it reads
are noted by position, since there are no nodes yet (`Override`).
-/

namespace SwiftTree

/-- How serious a diagnostic is. -/
inductive Severity where
  | error | warning
deriving DecidableEq, Repr

/-- The word for a severity. -/
def Severity.name : Severity → String
  | error => "error"
  | warning => "warning"

/-- What is wrong. -/
inductive Cause where
  /-- something that has to be there was not found; `items` says what -/
  | expected (items : String) (context : Option String)
  /-- a construct that was opened is not closed -/
  | expectedToEnd (closer : String) (context : String)
  /-- a ternary operator has no second part -/
  | expectedTernaryColon
  /-- something stands between the items of a file -/
  | extraneousAtTopLevel (text : String)
  /-- something stands where it does not belong -/
  | unexpectedText (text : String) (context : Option String)
  /-- something stands between cases, before conditionally compiled ones -/
  | unexpectedBeforeIfConfigClause (text : String)
  /-- something stands in a conditional compilation block -/
  | unexpectedInIfConfigBlock (text : String)
  /-- a loop has three clauses instead of a sequence -/
  | removedCStyleFor
deriving DecidableEq, Repr

/-- Source text as it stands in a message, in single quotes. -/
def quoteSource (text : String) : String := "'" ++ text ++ "'"

/-- The wording of a cause. -/
def Cause.message : Cause → String
  | expected items (some context) => "expected " ++ items ++ " in " ++ context
  | expected items none => "expected " ++ items
  | expectedToEnd closer context => "expected " ++ quoteSource closer ++ " to end " ++ context
  | expectedTernaryColon => "expected ':' after '? ...' in ternary expression"
  | extraneousAtTopLevel text => "extraneous " ++ quoteSource text ++ " at top level"
  | unexpectedText text (some context) =>
    "unexpected text " ++ quoteSource text ++ " in " ++ context
  | unexpectedText text none => "unexpected text " ++ quoteSource text
  | unexpectedBeforeIfConfigClause text =>
    "unexpected text " ++ quoteSource text ++ " before conditional compilation clause"
  | unexpectedInIfConfigBlock text =>
    "unexpected text " ++ quoteSource text ++ " in conditional compilation block"
  | removedCStyleFor => "C-style for statement has been removed in Swift 3"

/-- A complaint about a place in a text. -/
structure Diagnostic where
  /-- how serious it is -/
  severity : Severity
  /-- what is wrong -/
  cause : Cause
  /-- where; empty between tokens -/
  range : Span
  /-- a range that belongs to the matter -/
  highlight : Option Span
deriving DecidableEq, Repr

namespace Diagnostic

/-- An error at a place. -/
def error (cause : Cause) (range : Span) : Diagnostic := ⟨.error, cause, range, none⟩

/-- The position that a diagnostic is sorted by. -/
def offset (d : Diagnostic) : Nat := d.range.start

/-- The wording of a diagnostic. -/
def message (d : Diagnostic) : String := d.cause.message

/-- A list of diagnostics in source order. Those of one position keep their order. -/
def sort (ds : List Diagnostic) : List Diagnostic :=
  ds.mergeSort fun a b => a.offset ≤ b.offset

/-- Whether any diagnostic is an error. -/
def hasErrors (ds : List Diagnostic) : Bool := ds.any fun d => d.severity == .error

/-- The diagnostics at a position. -/
def anchoredAt (ds : List Diagnostic) (pos : Nat) : List Diagnostic :=
  ds.filter fun d => d.offset == pos

/-- A diagnostic in one line: the path, line and column counted from one, severity and wording. -/
def renderShort (d : Diagnostic) (path : String) (text : Text) : String :=
  let place := Text.lineColumn text d.offset
  path ++ ":" ++ toString (place.line + 1) ++ ":" ++ toString (place.column + 1) ++ ": "
    ++ d.severity.name ++ ": " ++ d.message

end Diagnostic

/-- A diagnostic that stands in for that of the unexpected text that starts at a position. -/
structure Override where
  /-- where the unexpected text starts, without its leading trivia -/
  start : Nat
  /-- what is reported instead -/
  diagnostic : Diagnostic
deriving DecidableEq, Repr

end SwiftTree
