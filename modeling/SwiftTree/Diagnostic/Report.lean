import SwiftTree.Diagnostic
import SwiftTree.Diagnostic.Construct

/-!
# Diagnostics of a tree

Everything that is wrong with a text can be read off its tree: missing tokens, placeholders, and
unexpected nodes. `Node.diagnostics` goes through the tree in source order. Missing items that
follow each other without a token between them, in the same construct, are reported together. The
closing token of something that was opened, and the colon of a ternary operator, are reported on
their own.

Unexpected text is quoted, unless the parser has noted something else to say in its place. What was
noted is found by the position where the text starts (`Node.diagnosticBy`).
-/

namespace SwiftTree

/-- Missing items that are to be reported together. -/
structure MissingGroup where
  /-- where the first of them is missing -/
  offset : Nat
  /-- the construct that they are missing in -/
  context : Option String
  /-- what is missing, newest first -/
  items : List String
deriving DecidableEq, Repr

/-- What has been reported so far. -/
structure Report where
  /-- the items that no token has followed yet -/
  pending : Option MissingGroup := none
  /-- the diagnostics, newest first -/
  found : List Diagnostic := []
deriving DecidableEq, Repr

namespace Report

/-- Adds a diagnostic. -/
def add (r : Report) (d : Diagnostic) : Report := { r with found := d :: r.found }

/-- Adds an error at a position between tokens. -/
def addAt (r : Report) (cause : Cause) (offset : Nat) : Report :=
  r.add (.error cause (.empty offset))

/-- Reports the pending items. -/
def flush (r : Report) : Report :=
  match r.pending with
  | none => r
  | some g =>
    { r with pending := none }.addAt (.expected (joinItems g.items.reverse) g.context) g.offset

/-- Adds a missing item to the pending ones, or to a group of its own when it is missing in another
construct. -/
def push (r : Report) (offset : Nat) (context : Option String) (item : String) : Report :=
  match r.pending with
  | none => { r with pending := some ⟨offset, context, [item]⟩ }
  | some g =>
    if g.context = context then { r with pending := some { g with items := item :: g.items } }
    else { r.flush with pending := some ⟨offset, context, [item]⟩ }

end Report

namespace Node

/-- Whether the node stands directly in the file or in its list of items. -/
def isAtTopLevel (n : Node) : Bool :=
  n.kind == .sourceFile
    || (n.kind == .codeBlockItemList && n.parent.any fun above => above.kind == .sourceFile)

/-- Whether the node is a clause of a conditional compilation block, or a part of one. -/
def isInIfConfigClause (n : Node) : Bool :=
  n.kind == .ifConfigClause || n.parent.any fun above => above.kind == .ifConfigClause

/-- What is wrong with an unexpected node below the node `above`. -/
def unexpectedCause (n above : Node) (text : String) : Cause :=
  if above.isAtTopLevel then .extraneousAtTopLevel text
  else if above.kind = .switchCaseList
      && n.nextSibling.any fun next => next.kind == .ifConfigDecl then
    .unexpectedBeforeIfConfigClause text
  else if above.isInIfConfigClause then .unexpectedInIfConfigBlock text
  else if above.kind = .sourceFragment then .unexpectedText text none
  else .unexpectedText text above.context

/-- The diagnostic of an unexpected node that nothing stands in for. It quotes the text. -/
def quotation (n : Node) : Diagnostic :=
  let text := String.ofList n.textTrimmed
  match n.parent with
  | none => .error (.unexpectedText text none) n.trimmedRange
  | some above => .error (n.unexpectedCause above text) n.trimmedRange

/-- The diagnostic of an unexpected node: the first one that was noted for the position where its
text starts, or else one that quotes the text. -/
def diagnosticBy (overrides : List Override) (n : Node) : Diagnostic :=
  match overrides.find? fun o => o.start == n.trimmedRange.start with
  | some o => o.diagnostic
  | none => n.quotation

/-- Whether a token of the kind, missing as the part `index` of the node, would close what an
earlier part opens. -/
def closesOpener (n : Node) (index : Nat) (kind : Kind) : Bool :=
  kind.openingDelimiter.any fun opener =>
    (n.children.take index).any fun
      | .leaf (.present t) => t.kind == opener
      | _ => false

/-- The spelling of the raw delimiter that is missing at the front of the parts. -/
def missingPounds : List Green → Text
  | .leaf (.missing .rawStringDelimiter spelling) :: _ => spelling
  | _ => []

/-- What is wrong with a construct that `closer` would close. -/
def unclosedCause (n : Node) (closer : String) : Cause :=
  match n.context with
  | some context => .expectedToEnd closer context
  | none => .expected (quoteSource closer) none

/-- Reports that a construct is not closed. -/
def reportUnclosed (n : Node) (offset : Nat) (closer : Text) (r : Report) : Report :=
  r.flush.addAt (n.unclosedCause (String.ofList closer)) offset

mutual

/-- Reports what is wrong with a node below the node `n`, where `judge` says what is reported of
unexpected nodes. -/
def reportIn (judge : Node → Diagnostic) (n : Node) (index offset : Nat) (r : Report) :
    Green → Report
  | .leaf _ => r
  | .node kind children =>
    let below : Node := ⟨kind, children, offset, n.step index⟩
    if kind = .unexpected then r.flush.add (judge below)
    else
      match below.missingItem? with
      | some item => r.push offset below.context item
      | none =>
        reportFrom judge below 0 offset false (if below.green.hasPresent then r.flush else r)
          children

/-- Reports what is wrong with parts of the node `n`. When the part before was a closing quote that
was reported, `quoted` says so, and a raw delimiter that is missing behind it belongs to it. -/
def reportFrom (judge : Node → Diagnostic) (n : Node) (index offset : Nat) (quoted : Bool)
    (r : Report) : List Green → Report
  | [] => r
  | .node kind children :: gs =>
    let r := reportIn judge n index offset r (.node kind children)
    reportFrom judge n (index + 1) (offset + Green.byteLen (.node kind children)) false r gs
  | .leaf (.present t) :: gs =>
    reportFrom judge n (index + 1) (offset + t.byteLen) false r.flush gs
  | .leaf (.missing kind spelling) :: gs =>
    if quoted && kind == .rawStringDelimiter then reportFrom judge n (index + 1) offset false r gs
    else if kind == .colon && n.kind == .ternaryExpr then
      reportFrom judge n (index + 1) offset false (r.flush.addAt .expectedTernaryColon offset) gs
    else if n.closesOpener index kind then
      let r := n.reportUnclosed offset (spelling ++ missingPounds gs) r
      reportFrom judge n (index + 1) offset true r gs
    else
      let r := r.push offset n.context (missingTokenItem kind spelling)
      reportFrom judge n (index + 1) offset false r gs

end

/-- What has been found by going through the whole tree below a node. -/
def report (judge : Node → Diagnostic) (n : Node) : Report :=
  (reportFrom judge n 0 n.offset false {} n.children).flush

/-- The diagnostics of a tree, in source order, given what was noted while it was read. -/
def diagnostics (overrides : List Override) (n : Node) : List Diagnostic :=
  Diagnostic.sort (n.report (diagnosticBy overrides)).found.reverse

end Node

end SwiftTree
