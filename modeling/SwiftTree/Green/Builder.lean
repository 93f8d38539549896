import SwiftTree.Green

/-!
# Building trees by hand

A `Builder` takes the tokens of a text in order, between calls that open and close nodes. Each step
checks what it was given and names the fault it finds (`Builder.Fault`). A builder that is finished
yields one node that covers the whole text; one that is given up must have no open node.
-/

namespace SwiftTree

namespace Builder

/-- What can be wrong with a step. -/
inductive Fault where
  /-- a node is closed where none is open -/
  | noOpenNode
  /-- the tree is finished with a node still open -/
  | unbalanced
  /-- the builder is given up with a node still open -/
  | abandoned
  /-- the tree is finished before the end of the text -/
  | textLeft
  /-- what was built is not a single node -/
  | notOneRoot
  /-- a token does not start where the one before it ends -/
  | outOfOrder
  /-- a token ends inside a character or past the end of the text -/
  | notBoundary
  /-- a token has more trivia than text -/
  | triviaTooLong
deriving DecidableEq, Repr

/-- A leaf that is given by the outline of a token. -/
def leaf (o : Token.Outline) : Except Fault Green :=
  if o.hasRoom then .ok (.leaf (.present o)) else .error .triviaTooLong

end Builder

/-- A tree under construction. -/
structure Builder where
  /-- where the next token starts -/
  pos : Nat
  /-- the text from there -/
  rest : Text
  /-- the open nodes, innermost first, each with what was built before it, newest first -/
  pending : List (Kind × List Green)
  /-- what the innermost open node holds, newest first -/
  built : List Green
deriving DecidableEq

namespace Builder

/-- A builder over a text. -/
def new (text : Text) : Builder := ⟨0, text, [], []⟩

/-- Opens a node. -/
def startNode (b : Builder) (kind : Kind) : Builder :=
  { b with pending := (kind, b.built) :: b.pending, built := [] }

/-- Closes the node that was opened last. -/
def finishNode (b : Builder) : Except Fault Builder :=
  match b.pending with
  | [] => .error .noOpenNode
  | (kind, before) :: outer =>
    .ok { b with pending := outer, built := .node kind b.built.reverse :: before }

/-- Takes a token whose spelling stands between two byte positions of the text, with the trivia
around it. -/
def token (b : Builder) (leading : Trivia.Outline) (kind : Kind) (start stop : Nat)
    (trailing : Trivia.Outline) : Except Fault Builder :=
  if b.pos + leading.byteLen ≠ start then .error .outOfOrder
  else
    let next := stop + trailing.byteLen
    match Text.cutBytes (next - b.pos) b.rest with
    | none => .error .notBoundary
    | some (full, rest) => do
      let g ← leaf ⟨leading, kind, full, trailing⟩
      return { b with pos := next, rest, built := g :: b.built }

/-- Adds a missing token. -/
def missingToken (b : Builder) (kind : Kind) (spelling : Text) : Builder :=
  { b with built := .missing kind spelling :: b.built }

/-- The finished tree. -/
def finish (b : Builder) : Except Fault Green :=
  if !b.pending.isEmpty then .error .unbalanced
  else if !b.rest.isEmpty then .error .textLeft
  else
    match b.built with
    | [.node kind children] => .ok (.node kind children)
    | _ => .error .notOneRoot

/-- Gives the builder up. -/
def discard (b : Builder) : Except Fault Unit :=
  if b.pending.isEmpty then .ok () else .error .abandoned

end Builder

end SwiftTree
