import SwiftTree.Node

/-!
# Walking a tree

A `Walk` goes through the nodes below a node, and reports when it enters and when it leaves each. It
holds one event in advance. `Walk.skipSubtree`, called between two events, leaves out what stands
before the next return to the node above: after entering a node its parts, after leaving one its
later siblings.
-/

namespace SwiftTree

/-- A moment of a walk. -/
inductive Walk.Event where
  /-- the walk comes to a node -/
  | enter (node : Node)
  /-- the walk is done with a node -/
  | leave (node : Node)
deriving DecidableEq

/-- A walk that has come so far. -/
structure Walk where
  /-- the node whose subtree is walked -/
  start : Node
  /-- the event that is reported next -/
  next : Option Walk.Event
deriving DecidableEq

namespace Walk

/-- The walk from a node, before its first event. -/
def new (start : Node) : Walk := ⟨start, some (.enter start)⟩

/-- What follows an event when nothing is left out. -/
def Event.successor (start : Node) : Event → Option Event
  | enter n =>
    match n.firstChild with
    | some child => some (enter child)
    | none => some (leave n)
  | leave n =>
    if n == start then none
    else
      match n.nextSibling with
      | some sibling => some (enter sibling)
      | none => n.parent.map leave

/-- Leaves out what stands before the next return to the node above. -/
def skipSubtree (w : Walk) : Walk :=
  { w with
    next := w.next.bind fun
      | .enter n => n.parent.map .leave
      | .leave n => some (.leave n) }

/-- The next event, and the walk after it. -/
def step (w : Walk) : Option (Event × Walk) :=
  w.next.map fun e => (e, { w with next := e.successor w.start })

/-- The events of a walk, at most `limit` of them, where `skips` says after which events a subtree
is left out. -/
def events (skips : Event → Bool) : Nat → Walk → List Event
  | 0, _ => []
  | limit + 1, w =>
    match w.step with
    | none => []
    | some (e, w) => e :: events skips limit (if skips e then w.skipSubtree else w)

end Walk

end SwiftTree
