import SwiftTree.Green

/-!
# Places in a tree

A `Node` is an inner node of a tree together with the way to it: the tree below it, its byte offset,
and for every step down from the root the node above and the index of the child that was taken. So a
node knows its parent and its siblings, and two nodes of one tree are the same place exactly when
their ways agree. A `Leaf` is a leaf of the tree in the same sense.

Ranges count bytes. The range of a node covers the trivia at its ends; its trimmed range runs from
its first to its last token of the source.
-/

namespace SwiftTree

/-- A range of byte positions. -/
structure Span where
  /-- the first position -/
  start : Nat
  /-- the position behind the last -/
  stop : Nat
deriving DecidableEq, Repr, Inhabited

namespace Span

/-- The empty range at a position. -/
def empty (pos : Nat) : Span := ⟨pos, pos⟩

/-- The range of `len` bytes from a position. -/
def ofLen (pos len : Nat) : Span := ⟨pos, pos + len⟩

/-- Whether a range covers nothing. -/
def isEmpty (s : Span) : Bool := s.start == s.stop

/-- Whether a range covers a position. -/
def contains (s : Span) (pos : Nat) : Bool := s.start ≤ pos && pos < s.stop

end Span

/-- One step of the way from the root to a node. -/
structure Frame where
  /-- the kind of the node above -/
  kind : Kind
  /-- the parts of the node above -/
  children : List Green
  /-- the offset of the node above -/
  offset : Nat
  /-- which of the parts the way takes -/
  index : Nat
deriving DecidableEq

/-- An inner node of a tree, and the way to it. -/
structure Node where
  /-- what the node is -/
  kind : Kind
  /-- the parts of the node -/
  children : List Green
  /-- where the node starts -/
  offset : Nat
  /-- the steps from the root, the last one first -/
  way : List Frame
deriving DecidableEq

/-- A leaf of a tree, and the way to it. -/
structure Leaf where
  /-- the node that holds the leaf -/
  parent : Node
  /-- which of the parts of the parent the leaf is -/
  index : Nat
  /-- where the leaf starts -/
  offset : Nat
  /-- the leaf itself -/
  green : Green.Leaf
deriving DecidableEq

/-- A part of a node. -/
inductive Element where
  | node (node : Node)
  | leaf (leaf : Leaf)

namespace Leaf

/-- What the leaf is. -/
def kind (l : Leaf) : Kind := l.green.kind

/-- Whether the leaf was read from the source. -/
def isPresent (l : Leaf) : Bool := l.green.isPresent

/-- The range of the leaf with its trivia. -/
def range (l : Leaf) : Span := .ofLen l.offset l.green.byteLen

/-- The range of the leaf without its trivia. A missing token has an empty range. -/
def trimmedRange (l : Leaf) : Span :=
  match l.green with
  | .present t =>
    ⟨l.offset + t.leading.byteLen, l.offset + (t.byteLen - t.trailing.byteLen)⟩
  | .missing _ _ => .empty l.offset

/-- Whether a line break leads the leaf. -/
def isAtLineStart (l : Leaf) : Bool := l.green.leading.containsNewline

end Leaf

namespace Node

/-- The root of a tree. A leaf is its own root's only part. -/
def ofGreen : Green → Node
  | .node kind children => ⟨kind, children, 0, []⟩
  | .leaf l => ⟨l.kind, [.leaf l], 0, []⟩

/-- The tree below the node. -/
def green (n : Node) : Green := .node n.kind n.children

/-- The indices of the steps from the root, the last one first. -/
def path (n : Node) : List Nat := n.way.map (·.index)

/-- The way on to the part with a given index. -/
def step (n : Node) (index : Nat) : List Frame := ⟨n.kind, n.children, n.offset, index⟩ :: n.way

/-- The node above. -/
def parent (n : Node) : Option Node :=
  match n.way with
  | [] => none
  | f :: way => some ⟨f.kind, f.children, f.offset, way⟩

/-- The nodes at the steps of a way. -/
def ofWay : List Frame → List Node
  | [] => []
  | f :: way => ⟨f.kind, f.children, f.offset, way⟩ :: ofWay way

/-- The node and the nodes above it, up to the root. -/
def ancestors (n : Node) : List Node := n :: ofWay n.way

/-- Which part of the node above the node is. The root counts as the first part of nothing. -/
def index (n : Node) : Nat :=
  match n.way with
  | [] => 0
  | f :: _ => f.index

/-- Whether two nodes, each given with the nodes above it, are one place: they start at one offset,
are the same part of the node above them, what is below them is the same (`identical`), and the
nodes above them are one place. -/
def onePlace (identical : Node → Node → Bool) : List Node → List Node → Bool
  | [], [] => true
  | a :: as, b :: bs =>
    a.offset == b.offset && a.index == b.index && identical a b && onePlace identical as bs
  | _, _ => false

/-- Two nodes are equal when they are the same place of the same tree. -/
instance : BEq Node := ⟨fun a b => onePlace (fun a b => a.green == b.green) a.ancestors b.ancestors⟩

theorem onePlace_refl {identical : Node → Node → Bool} (h : ∀ n, identical n n) (ns : List Node) :
    onePlace identical ns ns := by
  induction ns with
  | nil => rfl
  | cons n ns ih => simp [onePlace, h, ih]

theorem onePlace_cons_iff {identical : Node → Node → Bool} {a b : Node} {as bs : List Node} :
    onePlace identical (a :: as) (b :: bs) ↔
      a.offset = b.offset ∧ a.index = b.index ∧ identical a b ∧ onePlace identical as bs := by
  simp [onePlace, and_assoc]

/-- What a comparison looks at is all that there is to a node. -/
theorem eq_of_onePlace {a b : Node}
    (h : onePlace (fun a b => a.green == b.green) a.ancestors b.ancestors) : a = b := by
  obtain ⟨kind, children, offset, way⟩ := a
  obtain ⟨kind', children', offset', way'⟩ := b
  induction way generalizing kind children offset kind' children' offset' way' with
  | nil =>
    obtain ⟨hoffset, -, hgreen, habove⟩ := onePlace_cons_iff.mp h
    obtain ⟨rfl, rfl⟩ := Green.node.inj (beq_iff_eq.mp hgreen)
    cases way' with
    | nil => exact congrArg (Node.mk kind children · []) hoffset
    | cons f' way' => cases habove
  | cons f way ih =>
    obtain ⟨hoffset, hindex, hgreen, habove⟩ := onePlace_cons_iff.mp h
    obtain ⟨rfl, rfl⟩ := Green.node.inj (beq_iff_eq.mp hgreen)
    cases way' with
    | nil => cases habove
    | cons f' way' =>
      obtain ⟨hkind, hchildren, hoffset', rfl⟩ := Node.mk.inj (ih _ _ _ _ _ _ _ habove)
      have hframe : f = f' := Frame.mk.injEq .. ▸ ⟨hkind, hchildren, hoffset', hindex⟩
      exact hframe ▸ congrArg (Node.mk kind children · (f :: way)) hoffset

instance : LawfulBEq Node where
  rfl {n} := onePlace_refl (fun n => beq_self_eq_true n.green) n.ancestors
  eq_of_beq h := eq_of_onePlace h

/-- The range of the node. -/
def range (n : Node) : Span := .ofLen n.offset n.green.byteLen

/-- The source that the node covers. -/
def text (n : Node) : Text := n.green.text

/-- A part of the node as a place. -/
def element (n : Node) (index offset : Nat) : Green → Element
  | .node kind children => .node ⟨kind, children, offset, n.step index⟩
  | .leaf l => .leaf ⟨n, index, offset, l⟩

/-- Parts of the node as places, from a given index and offset on. -/
def elementsFrom (n : Node) (index offset : Nat) : List Green → List Element
  | [] => []
  | g :: gs => n.element index offset g :: n.elementsFrom (index + 1) (offset + g.byteLen) gs

/-- The parts of the node. -/
def elements (n : Node) : List Element := n.elementsFrom 0 n.offset n.children

end Node

namespace Element

/-- The node that the part is. -/
def node? : Element → Option Node
  | node n => some n
  | leaf _ => none

/-- The leaf that the part is. -/
def leaf? : Element → Option Leaf
  | node _ => none
  | leaf l => some l

/-- What the part is. -/
def kind : Element → Kind
  | node n => n.kind
  | leaf l => l.kind

/-- The range of the part. -/
def range : Element → Span
  | node n => n.range
  | leaf l => l.range

end Element

namespace Node

/-- The nodes among the parts. -/
def childNodes (n : Node) : List Node := n.elements.filterMap Element.node?

/-- The leaves among the parts. -/
def childLeaves (n : Node) : List Leaf := n.elements.filterMap Element.leaf?

/-- The first node among the parts. -/
def firstChild (n : Node) : Option Node := n.childNodes.head?

/-- The next node with the same parent. -/
def nextSibling (n : Node) : Option Node :=
  match n.way with
  | [] => none
  | f :: _ => do
    let parent ← n.parent
    ((parent.elements.drop (f.index + 1)).filterMap Element.node?).head?

/-- The node before this one with the same parent. -/
def prevSibling (n : Node) : Option Node :=
  match n.way with
  | [] => none
  | f :: _ => do
    let parent ← n.parent
    ((parent.elements.take f.index).filterMap Element.node?).getLast?

mutual

/-- The leaves of a part of the node `n`. -/
def leavesIn (n : Node) (index offset : Nat) : Green → List Leaf
  | .node kind children => leavesFrom ⟨kind, children, offset, n.step index⟩ 0 offset children
  | .leaf l => [⟨n, index, offset, l⟩]

/-- The leaves of several parts of the node `n`. -/
def leavesFrom (n : Node) (index offset : Nat) : List Green → List Leaf
  | [] => []
  | g :: gs => leavesIn n index offset g ++ leavesFrom n (index + 1) (offset + g.byteLen) gs

end

/-- The leaves below the node, in source order. -/
def leaves (n : Node) : List Leaf := leavesFrom n 0 n.offset n.children

mutual

/-- A part of the node `n` and the nodes below it. -/
def nodesIn (n : Node) (index offset : Nat) : Green → List Node
  | .node kind children =>
    let below : Node := ⟨kind, children, offset, n.step index⟩
    below :: nodesFrom below 0 offset children
  | .leaf _ => []

/-- Several parts of the node `n` and the nodes below them. -/
def nodesFrom (n : Node) (index offset : Nat) : List Green → List Node
  | [] => []
  | g :: gs => nodesIn n index offset g ++ nodesFrom n (index + 1) (offset + g.byteLen) gs

end

/-- The node and the nodes below it, in source order, each before its parts. -/
def descendants (n : Node) : List Node := n :: nodesFrom n 0 n.offset n.children

/-- The tokens of the source below the node. -/
def presentLeaves (n : Node) : List Leaf := n.leaves.filter Leaf.isPresent

/-- The first leaf below the node. -/
def firstLeaf (n : Node) : Option Leaf := n.leaves.head?

/-- The range from the first to the last token of the source below the node, without the trivia
outside them. It is empty when there are none. -/
def trimmedRange (n : Node) : Span :=
  match n.presentLeaves with
  | [] => .empty n.offset
  | first :: rest =>
    ⟨first.trimmedRange.start, ((first :: rest).getLastD first).trimmedRange.stop⟩

/-- The source without the trivia at both ends. -/
def textTrimmed (n : Node) : Text :=
  let range := n.trimmedRange
  (Text.slice? (range.start - n.offset) (range.stop - n.offset) n.text).getD []

/-- Whether the node stands for something that was not found. -/
def isMissing (n : Node) : Bool := n.green.isMissing

/-- The innermost node whose trimmed range is not empty and starts at a position. -/
def startingAt (n : Node) (pos : Nat) : Option Node :=
  (n.descendants.filter fun d => d.trimmedRange.start == pos && !d.trimmedRange.isEmpty).getLast?

/-- The token of the source that covers a position, or that is empty and stands at it. -/
def leafAt (n : Node) (pos : Nat) : Option Leaf :=
  n.presentLeaves.find? fun l =>
    let range := l.trimmedRange
    range.contains pos || (range.isEmpty && range.start == pos)

end Node

end SwiftTree
