import SwiftTree.Token

/-!
# Trees without positions

A `Green` tree has inner nodes of a kind and leaves. A leaf is a token of the source or a missing
token: one that the grammar asked for and the source does not have. A missing token has the spelling
it would have had, and takes no room.

`Green.text` is the source that a tree covers, `Green.leaves` the leaves in source order.
-/

namespace SwiftTree

/-- A leaf of a tree. -/
inductive Green.Leaf where
  /-- a token of the source -/
  | present (token : Token.Outline)
  /-- a token that the source lacks, and its spelling -/
  | missing (kind : Kind) (spelling : Text)
deriving DecidableEq, Repr

/-- A tree, or a leaf of one. -/
inductive Green where
  /-- an inner node and what it is made of -/
  | node (kind : Kind) (children : List Green)
  /-- a token or a missing token -/
  | leaf (leaf : Green.Leaf)
deriving Repr

namespace Green.Leaf

/-- What the leaf is. -/
def kind : Leaf → Kind
  | present t => t.kind
  | missing k _ => k

/-- Whether the leaf was read from the source. -/
def isPresent : Leaf → Bool
  | present _ => true
  | missing _ _ => false

/-- The text with trivia; of a missing token, its spelling. -/
def text : Leaf → Text
  | present t => t.full
  | missing _ s => s

/-- The text without trivia. -/
def textTrimmed : Leaf → Text
  | present t => t.text
  | missing _ s => s

/-- The source that the leaf covers. -/
def source : Leaf → Text
  | present t => t.full
  | missing _ _ => []

/-- How many bytes of source the leaf covers. -/
def byteLen : Leaf → Nat
  | present t => t.byteLen
  | missing _ _ => 0

/-- The trivia before the leaf. -/
def leading : Leaf → Trivia.Outline
  | present t => t.leading
  | missing _ _ => []

/-- The trivia behind the leaf. -/
def trailing : Leaf → Trivia.Outline
  | present t => t.trailing
  | missing _ _ => []

/-- The length of a leaf is that of its source. -/
theorem byteLen_source (l : Leaf) : Text.byteLen l.source = l.byteLen := by
  cases l with
  | present t => rfl
  | missing k s => rfl

end Green.Leaf

namespace Green

instance : Inhabited Green := ⟨.node .unexpected []⟩

/-- A token as a leaf. -/
def token (t : Token) : Green := .leaf (.present t.outline)

/-- A missing token as a leaf. -/
def missing (kind : Kind) (spelling : Text) : Green := .leaf (.missing kind spelling)

/-- What the tree is. -/
def kind : Green → Kind
  | node k _ => k
  | leaf l => l.kind

/-- The parts of an inner node. -/
def children : Green → List Green
  | node _ cs => cs
  | leaf _ => []

/-- Whether the tree is an inner node. -/
def isNode : Green → Bool
  | node _ _ => true
  | leaf _ => false

mutual

/-- The leaves, in source order. -/
def leaves : Green → List Leaf
  | node _ cs => leavesOf cs
  | leaf l => [l]

/-- The leaves of several trees. -/
def leavesOf : List Green → List Leaf
  | [] => []
  | g :: gs => g.leaves ++ leavesOf gs

end

mutual

/-- The source that the tree covers. -/
def text : Green → Text
  | node _ cs => textOf cs
  | leaf l => l.source

/-- The source that several trees cover. -/
def textOf : List Green → Text
  | [] => []
  | g :: gs => g.text ++ textOf gs

end

mutual

/-- How many bytes of source the tree covers. -/
def byteLen : Green → Nat
  | node _ cs => byteLenOf cs
  | leaf l => l.byteLen

/-- How many bytes several trees cover. -/
def byteLenOf : List Green → Nat
  | [] => 0
  | g :: gs => g.byteLen + byteLenOf gs

end

mutual

theorem byteLen_text : (g : Green) → Text.byteLen g.text = g.byteLen
  | node _ cs => by rw [text, byteLen, byteLen_textOf cs]
  | leaf l => by rw [text, byteLen, l.byteLen_source]

/-- The length of several trees is that of their text. -/
theorem byteLen_textOf : (gs : List Green) → Text.byteLen (textOf gs) = byteLenOf gs
  | [] => rfl
  | g :: gs => by
    rw [textOf, byteLenOf, Text.byteLen_append, byteLen_text g, byteLen_textOf gs]

end

mutual

/-- Equality of trees, down to the pieces of trivia. -/
def decEq : (a b : Green) → Decidable (a = b)
  | node k cs, node l ds =>
    if hk : k = l then
      match decEqAll cs ds with
      | isTrue h => isTrue (by rw [hk, h])
      | isFalse h => isFalse (by simp [h])
    else isFalse (by simp [hk])
  | leaf l, leaf m =>
    if h : l = m then isTrue (by rw [h]) else isFalse (by simp [h])
  | node .., leaf _ => isFalse (by simp)
  | leaf _, node .. => isFalse (by simp)

/-- Equality of lists of trees. -/
def decEqAll : (as bs : List Green) → Decidable (as = bs)
  | [], [] => isTrue rfl
  | a :: as, b :: bs =>
    match decEq a b with
    | isTrue h =>
      match decEqAll as bs with
      | isTrue h' => isTrue (by rw [h, h'])
      | isFalse h' => isFalse (by simp [h'])
    | isFalse h => isFalse (by simp [h])
  | [], _ :: _ => isFalse (by simp)
  | _ :: _, [] => isFalse (by simp)

end

instance : DecidableEq Green := decEq

mutual

/-- Whether the tree covers a token of the source. -/
def hasPresent : Green → Bool
  | node _ cs => hasPresentOf cs
  | leaf l => l.isPresent

/-- Whether one of several trees covers a token of the source. -/
def hasPresentOf : List Green → Bool
  | [] => false
  | g :: gs => g.hasPresent || hasPresentOf gs

end

mutual

/-- A tree has a token that was read just if one of its leaves is one. -/
theorem hasPresent_eq_any : (g : Green) → g.hasPresent = g.leaves.any Leaf.isPresent
  | node _ cs => by
    rw [hasPresent, leaves]
    exact hasPresentOf_eq_any cs
  | leaf l => by simp [hasPresent, leaves]

/-- The same for several trees. -/
theorem hasPresentOf_eq_any :
    (gs : List Green) → hasPresentOf gs = (leavesOf gs).any Leaf.isPresent
  | [] => rfl
  | g :: gs => by
    rw [hasPresentOf, leavesOf, List.any_append, hasPresent_eq_any g, hasPresentOf_eq_any gs]

end

/-- Whether every leaf is a missing token, of which there is at least one, or the tree is a
placeholder by its kind. -/
def isMissing (g : Green) : Bool :=
  g.kind.isMissingNode || (!g.hasPresent && !g.leaves.isEmpty)

end Green

end SwiftTree
