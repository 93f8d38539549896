import SwiftTree.Kind

/-!
# Sets of kinds

The grammar decides by the kind of the next token, against fixed sets of kinds. There are more kinds
than a word has bits, so a `KindSet` has several words, and one bit per kind in them: the ordinal of
the kind, divided by the width of a word, says which word (`KindSet.slot`), and the remainder which
bit of it (`KindSet.mask`). Membership of a kind is one bit test (`KindSet.contains`).
-/

namespace SwiftTree

/-- How many words a set has: as many as the last kind of the enumeration requires. -/
def KindSet.slotCount : Nat := (Kind.ordinal .tombstone + 1 + 63) / 64

/-- A set of kinds: each bit says whether the kind with the bit's number is a member. -/
structure KindSet where
  /-- the bits, in words -/
  slots : Vector (BitVec 64) KindSet.slotCount
deriving DecidableEq

namespace KindSet

/-- The set without members. -/
def empty : KindSet := ⟨.replicate _ 0#64⟩

instance : Inhabited KindSet := ⟨empty⟩

/-- The word that has the bit of a kind. -/
def slot (k : Kind) : Nat := k.ordinal / 64

/-- The bit of a kind in its word. -/
def mask (k : Kind) : BitVec 64 := 1#64 <<< (k.ordinal % 64)

theorem slot_lt (k : Kind) : slot k < slotCount :=
  Nat.div_lt_of_lt_mul (Nat.lt_of_lt_of_le k.ordinal_lt (by decide))

/-- The set with one member. -/
def single (k : Kind) : KindSet := ⟨empty.slots.set (slot k) (mask k) (slot_lt k)⟩

/-- The members of either set. -/
def union (s t : KindSet) : KindSet := ⟨.ofFn fun i => s.slots[i] ||| t.slots[i]⟩

/-- A set with one more member. -/
def insert (s : KindSet) (k : Kind) : KindSet := s.union (single k)

/-- The set of the kinds in a list. -/
def ofList (ks : List Kind) : KindSet := ks.foldl insert empty

/-- The word of a set that has the bit of a kind. -/
def word (s : KindSet) (k : Kind) : BitVec 64 :=
  have := slot_lt k
  s.slots[slot k]

/-- Membership. -/
def contains (s : KindSet) (k : Kind) : Bool := s.word k &&& mask k != 0#64

theorem getLsbD_mask (k : Kind) (i : Nat) : (mask k).getLsbD i = decide (k.ordinal % 64 = i) := by
  have hlt : k.ordinal % 64 < 64 := Nat.mod_lt _ (by decide)
  rw [mask, ← BitVec.twoPow_eq, BitVec.getLsbD_twoPow, decide_eq_true hlt, Bool.true_and]

theorem mask_ne_zero (k : Kind) : mask k ≠ 0#64 := by
  intro hzero
  have hbit := getLsbD_mask k (k.ordinal % 64)
  rw [hzero, BitVec.getLsbD_zero, decide_eq_true rfl] at hbit
  exact Bool.false_ne_true hbit

/-- The test with the mask of a kind reads the kind's bit. -/
theorem contains_eq_getLsbD (s : KindSet) (k : Kind) :
    s.contains k = (s.word k).getLsbD (k.ordinal % 64) := by
  have hmask := mask_ne_zero k
  rw [contains]
  rw [mask, ← BitVec.twoPow_eq] at hmask ⊢
  rw [BitVec.and_twoPow]
  cases (s.word k).getLsbD (k.ordinal % 64) with
  | true => exact bne_iff_ne.mpr hmask
  | false => exact bne_self_eq_false _

@[simp] theorem contains_empty (k : Kind) : empty.contains k = false := by
  rw [contains_eq_getLsbD, word, empty, Vector.getElem_replicate, BitVec.getLsbD_zero]

@[simp] theorem contains_single (j k : Kind) : (single j).contains k = (k == j) := by
  rw [contains_eq_getLsbD, word, single, Vector.getElem_set, Bool.eq_iff_iff, beq_iff_eq]
  by_cases hslot : slot j = slot k
  · -- in one word the remainders tell the kinds apart
    rw [if_pos hslot, getLsbD_mask, decide_eq_true_iff]
    refine ⟨fun h => Kind.eq_of_ordinal_eq ?_, fun h => h ▸ rfl⟩
    unfold slot at hslot
    omega
  · rw [if_neg hslot, empty, Vector.getElem_replicate, BitVec.getLsbD_zero]
    refine iff_of_false Bool.false_ne_true ?_
    rintro rfl
    exact hslot rfl

@[simp] theorem contains_union (s t : KindSet) (k : Kind) :
    (s.union t).contains k = (s.contains k || t.contains k) := by
  rw [contains_eq_getLsbD, contains_eq_getLsbD, contains_eq_getLsbD, word, union,
    Vector.getElem_ofFn, BitVec.getLsbD_or]
  rfl

@[simp] theorem contains_insert (s : KindSet) (j k : Kind) :
    (s.insert j).contains k = (k == j || s.contains k) := by
  rw [insert, contains_union, contains_single, Bool.or_comm]

/-- The members of a set are those of its list. -/
@[simp] theorem contains_ofList (ks : List Kind) (k : Kind) :
    (ofList ks).contains k = ks.contains k := by
  suffices h : ∀ s : KindSet, (ks.foldl insert s).contains k = (ks.contains k || s.contains k) by
    rw [ofList, h, contains_empty, Bool.or_false]
  induction ks with
  | nil => exact fun s => rfl
  | cons j ks ih =>
    intro s
    rw [List.foldl_cons, ih, contains_insert, List.contains_cons, Bool.or_left_comm, Bool.or_assoc]

/-- The members, in the order of the enumeration. -/
def toList (s : KindSet) : List Kind := Kind.all.filter s.contains

/-- Whether a set has no member. -/
def isEmpty (s : KindSet) : Bool := s == empty

end KindSet

end SwiftTree
