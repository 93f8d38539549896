import SwiftTree.Grammar.Ahead
import SwiftTree.Kind.Set

/-!
# What a set of kinds stands for

A set of kinds is put together from lists of kinds, by adding kinds and by unions
(`KindSet.Recipe`). Whatever the recipe, the set has the kinds as members that were put in. The
words of a set have more bits than there are kinds; but no recipe sets a bit that is none of a
kind's (`KindSet.IsTight`). So the bits that can be asked for are all that tell two sets apart, and
the laws of unions follow from what it means to be a member (`KindSet.represents_kinds`).
-/

namespace SwiftTree

/-- The kinds are numbered by their places in the enumeration, without gaps. -/
theorem Kind.ordinals_all : Kind.all.map Kind.ordinal = List.range Kind.count := by decide +kernel

/-- Every number below the count is the number of a kind. -/
theorem Kind.exists_ordinal_eq {i : Nat} (h : i < Kind.count) : ∃ k : Kind, k.ordinal = i := by
  have hmem := List.mem_range.mpr h
  rw [← Kind.ordinals_all] at hmem
  obtain ⟨k, -, hk⟩ := List.mem_map.mp hmem
  exact ⟨k, hk⟩

namespace KindSet

open Grammar (Ahead)

variable {s t : KindSet} {k : Kind}

/-! ## Bits that belong to no kind -/

/-- Whether every bit that is set is the bit of a kind. -/
def IsTight (s : KindSet) : Prop :=
  ∀ (j : Nat) (_ : j < slotCount) (i : Nat), i < 64 → s.slots[j].getLsbD i → 64 * j + i < Kind.count

/-- The empty set has no bits. -/
theorem isTight_empty : empty.IsTight := by
  intro j _ i _ hbit
  simp [empty] at hbit

/-- The set of one kind has the bit of this kind. -/
theorem isTight_single (k : Kind) : (single k).IsTight := by
  intro j _ i _ hbit
  have hlt := k.ordinal_lt
  rw [single, Vector.getElem_set] at hbit
  split at hbit
  · rename_i hslot
    rw [getLsbD_mask, decide_eq_true_iff] at hbit
    unfold slot at hslot
    omega
  · simp [empty] at hbit

/-- The bits of a union are those of either set. -/
theorem IsTight.union (hs : s.IsTight) (ht : t.IsTight) : (s.union t).IsTight := by
  intro j hj i hi hbit
  rw [KindSet.union, Vector.getElem_ofFn, BitVec.getLsbD_or, Bool.or_eq_true] at hbit
  exact hbit.elim (hs j hj i hi) (ht j hj i hi)

theorem IsTight.insert (hs : s.IsTight) (k : Kind) : (s.insert k).IsTight :=
  hs.union (isTight_single k)

/-- A set of listed kinds only has their bits. -/
theorem isTight_ofList (ks : List Kind) : (ofList ks).IsTight := by
  suffices h : ∀ s : KindSet, s.IsTight → (ks.foldl KindSet.insert s).IsTight from h _ isTight_empty
  induction ks with
  | nil => exact fun _ hs => hs
  | cons k ks ih => exact fun s hs => ih _ (hs.insert k)

/-- Sets with the same members are one set, if only bits of kinds are set in them. -/
theorem eq_of_contains_eq (hs : s.IsTight) (ht : t.IsTight)
    (h : ∀ k, s.contains k = t.contains k) : s = t := by
  obtain ⟨s⟩ := s
  obtain ⟨t⟩ := t
  refine congrArg KindSet.mk (Vector.ext fun j hj => BitVec.eq_of_getLsbD_eq fun i hi => ?_)
  by_cases hcount : 64 * j + i < Kind.count
  · obtain ⟨k, hk⟩ := Kind.exists_ordinal_eq hcount
    have hslot : slot k = j := by
      unfold slot
      omega
    have hbit : k.ordinal % 64 = i := by omega
    subst hslot hbit
    have hsame := h k
    rwa [contains_eq_getLsbD, contains_eq_getLsbD] at hsame
  · have hnone : s[j].getLsbD i = false :=
      Bool.eq_false_iff.mpr fun hbit => hcount (hs j hj i hi hbit)
    exact hnone.trans (Bool.eq_false_iff.mpr fun hbit => hcount (ht j hj i hi hbit)).symm

/-! ## How sets are put together -/

/-- How a set of kinds is put together. -/
inductive Recipe where
  /-- nothing is put in -/
  | empty
  /-- the kinds of a list are put in -/
  | ofList (ks : List Kind)
  /-- a kind is added -/
  | insert (r : Recipe) (k : Kind)
  /-- two sets are joined -/
  | union (q r : Recipe)

namespace Recipe

/-- The set that is put together. -/
def set : Recipe → KindSet
  | empty => .empty
  | ofList ks => .ofList ks
  | insert r k => r.set.insert k
  | union q r => q.set.union r.set

/-- The kinds that are put in. -/
def kinds : Recipe → List Kind
  | empty => []
  | ofList ks => ks
  | insert r k => k :: r.kinds
  | union q r => q.kinds ++ r.kinds

/-- However a set is put together, it only has bits of kinds. -/
theorem isTight_set (r : Recipe) : r.set.IsTight := by
  induction r with
  | empty => exact isTight_empty
  | ofList ks => exact isTight_ofList ks
  | insert r k ih => exact ih.insert k
  | union q r ihq ihr => exact ihq.union ihr

/-- The members are the kinds that were put in. -/
theorem contains_set_iff (r : Recipe) (k : Kind) : r.set.contains k ↔ k ∈ r.kinds := by
  induction r with
  | empty => simp [set, kinds]
  | ofList ks => simp [set, kinds]
  | insert r j ih => simp [set, kinds, ih]
  | union q r ihq ihr => simp [set, kinds, ihq, ihr]

/-- Two recipes make one set exactly if the same kinds are put in. -/
theorem set_eq_iff (q r : Recipe) : q.set = r.set ↔ ∀ k, k ∈ q.kinds ↔ k ∈ r.kinds := by
  have hcontains (k : Kind) : q.set.contains k = r.set.contains k ↔
    (k ∈ q.kinds ↔ k ∈ r.kinds) := by
    rw [Bool.eq_iff_iff, contains_set_iff, contains_set_iff]
  constructor
  · exact fun heq k => (hcontains k).mp (heq ▸ rfl)
  · exact fun hsame => eq_of_contains_eq q.isTight_set r.isTight_set fun k =>
      (hcontains k).mpr (hsame k)

end Recipe

/-- **A set of kinds is the finite set of what was put in.** However sets are put together,
- the word that has the bit of a kind is one of the set's, and the members are the kinds that were
  put in;
- two sets are equal exactly if they have the same members;
- unions can be taken in any order and of a set with itself, and to add a kind is to take the union
  with the set that has only this member;
- so the next token is in a set exactly if its kind was put in. -/
theorem represents_kinds :
    (∀ (r : Recipe) (k : Kind), slot k < r.set.slots.size ∧ (r.set.contains k ↔ k ∈ r.kinds)) ∧
    (∀ q r : Recipe, q.set == r.set ↔ ∀ k, q.set.contains k = r.set.contains k) ∧
    ((∀ q r : Recipe, q.set.union r.set = r.set.union q.set) ∧
      (∀ p q r : Recipe, (p.set.union q.set).union r.set = p.set.union (q.set.union r.set)) ∧
      (∀ r : Recipe, r.set.union r.set = r.set) ∧
      ∀ (r : Recipe) (k : Kind), r.set.insert k = r.set.union (ofList [k])) ∧
    ∀ (r : Recipe) (ts : Ahead), ts.isIn r.set ↔ ts.kind ∈ r.kinds := by
  refine ⟨fun r k => ⟨slot_lt k, r.contains_set_iff k⟩, fun q r => ?_,
    ⟨fun q r => ?_, fun p q r => ?_, fun r => ?_, fun r k => ?_⟩,
    fun r ts => r.contains_set_iff ts.kind⟩
  · rw [beq_iff_eq]
    exact ⟨fun heq k => heq ▸ rfl, eq_of_contains_eq q.isTight_set r.isTight_set⟩
  · refine (Recipe.set_eq_iff (.union q r) (.union r q)).mpr fun k => ?_
    simp [Recipe.kinds, or_comm]
  · refine (Recipe.set_eq_iff (.union (.union p q) r) (.union p (.union q r))).mpr fun k => ?_
    simp [Recipe.kinds]
  · refine (Recipe.set_eq_iff (.union r r) r).mpr fun k => ?_
    simp [Recipe.kinds]
  · refine (Recipe.set_eq_iff (.insert r k) (.union r (.ofList [k]))).mpr fun j => ?_
    simp [Recipe.kinds, or_comm]

/-- Every word of a set can have members, up to the last kind of the enumeration. -/
example : ((ofList [.leftParen, .endOfFile, .awaitExpr]).insert .tombstone).toList
    = [.leftParen, .endOfFile, .awaitExpr, .tombstone] := by
  decide +kernel

end KindSet

end SwiftTree
