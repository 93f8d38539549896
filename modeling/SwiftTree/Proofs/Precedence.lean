import SwiftTree.Proofs.Conformance.Trees

/-!
# Operators group by precedence

`Green.words` forgets how the operators of an expression are grouped: it lists its operands, what
stands before them, and the operators between and behind them. The powers of the operators bring the
grouping back. No two trees that are grouped by powers have the same words
(`Green.Composed.unique`).

The proof reads words from the left, as the rules do. What may follow an operand on its own, or a
sequence with operators of at least some power, decides where it ends (`Green.IsUnary`,
`Green.IsSequence`). Both are unique among the words that they stand at the start of, by induction
on how many words there are.
-/

namespace SwiftTree

open Grammar

namespace Shape.Matches

variable {a b c : Shape} {xs : List Green}

/-- A shape that starts with an expression gives the expression, and what matches the rest of the
shape. -/
theorem exists_expr_seq (h : (Shape.seq .expr a).Matches xs) :
    ∃ l ys, xs = l :: ys ∧ Shape.expr.Matches [l] ∧ a.Matches ys := by
  cases h with
  | seq hl hys => cases hl with
    | node hkind => exact ⟨_, _, rfl, .node hkind, hys⟩

/-- A shape that ends with an expression gives the expression, and what matches the shape before
it. -/
theorem exists_seq_expr (h : (Shape.seq a .expr).Matches xs) :
    ∃ ys r, xs = ys ++ [r] ∧ a.Matches ys ∧ Shape.expr.Matches [r] := by
  cases h with
  | seq hys hr => cases hr with
    | node hkind => exact ⟨_, _, rfl, hys, .node hkind⟩

/-- How the parts of a shape are bracketed does not matter. -/
theorem assoc (h : (Shape.seq a (.seq b c)).Matches xs) : (Shape.seq (.seq a b) c).Matches xs := by
  cases h with
  | seq ha hbc => cases hbc with
    | seq hb hc =>
      rw [← List.append_assoc]
      exact .seq (.seq ha hb) hc

end Shape.Matches

namespace Green

/-! ## The words of an expression -/

/-- A part of an expression whose operators are not grouped. -/
inductive Word where
  /-- an operand -/
  | operand (g : Green)
  /-- what stands before an operand -/
  | before (kind : Kind) (parts : List Green)
  /-- an operator with an operand on either side -/
  | between (kind : Kind) (parts : List Green)
  /-- an operator behind its only operand, with what belongs to it -/
  | behind (kind : Kind) (parts : List Green)

/-- The power of a word that is an operator. -/
def Word.power? : Word → Option Power
  | between kind parts | behind kind parts => powerOf? kind parts
  | operand _ | before _ _ => none

/-- The power of the operator that words start with, if they do. -/
def nextPower? (ws : List Word) : Option Power := ws.head?.bind Word.power?

mutual

/-- The operands and operators of an expression, in source order. -/
def words : Green → List Word
  | .node kind cs =>
    if kind.hasRightOperand then
      firstWords cs ++ .between kind cs.tail.dropLast :: lastWords cs
    else if kind.isInfix then firstWords cs ++ [.behind kind cs.tail]
    else if kind.isPrefixed then .before kind cs.dropLast :: lastWords cs
    else [.operand (.node kind cs)]
  | .leaf l => [.operand (.leaf l)]

/-- Those of the first tree. -/
def firstWords : List Green → List Word
  | [] => []
  | g :: _ => g.words

/-- Those of the last tree. -/
def lastWords : List Green → List Word
  | [] => []
  | [g] => g.words
  | _ :: h :: gs => lastWords (h :: gs)

end

theorem lastWords_concat (ps : List Green) (r : Green) : lastWords (ps ++ [r]) = r.words := by
  induction ps with
  | nil => rw [List.nil_append, lastWords]
  | cons p ps ih =>
    cases ps with
    | nil => exact ih
    | cons q ps => exact ih

section

variable {kind : Kind} {l r : Green} {ps : List Green} {p : Power}

/-- What no operator has put together is one word, whatever is below it. -/
theorem words_operand (h : kind.isOperation = false) :
    (node kind ps).words = [.operand (node kind ps)] := by
  obtain ⟨hjoin, hprefixed⟩ := Kind.not_isOperation h
  have hright : ¬kind.hasRightOperand := fun hright => by
    rw [Kind.isInfix_of_hasRightOperand hright] at hjoin
    cases hjoin
  rw [words, if_neg hright, if_neg (by rw [hjoin]; exact Bool.false_ne_true),
    if_neg (by rw [hprefixed]; exact Bool.false_ne_true)]

/-- The words of a node that stands before its operand: the node without the operand, and the words
of that. -/
theorem words_before (h : kind.isPrefixed) :
    (node kind (ps ++ [r])).words = .before kind ps :: r.words := by
  obtain ⟨hjoin, hright⟩ := Kind.not_isInfix_of_isPrefixed h
  rw [words, if_neg (by rw [hright]; exact Bool.false_ne_true),
    if_neg (by rw [hjoin]; exact Bool.false_ne_true), if_pos h, lastWords_concat,
    List.dropLast_concat]

/-- The words of an infix node: those of its left operand, the node without its operands, and those
of its right operand. -/
theorem words_between (h : kind.hasRightOperand) :
    (node kind (l :: (ps ++ [r]))).words = l.words ++ .between kind ps :: r.words := by
  rw [words, if_pos h, firstWords, List.tail_cons, List.dropLast_concat, ← List.cons_append,
    lastWords_concat]

/-- The words of a node whose operator stands behind its operand and takes no other: those of the
operand, and the node without it. -/
theorem words_behind (h : kind.isInfix) (hright : kind.hasRightOperand = false) :
    (node kind (l :: ps)).words = l.words ++ [.behind kind ps] := by
  rw [words, if_neg (by rw [hright]; exact Bool.false_ne_true), if_pos h, firstWords,
    List.tail_cons]

/-- The power is that of the operator, and not of what it stands before. -/
theorem powerOf?_append (h : powerOf? kind ps = some p) (qs : List Green) :
    powerOf? kind (ps ++ qs) = some p := by
  unfold powerOf? at h
  split at h
  case h_1 =>
    obtain ⟨op, hop, hpower⟩ := Option.bind_eq_some_iff.mp h
    rw [powerOf?, List.head?_append, hop]
    exact hpower
  case h_6 => cases h
  all_goals exact h

end

/-! ## Grouped expressions -/

/-- Whether an operator may take an operand that stands before it. -/
structure Joins (kind : Kind) (ps : List Green) (p : Power) (l : Green) : Prop where
  isInfix : kind.isInfix
  power : powerOf? kind ps = some p
  left : l.HoldsAgainst p.left
  ends : ¬l.IsCovering

/-- Expressions that operators put together by their powers. -/
inductive Composed : Green → Prop where
  | operand {kind : Kind} {cs : List Green} (hkind : kind.isOperation = false) :
      Composed (node kind cs)
  | before {kind : Kind} {ps : List Green} {r : Green} (hkind : kind.isPrefixed)
      (htight : kind.isCovering = false → r.kind.isInfix = false) (hr : Composed r) :
      Composed (node kind (ps ++ [r]))
  | between {kind : Kind} {l r : Green} {ps : List Green} {p : Power}
      (hkind : kind.hasRightOperand) (h : Joins kind ps p l) (hright : r.HoldsFrom p.right)
      (hl : Composed l) (hr : Composed r) : Composed (node kind (l :: (ps ++ [r])))
  | behind {kind : Kind} {l : Green} {ps : List Green} {p : Power}
      (hkind : kind.hasRightOperand = false) (h : Joins kind ps p l) (hl : Composed l) :
      Composed (node kind (l :: ps))

section

variable {kind : Kind} {l r : Green} {ps : List Green} {p : Power}

/-- A node that is grouped by powers may take its first part as its left operand, by the power of
its own operator. What stands behind the operator does not matter for this. -/
theorem joins_of_grouped {qs : List Green} (h : (node kind (l :: (ps ++ qs))).Grouped)
    (hkind : kind.isInfix) (hpower : powerOf? kind ps = some p) : Joins kind ps p l :=
  ⟨hkind, hpower, h.left p (powerOf?_append hpower qs) l (leftOperand?_cons hkind),
    h.ends l (leftOperand?_cons hkind)⟩

theorem composed_before (h : (node kind (ps ++ [r])).Grouped) (hkind : kind.isPrefixed)
    (hr : Composed r) : Composed (node kind (ps ++ [r])) :=
  .before hkind
    (fun hcovering =>
      h.tight r (prefixedOperand?_of_isPrefixed hkind List.getLast?_concat hcovering))
    hr

theorem rightOperand?_concat (h : kind.hasRightOperand) :
    (node kind (l :: (ps ++ [r]))).rightOperand? = some r := by
  rw [rightOperand?, if_pos h, ← List.cons_append, List.getLast?_concat]

/-- An infix node is put together of its operands, if it is grouped by powers and both operands are
put together so. -/
theorem composed_between (h : (node kind (l :: (ps ++ [r]))).Grouped)
    (hkind : kind.hasRightOperand) (hpower : powerOf? kind ps = some p) (hl : Composed l)
    (hr : Composed r) : Composed (node kind (l :: (ps ++ [r]))) :=
  .between hkind (joins_of_grouped h (Kind.isInfix_of_hasRightOperand hkind) hpower)
    (h.right p (powerOf?_append hpower [r]) r (rightOperand?_concat hkind)) hl hr

theorem composed_behind (h : (node kind (l :: ps)).Grouped) (hjoin : kind.isInfix)
    (hkind : kind.hasRightOperand = false) (hpower : powerOf? kind ps = some p) (hl : Composed l) :
    Composed (node kind (l :: ps)) := by
  rw [← List.append_nil ps] at h
  exact .behind hkind (joins_of_grouped h hjoin hpower) hl

end

/-- A node of one of the shapes of operations is put together of its operands. -/
theorem composed_of_admits {kind : Kind} {cs : List Green} (h : Admits kind cs)
    (hcs : ∀ g ∈ cs, Shape.expr.Matches [g] → Composed g) : Composed (node kind cs) := by
  obtain ⟨hshape, hgrouped⟩ := h
  cases hop : kind.isOperation with
  | false => exact .operand hop
  | true =>
    rcases (Bool.or_eq_true _ _).mp hop with hjoin | hprefixed
    · -- binary operators, ternary ones and arrows have an operand on either side, all others
      -- only one in front
      unfold Kind.isInfix at hjoin
      split at hjoin
      case h_1 =>
        obtain ⟨l, cs, rfl, hl, hrest⟩ := hshape.exists_expr_seq
        obtain ⟨ps, r, rfl, hps, hr⟩ := hrest.exists_seq_expr
        cases hps
        exact composed_between hgrouped rfl rfl (hcs l (by simp) hl) (hcs r (by simp) hr)
      case h_2 =>
        obtain ⟨l, cs, rfl, hl, hrest⟩ := hshape.exists_expr_seq
        obtain ⟨ps, r, rfl, -, hr⟩ := hrest.assoc.assoc.exists_seq_expr
        exact composed_between hgrouped rfl rfl (hcs l (by simp) hl) (hcs r (by simp) hr)
      case h_3 =>
        obtain ⟨l, cs, rfl, hl, hrest⟩ := hshape.exists_expr_seq
        obtain ⟨ps, r, rfl, -, hr⟩ := hrest.assoc.exists_seq_expr
        exact composed_between hgrouped rfl rfl (hcs l (by simp) hl) (hcs r (by simp) hr)
      case h_6 => cases hjoin
      all_goals
        obtain ⟨l, cs, rfl, hl, -⟩ := hshape.exists_expr_seq
        exact composed_behind hgrouped rfl rfl rfl (hcs l (by simp) hl)
    · have hbefore : ∃ ps r, cs = ps ++ [r] ∧ Shape.expr.Matches [r] := by
        unfold Kind.isPrefixed at hprefixed
        split at hprefixed
        case h_2 =>
          obtain ⟨ps, r, rfl, -, hr⟩ := hshape.assoc.exists_seq_expr
          exact ⟨ps, r, rfl, hr⟩
        case h_5 => cases hprefixed
        all_goals
          obtain ⟨ps, r, rfl, -, hr⟩ := hshape.exists_seq_expr
          exact ⟨ps, r, rfl, hr⟩
      obtain ⟨ps, r, rfl, hr⟩ := hbefore
      exact composed_before hgrouped hprefixed (hcs r (by simp) hr)

mutual

/-- Expressions that are as they should be are put together by powers. -/
theorem composed_of_proper : {g : Green} → g.Proper → Shape.expr.Matches [g] → Composed g
  | .node _ _, hg, _ => composed_of_admits hg.1 (composed_of_properAll hg.2)
  | .leaf _, _, hexpr => nomatch hexpr.exists_node

/-- The induction step of `composed_of_proper` for the parts of a node: those that match the shape
of an expression are put together by powers. -/
theorem composed_of_properAll :
    {gs : List Green} → ProperAll gs → ∀ g ∈ gs, Shape.expr.Matches [g] → Composed g
  | [], _ => List.forall_mem_nil _
  | _ :: _, hgs => List.forall_mem_cons.mpr
    ⟨composed_of_proper hgs.1, composed_of_properAll hgs.2⟩

end

/-! ## From operand to operand -/

/-- Whether one expression becomes another one by the operators and operands behind it. -/
inductive Builds : Green → Green → List Word → Prop where
  | refl {g : Green} : Builds g g []
  | between {kind : Kind} {l r g : Green} {ps : List Green} {p : Power} {ws : List Word}
      (hkind : kind.hasRightOperand) (h : Joins kind ps p l) (hright : r.HoldsFrom p.right)
      (hr : Composed r) (hg : Builds (node kind (l :: (ps ++ [r]))) g ws) :
      Builds l g (.between kind ps :: (r.words ++ ws))
  | behind {kind : Kind} {l g : Green} {ps : List Green} {p : Power} {ws : List Word}
      (hkind : kind.hasRightOperand = false) (h : Joins kind ps p l)
      (hg : Builds (node kind (l :: ps)) g ws) : Builds l g (.behind kind ps :: ws)

namespace Builds

variable {l g h : Green} {vs ws rest : List Word} {n : Nat}

/-- What one expression becomes by some words and then by others, it becomes by all of them. -/
theorem trans (hl : Builds l g vs) (hg : Builds g h ws) : Builds l h (vs ++ ws) := by
  induction hl with
  | refl => exact hg
  | between hkind hjoins hright hr _ ih =>
    rw [List.cons_append, List.append_assoc]
    exact .between hkind hjoins hright hr (ih hg)
  | behind hkind hjoins _ ih => exact .behind hkind hjoins (ih hg)

/-- The operators that were added are on the left spine, from the newest to the oldest. -/
theorem holdsFrom (hl : Builds l g ws) (hg : g.HoldsFrom n) :
    l.HoldsFrom n ∧ ∀ p ∈ nextPower? ws, n ≤ p.left := by
  induction hl with
  | refl => exact ⟨hg, nofun⟩
  | between _ hjoins _ _ _ ih =>
    have hpower := powerOf?_append hjoins.power
    obtain ⟨hp, hl⟩ := (holdsFrom_iff_of_isInfix hjoins.isInfix (hpower _)).mp (ih hg).1
    refine ⟨hl, fun q hq => ?_⟩
    obtain rfl := Option.some.inj (hjoins.power.symm.trans hq)
    exact hp
  | behind _ hjoins _ ih =>
    obtain ⟨hp, hl⟩ := (holdsFrom_iff_of_isInfix hjoins.isInfix hjoins.power).mp (ih hg).1
    refine ⟨hl, fun q hq => ?_⟩
    obtain rfl := Option.some.inj (hjoins.power.symm.trans hq)
    exact hp

/-- Nothing was added if the operator that follows is weaker than all that may be. -/
theorem eq_nil (hl : Builds l g ws) (hg : g.HoldsFrom n)
    (hnext : ∀ p ∈ nextPower? (ws ++ rest), p.left < n) : ws = [] ∧ l = g := by
  have hfrom := (hl.holdsFrom hg).2
  cases hl with
  | refl => exact ⟨rfl, rfl⟩
  | @between _ _ _ _ _ p _ _ hjoins =>
    exact absurd (hnext p hjoins.power) (Nat.not_lt.mpr (hfrom p hjoins.power))
  | @behind _ _ _ _ p _ _ hjoins =>
    exact absurd (hnext p hjoins.power) (Nat.not_lt.mpr (hfrom p hjoins.power))

end Builds

/-! ## Where expressions end -/

/-- Whether the operators of an expression have at least a power, and what is behind it goes on with
a weaker one. -/
structure IsSequence (n : Nat) (g : Green) (rest : List Word) : Prop where
  composed : Composed g
  holds : g.HoldsFrom n
  stops : ∀ p ∈ nextPower? rest, p.left < n ∧ g.HoldsAgainst p.left

/-- Whether an expression is what may stand left of an operator that has at least a power, together
with what is before it. -/
structure IsUnary (n : Nat) (g : Green) (rest : List Word) : Prop where
  composed : Composed g
  alone : g.kind.isInfix = false
  holds : g.HoldsFrom n
  stops : ∀ p ∈ nextPower? rest, g.HoldsAgainst p.left ∧ (g.IsCovering → p.left < n)

section

variable {n : Nat} {g : Green} {ws rest : List Word}

/-- A sequence is an operand on its own, and the operators that were added to it. -/
theorem Composed.exists_builds (hg : Composed g) : ∃ u ws, Composed u ∧ u.kind.isInfix = false ∧
    Builds u g ws ∧ g.words = u.words ++ ws := by
  induction hg with
  | operand hkind =>
    exact ⟨_, [], .operand hkind, (Kind.not_isOperation hkind).1, .refl, (List.append_nil _).symm⟩
  | before hkind htight hr =>
    exact ⟨_, [], .before hkind htight hr, (Kind.not_isInfix_of_isPrefixed hkind).1, .refl,
      (List.append_nil _).symm⟩
  | @between kind l r ps p hkind hjoins hright hl hr ihl =>
    obtain ⟨u, ws, hu, halone, hbuilds, hwords⟩ := ihl
    refine ⟨u, ws ++ .between kind ps :: (r.words ++ []), hu, halone,
      hbuilds.trans (.between hkind hjoins hright hr .refl), ?_⟩
    rw [words_between hkind, hwords, List.append_assoc, List.append_nil]
  | @behind kind l ps p hkind hjoins hl ihl =>
    obtain ⟨u, ws, hu, halone, hbuilds, hwords⟩ := ihl
    refine ⟨u, ws ++ [.behind kind ps], hu, halone,
      hbuilds.trans (.behind hkind hjoins .refl), ?_⟩
    rw [words_behind hjoins.isInfix hkind, hwords, List.append_assoc]

/-- What operators were added to ends where the first of them stands. -/
theorem Builds.stops {l : Green} (hl : Builds l g ws)
    (hg : ∀ p ∈ nextPower? rest, p.left < n ∧ g.HoldsAgainst p.left) :
    ∀ p ∈ nextPower? (ws ++ rest), l.HoldsAgainst p.left ∧ (l.IsCovering → p.left < n) := by
  intro q hq
  cases hl with
  | refl => exact ⟨(hg q hq).2, fun _ => (hg q hq).1⟩
  | between _ hjoins =>
    obtain rfl := Option.some.inj (hjoins.power.symm.trans hq)
    exact ⟨hjoins.left, fun h => absurd h hjoins.ends⟩
  | behind _ hjoins =>
    obtain rfl := Option.some.inj (hjoins.power.symm.trans hq)
    exact ⟨hjoins.left, fun h => absurd h hjoins.ends⟩

/-- The operand behind an operator is a sequence of stronger ones. -/
theorem isSequence_right {kind : Kind} {l r : Green} {ps : List Green} {p : Power}
    (hkind : kind.hasRightOperand) (hjoins : Joins kind ps p l) (hright : r.HoldsFrom p.right)
    (hr : Composed r) (hnext : ∀ q ∈ nextPower? rest,
      (node kind (l :: (ps ++ [r]))).HoldsAgainst q.left) : IsSequence p.right r rest :=
  ⟨hr, hright, fun q hq =>
    (holdsAgainst_iff_of_isInfix hjoins.isInfix (powerOf?_append hjoins.power _)).mp (hnext q hq) r
      (rightOperand?_concat hkind)⟩

/-- What is behind a word that covers what follows is a sequence, and what is behind any other word
or a prefix operator is an operand on its own. -/
theorem IsUnary.behind {kind : Kind} {ps : List Green} {r : Green} (hkind : kind.isPrefixed)
    (htight : kind.isCovering = false → r.kind.isInfix = false) (hr : Composed r)
    (h : IsUnary n (node kind (ps ++ [r])) rest) :
    (kind.isCovering → IsSequence n r rest) ∧
      (kind.isCovering = false → IsUnary n r rest) := by
  have hlast : (ps ++ [r]).getLast? = some r := List.getLast?_concat
  have hholds : r.HoldsFrom n := fun m hm =>
    h.holds m (.step (firstOperand?_of_isPrefixed hkind hlast) hm)
  have hagainst : ∀ p ∈ nextPower? rest, r.HoldsAgainst p.left := fun p hp m hm =>
    (h.stops p hp).1 m (.step (lastOperand?_of_isPrefixed hkind hlast) hm)
  have hcovers : kind.isCovering ∨ r.IsCovering → (node kind (ps ++ [r])).IsCovering :=
    (isCovering_iff_of_isPrefixed hkind hlast).mpr
  refine ⟨fun hcovering => ⟨hr, hholds, fun p hp => ?_⟩,
    fun hcovering => ⟨hr, htight hcovering, hholds, fun p hp => ?_⟩⟩
  · exact ⟨(h.stops p hp).2 (hcovers (.inl hcovering)), hagainst p hp⟩
  · exact ⟨hagainst p hp, fun hr => (h.stops p hp).2 (hcovers (.inr hr))⟩

end

/-! ## One grouping for the words of an expression -/

/-- Whether the words that fewer than a number of words start with determine a sequence. -/
def SequencesUnique (bound : Nat) : Prop :=
  ∀ {n : Nat} {g h : Green} {rest rest' : List Word}, (g.words ++ rest).length < bound →
    g.words ++ rest = h.words ++ rest' → IsSequence n g rest → IsSequence n h rest' →
    g = h ∧ rest = rest'

section

variable {bound n : Nat} (hunique : SequencesUnique bound) {g h : Green} {rest rest' : List Word}

include hunique

/-- A unary expression is unique among the words that it stands at the start of, by induction on the
operand: what stands before it is read first, and is the same for both. -/
theorem IsUnary.unique (hlen : (g.words ++ rest).length ≤ bound)
    (heq : g.words ++ rest = h.words ++ rest') (hg : IsUnary n g rest) (hh : IsUnary n h rest') :
    g = h ∧ rest = rest' := by
  have hcomposed := hg.composed
  induction hcomposed generalizing h with
  | operand hkind =>
    have hcomposed' := hh.composed
    cases hcomposed' with
    | operand hkind' =>
      rw [words_operand hkind, words_operand hkind'] at heq
      cases heq
      exact ⟨rfl, rfl⟩
    | before hkind' =>
      rw [words_operand hkind, words_before hkind'] at heq
      cases heq
    | between _ hjoins => exact absurd hjoins.isInfix (ne_true_of_eq_false hh.alone)
    | behind _ hjoins => exact absurd hjoins.isInfix (ne_true_of_eq_false hh.alone)
  | @before kind ps r hkind htight hr ih =>
    have hcomposed' := hh.composed
    cases hcomposed' with
    | operand hkind' =>
      rw [words_before hkind, words_operand hkind'] at heq
      cases heq
    | @before kind' ps' r' hkind' htight' hr' =>
      rw [words_before hkind, words_before hkind'] at heq
      obtain ⟨hword, htail⟩ := List.cons.inj heq
      cases hword
      rw [words_before hkind] at hlen
      have hlen : (r.words ++ rest).length < bound := hlen
      obtain ⟨hcovered, hplain⟩ := hg.behind hkind htight hr
      obtain ⟨hcovered', hplain'⟩ := hh.behind hkind htight' hr'
      -- behind `try` and its like a whole sequence stands, behind an operator one operand
      have hoperands : r = r' ∧ rest = rest' := by
        cases hcovering : kind.isCovering with
        | true => exact hunique hlen htail (hcovered hcovering) (hcovered' hcovering)
        | false =>
          exact ih (Nat.le_of_lt hlen) htail (hplain hcovering) (hplain' hcovering)
      obtain ⟨rfl, hrest⟩ := hoperands
      exact ⟨rfl, hrest⟩
    | between _ hjoins => exact absurd hjoins.isInfix (ne_true_of_eq_false hh.alone)
    | behind _ hjoins => exact absurd hjoins.isInfix (ne_true_of_eq_false hh.alone)
  | between _ hjoins => exact absurd hjoins.isInfix (ne_true_of_eq_false hg.alone)
  | behind _ hjoins => exact absurd hjoins.isInfix (ne_true_of_eq_false hg.alone)

/-- A sequence is unique among the words that it stands at the start of, by induction on the
operators: neither sequence ends where the other one goes on, since the next operator is too weak
for both or for none. -/
theorem Builds.unique {u : Green} {vs ws : List Word} (hlen : (vs ++ rest).length ≤ bound)
    (heq : vs ++ rest = ws ++ rest') (hvs : Builds u g vs) (hws : Builds u h ws)
    (hg : IsSequence n g rest) (hh : IsSequence n h rest') : g = h ∧ rest = rest' := by
  induction hvs generalizing ws with
  | refl =>
    -- the other sequence would go on with an operator that this one stops before
    have hnext : ∀ p ∈ nextPower? (ws ++ rest'), p.left < n := fun p hp =>
      (hg.stops p (by rwa [← heq] at hp)).1
    obtain ⟨rfl, rfl⟩ := hws.eq_nil hh.holds hnext
    exact ⟨rfl, heq⟩
  | @between kind l r g ps p vs hkind hjoins hright hr hvs ih =>
    cases hws with
    | refl =>
      have hnext := fun p hp => (hh.stops p hp).1
      obtain ⟨h, -⟩ := (Builds.between hkind hjoins hright hr hvs).eq_nil hg.holds
        (by rwa [heq])
      cases h
    | @between _ _ r' _ _ _ ws hkind' hjoins' hright' hr' hws =>
      obtain ⟨hword, htail⟩ := List.cons.inj heq
      cases hword
      obtain rfl := Option.some.inj (hjoins.power.symm.trans hjoins'.power)
      have htail : r.words ++ (vs ++ rest) = r'.words ++ (ws ++ rest') := by
        simpa only [List.append_eq, List.append_assoc] using htail
      have hlen : (r.words ++ (vs ++ rest)).length < bound := by
        rwa [List.cons_append, List.append_assoc] at hlen
      -- the right operands are sequences with fewer words, and they end at the same word
      obtain ⟨rfl, hrest⟩ := hunique hlen htail
        (isSequence_right hkind hjoins hright hr fun q hq => (hvs.stops hg.stops q hq).1)
        (isSequence_right hkind hjoins' hright' hr' fun q hq => (hws.stops hh.stops q hq).1)
      refine ih ?_ hrest hws hg
      rw [List.length_append] at hlen
      omega
    | behind => cases heq
  | @behind kind l g ps p vs hkind hjoins hvs ih =>
    cases hws with
    | refl =>
      have hnext := fun p hp => (hh.stops p hp).1
      obtain ⟨h, -⟩ := (Builds.behind hkind hjoins hvs).eq_nil hg.holds (by rwa [heq])
      cases h
    | between => cases heq
    | behind hkind' hjoins' hws =>
      obtain ⟨hword, htail⟩ := List.cons.inj heq
      cases hword
      exact ih (Nat.le_of_lt hlen) htail hws hg

end

/-- Words determine their sequence, however many there are. By induction on how many words start
with it: an operand has fewer words than the sequence that it is an operand of. -/
theorem sequencesUnique (bound : Nat) : SequencesUnique bound := by
  induction bound with
  | zero =>
    intro _ _ _ _ _ hlen
    exact absurd hlen (Nat.not_lt_zero _)
  | succ bound ih =>
    intro n g h rest rest' hlen heq hg hh
    obtain ⟨u, vs, hu, halone, hvs, hwords⟩ := hg.composed.exists_builds
    obtain ⟨u', ws, hu', halone', hws, hwords'⟩ := hh.composed.exists_builds
    rw [hwords, hwords', List.append_assoc, List.append_assoc] at heq
    rw [hwords, List.append_assoc] at hlen
    obtain ⟨rfl, hrest⟩ := IsUnary.unique ih (Nat.le_of_lt_succ hlen) heq
      ⟨hu, halone, (hvs.holdsFrom hg.holds).1, hvs.stops hg.stops⟩
      ⟨hu', halone', (hws.holdsFrom hh.holds).1, hws.stops hh.stops⟩
    refine Builds.unique ih ?_ hrest hvs hws hg hh
    rw [List.length_append] at hlen
    omega

/-- **Words have at most one grouping by powers.** So the tree of an expression is known from its
operands and operators in their order, and from nothing else. -/
theorem Composed.unique {g h : Green} (hg : Composed g) (hh : Composed h)
    (hwords : g.words = h.words) : g = h := by
  have hall : ∀ {g : Green}, Composed g → IsSequence 0 g [] :=
    fun hg => ⟨hg, fun _ _ _ _ => Nat.zero_le _, nofun⟩
  exact (sequencesUnique _ (Nat.lt_succ_self _) (by rw [hwords]) (hall hg) (hall hh)).1

/-! ## What powers say of the operands -/

section

variable {g m : Green}

/-- The first operand of an expression is put together by powers as the expression is, for it is a
part of its left spine. -/
theorem Composed.firstOperand (hg : Composed g) (h : g.firstOperand? = some m) : Composed m := by
  cases hg with
  | operand hkind =>
    rw [firstOperand?_eq_none hkind] at h
    cases h
  | before hkind _ hr =>
    rw [firstOperand?_of_isPrefixed hkind List.getLast?_concat] at h
    exact Option.some.inj h ▸ hr
  | between _ hjoins _ hl =>
    rw [firstOperand?_cons hjoins.isInfix] at h
    exact Option.some.inj h ▸ hl
  | behind _ hjoins hl =>
    rw [firstOperand?_cons hjoins.isInfix] at h
    exact Option.some.inj h ▸ hl

/-- So is the last operand, on the right spine. -/
theorem Composed.lastOperand (hg : Composed g) (h : g.lastOperand? = some m) : Composed m := by
  cases hg with
  | operand hkind =>
    rw [lastOperand?_eq_none hkind] at h
    cases h
  | before hkind _ hr =>
    rw [lastOperand?_of_isPrefixed hkind List.getLast?_concat] at h
    exact Option.some.inj h ▸ hr
  | between hkind hjoins _ _ hr =>
    rw [lastOperand?_eq_rightOperand? hjoins.isInfix, rightOperand?_concat hkind] at h
    exact Option.some.inj h ▸ hr
  | behind hkind hjoins =>
    rw [lastOperand?_eq_rightOperand? hjoins.isInfix, rightOperand?, hkind] at h
    cases h

/-- The operands on a spine are put together by powers, as the expression is. -/
theorem Composed.of_reaches {operand? : Green → Option Green}
    (hoperand : ∀ {g m}, Composed g → operand? g = some m → Composed m) (hg : Composed g)
    (h : Reaches operand? g m) : Composed m := by
  induction h with
  | refl => exact hg
  | step hh _ ih => exact ih (hoperand hg hh)

/-- Every infix node has an operator, with a power, behind its left operand. -/
theorem Composed.exists_power (hg : Composed g) (h : g.kind.isInfix) :
    ∃ p l, g.power? = some p ∧ g.leftOperand? = some l ∧ Composed l ∧ l.HoldsAgainst p.left ∧
      ¬l.IsCovering ∧ ∀ r ∈ g.rightOperand?, Composed r ∧ r.HoldsFrom p.right := by
  cases hg with
  | operand hkind => exact absurd h (ne_true_of_eq_false (Kind.not_isOperation hkind).1)
  | before hkind => exact absurd h (ne_true_of_eq_false (Kind.not_isInfix_of_isPrefixed hkind).1)
  | @between kind l r ps p hkind hjoins hright hl hr =>
    refine ⟨p, l, powerOf?_append hjoins.power _, leftOperand?_cons h, hl, hjoins.left, hjoins.ends,
      fun r' hr' => ?_⟩
    obtain rfl := Option.some.inj ((rightOperand?_concat hkind).symm.trans hr')
    exact ⟨hr, hright⟩
  | @behind kind l ps p hkind hjoins hl =>
    refine ⟨p, l, hjoins.power, leftOperand?_cons h, hl, hjoins.left, hjoins.ends, fun r hr => ?_⟩
    rw [rightOperand?, hkind] at hr
    cases hr

/-- A word that covers what follows, at the end of an expression that does not start with one,
belongs to the right operand of an operator. -/
theorem Composed.exists_operator (hg : Composed g) (h : g.OnRight m) (hm : m.kind.isCovering)
    (hends : ¬g.IsCovering) : ∃ i, g.OnRight i ∧ i.kind.hasRightOperand ∧ i.OnRight m := by
  induction h with
  | refl => exact absurd ⟨_, .refl, hm⟩ hends
  | step hlast hreaches ih =>
    cases hg with
    | operand hkind =>
      rw [lastOperand?_eq_none hkind] at hlast
      cases hlast
    | @before kind ps r hkind _ hr =>
      have hcovers := isCovering_iff_of_isPrefixed hkind (List.getLast?_concat (a := r) (l := ps))
      rw [lastOperand?_of_isPrefixed hkind List.getLast?_concat] at hlast
      obtain rfl := Option.some.inj hlast
      obtain ⟨i, hi, hright, him⟩ := ih hr hm fun hr => hends (hcovers.mpr (.inr hr))
      exact ⟨i, .step (lastOperand?_of_isPrefixed hkind List.getLast?_concat) hi, hright, him⟩
    | between hkind => exact ⟨_, .refl, hkind, .step hlast hreaches⟩
    | behind hkind hjoins =>
      rw [lastOperand?_eq_rightOperand? hjoins.isInfix, rightOperand?, hkind] at hlast
      cases hlast

end

/-- What the power of its operator says of the operands of an infix node. -/
structure Precedence (g : Green) (p : Power) (l : Green) : Prop where
  power : g.power? = some p
  operand : g.leftOperand? = some l
  /-- operators at the start of the right operand are not weaker than this one is on its right -/
  right : ∀ r ∈ g.rightOperand?, ∀ m, r.OnLeft m → m.kind.isInfix →
    ∃ q, m.power? = some q ∧ p.right ≤ q.left
  /-- operators at the end of the left operand are stronger than this one is on its left -/
  left : ∀ m, l.OnRight m → m.kind.hasRightOperand → ∃ q, m.power? = some q ∧ p.left < q.right
  /-- what `try` and `await` cover does not end here -/
  ends : ¬l.IsCovering
  /-- unless they are in the right operand of a stronger operator -/
  covers : ∀ m, l.OnRight m → m.kind.isCovering →
    ∃ i, l.OnRight i ∧ i.kind.hasRightOperand ∧ i.OnRight m

theorem Composed.isSome_rightOperand? {g : Green} (hg : Composed g)
    (h : g.kind.hasRightOperand) : g.rightOperand?.isSome := by
  cases hg with
  | operand hkind =>
    have hjoin := Kind.isInfix_of_hasRightOperand h
    exact absurd hjoin (ne_true_of_eq_false (Kind.not_isOperation hkind).1)
  | before hkind => exact absurd h (ne_true_of_eq_false (Kind.not_isInfix_of_isPrefixed hkind).2)
  | between hkind =>
    rw [rightOperand?_concat hkind]
    rfl
  | behind hkind => exact absurd h (ne_true_of_eq_false hkind)

/-- Every infix node has an operator with a power, and its operands are as this power demands. -/
theorem Composed.exists_precedence {g : Green} (hg : Composed g) (h : g.kind.isInfix) :
    ∃ p l, g.Precedence p l := by
  obtain ⟨p, l, hp, hl, hcomposed, hleft, hends, hright⟩ := hg.exists_power h
  refine ⟨p, l, hp, hl, fun r hr m hm hjoin => ?_, fun m hm hkind => ?_, hends,
    fun m hm hcovering => hcomposed.exists_operator hm hcovering hends⟩
  · obtain ⟨hr, hholds⟩ := hright r hr
    obtain ⟨q, _, hq, -⟩ := (hr.of_reaches Composed.firstOperand hm).exists_power hjoin
    exact ⟨q, hq, hholds m hm q hq⟩
  · have hm' := hcomposed.of_reaches Composed.lastOperand hm
    obtain ⟨q, _, hq, -⟩ := hm'.exists_power (Kind.isInfix_of_hasRightOperand hkind)
    exact ⟨q, hq, hleft m hm (hm'.isSome_rightOperand? hkind) q hq⟩

/-- A ternary operator behind another one belongs to its last operand. -/
theorem Precedence.ne_ternaryExpr {cs : List Green} {p : Power} {l m : Green}
    (h : (node .ternaryExpr cs).Precedence p l) (hm : l.OnRight m) : m.kind ≠ .ternaryExpr := by
  intro hkind
  obtain ⟨q, hq, hlt⟩ := h.left m hm (by rw [hkind]; rfl)
  obtain rfl := Option.some.inj h.power
  cases m with
  | leaf => cases hq
  | node =>
    obtain rfl : _ = Kind.ternaryExpr := hkind
    obtain rfl := Option.some.inj hq
    exact absurd hlt (by decide)

/-- Whether an expression is how powers group words. There is no other expression that they group
and that has these words. -/
structure IsGrouping (ws : List Word) (g : Green) : Prop where
  proper : g.Proper
  isExpression : Shape.expr.Matches [g]
  words : g.words = ws
  unique : ∀ h : Green, h.Proper → Shape.expr.Matches [h] → h.words = ws → h = g

/-- Expressions that are as they should be are how powers group their words. -/
theorem isGrouping_of_proper {g : Green} (hg : g.Proper) (hexpr : Shape.expr.Matches [g]) :
    g.IsGrouping g.words where
  proper := hg
  isExpression := hexpr
  words := rfl
  unique _ hh hexpr' hwords :=
    (composed_of_proper hh hexpr').unique (composed_of_proper hg hexpr) hwords

end Green

end SwiftTree
