import SwiftTree.Grammar.Power
import SwiftTree.Proofs.Shape

/-!
# How operators group their operands

The power of an infix node is read off its kind and its operator (`Green.power?`). Which operands an
operator gets shows on the spines of the tree: the left spine of an expression leads to its first
operand, the right one to its last, both also through what stands before an operand, as `try` or
`-`.

`Green.Grouped` says what is right at one node. The operator of an infix node leaves the operands
between it and others to those that are stronger, on either side. What stands before its left
operand does not cover what is behind it, and a prefix operator stands before an operand on its own.
-/

namespace SwiftTree

open Grammar

namespace Kind

/-- The kinds of what an operator makes of the operand before it. -/
def isInfix : Kind → Bool
  | .binaryExpr | .ternaryExpr | .arrowExpr | .castExpr | .isExpr => true
  | _ => false

/-- The kinds of infix nodes whose operator has an operand behind it. -/
def hasRightOperand : Kind → Bool
  | .binaryExpr | .ternaryExpr | .arrowExpr => true
  | _ => false

/-- The kinds of what a word or an operator makes of the operand behind it. -/
def isPrefixed : Kind → Bool
  | .prefixExpr | .tryExpr | .awaitExpr | .moveExpr => true
  | _ => false

/-- The kinds of the nodes that reach behind the operand on their right as far as they may. -/
def isCovering : Kind → Bool
  | .tryExpr | .awaitExpr => true
  | _ => false

/-- The kinds of what is made of operands. -/
def isOperation (k : Kind) : Bool := k.isInfix || k.isPrefixed

/-- The kinds of operands. -/
def isOperand (k : Kind) : Bool := k.isExpression && !k.isOperation

theorem isExpression_of_isOperand {k : Kind} (h : k.isOperand) : k.isExpression :=
  (Bool.and_eq_true _ _ |>.mp h).1

theorem isOperation_of_isOperand {k : Kind} (h : k.isOperand) : k.isOperation = false :=
  Bool.not_eq_true' _ |>.mp (Bool.and_eq_true _ _ |>.mp h).2

theorem not_isOperation {k : Kind} (h : k.isOperation = false) :
    k.isInfix = false ∧ k.isPrefixed = false := Bool.or_eq_false_iff.mp h

/-- An infix node is an expression. -/
theorem isExpression_of_isInfix {k : Kind} (h : k.isInfix) : k.isExpression := by
  unfold isInfix at h
  split at h
  case h_6 => cases h
  all_goals rfl

/-- No node is both an infix node and what stands before an operand. -/
theorem isPrefixed_of_isInfix {k : Kind} (h : k.isInfix) : k.isPrefixed = false := by
  unfold isInfix at h
  split at h
  case h_6 => cases h
  all_goals rfl

/-- What stands before an operand makes no infix node. -/
theorem not_isInfix_of_isPrefixed {k : Kind} (h : k.isPrefixed) :
    k.isInfix = false ∧ k.hasRightOperand = false := by
  unfold isPrefixed at h
  split at h
  case h_5 => cases h
  all_goals exact ⟨rfl, rfl⟩

/-- Only an infix node has an operand behind its operator. -/
theorem isInfix_of_hasRightOperand {k : Kind} (h : k.hasRightOperand) : k.isInfix := by
  unfold hasRightOperand at h
  split at h
  case h_4 => cases h
  all_goals rfl

/-- A word that covers what follows stands before an operand. -/
theorem isPrefixed_of_isCovering {k : Kind} (h : k.isCovering) : k.isPrefixed := by
  unfold isCovering at h
  split at h
  case h_3 => cases h
  all_goals rfl

end Kind

namespace Green

/-! ## Powers and operands -/

/-- The power of a binary operator. -/
def operatorPower? : Green → Option Power
  | .leaf l => some (if l.kind = .equal then .assignment else .ofOperator l.textTrimmed)
  | .node _ _ => none

/-- The power of the operator of an infix node, by what follows the left operand. -/
def powerOf? (kind : Kind) (behind : List Green) : Option Power :=
  match kind with
  | .binaryExpr => behind.head?.bind operatorPower?
  | .ternaryExpr => some (.rightGrouping 3)
  | .arrowExpr => some (.rightGrouping 2)
  | .castExpr | .isExpr => some (.leftGrouping 9)
  | _ => none

/-- The power of the operator of an infix node. -/
def power? : Green → Option Power
  | .node kind cs => powerOf? kind cs.tail
  | .leaf _ => none

/-- The operand before the operator of an infix node. -/
def leftOperand? : Green → Option Green
  | .node kind cs => if kind.isInfix then cs.head? else none
  | .leaf _ => none

/-- The operand behind the operator of an infix node; of a ternary operator, the last one. -/
def rightOperand? : Green → Option Green
  | .node kind cs => if kind.hasRightOperand then cs.getLast? else none
  | .leaf _ => none

/-- The operand that an expression starts with, if it is not an operand itself. -/
def firstOperand? : Green → Option Green
  | .node kind cs =>
    if kind.isInfix then cs.head? else if kind.isPrefixed then cs.getLast? else none
  | .leaf _ => none

/-- The operand that an expression ends with, if it is not an operand itself. -/
def lastOperand? : Green → Option Green
  | .node kind cs => if kind.hasRightOperand || kind.isPrefixed then cs.getLast? else none
  | .leaf _ => none

/-- The operand behind a prefix operator or `_move`. -/
def prefixedOperand? : Green → Option Green
  | .node kind cs => if kind.isPrefixed && !kind.isCovering then cs.getLast? else none
  | .leaf _ => none

/-! ## Spines -/

/-- Whether one comes from an expression, any number of times, to one of its operands. -/
inductive Reaches (operand? : Green → Option Green) : Green → Green → Prop where
  | refl {g : Green} : Reaches operand? g g
  | step {g h m : Green} (hh : operand? g = some h) (hm : Reaches operand? h m) :
      Reaches operand? g m

/-- The left spine of an expression. -/
abbrev OnLeft : Green → Green → Prop := Reaches firstOperand?

/-- The right spine of an expression. -/
abbrev OnRight : Green → Green → Prop := Reaches lastOperand?

/-- An expression and what is behind its prefix operators. -/
abbrev BehindPrefix : Green → Green → Prop := Reaches prefixedOperand?

/-- Where a node has no operand of the kind asked for, the spine ends. -/
theorem Reaches.eq_of_none {operand? : Green → Option Green} {g m : Green}
    (hg : operand? g = none) (h : Reaches operand? g m) : m = g := by
  cases h with
  | refl => rfl
  | step hh hm =>
    rw [hg] at hh
    cases hh

/-- Whether all operators on the left spine of an expression hold their left operands with at least
the power `n`. -/
def HoldsFrom (n : Nat) (g : Green) : Prop := ∀ m, g.OnLeft m → ∀ q ∈ m.power?, n ≤ q.left

/-- Whether all operators on the right spine of an expression hold their right operands with more
than the power `n`. -/
def HoldsAgainst (n : Nat) (g : Green) : Prop :=
  ∀ m, g.OnRight m → m.rightOperand?.isSome → ∀ q ∈ m.power?, n < q.right

/-- Whether an expression starts, behind prefix operators, with a word that covers what follows. -/
def IsCovering (g : Green) : Prop := ∃ m, g.BehindPrefix m ∧ m.kind.isCovering

/-- Whether a node that is made of operands is grouped by the powers of operators. -/
structure Grouped (g : Green) : Prop where
  /-- operators on the right get their operands from this one -/
  right : ∀ p ∈ g.power?, ∀ r ∈ g.rightOperand?, r.HoldsFrom p.right
  /-- operators on the left leave their last operand to this one -/
  left : ∀ p ∈ g.power?, ∀ l ∈ g.leftOperand?, l.HoldsAgainst p.left
  /-- the left operand would not have gone on -/
  ends : ∀ l ∈ g.leftOperand?, ¬l.IsCovering
  /-- a prefix operator stands before an operand, and not before the operators behind it -/
  tight : ∀ r ∈ g.prefixedOperand?, r.kind.isInfix = false

variable {kind : Kind} {cs : List Green} {n : Nat}

/-! ### Operands -/

section Operand

variable (h : kind.isOperation = false)

include h

/-- What is no operation has no operator, and so no power. -/
theorem power?_eq_none : (node kind cs).power? = none := by
  have hjoin := (Kind.not_isOperation h).1
  rw [power?]
  unfold powerOf?
  split
  case h_6 => rfl
  all_goals cases hjoin

/-- What is no operation does not start with another operand. -/
theorem firstOperand?_eq_none : (node kind cs).firstOperand? = none := by
  obtain ⟨hjoin, hprefixed⟩ := Kind.not_isOperation h
  rw [firstOperand?, hjoin, hprefixed]
  rfl

/-- What is no operation does not end with another operand. -/
theorem lastOperand?_eq_none : (node kind cs).lastOperand? = none := by
  obtain ⟨hjoin, hprefixed⟩ := Kind.not_isOperation h
  have hright : kind.hasRightOperand = false := by
    rw [← Bool.not_eq_true]
    intro hright
    rw [Kind.isInfix_of_hasRightOperand hright] at hjoin
    cases hjoin
  rw [lastOperand?, hright, hprefixed]
  rfl

/-- Only what is made of operands has to be grouped. -/
theorem grouped_of_not_isOperation : (node kind cs).Grouped := by
  have hpower := @power?_eq_none kind cs h
  obtain ⟨hjoin, hprefixed⟩ := Kind.not_isOperation h
  refine ⟨?_, ?_, ?_, ?_⟩
  · simp [hpower]
  · simp [hpower]
  · simp [leftOperand?, hjoin]
  · simp [prefixedOperand?, hprefixed]

/-- An operand is held by whatever stands before it: no operator is on its left spine. -/
theorem holdsFrom_of_not_isOperation : (node kind cs).HoldsFrom n := by
  intro m hm
  rw [hm.eq_of_none (firstOperand?_eq_none h), power?_eq_none h]
  simp

/-- An operand holds against whatever stands behind it: no operator is on its right spine. -/
theorem holdsAgainst_of_not_isOperation : (node kind cs).HoldsAgainst n := by
  intro m hm
  rw [hm.eq_of_none (lastOperand?_eq_none h), power?_eq_none h]
  simp

end Operand

/-- What is not made of the operand behind it covers nothing. -/
theorem not_isCovering (h : kind.isPrefixed = false) : ¬(node kind cs).IsCovering := by
  rintro ⟨m, hm, hcovering⟩
  rw [hm.eq_of_none (by rw [prefixedOperand?, h]; rfl)] at hcovering
  have hprefixed := Kind.isPrefixed_of_isCovering hcovering
  change kind.isPrefixed = true at hprefixed
  rw [h] at hprefixed
  cases hprefixed

/-! ### What stands before an operand -/

section Prefixed

variable {r : Green} (h : kind.isPrefixed) (hlast : cs.getLast? = some r)

include h

/-- What stands before an operand is no infix operator, and has no power. -/
theorem power?_eq_none_of_isPrefixed : (node kind cs).power? = none := by
  rw [power?]
  unfold powerOf?
  split
  case h_6 => rfl
  all_goals cases h

include hlast

/-- The first operand of a prefix expression is the operand behind the prefix. -/
theorem firstOperand?_of_isPrefixed : (node kind cs).firstOperand? = some r := by
  rw [firstOperand?, (Kind.not_isInfix_of_isPrefixed h).1, h, if_neg Bool.false_ne_true, if_pos rfl,
    hlast]

theorem lastOperand?_of_isPrefixed : (node kind cs).lastOperand? = some r := by
  rw [lastOperand?, h, Bool.or_true, if_pos rfl, hlast]

theorem prefixedOperand?_of_isPrefixed (hcovering : kind.isCovering = false) :
    (node kind cs).prefixedOperand? = some r := by
  rw [prefixedOperand?, h, hcovering, Bool.not_false, Bool.and_self, if_pos rfl, hlast]

/-- What stands before an operand is grouped if it covers what follows, or if the operand is one on
its own. -/
theorem grouped_of_isPrefixed (htight : kind.isCovering = false → r.kind.isInfix = false) :
    (node kind cs).Grouped := by
  have hpower := @power?_eq_none_of_isPrefixed kind cs h
  refine ⟨?_, ?_, ?_, ?_⟩
  · simp [hpower]
  · simp [hpower]
  · simp [leftOperand?, (Kind.not_isInfix_of_isPrefixed h).1]
  · intro r' hr'
    cases hcovering : kind.isCovering with
    | true =>
      rw [prefixedOperand?, hcovering, Bool.not_true, Bool.and_false] at hr'
      cases hr'
    | false =>
      rw [prefixedOperand?_of_isPrefixed h hlast hcovering] at hr'
      obtain rfl := Option.some.inj hr'
      exact htight hcovering

/-- Its spines are those of the operand behind it. -/
theorem holdsFrom_of_isPrefixed (hr : r.HoldsFrom n) : (node kind cs).HoldsFrom n := by
  intro m hm
  cases hm with
  | refl =>
    simp [power?_eq_none_of_isPrefixed h]
  | step hh hm =>
    rw [firstOperand?_of_isPrefixed h hlast] at hh
    obtain rfl := Option.some.inj hh
    exact hr m hm

/-- A prefix expression holds against what stands behind it as its operand does. -/
theorem holdsAgainst_of_isPrefixed (hr : r.HoldsAgainst n) : (node kind cs).HoldsAgainst n := by
  intro m hm
  cases hm with
  | refl =>
    simp [power?_eq_none_of_isPrefixed h]
  | step hh hm =>
    rw [lastOperand?_of_isPrefixed h hlast] at hh
    obtain rfl := Option.some.inj hh
    exact hr m hm

/-- It covers what follows if it is a word that does, or stands before one. -/
theorem isCovering_iff_of_isPrefixed :
    (node kind cs).IsCovering ↔ kind.isCovering ∨ r.IsCovering := by
  constructor
  · rintro ⟨m, hm, hcovering⟩
    cases hm with
    | refl => exact .inl hcovering
    | step hh hm =>
      rw [prefixedOperand?] at hh
      split at hh
      · obtain rfl := Option.some.inj (hlast.symm.trans hh)
        exact .inr ⟨m, hm, hcovering⟩
      · cases hh
  · intro hcovering
    cases hkind : kind.isCovering with
    | true => exact ⟨_, .refl, hkind⟩
    | false =>
      obtain ⟨m, hm, hcovering⟩ := hcovering.resolve_left (by rw [hkind]; exact Bool.false_ne_true)
      exact ⟨m, .step (prefixedOperand?_of_isPrefixed h hlast hkind) hm, hcovering⟩

end Prefixed

/-! ### Infix nodes -/

section Infix

variable {l : Green} {p : Power} (hjoin : kind.isInfix)
  (hpower : (node kind (l :: cs)).power? = some p)

include hjoin

/-- The operand before an operator is the first part. -/
theorem leftOperand?_cons : (node kind (l :: cs)).leftOperand? = some l := if_pos hjoin

theorem firstOperand?_cons : (node kind (l :: cs)).firstOperand? = some l := if_pos hjoin

/-- An infix node ends with the operand behind its operator, if there is one. -/
theorem lastOperand?_eq_rightOperand? :
    (node kind cs).lastOperand? = (node kind cs).rightOperand? := by
  rw [lastOperand?, rightOperand?, Kind.isPrefixed_of_isInfix hjoin, Bool.or_false]

include hpower

/-- An infix node is grouped if its right operand holds from the power of its operator on, its left
one holds against it, and the left one does not start with a word that covers what follows. -/
theorem grouped_of_isInfix (hright : ∀ r ∈ (node kind (l :: cs)).rightOperand?, r.HoldsFrom p.right)
    (hleft : l.HoldsAgainst p.left) (hends : ¬l.IsCovering) : (node kind (l :: cs)).Grouped := by
  refine ⟨?_, ?_, ?_, ?_⟩
  · rw [hpower]
    rintro _ ⟨⟩
    exact hright
  · rw [hpower, leftOperand?_cons hjoin]
    rintro _ ⟨⟩ _ ⟨⟩
    exact hleft
  · rw [leftOperand?_cons hjoin]
    rintro _ ⟨⟩
    exact hends
  · simp [prefixedOperand?, Kind.isPrefixed_of_isInfix hjoin]

/-- The left spine of an infix node is itself, and that of its left operand. -/
theorem holdsFrom_iff_of_isInfix :
    (node kind (l :: cs)).HoldsFrom n ↔ n ≤ p.left ∧ l.HoldsFrom n := by
  constructor
  · intro h
    refine ⟨h _ .refl p hpower, fun m hm => h m (.step (firstOperand?_cons hjoin) hm)⟩
  · rintro ⟨hp, hleft⟩ m hm
    cases hm with
    | refl =>
      rw [hpower]
      rintro _ ⟨⟩
      exact hp
    | step hh hm =>
      rw [firstOperand?_cons hjoin] at hh
      obtain rfl := Option.some.inj hh
      exact hleft m hm

/-- The right spine is itself, and that of the right operand. -/
theorem holdsAgainst_iff_of_isInfix : (node kind (l :: cs)).HoldsAgainst n ↔
    ∀ r ∈ (node kind (l :: cs)).rightOperand?, n < p.right ∧ r.HoldsAgainst n := by
  constructor
  · intro h r hr
    refine ⟨h _ .refl (Option.isSome_of_mem hr) p hpower, fun m hm => h m (.step ?_ hm)⟩
    rw [lastOperand?_eq_rightOperand? hjoin]
    exact hr
  · intro hright m hm
    cases hm with
    | refl =>
      intro hsome
      obtain ⟨r, hr⟩ := Option.isSome_iff_exists.mp hsome
      rw [hpower]
      rintro _ ⟨⟩
      exact (hright r hr).1
    | step hh hm =>
      rw [lastOperand?_eq_rightOperand? hjoin] at hh
      exact (hright _ hh).2 m hm

end Infix

end Green

end SwiftTree
