import SwiftTree.Grammar.Expression
import SwiftTree.Proofs.Conformance.Operands

/-!
# Operators are grouped by their powers

The rule for operands with operators between them compares the powers of two operators, or that of
an operator with the least power that it was asked for. What it knows of the tree so far is kept by
every round of its loop (`Sequenced`): all operators on the left spine are strong enough, and the
next operator, if it takes the tree as its left operand, is the weaker one of it and those on the
right spine. A word such as `try` leaves no operator behind that it may cover.
-/

namespace SwiftTree.Grammar

open Grammar.Parser Shape Green

variable {test : Ahead → Prop} {mode : Mode} {power : Nat}

/-! ## What ends with an operand -/

/-- Whether trees have a shape, and the last one is what a goal gives. -/
def Goal.Ends (goal : Goal) (shape : Shape) (missing : Bool) (ts : Ahead)
    (gs : List Green) : Prop :=
  shape.Matches gs ∧ ∃ r, gs.getLast? = some r ∧ goal.Fits missing ts r

namespace Parser.Adds

variable {goal inner : Goal} {a b : Shape}

/-- A call ends with what its goal gives. -/
theorem call_ends : (Grammar.call inner).Adds test (inner.Ends inner.shape) := by
  refine .mono .call (fun _ h => h) ?_
  rintro missing ts _ ⟨r, rfl, hr⟩
  exact ⟨hr.shape, r, rfl, hr⟩

/-- A rule that ends with an operand may have something before it. -/
theorem seq_ends {α : Type} {first : Parser α} {next : α → Parser Bool} (h : first.Makes test a)
    (hnext : ∀ x, (next x).Adds (fun _ => True) (inner.Ends b)) :
    (first >>= next).Adds test (inner.Ends (.seq a b)) := by
  refine .before h fun x => .mono (hnext x) (fun _ h => h) ?_
  rintro missing ts hs ⟨hhs, r, hlast, hr⟩ gs hgs
  exact ⟨.seq hgs hhs, r, by simp [hlast], hr⟩

/-- A node is what a goal gives if it is one of what the goal inside gives. -/
theorem node_ends {kind : Kind} {p : Parser Bool} {hk : kind.isConstruct}
    (hkind : kind.isOperation) (h : p.Adds test (inner.Ends kind.shape))
    (hfits : ∀ missing ts cs r, cs.getLast? = some r → inner.Fits missing ts r →
      (Green.node kind cs).Grouped ∧ goal.Fits missing ts (.node kind cs)) :
    (Grammar.node kind p hk).Adds test fun missing ts gs =>
      ∃ t, gs = [t] ∧ goal.Fits missing ts t := by
  refine .node (.mono h (fun _ h => h) ?_)
  rintro missing ts gs ⟨hgs, r, hlast, hr⟩
  obtain ⟨hgrouped, hgoal⟩ := hfits missing ts gs r hlast hr
  exact ⟨Green.exact_of_isOperation hkind hgs hgrouped, _, rfl, hgoal⟩

end Parser.Adds

/-! ## What stands before an operand -/

/-- A node that a word or an operator makes of the operand behind it is grouped as that one. -/
theorem Goal.fits_unary {kind : Kind} {cs : List Green} {r : Green} {missing : Bool} {ts : Ahead}
    (hprefixed : kind.isPrefixed) (hkind : kind.isExpression) (hlast : cs.getLast? = some r)
    (hfrom : r.HoldsFrom power) (h : missing = false → ∀ op p,
      ts.infixOperator mode = some (op, p) →
        r.HoldsAgainst p.left ∧ (kind.isCovering ∨ r.IsCovering → p.left < power)) :
    (Goal.unary mode power).Fits missing ts (.node kind cs) := by
  refine ⟨.node hkind, (Kind.not_isInfix_of_isPrefixed hprefixed).1,
    holdsFrom_of_isPrefixed hprefixed hlast hfrom, fun hmissing op p hop => ?_⟩
  obtain ⟨hagainst, hcovering⟩ := h hmissing op p hop
  refine ⟨holdsAgainst_of_isPrefixed hprefixed hlast hagainst, fun hc => hcovering ?_⟩
  exact (isCovering_iff_of_isPrefixed hprefixed hlast).mp hc

/-- A prefix operator stands before an operand with what stands before it. -/
theorem Goal.fits_unary_of_unary {kind : Kind} {missing : Bool} {ts : Ahead} {cs : List Green}
    {r : Green} (hlast : cs.getLast? = some r) (hr : (Goal.unary mode power).Fits missing ts r)
    (hprefixed : kind.isPrefixed) (hcovering : kind.isCovering = false)
    (hkind : kind.isExpression) : (Green.node kind cs).Grouped ∧
      (Goal.unary mode power).Fits missing ts (.node kind cs) := by
  obtain ⟨hjoin, hfrom, hnext⟩ := hr.groups
  refine ⟨grouped_of_isPrefixed hprefixed hlast fun _ => hjoin,
    fits_unary hprefixed hkind hlast hfrom fun hmissing op p hop => ?_⟩
  obtain ⟨hagainst, hcovers⟩ := hnext hmissing op p hop
  rw [hcovering]
  exact ⟨hagainst, fun h => hcovers (h.resolve_left Bool.false_ne_true)⟩

/-- A word that covers what follows stands before as many operators as were asked for. -/
theorem Goal.fits_unary_of_sequence {kind : Kind} {missing : Bool} {ts : Ahead} {cs : List Green}
    {r : Green} (hlast : cs.getLast? = some r) (hr : (Goal.sequence mode power).Fits missing ts r)
    (hcovering : kind.isCovering) (hkind : kind.isExpression) :
    (Green.node kind cs).Grouped ∧ (Goal.unary mode power).Fits missing ts (.node kind cs) := by
  have hprefixed := Kind.isPrefixed_of_isCovering hcovering
  refine ⟨grouped_of_isPrefixed hprefixed hlast ?_,
    fits_unary hprefixed hkind hlast hr.groups.1 fun hmissing op p hop => ?_⟩
  · simp [hcovering]
  · obtain ⟨hlt, hagainst⟩ := hr.groups.2 hmissing op p hop
    exact ⟨hagainst, fun _ => hlt⟩

/-- The rule for what stands before an operand fits its goal: the node around an operand ends with
it, so its powers are those of the operand. -/
theorem unaryRule_adds : (unaryRule mode power).Adds test fun missing ts gs =>
    ∃ t, gs = [t] ∧ (Goal.unary mode power).Fits missing ts t := by
  refine .branch ?_ (.branch ?_ (.branch ?_ (.branch ?_ ?_)))
  · refine .node_ends rfl (.seq_ends (.advance fun ts hts => ?_) fun _ => .call_ends) ?_
    · exact Bool.and_elim_left hts.2
    · exact fun _ _ _ _ hlast hr => Goal.fits_unary_of_unary hlast hr rfl rfl rfl
  · refine .node_ends rfl (.seq_ends (.advance fun ts hts => hts.2) fun _ =>
      .seq_ends (.ifAhead (.advance fun ts hts => ?_)) fun _ => .call_ends) ?_
    · exact Bool.and_elim_left hts.2
    · exact fun _ _ _ _ hlast hr => Goal.fits_unary_of_sequence hlast hr rfl rfl
  · refine .node_ends rfl (.seq_ends (.advanceAs (fun ts hts => ?_) rfl) fun _ => .call_ends) ?_
    · have hword := hts.2
      simp only [Ahead.isAwait, Bool.and_eq_true] at hword
      exact Ahead.mayTake_of_isWord rfl rfl hword.1.1.1
    · exact fun _ _ _ _ hlast hr => Goal.fits_unary_of_sequence hlast hr rfl rfl
  · refine .node_ends rfl (.seq_ends (.advanceAs (fun ts hts => ?_) rfl) fun _ => .call_ends) ?_
    · have hword := hts.2
      simp only [Ahead.isMove, Bool.and_eq_true] at hword
      exact Ahead.mayTake_of_isWord rfl rfl hword.1.1
    · exact fun _ _ _ _ hlast hr => Goal.fits_unary_of_unary hlast hr rfl rfl rfl
  · refine .mono .call (fun _ h => h) ?_
    rintro missing ts _ ⟨r, rfl, hr⟩
    obtain ⟨kind, cs, hcons, hkind⟩ := hr.shape.exists_node
    obtain rfl := (List.cons.inj hcons).1
    have hplain := Kind.isOperation_of_isOperand hkind
    refine ⟨_, rfl, .node (Kind.isExpression_of_isOperand hkind), (Kind.not_isOperation hplain).1,
      holdsFrom_of_not_isOperation hplain, fun _ op p _ => ?_⟩
    exact ⟨holdsAgainst_of_not_isOperation hplain,
      fun hc => absurd hc (not_isCovering (Kind.not_isOperation hplain).2)⟩

/-! ## Operators between operands -/

theorem Infix.isInfix_kind (op : Infix) : op.kind.1.isInfix := by cases op <;> rfl

/-- What an operator and its right operand make of a left operand. -/
structure RightSide (mode : Mode) (op : Infix) (p : Power) (missing : Bool) (ts : Ahead)
    (gs : List Green) : Prop where
  shape : ∀ l : Green, Shape.expr.Matches [l] → op.kind.1.shape.Matches (l :: gs)
  power : ∀ l : Green, (Green.node op.kind.1 (l :: gs)).power? = some p
  last : op.kind.1.hasRightOperand →
    ∃ r, gs.getLast? = some r ∧ (Goal.sequence mode p.right).Fits missing ts r

/-- Which token an operator is, and what its power is. -/
def Infix.IsAt (ts : Ahead) (p : Power) : Infix → Prop
  | .binary =>
    ts.kind = .equal ∧ p = .assignment ∨ ts.kind = .binaryOperator ∧ p = .ofOperator ts.text
  | .ternary => ts.kind = .infixQuestionMark ∧ p = .rightGrouping 3
  | .cast => ts.kind = .asKw ∧ p = .leftGrouping 9
  | .test => ts.kind = .isKw ∧ p = .leftGrouping 9
  | .arrow => p = .rightGrouping 2

/-- The operator that is seen ahead is the next token, and its power is that of the token. -/
theorem Ahead.isAt_infixOperator {ts : Ahead} {op : Infix} {p : Power}
    (h : ts.infixOperator mode = some (op, p)) : op.IsAt ts p := by
  rw [infixOperator] at h
  grind [Infix.IsAt]

/-- The power of a binary operator is that of its token. -/
theorem advance_power {p : Power} :
    advance.Adds (fun ts => ts.infixOperator mode = some (.binary, p)) fun _ _ gs =>
      (Shape.token fun k => k == .equal || k == .binaryOperator).Matches gs ∧
        gs.head?.bind operatorPower? = some p := by
  intro ts built hts
  have hop : Infix.binary.IsAt ts p := Ahead.isAt_infixOperator hts
  cases ts with
  | nil => rcases hop with ⟨hkind, -⟩ | ⟨hkind, -⟩ <;> cases hkind
  | cons x us =>
    have hpower : (Green.token x.token).operatorPower?
        = some (if x.token.kind = .equal then .assignment else .ofOperator x.token.text) := by
      show some (if x.token.kind = .equal then _ else Power.ofOperator x.token.outline.text) = _
      rw [Token.text_outline]
    refine ⟨Ahead.mayTake_none _, [Green.token x.token], rfl, ⟨trivial, trivial⟩, .token ?_,
      hpower.trans ?_⟩
    · rcases hop with ⟨hkind, -⟩ | ⟨hkind, -⟩
      · exact Bool.or_eq_true_iff.mpr (.inl (beq_iff_eq.mpr hkind))
      · exact Bool.or_eq_true_iff.mpr (.inr (beq_iff_eq.mpr hkind))
    · rcases hop with ⟨hkind, rfl⟩ | ⟨hkind, rfl⟩
      · exact congrArg some (if_pos hkind)
      · refine congrArg some (if_neg ?_)
        rw [show x.token.kind = .binaryOperator from hkind]
        decide

/-- An operator and its right operand fit any left operand. -/
theorem rightSide_adds {op : Infix} {p : Power} :
    (rightSide mode op p.right).Adds (fun ts => ts.infixOperator mode = some (op, p))
      (RightSide mode op p) := by
  intro ts built hts
  have hop : op.IsAt ts p := Ahead.isAt_infixOperator hts
  cases op with
  | binary =>
    refine Adds.bind advance_power (fun _ => .call_ends) ?_ ts built hts
    rintro _ _ gs missing ts hs ⟨hgs, hpower⟩ ⟨hhs, r, hlast, hr⟩
    refine ⟨fun l hl => .seq hl (.seq hgs hhs), fun l => ?_, fun _ => ⟨r, by simp [hlast], hr⟩⟩
    cases hgs
    exact hpower
  | ternary =>
    obtain ⟨hkind, rfl⟩ := hop
    -- an operator with a sequence behind it hands on how that sequence ends
    have hends : (rightSide mode .ternary (Power.rightGrouping 3).right).Adds
        (fun ts => ts.kind = .infixQuestionMark) (Goal.Ends
          (.sequence mode (Power.rightGrouping 3).right)
          (.seq (tok .infixQuestionMark) (.seq Shape.expr (.seq (needed .colon) Shape.expr)))) := by
      refine .seq_ends (.advance fun us hus => beq_iff_eq.mpr hus) fun _ => ?_
      exact .seq_ends expr_makes fun _ => .seq_ends .require fun _ => .call_ends
    refine Adds.mono hends (fun _ h => h) ?_ ts built hkind
    exact fun _ _ _ hgs => ⟨fun l hl => .seq hl hgs.1, fun l => rfl, fun _ => hgs.2⟩
  | cast =>
    obtain ⟨hkind, rfl⟩ := hop
    -- behind a type no sequence ends
    have hmakes : (rightSide mode .cast (Power.leftGrouping 9).right).Makes
        (fun ts => ts.kind = .asKw)
        (.seq (tok .asKw) (.seq (opt (tok .postfixOperator)) Shape.type)) := by
      refine .seq (.advance fun us hus => beq_iff_eq.mpr hus) fun _ => ?_
      refine .seq (.ifAhead (.advance fun us hus => ?_)) fun _ => .thenPure type_makes
      exact Bool.and_elim_left hus.2
    refine Adds.mono hmakes (fun _ h => h) ?_ ts built hkind
    exact fun _ _ _ hgs => ⟨fun l hl => .seq hl hgs, fun l => rfl, (absurd · Bool.false_ne_true)⟩
  | test =>
    obtain ⟨hkind, rfl⟩ := hop
    have hmakes : (rightSide mode .test (Power.leftGrouping 9).right).Makes
        (fun ts => ts.kind = .isKw) (.seq (tok .isKw) Shape.type) :=
      .seq (.advance fun us hus => beq_iff_eq.mpr hus) fun _ => .thenPure type_makes
    refine Adds.mono hmakes (fun _ h => h) ?_ ts built hkind
    exact fun _ _ _ hgs => ⟨fun l hl => .seq hl hgs, fun l => rfl, (absurd · Bool.false_ne_true)⟩
  | arrow =>
    obtain rfl := hop
    have hends : (rightSide mode .arrow (Power.rightGrouping 2).right).Adds (fun _ => True)
        (Goal.Ends (.sequence mode (Power.rightGrouping 2).right)
          (.seq (opt (one .effectSpecifiers)) (.seq (needed .arrow) Shape.expr))) :=
      .seq_ends effectSpecifiers_makes fun _ => .seq_ends .require fun _ => .call_ends
    refine Adds.mono hends (fun _ h => h) ?_ ts built trivial
    exact fun _ _ _ hgs => ⟨fun l hl => .seq hl hgs.1, fun l => rfl, fun _ => hgs.2⟩

/-! ## Operands with operators between them -/

/-- What is known of the operands and operators so far, before the next operator. -/
structure Sequenced (mode : Mode) (power : Nat) (ts : Ahead) (g : Green) : Prop where
  shape : Shape.expr.Matches [g]
  holdsFrom : g.HoldsFrom power
  holdsAgainst : ∀ op p, ts.infixOperator mode = some (op, p) → g.HoldsAgainst p.left
  ends : ∀ op p, ts.infixOperator mode = some (op, p) → g.IsCovering → p.left < power

/-- An operator that is strong enough gets what was read so far as its left operand. -/
theorem Sequenced.next {ts us : Ahead} {g : Green} {op : Infix} {p : Power} {missing : Bool}
    {gs : List Green} (h : Sequenced mode power ts g) (hop : ts.infixOperator mode = some (op, p))
    (hpower : power ≤ p.left) (hgs : RightSide mode op p missing us gs) :
    Green.Exact op.kind.1 (g :: gs) ∧ (Green.node op.kind.1 (g :: gs)).HoldsFrom power ∧
      (missing = false → Sequenced mode power us (.node op.kind.1 (g :: gs))) := by
  have hjoin := op.isInfix_kind
  have hpower' := hgs.power g
  have hexpr := Kind.isExpression_of_isInfix hjoin
  have hright (r : Green) (hr : r ∈ (Green.node op.kind.1 (g :: gs)).rightOperand?) :
      (Goal.sequence mode p.right).Fits missing us r := by
    rw [Option.mem_def, rightOperand?] at hr
    split at hr
    · rename_i hkind
      obtain ⟨r', hlast, hfits⟩ := hgs.last hkind
      rw [List.getLast?_cons, hlast, Option.getD_some] at hr
      obtain rfl := Option.some.inj hr
      exact hfits
    · cases hr
  have hfrom : (Green.node op.kind.1 (g :: gs)).HoldsFrom power :=
    (holdsFrom_iff_of_isInfix hjoin hpower').mpr ⟨hpower, h.holdsFrom⟩
  have hoperation : op.kind.1.isOperation := by
    rw [Kind.isOperation, hjoin]
    rfl
  refine ⟨exact_of_isOperation hoperation (hgs.shape g h.shape)
      (grouped_of_isInfix hjoin hpower' ?_ (h.holdsAgainst op p hop) ?_),
    hfrom, fun hmissing => ⟨.node hexpr, hfrom, fun op' p' hop' => ?_, fun _ _ _ hcovering => ?_⟩⟩
  · exact fun r hr => (hright r hr).groups.1
  · exact fun hcovering => absurd (h.ends op p hop hcovering) (Nat.not_lt.mpr hpower)
  · exact (holdsAgainst_iff_of_isInfix hjoin hpower').mpr fun r hr =>
      (hright r hr).groups.2 hmissing op' p' hop'
  · exact absurd hcovering (not_isCovering (Kind.isPrefixed_of_isInfix hjoin))

/-- The rule for operands with operators between them fits its goal. It reads one operand and goes
on as long as operators are strong enough, and `Sequenced` is what every round keeps. -/
theorem sequenceRule_adds : (sequenceRule mode power).Adds test fun missing ts gs =>
    ∃ t, gs = [t] ∧ (Goal.sequence mode power).Fits missing ts t := by
  intro ts built _ missing us g hg
  obtain ⟨kind, cs, hcons, hkind⟩ := hg.shape.exists_node
  obtain rfl := (List.cons.inj hcons).1
  obtain ⟨-, hfrom, hnext⟩ := hg.groups
  cases missing with
  | true => exact ⟨[_], rfl, ⟨hg.strict, trivial⟩, _, rfl, hg.shape, hfrom, by simp⟩
  | false =>
    refine ⟨fun t => ∃ g : Green, t.built = g :: built ∧ g.Strict ∧ Sequenced mode power t.ahead g,
      ⟨_, rfl, hg.strict, hg.shape, hfrom, fun op p hop => (hnext rfl op p hop).1,
        fun op p hop => (hnext rfl op p hop).2⟩, ?_⟩
    rintro ⟨us, _⟩ ⟨g, rfl, hstrict, hg⟩
    rw [yields_bind, yields_look]
    rcases hop : us.infixOperator mode with _ | ⟨op, p⟩
    · refine ⟨[g], rfl, ⟨hstrict, trivial⟩, g, rfl, hg.shape, hg.holdsFrom, fun _ op p hop' => ?_⟩
      rw [hop] at hop'
      cases hop'
    · show Parser.yields (if p.left < power then _ else _) _ _
      split
      · rename_i hlt
        refine ⟨[g], rfl, ⟨hstrict, trivial⟩, g, rfl, hg.shape, hg.holdsFrom,
          fun _ op' p' hop' => ?_⟩
        rw [hop] at hop'
        obtain ⟨rfl, rfl⟩ := Prod.mk.inj (Option.some.inj hop')
        exact ⟨hlt, hg.holdsAgainst _ _ hop⟩
      · rename_i hge
        refine Adds.enclose rightSide_adds hop hg.shape hstrict fun missing vs gs hgs hstrict' => ?_
        obtain ⟨hexact, hfrom, hnext⟩ := hg.next hop (Nat.le_of_not_lt hge) hgs
        have hexpr := Kind.isExpression_of_isInfix op.isInfix_kind
        cases missing with
        | true =>
          exact ⟨[_], rfl, ⟨⟨hexact, hstrict'⟩, trivial⟩, _, rfl, .node hexpr, hfrom, by simp⟩
        | false => exact ⟨_, rfl, ⟨hexact, hstrict'⟩, hnext rfl⟩

end SwiftTree.Grammar
