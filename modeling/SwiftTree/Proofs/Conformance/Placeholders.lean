import SwiftTree.Grammar.Run
import SwiftTree.Proofs.Conformance.Makes

/-!
# Placeholders

Where nothing is written that a goal asks for, its rule goes through all its tests in vain and
leaves a placeholder (`Goal.rule_vacates`). Such a rule takes nothing, and one that takes something
has read a token. So what a goal adds has a token in it, or is a placeholder
(`Goal.Gives.hasPresent_or`).
-/

namespace SwiftTree.Grammar

open Grammar.Parser

variable {ts : Ahead} {built : Forest}

/-! ## Where nothing starts -/

namespace Ahead

/-- A token of no set is of no kind in the set. -/
theorem not_isAt_of_isIn {set : KindSet} {k : Kind} (h : ts.isIn set = false)
    (hk : set.contains k) :
    ts.isAt k = false := by
  rw [isAt]
  refine beq_false_of_ne fun hkind => ?_
  rw [isIn, hkind, hk] at h
  cases h

/-- Where no operand starts, none of the tests of the rule for operands succeeds. -/
theorem startsOperand_eq_false (h : ts.startsOperand = false) :
    (ts.isIn exprFirst = false ∧ ts.isOperatorRef = false) ∧ ts.isAt .letKw = false ∧
      ts.isAt .varKw = false := by
  rw [startsOperand, startsExpr, Bool.or_eq_false_iff, Bool.or_eq_false_iff,
    Bool.or_eq_false_iff] at h
  exact ⟨h.1.1, h.1.2, h.2⟩

/-- Where no identifier stands, no contextual word does. -/
theorem not_isWord (h : ts.isAt .identifier = false) (s : String) : ts.isWord s = false := by
  rw [isWord, h]
  rfl

/-- `some` and `any` are identifiers to the tokenizer. -/
theorem not_isSomeOrAny (h : ts.isAt .identifier = false) : ts.isSomeOrAny = false := by
  rw [isSomeOrAny, not_isWord h, not_isWord h]
  rfl

end Ahead

/-! ## Rules that leave a placeholder -/

/-- The second of two rules, by a test of the tokens ahead. -/
theorem Parser.yields_branch_not {α : Type} {f : Ahead → Bool} {p q : Parser α} {s : State Forest}
    {post : α → State Forest → Prop} (hf : f s.ahead = false) (hq : q.yields s post) :
    (look f >>= fun b => if b then p else q).yields s post := by
  show Parser.yields (if f s.ahead then p else q) s post
  rwa [hf]

/-- Whether a rule leaves a placeholder before some tokens, and does nothing else. -/
def Parser.Vacates {α : Type} (ts : Ahead) (answer : α) (g : Green) (p : Parser α) : Prop :=
  ∀ built : Forest, p.yields ⟨ts, built⟩ fun a t => a = answer ∧ t = ⟨ts, g :: built⟩

namespace Parser.Vacates

variable {α β : Type} {g : Green}

/-- An answer behind what was left. -/
theorem returns {first : Parser α} {f : α → β} {a : α} (h : first.Vacates ts a g) :
    (first >>= fun x => Pure.pure (f x)).Vacates ts (f a) g := by
  intro built
  rw [yields_bind]
  refine yields_mono (h built) ?_
  rintro _ _ ⟨rfl, rfl⟩
  exact ⟨rfl, rfl⟩

/-- A rule behind one that leaves something, if it does nothing there. -/
theorem seq {first : Parser α} {next : α → Parser β} {a : α} {b : β} (h : first.Vacates ts a g)
    (hnext : ∀ built : Forest, (next a).yields ⟨ts, g :: built⟩ fun c t => c = b ∧
      t = ⟨ts, g :: built⟩) :
    (first >>= next).Vacates ts b g := by
  intro built
  rw [yields_bind]
  refine yields_mono (h built) ?_
  rintro _ _ ⟨rfl, rfl⟩
  exact hnext built

/-- A call leaves what its goal leaves. -/
theorem call (goal : Goal) (htakes : goal.takes ts = false) (hg : goal.placeholder? = some g) :
    (Grammar.call goal).Vacates ts goal.isOperand g := by
  intro built a us x hx
  obtain ⟨hplaceholder, rfl, hanswer⟩ := hx.vacant htakes (by rw [hg]; rfl)
  rw [hg] at hplaceholder
  obtain rfl := Option.some.inj hplaceholder
  exact ⟨hanswer, rfl⟩

theorem visit (goal : Goal) (htakes : goal.takes ts = false) (hg : goal.placeholder? = some g) :
    (Grammar.visit goal).Vacates ts () g := returns (call goal htakes hg)

end Parser.Vacates

/-! ### Expressions -/

/-- Where no operand can be, the rule for one goes through all its cases in vain. -/
theorem primary_vacates {mode : Mode} (h : (Goal.operand mode).takes ts = false) :
    (primary mode).Vacates ts true (.node .missingExpr []) := by
  -- what an operand can start with would have been taken
  have never {k : Kind} (hk : ts.kind = k) (hfirst : (Ahead.exprFirst.contains k || k == .letKw
      || k == .varKw) && k != .tryKw && k != .prefixOperator) : False := by
    simp only [Goal.takes, Ahead.startsOperand, Ahead.startsExpr, Ahead.isIn, Ahead.isAt, hk] at h
    grind
  have hname : ts.isAt .identifier = false := beq_false_of_ne fun hk => never hk (by decide)
  intro built
  rw [primary, yields_bind, yields_look]
  refine yields_branch_not (Ahead.not_isSomeOrAny hname) ?_
  dsimp only
  split
  case h_28 =>
    refine yields_branch_not ?_ ⟨rfl, rfl⟩
    cases href : ts.isOperatorRef with
    | false => rfl
    | true =>
      have htry : ts.isAt .tryKw = false := by
        rw [Ahead.isAt]
        refine beq_false_of_ne fun hk => ?_
        rw [Ahead.isOperatorRef, hk] at href
        cases href
      rw [Goal.takes, Ahead.startsOperand, Ahead.startsExpr, href, htry] at h
      simp at h
  all_goals
    rename_i hk
    exact (never hk (by decide)).elim

theorem operandRule_vacates {mode : Mode} (h : (Goal.operand mode).takes ts = false) :
    (operandRule mode).Vacates ts true (.node .missingExpr []) :=
  .seq (primary_vacates h) fun _ => ⟨rfl, rfl⟩

/-- Where no operand starts, there also is no word before one. -/
theorem unaryRule_vacates {mode : Mode} {power : Nat} (h : ts.startsOperand = false) :
    (unaryRule mode power).Vacates ts true (.node .missingExpr []) := by
  obtain ⟨⟨hfirst, href⟩, -⟩ := Ahead.startsOperand_eq_false h
  have hname : ts.isAt .identifier = false := Ahead.not_isAt_of_isIn hfirst (by decide)
  have hprefix : (ts.isAt .prefixOperator && !ts.isOperatorRef) = false := by
    rw [Ahead.not_isAt_of_isIn hfirst (by decide)]
    rfl
  intro built
  refine yields_branch_not hprefix
    (yields_branch_not ?_ (yields_branch_not ?_ (yields_branch_not ?_ ?_)))
  · exact Ahead.not_isAt_of_isIn hfirst (by decide)
  · rw [Ahead.isAwait, Ahead.not_isWord hname]
    rfl
  · rw [Ahead.isMove, Ahead.not_isWord hname]
    rfl
  · refine Vacates.call (.operand mode) ?_ rfl built
    rw [Goal.takes, h]
    rfl

theorem sequenceRule_vacates {mode : Mode} {power : Nat} (h : ts.startsOperand = false) :
    (sequenceRule mode power).Vacates ts true (.node .missingExpr []) :=
  .seq (.call (.unary mode power) h rfl) fun _ => ⟨rfl, rfl⟩

/-! ### Types and patterns -/

/-- Where no type starts, the rule for types without attributes leaves a placeholder. -/
theorem plainTypeRule_vacates (h : ts.isIn Ahead.typeFirst = false) :
    plainTypeRule.Vacates ts () (.node .missingType []) := by
  have hnot {k : Kind} (hk : Ahead.typeFirst.contains k) : ts.isAt k = false :=
    Ahead.not_isAt_of_isIn h hk
  intro built
  refine yields_branch_not ?_ (yields_branch_not ?_ (yields_branch_not ?_ (yields_branch_not ?_
    (yields_branch_not ?_ ⟨rfl, rfl⟩))))
  · rw [hnot (by decide), hnot (by decide)]
    rfl
  · exact Ahead.not_isSomeOrAny (hnot (by decide))
  · rw [hnot (by decide), hnot (by decide)]
    rfl
  · exact hnot (by decide)
  · exact hnot (by decide)

/-- With attributes before it, this would be a type. -/
theorem typeRule_vacates (h : Goal.type.takes ts = false) :
    typeRule.Vacates ts () (.node .missingType []) := by
  rw [Goal.takes, Bool.or_eq_false_iff] at h
  exact .seq (.visit .plainType h.1 rfl) fun built => yields_branch_not h.2 ⟨rfl, rfl⟩

/-- Where no pattern starts, the rule for patterns leaves a placeholder. -/
theorem patternRule_vacates (h : ts.isIn Ahead.patternFirst = false) :
    patternRule.Vacates ts () (.node .missingPattern []) := by
  have never {k : Kind} (hk : ts.kind = k) (hfirst : Ahead.patternFirst.contains k) : False := by
    rw [Ahead.isIn, hk, hfirst] at h
    cases h
  intro built
  rw [patternRule, yields_bind, yields_look]
  split
  case h_7 => exact ⟨rfl, rfl⟩
  all_goals
    rename_i hk
    exact (never hk (by decide)).elim

/-- Where a pattern may be any expression, the expression is missing. -/
theorem casePatternRule_vacates {mode : Mode} (h : (Goal.casePattern mode).takes ts = false) :
    (casePatternRule mode).Vacates ts () (.node .expressionPattern [.node .missingExpr []]) := by
  rw [Goal.takes, Bool.or_eq_false_iff] at h
  obtain ⟨⟨hfirst, -⟩, hlet, hvar⟩ := Ahead.startsOperand_eq_false h.1
  have hlone {k : Kind} (hk : Ahead.exprFirst.contains k) : ts.isLone k = false := by
    rw [Ahead.isLone, Ahead.not_isAt_of_isIn hfirst hk]
    rfl
  intro built
  refine yields_branch_not ?_ (yields_branch_not h.2 (yields_branch_not (hlone (by decide))
    (yields_branch_not ?_ ?_)))
  · rw [hlet, hvar]
    rfl
  · rw [hlone (by decide), Bool.and_false]
  · have hexpr : (visit (.sequence mode Power.aboveAssignment)).Vacates ts ()
        (.node .missingExpr []) := .visit _ h.1 rfl
    have hinside := yields_mono (hexpr []) fun _ t ht =>
      show () = () ∧ t.leave ([], built) (some .expressionPattern) =
        ⟨ts, .node .expressionPattern [.node .missingExpr []] :: built⟩ from
      ⟨rfl, by rw [ht.2]; rfl⟩
    exact hinside

/-! ## All goals -/

/-- **The rule of a goal that takes nothing leaves its placeholder**, if it has one. So a node
without a token in it is a placeholder, and stands for something that is missing. -/
theorem Goal.rule_vacates {goal : Goal} {g : Green} (h : goal.takes ts = false)
    (hg : goal.placeholder? = some g) : goal.rule.Vacates ts goal.isOperand g := by
  cases goal with
  | sequence mode power =>
    obtain rfl := Option.some.inj hg
    exact sequenceRule_vacates h
  | unary mode power =>
    obtain rfl := Option.some.inj hg
    exact unaryRule_vacates h
  | operand mode =>
    obtain rfl := Option.some.inj hg
    exact operandRule_vacates h
  | type =>
    obtain rfl := Option.some.inj hg
    exact .returns (typeRule_vacates h)
  | plainType =>
    obtain rfl := Option.some.inj hg
    exact .returns (plainTypeRule_vacates h)
  | pattern =>
    obtain rfl := Option.some.inj hg
    exact .returns (patternRule_vacates h)
  | casePattern mode =>
    obtain rfl := Option.some.inj hg
    exact .returns (casePatternRule_vacates h)
  | closure | statement | statements _ | switchCases _ => cases hg

/-- What a goal adds has a token in it, or is its placeholder. It follows that a part of a list has
something to show for it. -/
theorem Goal.Gives.hasPresent_or {goal : Goal} {start us : Ahead} {missing : Bool} {g : Green}
    (h : goal.Gives start missing us g) (hgoal : goal.placeholder?.isSome) :
    g.hasPresent ∨ g.isPlaceholder := by
  cases htakes : goal.takes start with
  | true => exact .inl (h.read htakes)
  | false =>
    refine .inr ?_
    have hg := (h.vacant htakes hgoal).placeholder
    unfold placeholder? at hg
    split at hg
    case h_8 => cases hg
    all_goals
      obtain rfl := Option.some.inj hg
      rfl

end SwiftTree.Grammar
