import SwiftTree.Proofs.Placement.Operands

/-!
# Sequences and patterns heed their modes

An operator is found on the line of its left operand where the mode asks for that. What is read for
its right operand is read in the same mode, and so is what a word such as `try` stands before.
-/

namespace SwiftTree

-- what holds of all kinds is computed kind by kind
set_option maxRecDepth 1000

open Grammar

open Green (sightOf)

/-- A tree that heeds the strictest mode heeds every mode. -/
theorem Green.Heeds.all {g : Green} {mode : Mode}
    (h : g.Heeds { noTrailingClosure := true, directive := true }) : g.Heeds mode :=
  ⟨fun _ => h.closures rfl, fun _ => h.lines rfl⟩

namespace Grammar

open Grammar.Parser

variable {test : Ahead → Prop} {mode : Mode} {power : Nat}

/-! ## Operands with operators between them -/

/-- What stands before an operand or a sequence leaves it as its mode wants it. -/
theorem unaryRule_heeds : (unaryRule mode power).AddsNode test fun g => g.Heeds mode := by
  refine .branch (.heeding rfl rfl ?_) (.branch (.heeding rfl rfl ?_)
    (.branch (.heeding rfl rfl ?_) (.branch (.heeding rfl rfl ?_) (.call rfl fun _ h => h))))
  · exact .seq .advance fun _ => .callAs fun _ _ h => h
  · refine .seq .advance fun _ => .seq (.ifAhead .advance) fun _ => ?_
    exact .callAs fun _ _ h => h
  · exact .seq .advanceAs fun _ => .callAs fun _ _ h => h
  · exact .seq .advanceAs fun _ => .callAs fun _ _ h => h

theorem expr_heeds : (expr mode).Fills test (fun g => g.Heeds mode) fun _ => True :=
  .visitAs fun _ _ h => h

theorem type_heeds : type.Fills test (fun g => g.Heeds mode) fun _ => True :=
  .quiet type_calm type_makes fun _ => Kind.of_implies rfl

/-- The right operand of an operator heeds the mode of the left one. -/
theorem rightSide_heeds {op : Infix} :
    (rightSide mode op power).Fills test (fun g => g.Heeds mode) fun _ => True := by
  cases op with
  | binary => exact .seq .advance fun _ => .callAs fun _ _ h => h
  | ternary =>
    refine .seq .advance fun _ => .seq expr_heeds fun _ => .seq .require fun _ => ?_
    exact .callAs fun _ _ h => h
  | cast =>
    refine .seq .advance fun _ => .seq (.ifAhead .advance) fun _ => ?_
    exact .seq type_heeds fun _ => .pure trivial
  | test => exact .seq .advance fun _ => .seq type_heeds fun _ => .pure trivial
  | arrow =>
    refine .seq (.of_makes effectSpecifiers_calm effectSpecifiers_makes fun gs hstrict hgs => ?_)
      fun _ => .seq .require fun _ => .callAs fun _ _ h => h
    have hall : ∀ g ∈ gs, g.Heeds mode := Green.heeds_of_only hstrict hgs rfl
    exact fun _ _ hmem => hall _ hmem

/-- An operator that is found on the line of its left operand if the mode asks for that. -/
theorem Ahead.isOnLine_of_infixOperator {ts : Ahead} {op : Infix} {p : Power} (hled : ts.Led)
    (h : ts.infixOperator mode = some (op, p)) (hmode : mode.directive) : ts.sight.isOnLine := by
  rw [infixOperator, hmode, Bool.true_and] at h
  refine isOnLine_of_led hled ?_ ?_
  · rintro rfl
    cases h
  · refine Bool.eq_false_iff.mpr fun hline => ?_
    rw [if_pos hline] at h
    cases h

theorem Infix.isOrdinary_kind (op : Infix) : op.kind.1.isOrdinary := by cases op <;> rfl

theorem Infix.not_isCall_kind (op : Infix) : op.kind.1.isCall = false := by cases op <;> rfl

/-- Operands with operators between them heed their mode. -/
theorem sequenceRule_heeds : (sequenceRule mode power).AddsNode test fun g => g.Heeds mode := by
  refine .wrap (.call rfl fun _ h => h) fun missing => ?_
  cases missing with
  | true => exact .pure true
  | false =>
    refine .repeatUntil (.look fun next => ?_)
    rcases next with _ | ⟨op, p⟩
    · exact .pure _
    · show WrapsNode _ _ (if p.left < power then _ else _)
      split
      · exact .pure _
      · refine .seq (.encloseAll op.isOrdinary_kind rightSide_heeds
          fun ts us k ds gs hts hleft hgs hsight => ?_) fun _ => .pure _
        exact .joinAll op.not_isCall_kind hleft (hgs.forall_mem .leaf) hsight
          (Ahead.isOnLine_of_infixOperator hts.2 hts.1.2)

/-! ## Patterns -/

/-- A pattern behind `case` or `catch` heeds the mode that it is read in. -/
theorem casePatternRule_heeds : (casePatternRule mode).AddsNode test fun g => g.Heeds mode := by
  refine .branch valueBinding_heeds (.branch (.heeding rfl rfl ?_)
    (.branch (.heeding rfl rfl .advance) (.branch (.heeding rfl rfl .advance)
      (.heeding rfl rfl ?_))))
  · exact .seq .advance fun _ => type_heeds
  · exact .visitAs fun _ _ h => h

/-- A pattern of a declaration heeds every mode. -/
theorem patternRule_heeds : patternRule.AddsNode test fun g => g.Heeds mode := by
  refine .look fun kind => ?_
  split
  iterate 3 exact .heeding rfl rfl .advance
  · exact .quietOne rfl tuplePattern_calm (tuplePattern_makes fun ts hts => beq_iff_eq.mpr hts.2)
  iterate 2 exact .heeding rfl rfl (.seq .advance fun _ => .visitAs fun _ _ h => h _)
  · exact .placeholder

/-! ## Parts of statements -/

theorem initializer_heeds : (initializer mode).Fills test (fun g => g.Heeds mode) fun _ => True :=
  .heeding rfl rfl (.seq .require fun _ => expr_heeds)

theorem typeClause_heeds : typeClause.Fills test (fun g => g.Heeds mode) fun _ => True :=
  .quietOne rfl typeClause_calm typeClause_makes

theorem whereClause_heeds :
    (whereClause mode).Fills test (fun g => g.Heeds mode) fun _ => True :=
  .ifAhead (.heeding rfl rfl (.seq .advance fun _ => expr_heeds))

end Grammar

end SwiftTree
