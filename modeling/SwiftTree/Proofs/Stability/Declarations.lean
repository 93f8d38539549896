import SwiftTree.Grammar.Closure
import SwiftTree.Proofs.Stability.Types

/-!
# Patterns, declarations, closures and arguments do not depend on the end

There is one lemma for each rule, in the order of the grammar, and each has the form of its rule.
What leads to a declaration was looked for past attributes and modifiers, and the place where this
look comes to is the same before a brace (`Braced.afterAttributes`, `Braced.afterModifiers`).
-/

namespace SwiftTree.Grammar

open Grammar.Parser

variable {mode : Mode}

/-! ## Patterns -/

theorem expr_stable : (expr mode).Stable := .visit _

theorem tokenNode_stable {kind : Kind} {hk : kind.isConstruct} : (tokenNode kind hk).Stable :=
  .node .advance

theorem label_stable : label.Stable := .ifAhead .isLabel (.advanceBy 2)

theorem tuplePattern_stable : tuplePattern.Stable := by
  refine .node (.bind .advance fun _ => .bind (.unlessAt ?_) fun _ => .require)
  refine .bind (.commaList (.or .isAtAny .isAtAny) ?_) fun _ => skipToCloser_stable (by decide)
  exact .bind label_stable fun _ => .visit _

theorem patternRule_stable : patternRule.Stable := by
  refine .look (.kind fun _ => id) fun kind => ?_
  split
  iterate 2 exact tokenNode_stable
  · exact tokenNode_stable
  · exact tuplePattern_stable
  iterate 2 exact .node (.bind .advance fun _ => .visit _)
  · exact .placeholder

/-- A lone name has something behind it, which tells whether it is a pattern. -/
theorem Ahead.Agrees.isLone {P : Ahead → Prop} {k : Kind} (hk : Ahead.loose.contains k = true) :
    Ahead.Agrees P (Ahead.isLone k) := by
  have hfile : k ≠ .endOfFile := by
    rintro rfl
    cases hk
  have hbrace : k ≠ .rightBrace := by
    rintro rfl
    cases hk
  have hends : (Kind.endOfFile == k) = (Kind.rightBrace == k) := by
    rw [beq_eq_false_iff_ne.mpr hfile.symm, beq_eq_false_iff_ne.mpr hbrace.symm]
  refine .and (.isAt k hends) fun ts us hb hts => ?_
  have hne : ts.tail ≠ [] := by
    rw [← List.drop_one]
    exact hb.drop_succ_ne_nil (n := 0) (by rw [List.drop_zero, beq_iff_eq.mp hts.2, hk])
  exact Ahead.Agrees.isInAny (hb.tail (Ahead.ne_nil_of_isAt hfile hts.2)) hne

theorem valueBinding_stable : (valueBinding mode).Stable := .node (.bind .advance fun _ => .visit _)

theorem casePatternRule_stable : (casePatternRule mode).Stable := by
  refine .branch (.or .isAtAny .isAtAny) valueBinding_stable ?_
  refine .branch .isAtAny (.node (.bind .advance fun _ => type_stable)) ?_
  refine .branch (.isLone rfl) tokenNode_stable ?_
  exact .branch (.and (.const _) (.isLone rfl)) tokenNode_stable (.node (.visit _))

/-! ## Declarations -/

theorem codeBlock_stable : codeBlock.Stable := by
  refine .node (.bind .eat fun _ => .ite (.bind (.visit _) fun _ => .require) ?_)
  exact .bind .missing fun _ => .bind .emptyNode fun _ => .missing

theorem initializer_stable : (initializer mode).Stable :=
  .node (.bind .require fun _ => expr_stable)

variable {typed : Bool}

theorem parameterNames_stable : (parameterNames typed).Stable := by
  refine .branch .isName (.bind .advance fun _ => .ifAhead .isName .advance) ?_
  exact .ite .missing (.pure ())

theorem parameterType_stable : (parameterType typed).Stable :=
  .ifAhead (.or (.const _) .isAtAny) (.bind .require fun _ => type_stable)

theorem parameter_stable : (parameter typed).Stable := by
  refine .bind attributes_stable fun _ => .bind parameterNames_stable fun _ => ?_
  refine .bind parameterType_stable fun _ => .bind (.ifAhead .isOperator .advance) fun _ => ?_
  exact .ifAt (.node (.bind .advance fun _ => expr_stable))

theorem parameterClause_stable : (parameterClause typed).Stable := by
  refine .node (.bind .eat fun _ => .ite (.bind (.unlessAt ?_) fun _ => .require) ?_)
  · refine .bind (.commaList (.or .isAtAny .isAtAny) parameter_stable) fun _ => ?_
    exact skipToCloser_stable (by decide)
  · exact .bind .missing fun _ => .missing

theorem patternBinding_stable : patternBinding.Stable := by
  refine .bind (.visit _) fun _ => .bind (.ifAt typeClause_stable) fun _ => ?_
  refine .bind (.ifAt initializer_stable) fun _ =>
    .ifAhead (.and .isAtAny (.not ?_)) codeBlock_stable
  exact .atLineStart fun _ h => h.1

theorem variableParts_stable : variableParts.Stable := by
  refine .bind (.bind .eat fun _ => .ite (.pure ()) .require) fun _ => ?_
  exact .node (.commaList (.const _) patternBinding_stable)

theorem functionName_stable : functionName.Stable :=
  .branch (.or .isAtAny .isOperatorKind) .advance .missing

theorem functionParts_stable : functionParts.Stable := by
  refine .bind .advance fun _ => .bind functionName_stable fun _ => .bind (.node ?_) fun _ => ?_
  · refine .bind parameterClause_stable fun _ => .bind effectSpecifiers_stable fun _ => ?_
    exact .ifAt returnClause_stable
  · exact .ifAt codeBlock_stable

theorem modifierWord_stable : modifierWord.Stable := by
  refine .bind .eatWord fun _ => .ite (.pure ()) (.bind .eatWord fun _ => .ite (.pure ()) ?_)
  exact .bind .eatWord fun _ => .ite (.pure ()) .advance

theorem modifier_stable : modifier.Stable := by
  refine .node (.look (Ahead.Agrees.modifierLength?.map (·.getD 1)) fun length => ?_)
  exact .bind modifierWord_stable fun _ => .advanceBy _

theorem declParts_stable : declParts.Stable := by
  refine .branch .isAtAny (.bind functionParts_stable fun _ => .pure _) ?_
  exact .bind variableParts_stable fun _ => .pure _

theorem decl_stable : decl.Stable := by
  refine .nodeBy (.bind attributes_stable fun _ => .bind ?_ fun _ => ?_)
  · exact .whileAhead (Ahead.Agrees.modifierLength?.map Option.isSome) modifier_stable
  · exact .bind declParts_stable fun _ => .pure _

/-! ## Signatures -/

namespace Ahead.Agrees

variable {P : Ahead → Prop}

/-- A signature of a closure is looked for up to the word `in`, and not past a closing brace. -/
theorem isSignature : Agrees P Ahead.isSignature := by
  have hscan : Sealed (signatureEnd.answer ⟨0, true⟩) := by
    refine Scan.sealed_answer _ (fun s x y ts us halike _ => ?_) fun s b hb => ?_
    · simp only [signatureEnd, halike.kind, halike.text]
    · rw [Scan.answer, Scan.run]
      simp only [signatureEnd, hb.kind]
  exact hscan.any

theorem isCaptureSpecifier : Agrees P Ahead.isCaptureSpecifier :=
  (isWord.and (Sealed.tail isName)).or
    (isWord.and ((Sealed.tail isName).or (Sealed.tail (isAt _ rfl))))

end Ahead.Agrees

theorem captureSpecifier_stable : captureSpecifier.Stable := by
  refine .bind .eatWord fun _ => .ite (.pure ()) (.bind .eatWord fun _ => ?_)
  refine .ifAhead (.and .isAtAny .adjacent) (.bind .advance fun _ => ?_)
  exact .bind .skip fun _ => .require

theorem captureClause_stable : captureClause.Stable := by
  refine .node (.bind .advance fun _ => .bind (.unlessAt ?_) fun _ => .require)
  refine .bind (.commaList (.or .isAtAny .isAtAny) ?_) fun _ => skipToCloser_stable (by decide)
  refine .bind (.ifAhead .isCaptureSpecifier captureSpecifier_stable) fun _ => ?_
  refine .bind (.ifAhead (.and .isName (Ahead.Sealed.tail (.isAt _ rfl))) (.advanceBy 2))
    fun _ => ?_
  exact expr_stable

theorem closureParameters_stable : closureParameters.Stable := by
  refine .branch .isAtAny parameterClause_stable ?_
  refine .ifAhead (.and (.and .isName (.not (.isAt _ rfl))) (.not .isEffect)) (.node ?_)
  exact .commaList (.or (.not .isName) .isAtAny) .advance

theorem closureSignature_stable : closureSignature.Stable := by
  refine .node (.bind attributes_stable fun _ => .bind (.ifAt captureClause_stable) fun _ => ?_)
  refine .bind closureParameters_stable fun _ => .bind effectSpecifiers_stable fun _ => ?_
  exact .bind (.ifAt returnClause_stable) fun _ => .require

theorem closureRule_stable : closureRule.Stable := by
  refine .node (.bind .require fun _ => .bind ?_ fun _ => .bind (.visit _) fun _ => .require)
  exact .ifAhead .isSignature closureSignature_stable

/-! ## Arguments -/

theorem argumentList_stable {closer : Kind} {barriers : KindSet}
    (hcloser : closer ≠ .rightBrace) : (argumentList closer barriers mode).Stable := by
  refine .node (.unlessAt (.bind (.commaList ?_ ?_) fun _ => skipToCloser_stable hcloser))
  · exact .or (.or .isAtAny .isAtAny) .isInAny
  · exact .bind label_stable fun _ => expr_stable

theorem trailingClosures_stable : trailingClosures.Stable := by
  have hbrace : Ahead.Blind fun ts => ts.kindAt 2 == .leftBrace := Ahead.Sealed.drop (.isAt _ rfl) 2
  refine .bind (.visit _) fun _ => .whileAhead ?_ (.node (.bind (.advanceBy 2) fun _ => .visit _))
  exact .and (.and .isLabel (.mono hbrace fun _ h => h.1)) (.not (.atLineStart fun _ h => h.1))

theorem optionalTrailingClosures_stable : (optionalTrailingClosures mode).Stable := by
  refine .ifAhead (.and (.and .isAtAny (.not (.atLineStart fun _ h => h.1))) (.const _)) ?_
  exact trailingClosures_stable

end SwiftTree.Grammar
