import SwiftTree.Grammar.Types
import SwiftTree.Proofs.Groups
import SwiftTree.Proofs.Stability

/-!
# Recovery, attributes and types do not depend on the end

There is one lemma for each rule, in the order of the grammar, and each has the form of its rule.
What has to be shown for a rule is that its looks see no difference between the end of a file and a
closing brace. Rules that skip something are stable because then there is something unexpected; the
exception are the arguments of attributes, whose tokens are taken without a fault.
-/

namespace SwiftTree.Grammar

open Grammar.Parser

/-! ## Recovery -/

section Skipping

variable {stop : Ahead → Bool} {ts us : Ahead}

/-- A place to stop is the same place if a brace stands behind. -/
theorem Ahead.Braced.outside (h : Ahead.Braced ts us) (hblind : Ahead.Blind stop) {depth : Nat}
    (hstop : (Ahead.outside stop).stop depth ts ≠ []) :
    Ahead.skipLength stop depth us = Ahead.skipLength stop depth ts := by
  have hstep : ∀ depth {x y : Lexeme} {ts us : Ahead}, x.Alike y →
      Ahead.Braced (x :: ts) (y :: us) →
        (Ahead.outside stop).step depth x ts = (Ahead.outside stop).step depth y us :=
    fun depth x y ts us halike hb => by
      simp only [Ahead.outside, halike.kind, hblind hb (List.cons_ne_nil _ _)]
  have hsame := h.stop hstep hstop
  rw [Ahead.skipLength, Ahead.skipLength, h.length_eq, hsame.length_eq, Nat.add_sub_add_right]

end Skipping

theorem skippedUntil_stable {stop : KindSet} : (skippedUntil stop).Stable := by
  refine .lookWith ?_ fun n => ?_
  · intro n rounds ts us vs a hrun hus hts hvs
    refine hvs.outside .isInAny fun hstop => ?_
    -- what is looked for does not come, so everything up to the end is unexpected
    have hlength : Ahead.skipLength (Ahead.isIn stop) 0 ts = ts.length := by
      rw [Ahead.skipLength, hstop]
      rfl
    obtain ⟨m, hm⟩ := Nat.exists_eq_succ_of_ne_zero (Nat.ne_of_gt (List.length_pos_iff.mpr hts))
    rw [hlength, hm] at hrun
    obtain ⟨_, t, hskipped, hpure⟩ := exists_run_of_bind hrun
    cases hpure
    exact hus (eq_nil_of_unexpected hskipped).2
  · cases n with
    | zero => exact .pure false
    | succ n => exact .bind .unexpected fun _ => .pure true

theorem skipUntil_stable {stop : KindSet} : (skipUntil stop).Stable :=
  .bind skippedUntil_stable fun _ => .pure ()

/-- The scan for the end of a group other than a block fails at a closing brace as it does at the
end of the file: the brace is a barrier, or closes a group inside. -/
theorem Ahead.sealed_closerAhead {closer : Kind} {barriers : KindSet}
    (hcloser : closer ≠ .rightBrace) :
    Ahead.Sealed (Ahead.closerAhead closer barriers) := by
  refine Ahead.Scan.sealed_answer 0 (fun depth x y ts us halike _ => ?_) fun depth b hb => ?_
  · simp only [Ahead.closer, halike.kind]
  · have hne : (Kind.rightBrace == closer) = false := beq_eq_false_iff_ne.mpr hcloser.symm
    have hstep : (Ahead.closer closer barriers).step depth b []
        = if depth == 0 && barriers.contains .rightBrace then .inr false
          else .inl (Ahead.depthAfter depth .rightBrace) := by
      simp only [Ahead.closer, hb.kind, hne, Bool.and_false, Bool.false_eq_true, if_false]
    rw [Scan.answer, Scan.run, hstep]
    cases depth == 0 && barriers.contains .rightBrace <;> rfl

theorem skipToCloser_stable {closer : Kind} {barriers : KindSet}
    (hcloser : closer ≠ .rightBrace) :
    (skipToCloser closer barriers).Stable :=
  .ifAhead (.and (.not .isAtAny) (.any (Ahead.sealed_closerAhead hcloser))) skipUntil_stable

/-- Skipping a statement skips something. -/
theorem skipStatement_stable {boundary : Ahead → Bool} : (skipStatement boundary).Stable :=
  .of_faulty fun _ _ _ _ _ h => (eq_nil_of_unexpected h).2

/-! ## Attributes -/

/-- What taking several tokens does, for any assembly. -/
theorem Parser.run_advanceBy {σ : Type} [Assembly σ] (n : Nat) {env : Env σ} {s : State σ} :
    (advanceBy n).run env s = some ((), s.takeBy n) := by
  induction n generalizing s with
  | zero => rfl
  | succ n ih => exact ih (s := s.take none)

theorem attributeArguments_stable : attributeArguments.Stable := by
  refine .node (.bind .advance fun _ => .lookWith ?_ fun n => .bind (.advanceBy n) fun _ =>
    .require)
  intro n rounds ts us vs a hrun hus hts hvs
  refine hvs.outside .isAtAny fun hstop => ?_
  -- there is no closing parenthesis, so nothing is left for it
  change (Parser.bind (advanceBy _) _).run _ _ = _ at hrun
  rw [Parser.run] at hrun
  split at hrun
  · cases hrun
  · rename_i t hadvance
    obtain ⟨ms, rfl, hms⟩ := clean_of_run hrun hus
    rw [run_advanceBy] at hadvance
    have hahead := congrArg State.ahead (Prod.mk.inj (Option.some.inj hadvance)).2
    rw [State.takeBy_eq] at hahead
    refine hms (hahead.symm.trans ?_)
    exact (Ahead.drop_skipLength _ _ _).trans hstop

theorem attributeName_stable : attributeName.Stable := .branch .isName .advance .missing

theorem singleAttribute_stable : singleAttribute.Stable := by
  refine .node (.bind .advance fun _ => .bind attributeName_stable fun _ => ?_)
  exact .ifAhead (.and .isAtAny .adjacent) attributeArguments_stable

theorem attributeList_stable : attributeList.Stable :=
  .node (.whileAhead .isAtAny singleAttribute_stable)

theorem attributes_stable : attributes.Stable := .ifAt attributeList_stable

/-! ## Looks at types -/

namespace Ahead.Agrees

variable {P : Ahead → Prop}

/-- The words `some` and `any` are told by their text and by what is behind them. -/
theorem isSomeOrAny : Agrees P Ahead.isSomeOrAny := by
  have htype : Sealed fun ts => ts.isIn typeFirst && !ts.atLineStart :=
    (isIn typeFirst rfl).and (.not (atLineStart fun ts h => ne_nil_of_isIn (by decide) h.2))
  have hsame : Ahead.isSomeOrAny = fun ts => (ts.isWord "some" || ts.isWord "any")
      && (fun ts : Ahead => ts.isIn typeFirst && !ts.atLineStart) ts.tail := by
    funext ts
    exact Bool.and_assoc _ _ _
  rw [hsame]
  exact (isWord.or isWord).and htype.tail

theorem isComposition : Agrees P Ahead.isComposition :=
  (isAt _ rfl).and (isSpelled fun _ h => ne_nil_of_isAt (by decide) h.2)

theorem isAdjacentAngle : Agrees P Ahead.isAdjacentAngle := isOperatorFrom.and adjacent

theorem isEffect : Agrees P Ahead.isEffect := (isWord.or (isAt _ rfl)).or (isAt _ rfl)

/-- A suffix of a type is an operator that touches the type. -/
theorem optionalSuffix? : Agrees P Ahead.optionalSuffix? := by
  have hne : ∀ ts : Ahead, (P ts ∧ (ts.kind.isOperator && ts.adjacent) = true) → ts ≠ [] :=
    fun ts h => ne_nil_of_isOperator (Bool.and_eq_true _ _ |>.mp h.2).1
  have hmarks : Agrees P fun ts =>
      ts.kind.isOperator && ts.adjacent && ts.text.all (fun c => c == '?' || c == '!') :=
    .and (.and isOperatorKind adjacent) ((text hne).map fun cs => cs.all fun c => c == '?' ||
      c == '!')
  refine .ite hmarks (fun ts us hb h => ?_) (.const none)
  have htext : ts.text = us.text :=
    text hne hb ⟨h.1, (Bool.and_eq_true _ _ |>.mp h.2).1⟩
  rw [htext]

end Ahead.Agrees

/-! ## Types -/

theorem type_stable : type.Stable := .visit _

theorem takeHead_stable {head : Kind} {hh : head.isSolid} : (takeHead head hh).Stable := by
  have hmarks : Ahead.Blind fun ts => ts.text.tail.all fun c => c == '?' || c == '!' :=
    (Ahead.Agrees.text fun _ => id).map fun cs => cs.tail.all fun c => c == '?' || c == '!'
  refine .look hmarks fun marks => ?_
  refine .bind (.splitHead fun k hk => ?_) fun _ => .advanceAs
  split at hk
  · cases hk
    rfl
  · cases hk

theorem genericArgumentClause_stable : genericArgumentClause.Stable := by
  refine .node (.bind takeHead_stable fun _ => .bind (.commaList (.const _) type_stable)
    fun _ => ?_)
  exact .branch .isOperatorFrom takeHead_stable .missing

theorem genericArguments_stable : genericArguments.Stable :=
  .ifAhead .isAdjacentAngle genericArgumentClause_stable

theorem namedType_stable : namedType.Stable :=
  .node (.bind .advance fun _ => genericArguments_stable)

theorem memberTypes_stable : memberTypes.Stable := by
  refine .whileAhead (.and .isAtAny (Ahead.Sealed.tail .isName)) (.enclose ?_)
  exact .bind .advance fun _ => .bind .advance fun _ => genericArguments_stable

theorem optionalSuffixes_stable : optionalSuffixes.Stable := by
  refine .repeatWhile (.look .optionalSuffix? fun suffix => ?_)
  cases suffix with
  | none => exact .pure false
  | some kind =>
    exact .bind (.splitHead nofun) fun _ => .bind (.enclose .advance) fun _ => .pure true

theorem collectionType_stable : collectionType.Stable := by
  refine .nodeBy (.bind .advance fun _ => .bind type_stable fun _ =>
    .bind .eat fun dictionary => ?_)
  refine .bind (.onlyIf type_stable) fun _ => .bind (skipToCloser_stable (by decide)) fun _ => ?_
  exact .bind .require fun _ => .pure _

theorem effect_stable : effect.Stable :=
  .bind .eatWord fun _ => .ite (.pure true) (.bind .eat fun _ => .ite (.pure true) .eat)

theorem effectSpecifiers_stable : effectSpecifiers.Stable :=
  .ifAhead .isEffect (.node (.repeatWhile effect_stable))

theorem tupleTypeLabels_stable : tupleTypeLabels.Stable :=
  .branch .isLabel (.advanceBy 2)
    (.ifAhead (.and .isName (Ahead.Sealed.tail .isLabel)) (.advanceBy 3))

theorem tupleOrFunctionType_stable : tupleOrFunctionType.Stable := by
  refine .nodeBy (.bind .advance fun _ => .bind (.unlessAt (.commaList (.or .isAtAny .isAtAny) ?_))
    fun _ => ?_)
  · exact .bind tupleTypeLabels_stable fun _ => .bind type_stable fun _ =>
      .ifAhead .isOperator .advance
  · refine .bind (skipToCloser_stable (by decide)) fun _ => .bind .require fun _ =>
      .branch (.or .isEffect .isAtAny) ?_ (.pure _)
    exact .bind effectSpecifiers_stable fun _ => .bind .require fun _ =>
      .bind type_stable fun _ => .pure _

theorem someOrAny_stable : someOrAny.Stable := .branch .isWord .advanceAs .advanceAs

theorem plainTypeRule_stable : plainTypeRule.Stable := by
  refine .branch (.or .isAtAny .isAtAny) (.node ?_) (.branch .isSomeOrAny (.node ?_) ?_)
  · exact .bind attributes_stable fun _ => .bind .skip fun _ => .visit _
  · exact .bind someOrAny_stable fun _ => .visit _
  refine .branch (.or .isAtAny .isAtAny) ?_ (.branch .isAtAny ?_ (.branch .isAtAny ?_ .placeholder))
  · exact .bind namedType_stable fun _ => .bind memberTypes_stable fun _ => optionalSuffixes_stable
  · exact .bind collectionType_stable fun _ => optionalSuffixes_stable
  · exact .bind tupleOrFunctionType_stable fun _ => optionalSuffixes_stable

theorem typeRule_stable : typeRule.Stable := by
  refine .bind (.visit _) fun _ => .ifAhead .isComposition (.enclose ?_)
  exact .whileAhead .isComposition (.bind .advance fun _ => .visit _)

theorem typeClause_stable : typeClause.Stable := .node (.bind .require fun _ => type_stable)

theorem returnClause_stable : returnClause.Stable := .node (.bind .require fun _ => type_stable)

end SwiftTree.Grammar
