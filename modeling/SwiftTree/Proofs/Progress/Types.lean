import SwiftTree.Grammar.Types
import SwiftTree.Proofs.Progress.Moves

/-!
# Recovery, attributes and types move on

There is one lemma for each rule, in the order of the grammar. A rule takes something if a look has
shown its first token, and moves on in any case. The place in the order of goals matters where a
rule calls a goal before it has taken something.
-/

namespace SwiftTree.Grammar

open Grammar.Parser

variable {test : Ahead → Prop} {rank : Nat}

/-! ## Recovery -/

theorem skippedUntil_steady {stop : KindSet} : (skippedUntil stop).Steady test rank := by
  refine .look fun n => ?_
  cases n with
  | zero => exact .pure false
  | succ n => exact .seq (.unexpected n) fun _ => .pure true

theorem skipUntil_steady {stop : KindSet} : (skipUntil stop).Steady test rank :=
  .seq skippedUntil_steady fun _ => .pure ()

theorem skipToCloser_steady {closer : Kind} {barriers : KindSet} :
    (skipToCloser closer barriers).Steady test rank := .ifAhead skipUntil_steady

/-- Skipping a statement skips at least one token. -/
theorem skipStatement_takes {boundary : Ahead → Bool} (h : ∀ ts, test ts → ts ≠ []) :
    (skipStatement boundary).Takes test rank :=
  .look fun n => .unexpected_takes n fun ts hts => h ts hts.1

/-! ## Attributes -/

theorem attributeArguments_steady : attributeArguments.Steady test rank :=
  .node (.seq .advance fun _ => .look fun n => .seq (.advanceBy n) fun _ => .require)

theorem attributeName_steady : attributeName.Steady test rank := .branch .advance .missing

theorem singleAttribute_takes (h : ∀ ts, test ts → ts ≠ []) :
    singleAttribute.Takes test rank := by
  refine .node (.andThen (.advance_takes h) fun _ => ?_)
  exact .seq attributeName_steady fun _ => .ifAhead attributeArguments_steady

theorem attributeList_takes (h : ∀ ts, test ts → ts.isAt .atSign) :
    attributeList.Takes test rank := by
  refine .node (.whileAhead_takes (singleAttribute_takes ?_) h)
  exact fun ts => Ahead.ne_nil_of_isAt (by decide)

theorem attributes_steady : attributes.Steady test rank :=
  .ifAhead (attributeList_takes fun _ h => h.2).steady

/-! ## Types -/

theorem Ahead.ne_nil_of_isAdjacentAngle {ts : Ahead} (h : ts.isAdjacentAngle) : ts ≠ [] := by
  simp only [isAdjacentAngle, Bool.and_eq_true] at h
  exact ne_nil_of_isOperatorFrom h.1

theorem Ahead.ne_nil_of_isIn {ks : KindSet} {ts : Ahead} (hk : ¬ks.contains .endOfFile)
    (h : ts.isIn ks) : ts ≠ [] := by
  rintro rfl
  exact hk h

/-- Where a type is asked for there may be none. -/
theorem type_steady (hr : 2 < rank) : type.Steady test rank := .visit_steady fun _ _ => hr

/-- A step that cuts a token in two and takes the first part takes something. -/
theorem Ahead.tail_splitHead {head : SolidKind} {rest : Option SolidKind} {ts : Ahead}
    (h : ts ≠ []) : ts.Onward (ts.splitHead head rest).tail ∧
      left (ts.splitHead head rest).tail + 1 ≤ ts.left :=
  ⟨.inr (left_tail_splitHead_lt h), left_tail_splitHead_lt h⟩

theorem takeHead_takes {head : Kind} {hh : head.isSolid} (h : ∀ ts, test ts → ts ≠ []) :
    (takeHead head hh).Takes test rank :=
  .look fun _ _ _ ts hts _ => Ahead.tail_splitHead (h ts hts.1)

theorem genericArgumentClause_takes (h : ∀ ts, test ts → ts ≠ []) :
    genericArgumentClause.Takes test rank := by
  refine .node (.andThen (takeHead_takes h) fun _ => ?_)
  refine .seq (.commaList (type_steady (by decide))) fun _ => ?_
  exact .branch (takeHead_takes fun ts h => Ahead.ne_nil_of_isOperatorFrom h.2).steady .missing

theorem genericArguments_steady : genericArguments.Steady test rank :=
  .ifAhead (genericArgumentClause_takes fun _ h => Ahead.ne_nil_of_isAdjacentAngle h.2).steady

theorem namedType_takes (h : ∀ ts, test ts → ts ≠ []) : namedType.Takes test rank :=
  .node (.andThen (.advance_takes h) fun _ => genericArguments_steady)

theorem namedType_steady : namedType.Steady test rank :=
  .node (.seq .advance fun _ => genericArguments_steady)

theorem memberTypes_steady : memberTypes.Steady test rank := by
  refine .whileAhead (.enclose (.andThen (.advance_takes ?_) fun _ => ?_))
  · intro ts h
    rw [Bool.and_eq_true] at h
    exact Ahead.ne_nil_of_isAt (by decide) h.1
  · exact .seq .advance fun _ => genericArguments_steady

theorem Ahead.ne_nil_of_optionalSuffix? {ts : Ahead} {kind : Construct}
    (h : ts.optionalSuffix? = some kind) : ts ≠ [] := by
  rintro rfl
  cases h

/-- Each suffix of a type takes a token. -/
theorem optionalSuffixes_steady : optionalSuffixes.Steady test rank := by
  refine .repeatWhile (.look fun suffix => ?_)
  cases suffix with
  | none => exact .answer rfl
  | some kind =>
    exact fun _ _ ts hts _ => Ahead.tail_splitHead (Ahead.ne_nil_of_optionalSuffix? hts.2)

theorem collectionType_takes (h : ∀ ts, test ts → ts ≠ []) : collectionType.Takes test rank := by
  refine .nodeBy (.andThen (.advance_takes h) fun _ => ?_)
  refine .seq (type_steady (by decide)) fun _ => .seq (Parser.Moves.eat (by decide)).steady
    fun dictionary => ?_
  refine .seq (.onlyIf (type_steady (by decide))) fun _ => ?_
  exact .seq skipToCloser_steady fun _ => .seq .require fun _ => .pure _

theorem Ahead.ne_nil_of_isSomeOrAny {ts : Ahead} (h : ts.isSomeOrAny) : ts ≠ [] := by
  simp only [isSomeOrAny, Bool.and_eq_true, Bool.or_eq_true] at h
  exact h.1.1.elim ne_nil_of_isWord ne_nil_of_isWord

/-- The words `some` and `any` start a type. -/
theorem Ahead.isIn_typeFirst_of_isSomeOrAny {ts : Ahead} (h : ts.isSomeOrAny) :
    ts.isIn typeFirst := by
  simp only [isSomeOrAny, isWord, Bool.and_eq_true, Bool.or_eq_true] at h
  have hk : ts.isAt .identifier := h.1.1.elim And.left And.left
  rw [isIn, beq_iff_eq.mp hk]
  decide

theorem effect_takesIf : effect.TakesIf test rank :=
  .eatWordThen (.answer rfl) (.eatThen (by decide) (.answer rfl) (.eat (by decide)))

/-- Where an effect stands it is taken. -/
theorem effect_takes (h : ∀ ts, test ts → ts.isEffect) : effect.Takes test rank := by
  refine .eatWordThen (.answer rfl) (.eatThen (by decide) (.answer rfl) (.eat_takes (by decide) ?_))
  rintro ts ⟨⟨hts, hasync⟩, hthrows⟩
  have hor := h ts hts
  rw [Ahead.isEffect, Bool.or_eq_true, Bool.or_eq_true, hthrows] at hor
  exact hor.resolve_left fun hor => hor.elim (ne_true_of_eq_false hasync) Bool.false_ne_true

theorem effectSpecifiers_steady : effectSpecifiers.Steady test rank :=
  .ifAhead (.node (.repeatWhile effect_takesIf))

theorem tupleTypeLabels_steady : tupleTypeLabels.Steady test rank :=
  .branch (.advanceBy 2) (.ifAhead (.advanceBy 3))

theorem tupleOrFunctionType_takes (h : ∀ ts, test ts → ts ≠ []) :
    tupleOrFunctionType.Takes test rank := by
  refine .nodeBy (.andThen (.advance_takes h) fun _ => .seq ?_ fun _ => ?_)
  · refine .ifAhead (.commaList ?_)
    exact .seq tupleTypeLabels_steady fun _ => .seq (type_steady (by decide)) fun _ =>
      .ifAhead .advance
  · refine .seq skipToCloser_steady fun _ => .seq .require fun _ => .branch ?_ (.pure _)
    exact .seq effectSpecifiers_steady fun _ => .seq .require fun _ =>
      .seq (type_steady (by decide)) fun _ => .pure _

theorem someOrAny_takes (h : ∀ ts, test ts → ts ≠ []) : someOrAny.Takes test rank :=
  .branch (.advanceAs_takes fun ts hts => h ts hts.1) (.advanceAs_takes fun ts hts => h ts hts.1)

/-- `inout` and attributes are taken before a type. -/
theorem attributedType_takes (h : ∀ ts, test ts → ts.isAt .atSign ∨ ts.isAt .inoutKw) :
    Parser.Takes test rank (node .attributedType do
      attributes
      skip .inoutKw
      visit .plainType) := by
  refine .node (.ifAheadThen (attributeList_takes fun _ h => h.2) ?_
    (.seq .skip fun _ => .visitAny))
  refine .ifAheadThen (.advance_takes fun _ h => Ahead.ne_nil_of_isAt (by decide) h.2) ?_ .visitAny
  exact .never fun ts ⟨⟨hts, hat⟩, hinout⟩ =>
    (h ts hts).elim (ne_true_of_eq_false hat) (ne_true_of_eq_false hinout)

/-- A type takes something where types start, and nothing elsewhere. -/
theorem plainTypeRule_moves {n : Nat} (hn : n ≤ 1)
    (h : ∀ ts, test ts → 0 < n → ts.isIn Ahead.typeFirst) :
    plainTypeRule.Moves test rank fun _ => n := by
  refine .branch ((attributedType_takes fun ts hts => Bool.or_eq_true _ _ |>.mp hts.2).upTo hn) ?_
  refine .branch (.upTo (.node (.andThen (someOrAny_takes ?_) fun _ => .visitAny)) hn) ?_
  · exact fun ts hts => Ahead.ne_nil_of_isSomeOrAny hts.2
  refine .branch (.upTo (.andThen (namedType_takes ?_) fun _ => ?_) hn) ?_
  · intro ts hts
    rcases Bool.or_eq_true _ _ |>.mp hts.2 with hk | hk
    · exact Ahead.ne_nil_of_isAt (by decide) hk
    · exact Ahead.ne_nil_of_isAt (by decide) hk
  · exact .seq memberTypes_steady fun _ => optionalSuffixes_steady
  refine .branch (.upTo (.andThen (collectionType_takes ?_) fun _ => ?_) hn) ?_
  · exact fun ts hts => Ahead.ne_nil_of_isAt (by decide) hts.2
  · exact optionalSuffixes_steady
  refine .branch (.upTo (.andThen (tupleOrFunctionType_takes ?_) fun _ => ?_) hn) ?_
  · exact fun ts hts => Ahead.ne_nil_of_isAt (by decide) hts.2
  · exact optionalSuffixes_steady
  rcases Nat.eq_zero_or_pos n with rfl | hpos
  · exact .placeholder
  · refine .never fun ts hts => ?_
    have hfirst := h ts hts.1.1.1.1.1 hpos
    simp only [Ahead.isIn, Ahead.typeFirst, KindSet.contains_ofList, Ahead.isAt] at hfirst hts
    grind

/-- A type that starts with the operator of a composition takes at least that. -/
theorem typeRule_takes_composition (hr : 1 < rank) :
    typeRule.Takes (fun ts => ts.isComposition = true) rank := by
  have hmore {rank : Nat} : Parser.Takes (fun ts => ts.isComposition = true) rank (do
      advance
      visit .plainType) := by
    refine .andThen (.advance_takes fun ts hts => ?_) fun _ => .visitAny
    rw [Ahead.isComposition, Bool.and_eq_true] at hts
    exact Ahead.ne_nil_of_isAt (by decide) hts.1
  refine .thenTakes (.visit_steady fun _ _ => hr) (fun _ => .branch ?_ (.never ?_)) fun _ => ?_
  · exact .enclose (.whileAhead_takes hmore fun _ h => h.1)
  · exact fun ts h => ne_true_of_eq_false h.2 h.1
  · exact .ifAhead (.enclose (.whileAhead hmore))

/-- A type takes something where one starts, attributes or the first token of the type. -/
theorem typeRule_moves {n : Nat} (hr : 1 < rank) (hn : n ≤ 1)
    (h : ∀ ts, test ts → 0 < n → Goal.type.takes ts) :
    typeRule.Moves test rank fun _ => n := by
  intro start r ts hts hallow
  cases hcomposition : ts.isComposition with
  | true => exact (typeRule_takes_composition hr).upTo hn start r ts hcomposition hallow
  | false =>
    have hfirst : typeRule.Moves (fun us => us = ts) rank fun _ => n := by
      refine .thenSteady (.visit (fun _ _ => hr) hn ?_) fun _ => ?_
      · rintro us rfl hpos
        have htakes := h us hts hpos
        rwa [Goal.takes, hcomposition, Bool.or_false] at htakes
      · refine .ifAhead (.enclose (.whileAhead (.andThen (.advance_takes ?_) fun _ => .visitAny)))
        intro us hus
        rw [Ahead.isComposition, Bool.and_eq_true] at hus
        exact Ahead.ne_nil_of_isAt (by decide) hus.1
    exact hfirst start r ts rfl hallow

theorem typeClause_steady (hr : 2 < rank) : typeClause.Steady test rank :=
  .node (.seq .require fun _ => type_steady hr)

theorem returnClause_steady (hr : 2 < rank) : returnClause.Steady test rank :=
  .node (.seq .require fun _ => type_steady hr)

end SwiftTree.Grammar
