import SwiftTree.Grammar.Closure
import SwiftTree.Proofs.Progress.Types

/-!
# Patterns, declarations and closures move on

There is one lemma for each rule, in the order of the grammar. Declarations are entered where a look
past attributes and modifiers has shown a keyword. So there is an attribute, a modifier or the
keyword to be taken, although none of them has to be there by itself.
-/

namespace SwiftTree.Grammar

open Grammar.Parser

variable {test : Ahead → Prop} {rank : Nat}

theorem Ahead.ne_nil_of_kind_eq {k : Kind} {ts : Ahead} (hk : k ≠ .endOfFile) (h : ts.kind = k) :
    ts ≠ [] := by
  rintro rfl
  exact hk h.symm

theorem Ahead.ne_nil_of_isName {ts : Ahead} (h : ts.isName) : ts ≠ [] := by
  rintro rfl
  exact absurd h (by decide)

/-! ## Patterns -/

theorem expr_moves {mode : Mode} {n : Nat} (hr : 5 < rank) (hn : n ≤ 1)
    (h : ∀ ts, test ts → 0 < n → ts.startsExpr) : (expr mode).Moves test rank fun _ => n :=
  .visit (fun _ _ => hr) hn fun ts hts hpos => Ahead.startsOperand_of_startsExpr (h ts hts hpos)

theorem expr_steady {mode : Mode} (hr : 5 < rank) : (expr mode).Steady test rank :=
  .visit_steady fun _ _ => hr

theorem tokenNode_takes {kind : Kind} {hk : kind.isConstruct} (h : ∀ ts, test ts → ts ≠ []) :
    (tokenNode kind hk).Takes test rank := .node (.advance_takes h)

theorem label_steady : label.Steady test rank := .ifAhead (.advanceBy 2)

theorem tuplePattern_takes (h : ∀ ts, test ts → ts ≠ []) : tuplePattern.Takes test rank := by
  refine .node (.andThen (.advance_takes h) fun _ => .seq (.ifAhead ?_) fun _ => .require)
  exact .seq (.commaList (.seq label_steady fun _ => .visitAny)) fun _ => skipToCloser_steady

/-- A pattern takes something where patterns start, and is missing elsewhere. -/
theorem patternRule_moves {n : Nat} (hn : n ≤ 1)
    (h : ∀ ts, test ts → 0 < n → ts.isIn Ahead.patternFirst) :
    patternRule.Moves test rank fun _ => n := by
  have ne {k : Kind} (hk : k ≠ .endOfFile) (ts : Ahead) (hts : test ts ∧ ts.kind = k) : ts ≠ [] :=
    Ahead.ne_nil_of_kind_eq hk hts.2
  refine .look fun kind => ?_
  split
  · exact .upTo (tokenNode_takes (ne (by decide))) hn
  · exact .upTo (tokenNode_takes (ne (by decide))) hn
  · exact .upTo (tokenNode_takes (ne (by decide))) hn
  · exact .upTo (tuplePattern_takes (ne (by decide))) hn
  · exact .upTo (.node (.andThen (.advance_takes (ne (by decide))) fun _ => .visitAny)) hn
  · exact .upTo (.node (.andThen (.advance_takes (ne (by decide))) fun _ => .visitAny)) hn
  rcases Nat.eq_zero_or_pos n with rfl | hpos
  · exact .placeholder
  · refine .never fun ts hts => ?_
    have hfirst := h ts hts.1 hpos
    simp only [Ahead.isIn, Ahead.patternFirst, hts.2, KindSet.contains_ofList, List.contains_eq_mem,
      List.mem_cons, List.not_mem_nil] at hfirst
    clear h ne
    grind

theorem valueBinding_takes {mode : Mode} (h : ∀ ts, test ts → ts ≠ []) :
    (valueBinding mode).Takes test rank :=
  .node (.andThen (.advance_takes h) fun _ => .visitAny)

/-- The pattern of a case takes something where a pattern or an expression starts. -/
theorem casePatternRule_moves {mode : Mode} {n : Nat} (hr : 5 < rank) (hn : n ≤ 1)
    (h : ∀ ts, test ts → 0 < n → (Goal.casePattern mode).takes ts) :
    (casePatternRule mode).Moves test rank fun _ => n := by
  have ne {k : Kind} (hk : k ≠ .endOfFile) {ts : Ahead} (hts : ts.isAt k) : ts ≠ [] :=
    Ahead.ne_nil_of_isAt hk hts
  refine .branch (.upTo (valueBinding_takes fun ts hts => ?_) hn) ?_
  · exact (Bool.or_eq_true _ _ |>.mp hts.2).elim (ne (by decide)) (ne (by decide))
  refine .branch (.upTo (.node (.andThen (.advance_takes fun ts hts => ?_) fun _ => ?_)) hn) ?_
  · exact ne (by decide) hts.2
  · exact type_steady (by decide)
  refine .branch (.upTo (tokenNode_takes fun ts hts => ?_) hn) ?_
  · exact ne (by decide) (Bool.and_eq_true _ _ |>.mp hts.2).1
  refine .branch (.upTo (tokenNode_takes fun ts hts => ?_) hn) (.node ?_)
  · simp only [Ahead.isLone, Bool.and_eq_true] at hts
    exact ne (by decide) hts.2.2.1
  · refine .visit (fun _ _ => hr) hn fun ts hts hpos => ?_
    have htakes := h ts hts.1.1.1.1 hpos
    rwa [Goal.takes, hts.1.1.2, Bool.or_false] at htakes

/-! ## Declarations -/

theorem codeBlock_steady : codeBlock.Steady test rank := by
  refine .node (.eatThen (by decide) ?_ ?_)
  · exact .seq .visitAny fun _ => .require
  · exact .seq .missing fun _ => .seq .emptyNode fun _ => .missing

/-- A value is read behind its equals sign, which is taken. -/
theorem initializer_takes {mode : Mode} (h : ∀ ts, test ts → ts.isAt .equal) :
    (initializer mode).Takes test rank :=
  .node (.andThen (.require_takes h) fun _ => expr_steady (by decide))

theorem parameterNames_steady {typed : Bool} : (parameterNames typed).Steady test rank := by
  refine .branch (.seq .advance fun _ => .ifAhead .advance) ?_
  cases typed
  · exact .pure ()
  · exact .missing

theorem parameterType_steady {typed : Bool} (hr : 2 < rank) :
    (parameterType typed).Steady test rank := .ifAhead (.seq .require fun _ => type_steady hr)

theorem parameter_steady {typed : Bool} (hr : 2 < rank) : (parameter typed).Steady test rank := by
  refine .seq attributes_steady fun _ => .seq parameterNames_steady fun _ => ?_
  refine .seq (parameterType_steady hr) fun _ => .seq (.ifAhead .advance) fun _ => .ifAhead ?_
  refine .node (.behind (.advance_takes fun _ h => ?_) fun _ => ?_)
  · exact Ahead.ne_nil_of_isAt (by decide) h.2
  · exact expr_steady (by decide)

theorem parameterClause_steady {typed : Bool} : (parameterClause typed).Steady test rank := by
  refine .node (.eatThen (by decide) (.seq (.ifAhead ?_) fun _ => .require) ?_)
  · exact .seq (.commaList (parameter_steady (by decide))) fun _ => skipToCloser_steady
  · exact .seq .missing fun _ => .missing

theorem patternBinding_steady (hr : 2 < rank) : patternBinding.Steady test rank := by
  refine .seq (.visit_steady fun _ _ => Nat.zero_lt_of_lt hr) fun _ => ?_
  refine .seq (.ifAhead (typeClause_steady hr)) fun _ => ?_
  exact .seq (.ifAhead (initializer_takes fun _ h => h.2).steady) fun _ => .ifAhead codeBlock_steady

theorem variableKeyword_steady : variableKeyword.Steady test rank :=
  .eatThen (by decide) (.pure ()) .require

theorem variableKeyword_takes (h : ∀ ts, test ts → ts.isAt .letKw ∨ ts.isAt .varKw) :
    variableKeyword.Takes test rank := by
  refine .eatThen (by decide) (.pure ()) (.require_takes fun ts hts => ?_)
  exact (h ts hts.1).resolve_left (ne_true_of_eq_false hts.2)

theorem bindings_steady : Parser.Steady test Goal.top
    (node .patternBindingList (commaList .patternBinding (fun _ => false) patternBinding)) :=
  .node (.commaList (patternBinding_steady (by decide)))

theorem variableParts_steady : variableParts.Steady test Goal.top :=
  .seq variableKeyword_steady fun _ => bindings_steady

theorem variableParts_takes (h : ∀ ts, test ts → ts.isAt .letKw ∨ ts.isAt .varKw) :
    variableParts.Takes test rank := .andThen (variableKeyword_takes h) fun _ => bindings_steady

theorem functionName_steady : functionName.Steady test rank := .branch .advance .missing

theorem functionParts_takes (h : ∀ ts, test ts → ts ≠ []) : functionParts.Takes test rank := by
  refine .andThen (.advance_takes h) fun _ => .seq functionName_steady fun _ => ?_
  refine .seq (.node (.seq parameterClause_steady fun _ => ?_)) fun _ => .ifAhead codeBlock_steady
  exact .seq effectSpecifiers_steady fun _ => .ifAhead (returnClause_steady (by decide))

theorem modifierWord_takes (h : ∀ ts, test ts → ts ≠ []) : modifierWord.Takes test rank := by
  refine .eatWordThen (.pure ()) (.eatWordThen (.pure ()) (.eatWordThen (.pure ()) ?_))
  exact .advance_takes fun ts hts => h ts hts.1.1.1

theorem modifier_takes (h : ∀ ts, test ts → ts ≠ []) : modifier.Takes test rank := by
  refine .node (.look fun length => .andThen (modifierWord_takes fun ts hts => h ts hts.1) ?_)
  exact fun _ => .advanceBy _

theorem Ahead.ne_nil_of_modifierLength? {ts : Ahead} (h : ts.modifierLength?.isSome) :
    ts ≠ [] := by
  rintro rfl
  exact absurd h (by decide)

/-- Where there is no sign of an attribute, there are none to look past. -/
theorem Ahead.afterAttributes_eq {ts : Ahead} (h : ts.isAt .atSign = false) :
    ts.afterAttributes = ts := by
  cases ts with
  | nil => rw [afterAttributes]
  | cons x ts =>
    rw [afterAttributes, if_neg]
    exact ne_true_of_eq_false h

/-- Where no modifier stands, there are none to look past. -/
theorem Ahead.afterModifiers_eq {ts : Ahead} (h : ts.modifierLength?.isSome = false) :
    ts.afterModifiers = ts := by
  cases ts with
  | nil => rw [afterModifiers]
  | cons x ts =>
    rw [Option.isSome_eq_false_iff, Option.isNone_iff_eq_none] at h
    rw [afterModifiers, h]

/-- Without attributes and modifiers, a declaration starts with its keyword. -/
theorem Ahead.startsDecl_iff {ts : Ahead} (hat : ts.isAt .atSign = false)
    (hm : ts.modifierLength?.isSome = false) :
    ts.startsDecl ↔ ts.isAt .letKw ∨ ts.isAt .varKw ∨ ts.isAt .funcKw := by
  rw [startsDecl, afterAttributes_eq hat, afterModifiers_eq hm, Bool.or_eq_true, Bool.or_eq_true,
    or_assoc]

/-- A declaration starts with its keyword, if nothing stands before this. -/
theorem Ahead.startsDecl_of_keyword {ts : Ahead}
    (h : ts.kind = .letKw ∨ ts.kind = .varKw ∨ ts.kind = .funcKw) : ts.startsDecl := by
  have hne {k : Kind} (hk : k ≠ .letKw ∧ k ≠ .varKw ∧ k ≠ .funcKw) : ts.isAt k = false := by
    refine beq_eq_false_iff_ne.mpr fun he => ?_
    rw [he] at h
    exact h.elim hk.1 fun h => h.elim hk.2.1 hk.2.2
  have hm : ts.modifierLength?.isSome = false := by
    rw [modifierLength?, hne (by decide), Bool.false_and]
    rfl
  rw [startsDecl_iff (hne (by decide)) hm]
  simpa only [isAt, beq_iff_eq] using h

theorem declParts_steady : declParts.Steady test Goal.top := by
  refine .branch (.seq (functionParts_takes ?_).steady fun _ => .pure _)
    (.seq variableParts_steady fun _ => .pure _)
  exact fun _ h => Ahead.ne_nil_of_isAt (by decide) h.2

/-- The parts of a declaration take its keyword. -/
theorem declParts_takes (h : ∀ ts, test ts → ts.isAt .letKw ∨ ts.isAt .varKw ∨ ts.isAt .funcKw) :
    declParts.Takes test rank := by
  refine .branch (.andThen (functionParts_takes ?_) fun _ => .pure _)
    (.andThen (variableParts_takes fun ts hts => ?_) fun _ => .pure _)
  · exact fun _ h => Ahead.ne_nil_of_isAt (by decide) h.2
  · have hne := ne_true_of_eq_false hts.2
    exact (h ts hts.1).imp_right fun h => h.resolve_right hne

/-- A declaration takes an attribute, a modifier or its keyword, whichever is first. -/
theorem decl_takes (h : ∀ ts, test ts → ts.startsDecl) : decl.Takes test rank := by
  refine .nodeBy (.ifAheadThen (attributeList_takes fun _ h => h.2) ?_ ?_)
  · refine .whileThen (modifier_takes fun _ => Ahead.ne_nil_of_modifierLength?) ?_ ?_
    · refine .andThen (declParts_takes fun ts hts => ?_) fun _ => .pure _
      exact (Ahead.startsDecl_iff hts.1.2 hts.2).mp (h ts hts.1.1)
    · exact .seq declParts_steady fun _ => .pure _
  · refine .seq (.whileAhead (modifier_takes fun _ => Ahead.ne_nil_of_modifierLength?)) fun _ => ?_
    exact .seq declParts_steady fun _ => .pure _

/-! ## Closures and arguments -/

theorem captureSpecifier_steady : captureSpecifier.Steady test rank := by
  refine .eatWordThen (.pure ()) (.seq (Parser.Moves.eatWord).steady fun _ => .ifAhead ?_)
  exact .seq .advance fun _ => .seq .skip fun _ => .require

theorem captureClause_takes (h : ∀ ts, test ts → ts ≠ []) : captureClause.Takes test rank := by
  refine .node (.andThen (.advance_takes h) fun _ => .seq (.ifAhead ?_) fun _ => .require)
  refine .seq (.commaList ?_) fun _ => skipToCloser_steady
  refine .seq (.ifAhead captureSpecifier_steady) fun _ => .seq (.ifAhead (.advanceBy 2)) fun _ => ?_
  exact expr_steady (by decide)

theorem closureParameters_steady : closureParameters.Steady test rank :=
  .branch parameterClause_steady (.ifAhead (.node (.commaList .advance)))

theorem closureSignature_steady (hr : 2 < rank) : closureSignature.Steady test rank := by
  refine .node (.seq attributes_steady fun _ => .seq (.ifAhead ?_) fun _ => ?_)
  · exact (captureClause_takes fun _ h => Ahead.ne_nil_of_isAt (by decide) h.2).steady
  refine .seq closureParameters_steady fun _ => .seq effectSpecifiers_steady fun _ => ?_
  exact .seq (.ifAhead (returnClause_steady hr)) fun _ => .require

theorem closureParts_steady (hr : 8 < rank) : closureParts.Steady test rank := by
  refine .seq (.ifAhead (closureSignature_steady (Nat.lt_trans (by decide) hr))) fun _ => ?_
  exact .seq (.visit_steady fun _ _ => hr) fun _ => .require

theorem closureRule_steady (hr : 8 < rank) : closureRule.Steady test rank :=
  .node (.seq .require fun _ => closureParts_steady hr)

theorem closureRule_takes (h : ∀ ts, test ts → ts.isAt .leftBrace) :
    closureRule.Takes test rank :=
  .node (.andThen (.require_takes h) fun _ => closureParts_steady (by decide))

theorem argumentList_steady {closer : Kind} {barriers : KindSet} {mode : Mode} (hr : 5 < rank) :
    (argumentList closer barriers mode).Steady test rank := by
  refine .node (.ifAhead (.seq (.commaList ?_) fun _ => skipToCloser_steady))
  exact .seq label_steady fun _ => expr_steady hr

/-- A trailing closure takes its brace. -/
theorem trailingClosures_takes (hr : 0 < rank) (h : ∀ ts, test ts → ts.isAt .leftBrace) :
    trailingClosures.Takes test rank := by
  refine .andThen (.visit_takes (fun ts hts => ?_) h) fun _ => .whileAhead (.node ?_)
  · rwa [Goal.rank, if_pos (h ts hts)]
  · refine .andThen (.advanceBy_takes fun ts hts => ?_) fun _ => .visitAny
    simp only [Bool.and_eq_true, Ahead.isLabel] at hts
    exact Ahead.ne_nil_of_isName hts.1.1.1

theorem optionalTrailingClosures_steady {mode : Mode} (hr : 0 < rank) :
    (optionalTrailingClosures mode).Steady test rank := by
  refine .ifAhead (trailingClosures_takes hr fun ts hts => ?_).steady
  simp only [Bool.and_eq_true] at hts
  exact hts.2.1.1

end SwiftTree.Grammar
