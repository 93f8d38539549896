import SwiftTree.Proofs.Placement.Lists
import SwiftTree.Proofs.Stability.Types

/-!
# Ordinary nodes

One lemma for each rule, in the order of the grammar, up to the arguments of calls: its nodes stand
as demanded. Of most of them nothing is demanded; skipped text and blocks are the exceptions.
-/

namespace SwiftTree

open Grammar

open Green (Placed)

namespace Green

variable {kind : Kind} {cs : List Green} {next : Outlook}

/-- Of unexpected text it is only demanded where it stops. -/
theorem placed_unexpected (h : next.LeavesLiterals) : Placed .unexpected cs next := by
  refine ⟨nofun, nofun, nofun, fun _ => h, nofun, nofun, listed_of_not rfl rfl _ _⟩

/-- A block takes a brace that comes next. -/
theorem placed_codeBlock (h : Braced cs next) : Placed .codeBlock cs next :=
  ⟨nofun, nofun, fun _ => h, nofun, nofun, nofun, listed_of_not rfl rfl _ _⟩

end Green

namespace Grammar

open Grammar.Parser

variable {test : Ahead → Prop} {mode : Mode}

/-! ## Recovery -/

namespace Ahead

/-- Where skipped text stops, no literal goes on, if none goes on where skipping should end. -/
theorem leavesLiterals_of_skipLength {stop : Ahead → Bool} {depth : Nat} {ts : Ahead}
    (htells : Ahead.Tells (ts.drop (skipLength stop depth ts)))
    (h : ∀ us : Ahead, us.Tells → stop us → us.sight.LeavesLiterals) :
    (Ahead.sight (ts.drop (skipLength stop depth ts))).LeavesLiterals := by
  rw [drop_skipLength] at htells ⊢
  rcases stop_outside stop depth ts with hnil | hstop
  · rw [hnil]
    exact nofun
  · exact h _ htells hstop

theorem leavesLiterals_of_isIn {stop : KindSet}
    (h : ∀ k : Kind, stop.contains k → k.isInLiteral = false)
    {us : Ahead} (hus : us.isIn stop) : us.sight.LeavesLiterals := leavesLiterals_of_kind (h _ hus)

end Ahead

/-- What is skipped stops before a token that is no part of a literal. -/
theorem skipUntil_calm {stop : KindSet} (h : ∀ k : Kind, stop.contains k → k.isInLiteral = false) :
    (skipUntil stop).Calm test := by
  refine .look fun n => ?_
  cases n with
  | zero => exact .pure trivial
  | succ n =>
    intro s hs _
    refine ⟨fun _ htells => Green.placed_unexpected ?_, trivial, .any _⟩
    rw [← hs.2] at htells ⊢
    exact Ahead.leavesLiterals_of_skipLength htells fun us _ => Ahead.leavesLiterals_of_isIn h

/-- Skipping to the end of a group stops there, or at a barrier, and neither goes on with a
literal. -/
theorem skipToCloser_calm {closer : Kind} {barriers : KindSet}
    (h : closer.isInLiteral = false) : (skipToCloser closer barriers).Calm test := by
  refine .ifAhead (skipUntil_calm fun k hk => ?_)
  rw [KindSet.contains_single, beq_iff_eq] at hk
  rwa [hk]

theorem skipToCloser_bare {closer : Kind} {barriers : KindSet} (h : closer.isInLiteral = false) :
    (skipToCloser closer barriers).Bare test fun _ => True :=
  .of_makes (skipToCloser_calm h) skipToCloser_makes (by decide +kernel)

/-- Skipping to the end of a group leaves what was seen at the start of unexpected text. -/
theorem skipToCloser_sees {closer : Kind} {barriers : KindSet} (h : closer.isInLiteral = false) :
    (skipToCloser closer barriers).Sees := by
  refine .ifAhead fun ts built hled => ?_
  have hcalm : (skipUntil (.single closer)).Calm fun _ => True := skipUntil_calm fun k hk => by
    rw [KindSet.contains_single, beq_iff_eq] at hk
    rwa [hk]
  have hskip := hcalm ⟨ts, built⟩ trivial (.any _) hled
  dsimp only at hskip ⊢
  generalize Ahead.skipLength _ 0 ts = n at hskip ⊢
  cases n with
  | zero => exact Sees.pure () ts built
  | succ n =>
    change (Grammar.unexpected n >>= fun _ => Pure.pure true).meets placing _ _ at hskip
    rw [meets_bind] at hskip
    exact meets_unexpected hskip

/-- A statement that is skipped stops before a boundary that leaves literals alone. -/
theorem skipStatement_calm {boundary : Ahead → Bool}
    (h : ∀ us : Ahead, us.Tells → boundary us → us.sight.LeavesLiterals) :
    (skipStatement boundary).Calm test := by
  refine .look fun n => ?_
  intro s hs _
  refine ⟨fun hne htells => Green.placed_unexpected ?_, trivial, .any _⟩
  obtain ⟨x, ts, hahead⟩ := List.exists_cons_of_ne_nil hne
  rw [hahead] at hs htells ⊢
  rw [← hs.2, List.drop_succ_cons] at htells ⊢
  exact Ahead.leavesLiterals_of_skipLength htells h

/-! ## Attributes -/

theorem attributeArguments_calm : attributeArguments.Calm test :=
  .node rfl (.seq .advance fun _ => .look fun n => .seq (.advanceBy n) fun _ => .require)

theorem attributes_calm : attributes.Calm test := by
  refine .ifAhead (.node rfl (.whileAhead (.node rfl (.seq .advance fun _ => .seq ?_ fun _ => ?_))))
  · exact .branch .advance .missing
  · exact .ifAhead attributeArguments_calm

/-! ## Types -/

theorem type_calm : type.Calm test := .visit

/-- The head of an operator is a token. -/
theorem takeHead_bare {head : Kind} {h : head.isSolid} :
    (takeHead head h).Bare test fun _ => True := by
  have hsplit {rest : Option SolidKind} {test : Ahead → Prop} :
      (splitHead head rest h).Bare test fun _ => True :=
    fun _ _ _ => ⟨[], rfl, trivial, List.forall_mem_nil _⟩
  exact Lays.look fun _ => Bare.seq hsplit fun _ => .advanceAs

theorem type_writes : type.Writes test := .visit rfl

theorem genericArgumentClause_calm : genericArgumentClause.Calm test := by
  refine .list rfl rfl (.behind takeHead_bare fun _ =>
    .before (.commaList (.values rfl rfl type_writes)) fun _ => ?_)
  exact .branch takeHead_bare .missing

theorem genericArguments_calm : genericArguments.Calm test := .ifAhead genericArgumentClause_calm

theorem namedType_calm : namedType.Calm test :=
  .node rfl (.seq .advance fun _ => genericArguments_calm)

theorem memberTypes_calm : memberTypes.Calm test := by
  refine .whileAhead (.enclose rfl ?_)
  exact .seq .advance fun _ => .seq .advance fun _ => genericArguments_calm

/-- What makes a type optional makes an ordinary node. -/
theorem Ahead.isOrdinary_of_optionalSuffix? {ts : Ahead} {kind : Construct}
    (h : ts.optionalSuffix? = some kind) : kind.1.isOrdinary := by
  rw [optionalSuffix?] at h
  split at h
  · split at h
    · exact Option.some.inj h ▸ rfl
    · exact Option.some.inj h ▸ rfl
    · cases h
  · cases h

theorem optionalSuffixes_calm : optionalSuffixes.Calm test := by
  refine .repeatWhile (.look fun suffix => ?_)
  cases suffix with
  | none => exact .pure trivial
  | some kind =>
    by_cases hkind : kind.1.isOrdinary
    · exact .seq .splitHead fun _ => .seq (.enclose hkind .advance) fun _ => .pure trivial
    · exact fun s hs => absurd (Ahead.isOrdinary_of_optionalSuffix? hs.2) hkind

theorem collectionType_calm : collectionType.Calm test := by
  refine .nodeBy (.seq .advance fun _ => .seq type_calm fun _ => .seq .eat fun dictionary => ?_)
  refine .seq (.onlyIf type_calm) fun _ => .seq (skipToCloser_calm rfl) fun _ => ?_
  refine .seq .require fun _ => ?_
  exact .pure (by cases dictionary <;> rfl)

theorem effectSpecifiers_calm : effectSpecifiers.Calm test := by
  refine .ifAhead (.node rfl (.repeatWhile (.seq .eatWord fun _ => .ite (.pure trivial) ?_)))
  exact .seq .eat fun _ => .ite (.pure trivial) .eat

theorem tupleTypeLabels_calm : tupleTypeLabels.Calm test :=
  .branch (.advanceBy 2) (.ifAhead (.advanceBy 3))

theorem tupleOrFunctionType_calm : tupleOrFunctionType.Calm test := by
  refine .listBy (.behind .advance fun _ => .before (.ifAhead (.commaList (.values rfl rfl ?_)))
    fun _ => ?_)
  · refine .behind (.of_makes tupleTypeLabels_calm tupleTypeLabels_makes (by decide +kernel))
      fun _ => ?_
    exact .before type_writes fun _ => .ifAhead .advance
  · refine .seq (skipToCloser_bare rfl) fun _ => .seq .require fun _ =>
      .branch ?_ (.pure ⟨rfl, rfl⟩)
    refine .seq (.of_makes effectSpecifiers_calm effectSpecifiers_makes (by decide +kernel))
      fun _ => ?_
    exact .seq .require fun _ => .seq .visit fun _ => .pure ⟨rfl, rfl⟩

theorem plainTypeRule_calm : plainTypeRule.Calm test := by
  refine .branch (.node rfl ?_) (.branch (.node rfl ?_) (.branch ?_ (.branch ?_ (.branch ?_ ?_))))
  · exact .seq attributes_calm fun _ => .seq .skip fun _ => .visit
  · exact .seq (.branch .advanceAs .advanceAs) fun _ => .visit
  · exact .seq namedType_calm fun _ => .seq memberTypes_calm fun _ => optionalSuffixes_calm
  · exact .seq collectionType_calm fun _ => optionalSuffixes_calm
  · exact .seq tupleOrFunctionType_calm fun _ => optionalSuffixes_calm
  · exact .placeholder

theorem typeRule_calm : typeRule.Calm test := by
  refine .seq .visit fun _ => .ifAhead (.enclose rfl (.whileAhead ?_))
  exact .seq .advance fun _ => .visit

theorem typeClause_calm : typeClause.Calm test := .node rfl (.seq .require fun _ => type_calm)

theorem returnClause_calm : returnClause.Calm test := .node rfl (.seq .require fun _ => type_calm)

/-! ## Patterns and declarations -/

theorem expr_calm : (expr mode).Calm test := .visit

theorem label_calm : label.Calm test := .ifAhead (.advanceBy 2)

theorem tokenNode_calm {kind : Kind} {hk : kind.isConstruct} (h : kind.isOrdinary) :
    (tokenNode kind hk).Calm test := .node h .advance

/-- A label may stand before a value. -/
theorem labeled_writes {p : Parser Unit} (h : p.Writes fun _ => True) :
    (label >>= fun _ => p).Writes test :=
  .behind (.of_makes label_calm label_makes (by decide +kernel)) fun _ => h

theorem tuplePattern_calm : tuplePattern.Calm test := by
  refine .list rfl rfl (.behind .advance fun _ =>
    .before (.ifAhead (.before (.commaList (.values rfl rfl ?_))
    fun _ => ?_)) fun _ => .require)
  · exact labeled_writes (.visit rfl)
  · exact skipToCloser_bare rfl

/-- What stands in braces is read if a brace comes next, and then the brace is taken. -/
theorem braced_meets {goal : Goal} {inside : Kind} {hk : inside.isConstruct} {s : State Forest}
    {holds : Green → Prop} (hbuilt : Holding holds s.built)
    (hvisit : (visit goal).Fills (fun _ => True) holds fun _ => True)
    (hempty : holds (.node inside [])) (hordinary : inside.isOrdinary) :
    (eat .leftBrace >>= fun found =>
      if found then visit goal >>= fun _ => require .rightBrace
      else missing .leftBrace >>= fun _ => emptyNode inside hk >>= fun _ =>
        missing .rightBrace).meets placing s fun _ t =>
      Holding holds t.built ∧ Green.Braced t.built.reverse t.ahead.sight := by
  have hinside : (visit goal >>= fun _ => require .rightBrace).Fills (fun _ => True) holds
      fun _ => True := .seq hvisit fun _ => .require
  have hmakes : (visit goal >>= fun _ => require .rightBrace).Makes (fun _ => True)
      (.seq goal.shape (.needed .rightBrace)) := .seq .visit fun _ => .require
  rw [meets_bind]
  refine meets_eat (by decide) (fun x ts _ hx => ?_) fun hat => ?_
  · refine meets_mono (meets_and_yields (hinside ⟨ts, _⟩ trivial (.leaf hbuilt))
      (hmakes ts _ trivial)) ?_
    rintro _ t ⟨ht, gs, hgs, -⟩
    refine ⟨ht.2, .inl ⟨x.token.outline, List.mem_reverse.mpr ?_, hx⟩⟩
    rw [hgs]
    exact List.mem_append_right _ List.mem_cons_self
  · refine meets_emptyNode (Green.placed_of_isOrdinary hordinary _ _) ?_
    refine ⟨.leaf (.node hempty (.leaf hbuilt)), .inr ⟨?_, s.built.reverse, .missing .leftBrace _,
      .missing .rightBrace _, inside, by simp; rfl, rfl, rfl⟩⟩
    rw [Ahead.isAt_sight rfl (by decide)]
    exact hat

/-- A block without a brace does not pass one over. -/
theorem codeBlock_calm : codeBlock.Calm test := by
  intro s _ _
  refine meets_node (meets_mono (braced_meets .nil .visit trivial rfl) fun _ t ht _ => ?_)
  exact ⟨Green.placed_codeBlock ht.2, trivial, .any _⟩

theorem initializer_calm : (initializer mode).Calm test :=
  .node rfl (.seq .require fun _ => expr_calm)

theorem parameterClause_calm {typed : Bool} : (parameterClause typed).Calm test := by
  refine .list rfl rfl (.behind .eat fun _ =>
    .ite (.before (.ifAhead (.before (.commaList (.names rfl rfl rfl ?_))
    fun _ => ?_)) fun _ => .require) (.of_bare (.seq .missing fun _ => .missing)))
  · refine .seq attributes_calm fun _ => .seq ?_ fun _ => .seq ?_ fun _ => .seq ?_ fun _ => ?_
    · exact .branch (.seq .advance fun _ => .ifAhead .advance) (.ite .missing (.pure trivial))
    · exact .ifAhead (.seq .require fun _ => type_calm)
    · exact .ifAhead .advance
    · exact .ifAhead (.node rfl (.seq .advance fun _ => expr_calm))
  · exact skipToCloser_bare rfl

theorem patternBinding_writes : patternBinding.Writes test := by
  refine .before (.visit rfl) fun _ => .seq (.ifAhead (.node rfl typeClause_calm)) fun _ => ?_
  exact .seq (.ifAhead (.node rfl initializer_calm)) fun _ => .ifAhead (.node rfl codeBlock_calm)

theorem variableParts_calm : variableParts.Calm test := by
  refine .seq (.seq .eat fun _ => .ite (.pure trivial) .require) fun _ => .list rfl rfl ?_
  exact .commaList (.values rfl rfl patternBinding_writes)

theorem functionParts_calm : functionParts.Calm test := by
  refine .seq .advance fun _ => .seq (.branch .advance .missing) fun _ => ?_
  refine .seq (.node rfl ?_) fun _ => ?_
  · refine .seq parameterClause_calm fun _ => .seq effectSpecifiers_calm fun _ => ?_
    exact .ifAhead returnClause_calm
  · exact .ifAhead codeBlock_calm

theorem modifier_calm : modifier.Calm test := by
  refine .node rfl (.look fun length => .seq ?_ fun _ => .advanceBy (length - 1))
  refine .seq .eatWord fun _ => .ite (.pure trivial) ?_
  refine .seq .eatWord fun _ => .ite (.pure trivial) ?_
  exact .seq .eatWord fun _ => .ite (.pure trivial) .advance

theorem decl_calm : decl.Calm test := by
  have hparts : declParts.Fills (fun _ => True) (fun _ => True) fun kind => kind.1.isOrdinary :=
    .branch (.seq functionParts_calm fun _ => .pure rfl)
      (.seq variableParts_calm fun _ => .pure rfl)
  refine .nodeBy (.seq attributes_calm fun _ => .seq (.whileAhead modifier_calm) fun _ => ?_)
  exact .returns hparts fun _ hkind => hkind

/-! ## Closures and arguments -/

theorem closureSignature_calm : closureSignature.Calm test := by
  have hspecifier : captureSpecifier.Bare (fun ts => True ∧ ts.isCaptureSpecifier = true)
      fun _ => True := by
    refine .seq .eatWord fun _ => .ite (.pure trivial) (.seq .eatWord fun _ => .ifAhead ?_)
    exact .seq .advance fun _ => .seq .skip fun _ => .require
  refine .node rfl (.seq attributes_calm fun _ => .seq (.ifAhead (.list rfl rfl ?_)) fun _ => ?_)
  · refine .behind .advance fun _ =>
      .before (.ifAhead (.before (.commaList (.values rfl rfl ?_)) fun _ => ?_))
      fun _ => .require
    · refine .behind (.ifAhead hspecifier) fun _ => ?_
      exact .behind (.ifAhead (.advanceBy 2)) fun _ => .visit rfl
    · exact skipToCloser_bare rfl
  · refine .seq (.branch parameterClause_calm (.ifAhead ?_)) fun _ => ?_
    · exact .list rfl rfl (.commaList (.names rfl rfl rfl .advance))
    refine .seq effectSpecifiers_calm fun _ => .seq (.ifAhead returnClause_calm) fun _ => ?_
    exact .require

theorem closureRule_calm : closureRule.Calm test := by
  refine .node rfl (.seq .require fun _ => .seq (.ifAhead closureSignature_calm) fun _ => ?_)
  exact .seq .visit fun _ => .require

/-- Skipped text is only in front of the end of the arguments. -/
theorem argumentList_calm {closer : Kind} {barriers : KindSet}
    (h : closer.isInLiteral = false) : (argumentList closer barriers mode).Calm test := by
  refine .list rfl rfl (.ifAhead (.before (.commaList (.values rfl rfl ?_)) fun _ =>
    skipToCloser_bare h))
  exact labeled_writes (.visit rfl)

theorem trailingClosures_calm : trailingClosures.Calm test := by
  refine .seq .visit fun _ => .whileAhead (.node rfl ?_)
  exact .seq (.advanceBy 2) fun _ => .visit

theorem optionalTrailingClosures_calm : (optionalTrailingClosures mode).Calm test :=
  .ifAhead trailingClosures_calm

end Grammar

end SwiftTree
