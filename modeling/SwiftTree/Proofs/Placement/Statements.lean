import SwiftTree.Proofs.Placement.Sequences

/-!
# Statements stand as demanded

The parts of a header heed the mode of headers, and the condition of a clause that of directives.
What is skipped in front of the brace of a body ends at the brace. With these all rules are covered,
and so every node of a tree stands as demanded (`placing_met`).
-/

namespace SwiftTree

open Grammar

open Green (Placed Braced)

/-- What is neither read in the mode of a header nor skipped. -/
def Kind.isAside (k : Kind) : Bool := !k.isHeading && k != .unexpected

namespace Green

/-- Whether a node may be a part of a node of a kind. -/
def MayStandIn (kind : Kind) (g : Green) : Prop :=
  (∀ mode ∈ kind.partsMode?, g.kind.isHeading → g.Heeds mode) ∧
    (kind.hasBody → g.kind = .unexpected → g.startsBeforeBrace)

variable {kind : Kind} {g : Green}

/-- What heeds the mode that a node is read in may be a part of it. -/
theorem Heeds.mayStandIn {mode : Mode} (h : g.Heeds mode) (hmode : kind.partsMode? = some mode)
    (hkind : g.kind ≠ .unexpected) : g.MayStandIn kind := by
  refine ⟨fun m hm _ => ?_, fun _ hunexpected => absurd hunexpected hkind⟩
  rw [hmode] at hm
  exact Option.some.inj hm ▸ h

/-- What is neither read in a mode nor skipped may be a part of any node. -/
theorem mayStandIn_of_isAside (h : g.kind.isAside) : g.MayStandIn kind := by
  simp only [Kind.isAside, Bool.and_eq_true, Bool.not_eq_true', bne_iff_ne] at h
  exact ⟨fun _ _ hheading => absurd hheading (Bool.eq_false_iff.mp h.1),
    fun _ hunexpected => absurd hunexpected h.2⟩

/-- So may what is not skipped, in a node without a mode. -/
theorem mayStandIn_of_ne (hmode : kind.partsMode? = none) (hkind : g.kind ≠ .unexpected) :
    g.MayStandIn kind := by
  refine ⟨fun mode hm => ?_, fun _ hunexpected => absurd hunexpected hkind⟩
  rw [hmode] at hm
  cases hm

/-- A `switch` reads its expression in the mode of headers, and takes a brace that comes next. -/
theorem placed_switchStmt {cs : List Green} {next : Outlook}
    (heeds : ∀ mode ∈ Kind.switchStmt.partsMode?, ∀ c ∈ cs, c.kind.isHeading → c.Heeds mode)
    (braced : Braced cs next) : Placed .switchStmt cs next :=
  ⟨heeds, nofun, fun _ => braced, nofun, nofun, nofun, listed_of_not rfl rfl _ _⟩

/-- A tree of a shape of nodes is a node of such a kind. -/
theorem kind_of_matches {kinds : Kind → Bool} (h : (Shape.node kinds).Matches [g]) :
    kinds g.kind := by
  obtain ⟨k, cs, hcons, hk⟩ := h.exists_node
  obtain rfl := (List.cons.inj hcons).1
  exact hk

/-- A node of one of some kinds is no unexpected text, if this is none of them. -/
theorem ne_unexpected_of_matches {kinds : Kind → Bool} (h : (Shape.node kinds).Matches [g])
    (hkinds : kinds .unexpected = false) : g.kind ≠ .unexpected := by
  intro hkind
  have hk := kind_of_matches h
  rw [hkind, hkinds] at hk
  cases hk

/-- Tokens start before a brace unless the first one is one. -/
theorem startsBeforeBrace_tokens {t : Token.Outline} (hbrace : t.kind ≠ .leftBrace)
    (hend : t.kind ≠ .endOfFile) (gs : List Green) :
    (node kind (.leaf (.present t) :: gs)).startsBeforeBrace := by
  rw [startsBeforeBrace, sightOf_node, sightOf_cons, sightOf_token, Token.Outline.sight_of_ne hend]
  show ((if t.kind.isSteady then some t.kind else none) != some .leftBrace) = true
  split
  · exact bne_iff_ne.mpr fun hkind => hbrace (Option.some.inj hkind)
  · rfl

end Green

namespace Grammar

open Grammar.Parser

variable {α : Type} {test : Ahead → Prop} {mode : Mode} {kind : Kind}

/-! ## Nodes that are made of parts -/

namespace Parser

/-- What is read in a mode heeds it. -/
theorem Holding.heeds {cs : List Green} (h : Holding (Green.MayStandIn kind) cs) :
    ∀ mode ∈ kind.partsMode?, ∀ c ∈ cs, c.kind.isHeading → c.Heeds mode := by
  intro mode hm c hc hheading
  cases c with
  | node k ds => exact (h k ds hc).1 mode hm hheading
  | leaf l => exact .leaf l

/-- A node stands as demanded if its parts may stand in it. -/
theorem Holding.placed {cs : List Green} {next : Outlook} (h : Holding (Green.MayStandIn kind) cs)
    (hparts : kind.isMadeOfParts) : Placed kind cs next :=
  Green.placed_of_parts hparts h.heeds fun hbody ds hmem => (h _ ds hmem).2 hbody rfl

namespace Fills

theorem ofParts {p : Parser α} {hk : kind.isConstruct}
    (hparts : kind.isMadeOfParts) (h : p.Fills test (Green.MayStandIn kind) fun _ => True) :
    (Grammar.node kind p hk).Calm test :=
  nodeAs h (fun _ _ hcs => hcs.placed hparts) fun _ _ => trivial

/-- A node that is no part of a header. -/
theorem aside {p : Parser α} {kinds : Kind → Bool} (h : p.Calm test)
    (h' : p.Makes test (.node kinds))
    (hkinds : ∀ k, kinds k → k.isAside) : p.Fills test (Green.MayStandIn kind) fun _ => True :=
  of_node h h' fun _ _ hkind => Green.mayStandIn_of_isAside (hkinds _ hkind)

theorem asideOne {k : Kind} {p : Parser α} (hk : k.isAside) (h : p.Calm test)
    (h' : p.Makes test (Shape.one k)) : p.Fills test (Green.MayStandIn kind) fun _ => True :=
  aside h h' fun _ hkind => by rwa [beq_iff_eq.mp hkind]

/-- A goal whose trees are not skipped, in a node without a mode. -/
theorem visitPart {goal : Goal} {kinds : Kind → Bool} (hshape : goal.shape = .node kinds)
    (hmode : kind.partsMode? = none) (hkinds : kinds .unexpected = false) :
    (Grammar.visit goal).Fills test (Green.MayStandIn kind) fun _ => True :=
  visitAs fun _ hg _ => Green.mayStandIn_of_ne hmode
    (Green.ne_unexpected_of_matches (hshape ▸ hg) hkinds)

/-- A goal whose trees heed the mode that the node is read in. -/
theorem visitHeeding {goal : Goal} {kinds : Kind → Bool} (hshape : goal.shape = .node kinds)
    (hmode : kind.partsMode? = some mode) (hkinds : kinds .unexpected = false)
    (h : ∀ g : Green, goal.Promises g → g.Heeds mode) :
    (Grammar.visit goal).Fills test (Green.MayStandIn kind) fun _ => True :=
  visitAs fun g hg hgoal => (h g hgoal).mayStandIn hmode
    (Green.ne_unexpected_of_matches (hshape ▸ hg) hkinds)

/-- A goal whose trees are no part of a header. -/
theorem visitAside {goal : Goal} {k : Kind} (hk : k.isAside) (hshape : goal.shape = .one k) :
    (Grammar.visit goal).Fills test (Green.MayStandIn kind) fun _ => True := by
  refine visitAs fun g hg _ => ?_
  rw [hshape] at hg
  obtain rfl : g.kind = k := beq_iff_eq.mp (Green.kind_of_matches hg)
  exact Green.mayStandIn_of_isAside hk

end Fills

end Parser

/-! ## Statement lists and bodies -/

/-- What ends a clause is no part of a literal. -/
theorem Kind.not_isInLiteral_of_clauseEnd {k : Kind} (h : clauseEnd.contains k) :
    k.isInLiteral = false := by
  rw [clauseEnd, KindSet.contains_ofList, List.contains_iff_mem] at h
  simp only [List.mem_cons, List.not_mem_nil, or_false] at h
  rcases h with rfl | rfl | rfl <;> rfl

/-- A case starts with a token that no literal goes on with. -/
theorem Ahead.not_isInLiteral_of_startsCase {ts : Ahead} (h : ts.startsCase) :
    ts.kind.isInLiteral = false := by
  simp only [startsCase, isAt, Bool.or_eq_true, Bool.and_eq_true, beq_iff_eq] at h
  rcases h with (hcase | hdefault) | ⟨hattribute, -⟩
  all_goals simp only [*]; rfl

/-- A list of statements ends before a token that no literal goes on with. -/
theorem Ahead.not_isInLiteral_of_endsBody {body : Body} {ts : Ahead} (h : ts.endsBody body) :
    ts.kind.isInLiteral = false := by
  simp only [endsBody, Bool.or_eq_true, Bool.and_eq_true] at h
  rcases h with ((hend | ⟨-, hbrace⟩) | ⟨-, hclause⟩) | ⟨-, hcase | hblock⟩
  · rw [beq_iff_eq.mp hend]; rfl
  · rw [beq_iff_eq.mp hbrace]; rfl
  · exact Kind.not_isInLiteral_of_clauseEnd hclause
  · exact not_isInLiteral_of_startsCase hcase
  · rw [isCaseBlock, Bool.and_eq_true] at hblock
    rw [beq_iff_eq.mp hblock.1]; rfl

theorem item_calm {body : Body} : (item body).Calm test := by
  refine .seq .eat fun _ =>
    .ite (.pure trivial) (.branch .visit (skipStatement_calm fun us hus h => ?_))
  rcases Bool.or_eq_true_iff.mp h with hends | hline
  · exact Ahead.leavesLiterals_of_kind (Ahead.not_isInLiteral_of_endsBody hends)
  · have honline := Ahead.not_isOnLine_of_tells hus (Bool.and_elim_left hline)
    exact fun honline' => absurd honline' (Bool.eq_false_iff.mp honline)

theorem statementsRule_calm {body : Body} : (statementsRule body).Calm test :=
  .node rfl (.whileAhead item_calm)

/-- Nothing is skipped where skipping should end. -/
theorem Ahead.skipLength_eq_zero {stop : Ahead → Bool} {ts : Ahead} (h : stop ts) :
    skipLength stop 0 ts = 0 := by
  cases ts with
  | nil => rfl
  | cons x ts =>
    rw [skipLength, Scan.stop, Scan.run]
    simp only [outside, h, beq_self_eq_true, Bool.and_true, if_true]
    exact Nat.sub_self _

/-- What is skipped in front of a brace does not start with it. -/
theorem skippedToBrace_parts : (skippedUntil (.single .leftBrace)).Fills test
    (Green.MayStandIn kind) fun _ => True := by
  refine .look fun n => ?_
  cases n with
  | zero => exact .pure trivial
  | succ n =>
    rintro ⟨_ | ⟨x, ts⟩, built⟩ ⟨-, hlength⟩ hbuilt
    · cases hlength
    refine ⟨fun _ htells => Green.placed_unexpected ?_, trivial, ?_⟩
    · rw [← hlength] at htells ⊢
      refine Ahead.leavesLiterals_of_skipLength htells fun us _ => Ahead.leavesLiterals_of_isIn ?_
      intro k hk
      rw [KindSet.contains_single, beq_iff_eq] at hk
      rw [hk]
      rfl
    · have hbrace : x.token.outline.kind ≠ .leftBrace := by
        intro hx
        have hzero : Ahead.skipLength (Ahead.isIn (.single .leftBrace)) 0 (x :: ts) = 0 := by
          refine Ahead.skipLength_eq_zero ?_
          rw [Ahead.isIn, KindSet.contains_single]
          exact beq_iff_eq.mpr hx
        cases hzero.symm.trans hlength
      rw [State.unexpected_eq]
      refine .node ⟨fun _ _ hheading => absurd hheading Bool.false_ne_true, fun _ _ => ?_⟩ hbuilt
      exact Green.startsBeforeBrace_tokens hbrace Ahead.sight_ne_end _

theorem skipToBrace_parts : (skipUntil (.single .leftBrace)).Fills test
    (Green.MayStandIn kind) fun _ => True := .seq skippedToBrace_parts fun _ => .pure trivial

theorem bodyBlock_parts : bodyBlock.Fills test (Green.MayStandIn kind) fun _ => True :=
  .seq (.ifAhead skipToBrace_parts) fun _ => .asideOne rfl codeBlock_calm codeBlock_makes

/-! ## Conditions -/

/-- A condition is read in the mode of headers. -/
theorem condition_heeds : condition.Fills test (fun g => g.Heeds .header) fun _ => True := by
  refine .branch (.heeding rfl rfl ?_) (.branch (.heeding rfl rfl ?_) expr_heeds)
  · refine .seq .advance fun _ => .seq (.visitAs fun _ _ h => h _) fun _ => ?_
    exact .seq (.ifAhead typeClause_heeds) fun _ => .ifAhead initializer_heeds
  · refine .seq .advance fun _ => .seq (.visitAs fun _ _ h => h) fun _ => ?_
    refine .seq (.ifAhead typeClause_heeds) fun _ => .seq .require fun _ => expr_heeds

/-- A condition says something, or lacks its expression. -/
theorem condition_writes : condition.Writes test := by
  refine .branch (.node .optionalBindingCondition (Fills.node rfl ?_) (.node ?_)
    (by decide +kernel))
    (.branch (.node .matchingPatternCondition (Fills.node rfl ?_) (.node ?_) (by decide +kernel))
      (.visit rfl))
  · refine .seq .advance fun _ => .seq .visit fun _ => ?_
    exact .seq (.ifAhead typeClause_calm) fun _ => .ifAhead initializer_calm
  · refine .seq (.advance fun _ h => h.2) fun _ => .seq .visit fun _ => ?_
    exact .seq (.ifAhead typeClause_makes) fun _ => .ifAhead initializer_makes
  · refine .seq .advance fun _ => .seq .visit fun _ => .seq (.ifAhead typeClause_calm) fun _ => ?_
    exact .seq .require fun _ => expr_calm
  · refine .seq (.advance fun _ h => h.2) fun _ => .seq .visit fun _ => ?_
    exact .seq (.ifAhead typeClause_makes) fun _ => .seq .require fun _ => expr_makes

theorem whereClause_bare : (whereClause mode).Bare test fun _ => True :=
  .ifAhead (.node rfl (Fills.node rfl (.seq .advance fun _ => expr_calm)))

/-- A part of a list with a value that heeds the mode that it is read in. -/
theorem heedingParts {p : Parser Unit} (hkind : kind.isElement)
    (hmode : kind.partsMode? = some mode)
    (h : p.Fills (fun _ => True) (fun g => g.Heeds mode) fun _ => True)
    (hwrites : p.Writes fun _ => True) : p.Parts kind := by
  intro ts
  refine meets_mono (meets_and (h ⟨ts, []⟩ trivial .nil) (hwrites ts [] trivial)) ?_
  rintro _ ⟨us, _⟩ ⟨⟨-, hheeds⟩, gs, rfl, hfilled⟩ comma next hcomma
  rw [List.append_nil, List.reverse_reverse]
  refine Green.placed_of_isElement hkind (fun m hm c hc _ => ?_) fun _ => ?_
  · rw [hmode] at hm
    obtain rfl := Option.some.inj hm
    rcases List.mem_append.mp hc with hc | hc
    · refine hheeds.forall_mem .leaf c ?_
      rwa [List.append_nil, List.mem_reverse]
    · have hleaf := hcomma c hc
      cases c with
      | node k cs => cases hleaf
      | leaf l => exact .leaf l
  · rw [Green.isFilled_append, hfilled, Bool.true_or]

theorem conditionList_parts : conditionList.Fills test (Green.MayStandIn kind) fun _ => True :=
  .listAs rfl rfl (.commaList (heedingParts rfl rfl condition_heeds condition_writes))
    fun _ => Green.mayStandIn_of_isAside rfl

/-! ## Control flow -/

theorem ifStatement_calm : ifStatement.Calm test := by
  refine .ofParts rfl (.seq .advance fun _ => .seq conditionList_parts fun _ => ?_)
  refine .seq bodyBlock_parts fun _ => .seq .eat fun _ => .ite ?_ (.pure trivial)
  exact .branch (.visitPart rfl rfl rfl) bodyBlock_parts

theorem guardStatement_calm : guardStatement.Calm test := by
  refine .ofParts rfl (.seq .advance fun _ => .seq conditionList_parts fun _ => ?_)
  exact .seq .require fun _ => bodyBlock_parts

theorem catchClause_calm : catchClause.Calm test := by
  refine .ofParts rfl (.seq .advance fun _ => .seq (.ifAhead ?_) fun _ => bodyBlock_parts)
  refine .listAs rfl rfl (.commaList (heedingParts rfl rfl ?_ ?_)) fun _ =>
    Green.mayStandIn_of_isAside rfl
  · exact .seq (.visitAs fun _ _ h => h) fun _ => whereClause_heeds
  · exact .before (.visit rfl) fun _ => whereClause_bare

theorem doStatement_calm : doStatement.Calm test := by
  refine .ofParts rfl (.seq .advance fun _ => .seq bodyBlock_parts fun _ => .whileAhead ?_)
  exact .asideOne rfl catchClause_calm (catchClause_makes fun _ h => h)

/-- The header of a loop is read in the mode of headers. -/
theorem forHeader_parts : forHeader.Fills test (Green.MayStandIn .forStmt) fun _ => True := by
  have hpattern : forPattern.Fills (fun _ => True) (Green.MayStandIn .forStmt) fun _ => True := by
    refine .seq .eat fun _ => .ite (.visitHeeding rfl rfl rfl fun _ h => h) ?_
    exact .visitHeeding rfl rfl rfl fun _ h => h .header
  refine .seq .skip fun _ => .seq .eatWord fun _ => .seq hpattern fun _ => ?_
  refine .seq (.ifAhead (.asideOne rfl typeClause_calm typeClause_makes)) fun _ => ?_
  refine .seq .require fun _ => .seq (.visitHeeding rfl rfl rfl fun _ h => h) fun _ => .ifAhead ?_
  refine .nodeAs (.seq .advance fun _ => expr_heeds) (fun _ _ _ => ?_) fun cs hcs => ?_
  · exact Green.placed_of_isOrdinary rfl _ _
  · exact Green.Heeds.mayStandIn (.node rfl (hcs.forall_mem .leaf)) rfl nofun

theorem removedCStyleFor_parts {word : Span} : (removedCStyleFor word).Fills test
    (Green.MayStandIn .forStmt) fun _ => True :=
  .look fun _ => .seq skippedToBrace_parts fun _ => .ite .override (.pure trivial)

theorem forStatement_calm : forStatement.Calm test := by
  refine .ofParts rfl (.look fun word => .seq .advance fun _ => .branch ?_ ?_)
  · exact .seq removedCStyleFor_parts fun _ => .asideOne rfl codeBlock_calm codeBlock_makes
  · exact .seq forHeader_parts fun _ => bodyBlock_parts

theorem whileStatement_calm : whileStatement.Calm test :=
  .ofParts rfl (.seq .advance fun _ => .seq conditionList_parts fun _ => bodyBlock_parts)

theorem repeatStatement_calm : repeatStatement.Calm test := by
  refine .ofParts rfl (.seq .advance fun _ => .seq bodyBlock_parts fun _ => ?_)
  exact .seq .require fun _ => .visitPart rfl rfl rfl

theorem returnStatement_calm : returnStatement.Calm test :=
  .node rfl (.seq .require fun _ => .ifAhead expr_calm)

theorem jumpStatement_calm {hk : kind.isConstruct} (h : kind.isOrdinary) :
    (jumpStatement kind hk).Calm test := .node h (.seq .advance fun _ => .ifAhead .advance)

/-! ## `switch` -/

theorem caseLabel_calm : caseLabel.Calm test := by
  refine .nodeBy (.seq .eat fun _ => .ite ?_ ?_)
  · refine .seq (.list rfl rfl (.commaList (.values rfl rfl ?_))) fun _ => .seq .require fun _ =>
      .pure rfl
    exact .before (.visit rfl) fun _ => whereClause_bare
  · exact .seq .require fun _ => .seq .require fun _ => .pure rfl

theorem switchCase_calm : switchCase.Calm test :=
  .node rfl (.seq attributes_calm fun _ => .seq caseLabel_calm fun _ => .visit)

/-- The condition of a clause is read in the mode of directives. -/
theorem ifConfigClause_calm {content : Goal}
    (hcontent : content.shape = .one .codeBlockItemList ∨ content.shape = .one .switchCaseList) :
    (ifConfigClause content).Calm test := by
  refine .ofParts rfl (.look fun _ => .seq .advance fun _ => .seq (.onlyIf ?_) fun _ => ?_)
  · exact .visitHeeding rfl rfl rfl fun _ h => h
  · exact hcontent.elim (.visitAside rfl) (.visitAside rfl)

theorem ifConfig_calm {content : Goal}
    (hcontent : content.shape = .one .codeBlockItemList ∨ content.shape = .one .switchCaseList) :
    (ifConfig content).Calm test := by
  refine .node rfl (.seq (ifConfigClause_calm hcontent) fun _ => ?_)
  exact .seq (.whileAhead (ifConfigClause_calm hcontent)) fun _ => .require

theorem caseItem_calm : caseItem.Calm test := by
  refine .branch switchCase_calm (.branch (ifConfig_calm (.inr rfl)) ?_)
  refine skipStatement_calm fun us _ h => ?_
  refine Ahead.leavesLiterals_of_kind ?_
  simp only [Bool.or_eq_true] at h
  rcases h with ((hbrace | hblock) | hclause) | hcase
  · rw [beq_iff_eq.mp hbrace]; rfl
  · rw [beq_iff_eq.mp hblock]; rfl
  · exact Kind.not_isInLiteral_of_clauseEnd hclause
  · exact Ahead.not_isInLiteral_of_startsCase hcase

theorem switchCasesRule_calm {inDirective : Bool} : (switchCasesRule inDirective).Calm test :=
  .node rfl (.whileAhead caseItem_calm)

/-- The expression of a `switch` is read in the mode of headers, and a brace behind it is taken. -/
theorem switchStatement_calm : switchStatement.Calm test := by
  have hheader : (advance >>= fun _ => expr .header).Fills (fun _ => True)
      (Green.MayStandIn .switchStmt) fun _ => True :=
    .seq .advance fun _ => .visitHeeding rfl rfl rfl fun _ h => h
  have hbraces (t : State Forest) (ht : Holding (Green.MayStandIn .switchStmt) t.built) :=
    meets_expect (@braced_meets (.switchCases false) .switchCaseList rfl t _ ht
      (.visitAside rfl rfl)
      (Green.mayStandIn_of_isAside rfl) rfl)
  intro s _ _
  have hparts := meets_mono (hheader s.enter.2 trivial .nil) fun _ t ht => hbraces t ht.2
  refine meets_node (meets_mono hparts fun _ t ht _ => ?_)
  have hholding : Holding (Green.MayStandIn .switchStmt) t.built.reverse :=
    fun k cs hmem => ht.1 k cs (List.mem_reverse.mp hmem)
  exact ⟨Green.placed_switchStmt hholding.heeds ht.2, trivial, .any _⟩

/-! ## Any statement -/

theorem statementRule_calm : statementRule.Calm test := by
  refine .look fun kind => ?_
  split
  · exact ifStatement_calm
  · exact guardStatement_calm
  · exact switchStatement_calm
  · exact doStatement_calm
  · exact forStatement_calm
  · exact whileStatement_calm
  · exact repeatStatement_calm
  · exact returnStatement_calm
  · exact jumpStatement_calm rfl
  · exact jumpStatement_calm rfl
  · exact .node rfl (.seq .advance fun _ => expr_calm)
  · exact .ofParts rfl (.seq .advance fun _ => bodyBlock_parts)
  · exact tokenNode_calm rfl
  · exact ifConfig_calm (.inl rfl)
  iterate 3 exact decl_calm
  · refine .branch decl_calm (.branch (.node rfl ?_) expr_calm)
    exact .seq (.advanceBy 2) fun _ => .visit

/-! ## Goals and entries -/

/-- The tree that a rule adds has the property of the nodes that it adds. -/
theorem Parser.AddsNode.forall_eq {holds : Green → Prop} {rule : Parser α}
    (h : rule.AddsNode (fun _ => True) holds) (ts : Ahead) (built : Forest) :
    rule.meets placing ⟨ts, built⟩ fun _ t => ∀ g, t.built = g :: built → holds g := by
  refine meets_mono (h ts built trivial) ?_
  rintro _ ⟨_, _⟩ ⟨kind, cs, rfl, hholds⟩ g hg
  obtain rfl := (List.cons.inj hg).1
  exact hholds

/-- **Nodes are where rules put them.** With this the demand is met by the rules of all goals, and
so by every node of a tree. -/
theorem placing_met : placing.Met where
  goal goal ts built := by
    have hcalm {rule : Parser Unit} (h : rule.Calm fun _ => True) : (complete rule).meets placing
        ⟨ts, built⟩ fun _ t => ∀ g, t.built = g :: built → True := by
      have hcomplete : (complete rule).Calm fun _ => True := .seq h fun _ => .pure trivial
      exact meets_mono (hcomplete ⟨ts, built⟩ trivial (.any _)) fun _ _ _ _ _ => trivial
    cases goal with
    | sequence mode power => exact sequenceRule_heeds.forall_eq ts built
    | unary mode power => exact unaryRule_heeds.forall_eq ts built
    | operand mode => exact operandRule_heeds.forall_eq ts built
    | closure => exact hcalm closureRule_calm
    | type => exact hcalm typeRule_calm
    | plainType => exact hcalm plainTypeRule_calm
    | pattern =>
      have hall : patternRule.AddsNode (fun _ => True) fun g => ∀ mode, g.Heeds mode :=
        patternRule_heeds.mono fun _ h _ => h.all
      exact hall.thenPure.forall_eq ts built
    | casePattern mode => exact casePatternRule_heeds.thenPure.forall_eq ts built
    | statement => exact hcalm statementRule_calm
    | statements body => exact hcalm statementsRule_calm
    | switchCases inDirective => exact hcalm switchCasesRule_calm
  entry e ts := by
    have hskip : (skipUntil .empty).Calm fun _ => True :=
      skipUntil_calm fun k hk => absurd hk (Bool.eq_false_iff.mp (KindSet.contains_empty k))
    have hcalm : e.rule.Calm fun _ => True := by
      cases e with
      | sourceFile => exact .visit
      | expression mode => exact .seq expr_calm fun _ => hskip
      | statement => exact .seq .visit fun _ => hskip
      | closure => exact .seq .visit fun _ => hskip
      | returnStatement => exact .seq returnStatement_calm fun _ => hskip
    exact meets_mono (hcalm ⟨ts, []⟩ trivial (.any _)) fun _ _ _ => trivial
  root e cs := Green.placed_of_isOrdinary (by cases e <;> rfl) _ _

end Grammar

end SwiftTree
