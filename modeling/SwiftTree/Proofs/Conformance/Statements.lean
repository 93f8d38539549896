import SwiftTree.Proofs.Conformance.Operators
import SwiftTree.Proofs.Conformance.Placeholders
import SwiftTree.Proofs.Termination

/-!
# The shapes of statements, and of whatever goals give

There is one lemma for each rule, in the order of the grammar. A statement is told by its keyword,
so the token that a node starts with is known from the look ahead. The label of a case may come
behind attributes, and is the one seen only if the parentheses of these belong together (`Labels`).
-/

namespace SwiftTree.Grammar

open Grammar.Parser Shape

variable {test : Ahead → Prop} {mode : Mode}

/-! ## Statement lists and bodies -/

/-- An item of a statement list is a semicolon, a statement, or text that was skipped. -/
theorem item_makes {body : Body} :
    (item body).Makes test (.alt (tok .semicolon) (.alt statement skipped)) := by
  refine .orElse (.eat (by decide)) (.pure ()) ?_ fun _ => .left
  exact .right (.branch (.left .visit) (.right skipStatement_makes))

theorem statementsRule_makes {body : Body} :
    (statementsRule body).Makes test (one .codeBlockItemList) :=
  .node (.whileAhead item_makes)

theorem bodyBlock_makes : bodyBlock.Makes test Shape.body :=
  .seq (.branch skipUntil_makes (.none ())) fun _ => codeBlock_makes

/-! ## Conditions -/

/-- A condition is an expression, a binding, or a pattern to match. -/
theorem condition_makes : condition.Makes test (.node fun k =>
    k.isExpression || k == .optionalBindingCondition || k == .matchingPatternCondition) := by
  refine .branch (.node (.seq (.advance fun _ h => h.2) fun _ => .seq .visit fun _ => ?_))
    (.branch (.node (.seq (.advance fun _ h => h.2) fun _ => .seq .visit fun _ => ?_)) ?_)
  · exact .seq (.ifAhead typeClause_makes) fun _ => .ifAhead initializer_makes
  · exact .seq (.ifAhead typeClause_makes) fun _ => .seq .require fun _ => expr_makes
  · exact .among expr_makes fun _ hk => by rw [hk, Bool.true_or, Bool.true_or]

theorem conditionList_makes : conditionList.Makes test (one .conditionElementList) :=
  .node (.commaList condition_makes rfl)

theorem whereClause_makes : (whereClause mode).Makes test (opt (one .whereClause)) :=
  .ifAhead (.node (.seq (.advance fun _ h => h.2) fun _ => expr_makes))

/-! ## Control flow -/

theorem ifStatement_makes (h : ∀ ts, test ts → ts.isAt .ifKw) :
    ifStatement.Makes test (one .ifStmt) := by
  refine .node (.seq (.advance h) fun _ => .seq conditionList_makes fun _ => ?_)
  refine .seq bodyBlock_makes fun _ => .seqOr (.eat (by decide)) ?_ (.pure ())
  exact .branch (.left (.visitIf fun _ h => h.2)) (.right bodyBlock_makes)

theorem guardStatement_makes (h : ∀ ts, test ts → ts.isAt .guardKw) :
    guardStatement.Makes test statement := by
  refine .node (.seq (.advance h) fun _ => .seq conditionList_makes fun _ => ?_)
  exact .seq .require fun _ => bodyBlock_makes

theorem catchClause_makes (h : ∀ ts, test ts → ts.isAt .catchKw) :
    catchClause.Makes test (one .catchClause) := by
  refine .node (.seq (.advance h) fun _ => .seq (.ifAhead (.node ?_)) fun _ => bodyBlock_makes)
  exact .commaList (.seq .visit fun _ => whereClause_makes) rfl

theorem doStatement_makes (h : ∀ ts, test ts → ts.isAt .doKw) :
    doStatement.Makes test statement := by
  refine .node (.seq (.advance h) fun _ => .seq bodyBlock_makes fun _ => ?_)
  exact .whileAhead (catchClause_makes fun _ h => h)

theorem forPattern_makes : Grammar.forPattern.Makes test Shape.forPattern :=
  .seqOr (.eat (by decide)) .visit .visit

theorem forHeader_makes : Grammar.forHeader.Makes test Shape.forHeader := by
  refine .seq (.skip (by decide)) fun _ => .seq (.eatWord_opt rfl) fun _ => ?_
  refine .seq forPattern_makes fun _ => .seq (.ifAhead typeClause_makes) fun _ => ?_
  refine .seq .require fun _ => ?_
  exact .seq expr_makes fun _ => whereClause_makes

theorem removedCStyleFor_makes {word : Span} : (removedCStyleFor word).Makes test skipped := by
  refine .look fun first => .thenNothing skippedUntil_makes fun found => ?_
  cases found with
  | false => exact .pure ()
  | true => exact .override

theorem forStatement_makes (h : ∀ ts, test ts → ts.isAt .forKw) :
    forStatement.Makes test statement := by
  refine .node (.look fun _ => .seq (.advance fun ts hts => h ts hts.1) fun _ => ?_)
  refine .branch (.left ?_) (.right ?_)
  · exact .seq removedCStyleFor_makes fun _ => codeBlock_makes
  · exact .seq forHeader_makes fun _ => bodyBlock_makes

theorem whileStatement_makes (h : ∀ ts, test ts → ts.isAt .whileKw) :
    whileStatement.Makes test statement :=
  .node (.seq (.advance h) fun _ => .seq conditionList_makes fun _ => bodyBlock_makes)

theorem repeatStatement_makes (h : ∀ ts, test ts → ts.isAt .repeatKw) :
    repeatStatement.Makes test statement := by
  refine .node (.seq (.advance h) fun _ => .seq bodyBlock_makes fun _ => ?_)
  exact .seq .require fun _ => expr_makes

theorem returnStatement_makes : returnStatement.Makes test statement :=
  .node (.seq .require fun _ => .ifAhead expr_makes)

/-- Jump statements differ in their keywords only, and may name the label that they jump to. -/
theorem jumpStatement_makes {kind k : Kind} {hk : kind.isConstruct} (h : ∀ ts, test ts → ts.isAt k)
    (hend : k ≠ .endOfFile) (hshape : kind.contents (fun k => k.isStatement || k.isExpression)
      = .seq (tok k) (opt (tok .identifier))) : (jumpStatement kind hk).Makes test statement := by
  refine .node ?_
  rw [hshape]
  refine .seq (.advanceAt h hend) fun _ => .ifAhead (.advance fun ts hts => ?_)
  exact Bool.and_elim_left hts.2

/-! ## `switch` -/

/-- Which label a keyword starts. -/
inductive Labels : Kind → Kind → Prop
  | cases : Labels .caseKw .switchCaseLabel
  | otherwise : Labels .defaultKw .switchDefaultLabel

/-- The keyword of a label is the next token if it is one. -/
theorem caseLabel_adds (ts : Ahead) : caseLabel.Adds (fun us => us = ts) fun _ _ gs =>
    ∃ kind label, gs = [.node kind label] ∧
      (kind == .switchCaseLabel || kind == .switchDefaultLabel) ∧
      (ts.isAt .caseKw ∨ ts.isAt .defaultKw → ∃ k, Labels k kind ∧ ts.Leads label k) := by
  have hitems : (node .caseItemList (commaList .caseItem (fun _ => false) do
      visit (.casePattern .plain)
      whereClause .plain)).Makes (fun _ => True) (one .caseItemList) :=
    .node (.commaList (.seq .visit fun _ => whereClause_makes) rfl)
  refine .nodeBy (eat_adds (by decide) (fun y us hts hy => ?_) fun hnot => ?_)
  · refine .mono (.before hitems fun _ => .returns Makes.require fun _ _ colon hcolon => ?_)
      (fun _ _ => trivial) fun _ _ _ h => h
    intro items hitems
    have hword : (tok .caseKw).Matches [.token y.token] := .token (beq_iff_eq.mpr hy)
    refine ⟨Green.exact_plain (.seq hword (.seq hitems hcolon)), _, _, rfl, rfl, fun _ => ?_⟩
    exact ⟨.caseKw, .cases, y, us, items ++ colon, hts, rfl, hy⟩
  · refine .onto (require_adds ts) fun _ => .returns Makes.require fun _ _ colon hcolon => ?_
    rintro _ word ⟨hword, hleads⟩
    refine ⟨Green.exact_plain (.seq hword hcolon), _, _, rfl, rfl, fun hat => ?_⟩
    have hdefault : ts.isAt .defaultKw := hat.resolve_left (mt beq_iff_eq.mp hnot)
    exact ⟨.defaultKw, .otherwise, (hleads hdefault).append colon⟩

/-- Among the parts of a case, only its label is one. -/
theorem label_of_mem {kind : Kind} {attributes label parts : List Green} {items : Green}
    (hattributes : (opt (one .attributeList)).Matches attributes)
    (hitems : (one .codeBlockItemList).Matches [items])
    (h : .node .switchDefaultLabel parts ∈ attributes ++ [.node kind label, items]) :
    Green.node .switchDefaultLabel parts = .node kind label := by
  have hne {kind' : Kind} {gs : List Green} (hgs : (one kind').Matches gs)
      (hkind : kind' ≠ .switchDefaultLabel) : .node .switchDefaultLabel parts ∉ gs := by
    obtain ⟨_, _, rfl, hkind'⟩ := hgs.exists_node
    intro hmem
    have hnode := (Green.node.inj (List.mem_singleton.mp hmem)).1
    exact hkind (hnode.trans (beq_iff_eq.mp hkind')).symm
  rw [List.mem_append, List.mem_cons] at h
  rcases h with hmem | hlabel | hitem
  · cases hattributes with
    | left hlist => exact absurd hmem (hne hlist (by decide))
    | right hnothing =>
      cases hnothing
      cases hmem
  · exact hlabel
  · exact absurd hitem (hne hitems (by decide))

/-- Where a case starts, attributes lead to its keyword. -/
theorem Ahead.isLabel_afterAttributes {ts : Ahead} (h : ts.startsCase) :
    ts.afterAttributes.isAt .caseKw ∨ ts.afterAttributes.isAt .defaultKw := by
  rw [startsCase, Bool.or_eq_true, Bool.or_eq_true, Bool.and_eq_true, Bool.or_eq_true] at h
  have here {k : Kind} (hk : k ≠ .atSign) (hat : ts.isAt k) : ts.afterAttributes = ts := by
    refine afterAttributes_eq (beq_eq_false_iff_ne.mpr ?_)
    rwa [beq_iff_eq.mp hat]
  obtain (hcase | hdefault) | ⟨-, hlater⟩ := h
  · exact .inl (by rwa [here (by decide) hcase])
  · exact .inr (by rwa [here (by decide) hdefault])
  · exact hlater

/-- A case where attributes lead to its keyword. If the parentheses of the attributes belong
together, then the keyword that was seen is the first token of the label. -/
theorem switchCase_adds {ts : Ahead} (h : ts.startsCase) : switchCase.Adds (fun us => us = ts)
    fun _ _ gs => ∃ cs, gs = [.node .switchCase cs] ∧ (Green.attributesMatch cs →
      ∃ attributes kind label items k, cs = attributes ++ [.node kind label, items] ∧
        (opt (one .attributeList)).Matches attributes ∧ Labels k kind ∧
        ts.afterAttributes.Leads label k) := by
  -- the rule looks for the keyword where the attributes end, the look ahead where it says they do
  have hrest (us : Ahead) : Parser.Adds (fun vs => vs = us) (fun _ _ gs => ∃ kind label items,
      gs = [.node kind label, items] ∧
      (kind == .switchCaseLabel || kind == .switchDefaultLabel) ∧
      (one .codeBlockItemList).Matches [items] ∧
      (us.isAt .caseKw ∨ us.isAt .defaultKw → ∃ k, Labels k kind ∧ us.Leads label k)) (do
      caseLabel
      visit (.statements { braced := true, directive := true, inCase := true })) := by
    refine .bind (caseLabel_adds us) (fun _ => Makes.visit) ?_
    rintro _ vs _ _ ws hs ⟨kind, label, rfl, hkind, hleads⟩ hhs
    obtain ⟨_, items, rfl, hitems⟩ := hhs.exists_node
    exact ⟨kind, label, _, rfl, hkind, hhs, hleads⟩
  refine .node (.bindAt (attributes_adds ts) (fun _ us _ _ => hrest us) ?_)
  rintro _ us attributes _ vs _ ⟨hattributes, hlook⟩
    ⟨kind, label, items, rfl, hkind, hitems, hleads⟩
  have hkeyword (hmatch : Green.attributesMatch (attributes ++ [.node kind label, items])) :
      ∃ k, Labels k kind ∧ ts.afterAttributes.Leads label k := by
    rw [Green.attributesMatch_append, Bool.and_eq_true] at hmatch
    rw [← hlook hmatch.1]
    refine hleads ?_
    rw [hlook hmatch.1]
    exact Ahead.isLabel_afterAttributes h
  refine ⟨Green.exact_keyed rfl (.seq hattributes (.seq (.node hkind) hitems)) fun hmatch => ?_,
    _, rfl, fun hmatch => ?_⟩
  · obtain ⟨k, hlabels, x, us, rest, -, rfl, hx⟩ := hkeyword hmatch
    refine ⟨(nomatch ·), fun _ parts hparts => ?_⟩
    obtain ⟨rfl, rfl⟩ := Green.node.inj (label_of_mem hattributes hitems hparts)
    cases hlabels with
    | otherwise => exact ⟨x.token.outline, List.mem_cons_self, hx⟩
  · obtain ⟨k, hlabels, hleads⟩ := hkeyword hmatch
    exact ⟨attributes, kind, label, items, k, rfl, hattributes, hlabels, hleads⟩

/-- A case starts with its label, whose keyword is the one that was seen behind attributes. -/
theorem switchCase_makes (h : ∀ ts, test ts → ts.startsCase) :
    switchCase.Makes test (one .switchCase) := by
  intro ts built hts
  refine yields_mono (switchCase_adds (h ts hts) ts built rfl) ?_
  rintro _ t ⟨_, hbuilt, hstrict, cs, rfl, -⟩
  exact ⟨_, hbuilt, hstrict, .node rfl⟩

/-- A clause of a conditional block holds what its block stands among. -/
theorem ifConfigClause_makes {content : Goal}
    (hcontent : content.shape = one .codeBlockItemList ∨ content.shape = one .switchCaseList)
    (h : ∀ ts, test ts → ts.heads fun k => k == .poundIf || k == .poundElseif || k == .poundElse) :
    (ifConfigClause content).Makes test (one .ifConfigClause) := by
  refine .node (.look fun unconditional => .seq (.advance fun ts hts => h ts hts.1) fun _ => ?_)
  refine .seq (.onlyIf_opt expr_makes) fun _ => .reshape .visit fun gs hgs => ?_
  rcases hcontent with hcontent | hcontent
  · rw [hcontent] at hgs
    exact hgs.node_mono fun _ hk => by rw [hk, Bool.true_or]
  · rw [hcontent] at hgs
    exact hgs.node_mono fun _ hk => by rw [hk, Bool.or_true]

theorem ifConfig_makes {content : Goal}
    (hcontent : content.shape = one .codeBlockItemList ∨ content.shape = one .switchCaseList)
    (h : ∀ ts, test ts → ts.isAt .poundIf) :
    (ifConfig content).Makes test (one .ifConfigDecl) := by
  refine .node (.seq (ifConfigClause_makes hcontent fun ts hts => ?_) fun _ =>
    .seq (.whileAhead (ifConfigClause_makes hcontent fun ts hts => ?_)) fun _ => .require)
  · exact Ahead.heads_of_kind (beq_iff_eq.mp (h ts hts)) rfl
  · show (ts.isAt .poundIf || ts.isAt .poundElseif || ts.isAt .poundElse) = true
    rw [Bool.or_assoc, hts, Bool.or_true]

theorem caseItem_makes : caseItem.Makes test
    (.alt (.node fun k => k == .switchCase || k == .ifConfigDecl) skipped) := by
  refine .branch (.left (.among (switchCase_makes fun _ h => h.2) fun _ hk => by rw [hk,
    Bool.true_or])) ?_
  refine .branch (.left (.of_one (ifConfig_makes (.inr rfl) fun _ h => h.2) rfl)) (.right ?_)
  exact skipStatement_makes

theorem switchCasesRule_makes {inDirective : Bool} :
    (switchCasesRule inDirective).Makes test (one .switchCaseList) :=
  .node (.whileAhead caseItem_makes)

/-- A `switch` holds cases, conditional blocks of cases, and text that was skipped. -/
theorem switchStatement_makes (h : ∀ ts, test ts → ts.isAt .switchKw) :
    switchStatement.Makes test statement := by
  refine .node (.seq (.advance h) fun _ => .seq expr_makes fun _ => .seqIf .expect ?_ ?_)
  · exact .seq .visit fun _ => .require
  · exact .seq (.emptyNode .none) fun _ => (.missing rfl)

/-! ## Any statement -/

/-- A labeled statement starts with a label. -/
theorem Ahead.isLabel_of_isLabeledStatement {ts : Ahead} (h : ts.isLabeledStatement) :
    ts.isLabel := by
  simp only [isLabeledStatement, Bool.and_eq_true, List.drop_one] at h
  rw [isLabel, isName, h.1.1, h.1.2]
  rfl

/-- A statement is one of its kinds. The keyword ahead tells which, and anything else is an
expression. -/
theorem statementRule_makes : statementRule.Makes test statement := by
  refine .look fun kind => ?_
  have hat {k : Kind} (ts : Ahead) (hts : test ts ∧ ts.kind = k) : ts.isAt k := beq_iff_eq.mpr hts.2
  split
  · exact .of_one (ifStatement_makes hat) rfl
  · exact guardStatement_makes hat
  · exact switchStatement_makes hat
  · exact doStatement_makes hat
  · exact forStatement_makes hat
  · exact whileStatement_makes hat
  · exact repeatStatement_makes hat
  · exact returnStatement_makes
  · exact jumpStatement_makes hat (by decide) rfl
  · exact jumpStatement_makes hat (by decide) rfl
  · exact .node (.seq (.advance hat) fun _ => expr_makes)
  · exact .node (.seq (.advance hat) fun _ => bodyBlock_makes)
  · exact .node (.advance hat)
  · exact .of_one (ifConfig_makes (.inl rfl) hat) rfl
  · exact decl_makes fun _ hts => Ahead.startsDecl_of_keyword (.inl hts.2)
  · exact decl_makes fun _ hts => Ahead.startsDecl_of_keyword (.inr (.inl hts.2))
  · exact decl_makes fun _ hts => Ahead.startsDecl_of_keyword (.inr (.inr hts.2))
  · refine .branch (decl_makes fun _ hts => Bool.and_elim_right hts.2) (.branch (.node ?_) ?_)
    · refine .seq (advanceBy_label fun ts hts => ?_) fun _ => .visit
      exact Ahead.isLabel_of_isLabeledStatement hts.2
    · exact .among expr_makes fun _ hk => by rw [hk, Bool.or_true]

/-! ## Goals -/

/-- A rule that has nothing to tell about operands fits its goal with the shape of its node. -/
theorem complete_adds {rule : Parser Unit} {goal : Goal} {kinds : Kind → Bool}
    (h : rule.Makes test (.node kinds)) (hshape : goal.shape = .node kinds)
    (hgroups : ∀ missing ts t, goal.Groups missing ts t) :
    (complete rule).Adds test fun missing ts gs => ∃ t, gs = [t] ∧ goal.Fits missing ts t := by
  refine .returns h fun _ _ gs hgs => ?_
  obtain ⟨kind, cs, rfl, hkind⟩ := hgs.exists_node
  refine ⟨_, rfl, ?_, hgroups _ _ _⟩
  rw [hshape]
  exact .node hkind

/-- The rule that stands for a goal gives what the goal gives. -/
theorem Goal.rule_adds (goal : Goal) : goal.rule.Adds (fun _ => True) fun missing ts gs =>
    ∃ t, gs = [t] ∧ goal.Fits missing ts t := by
  cases goal with
  | sequence mode power => exact sequenceRule_adds
  | unary mode power => exact unaryRule_adds
  | operand mode =>
    refine .mono operandRule_makes (fun _ h => h) fun missing ts gs hgs => ?_
    obtain ⟨kind, cs, rfl, hkind⟩ := hgs.exists_node
    exact ⟨_, rfl, .node hkind, trivial⟩
  | closure => exact complete_adds closureRule_makes rfl fun _ _ _ => trivial
  | type => exact complete_adds typeRule_makes rfl fun _ _ _ => trivial
  | plainType => exact complete_adds plainTypeRule_makes rfl fun _ _ _ => trivial
  | pattern => exact complete_adds patternRule_makes rfl fun _ _ _ => trivial
  | casePattern mode => exact complete_adds casePatternRule_makes rfl fun _ _ _ => trivial
  | statement => exact complete_adds statementRule_makes rfl fun _ _ _ => trivial
  | statements body => exact complete_adds statementsRule_makes rfl fun _ _ _ => trivial
  | switchCases inDirective => exact complete_adds switchCasesRule_makes rfl fun _ _ _ => trivial

/-- At `if` the rule of statements makes an `if` statement. -/
theorem statementRule_makes_if :
    statementRule.Makes (fun ts => ts.isAt .ifKw) (one .ifStmt) := by
  intro ts built hts
  have hif := ifStatement_makes (fun _ h => h) ts built hts
  rw [statementRule, yields_bind, yields_look, beq_iff_eq.mp hts]
  exact hif

/-- Rules can rely on what goals give. -/
theorem Env.honest_ofLimit (n : Nat) : (Env.ofLimit n : Env Forest).Honest := by
  induction n with
  | zero =>
    intro goal s a t h
    cases h
  | succ n ih =>
    intro goal s a t h
    obtain ⟨⟨gs, hbuilt, hstrict, g, rfl, hfits⟩, hcarries⟩ :=
      Parser.sound_of_yields ih h (goal.rule_adds s.ahead s.built trivial)
    have hreaches : goal.Reaches s.ahead t.ahead := Goal.reaches_of_run (n := n + 1) h
    -- a goal adds one tree, so all that is shown of what it adds is about this one
    have hone (gs : List Green) (hgs : t.built = gs.reverse ++ s.built) : gs = [g] :=
      List.reverse_inj.mp (List.append_cancel_right (hgs.symm.trans hbuilt))
    refine ⟨⟨g, hbuilt, ⟨hfits, hstrict.1, ?_, fun htakes => ?_, fun htakes hgoal => ?_⟩⟩, hcarries⟩
    · rintro rfl hat
      have hif : (complete statementRule).Makes _ (one .ifStmt) := .thenPure statementRule_makes_if
      obtain ⟨⟨gs, hbuilt', -, hgs⟩, -⟩ :=
        Parser.sound_of_yields ih h (hif s.ahead s.built hat)
      obtain rfl := hone gs hbuilt'
      exact hgs
    · exact hcarries.hasPresent hbuilt (hreaches.lt htakes)
    · obtain ⟨g', hg'⟩ := Option.isSome_iff_exists.mp hgoal
      obtain ⟨⟨rfl, hvacant⟩, -⟩ :=
        Parser.sound_of_yields ih h (goal.rule_vacates htakes hg' s.built)
      obtain ⟨rfl⟩ := hone [g'] (congrArg State.built hvacant)
      exact ⟨hg', by rw [hvacant], rfl⟩

end SwiftTree.Grammar
