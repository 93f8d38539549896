import SwiftTree.Grammar.Run
import SwiftTree.Proofs.Progress.Operands

/-!
# Statements move on, and with them all goals

There is one lemma for each rule, in the order of the grammar. A statement is entered by its
keyword, and an item of a list where one starts; what starts none is skipped, one token at least.
With the rules of statements all goals meet their conditions (`Goal.rule_wp`).
-/

namespace SwiftTree.Grammar

open Grammar.Parser

variable {test : Ahead → Prop} {rank : Nat}

/-! ## Bodies and conditions -/

theorem bodyBlock_steady : bodyBlock.Steady test rank :=
  .seq (.ifAhead skipUntil_steady) fun _ => codeBlock_steady

theorem condition_steady (hr : 5 < rank) : condition.Steady test rank := by
  refine .branch (.node (.seq .advance fun _ => ?_)) (.branch (.node ?_) ?_)
  · refine .seq (.visit_steady fun _ _ => Nat.zero_lt_of_lt hr) fun _ => ?_
    refine .seq (.ifAhead (typeClause_steady (Nat.lt_trans (by decide) hr))) fun _ => ?_
    exact .ifAhead (initializer_takes fun _ h => h.2).steady
  · refine .behind (.advance_takes fun _ h => Ahead.ne_nil_of_isAt (by decide) h.2) fun _ => ?_
    refine .seq .visitAny fun _ => .seq (.ifAhead (typeClause_steady (by decide))) fun _ => ?_
    exact .seq .require fun _ => expr_steady (by decide)
  · exact expr_steady hr

theorem conditionList_steady (hr : 5 < rank) : conditionList.Steady test rank :=
  .node (.commaList (condition_steady hr))

theorem whereClause_steady {mode : Mode} : (whereClause mode).Steady test rank := by
  refine .ifAhead (.node (.behind (.advance_takes fun _ h => ?_) fun _ => ?_))
  · exact Ahead.ne_nil_of_isAt (by decide) h.2
  · exact expr_steady (by decide)

/-! ## Control flow -/

theorem ifStatement_takes (h : ∀ ts, test ts → ts ≠ []) : ifStatement.Takes test rank := by
  refine .node (.andThen (.advance_takes h) fun _ => .seq (conditionList_steady (by decide)) ?_)
  refine fun _ => .seq bodyBlock_steady fun _ => .andThenIf (.eat (by decide)) ?_ (.pure ())
  exact .branch .visitAny bodyBlock_steady

theorem guardStatement_takes (h : ∀ ts, test ts → ts ≠ []) : guardStatement.Takes test rank := by
  refine .node (.andThen (.advance_takes h) fun _ => .seq (conditionList_steady (by decide)) ?_)
  exact fun _ => .seq .require fun _ => bodyBlock_steady

theorem catchClause_takes (h : ∀ ts, test ts → ts ≠ []) : catchClause.Takes test rank := by
  refine .node (.andThen (.advance_takes h) fun _ => .seq (.ifAhead (.node ?_)) fun _ => ?_)
  · exact .commaList (.seq .visitAny fun _ => whereClause_steady)
  · exact bodyBlock_steady

theorem doStatement_takes (h : ∀ ts, test ts → ts ≠ []) : doStatement.Takes test rank := by
  refine .node (.andThen (.advance_takes h) fun _ => .seq bodyBlock_steady fun _ => .whileAhead ?_)
  exact catchClause_takes fun _ => Ahead.ne_nil_of_isAt (by decide)

theorem forHeader_steady : forHeader.Steady test Goal.top := by
  refine .seq .skip fun _ => .seq (Parser.Moves.eatWord).steady fun _ => ?_
  refine .seq (.andThenIf (.eat (by decide)) .visitAny .visitAny) fun _ => ?_
  refine .seq (.ifAhead (typeClause_steady (by decide))) fun _ => .seq .require fun _ => ?_
  exact .seq (expr_steady (by decide)) fun _ => whereClause_steady

theorem removedCStyleFor_steady {word : Span} : (removedCStyleFor word).Steady test rank :=
  .look fun _ => .seq skippedUntil_steady fun _ => .onlyIf .override

theorem forStatement_takes (h : ∀ ts, test ts → ts ≠ []) : forStatement.Takes test rank := by
  refine .node (.look fun _ => .andThen (.advance_takes fun ts hts => h ts hts.1) fun _ => ?_)
  refine .branch ?_ ?_
  · exact .seq removedCStyleFor_steady fun _ => codeBlock_steady
  · exact .seq forHeader_steady fun _ => bodyBlock_steady

theorem whileStatement_takes (h : ∀ ts, test ts → ts ≠ []) : whileStatement.Takes test rank := by
  refine .node (.andThen (.advance_takes h) fun _ => ?_)
  exact .seq (conditionList_steady (by decide)) fun _ => bodyBlock_steady

theorem repeatStatement_takes (h : ∀ ts, test ts → ts ≠ []) : repeatStatement.Takes test rank := by
  refine .node (.andThen (.advance_takes h) fun _ => .seq bodyBlock_steady fun _ => ?_)
  exact .seq .require fun _ => expr_steady (by decide)

theorem returnStatement_steady (hr : 5 < rank) : returnStatement.Steady test rank :=
  .node (.seq .require fun _ => .ifAhead (expr_steady hr))

theorem returnStatement_takes (h : ∀ ts, test ts → ts.isAt .returnKw) :
    returnStatement.Takes test rank :=
  .node (.andThen (.require_takes h) fun _ => .ifAhead (expr_steady (by decide)))

theorem jumpStatement_takes {kind : Kind} {hk : kind.isConstruct} (h : ∀ ts, test ts → ts ≠ []) :
    (jumpStatement kind hk).Takes test rank :=
  .node (.andThen (.advance_takes h) fun _ => .ifAhead .advance)

/-! ## `switch` -/

theorem caseItems_steady : Parser.Steady test Goal.top (node .caseItemList do
    commaList .caseItem (fun _ => false) do
      visit (.casePattern .plain)
      whereClause .plain) :=
  .node (.commaList (.seq .visitAny fun _ => whereClause_steady))

theorem caseLabel_steady : caseLabel.Steady test Goal.top := by
  refine .nodeBy (.andThenIf (.eat (by decide)) (.seq caseItems_steady fun _ => ?_) ?_)
  · exact .seq .require fun _ => .pure _
  · exact .seq .require fun _ => .seq .require fun _ => .pure _

/-- A label takes its keyword. -/
theorem caseLabel_takes (h : ∀ ts, test ts → ts.isAt .caseKw ∨ ts.isAt .defaultKw) :
    caseLabel.Takes test rank := by
  refine .nodeBy (.eatThen (by decide) ?_ (.andThen (.require_takes ?_) ?_))
  · exact .seq caseItems_steady fun _ => .seq .require fun _ => .pure _
  · exact fun ts hts => (h ts hts.1).resolve_left (ne_true_of_eq_false hts.2)
  · exact fun _ => .seq .require fun _ => .pure _

/-- A case takes the attributes of its label, or the keyword. -/
theorem switchCase_takes (h : ∀ ts, test ts → ts.startsCase) : switchCase.Takes test rank := by
  refine .node (.ifAheadThen (attributeList_takes fun _ h => h.2) ?_ ?_)
  · refine .andThen (caseLabel_takes fun ts hts => ?_) fun _ => .visitAny
    have hcase := h ts hts.1
    rw [Ahead.startsCase, hts.2, Bool.false_and, Bool.or_false, Bool.or_eq_true] at hcase
    exact hcase
  · exact .seq caseLabel_steady fun _ => .visitAny

theorem ifConfigClause_takes {content : Goal} (h : ∀ ts, test ts → ts ≠ []) :
    (ifConfigClause content).Takes test rank := by
  refine .node (.look fun b => .andThen (.advance_takes fun ts hts => h ts hts.1) fun _ => ?_)
  exact .seq (.onlyIf (expr_steady (by decide))) fun _ => .visitAny

theorem ifConfig_takes {content : Goal} (h : ∀ ts, test ts → ts ≠ []) :
    (ifConfig content).Takes test rank := by
  refine .node (.andThen (ifConfigClause_takes h) fun _ => .seq (.whileAhead ?_) fun _ => .require)
  refine ifConfigClause_takes fun ts hts => ?_
  rcases Bool.or_eq_true _ _ |>.mp hts with hk | hk
  · exact Ahead.ne_nil_of_isAt (by decide) hk
  · exact Ahead.ne_nil_of_isAt (by decide) hk

/-- An item of a `switch` takes something, be it a token that belongs nowhere. -/
theorem caseItem_takes (h : ∀ ts, test ts → ts ≠ []) : caseItem.Takes test rank := by
  refine .branch (switchCase_takes fun _ h => h.2) (.branch (ifConfig_takes ?_) ?_)
  · exact fun ts hts => h ts hts.1.1
  · exact skipStatement_takes fun ts hts => h ts hts.1.1

theorem switchCasesRule_steady {inDirective : Bool} :
    (switchCasesRule inDirective).Steady test rank := by
  refine .node (.whileAhead (caseItem_takes ?_))
  rintro _ h rfl
  exact Bool.false_ne_true h

theorem switchStatement_takes (h : ∀ ts, test ts → ts ≠ []) : switchStatement.Takes test rank := by
  refine .node (.andThen (.advance_takes h) fun _ => .seq (expr_steady (by decide)) fun _ => ?_)
  refine .andThenIf .expect ?_ ?_
  · exact .seq .visitAny fun _ => .require
  · exact .seq .emptyNode fun _ => .missing

/-! ## Any statement -/

/-- Where an item starts that is nothing else, an expression does. -/
theorem Ahead.startsExpr_of_startsItem {ts : Ahead} (h : ts.startsItem)
    (hk : ts.isIn statementKeywords = false) : ts.startsExpr := by
  rw [startsItem, startsStatement, hk, Bool.false_or, Bool.and_eq_true] at h
  exact h.1

theorem labeledStatement_takes (h : ∀ ts, test ts → ts ≠ []) :
    Parser.Takes test rank (node .labeledStmt do
      advanceBy 2
      visit .statement) := .node (.andThen (.advanceBy_takes h) fun _ => .visitAny)

/-- A statement takes something where an item of a list starts. The keyword is taken before anything
is called; an expression comes before statements in the order. -/
theorem statementRule_moves {n : Nat} (hr : 5 < rank) (hn : n ≤ 1)
    (h : ∀ ts, test ts → 0 < n → ts.startsItem) : statementRule.Moves test rank fun _ => n := by
  have ne {k : Kind} (hk : k ≠ .endOfFile) (ts : Ahead) (hts : test ts ∧ ts.kind = k) : ts ≠ [] :=
    Ahead.ne_nil_of_kind_eq hk hts.2
  refine .look fun kind => ?_
  split
  · exact .upTo (ifStatement_takes (ne (by decide))) hn
  · exact .upTo (guardStatement_takes (ne (by decide))) hn
  · exact .upTo (switchStatement_takes (ne (by decide))) hn
  · exact .upTo (doStatement_takes (ne (by decide))) hn
  · exact .upTo (forStatement_takes (ne (by decide))) hn
  · exact .upTo (whileStatement_takes (ne (by decide))) hn
  · exact .upTo (repeatStatement_takes (ne (by decide))) hn
  · exact .upTo (returnStatement_takes fun ts hts => beq_iff_eq.mpr hts.2) hn
  · exact .upTo (jumpStatement_takes (ne (by decide))) hn
  · exact .upTo (jumpStatement_takes (ne (by decide))) hn
  · refine .upTo (.node (.andThen (.advance_takes (ne (by decide))) fun _ => ?_)) hn
    exact expr_steady (by decide)
  · refine .upTo (.node (.andThen (.advance_takes (ne (by decide))) fun _ => ?_)) hn
    exact bodyBlock_steady
  · exact .upTo (tokenNode_takes (ne (by decide))) hn
  · exact .upTo (ifConfig_takes (ne (by decide))) hn
  · exact .upTo (decl_takes fun ts hts => Ahead.startsDecl_of_keyword (.inl hts.2)) hn
  · exact .upTo (decl_takes fun ts hts => Ahead.startsDecl_of_keyword (.inr (.inl hts.2))) hn
  · exact .upTo (decl_takes fun ts hts => Ahead.startsDecl_of_keyword (.inr (.inr hts.2))) hn
  refine .branch (.upTo (decl_takes fun ts hts => ?_) hn) ?_
  · exact (Bool.and_eq_true _ _ |>.mp hts.2).2
  refine .branch (.upTo (labeledStatement_takes fun ts hts => ?_) hn) ?_
  · have hlabel := hts.2
    simp only [Ahead.isLabeledStatement, Bool.and_eq_true] at hlabel
    exact Ahead.ne_nil_of_isAt (by decide) hlabel.1.1
  -- what is left is an expression, since no keyword of a statement stands here
  refine expr_moves hr hn fun ts hts hpos => ?_
  refine Ahead.startsExpr_of_startsItem (h ts hts.1.1.1 hpos) ?_
  rw [Ahead.isIn, hts.1.1.2, Ahead.statementKeywords, KindSet.contains_ofList,
    List.contains_eq_mem]
  refine decide_eq_false fun hmem => ?_
  simp only [List.mem_cons, List.not_mem_nil, or_false] at hmem
  clear h ne
  grind

theorem item_takes {body : Body} (hr : 7 < rank) (h : ∀ ts, test ts → ts ≠ []) :
    (item body).Takes test rank := by
  refine .eatThen (by decide) (.pure ()) (.branch (.visit_takes (fun _ _ => hr) fun _ h => h.2) ?_)
  exact skipStatement_takes fun ts hts => h ts hts.1.1

/-- Statements only end where their body does. -/
theorem statementsRule_wp {body : Body} {start : Ahead} {r : Nat} {ts : Ahead}
    (hallow : start.Allows r 8 ts) :
    (statementsRule body).wp start r ts fun _ us => ts.Onward us ∧ us.endsBody body := by
  refine wp_mono (p := whileAhead _ _) (Moves.wp_whileAhead (item_takes (by decide) ?_) hallow) ?_
  · rintro _ h rfl
    exact Bool.false_ne_true h
  · rintro _ us ⟨hus, hends⟩
    exact ⟨hus, by simpa using hends⟩

/-! ## All goals -/

theorem complete_moves {p : Parser Unit} {n : Nat} (h : p.Moves test rank fun _ => n) :
    (complete p).Moves test rank fun _ => n := .thenSteady h fun _ => .pure _

/-- A goal whose rule moves on is reached. -/
theorem Goal.wp_of_moves {g : Goal} {ts : Ahead} (hg : ∀ body, g ≠ .statements body)
    (h : g.rule.Moves (fun us => us = ts) (g.rank ts) fun _ => (g.takes ts).toNat) :
    g.rule.wp ts (g.rank ts) ts fun _ us => g.Reaches ts us := by
  refine wp_mono (h ts (g.rank ts) ts rfl (.inr ⟨rfl, Nat.le_refl _⟩)) ?_
  rintro _ us ⟨hus, hgain⟩
  refine ⟨hus, fun ht => ?_, fun body hb => absurd hb (hg body)⟩
  rw [ht] at hgain
  exact hgain

/-- A closure that starts with its brace takes it before it calls anything. Without the brace it may
call what it likes, since it is the last one in the order then. -/
theorem closureRule_wp (ts : Ahead) :
    (Goal.rule .closure).wp ts
    (Goal.rank .closure ts) ts fun _ us => Goal.Reaches .closure ts us := by
  refine Goal.wp_of_moves nofun (complete_moves ?_)
  cases hb : ts.isAt .leftBrace with
  | true =>
    refine (closureRule_takes ?_).upTo (Bool.toNat_le _)
    rintro _ rfl
    exact hb
  | false =>
    rw [Goal.rank, Goal.takes, hb]
    exact closureRule_steady (by decide)

/-- **Every goal is reached.** The rule of a goal does what is promised of the goal, and until it
has taken something it only calls goals that come before its own. -/
theorem Goal.rule_wp (g : Goal) (ts : Ahead) :
    g.rule.wp ts (g.rank ts) ts fun _ us => g.Reaches ts us := by
  have starts {p : Ahead → Bool} : ∀ us, us = ts → 0 < (p ts).toNat → p us := by
    rintro _ rfl h
    exact Bool.toNat_eq_one.mp (Nat.le_antisymm (Bool.toNat_le _) h)
  cases g with
  | sequence mode power =>
    exact wp_of_moves nofun (sequenceRule_moves (Nat.lt_succ_self 4) (Bool.toNat_le _) starts)
  | unary mode power =>
    exact wp_of_moves nofun (unaryRule_moves (Nat.lt_succ_self 3) (Bool.toNat_le _) starts)
  | operand mode =>
    exact wp_of_moves nofun (operandRule_moves (Nat.lt_succ_self 2) (Bool.toNat_le _) starts)
  | closure => exact closureRule_wp ts
  | type =>
    refine wp_of_moves nofun (complete_moves ?_)
    exact typeRule_moves (Nat.lt_succ_self 1) (Bool.toNat_le _) starts
  | plainType =>
    exact wp_of_moves nofun (complete_moves (plainTypeRule_moves (Bool.toNat_le _) starts))
  | pattern => exact wp_of_moves nofun (complete_moves (patternRule_moves (Bool.toNat_le _) starts))
  | casePattern mode =>
    refine wp_of_moves nofun (complete_moves ?_)
    exact casePatternRule_moves (Nat.lt_succ_self 5) (Bool.toNat_le _) starts
  | statement =>
    refine wp_of_moves nofun (complete_moves ?_)
    exact statementRule_moves (Nat.lt_trans (Nat.lt_succ_self 5) (Nat.lt_succ_self 6))
      (Bool.toNat_le _) starts
  | statements body =>
    rw [rule, complete, wp_bind]
    refine wp_mono (statementsRule_wp (.inr ⟨rfl, Nat.le_refl _⟩)) ?_
    rintro _ us ⟨hus, hends⟩
    refine ⟨hus, nofun, ?_⟩
    rintro _ ⟨⟩
    exact hends
  | switchCases inDirective => exact wp_of_moves nofun (complete_moves switchCasesRule_steady)

end SwiftTree.Grammar
