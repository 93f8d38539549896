import SwiftTree.Grammar.Run
import SwiftTree.Proofs.Stability.Operands

/-!
# Statements, and whatever goals give, do not depend on the end

A list of statements ends at a closing brace, or with the file. Both end it, so what was read in
front of the end is read in front of the brace as well. The scans for the cases of a conditional
block, for the brace of a body and for the clauses of a loop are shown to stop at either. With the
rules of statements all goals are stable (`Goal.rule_stable`).
-/

namespace SwiftTree.Grammar

open Grammar.Parser

variable {mode : Mode}

/-! ## Looks at statements -/

namespace Ahead.Agrees

variable {P : Ahead → Prop}

/-- A case starts behind attributes, which a closing brace is no part of. -/
theorem startsCase : Agrees P Ahead.startsCase := by
  refine .or (.or (isAt _ rfl) (isAt _ rfl)) (.and (isAt _ rfl) fun ts us hb _ => ?_)
  rcases hb.afterAttributes with h | ⟨hnil, hnil'⟩
  · have hword : Sealed fun ts => ts.isAt .caseKw || ts.isAt .defaultKw :=
      .or (isAt _ rfl) (isAt _ rfl)
    exact hword h trivial
  · rw [hnil, hnil']

/-- The scan for `case` and `default` in a conditional block has the same answer at a closing brace
as at the end of the file, whether a brace is open there or not. -/
theorem isCaseBlock : Agrees P Ahead.isCaseBlock := by
  have hscan : Sealed (blockCases.answer ⟨0, 0⟩) := by
    refine Scan.sealed_answer _ (fun s x y ts us halike _ => ?_) fun s b hb => ?_
    · simp only [blockCases, halike.kind]
    · rw [Scan.answer, Scan.run]
      simp only [blockCases, hb.kind]
      cases s.braces == 0 <;> rfl
  exact .and (isAt _ rfl) hscan.tail

variable {body : Body}

/-- A body ends at a closing brace, and at the end of the file. As long as tokens are left, this is
asked of the next one. -/
theorem endsBody : Blind (Ahead.endsBody body) := by
  refine .or (.or (.or isAtAny ?_) ?_) ?_
  · exact .and (.const _) (isAtAny.mono fun _ h => h.1)
  · exact .and (.const _) (isInAny.mono fun _ h => h.1)
  · exact .and (.const _) (.or startsCase isCaseBlock)

theorem endsCases {inDirective : Bool} : Blind (Ahead.endsCases inDirective) :=
  .or (.or isAtAny isAtAny) (.and (.const _) (isInAny.mono fun _ h => h.1))

/-- The look for the brace of a body on the line has the same answer at a closing brace as at the
end of the file. -/
theorem braceOnLine : Agrees P Ahead.braceOnLine := by
  have hscan : Sealed (lineBrace.answer ⟨0, true⟩) := by
    refine Scan.sealed_answer _ (fun s x y ts us halike _ => ?_) fun s b hb => ?_
    · simp only [lineBrace, halike.kind, halike.atLineStart]
    · rw [Scan.answer, Scan.run]
      simp only [lineBrace, hb.kind]
      rfl
  exact hscan.any

/-- The clauses of a C-style loop are looked for up to the brace of the body. -/
theorem isCStyleLoop : Agrees P Ahead.isCStyleLoop := by
  have hscan : Sealed (loopClauses.answer 0) := by
    refine Scan.sealed_answer _ (fun depth x y ts us halike _ => ?_) fun depth b hb => ?_
    · simp only [loopClauses, halike.kind]
    · rw [Scan.answer, Scan.run]
      simp only [loopClauses, hb.kind]
  exact hscan.any

/-- A label is followed by a statement that can have one. -/
theorem isLabeledStatement : Agrees P Ahead.isLabeledStatement := by
  have hcolon : Sealed fun ts => ts.isAt .colon := isAt _ rfl
  have hstatement : Sealed (Ahead.isIn labeledKeywords) := isIn _ rfl
  exact .and (.and (isAt _ rfl) (hcolon.drop 1)) (hstatement.drop 2)

end Ahead.Agrees

/-! ## Statement lists and bodies -/

variable {body : Body}

theorem item_stable : (item body).Stable := by
  refine .bind .eat fun _ => .ite (.pure ()) (.branch .startsItem (.visit _) ?_)
  exact skipStatement_stable

theorem statementsRule_stable : (statementsRule body).Stable :=
  .node (.whileAhead (.not .endsBody) item_stable)

theorem bodyBlock_stable : bodyBlock.Stable := by
  refine .bind (.ifAhead (.and (.not .isAtAny) .braceOnLine) skipUntil_stable) fun _ => ?_
  exact codeBlock_stable

/-! ## Conditions -/

theorem condition_stable : condition.Stable := by
  refine .branch (.or .isAtAny .isAtAny) (.node ?_) (.branch .isAtAny (.node ?_) expr_stable)
  · refine .bind .advance fun _ => .bind (.visit _) fun _ => ?_
    exact .bind (.ifAt typeClause_stable) fun _ => .ifAt initializer_stable
  · refine .bind .advance fun _ => .bind (.visit _) fun _ => ?_
    exact .bind (.ifAt typeClause_stable) fun _ => .bind .require fun _ => expr_stable

theorem conditionList_stable : conditionList.Stable :=
  .node (.commaList (.const _) condition_stable)

theorem whereClause_stable : (whereClause mode).Stable :=
  .ifAt (.node (.bind .advance fun _ => expr_stable))

/-! ## Control flow -/

theorem ifStatement_stable : ifStatement.Stable := by
  refine .node (.bind .advance fun _ => .bind conditionList_stable fun _ => ?_)
  refine .bind bodyBlock_stable fun _ => .bind .eat fun _ => .ite ?_ (.pure ())
  exact .branch .isAtAny (.visit _) bodyBlock_stable

theorem guardStatement_stable : guardStatement.Stable := by
  refine .node (.bind .advance fun _ => .bind conditionList_stable fun _ => ?_)
  exact .bind .require fun _ => bodyBlock_stable

theorem catchClause_stable : catchClause.Stable := by
  refine .node (.bind .advance fun _ => .bind (.unlessAt (.node ?_)) fun _ => bodyBlock_stable)
  exact .commaList (.const _) (.bind (.visit _) fun _ => whereClause_stable)

theorem doStatement_stable : doStatement.Stable := by
  refine .node (.bind .advance fun _ => .bind bodyBlock_stable fun _ => ?_)
  exact .whileAhead .isAtAny catchClause_stable

theorem forHeader_stable : forHeader.Stable := by
  refine .bind .skip fun _ => .bind .eatWord fun _ => .bind ?_ fun _ => ?_
  · exact .bind .eat fun _ => .ite (.visit _) (.visit _)
  · refine .bind (.ifAt typeClause_stable) fun _ => .bind .require fun _ => ?_
    exact .bind expr_stable fun _ => whereClause_stable

/-- Where a C-style loop stands is only noted, so it may be left out. -/
theorem forStatement_stable : forStatement.Stable := by
  refine .of_agrees (fun _ _ _ _ _ => run_forStatement) (.node (.bind .advance fun _ => ?_))
  refine .branch .isCStyleLoop ?_ ?_
  · exact .bind skipUntil_stable fun _ => codeBlock_stable
  · exact .bind forHeader_stable fun _ => bodyBlock_stable

theorem whileStatement_stable : whileStatement.Stable := by
  refine .node (.bind .advance fun _ => .bind conditionList_stable fun _ => ?_)
  exact bodyBlock_stable

theorem repeatStatement_stable : repeatStatement.Stable := by
  refine .node (.bind .advance fun _ => .bind bodyBlock_stable fun _ => ?_)
  exact .bind .require fun _ => expr_stable

theorem returnStatement_stable : returnStatement.Stable :=
  .node (.bind .require fun _ => .ifAhead .startsExpr expr_stable)

theorem jumpStatement_stable {kind : Kind} {hk : kind.isConstruct} :
    (jumpStatement kind hk).Stable := by
  refine .node (.bind .advance fun _ => .ifAhead (.and .isAtAny (.not ?_)) .advance)
  exact .atLineStart fun _ h => h.1

/-! ## `switch` and conditional compilation -/

theorem caseLabel_stable : caseLabel.Stable := by
  refine .nodeBy (.bind .eat fun _ => .ite (.bind (.node ?_) fun _ => ?_) ?_)
  · exact .commaList (.const _) (.bind (.visit _) fun _ => whereClause_stable)
  · exact .bind .require fun _ => .pure _
  · exact .bind .require fun _ => .bind .require fun _ => .pure _

theorem switchCase_stable : switchCase.Stable :=
  .node (.bind attributes_stable fun _ => .bind caseLabel_stable fun _ => .visit _)

theorem ifConfigClause_stable {content : Goal} : (ifConfigClause content).Stable := by
  refine .node (.look .isAtAny fun unconditional => .bind .advance fun _ => ?_)
  exact .bind (.onlyIf expr_stable) fun _ => .visit _

theorem ifConfigClauses_stable {content : Goal} :
    (whileAhead (fun ts => ts.isAt .poundElseif || ts.isAt .poundElse)
      (ifConfigClause content)).Stable :=
  .whileAhead (.or .isAtAny .isAtAny) ifConfigClause_stable

theorem ifConfig_stable {content : Goal} : (ifConfig content).Stable :=
  .node (.bind ifConfigClause_stable fun _ => .bind ifConfigClauses_stable fun _ => .require)

theorem caseItem_stable : caseItem.Stable := by
  refine .branch .startsCase switchCase_stable (.branch .isAtAny ifConfig_stable ?_)
  exact skipStatement_stable

theorem switchCasesRule_stable {inDirective : Bool} : (switchCasesRule inDirective).Stable :=
  .node (.whileAhead (.not .endsCases) caseItem_stable)

theorem switchStatement_stable : switchStatement.Stable := by
  refine .node (.bind .advance fun _ => .bind expr_stable fun _ => .bind .expect fun _ =>
    .ite ?_ ?_)
  · exact .bind (.visit _) fun _ => .require
  · exact .bind .emptyNode fun _ => .missing

/-! ## Any statement -/

theorem statementRule_stable : statementRule.Stable := by
  refine .look (.kind fun _ => id) fun kind => ?_
  split
  · exact ifStatement_stable
  · exact guardStatement_stable
  · exact switchStatement_stable
  · exact doStatement_stable
  · exact forStatement_stable
  · exact whileStatement_stable
  · exact repeatStatement_stable
  · exact returnStatement_stable
  iterate 2 exact jumpStatement_stable
  · exact .node (.bind .advance fun _ => expr_stable)
  · exact .node (.bind .advance fun _ => bodyBlock_stable)
  · exact tokenNode_stable
  · exact ifConfig_stable
  iterate 3 exact decl_stable
  · refine .branch (.and (.or .isAtAny .isAtAny) .startsDecl) decl_stable ?_
    refine .branch .isLabeledStatement (.node ?_) expr_stable
    exact .bind (.advanceBy 2) fun _ => .visit _

/-! ## Goals -/

/-- **No rule depends on what stands behind the tokens that it finds what it wants in.** There is
one case for each goal. -/
theorem Goal.rule_stable (g : Goal) : g.rule.Stable := by
  cases g with
  | sequence mode power => exact sequenceRule_stable
  | unary mode power => exact unaryRule_stable
  | operand mode => exact operandRule_stable
  | closure => exact .complete closureRule_stable
  | type => exact .complete typeRule_stable
  | plainType => exact .complete plainTypeRule_stable
  | pattern => exact .complete patternRule_stable
  | casePattern mode => exact .complete casePatternRule_stable
  | statement => exact .complete statementRule_stable
  | statements body => exact .complete statementsRule_stable
  | switchCases inDirective => exact .complete switchCasesRule_stable

end SwiftTree.Grammar
