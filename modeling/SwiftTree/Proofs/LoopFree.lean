import SwiftTree.Proofs.LoopParts
import SwiftTree.Proofs.Without

/-!
# Only one rule makes loops

No rule makes a `for` statement but the one for these, and with it the one that stands for any
statement. There is a lemma for each rule, in the order of the grammar. What is left of the rule of
all statements are those that start with another word (`exists_statement`), and what is left of the
one of loops is what they are made of (`forParts_loopFree`). So no goal but a statement makes a loop
itself (`Goal.rule_loopFree`).

The lemmas all have the form of the rules they are about: each part of a rule makes no loop, and the
kind of a node is compared where one is made. Only where a rule chooses the kind by what it reads,
the kinds in question are gone through.
-/

namespace SwiftTree.Grammar

open Grammar.Parser

/-! ### Recovery -/

theorem skippedUntil_loopFree {stop : KindSet} : (skippedUntil stop).LoopFree := by
  refine .look fun n => ?_
  cases n with
  | zero => exact .done
  | succ n => exact .bind (.unexpected rfl) fun _ => .done

theorem skipUntil_loopFree {stop : KindSet} : (skipUntil stop).LoopFree :=
  .bind skippedUntil_loopFree fun _ => .done

theorem skipToCloser_loopFree {closer : Kind} {barriers : KindSet} :
    (skipToCloser closer barriers).LoopFree := .ifAhead skipUntil_loopFree

theorem skipStatement_loopFree {boundary : Ahead → Bool} : (skipStatement boundary).LoopFree :=
  .look fun _ => .unexpected rfl

/-! ### Attributes -/

theorem attributeArguments_loopFree : attributeArguments.LoopFree := by
  refine .node rfl (.bind .advance fun _ => .look fun n => ?_)
  exact .bind (.advanceBy n) fun _ => .require

theorem attributeName_loopFree : attributeName.LoopFree := .branch .advance .missing

theorem singleAttribute_loopFree : singleAttribute.LoopFree := by
  refine .node rfl (.bind .advance fun _ => .bind attributeName_loopFree fun _ => ?_)
  exact .ifAhead attributeArguments_loopFree

theorem attributeList_loopFree : attributeList.LoopFree :=
  .node rfl (.whileAhead singleAttribute_loopFree)

theorem attributes_loopFree : attributes.LoopFree := .ifAhead attributeList_loopFree

/-! ### Types -/

theorem type_loopFree : type.LoopFree := .visit _

theorem takeHead_loopFree {head : Kind} {h : head.isSolid} : (takeHead head h).LoopFree :=
  .look fun _ => .bind .splitHead fun _ => .advanceAs

theorem genericArgumentClause_loopFree : genericArgumentClause.LoopFree := by
  refine .node rfl (.bind takeHead_loopFree fun _ => .bind ?_ fun _ => ?_)
  · exact .commaList rfl type_loopFree
  · exact .branch takeHead_loopFree .missing

theorem genericArguments_loopFree : genericArguments.LoopFree :=
  .ifAhead genericArgumentClause_loopFree

theorem namedType_loopFree : namedType.LoopFree :=
  .node rfl (.bind .advance fun _ => genericArguments_loopFree)

theorem memberTypes_loopFree : memberTypes.LoopFree := by
  refine .whileAhead (.enclose rfl ?_)
  exact .bind .advance fun _ => .bind .advance fun _ => genericArguments_loopFree

/-- What makes a type optional is no loop. -/
theorem Ahead.ne_forStmt_of_optionalSuffix {ts : Ahead} {kind : Construct}
    (h : ts.optionalSuffix? = some kind) : kind.1 != .forStmt := by
  unfold optionalSuffix? at h
  split at h
  · split at h
    · exact Option.some.inj h ▸ rfl
    · exact Option.some.inj h ▸ rfl
    · cases h
  · cases h

theorem optionalSuffixes_loopFree : optionalSuffixes.LoopFree := by
  refine .repeatWhile (.lookAt fun ts => ?_)
  split
  · exact .done
  · rename_i kind hkind
    have hloop := Ahead.ne_forStmt_of_optionalSuffix hkind
    exact .bind .splitHead fun _ => .bind (.enclose hloop .advance) fun _ => .done

theorem collectionType_loopFree : collectionType.LoopFree := by
  refine .nodeBy (.bind .advance fun _ => .bind type_loopFree fun _ => .bind .eat fun _ => ?_)
  refine .bind (.onlyIf type_loopFree) fun _ => .bind skipToCloser_loopFree fun _ => ?_
  refine .bind .require fun _ => .pure ?_
  split <;> rfl

theorem effect_loopFree : effect.LoopFree :=
  .bind .eatWord fun _ => .ite .done (.bind .eat fun _ => .ite .done .eat)

theorem effectSpecifiers_loopFree : effectSpecifiers.LoopFree :=
  .ifAhead (.node rfl (.repeatWhile effect_loopFree))

theorem tupleTypeLabels_loopFree : tupleTypeLabels.LoopFree :=
  .branch (.advanceBy 2) (.ifAhead (.advanceBy 3))

theorem tupleOrFunctionType_loopFree : tupleOrFunctionType.LoopFree := by
  refine .nodeBy (.bind .advance fun _ => .bind (.ifAhead (.commaList rfl ?_)) fun _ => ?_)
  · refine .bind tupleTypeLabels_loopFree fun _ => .bind type_loopFree fun _ => ?_
    exact .ifAhead .advance
  · refine .bind skipToCloser_loopFree fun _ => .bind .require fun _ => ?_
    refine .branch ?_ (.pure rfl)
    refine .bind effectSpecifiers_loopFree fun _ => .bind .require fun _ => ?_
    exact .bind type_loopFree fun _ => .pure rfl

theorem someOrAny_loopFree : someOrAny.LoopFree := .branch .advanceAs .advanceAs

theorem plainTypeRule_loopFree : plainTypeRule.LoopFree := by
  refine .branch (.node rfl ?_) (.branch (.node rfl ?_) ?_)
  · exact .bind attributes_loopFree fun _ => .bind .skip fun _ => .visit _
  · exact .bind someOrAny_loopFree fun _ => .visit _
  refine .branch ?_ (.branch ?_ (.branch ?_ (.placeholder rfl)))
  · refine .bind namedType_loopFree fun _ => .bind memberTypes_loopFree fun _ => ?_
    exact optionalSuffixes_loopFree
  · exact .bind collectionType_loopFree fun _ => optionalSuffixes_loopFree
  · exact .bind tupleOrFunctionType_loopFree fun _ => optionalSuffixes_loopFree

theorem typeRule_loopFree : typeRule.LoopFree := by
  refine .bind (.visit _) fun _ => .ifAhead (.enclose rfl (.whileAhead ?_))
  exact .bind .advance fun _ => .visit _

theorem typeClause_loopFree : typeClause.LoopFree :=
  .node rfl (.bind .require fun _ => type_loopFree)

theorem returnClause_loopFree : returnClause.LoopFree :=
  .node rfl (.bind .require fun _ => type_loopFree)

/-! ### Patterns -/

variable {mode : Mode}

theorem expr_loopFree : (expr mode).LoopFree := .visit _

theorem tokenNode_loopFree {kind : Kind} {hk : kind.isConstruct} (h : kind != .forStmt) :
    (tokenNode kind hk).LoopFree := .node h .advance

theorem label_loopFree : label.LoopFree := .ifAhead (.advanceBy 2)

theorem tuplePattern_loopFree : tuplePattern.LoopFree := by
  refine .node rfl (.bind .advance fun _ => .bind (.ifAhead ?_) fun _ => .require)
  refine .bind (.commaList rfl ?_) fun _ => skipToCloser_loopFree
  exact .bind label_loopFree fun _ => .visit _

theorem patternRule_loopFree : patternRule.LoopFree := by
  refine .look fun kind => ?_
  split
  iterate 2 exact tokenNode_loopFree rfl
  · exact tokenNode_loopFree rfl
  · exact tuplePattern_loopFree
  iterate 2 exact .node rfl (.bind .advance fun _ => .visit _)
  · exact .placeholder rfl

theorem valueBinding_loopFree : (valueBinding mode).LoopFree :=
  .node rfl (.bind .advance fun _ => .visit _)

theorem casePatternRule_loopFree : (casePatternRule mode).LoopFree := by
  refine .branch valueBinding_loopFree (.branch (.node rfl ?_) ?_)
  · exact .bind .advance fun _ => type_loopFree
  · refine .branch (tokenNode_loopFree rfl) ?_
    exact .branch (tokenNode_loopFree rfl) (.node rfl (.visit _))

/-! ### Declarations -/

theorem codeBlock_loopFree : codeBlock.LoopFree := by
  refine .node rfl (.bind .eat fun _ => .ite (.bind (.visit _) fun _ => .require) ?_)
  exact .bind .missing fun _ => .bind (.emptyNode rfl) fun _ => .missing

theorem initializer_loopFree : (initializer mode).LoopFree :=
  .node rfl (.bind .require fun _ => expr_loopFree)

variable {typed : Bool}

theorem parameterNames_loopFree : (parameterNames typed).LoopFree :=
  .branch (.bind .advance fun _ => .ifAhead .advance) (.ite .missing .done)

theorem parameterType_loopFree : (parameterType typed).LoopFree :=
  .ifAhead (.bind .require fun _ => type_loopFree)

theorem parameter_loopFree : (parameter typed).LoopFree := by
  refine .bind attributes_loopFree fun _ => .bind parameterNames_loopFree fun _ => ?_
  refine .bind parameterType_loopFree fun _ => .bind (.ifAhead .advance) fun _ => ?_
  exact .ifAhead (.node rfl (.bind .advance fun _ => expr_loopFree))

theorem parameterClause_loopFree : (parameterClause typed).LoopFree := by
  refine .node rfl (.bind .eat fun _ => .ite (.bind (.ifAhead ?_) fun _ => .require) ?_)
  · exact .bind (.commaList rfl parameter_loopFree) fun _ => skipToCloser_loopFree
  · exact .bind .missing fun _ => .missing

theorem patternBinding_loopFree : patternBinding.LoopFree := by
  refine .bind (.visit _) fun _ => .bind (.ifAhead typeClause_loopFree) fun _ => ?_
  exact .bind (.ifAhead initializer_loopFree) fun _ => .ifAhead codeBlock_loopFree

theorem variableParts_loopFree : variableParts.LoopFree := by
  refine .bind (.bind .eat fun _ => .ite .done .require) fun _ => ?_
  exact .node rfl (.commaList rfl patternBinding_loopFree)

theorem functionName_loopFree : functionName.LoopFree := .branch .advance .missing

theorem functionParts_loopFree : functionParts.LoopFree := by
  refine .bind .advance fun _ => .bind functionName_loopFree fun _ =>
    .bind (.node rfl ?_) fun _ => ?_
  · refine .bind parameterClause_loopFree fun _ => .bind effectSpecifiers_loopFree fun _ => ?_
    exact .ifAhead returnClause_loopFree
  · exact .ifAhead codeBlock_loopFree

theorem modifierWord_loopFree : modifierWord.LoopFree := by
  refine .bind .eatWord fun _ => .ite .done (.bind .eatWord fun _ => .ite .done ?_)
  exact .bind .eatWord fun _ => .ite .done .advance

theorem modifier_loopFree : modifier.LoopFree :=
  .node rfl (.look fun _ => .bind modifierWord_loopFree fun _ => .advanceBy _)

/-- The parts of a declaration make no loop, and the kind that they choose is that of a
declaration. -/
theorem declParts_without : declParts.Without .forStmt fun kind => kind.1 != .forStmt := by
  refine .branch (.bind functionParts_loopFree fun _ => .pure rfl) ?_
  exact .bind variableParts_loopFree fun _ => .pure rfl

theorem decl_loopFree : decl.LoopFree := by
  refine .nodeBy (.bind attributes_loopFree fun _ => .bind ?_ fun _ => ?_)
  · exact .whileAhead modifier_loopFree
  · exact .returns declParts_without fun _ hkind => hkind

/-! ### Closures and arguments -/

theorem captureSpecifier_loopFree : captureSpecifier.LoopFree := by
  refine .bind .eatWord fun _ => .ite .done (.bind .eatWord fun _ => .ifAhead ?_)
  exact .bind .advance fun _ => .bind .skip fun _ => .require

theorem captureClause_loopFree : captureClause.LoopFree := by
  refine .node rfl (.bind .advance fun _ => .bind (.ifAhead ?_) fun _ => .require)
  refine .bind (.commaList rfl ?_) fun _ => skipToCloser_loopFree
  refine .bind (.ifAhead captureSpecifier_loopFree) fun _ => ?_
  exact .bind (.ifAhead (.advanceBy 2)) fun _ => expr_loopFree

theorem closureParameters_loopFree : closureParameters.LoopFree := by
  refine .branch parameterClause_loopFree ?_
  exact .ifAhead (.node rfl (.commaList rfl .advance))

theorem closureSignature_loopFree : closureSignature.LoopFree := by
  refine .node rfl (.bind attributes_loopFree fun _ => ?_)
  refine .bind (.ifAhead captureClause_loopFree) fun _ => ?_
  refine .bind closureParameters_loopFree fun _ => .bind effectSpecifiers_loopFree fun _ => ?_
  exact .bind (.ifAhead returnClause_loopFree) fun _ => .require

theorem closureRule_loopFree : closureRule.LoopFree := by
  refine .node rfl (.bind .require fun _ => .bind ?_ fun _ => .bind (.visit _) fun _ => .require)
  exact .ifAhead closureSignature_loopFree

theorem argumentList_loopFree {closer : Kind} {barriers : KindSet} :
    (argumentList closer barriers mode).LoopFree := by
  refine .node rfl (.ifAhead (.bind (.commaList rfl ?_) fun _ => skipToCloser_loopFree))
  exact .bind label_loopFree fun _ => expr_loopFree

theorem trailingClosures_loopFree : trailingClosures.LoopFree := by
  refine .bind (.visit _) fun _ => .whileAhead (.node rfl ?_)
  exact .bind (.advanceBy 2) fun _ => .visit _

theorem optionalTrailingClosures_loopFree : (optionalTrailingClosures mode).LoopFree :=
  .ifAhead trailingClosures_loopFree

/-! ### Names -/

theorem memberName_loopFree : memberName.LoopFree := .branch .advance .missing

theorem specialize_loopFree : specialize.LoopFree :=
  .ifAhead (.enclose rfl genericArgumentClause_loopFree)

theorem identifier_loopFree : (identifier mode).LoopFree := by
  refine .branch (.node rfl (tokenNode_loopFree rfl)) ?_
  exact .bind (tokenNode_loopFree rfl) fun _ => specialize_loopFree

theorem implicitMember_loopFree : implicitMember.LoopFree :=
  .bind (.node rfl (.bind .advance fun _ => memberName_loopFree)) fun _ => specialize_loopFree

theorem typeExpr_loopFree : typeExpr.LoopFree := .node rfl type_loopFree

/-! ### String literals -/

theorem interpolation_loopFree : interpolation.LoopFree := by
  refine .node rfl (.bind .advance fun _ => .bind .require fun _ => ?_)
  exact .bind argumentList_loopFree fun _ => .require

theorem stringSegments_loopFree : stringSegments.LoopFree := by
  refine .node rfl (.repeatWhile (.branch (.bind .advance fun _ => .done) ?_))
  exact .branch (.bind interpolation_loopFree fun _ => .done) .done

theorem openingQuote_loopFree : openingQuote.LoopFree := by
  refine .look fun quote => ?_
  cases quote with
  | some quote => exact .bind .advance fun _ => .done
  | none => exact .bind .missing fun _ => .done

theorem closingQuote_loopFree {pounds : Nat} {quote : SolidKind} :
    (closingQuote pounds quote).LoopFree := by
  refine .branch (.bind .advance fun _ => .onlyIf .require) ?_
  exact .bind .missing fun _ => .onlyIf .missingSpelled

theorem stringLiteral_loopFree : stringLiteral.LoopFree := by
  refine .node rfl (.look fun pounds => .bind .skip fun _ => ?_)
  refine .bind openingQuote_loopFree fun quote => ?_
  exact .bind stringSegments_loopFree fun _ => closingQuote_loopFree

/-! ### Tuples, arrays and dictionaries -/

theorem tuple_loopFree : (tuple mode).LoopFree := by
  refine .node rfl (.bind .advance fun _ => .bind (.node rfl (.ifAhead ?_)) fun _ => .require)
  refine .bind (.commaList rfl ?_) fun _ => skipToCloser_loopFree
  exact .bind label_loopFree fun _ => expr_loopFree

variable {dictionary : Bool}

theorem elementValue_loopFree : (elementValue dictionary mode).LoopFree :=
  .onlyIf (.bind .require fun _ => expr_loopFree)

theorem elementKind_ne_forStmt (dictionary : Bool) : (elementKind dictionary).1 != .forStmt := by
  cases dictionary <;> rfl

theorem firstElement_loopFree : (firstElement mode).LoopFree := by
  refine .nodeBy (.bind expr_loopFree fun _ => .look fun dictionary => ?_)
  refine .bind elementValue_loopFree fun _ => .bind .eat fun _ => .pure ?_
  exact elementKind_ne_forStmt dictionary

theorem moreElements_loopFree : (moreElements dictionary mode).LoopFree :=
  .commaList (elementKind_ne_forStmt dictionary)
    (.bind expr_loopFree fun _ => elementValue_loopFree)

theorem bracketElements_loopFree : (bracketElements mode).LoopFree := by
  refine .nodeBy (.bind firstElement_loopFree fun _ => .bind ?_ fun _ => ?_)
  · exact .ifAhead moreElements_loopFree
  · refine .bind skipToCloser_loopFree fun _ => .pure ?_
    split <;> rfl

theorem bracketLiteral_loopFree : (bracketLiteral mode).LoopFree := by
  refine .nodeBy (.bind .advance fun _ => .branch ?_ (.branch ?_ ?_))
  · exact .bind (.emptyNode rfl) fun _ => .bind .advance fun _ => .pure rfl
  · exact .bind .advance fun _ => .bind (.emptyNode rfl) fun _ => .bind .advance fun _ => .pure rfl
  · refine .bind bracketElements_loopFree fun _ => .bind .require fun _ => .pure ?_
    split <;> rfl

/-! ### Key paths and macros -/

theorem keyPathSubscript_loopFree : keyPathSubscript.LoopFree :=
  .bind .advance fun _ => .bind argumentList_loopFree fun _ => .require

theorem keyPathMember_loopFree : keyPathMember.LoopFree :=
  .bind .advance fun _ => .branch keyPathSubscript_loopFree memberName_loopFree

theorem keyPathComponent_loopFree : keyPathComponent.LoopFree := by
  refine .nodeIf rfl (.branch (.bind keyPathMember_loopFree fun _ => .done) ?_)
  refine .branch (.bind .advance fun _ => .done) (.branch ?_ .done)
  exact .bind keyPathSubscript_loopFree fun _ => .done

theorem keyPathComponents_loopFree : keyPathComponents.LoopFree :=
  .node rfl (.repeatWhile keyPathComponent_loopFree)

theorem keyPathRoot_loopFree : keyPathRoot.LoopFree := by
  refine .look fun kind => ?_
  split
  · exact .done
  iterate 2
    exact .bind namedType_loopFree fun _ => .bind optionalSuffixes_loopFree fun _ => .done
  · exact .bind tuple_loopFree fun _ => .done
  · exact .bind (.placeholder rfl) fun _ => .done

theorem keyPath_loopFree : keyPath.LoopFree := by
  refine .node rfl (.bind .advance fun _ => .bind keyPathRoot_loopFree fun named => ?_)
  exact .branch keyPathComponents_loopFree (.branch (.visit _) (.placeholder rfl))

theorem poundKeyPathPart_loopFree : poundKeyPathPart.LoopFree := by
  refine .bind (.branch .advance .missing) fun _ => .branch ?_ .done
  exact .bind .advance fun _ => .done

theorem poundKeyPath_loopFree : poundKeyPath.LoopFree := by
  refine .bind .expect fun _ => .ite ?_ .done
  exact .bind (.repeatWhile poundKeyPathPart_loopFree) fun _ => .require

theorem poundArguments_loopFree : (poundArguments mode).LoopFree := by
  refine .ifAhead (.bind .advance fun _ => ?_)
  exact .bind argumentList_loopFree fun _ => .require

theorem poundExpr_loopFree : (poundExpr mode).LoopFree := by
  refine .nodeBy (.look fun isKeyPath => .look fun isObject => .bind .advance fun _ => ?_)
  refine .bind (.ite poundKeyPath_loopFree poundArguments_loopFree) fun _ => .pure ?_
  split <;> rfl

/-! ### Operands -/

theorem primary_loopFree : (primary mode).LoopFree := by
  refine .look fun kind => .branch ?_ ?_
  · exact .bind typeExpr_loopFree fun _ => .done
  split
  iterate 6 exact .bind identifier_loopFree fun _ => .done
  iterate 8 exact .bind (tokenNode_loopFree rfl) fun _ => .done
  iterate 4 exact .bind stringLiteral_loopFree fun _ => .done
  · exact .bind tuple_loopFree fun _ => .done
  · exact .bind bracketLiteral_loopFree fun _ => .done
  · exact .bind (.visit _) fun _ => .done
  · exact .bind keyPath_loopFree fun _ => .done
  · exact .bind implicitMember_loopFree fun _ => .done
  · exact .bind poundExpr_loopFree fun _ => .done
  · exact .bind typeExpr_loopFree fun _ => .done
  iterate 2 exact .bind (.node rfl valueBinding_loopFree) fun _ => .done
  · refine .branch (.bind (tokenNode_loopFree rfl) fun _ => .done) ?_
    exact .bind (.placeholder rfl) fun _ => .done

theorem callSuffix_loopFree : (callSuffix mode).LoopFree := by
  refine .enclose rfl (.bind .advance fun _ => .bind argumentList_loopFree fun _ => ?_)
  exact .bind .require fun _ => optionalTrailingClosures_loopFree

theorem subscriptSuffix_loopFree : (subscriptSuffix mode).LoopFree := by
  refine .enclose rfl (.bind .advance fun _ => .bind argumentList_loopFree fun _ => ?_)
  exact .bind .require fun _ => optionalTrailingClosures_loopFree

theorem memberSuffix_loopFree : memberSuffix.LoopFree :=
  .bind (.enclose rfl (.bind .advance fun _ => memberName_loopFree)) fun _ => specialize_loopFree

theorem operatorSuffix_loopFree : operatorSuffix.LoopFree := by
  refine .lookAt fun ts => .enclose ?_ .advance
  split_ifs <;> rfl

theorem suffixRule_loopFree (suffix : Suffix) : (suffixRule mode suffix).LoopFree := by
  cases suffix with
  | member => exact memberSuffix_loopFree
  | call => exact callSuffix_loopFree
  | subscript => exact subscriptSuffix_loopFree
  | operator => exact operatorSuffix_loopFree
  | closure => exact .enclose rfl trailingClosures_loopFree

theorem operandRule_loopFree : (operandRule mode).LoopFree := by
  refine .bind primary_loopFree fun _ => .ite .done ?_
  refine .bind (.repeatWhile (.look fun suffix => ?_)) fun _ => .done
  cases suffix with
  | none => exact .done
  | some suffix => exact .bind (suffixRule_loopFree suffix) fun _ => .done

/-! ### Expressions -/

variable {power : Nat}

theorem unaryRule_loopFree : (unaryRule mode power).LoopFree := by
  refine .branch (.node rfl (.bind .advance fun _ => .call _)) (.branch (.node rfl ?_) ?_)
  · exact .bind .advance fun _ => .bind (.ifAhead .advance) fun _ => .call _
  refine .branch (.node rfl (.bind .advanceAs fun _ => .call _)) ?_
  exact .branch (.node rfl (.bind .advanceAs fun _ => .call _)) (.call _)

theorem rightSide_loopFree {op : Infix} : (rightSide mode op power).LoopFree := by
  cases op with
  | binary => exact .bind .advance fun _ => .call _
  | ternary =>
    exact .bind .advance fun _ => .bind expr_loopFree fun _ => .bind .require fun _ => .call _
  | cast =>
    refine .bind .advance fun _ => .bind (.ifAhead .advance) fun _ => ?_
    exact .bind type_loopFree fun _ => .done
  | test => exact .bind .advance fun _ => .bind type_loopFree fun _ => .done
  | arrow => exact .bind effectSpecifiers_loopFree fun _ => .bind .require fun _ => .call _

theorem sequenceRule_loopFree : (sequenceRule mode power).LoopFree := by
  refine .bind (.call _) fun _ => .ite .done (.repeatUntil (.look fun op => ?_))
  rcases op with _ | ⟨op, p⟩
  · exact .done
  · refine .ite .done (.bind (.enclose ?_ rightSide_loopFree) fun _ => .done)
    cases op <;> rfl

/-! ### Statement lists and bodies -/

variable {body : Body} {content : Goal}

theorem item_loopFree : (item body).LoopFree := by
  refine .bind .eat fun _ => .ite .done (.branch (.visit _) ?_)
  exact skipStatement_loopFree

theorem statementsRule_loopFree : (statementsRule body).LoopFree :=
  .node rfl (.whileAhead item_loopFree)

theorem bodyBlock_loopFree : bodyBlock.LoopFree :=
  .bind (.ifAhead skipUntil_loopFree) fun _ => codeBlock_loopFree

/-! ### Conditions -/

theorem condition_loopFree : condition.LoopFree := by
  refine .branch (.node rfl ?_) (.branch (.node rfl ?_) expr_loopFree)
  · refine .bind .advance fun _ => .bind (.visit _) fun _ => ?_
    exact .bind (.ifAhead typeClause_loopFree) fun _ => .ifAhead initializer_loopFree
  · refine .bind .advance fun _ => .bind (.visit _) fun _ => ?_
    exact .bind (.ifAhead typeClause_loopFree) fun _ => .bind .require fun _ => expr_loopFree

theorem conditionList_loopFree : conditionList.LoopFree :=
  .node rfl (.commaList rfl condition_loopFree)

theorem whereClause_loopFree : (whereClause mode).LoopFree :=
  .ifAhead (.node rfl (.bind .advance fun _ => expr_loopFree))

/-! ### Control flow -/

theorem ifStatement_loopFree : ifStatement.LoopFree := by
  refine .node rfl (.bind .advance fun _ => .bind conditionList_loopFree fun _ => ?_)
  refine .bind bodyBlock_loopFree fun _ => .bind .eat fun _ => .ite ?_ .done
  exact .branch (.visit _) bodyBlock_loopFree

theorem guardStatement_loopFree : guardStatement.LoopFree := by
  refine .node rfl (.bind .advance fun _ => .bind conditionList_loopFree fun _ => ?_)
  exact .bind .require fun _ => bodyBlock_loopFree

theorem catchClause_loopFree : catchClause.LoopFree := by
  refine .node rfl (.bind .advance fun _ => .bind (.ifAhead (.node rfl ?_)) fun _ =>
    bodyBlock_loopFree)
  exact .commaList rfl (.bind (.visit _) fun _ => whereClause_loopFree)

theorem doStatement_loopFree : doStatement.LoopFree := by
  refine .node rfl (.bind .advance fun _ => .bind bodyBlock_loopFree fun _ => ?_)
  exact .whileAhead catchClause_loopFree

theorem forHeader_loopFree : forHeader.LoopFree := by
  refine .bind .skip fun _ => .bind .eatWord fun _ => .bind ?_ fun _ => ?_
  · exact .bind .eat fun _ => .ite (.visit _) (.visit _)
  · refine .bind (.ifAhead typeClause_loopFree) fun _ => .bind .require fun _ => ?_
    exact .bind expr_loopFree fun _ => whereClause_loopFree

/-- Even a loop makes no loop but in its body, which is a goal of its own. -/
theorem forParts_loopFree : forParts.LoopFree := by
  refine .bind .advance fun _ => .branch ?_ ?_
  · exact .bind skipUntil_loopFree fun _ => codeBlock_loopFree
  · exact .bind forHeader_loopFree fun _ => bodyBlock_loopFree

theorem whileStatement_loopFree : whileStatement.LoopFree := by
  refine .node rfl (.bind .advance fun _ => .bind conditionList_loopFree fun _ => ?_)
  exact bodyBlock_loopFree

theorem repeatStatement_loopFree : repeatStatement.LoopFree := by
  refine .node rfl (.bind .advance fun _ => .bind bodyBlock_loopFree fun _ => ?_)
  exact .bind .require fun _ => expr_loopFree

theorem returnStatement_loopFree : returnStatement.LoopFree :=
  .node rfl (.bind .require fun _ => .ifAhead expr_loopFree)

theorem jumpStatement_loopFree {kind : Kind} {hk : kind.isConstruct} (h : kind != .forStmt) :
    (jumpStatement kind hk).LoopFree := .node h (.bind .advance fun _ => .ifAhead .advance)

/-! ### `switch` and conditional compilation -/

theorem caseLabel_loopFree : caseLabel.LoopFree := by
  refine .nodeBy (.bind .eat fun _ => .ite (.bind (.node rfl ?_) fun _ => ?_) ?_)
  · exact .commaList rfl (.bind (.visit _) fun _ => whereClause_loopFree)
  · exact .bind .require fun _ => .pure rfl
  · exact .bind .require fun _ => .bind .require fun _ => .pure rfl

theorem switchCase_loopFree : switchCase.LoopFree :=
  .node rfl (.bind attributes_loopFree fun _ => .bind caseLabel_loopFree fun _ => .visit _)

theorem ifConfigClause_loopFree : (ifConfigClause content).LoopFree := by
  refine .node rfl (.look fun unconditional => .bind .advance fun _ => ?_)
  exact .bind (.onlyIf expr_loopFree) fun _ => .visit _

theorem ifConfig_loopFree : (ifConfig content).LoopFree := by
  refine .node rfl (.bind ifConfigClause_loopFree fun _ => .bind ?_ fun _ => .require)
  exact .whileAhead ifConfigClause_loopFree

theorem caseItem_loopFree : caseItem.LoopFree := by
  refine .branch switchCase_loopFree (.branch ifConfig_loopFree ?_)
  exact skipStatement_loopFree

theorem switchCasesRule_loopFree {inDirective : Bool} : (switchCasesRule inDirective).LoopFree :=
  .node rfl (.whileAhead caseItem_loopFree)

theorem switchStatement_loopFree : switchStatement.LoopFree := by
  refine .node rfl (.bind .advance fun _ => .bind expr_loopFree fun _ => ?_)
  refine .bind .expect fun _ => .ite ?_ ?_
  · exact .bind (.visit _) fun _ => .require
  · exact .bind (.emptyNode rfl) fun _ => .missing

/-! ### Any statement -/

/-- The next token tells which statement stands there, and only behind `for` it is a loop. What is
left of the rule of statements is the choice by the kind of the token. -/
theorem exists_statement : ∃ next : Kind → Parser Unit,
    statementRule = (Grammar.look Ahead.kind >>= next) ∧ next .forKw = forStatement ∧
      ∀ kind, kind ≠ .forKw → (next kind).LoopFree := by
  refine ⟨_, rfl, rfl, fun kind hkind => ?_⟩
  split
  · exact ifStatement_loopFree
  · exact guardStatement_loopFree
  · exact switchStatement_loopFree
  · exact doStatement_loopFree
  · exact absurd rfl hkind
  · exact whileStatement_loopFree
  · exact repeatStatement_loopFree
  · exact returnStatement_loopFree
  iterate 2 exact jumpStatement_loopFree rfl
  · exact .node rfl (.bind .advance fun _ => expr_loopFree)
  · exact .node rfl (.bind .advance fun _ => bodyBlock_loopFree)
  · exact tokenNode_loopFree rfl
  · exact ifConfig_loopFree
  iterate 3 exact decl_loopFree
  · refine .branch decl_loopFree (.branch (.node rfl ?_) expr_loopFree)
    exact .bind (.advanceBy 2) fun _ => .visit _

/-- **Only statements make loops.** Rules for all goals but statements make no loop themselves;
those that a rule comes to by a call are not counted for it. -/
theorem Goal.rule_loopFree {goal : Goal} (h : goal ≠ .statement) : goal.rule.LoopFree := by
  cases goal with
  | sequence mode power => exact sequenceRule_loopFree
  | unary mode power => exact unaryRule_loopFree
  | operand mode => exact operandRule_loopFree
  | closure => exact .complete closureRule_loopFree
  | type => exact .complete typeRule_loopFree
  | plainType => exact .complete plainTypeRule_loopFree
  | pattern => exact .complete patternRule_loopFree
  | casePattern mode => exact .complete casePatternRule_loopFree
  | statement => exact absurd rfl h
  | statements body => exact .complete statementsRule_loopFree
  | switchCases inDirective => exact .complete switchCasesRule_loopFree

end SwiftTree.Grammar
