import SwiftTree.Proofs.LoopParts
import SwiftTree.Proofs.Oblivious

/-!
# No rule sees trivia

The looks of the grammar, and one lemma for each rule, in the order of the grammar, up to the rules
that stand for goals (`Goal.exists_oblivious_rule`). Only the rule of loops asks where tokens stand,
for what it notes; where nobody takes notice of that, a rule does for it that does not ask.

A look is either read off a few of the next tokens, and then it is enough to rewrite it, or it is a
scan, and then no step of the scan may depend on trivia. With its looks rewritten, each lemma of a
rule has the form of the rule.
-/

namespace SwiftTree.Grammar

open Grammar.Parser

/-! ## Recovery -/

namespace Ahead

variable {stop : Ahead → Bool}

/-- The scan for the end of a skip sees no trivia if the test for the end does not. -/
theorem outside_oblivious (h : ∀ ts : Ahead, stop ts.bare = stop ts) :
    (outside stop).Oblivious := by
  intro depth x ts
  have hstop : stop (x.bare :: ts.bare) = stop (x :: ts) := h (x :: ts)
  simp only [outside, hstop, Lexeme.kind_bare]

@[simp] theorem skipLength_bare (h : ∀ ts : Ahead, stop ts.bare = stop ts) (depth : Nat)
    (ts : Ahead) :
    skipLength stop depth ts.bare = skipLength stop depth ts := by
  rw [skipLength, (outside_oblivious h).stop, length_bare, length_bare, skipLength]

@[simp] theorem skipLengthBehind_bare (h : ∀ ts : Ahead, stop ts.bare = stop ts) (ts : Ahead) :
    skipLengthBehind stop ts.bare = skipLengthBehind stop ts := by
  cases ts with
  | nil => rfl
  | cons x ts => exact skipLength_bare h _ ts

@[simp] theorem closerAhead_bare (k : Kind) (barriers : KindSet) (ts : Ahead) :
    ts.bare.closerAhead k barriers = ts.closerAhead k barriers := by
  have h : (closer k barriers).Oblivious := fun _ _ _ => rfl
  exact h.answer 0 ts

end Ahead

theorem skipUntil_oblivious {stop : KindSet} : (skipUntil stop).Oblivious := by
  refine .bind (.look (Ahead.skipLength_bare (by simp) 0) fun n => ?_) fun _ => .pure ()
  cases n with
  | zero => exact .pure false
  | succ n => exact .bind .unexpected fun _ => .pure true

theorem skipToCloser_oblivious {closer : Kind} {barriers : KindSet} :
    (skipToCloser closer barriers).Oblivious := .ifAhead (by simp) skipUntil_oblivious

theorem skipStatement_oblivious {boundary : Ahead → Bool}
    (h : ∀ ts : Ahead, boundary ts.bare = boundary ts) :
    (skipStatement boundary).Oblivious :=
  .look (Ahead.skipLengthBehind_bare h) fun _ => .unexpected

/-! ## Attributes -/

theorem attributeArguments_oblivious : attributeArguments.Oblivious := by
  refine .node (.bind .advance fun _ => .look (Ahead.skipLength_bare (by simp) 0) fun n => ?_)
  exact .bind (.advanceBy n) fun _ => .require

theorem attributeName_oblivious : attributeName.Oblivious := .branch (by simp) .advance .missing

theorem singleAttribute_oblivious : singleAttribute.Oblivious := by
  refine .node (.bind .advance fun _ => .bind attributeName_oblivious fun _ => ?_)
  exact .ifAhead (by simp) attributeArguments_oblivious

theorem attributeList_oblivious : attributeList.Oblivious :=
  .node (.whileAhead (by simp) singleAttribute_oblivious)

theorem attributes_oblivious : attributes.Oblivious := .ifAt attributeList_oblivious

/-! ## Types -/

namespace Ahead

variable (ts : Ahead)

@[simp] theorem isSomeOrAny_bare : ts.bare.isSomeOrAny = ts.isSomeOrAny := by simp [isSomeOrAny]

@[simp] theorem isComposition_bare : ts.bare.isComposition = ts.isComposition := by
  simp [isComposition]

@[simp] theorem isAdjacentAngle_bare : ts.bare.isAdjacentAngle = ts.isAdjacentAngle := by
  simp [isAdjacentAngle]

@[simp] theorem isEffect_bare : ts.bare.isEffect = ts.isEffect := by simp [isEffect]

@[simp] theorem optionalSuffix?_bare : ts.bare.optionalSuffix? = ts.optionalSuffix? := by
  simp [optionalSuffix?]

@[simp] theorem followsGenericArguments_bare :
    ts.bare.followsGenericArguments = ts.followsGenericArguments := by
  simp [followsGenericArguments]

@[simp] theorem isGenericArguments_bare : ts.bare.isGenericArguments = ts.isGenericArguments := by
  have h : genericClosing.Oblivious := fun depth x ts => by
    have hfollows := followsGenericArguments_bare ts
    simp only [genericClosing, Lexeme.kind_bare, Lexeme.text_bare, hfollows]
    rfl
  rw [isGenericArguments, h.answer, isAdjacentAngle_bare, isGenericArguments]

end Ahead

theorem type_oblivious : type.Oblivious := .visit _

theorem takeHead_oblivious {head : Kind} {h : head.isSolid} : (takeHead head h).Oblivious :=
  .look (by simp) fun _ => .bind .splitHead fun _ => .advanceAs

theorem genericArgumentClause_oblivious : genericArgumentClause.Oblivious := by
  refine .node (.bind takeHead_oblivious fun _ => .bind ?_ fun _ => ?_)
  · exact .commaList (by simp) type_oblivious
  · exact .branch (by simp) takeHead_oblivious .missing

theorem genericArguments_oblivious : genericArguments.Oblivious :=
  .ifAhead (by simp) genericArgumentClause_oblivious

theorem namedType_oblivious : namedType.Oblivious :=
  .node (.bind .advance fun _ => genericArguments_oblivious)

theorem memberTypes_oblivious : memberTypes.Oblivious := by
  refine .whileAhead (by simp) (.enclose ?_)
  exact .bind .advance fun _ => .bind .advance fun _ => genericArguments_oblivious

theorem optionalSuffixes_oblivious : optionalSuffixes.Oblivious := by
  refine .repeatWhile (.look (by simp) fun suffix => ?_)
  cases suffix with
  | none => exact .pure false
  | some kind => exact .bind .splitHead fun _ => .bind (.enclose .advance) fun _ => .pure true

theorem collectionType_oblivious : collectionType.Oblivious := by
  refine .nodeBy (.bind .advance fun _ => .bind type_oblivious fun _ => .bind .eat fun _ => ?_)
  refine .bind (.onlyIf type_oblivious) fun _ => .bind skipToCloser_oblivious fun _ => ?_
  exact .bind .require fun _ => .pure _

theorem effect_oblivious : effect.Oblivious :=
  .bind .eatWord fun _ => .ite (.pure true) (.bind .eat fun _ => .ite (.pure true) .eat)

theorem effectSpecifiers_oblivious : effectSpecifiers.Oblivious :=
  .ifAhead (by simp) (.node (.repeatWhile effect_oblivious))

theorem tupleTypeLabels_oblivious : tupleTypeLabels.Oblivious :=
  .branch (by simp) (.advanceBy 2) (.ifAhead (by simp) (.advanceBy 3))

theorem tupleOrFunctionType_oblivious : tupleOrFunctionType.Oblivious := by
  refine .nodeBy (.bind .advance fun _ => .bind (.unlessAt (.commaList (by simp) ?_)) fun _ => ?_)
  · refine .bind tupleTypeLabels_oblivious fun _ => .bind type_oblivious fun _ => ?_
    exact .ifAhead (by simp) .advance
  · refine .bind skipToCloser_oblivious fun _ => .bind .require fun _ => ?_
    refine .branch (by simp) ?_ (.pure _)
    refine .bind effectSpecifiers_oblivious fun _ => .bind .require fun _ => ?_
    exact .bind type_oblivious fun _ => .pure _

theorem someOrAny_oblivious : someOrAny.Oblivious := .branch (by simp) .advanceAs .advanceAs

theorem plainTypeRule_oblivious : plainTypeRule.Oblivious := by
  refine .branch (by simp) (.node ?_) (.branch (by simp) (.node ?_) ?_)
  · exact .bind attributes_oblivious fun _ => .bind .skip fun _ => .visit _
  · exact .bind someOrAny_oblivious fun _ => .visit _
  refine .branch (by simp) ?_ (.branch (by simp) ?_ (.branch (by simp) ?_ .placeholder))
  · refine .bind namedType_oblivious fun _ => .bind memberTypes_oblivious fun _ => ?_
    exact optionalSuffixes_oblivious
  · exact .bind collectionType_oblivious fun _ => optionalSuffixes_oblivious
  · exact .bind tupleOrFunctionType_oblivious fun _ => optionalSuffixes_oblivious

theorem typeRule_oblivious : typeRule.Oblivious := by
  refine .bind (.visit _) fun _ => .ifAhead (by simp) (.enclose (.whileAhead (by simp) ?_))
  exact .bind .advance fun _ => .visit _

theorem typeClause_oblivious : typeClause.Oblivious :=
  .node (.bind .require fun _ => type_oblivious)

theorem returnClause_oblivious : returnClause.Oblivious :=
  .node (.bind .require fun _ => type_oblivious)

/-! ## Patterns -/

variable {mode : Mode}

theorem expr_oblivious : (expr mode).Oblivious := .visit _

theorem tokenNode_oblivious {kind : Kind} {hk : kind.isConstruct} : (tokenNode kind hk).Oblivious :=
  .node .advance

theorem label_oblivious : label.Oblivious := .ifAhead (by simp) (.advanceBy 2)

theorem tuplePattern_oblivious : tuplePattern.Oblivious := by
  refine .node (.bind .advance fun _ => .bind (.unlessAt ?_) fun _ => .require)
  refine .bind (.commaList (by simp) ?_) fun _ => skipToCloser_oblivious
  exact .bind label_oblivious fun _ => .visit _

theorem patternRule_oblivious : patternRule.Oblivious := by
  refine .look (by simp) fun kind => ?_
  split
  iterate 2 exact tokenNode_oblivious
  · exact tokenNode_oblivious
  · exact tuplePattern_oblivious
  iterate 2 exact .node (.bind .advance fun _ => .visit _)
  · exact .placeholder

@[simp] theorem Ahead.isLone_bare (k : Kind) (ts : Ahead) : ts.bare.isLone k = ts.isLone k := by
  simp [isLone]

theorem valueBinding_oblivious : (valueBinding mode).Oblivious :=
  .node (.bind .advance fun _ => .visit _)

theorem casePatternRule_oblivious : (casePatternRule mode).Oblivious := by
  refine .branch (by simp) valueBinding_oblivious (.branch (by simp) (.node ?_) ?_)
  · exact .bind .advance fun _ => type_oblivious
  · refine .branch (by simp) tokenNode_oblivious ?_
    exact .branch (by simp) tokenNode_oblivious (.node (.visit _))

/-! ## Declarations -/

theorem codeBlock_oblivious : codeBlock.Oblivious := by
  refine .node (.bind .eat fun _ => .ite (.bind (.visit _) fun _ => .require) ?_)
  exact .bind .missing fun _ => .bind .emptyNode fun _ => .missing

theorem initializer_oblivious : (initializer mode).Oblivious :=
  .node (.bind .require fun _ => expr_oblivious)

variable {typed : Bool}

theorem parameterNames_oblivious : (parameterNames typed).Oblivious :=
  .branch (by simp) (.bind .advance fun _ => .ifAhead (by simp) .advance) (.ite .missing (.pure ()))

theorem parameterType_oblivious : (parameterType typed).Oblivious :=
  .ifAhead (by simp) (.bind .require fun _ => type_oblivious)

theorem parameter_oblivious : (parameter typed).Oblivious := by
  refine .bind attributes_oblivious fun _ => .bind parameterNames_oblivious fun _ => ?_
  refine .bind parameterType_oblivious fun _ => .bind (.ifAhead (by simp) .advance) fun _ => ?_
  exact .ifAt (.node (.bind .advance fun _ => expr_oblivious))

theorem parameterClause_oblivious : (parameterClause typed).Oblivious := by
  refine .node (.bind .eat fun _ => .ite (.bind (.unlessAt ?_) fun _ => .require) ?_)
  · exact .bind (.commaList (by simp) parameter_oblivious) fun _ => skipToCloser_oblivious
  · exact .bind .missing fun _ => .missing

theorem patternBinding_oblivious : patternBinding.Oblivious := by
  refine .bind (.visit _) fun _ => .bind (.ifAt typeClause_oblivious) fun _ => ?_
  exact .bind (.ifAt initializer_oblivious) fun _ => .ifAhead (by simp) codeBlock_oblivious

theorem variableParts_oblivious : variableParts.Oblivious := by
  refine .bind (.bind .eat fun _ => .ite (.pure ()) .require) fun _ => ?_
  exact .node (.commaList (by simp) patternBinding_oblivious)

theorem functionName_oblivious : functionName.Oblivious := .branch (by simp) .advance .missing

theorem functionParts_oblivious : functionParts.Oblivious := by
  refine .bind .advance fun _ => .bind functionName_oblivious fun _ => .bind (.node ?_) fun _ => ?_
  · refine .bind parameterClause_oblivious fun _ => .bind effectSpecifiers_oblivious fun _ => ?_
    exact .ifAt returnClause_oblivious
  · exact .ifAt codeBlock_oblivious

theorem modifierWord_oblivious : modifierWord.Oblivious := by
  refine .bind .eatWord fun _ => .ite (.pure ()) (.bind .eatWord fun _ => .ite (.pure ()) ?_)
  exact .bind .eatWord fun _ => .ite (.pure ()) .advance

theorem modifier_oblivious : modifier.Oblivious :=
  .node (.look (by simp) fun _ => .bind modifierWord_oblivious fun _ => .advanceBy _)

theorem declParts_oblivious : declParts.Oblivious := by
  refine .branch (by simp) (.bind functionParts_oblivious fun _ => .pure _) ?_
  exact .bind variableParts_oblivious fun _ => .pure _

theorem decl_oblivious : decl.Oblivious := by
  refine .nodeBy (.bind attributes_oblivious fun _ => .bind ?_ fun _ => ?_)
  · exact .whileAhead (by simp) modifier_oblivious
  · exact .bind declParts_oblivious fun _ => .pure _

/-! ## Closures and arguments -/

namespace Ahead

variable (ts : Ahead)

@[simp] theorem isSignature_bare : ts.bare.isSignature = ts.isSignature := by
  have h : signatureEnd.Oblivious := fun _ _ _ => rfl
  exact h.answer _ ts

@[simp] theorem isCaptureSpecifier_bare : ts.bare.isCaptureSpecifier = ts.isCaptureSpecifier := by
  simp [isCaptureSpecifier]

end Ahead

theorem captureSpecifier_oblivious : captureSpecifier.Oblivious := by
  refine .bind .eatWord fun _ => .ite (.pure ()) (.bind .eatWord fun _ => .ifAhead (by simp) ?_)
  exact .bind .advance fun _ => .bind .skip fun _ => .require

theorem captureClause_oblivious : captureClause.Oblivious := by
  refine .node (.bind .advance fun _ => .bind (.unlessAt ?_) fun _ => .require)
  refine .bind (.commaList (by simp) ?_) fun _ => skipToCloser_oblivious
  refine .bind (.ifAhead (by simp) captureSpecifier_oblivious) fun _ => ?_
  exact .bind (.ifAhead (by simp) (.advanceBy 2)) fun _ => expr_oblivious

theorem closureParameters_oblivious : closureParameters.Oblivious := by
  refine .branch (by simp) parameterClause_oblivious ?_
  exact .ifAhead (by simp) (.node (.commaList (by simp) .advance))

theorem closureSignature_oblivious : closureSignature.Oblivious := by
  refine .node (.bind attributes_oblivious fun _ =>
    .bind (.ifAt captureClause_oblivious) fun _ => ?_)
  refine .bind closureParameters_oblivious fun _ => .bind effectSpecifiers_oblivious fun _ => ?_
  exact .bind (.ifAt returnClause_oblivious) fun _ => .require

theorem closureRule_oblivious : closureRule.Oblivious := by
  refine .node (.bind .require fun _ => .bind ?_ fun _ => .bind (.visit _) fun _ => .require)
  exact .ifAhead (by simp) closureSignature_oblivious

theorem argumentList_oblivious {closer : Kind} {barriers : KindSet} :
    (argumentList closer barriers mode).Oblivious := by
  refine .node (.unlessAt (.bind (.commaList (by simp) ?_) fun _ => skipToCloser_oblivious))
  exact .bind label_oblivious fun _ => expr_oblivious

theorem trailingClosures_oblivious : trailingClosures.Oblivious := by
  refine .bind (.visit _) fun _ => .whileAhead (by simp) (.node ?_)
  exact .bind (.advanceBy 2) fun _ => .visit _

theorem optionalTrailingClosures_oblivious : (optionalTrailingClosures mode).Oblivious :=
  .ifAhead (by simp) trailingClosures_oblivious

/-! ## Names -/

namespace Ahead

variable (ts : Ahead)

@[simp] theorem isBindingName_bare : ts.bare.isBindingName = ts.isBindingName := by
  simp [isBindingName]

@[simp] theorem pounds_bare : ts.bare.pounds = ts.pounds := by simp [pounds]

@[simp] theorem quote?_bare : ts.bare.quote? = ts.quote? := by simp [quote?]

@[simp] theorem endsElements_bare : ts.bare.endsElements = ts.endsElements := by simp [endsElements]

@[simp] theorem isAttachedName_bare : ts.bare.isAttachedName = ts.isAttachedName := by
  simp [isAttachedName]

@[simp] theorem suffix?_bare (mode : Mode) : ts.bare.suffix? mode = ts.suffix? mode := by
  simp [suffix?]

end Ahead

theorem memberName_oblivious : memberName.Oblivious := .branch (by simp) .advance .missing

theorem specialize_oblivious : specialize.Oblivious :=
  .ifAhead (by simp) (.enclose genericArgumentClause_oblivious)

theorem identifier_oblivious : (identifier mode).Oblivious := by
  refine .branch (by simp) (.node tokenNode_oblivious) ?_
  exact .bind tokenNode_oblivious fun _ => specialize_oblivious

theorem implicitMember_oblivious : implicitMember.Oblivious :=
  .bind (.node (.bind .advance fun _ => memberName_oblivious)) fun _ => specialize_oblivious

theorem typeExpr_oblivious : typeExpr.Oblivious := .node type_oblivious

/-! ## String literals -/

theorem interpolation_oblivious : interpolation.Oblivious := by
  refine .node (.bind .advance fun _ => .bind .require fun _ => ?_)
  exact .bind argumentList_oblivious fun _ => .require

theorem stringSegments_oblivious : stringSegments.Oblivious := by
  refine .node (.repeatWhile (.branch (by simp) (.bind .advance fun _ => .pure true) ?_))
  exact .branch (by simp) (.bind interpolation_oblivious fun _ => .pure true) (.pure false)

theorem openingQuote_oblivious : openingQuote.Oblivious := by
  refine .look (by simp) fun quote => ?_
  cases quote with
  | some quote => exact .bind .advance fun _ => .pure _
  | none => exact .bind .missing fun _ => .pure _

theorem closingQuote_oblivious {pounds : Nat} {quote : SolidKind} :
    (closingQuote pounds quote).Oblivious := by
  refine .branch (by simp) (.bind .advance fun _ => .onlyIf .require) ?_
  exact .bind .missing fun _ => .onlyIf .missingSpelled

theorem stringLiteral_oblivious : stringLiteral.Oblivious := by
  refine .node (.look (by simp) fun pounds => .bind .skip fun _ => ?_)
  refine .bind openingQuote_oblivious fun quote => ?_
  exact .bind stringSegments_oblivious fun _ => closingQuote_oblivious

/-! ## Tuples, arrays and dictionaries -/

theorem tuple_oblivious : (tuple mode).Oblivious := by
  refine .node (.bind .advance fun _ => .bind (.node (.unlessAt ?_)) fun _ => .require)
  refine .bind (.commaList (by simp) ?_) fun _ => skipToCloser_oblivious
  exact .bind label_oblivious fun _ => expr_oblivious

variable {dictionary : Bool}

theorem elementValue_oblivious : (elementValue dictionary mode).Oblivious :=
  .onlyIf (.bind .require fun _ => expr_oblivious)

theorem firstElement_oblivious : (firstElement mode).Oblivious := by
  refine .nodeBy (.bind expr_oblivious fun _ => .look (by simp) fun dictionary => ?_)
  exact .bind elementValue_oblivious fun _ => .bind .eat fun _ => .pure _

theorem moreElements_oblivious : (moreElements dictionary mode).Oblivious :=
  .commaList (by simp) (.bind expr_oblivious fun _ => elementValue_oblivious)

theorem bracketElements_oblivious : (bracketElements mode).Oblivious := by
  refine .nodeBy (.bind firstElement_oblivious fun _ => .bind ?_ fun _ => ?_)
  · exact .ifAhead (by simp) moreElements_oblivious
  · exact .bind skipToCloser_oblivious fun _ => .pure _

theorem bracketLiteral_oblivious : (bracketLiteral mode).Oblivious := by
  refine .nodeBy (.bind .advance fun _ => .branch (by simp) ?_ (.branch (by simp) ?_ ?_))
  · exact .bind .emptyNode fun _ => .bind .advance fun _ => .pure _
  · exact .bind .advance fun _ => .bind .emptyNode fun _ => .bind .advance fun _ => .pure _
  · exact .bind bracketElements_oblivious fun _ => .bind .require fun _ => .pure _

/-! ## Key paths and macros -/

theorem keyPathSubscript_oblivious : keyPathSubscript.Oblivious :=
  .bind .advance fun _ => .bind argumentList_oblivious fun _ => .require

theorem keyPathMember_oblivious : keyPathMember.Oblivious :=
  .bind .advance fun _ => .branch (by simp) keyPathSubscript_oblivious memberName_oblivious

theorem keyPathComponent_oblivious : keyPathComponent.Oblivious := by
  refine .nodeIf (.branch (by simp) (.bind keyPathMember_oblivious fun _ => .pure true) ?_)
  refine .branch (by simp) (.bind .advance fun _ => .pure true) (.branch (by simp) ?_ (.pure false))
  exact .bind keyPathSubscript_oblivious fun _ => .pure true

theorem keyPathComponents_oblivious : keyPathComponents.Oblivious :=
  .node (.repeatWhile keyPathComponent_oblivious)

theorem keyPathRoot_oblivious : keyPathRoot.Oblivious := by
  refine .look (by simp) fun kind => ?_
  split
  · exact .pure false
  iterate 2
    exact .bind namedType_oblivious fun _ => .bind optionalSuffixes_oblivious fun _ => .pure true
  · exact .bind tuple_oblivious fun _ => .pure false
  · exact .bind .placeholder fun _ => .pure false

theorem keyPath_oblivious : keyPath.Oblivious := by
  refine .node (.bind .advance fun _ => .bind keyPathRoot_oblivious fun named => ?_)
  exact .branch (by simp) keyPathComponents_oblivious (.branch (by simp) (.visit _) .placeholder)

theorem poundKeyPathPart_oblivious : poundKeyPathPart.Oblivious := by
  refine .bind (.branch (by simp) .advance .missing) fun _ => .branch (by simp) ?_ (.pure false)
  exact .bind .advance fun _ => .pure true

theorem poundKeyPath_oblivious : poundKeyPath.Oblivious := by
  refine .bind .expect fun _ => .ite ?_ (.pure ())
  exact .bind (.repeatWhile poundKeyPathPart_oblivious) fun _ => .require

theorem poundArguments_oblivious : (poundArguments mode).Oblivious := by
  refine .ifAhead (by simp) (.bind .advance fun _ => ?_)
  exact .bind argumentList_oblivious fun _ => .require

theorem poundExpr_oblivious : (poundExpr mode).Oblivious := by
  have hobject (ts : Ahead) :
    objectLiterals.any ts.bare.isSpelled = objectLiterals.any ts.isSpelled :=
    congrArg objectLiterals.any (funext ts.isSpelled_bare)
  refine .nodeBy (.look (by simp) fun isKeyPath => .look hobject fun isObject => ?_)
  refine .bind .advance fun _ => .bind ?_ fun _ => .pure _
  exact .ite poundKeyPath_oblivious poundArguments_oblivious

/-! ## Operands -/

theorem primary_oblivious : (primary mode).Oblivious := by
  refine .look (by simp) fun kind => .branch (by simp) ?_ ?_
  · exact .bind typeExpr_oblivious fun _ => .pure false
  split
  iterate 6 exact .bind identifier_oblivious fun _ => .pure false
  iterate 8 exact .bind tokenNode_oblivious fun _ => .pure false
  iterate 4 exact .bind stringLiteral_oblivious fun _ => .pure false
  · exact .bind tuple_oblivious fun _ => .pure false
  · exact .bind bracketLiteral_oblivious fun _ => .pure false
  · exact .bind (.visit _) fun _ => .pure false
  · exact .bind keyPath_oblivious fun _ => .pure false
  · exact .bind implicitMember_oblivious fun _ => .pure false
  · exact .bind poundExpr_oblivious fun _ => .pure false
  · exact .bind typeExpr_oblivious fun _ => .pure false
  iterate 2 exact .bind (.node valueBinding_oblivious) fun _ => .pure false
  · refine .branch (by simp) (.bind tokenNode_oblivious fun _ => .pure false) ?_
    exact .bind .placeholder fun _ => .pure true

theorem callSuffix_oblivious : (callSuffix mode).Oblivious := by
  refine .enclose (.bind .advance fun _ => .bind argumentList_oblivious fun _ => ?_)
  exact .bind .require fun _ => optionalTrailingClosures_oblivious

theorem subscriptSuffix_oblivious : (subscriptSuffix mode).Oblivious := by
  refine .enclose (.bind .advance fun _ => .bind argumentList_oblivious fun _ => ?_)
  exact .bind .require fun _ => optionalTrailingClosures_oblivious

theorem memberSuffix_oblivious : memberSuffix.Oblivious :=
  .bind (.enclose (.bind .advance fun _ => memberName_oblivious)) fun _ => specialize_oblivious

theorem operatorSuffix_oblivious : operatorSuffix.Oblivious :=
  .look (by simp) fun _ => .enclose .advance

theorem suffixRule_oblivious (suffix : Suffix) : (suffixRule mode suffix).Oblivious := by
  cases suffix with
  | member => exact memberSuffix_oblivious
  | call => exact callSuffix_oblivious
  | subscript => exact subscriptSuffix_oblivious
  | operator => exact operatorSuffix_oblivious
  | closure => exact .enclose trailingClosures_oblivious

theorem operandRule_oblivious : (operandRule mode).Oblivious := by
  refine .bind primary_oblivious fun _ => .ite (.pure true) ?_
  refine .bind (.repeatWhile (.look (by simp) fun suffix => ?_)) fun _ => .pure false
  cases suffix with
  | none => exact .pure false
  | some suffix => exact .bind (suffixRule_oblivious suffix) fun _ => .pure true

/-! ## Expressions -/

namespace Ahead

variable (ts : Ahead)

@[simp] theorem isAsyncArrow_bare : ts.bare.isAsyncArrow = ts.isAsyncArrow := by simp [isAsyncArrow]

@[simp] theorem infixOperator_bare (mode : Mode) :
    ts.bare.infixOperator mode = ts.infixOperator mode := by
  simp [infixOperator]

@[simp] theorem isAwait_bare : ts.bare.isAwait = ts.isAwait := by simp [isAwait]

@[simp] theorem isMove_bare : ts.bare.isMove = ts.isMove := by simp [isMove]

end Ahead

variable {power : Nat}

theorem unaryRule_oblivious : (unaryRule mode power).Oblivious := by
  refine .branch (by simp) (.node (.bind .advance fun _ => .call _))
    (.branch (by simp) (.node ?_) ?_)
  · exact .bind .advance fun _ => .bind (.ifAhead (by simp) .advance) fun _ => .call _
  refine .branch (by simp) (.node (.bind .advanceAs fun _ => .call _)) ?_
  exact .branch (by simp) (.node (.bind .advanceAs fun _ => .call _)) (.call _)

theorem rightSide_oblivious {op : Infix} : (rightSide mode op power).Oblivious := by
  cases op with
  | binary => exact .bind .advance fun _ => .call _
  | ternary =>
    exact .bind .advance fun _ => .bind expr_oblivious fun _ => .bind .require fun _ => .call _
  | cast =>
    refine .bind .advance fun _ => .bind (.ifAhead (by simp) .advance) fun _ => ?_
    exact .bind type_oblivious fun _ => .pure false
  | test => exact .bind .advance fun _ => .bind type_oblivious fun _ => .pure false
  | arrow => exact .bind effectSpecifiers_oblivious fun _ => .bind .require fun _ => .call _

theorem sequenceRule_oblivious : (sequenceRule mode power).Oblivious := by
  refine .bind (.call _) fun _ => .ite (.pure true) (.repeatUntil (.look (by simp) fun op => ?_))
  rcases op with _ | ⟨op, p⟩
  · exact .pure _
  · exact .ite (.pure _) (.bind (.enclose rightSide_oblivious) fun _ => .pure _)

/-! ## Statement lists and bodies -/

namespace Ahead

variable (ts : Ahead)

@[simp] theorem startsCase_bare : ts.bare.startsCase = ts.startsCase := by simp [startsCase]

@[simp] theorem isCaseBlock_bare : ts.bare.isCaseBlock = ts.isCaseBlock := by
  have h : blockCases.Oblivious := fun _ _ _ => rfl
  rw [isCaseBlock, tail_bare, h.answer, isAt_bare, isCaseBlock]

@[simp] theorem endsBody_bare (body : Body) : ts.bare.endsBody body = ts.endsBody body := by
  simp [endsBody]

@[simp] theorem braceOnLine_bare : ts.bare.braceOnLine = ts.braceOnLine := by
  have h : lineBrace.Oblivious := fun _ _ _ => rfl
  exact h.answer _ ts

@[simp] theorem isCStyleLoop_bare : ts.bare.isCStyleLoop = ts.isCStyleLoop := by
  have h : loopClauses.Oblivious := fun _ _ _ => rfl
  exact h.answer _ ts

@[simp] theorem endsCases_bare (inDirective : Bool) :
    ts.bare.endsCases inDirective = ts.endsCases inDirective := by
  simp [endsCases]

@[simp] theorem isLabeledStatement_bare : ts.bare.isLabeledStatement = ts.isLabeledStatement := by
  simp [isLabeledStatement]

end Ahead

variable {body : Body} {content : Goal}

theorem item_oblivious : (item body).Oblivious := by
  refine .bind .eat fun _ => .ite (.pure ()) (.branch (by simp) (.visit _) ?_)
  exact skipStatement_oblivious (by simp)

theorem statementsRule_oblivious : (statementsRule body).Oblivious :=
  .node (.whileAhead (by simp) item_oblivious)

theorem bodyBlock_oblivious : bodyBlock.Oblivious :=
  .bind (.ifAhead (by simp) skipUntil_oblivious) fun _ => codeBlock_oblivious

/-! ## Conditions -/

theorem condition_oblivious : condition.Oblivious := by
  refine .branch (by simp) (.node ?_) (.branch (by simp) (.node ?_) expr_oblivious)
  · refine .bind .advance fun _ => .bind (.visit _) fun _ => ?_
    exact .bind (.ifAt typeClause_oblivious) fun _ => .ifAt initializer_oblivious
  · refine .bind .advance fun _ => .bind (.visit _) fun _ => ?_
    exact .bind (.ifAt typeClause_oblivious) fun _ => .bind .require fun _ => expr_oblivious

theorem conditionList_oblivious : conditionList.Oblivious :=
  .node (.commaList (by simp) condition_oblivious)

theorem whereClause_oblivious : (whereClause mode).Oblivious :=
  .ifAt (.node (.bind .advance fun _ => expr_oblivious))

/-! ## Control flow -/

theorem ifStatement_oblivious : ifStatement.Oblivious := by
  refine .node (.bind .advance fun _ => .bind conditionList_oblivious fun _ => ?_)
  refine .bind bodyBlock_oblivious fun _ => .bind .eat fun _ => .ite ?_ (.pure ())
  exact .branch (by simp) (.visit _) bodyBlock_oblivious

theorem guardStatement_oblivious : guardStatement.Oblivious := by
  refine .node (.bind .advance fun _ => .bind conditionList_oblivious fun _ => ?_)
  exact .bind .require fun _ => bodyBlock_oblivious

theorem catchClause_oblivious : catchClause.Oblivious := by
  refine .node (.bind .advance fun _ => .bind (.unlessAt (.node ?_)) fun _ => bodyBlock_oblivious)
  exact .commaList (by simp) (.bind (.visit _) fun _ => whereClause_oblivious)

theorem doStatement_oblivious : doStatement.Oblivious := by
  refine .node (.bind .advance fun _ => .bind bodyBlock_oblivious fun _ => ?_)
  exact .whileAhead (by simp) catchClause_oblivious

theorem forHeader_oblivious : forHeader.Oblivious := by
  refine .bind .skip fun _ => .bind .eatWord fun _ => .bind ?_ fun _ => ?_
  · exact .bind .eat fun _ => .ite (.visit _) (.visit _)
  · refine .bind (.ifAt typeClause_oblivious) fun _ => .bind .require fun _ => ?_
    exact .bind expr_oblivious fun _ => whereClause_oblivious

theorem forParts_oblivious : forParts.Oblivious := by
  refine .bind .advance fun _ => .branch (by simp) ?_ ?_
  · exact .bind skipUntil_oblivious fun _ => codeBlock_oblivious
  · exact .bind forHeader_oblivious fun _ => bodyBlock_oblivious

theorem whileStatement_oblivious : whileStatement.Oblivious := by
  refine .node (.bind .advance fun _ => .bind conditionList_oblivious fun _ => ?_)
  exact bodyBlock_oblivious

theorem repeatStatement_oblivious : repeatStatement.Oblivious := by
  refine .node (.bind .advance fun _ => .bind bodyBlock_oblivious fun _ => ?_)
  exact .bind .require fun _ => expr_oblivious

theorem returnStatement_oblivious : returnStatement.Oblivious :=
  .node (.bind .require fun _ => .ifAhead (by simp) expr_oblivious)

theorem jumpStatement_oblivious {kind : Kind} {hk : kind.isConstruct} :
    (jumpStatement kind hk).Oblivious := .node (.bind .advance fun _ => .ifAhead (by simp) .advance)

/-! ## `switch` and conditional compilation -/

theorem caseLabel_oblivious : caseLabel.Oblivious := by
  refine .nodeBy (.bind .eat fun _ => .ite (.bind (.node ?_) fun _ => ?_) ?_)
  · exact .commaList (by simp) (.bind (.visit _) fun _ => whereClause_oblivious)
  · exact .bind .require fun _ => .pure _
  · exact .bind .require fun _ => .bind .require fun _ => .pure _

theorem switchCase_oblivious : switchCase.Oblivious :=
  .node (.bind attributes_oblivious fun _ => .bind caseLabel_oblivious fun _ => .visit _)

theorem ifConfigClause_oblivious : (ifConfigClause content).Oblivious := by
  refine .node (.look (by simp) fun unconditional => .bind .advance fun _ => ?_)
  exact .bind (.onlyIf expr_oblivious) fun _ => .visit _

theorem ifConfig_oblivious : (ifConfig content).Oblivious := by
  refine .node (.bind ifConfigClause_oblivious fun _ => .bind ?_ fun _ => .require)
  exact .whileAhead (by simp) ifConfigClause_oblivious

theorem caseItem_oblivious : caseItem.Oblivious := by
  refine .branch (by simp) switchCase_oblivious (.branch (by simp) ifConfig_oblivious ?_)
  exact skipStatement_oblivious (by simp)

theorem switchCasesRule_oblivious {inDirective : Bool} : (switchCasesRule inDirective).Oblivious :=
  .node (.whileAhead (by simp) caseItem_oblivious)

theorem switchStatement_oblivious : switchStatement.Oblivious := by
  refine .node (.bind .advance fun _ => .bind expr_oblivious fun _ => .bind .expect fun _ =>
    .ite ?_ ?_)
  · exact .bind (.visit _) fun _ => .require
  · exact .bind .emptyNode fun _ => .missing

/-! ## Any statement -/

/-- The rule for any statement depends on trivia in one respect only: a C-style loop is reported
where it stands. For those who take no notice of that, another rule does the same. -/
theorem exists_oblivious_statementRule :
    ∃ p : Parser Unit, statementRule.Agrees p ∧ p.Oblivious := by
  refine ⟨_, agrees_of_statementRule rfl rfl, .look (by simp) fun kind => ?_⟩
  split
  · exact .node forParts_oblivious
  rename_i hkind
  split
  · exact ifStatement_oblivious
  · exact guardStatement_oblivious
  · exact switchStatement_oblivious
  · exact doStatement_oblivious
  · exact absurd rfl hkind
  · exact whileStatement_oblivious
  · exact repeatStatement_oblivious
  · exact returnStatement_oblivious
  iterate 2 exact jumpStatement_oblivious
  · exact .node (.bind .advance fun _ => expr_oblivious)
  · exact .node (.bind .advance fun _ => bodyBlock_oblivious)
  · exact tokenNode_oblivious
  · exact ifConfig_oblivious
  iterate 3 exact decl_oblivious
  · refine .branch (by simp) decl_oblivious (.branch (by simp) (.node ?_) expr_oblivious)
    exact .bind (.advanceBy 2) fun _ => .visit _

/-! ## Goals -/

/-- **No rule that stands for a goal depends on trivia**, for those who take no notice of what is
noted. The rule of statements is replaced by one that does not ask where the tokens of a loop
stand. -/
theorem Goal.exists_oblivious_rule (g : Goal) :
    ∃ p : Parser Bool, g.rule.Agrees p ∧ p.Oblivious := by
  have same {p : Parser Bool} (h : p.Oblivious) : ∃ q : Parser Bool, p.Agrees q ∧ q.Oblivious :=
    ⟨p, fun _ _ _ _ _ => rfl, h⟩
  cases g with
  | sequence mode power => exact same sequenceRule_oblivious
  | unary mode power => exact same unaryRule_oblivious
  | operand mode => exact same operandRule_oblivious
  | closure => exact same (.complete closureRule_oblivious)
  | type => exact same (.complete typeRule_oblivious)
  | plainType => exact same (.complete plainTypeRule_oblivious)
  | pattern => exact same (.complete patternRule_oblivious)
  | casePattern mode => exact same (.complete casePatternRule_oblivious)
  | statement =>
    obtain ⟨p, hagrees, hp⟩ := exists_oblivious_statementRule
    exact ⟨_, hagrees.complete, .complete hp⟩
  | statements body => exact same (.complete statementsRule_oblivious)
  | switchCases inDirective => exact same (.complete switchCasesRule_oblivious)

end SwiftTree.Grammar
