import SwiftTree.Grammar.Expression
import SwiftTree.Proofs.Stability.Declarations

/-!
# Operands and expressions do not depend on the end

The looks of operands and operators come first: how a name goes on, whether `<` opens generic
arguments, which operator comes next. Then there is one lemma for each rule, with the form of the
rule. Which suffix or operator comes is asked only as long as tokens are left (`Ahead.Blind`), since
a rule with an operand behind it is not at the end yet.
-/

namespace SwiftTree.Grammar

open Grammar.Parser

variable {mode : Mode}

/-! ## Looks at names and operators -/

namespace Ahead.Agrees

variable {P : Ahead → Prop}

/-- What follows generic arguments may be a brace as well as the end. -/
theorem followsGenericArguments : Agrees P Ahead.followsGenericArguments := by
  have hblind : Blind Ahead.followsGenericArguments := by
    have hspelled {s : String} : Agrees (fun ts => ts ≠ [] ∧ ts.isAt .binaryOperator = true)
      (Ahead.isSpelled s) := isSpelled fun _ h => h.1
    exact .or (.or (.or isInAny (atLineStart fun _ => id)) isAtAny)
      (.and isAtAny (.or hspelled hspelled))
  intro ts us hb _
  cases hb with
  | @nil b hbrace =>
    have hfollow : Ahead.isIn genericFollow [b] = true := by
      rw [Ahead.isIn, Ahead.kind, hbrace.kind]; rfl
    rw [Ahead.followsGenericArguments, Ahead.followsGenericArguments, hfollow]
    rfl
  | cons halike hlast hts => exact hblind (.cons halike hlast hts) (List.cons_ne_nil _ _)

/-- The look ahead for generic arguments scans what can belong to them, and a closing brace cannot;
see `Scan.sealed_answer`. -/
theorem isGenericArguments : Agrees P Ahead.isGenericArguments := by
  have hscan : Sealed (genericClosing.answer 0) := by
    refine Scan.sealed_answer _ (fun depth x y ts us halike hb => ?_) fun depth b hb => ?_
    · simp only [genericClosing, halike.kind, halike.text,
        followsGenericArguments (P := fun _ => True) hb trivial]
    · rw [Scan.answer, Scan.run]
      simp only [genericClosing, hb.kind]
      rfl
  exact .and isAdjacentAngle hscan.any

/-- Whether a name is bound depends on what is attached to it: a period, a parenthesis or an angle
bracket. A brace is none of them, and neither is the end. -/
theorem isBindingName : Agrees P Ahead.isBindingName := by
  have hattached : Sealed fun ts => ts.adjacent && (ts.isAt .period || ts.isAt .leftParen
      || ts.text.head? == some '<') := by
    refine .and adjacent
      (.or (.or (isAt _ rfl) (isAt _ rfl)) ((text ?_).map fun cs => cs.head? == some '<'))
    rintro _ h rfl
    cases h.2
  exact .and (isAt _ rfl) (.not hattached.tail)

theorem isAttachedName : Agrees P Ahead.isAttachedName :=
  .and (.and (isAt _ rfl) (Sealed.tail adjacent))
    (.or (.or (Sealed.tail (isAt _ rfl)) (Sealed.tail (isAt _ rfl))) (Sealed.tail (isAt _ rfl)))

theorem quote? : Blind Ahead.quote? := by
  intro ts us hb hne
  simp only [Ahead.quote?, kind (fun _ => id) hb hne]

theorem endsElements : Blind Ahead.endsElements :=
  .or (.or (.or isAtAny isAtAny) isAtAny) isAtAny

theorem pounds : Blind Ahead.pounds :=
  .ite isAtAny ((text fun _ h => h.1).map List.length) (.const 0)

theorem suffix? : Blind (Ahead.suffix? mode) := by
  intro ts us hb hne
  simp only [Ahead.suffix?, kind (fun _ => id) hb hne, atLineStart (fun _ => id) hb hne]

theorem isAsyncArrow : Agrees P Ahead.isAsyncArrow :=
  .and isWord (.or (.or (Sealed.tail (isAt _ rfl)) (Sealed.tail (isAt _ rfl)))
    (Sealed.tail (isAt _ rfl)))

/-- What operator comes depends on the kind, and on the text of the token. -/
theorem infixOperator : Blind (Ahead.infixOperator mode) := by
  intro ts us hb hne
  simp only [Ahead.infixOperator, kind (fun _ => id) hb hne, text (fun _ => id) hb hne,
    atLineStart (fun _ => id) hb hne, isAsyncArrow (P := fun _ => True) hb trivial]

/-- Whether `await` is a word before an operand depends on what is behind it. -/
theorem isAwait : Agrees P Ahead.isAwait := by
  have hoperand : Sealed fun ts => ts.startsExpr && (!ts.atLineStart
      && !(ts.adjacent && (ts.isAt .period || ts.isAt .leftBrace || ts.isAt .leftParen))) := by
    refine .and startsExpr (.and (.not (atLineStart ?_)) ?_)
    · rintro _ h rfl
      cases h.2
    · exact .not (.and adjacent (.or (.or (isAt _ rfl) (isAt _ rfl)) (isAt _ rfl)))
  have hsame : Ahead.isAwait = fun ts => ts.isWord "await"
      && (fun ts : Ahead => ts.startsExpr && (!ts.atLineStart
        && !(ts.adjacent && (ts.isAt .period || ts.isAt .leftBrace || ts.isAt .leftParen))))
          ts.tail := by
    funext ts
    simp only [Ahead.isAwait, Bool.and_assoc]
  rw [hsame]
  exact isWord.and hoperand.tail

/-- Whether `_move` is a word before an operand depends on what is behind it. -/
theorem isMove : Agrees P Ahead.isMove := by
  have hname : Sealed fun ts =>
    (ts.isAt .identifier || ts.isAt .selfKw || ts.isAt .dollarIdentifier)
      && !ts.atLineStart := by
    refine .and (.or (.or (isAt _ rfl) (isAt _ rfl)) (isAt _ rfl)) (.not (atLineStart ?_))
    rintro _ h rfl
    cases h.2
  have hsame : Ahead.isMove = fun ts => ts.isWord "_move"
      && (fun ts : Ahead => (ts.isAt .identifier || ts.isAt .selfKw || ts.isAt .dollarIdentifier)
        && !ts.atLineStart) ts.tail := by
    funext ts
    rw [Ahead.isMove, Bool.and_assoc, Bool.and_comm (!_)]
  rw [hsame]
  exact isWord.and hname.tail

end Ahead.Agrees

/-! ## Names -/

theorem memberName_stable : memberName.Stable :=
  .branch (.or (.or .isName .isAtAny) .isAtAny) .advance .missing

theorem specialize_stable : specialize.Stable :=
  .ifAhead .isGenericArguments (.enclose genericArgumentClause_stable)

theorem identifier_stable : (identifier mode).Stable := by
  refine .branch (.and (.const _) .isBindingName) (.node tokenNode_stable) ?_
  exact .bind tokenNode_stable fun _ => specialize_stable

theorem implicitMember_stable : implicitMember.Stable :=
  .bind (.node (.bind .advance fun _ => memberName_stable)) fun _ => specialize_stable

theorem typeExpr_stable : typeExpr.Stable := .node type_stable

/-! ## String literals -/

theorem interpolation_stable : interpolation.Stable := by
  refine .node (.bind .advance fun _ => .bind .require fun _ => ?_)
  exact .bind (argumentList_stable (by decide)) fun _ => .require

theorem stringSegments_stable : stringSegments.Stable := by
  refine .node (.repeatWhile (.branch .isAtAny (.bind .advance fun _ => .pure true) ?_))
  refine .branch (.and .isAtAny (.not (.atLineStart fun _ h => h.1))) ?_ (.pure false)
  exact .bind interpolation_stable fun _ => .pure true

theorem openingQuote_stable : openingQuote.Stable := by
  refine .look .quote? fun quote => ?_
  cases quote with
  | some quote => exact .bind .advance fun _ => .pure _
  | none => exact .bind .missing fun _ => .pure _

theorem closingQuote_stable {pounds : Nat} {quote : SolidKind} :
    (closingQuote pounds quote).Stable := by
  refine .branch (.and .isAtAny (.not (.atLineStart fun _ h => h.1))) ?_ ?_
  · exact .bind .advance fun _ => .onlyIf .require
  · exact .bind .missing fun _ => .onlyIf .missingSpelled

theorem stringLiteral_stable : stringLiteral.Stable := by
  refine .node (.look .pounds fun pounds => .bind .skip fun _ =>
    .bind openingQuote_stable fun quote => ?_)
  exact .bind stringSegments_stable fun _ => closingQuote_stable

/-! ## Tuples, arrays and dictionaries -/

theorem tuple_stable : (tuple mode).Stable := by
  refine .node (.bind .advance fun _ => .bind (.node (.unlessAt ?_)) fun _ => .require)
  refine .bind (.commaList .endsElements ?_) fun _ => skipToCloser_stable (by decide)
  exact .bind label_stable fun _ => expr_stable

variable {dictionary : Bool}

theorem elementValue_stable : (elementValue dictionary mode).Stable :=
  .onlyIf (.bind .require fun _ => expr_stable)

theorem firstElement_stable : (firstElement mode).Stable := by
  refine .nodeBy (.bind expr_stable fun _ => .look .isAtAny fun dictionary => ?_)
  exact .bind elementValue_stable fun _ => .bind .eat fun _ => .pure _

theorem moreElements_stable : (moreElements dictionary mode).Stable :=
  .commaList .endsElements (.bind expr_stable fun _ => elementValue_stable)

theorem bracketElements_stable : (bracketElements mode).Stable := by
  refine .nodeBy (.bind firstElement_stable fun _ => .bind ?_ fun _ => ?_)
  · exact .ifAhead (.and (.const _) (.mono (.not .endsElements) fun _ h => h.1)) moreElements_stable
  · exact .bind (skipToCloser_stable (by decide)) fun _ => .pure _

theorem bracketLiteral_stable : (bracketLiteral mode).Stable := by
  refine .nodeBy (.bind .advance fun _ => .branch .isAtAny ?_ (.branch ?_ ?_ ?_))
  · exact .bind .emptyNode fun _ => .bind .advance fun _ => .pure _
  · exact .and .isAtAny (Ahead.Sealed.tail (.isAt _ rfl))
  · exact .bind .advance fun _ => .bind .emptyNode fun _ => .bind .advance fun _ => .pure _
  · exact .bind bracketElements_stable fun _ => .bind .require fun _ => .pure _

/-! ## Key paths and macros -/

theorem keyPathSubscript_stable : keyPathSubscript.Stable :=
  .bind .advance fun _ => .bind (argumentList_stable (by decide)) fun _ => .require

theorem keyPathMember_stable : keyPathMember.Stable :=
  .bind .advance fun _ => .branch .isAtAny keyPathSubscript_stable memberName_stable

theorem keyPathComponent_stable : keyPathComponent.Stable := by
  have hspelled {s : String} : Ahead.Agrees (fun ts => ts ≠ [] ∧ ts.isAt .postfixOperator = true)
    (Ahead.isSpelled s) := .isSpelled fun _ h => h.1
  refine .nodeIf (.branch .isAtAny (.bind keyPathMember_stable fun _ => .pure true) ?_)
  refine .branch (.and .isAtAny (.or hspelled hspelled)) (.bind .advance fun _ => .pure true) ?_
  refine .branch (.and .isAtAny .adjacent) ?_ (.pure false)
  exact .bind keyPathSubscript_stable fun _ => .pure true

theorem keyPathComponents_stable : keyPathComponents.Stable :=
  .node (.repeatWhile keyPathComponent_stable)

theorem keyPathRoot_stable : keyPathRoot.Stable := by
  refine .look (.kind fun _ => id) fun kind => ?_
  split
  · exact .pure false
  iterate 2
    exact .bind namedType_stable fun _ => .bind optionalSuffixes_stable fun _ => .pure true
  · exact .bind tuple_stable fun _ => .pure false
  · exact .bind .placeholder fun _ => .pure false

theorem keyPath_stable : keyPath.Stable := by
  refine .node (.bind .advance fun _ => .bind keyPathRoot_stable fun named => ?_)
  refine .branch .isAtAny keyPathComponents_stable ?_
  exact .branch (.and (.const _) .isAttachedName) (.visit _) .placeholder

theorem poundKeyPathPart_stable : poundKeyPathPart.Stable := by
  refine .bind (.branch (.or .isAtAny .isAtAny) .advance .missing) fun _ => ?_
  refine .branch (.and .isAtAny (.not (.atLineStart fun _ h => h.1))) ?_ (.pure false)
  exact .bind .advance fun _ => .pure true

theorem poundKeyPath_stable : poundKeyPath.Stable := by
  refine .bind .expect fun _ => .ite ?_ (.pure ())
  exact .bind (.repeatWhile poundKeyPathPart_stable) fun _ => .require

theorem poundArguments_stable : (poundArguments mode).Stable := by
  refine .ifAhead (.and .isAtAny (.not (.atLineStart fun _ h => h.1))) (.bind .advance fun _ => ?_)
  exact .bind (argumentList_stable (by decide)) fun _ => .require

theorem poundExpr_stable : (poundExpr mode).Stable := by
  have hobject : Ahead.Blind fun ts => objectLiterals.any ts.isSpelled :=
    (Ahead.Agrees.text fun _ => id).map fun cs => objectLiterals.any fun s => cs == s.toList
  refine .nodeBy (.look (.isSpelled fun _ => id) fun isKeyPath => .look hobject fun isObject => ?_)
  refine .bind .advance fun _ => .bind ?_ fun _ => .pure _
  exact .ite poundKeyPath_stable poundArguments_stable

/-! ## Operands -/

theorem primary_stable : (primary mode).Stable := by
  refine .look (.kind fun _ => id) fun kind => ?_
  refine .branch .isSomeOrAny (.bind typeExpr_stable fun _ => .pure false) ?_
  split
  iterate 6 exact .bind identifier_stable fun _ => .pure false
  iterate 8 exact .bind tokenNode_stable fun _ => .pure false
  iterate 4 exact .bind stringLiteral_stable fun _ => .pure false
  · exact .bind tuple_stable fun _ => .pure false
  · exact .bind bracketLiteral_stable fun _ => .pure false
  · exact .bind (.visit _) fun _ => .pure false
  · exact .bind keyPath_stable fun _ => .pure false
  · exact .bind implicitMember_stable fun _ => .pure false
  · exact .bind poundExpr_stable fun _ => .pure false
  · exact .bind typeExpr_stable fun _ => .pure false
  iterate 2 exact .bind (.node valueBinding_stable) fun _ => .pure false
  · refine .branch .isOperatorRef (.bind tokenNode_stable fun _ => .pure false) ?_
    exact .bind .placeholder fun _ => .pure true

theorem callSuffix_stable : (callSuffix mode).Stable := by
  refine .enclose (.bind .advance fun _ => .bind (argumentList_stable (by decide)) fun _ => ?_)
  exact .bind .require fun _ => optionalTrailingClosures_stable

theorem subscriptSuffix_stable : (subscriptSuffix mode).Stable := by
  refine .enclose (.bind .advance fun _ => .bind (argumentList_stable (by decide)) fun _ => ?_)
  exact .bind .require fun _ => optionalTrailingClosures_stable

theorem memberSuffix_stable : memberSuffix.Stable :=
  .bind (.enclose (.bind .advance fun _ => memberName_stable)) fun _ => specialize_stable

theorem operatorSuffix_stable : operatorSuffix.Stable := by
  refine .look ?_ fun kind => .enclose .advance
  exact .ite (.isSpelled fun _ => id) (.const _)
    (.ite (.isSpelled fun _ => id) (.const _) (.const _))

theorem suffixRule_stable (suffix : Suffix) : (suffixRule mode suffix).Stable := by
  cases suffix with
  | member => exact memberSuffix_stable
  | call => exact callSuffix_stable
  | subscript => exact subscriptSuffix_stable
  | operator => exact operatorSuffix_stable
  | closure => exact .enclose trailingClosures_stable

theorem operandRule_stable : (operandRule mode).Stable := by
  refine .bind primary_stable fun _ =>
    .ite (.pure true) (.bind (.repeatWhile ?_) fun _ => .pure false)
  refine .look .suffix? fun suffix => ?_
  cases suffix with
  | none => exact .pure false
  | some suffix => exact .bind (suffixRule_stable suffix) fun _ => .pure true

/-! ## Expressions -/

theorem unaryRule_stable {power : Nat} : (unaryRule mode power).Stable := by
  refine .branch (.and .isAtAny (.not .isOperatorRef)) (.node (.bind .advance fun _ => .call _)) ?_
  refine .branch .isAtAny (.node (.bind .advance fun _ => .bind ?_ fun _ => .call _)) ?_
  · exact .ifAhead (.and .isAtAny .adjacent) .advance
  refine .branch .isAwait (.node (.bind .advanceAs fun _ => .call _)) ?_
  exact .branch .isMove (.node (.bind .advanceAs fun _ => .call _)) (.call _)

theorem rightSide_stable {op : Infix} {power : Nat} : (rightSide mode op power).Stable := by
  have hspelled {s : String} : Ahead.Agrees (fun ts => ts ≠ [] ∧ ts.isAt .postfixOperator = true)
    (Ahead.isSpelled s) := .isSpelled fun _ h => h.1
  cases op with
  | binary => exact .bind .advance fun _ => .call _
  | ternary =>
    exact .bind .advance fun _ => .bind expr_stable fun _ => .bind .require fun _ => .call _
  | cast =>
    refine .bind .advance fun _ => .bind (.ifAhead (.and .isAtAny (.or hspelled hspelled)) .advance)
      fun _ => ?_
    exact .bind type_stable fun _ => .pure false
  | test => exact .bind .advance fun _ => .bind type_stable fun _ => .pure false
  | arrow => exact .bind effectSpecifiers_stable fun _ => .bind .require fun _ => .call _

theorem sequenceRule_stable {power : Nat} : (sequenceRule mode power).Stable := by
  refine .bind (.call _) fun _ =>
    .ite (.pure true) (.repeatUntil (.look .infixOperator fun op => ?_))
  rcases op with _ | ⟨op, p⟩
  · exact .pure _
  · dsimp only
    split
    · exact .pure _
    · exact .bind (.enclose rightSide_stable) fun _ => .pure _

end SwiftTree.Grammar
