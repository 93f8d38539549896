import SwiftTree.Grammar.Expression
import SwiftTree.Proofs.Progress.Declarations

/-!
# Operands and expressions move on

There is one lemma for each rule, in the order of the grammar. A rule that stands behind a look
takes the token that was seen, and from then on it may call any goal. What may call goals at once
are the rules of expressions, an operand before what stands in front of it, and that before a
sequence; therefore these have a bound on their place in the order of goals.
-/

namespace SwiftTree.Grammar

open Grammar.Parser

variable {test : Ahead → Prop} {rank : Nat} {mode : Mode}

/-! ## Names -/

theorem memberName_steady : memberName.Steady test rank := .branch .advance .missing

theorem specialize_steady : specialize.Steady test rank := by
  refine .ifAhead (.enclose (genericArgumentClause_takes fun ts hts => ?_).steady)
  have hgen := hts.2
  rw [Ahead.isGenericArguments, Bool.and_eq_true] at hgen
  exact Ahead.ne_nil_of_isAdjacentAngle hgen.1

theorem identifier_takes (h : ∀ ts, test ts → ts ≠ []) : (identifier mode).Takes test rank := by
  refine .branch (.node (tokenNode_takes fun ts hts => h ts hts.1)) ?_
  exact .andThen (tokenNode_takes fun ts hts => h ts hts.1) fun _ => specialize_steady

theorem implicitMember_takes (h : ∀ ts, test ts → ts ≠ []) : implicitMember.Takes test rank :=
  .andThen (.node (.andThen (.advance_takes h) fun _ => memberName_steady)) fun _ =>
    specialize_steady

theorem typeExpr_takes (hr : 2 < rank) (h : ∀ ts, test ts → ts.isIn Ahead.typeFirst) :
    typeExpr.Takes test rank := by
  refine .node (.visit_takes (fun _ _ => hr) fun ts hts => ?_)
  rw [Goal.takes, h ts hts, Bool.true_or]

/-! ## String literals -/

theorem interpolation_takes (h : ∀ ts, test ts → ts ≠ []) : interpolation.Takes test rank := by
  refine .node (.andThen (.advance_takes h) fun _ => .seq .require fun _ => ?_)
  exact .seq (argumentList_steady (by decide)) fun _ => .require

theorem stringSegments_steady : stringSegments.Steady test rank := by
  refine .node (.repeatWhile (.branch (.thenTrue (.advance_takes ?_)) ?_))
  · exact fun _ h => Ahead.ne_nil_of_isAt (by decide) h.2
  · refine .branch (.thenTrue (interpolation_takes fun ts hts => ?_)) (.answer rfl)
    exact Ahead.ne_nil_of_isAt (by decide) (Bool.and_eq_true _ _ |>.mp hts.2).1

theorem Ahead.ne_nil_of_quote? {ts : Ahead} {quote : SolidKind} (h : ts.quote? = some quote) :
    ts ≠ [] := by
  rintro rfl
  cases h

/-- There may be no quote: then nothing is taken. -/
theorem openingQuote_steady : openingQuote.Steady test rank := by
  refine .look fun quote => ?_
  cases quote with
  | none => exact .seq .missing fun _ => .pure _
  | some quote => exact .seq .advance fun _ => .pure _

/-- A delimiter or a quote is taken where one is seen. -/
theorem openingQuote_takes (h : ∀ ts, test ts → ts.quote?.isSome) :
    openingQuote.Takes test rank := by
  refine .look fun quote => ?_
  cases quote with
  | none =>
    refine .never fun ts hts => ?_
    have hsome := h ts hts.1
    rw [hts.2] at hsome
    cases hsome
  | some quote =>
    exact .andThen (.advance_takes fun _ h => Ahead.ne_nil_of_quote? h.2) fun _ => .pure _

theorem closingQuote_steady {pounds : Nat} {quote : SolidKind} :
    (closingQuote pounds quote).Steady test rank := by
  refine .branch ?_ ?_
  · exact .seq .advance fun _ => .onlyIf .require
  · exact .seq .missing fun _ => .onlyIf .missingSpelled

/-- A literal takes its delimiter or its quote, if one of them is there. -/
theorem stringLiteral_takes
    (h : ∀ ts, test ts → ts.isAt .rawStringDelimiter ∨ ts.quote?.isSome) :
    stringLiteral.Takes test rank := by
  refine .node (.look fun pounds => .ifAheadThen (.advance_takes ?_) ?_ ?_)
  · exact fun _ h => Ahead.ne_nil_of_isAt (by decide) h.2
  · refine .andThen (openingQuote_takes fun ts hts => ?_) fun _ => ?_
    · exact (h ts hts.1.1).resolve_left (ne_true_of_eq_false hts.2)
    · exact .seq stringSegments_steady fun _ => closingQuote_steady
  · refine .seq openingQuote_steady fun _ => ?_
    exact .seq stringSegments_steady fun _ => closingQuote_steady

/-! ## Tuples, arrays and dictionaries -/

theorem tuple_takes (h : ∀ ts, test ts → ts ≠ []) : (tuple mode).Takes test rank := by
  refine .node (.andThen (.advance_takes h) fun _ => .seq (.node (.ifAhead ?_)) fun _ => .require)
  refine .seq (.commaList ?_) fun _ => skipToCloser_steady
  exact .seq label_steady fun _ => expr_steady (by decide)

theorem elementValue_steady {dictionary : Bool} (hr : 5 < rank) :
    (elementValue dictionary mode).Steady test rank :=
  .onlyIf (.seq .require fun _ => expr_steady hr)

/-- What decides between an array and a dictionary may take nothing, where an element is missing. -/
theorem firstElement_steady (hr : 5 < rank) : (firstElement mode).Steady test rank := by
  refine .nodeBy (.seq (expr_steady hr) fun _ => .look fun dictionary => ?_)
  exact .seq (elementValue_steady hr) fun _ => .seq (Parser.Moves.eat (by decide)).steady
    fun _ => .pure _

theorem moreElements_steady {dictionary : Bool} (hr : 5 < rank) :
    (moreElements dictionary mode).Steady test rank :=
  .commaList (.seq (expr_steady hr) fun _ => elementValue_steady hr)

theorem bracketElements_steady (hr : 5 < rank) : (bracketElements mode).Steady test rank := by
  refine .nodeBy (.seq (firstElement_steady hr) ?_)
  rintro ⟨dictionary, comma⟩
  refine .seq (.ifAhead (moreElements_steady hr)) fun _ => ?_
  exact .seq skipToCloser_steady fun _ => .pure _

theorem bracketLiteral_takes (h : ∀ ts, test ts → ts ≠ []) :
    (bracketLiteral mode).Takes test rank := by
  refine .nodeBy (.andThen (.advance_takes h) fun _ => .branch ?_ (.branch ?_ ?_))
  · exact .seq .emptyNode fun _ => .seq .advance fun _ => .pure _
  · exact .seq .advance fun _ => .seq .emptyNode fun _ => .seq .advance fun _ => .pure _
  · refine .seq (bracketElements_steady (by decide)) fun _ => ?_
    exact .seq .require fun _ => .pure _

/-! ## Key paths and macros -/

theorem keyPathSubscript_takes (h : ∀ ts, test ts → ts ≠ []) :
    keyPathSubscript.Takes test rank := by
  refine .andThen (.advance_takes h) fun _ => ?_
  exact .seq (argumentList_steady (by decide)) fun _ => .require

theorem keyPathMember_takes (h : ∀ ts, test ts → ts ≠ []) : keyPathMember.Takes test rank := by
  refine .andThen (.advance_takes h) fun _ => .branch ?_ memberName_steady
  exact (keyPathSubscript_takes fun _ h => Ahead.ne_nil_of_isAt (by decide) h.2).steady

/-- A component of a key path takes something if it answers that another one may follow. -/
theorem keyPathComponent_takesIf : keyPathComponent.TakesIf test rank := by
  refine .nodeIf (.branch (.thenTrue (keyPathMember_takes ?_)) ?_)
  · exact fun _ h => Ahead.ne_nil_of_isAt (by decide) h.2
  refine .branch (.thenTrue (.advance_takes fun ts hts => ?_)) ?_
  · exact Ahead.ne_nil_of_isAt (by decide) (Bool.and_eq_true _ _ |>.mp hts.2).1
  refine .branch (.thenTrue (keyPathSubscript_takes fun ts hts => ?_)) (.answer rfl)
  exact Ahead.ne_nil_of_isAt (by decide) (Bool.and_eq_true _ _ |>.mp hts.2).1

theorem keyPathComponents_steady : keyPathComponents.Steady test rank :=
  .node (.repeatWhile keyPathComponent_takesIf)

theorem keyPathRoot_steady : keyPathRoot.Steady test rank := by
  refine .look fun kind => ?_
  split
  · exact .pure _
  · exact .seq namedType_steady fun _ => .seq optionalSuffixes_steady fun _ => .pure _
  · exact .seq namedType_steady fun _ => .seq optionalSuffixes_steady fun _ => .pure _
  · exact .seq (tuple_takes fun _ h => Ahead.ne_nil_of_kind_eq (by decide) h.2).steady
      fun _ => .pure _
  · exact .seq .placeholder fun _ => .pure _

theorem keyPath_takes (h : ∀ ts, test ts → ts ≠ []) : keyPath.Takes test rank := by
  refine .node (.andThen (.advance_takes h) fun _ => .seq keyPathRoot_steady fun named => ?_)
  exact .branch keyPathComponents_steady (.branch .visitAny .placeholder)

theorem poundKeyPathName_steady : poundKeyPathName.Steady test rank := .branch .advance .missing

theorem poundKeyPathPart_takesIf : poundKeyPathPart.TakesIf test rank := by
  refine .seq poundKeyPathName_steady fun _ => .branch (.thenTrue (.advance_takes ?_)) (.answer rfl)
  exact fun ts hts => Ahead.ne_nil_of_isAt (by decide) (Bool.and_eq_true _ _ |>.mp hts.2).1

theorem poundKeyPath_steady : poundKeyPath.Steady test rank := by
  refine .andThenIf .expect (.seq (.repeatWhile ?_) fun _ => .require) (.pure ())
  exact poundKeyPathPart_takesIf

theorem poundArguments_steady : (poundArguments mode).Steady test rank := by
  refine .ifAhead (.behind (.advance_takes fun ts hts => ?_) fun _ => ?_)
  · exact Ahead.ne_nil_of_isAt (by decide) (Bool.and_eq_true _ _ |>.mp hts.2).1
  · exact .seq (argumentList_steady (by decide)) fun _ => .require

theorem poundRest_steady {isKeyPath : Bool} : (poundRest isKeyPath mode).Steady test rank := by
  cases isKeyPath
  · exact poundArguments_steady
  · exact poundKeyPath_steady

theorem poundExpr_takes (h : ∀ ts, test ts → ts ≠ []) : (poundExpr mode).Takes test rank := by
  refine .nodeBy (.look fun _ => .look fun _ => ?_)
  refine .andThen (.advance_takes fun ts hts => h ts hts.1.1) fun _ => ?_
  exact .seq poundRest_steady fun _ => .pure _

/-! ## Operands -/

theorem Ahead.ne_nil_of_isOperatorRef {ts : Ahead} (h : ts.isOperatorRef) : ts ≠ [] := by
  rw [isOperatorRef, Bool.and_eq_true] at h
  exact ne_nil_of_isOperator h.1

/-- An operand takes something where it says so, and is missing elsewhere. -/
theorem primary_moves {n : Nat} (hr : 2 < rank) (hn : n ≤ 1)
    (h : ∀ ts, test ts → 0 < n → (Goal.operand mode).takes ts) :
    (primary mode).Moves test rank fun _ => n := by
  have found {test' : Ahead → Prop} {p : Parser Unit} (hp : p.Takes test' rank) :
      Parser.Moves test' rank (fun _ => n) (do
        p
        return false) := .upTo (.andThen hp fun _ => .pure _) hn
  have ne {k : Kind} (hk : k ≠ .endOfFile) (ts : Ahead)
      (hts : (test ts ∧ ts.kind = k) ∧ ts.isSomeOrAny = false) : ts ≠ [] :=
    Ahead.ne_nil_of_kind_eq hk hts.1.2
  refine .look fun kind => .branch ?_ ?_
  · exact found (typeExpr_takes hr fun ts hts => Ahead.isIn_typeFirst_of_isSomeOrAny hts.2)
  split
  iterate 6 exact found (identifier_takes (ne (by decide)))
  iterate 8 exact found (tokenNode_takes (ne (by decide)))
  · exact found (stringLiteral_takes fun ts hts => .inl (beq_iff_eq.mpr hts.1.2))
  iterate 3
    exact found (stringLiteral_takes fun ts hts => .inr (by rw [Ahead.quote?, hts.1.2]; rfl))
  · exact found (tuple_takes (ne (by decide)))
  · exact found (bracketLiteral_takes (ne (by decide)))
  · have brace (ts : Ahead) (hts : (test ts ∧ ts.kind = .leftBrace) ∧ ts.isSomeOrAny = false) :
        ts.isAt .leftBrace := beq_iff_eq.mpr hts.1.2
    refine found (.visit_takes (fun ts hts => ?_) brace)
    rw [Goal.rank, if_pos (brace ts hts)]
    exact Nat.zero_lt_of_lt hr
  · exact found (keyPath_takes (ne (by decide)))
  · exact found (implicitMember_takes (ne (by decide)))
  · exact found (poundExpr_takes (ne (by decide)))
  · refine found (typeExpr_takes hr fun ts hts => ?_)
    rw [Ahead.isIn, hts.1.2]
    decide
  · exact found (.node (valueBinding_takes (ne (by decide))))
  · exact found (.node (valueBinding_takes (ne (by decide))))
  · refine .branch (found (tokenNode_takes fun ts hts => Ahead.ne_nil_of_isOperatorRef hts.2)) ?_
    -- here the operand is missing, so it may not have promised to take something
    rcases Nat.eq_zero_or_pos n with rfl | hpos
    · exact .seq .placeholder fun _ => .pure _
    · refine .never fun ts hts => ?_
      have htakes := h ts hts.1.1.1 hpos
      simp only [Goal.takes, Ahead.startsOperand, Ahead.startsExpr, hts.2, Ahead.isIn, Ahead.isAt,
        hts.1.1.2, Ahead.exprFirst, KindSet.contains_ofList, List.contains_eq_mem, List.mem_cons,
        List.not_mem_nil] at htakes
      clear h found ne
      grind

theorem callSuffix_takes (h : ∀ ts, test ts → ts ≠ []) : (callSuffix mode).Takes test rank := by
  refine .enclose (.andThen (.advance_takes h) fun _ => .seq ?_ fun _ => .seq .require fun _ => ?_)
  · exact argumentList_steady (by decide)
  · exact optionalTrailingClosures_steady (by decide)

theorem subscriptSuffix_takes (h : ∀ ts, test ts → ts ≠ []) :
    (subscriptSuffix mode).Takes test rank := by
  refine .enclose (.andThen (.advance_takes h) fun _ => .seq ?_ fun _ => .seq .require fun _ => ?_)
  · exact argumentList_steady (by decide)
  · exact optionalTrailingClosures_steady (by decide)

theorem memberSuffix_takes (h : ∀ ts, test ts → ts ≠ []) : memberSuffix.Takes test rank :=
  .andThen (.enclose (.andThen (.advance_takes h) fun _ => memberName_steady)) fun _ =>
    specialize_steady

theorem operatorSuffix_takes (h : ∀ ts, test ts → ts ≠ []) : operatorSuffix.Takes test rank :=
  .look fun _ => .enclose (.advance_takes fun ts hts => h ts hts.1)

/-- A suffix starts with a token. -/
theorem Ahead.ne_nil_of_suffix? {ts : Ahead} {suffix : Suffix}
    (h : ts.suffix? mode = some suffix) : ts ≠ [] := by
  rintro rfl
  rw [suffix?] at h
  split at h <;> cases h

/-- Each way to go on starts with a token of its own. -/
theorem Ahead.kind_of_suffix? {ts : Ahead} {suffix : Suffix} (h : ts.suffix? mode = some suffix) :
    ts.kind = match suffix with
      | .member => .period
      | .call => .leftParen
      | .subscript => .leftBracket
      | .operator => .postfixOperator
      | .closure => .leftBrace := by
  rw [suffix?] at h
  grind

/-- Each suffix takes the token that it starts with. -/
theorem suffixRule_takes {suffix : Suffix} (hr : 0 < rank)
    (h : ∀ ts, test ts → ts.suffix? mode = some suffix) :
    (suffixRule mode suffix).Takes test rank := by
  have hne := fun ts hts => Ahead.ne_nil_of_suffix? (h ts hts)
  cases suffix with
  | member => exact memberSuffix_takes hne
  | call => exact callSuffix_takes hne
  | subscript => exact subscriptSuffix_takes hne
  | operator => exact operatorSuffix_takes hne
  | closure =>
    exact .enclose (trailingClosures_takes hr fun ts hts =>
      beq_iff_eq.mpr (Ahead.kind_of_suffix? (h ts hts)))

/-- An operand takes something where one starts. Nothing is called before that but goals below it in
the order. -/
theorem operandRule_moves {n : Nat} (hr : 2 < rank) (hn : n ≤ 1)
    (h : ∀ ts, test ts → 0 < n → (Goal.operand mode).takes ts) :
    (operandRule mode).Moves test rank fun _ => n := by
  refine .thenSteady (primary_moves hr hn h) fun missing => ?_
  cases missing with
  | true => exact .pure _
  | false =>
    refine .seq (.repeatWhile (.look fun suffix => ?_)) fun _ => .pure _
    cases suffix with
    | none => exact .answer rfl
    | some suffix =>
      exact .thenTrue (suffixRule_takes (Nat.zero_lt_of_lt hr) fun ts hts => hts.2)

/-! ## Expressions -/

/-- What stands before an operand is taken before the rule calls itself; where nothing does, the
operand is next in the order. -/
theorem unaryRule_moves {power n : Nat} (hr : 3 < rank) (hn : n ≤ 1)
    (h : ∀ ts, test ts → 0 < n → ts.startsOperand) :
    (unaryRule mode power).Moves test rank fun _ => n := by
  refine .branch (.upTo (.node (.andThen (.advance_takes fun ts hts => ?_) fun _ => .callAny)) hn)
    ?_
  · exact Ahead.ne_nil_of_isAt (by decide) (Bool.and_eq_true _ _ |>.mp hts.2).1
  refine .branch (.upTo (.node (.andThen (.advance_takes fun ts hts => ?_) fun _ => ?_)) hn) ?_
  · exact Ahead.ne_nil_of_isAt (by decide) hts.2
  · exact .seq (.ifAhead .advance) fun _ => .callAny
  refine .branch (.upTo (.node (.andThen (.advanceAs_takes fun ts hts => ?_) fun _ => ?_)) hn) ?_
  · have hawait := hts.2
    simp only [Ahead.isAwait, Bool.and_eq_true] at hawait
    exact Ahead.ne_nil_of_isWord hawait.1.1.1
  · exact .callAny
  refine .branch (.upTo (.node (.andThen (.advanceAs_takes fun ts hts => ?_) fun _ => ?_)) hn) ?_
  · have hmove := hts.2
    simp only [Ahead.isMove, Bool.and_eq_true] at hmove
    exact Ahead.ne_nil_of_isWord hmove.1.1
  · exact .callAny
  refine .call (fun _ _ => hr) hn fun ts hts hpos => ?_
  rw [Goal.takes, h ts hts.1.1.1.1 hpos, hts.1.1.2, hts.1.1.1.2]
  rfl

/-- An operator is a token. -/
theorem Ahead.ne_nil_of_infixOperator {ts : Ahead} {op : Infix × Power}
    (h : ts.infixOperator mode = some op) : ts ≠ [] := by
  rintro rfl
  rw [infixOperator] at h
  split at h <;> cases h

theorem Ahead.isEffect_or_isAt_arrow {ts : Ahead} {power : Power}
    (h : ts.infixOperator mode = some (.arrow, power)) : ts.isEffect ∨ ts.isAt .arrow := by
  rw [infixOperator] at h
  grind [isEffect, isAt, isAsyncArrow]

/-- What stands between two operands is taken. -/
theorem rightSide_takes {op : Infix} {power : Nat}
    (h : ∀ ts, test ts → ∃ p, ts.infixOperator mode = some (op, p)) :
    (rightSide mode op power).Takes test rank := by
  have hne (ts : Ahead) (hts : test ts) : ts ≠ [] :=
    Ahead.ne_nil_of_infixOperator (h ts hts).choose_spec
  cases op with
  | binary => exact .andThen (.advance_takes hne) fun _ => .callAny
  | ternary =>
    refine .andThen (.advance_takes hne) fun _ => .seq (expr_steady (by decide)) fun _ => ?_
    exact .seq .require fun _ => .callAny
  | cast =>
    refine .andThen (.advance_takes hne) fun _ => .seq (.ifAhead .advance) fun _ => ?_
    exact .seq (type_steady (by decide)) fun _ => .pure _
  | test =>
    refine .andThen (.advance_takes hne) fun _ => ?_
    exact .seq (type_steady (by decide)) fun _ => .pure _
  | arrow =>
    refine .ifAheadThen (.node (.repeatWhile_takes effect_takesIf (effect_takes fun _ h => h.2))) ?_
      (.seq .require fun _ => .callAny)
    refine .andThen (.require_takes fun ts hts => ?_) fun _ => .callAny
    obtain ⟨p, hp⟩ := h ts hts.1
    exact (Ahead.isEffect_or_isAt_arrow hp).resolve_left (ne_true_of_eq_false hts.2)

/-- Operands with operators between them take something where one starts: the first one does, and
behind it there is a token in each round. -/
theorem sequenceRule_moves {power n : Nat} (hr : 4 < rank) (hn : n ≤ 1)
    (h : ∀ ts, test ts → 0 < n → ts.startsOperand) :
    (sequenceRule mode power).Moves test rank fun _ => n := by
  refine .thenSteady (.call (fun _ _ => hr) hn h) fun missing => ?_
  cases missing with
  | true => exact .pure _
  | false =>
    refine .repeatUntil (.look fun op => ?_)
    rcases op with _ | ⟨op, p⟩
    · exact .answer rfl
    · by_cases hp : p.left < power
      · simp only [if_pos hp]
        exact .answer rfl
      · simp only [if_neg hp]
        refine .bind (.enclose (rightSide_takes fun ts hts => ⟨p, hts.2⟩)) (fun _ => .pure _)
          (fun _ => .inl (Nat.le_refl _)) fun _ a => Bool.toNat_le a.isNone

end SwiftTree.Grammar
