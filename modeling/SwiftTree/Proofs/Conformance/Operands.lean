import SwiftTree.Grammar.Operand
import SwiftTree.Proofs.Conformance.Declarations
import SwiftTree.Proofs.Progress.Operands

/-!
# The shapes of closures, arguments and operands

There is one lemma for each rule, in the order of the grammar, up to operands with what is attached
to them. Operands are put together as types are. Of string literals there is more to say than a
shape: how a literal ends depends on how it starts (`Opens`, `Closes`).
-/

namespace SwiftTree.Grammar

open Grammar.Parser Shape

variable {test : Ahead → Prop} {mode : Mode}

/-! ## Signatures -/

theorem captureSpecifier_makes :
    Grammar.captureSpecifier.Makes test Shape.captureSpecifier := by
  refine .orElse (.eatWord rfl) (.pure ()) (.right ?_) fun _ => .left
  refine .seq (.eatWord_opt rfl) fun _ => .ifAhead ?_
  refine .seq (.advance fun ts hts => ?_) fun _ => .seq (.skip (by decide)) fun _ => .require
  exact Bool.and_elim_left hts.2

theorem captureClause_makes (h : ∀ ts, test ts → ts.isAt .leftBracket) :
    captureClause.Makes test (one .closureCaptureClause) := by
  have hname : (advanceBy 2).Makes
      (fun ts => True ∧ (ts.isName && Ahead.isAt .equal ts.tail) = true)
      (.seq word (tok .equal)) :=
    .advanceThen (fun ts hts => Bool.and_elim_left hts.2)
      (.thenPure (.advance fun _ h => h)) fun ts hts => Bool.and_elim_right hts.2
  refine .node (.seq (.advance h) fun _ => .seq (.ifAhead ?_) fun _ => .require)
  refine .seq (.commaList (.seq (.ifAhead captureSpecifier_makes) fun _ => ?_) rfl)
    fun _ => skipToCloser_makes
  exact .seq (.ifAhead hname) fun _ => expr_makes

/-- Parameters of a closure stand in parentheses, or are a list of names. -/
theorem closureParameters_makes : closureParameters.Makes test
    (.alt (one .parameterClause) (opt (one .closureParamList))) := by
  refine .branch (.left parameterClause_makes) (.right (.ifAhead (.node ?_)))
  have hname : advance.Makes (fun ts => Ahead.isName ts = true) word := .advance fun _ h => h
  refine .commaListFrom hname rfl ?_ ?_
  · intro ts hts
    rw [Bool.or_eq_false_iff, Bool.not_eq_false'] at hts
    exact hts.1
  · intro ts hts
    simp only [Bool.and_eq_true] at hts
    exact hts.2.1.1

/-- Everything in a signature may be absent but the word `in`, which may be missing. -/
theorem closureSignature_makes : closureSignature.Makes test (one .closureSignature) := by
  refine .node (.seq attributes_makes fun _ => .seq (.ifAhead ?_) fun _ => ?_)
  · exact captureClause_makes fun _ h => h.2
  refine .seq closureParameters_makes fun _ => .seq effectSpecifiers_makes fun _ => ?_
  exact .seq (.ifAhead returnClause_makes) fun _ => .require

theorem closureRule_makes : closureRule.Makes test (one .closureExpr) := by
  refine .node (.seq .require fun _ => .seq (.ifAhead closureSignature_makes) fun _ => ?_)
  exact .seq .visit fun _ => .require

/-! ## Arguments -/

theorem argumentList_makes {closer : Kind} {barriers : KindSet} :
    (argumentList closer barriers mode).Makes test (one .argumentList) := by
  refine .node (.ifAhead (.seq (.commaList ?_ rfl) fun _ => skipToCloser_makes))
  exact .seq label_makes fun _ => expr_makes

theorem trailingClosures_makes : trailingClosures.Makes test trailing := by
  refine .seq .visit fun _ => .whileAhead (.node ?_)
  refine .seq (advanceBy_label fun ts hts => ?_) fun _ => .visit
  simp only [Bool.and_eq_true] at hts
  exact hts.1.1

theorem optionalTrailingClosures_makes :
    (optionalTrailingClosures mode).Makes test (opt trailing) := .ifAhead trailingClosures_makes

/-! ## Names -/

theorem memberName_makes : memberName.Makes test member :=
  .branch (.left (.advance fun _ h => h.2)) (.right (.missing rfl))

theorem Ahead.isOperatorFrom_of_isGenericArguments {ts : Ahead} (h : ts.isGenericArguments) :
    ts.isOperatorFrom '<' := isOperatorFrom_of_isAdjacentAngle (Bool.and_elim_left h)

/-- Arguments for generic parameters go around the newest node. -/
theorem specialize_wraps : specialize.Wraps test Kind.isOperand := by
  refine .ifAhead (.enclose (genericArgumentClause_makes fun ts hts => ?_) rfl ?_)
  · exact Ahead.isOperatorFrom_of_isGenericArguments hts.2
  · exact fun _ => Kind.isExpression_of_isOperand

theorem identifier_makes
    (h : ∀ ts, test ts → ts.heads fun k => k == .identifier || k == .dollarIdentifier ||
      k == .selfKw
      || k == .capitalSelfKw || k == .superKw || k == .initKw) :
    (identifier mode).Makes test (.node Kind.isOperand) := by
  refine .branch (.node (.node (.advance fun ts hts => ?_)))
    (.wrap (.node (.advance ?_)) fun _ => ?_)
  · have hname := hts.2
    simp only [Ahead.isBindingName, Bool.and_eq_true] at hname
    exact Ahead.heads_of_kind (beq_iff_eq.mp hname.2.1) rfl
  · exact fun ts hts => h ts hts.1
  · exact specialize_wraps

theorem implicitMember_makes (h : ∀ ts, test ts → ts.isAt .period) :
    implicitMember.Makes test (.node Kind.isOperand) :=
  .wrap (.node (.seq (.advance h) fun _ => memberName_makes)) fun _ => specialize_wraps

theorem typeExpr_makes : typeExpr.Makes test (one .typeExpr) := .node type_makes

/-! ## String literals -/

theorem interpolation_makes (h : ∀ ts, test ts → ts.isAt .backslash) :
    interpolation.Makes test (one .expressionSegment) := by
  refine .node (.seq (.advance h) fun _ => .seq .require fun _ => ?_)
  exact .seq argumentList_makes fun _ => .require

theorem stringSegments_makes : stringSegments.Makes test (one .stringSegmentList) := by
  refine .node (.repeatWhile (.branch ?_ (.branch ?_ (Adds.answer fun _ _ => .none))))
  · exact .once (.left (.thenPure (.advance fun _ h => h.2)))
  · refine .once (.right (.thenPure (interpolation_makes fun ts hts => ?_)))
    exact Bool.and_elim_left hts.2

/-- What opens a literal is a quote, and the kind of the quote is its own. -/
theorem Ahead.isStringQuote_of_quote? {ts : Ahead} {quote : SolidKind}
    (h : ts.quote? = some quote) :
    ts.kind = quote ∧ quote.1.isStringQuote := by
  unfold quote? at h
  split at h
  · rename_i hkind
    obtain rfl := Option.some.inj h
    exact ⟨hkind, rfl⟩
  · rename_i hkind
    obtain rfl := Option.some.inj h
    exact ⟨hkind, rfl⟩
  · rename_i hkind
    obtain rfl := Option.some.inj h
    exact ⟨hkind, rfl⟩
  · cases h

/-- The opening quote, of the kind that is handed on. -/
theorem openingQuote_adds : openingQuote.Adds test fun quote _ gs =>
    quote.1.isStringQuote ∧ (needed quote.1).Matches gs := by
  refine .look fun quote => ?_
  cases quote with
  | none =>
    exact .returns (@Makes.missing _ (· == Kind.stringQuote) _ _ (beq_self_eq_true _))
      fun _ _ _ hgs => ⟨rfl, .right hgs⟩
  | some quote =>
    by_cases hquote : quote.1.isStringQuote
    · refine .returns (Makes.advanceAt (fun ts hts => ?_) (Kind.ne_endOfFile_of_isSolid quote.2))
        fun _ _ _ hgs => ⟨hquote, .left hgs⟩
      exact beq_iff_eq.mpr (Ahead.isStringQuote_of_quote? hts.2).1
    · exact fun ts _ hts => absurd (Ahead.isStringQuote_of_quote? hts.2).2 hquote

/-- The closing quote is there with what delimiter stands behind it, or it is missing, with a
delimiter if one is awaited. -/
theorem closingQuote_makes {pounds : Nat} {quote : SolidKind} (h : quote.1.isStringQuote) :
    (closingQuote pounds quote).Makes test
      (.alt (.seq (.token Kind.isStringQuote) (opt (needed .rawStringDelimiter)))
        (.seq (.missing Kind.isStringQuote) (opt (.missing (· == .rawStringDelimiter))))) := by
  refine .branch (.left (.seq (.advance fun ts hts => ?_) fun _ => .onlyIf_opt .require))
    (.right (.seq (.missing h) fun _ => .onlyIf_opt (.missingSpelled rfl (.inl rfl))))
  have hkind : ts.isAt quote := Bool.and_elim_left hts.2
  exact Ahead.heads_of_kind (beq_iff_eq.mp hkind) h

/-- What is added before the opening quote: a raw delimiter of some length, or nothing. -/
def Opens (pounds : Nat) (gs : List Green) : Prop :=
  (pounds = 0 ∧ gs = []) ∨ (0 < pounds ∧ ∃ t : Token.Outline, gs = [.leaf (.present t)] ∧
    t.kind = .rawStringDelimiter ∧ t.text.length = pounds)

/-- What is added behind the content of a literal that a raw delimiter of some length and a quote
open. -/
def Closes (pounds : Nat) (quote : Kind) (gs : List Green) : Prop :=
  ∃ closing : Green.Leaf, closing.kind = quote ∧ ((pounds = 0 ∧ gs = [.leaf closing]) ∨
    (0 < pounds ∧ ∃ delimiter : Green.Leaf, gs = [.leaf closing, .leaf delimiter] ∧
      delimiter.kind = .rawStringDelimiter ∧ (closing.isPresent = false →
        delimiter = .missing .rawStringDelimiter (List.replicate pounds '#'))))

/-- What opens a literal and what closes it go together. -/
theorem Closes.delimited {pounds : Nat} {front back cs : List Green} {opening : Green.Leaf}
    (hfront : Opens pounds front) (hquote : opening.kind.isStringQuote)
    (hback : Closes pounds opening.kind back) :
    Green.Delimited (front ++ ([.leaf opening] ++ ([.node .stringSegmentList cs] ++ back))) := by
  obtain ⟨closing, hkind, ⟨hzero, rfl⟩ | ⟨hpos, delimiter, rfl, hdelimiter, hmissing⟩⟩ := hback
  · rcases hfront with ⟨-, rfl⟩ | ⟨hpos, -⟩
    · exact .quoted hquote hkind
    · exact absurd hzero (Nat.ne_of_gt hpos)
  · rcases hfront with ⟨hzero, -⟩ | ⟨-, t, rfl, ht, rfl⟩
    · exact absurd hzero (Nat.ne_of_gt hpos)
    · exact .raw ht hquote hkind hdelimiter hmissing

/-- The delimiter before a quote has the length that was seen ahead. -/
theorem pounds_adds {pounds : Nat} (h : ∀ ts, test ts → ts.pounds = pounds) :
    (skip .rawStringDelimiter).Adds test fun _ _ => Opens pounds := by
  refine .branch (fun ts built hts => ?_) (.answer fun ts hts => ?_)
  · obtain ⟨x, us, rfl, hkind⟩ := Ahead.exists_of_heads (Ahead.heads_of_isAt (by decide) hts.2)
    have hpounds := h _ hts.1
    rw [Ahead.pounds, if_pos hts.2] at hpounds
    refine ⟨Ahead.mayTake_none _, [Green.token x.token], rfl, ⟨trivial, trivial⟩, .inr ⟨?_, ?_⟩⟩
    · rw [← hpounds]
      exact List.length_pos_iff.mpr x.solid.1
    · exact ⟨x.token.outline, rfl, beq_iff_eq.mp hkind,
        (congrArg List.length x.token.text_outline).trans hpounds⟩
  · have hpounds := h ts hts.1
    rw [Ahead.pounds, hts.2, if_neg Bool.false_ne_true] at hpounds
    exact .inl ⟨hpounds.symm, rfl⟩

/-- The end of a literal fits its start: the closing quote has the kind of the opening one, and the
delimiter its length. -/
theorem closingQuote_adds {pounds : Nat} {quote : SolidKind} :
    (closingQuote pounds quote).Adds test fun _ _ => Closes pounds quote := by
  have hquote (ts : Ahead) (hts : ts.isAt quote && !ts.atLineStart) : ts.isAt quote :=
    Bool.and_elim_left hts
  refine .branch ?_ ?_
  · refine .before (Makes.advanceAt (fun ts hts => hquote ts hts.2)
      (Kind.ne_endOfFile_of_isSolid quote.2)) fun _ => ?_
    cases pounds with
    | zero =>
      refine .answer fun _ _ gs hgs => ?_
      obtain ⟨t, rfl, ht⟩ := hgs.exists_token
      exact ⟨.present t, beq_iff_eq.mp ht, .inl ⟨rfl, rfl⟩⟩
    | succ n =>
      refine .mono Makes.require (fun _ h => h) fun _ _ hs hhs gs hgs => ?_
      obtain ⟨t, rfl, ht⟩ := hgs.exists_token
      obtain ⟨delimiter, rfl, hdelimiter⟩ := hhs.exists_leaf
      exact ⟨.present t, beq_iff_eq.mp ht, .inr ⟨n.succ_pos, delimiter, rfl, hdelimiter, nofun⟩⟩
  · -- a quote on a later line opens another literal
    refine .onto .missingSpelled fun _ => ?_
    cases pounds with
    | zero =>
      refine .answer fun _ _ _ _ hgs => ?_
      rw [hgs]
      exact ⟨.missing quote _, rfl, .inl ⟨rfl, rfl⟩⟩
    | succ n =>
      refine .mono .missingSpelled (fun _ h => h) fun _ _ hs hhs _ gs hgs => ?_
      rw [hgs, hhs]
      exact ⟨.missing quote _, rfl, .inr ⟨n.succ_pos, _, rfl, rfl, fun _ => rfl⟩⟩

/-- The parts of a string literal have its shape, and what opens the literal goes together with what
closes it. -/
theorem stringLiteral_makes : stringLiteral.Makes test (one .stringLiteralExpr) := by
  refine Adds.node (.mono (@Adds.and _ _ (fun _ _ => (Kind.shape .stringLiteralExpr).Matches)
    (fun _ _ => Green.Delimited) _ ?_ ?_) (fun _ h => h) ?_)
  · refine Makes.look fun pounds => .seq (.skip (by decide)) fun _ => ?_
    refine .behind (fun _ => _) openingQuote_adds (fun quote => ?_) fun quote _ _ _ hgs hhs =>
      .seq (hgs.2.needed_among hgs.1) hhs
    by_cases hquote : quote.1.isStringQuote
    · exact .seq stringSegments_makes fun _ => closingQuote_makes hquote
    · exact .never fun us hus => hquote hus.choose_spec.1
  · refine .look fun pounds => .onto (pounds_adds fun _ hts => hts.2) fun _ => ?_
    refine .onto openingQuote_adds fun quote => .before stringSegments_makes fun _ => ?_
    refine .mono closingQuote_adds (fun _ h => h) ?_
    rintro _ _ back hback segments hsegments _ opening ⟨hquote, hopening⟩ _ front hfront
    obtain ⟨kind, cs, rfl, hkind⟩ := hsegments.exists_node
    obtain rfl := beq_iff_eq.mp hkind
    obtain ⟨l, rfl, hl⟩ := hopening.exists_leaf
    exact Closes.delimited hfront (by rwa [hl]) (by rwa [hl])
  · rintro _ _ gs ⟨hshape, hdelimited⟩
    have hadmits : Green.Admits .stringLiteralExpr gs :=
      ⟨hshape, Green.grouped_of_not_isOperation rfl, fun _ => hdelimited⟩
    exact ⟨⟨hadmits, hshape, fun _ => Green.hasKeyword_of_not_isKeyed rfl gs⟩, .node rfl⟩

/-! ## Tuples, arrays and dictionaries -/

theorem tuple_makes (h : ∀ ts, test ts → ts.isAt .leftParen) :
    (tuple mode).Makes test (one .tupleExpr) := by
  refine .node (.seq (.advance h) fun _ => .seq (.node (.ifAhead ?_)) fun _ => .require)
  exact .seq (.commaList (.seq label_makes fun _ => expr_makes) rfl) fun _ => skipToCloser_makes

theorem elementValue_makes {dictionary : Bool} : (elementValue dictionary mode).Makes test
    (if dictionary then .seq (needed .colon) Shape.expr else .nothing) :=
  .onlyIf (.seq .require fun _ => expr_makes)

theorem plainShape_elementKind (dictionary : Bool) :
    (elementKind dictionary).1.plainShape = bracketElement dictionary := by
  cases dictionary <;> rfl

/-- The first element is one of the literal that it makes. -/
theorem firstElement_adds : (firstElement mode).Adds test fun x _ gs =>
    (one (elementKind x.1).1).Matches gs := by
  refine .nodeBy (.before expr_makes fun _ => .look fun dictionary => ?_)
  refine .before elementValue_makes fun _ => .returns (Makes.eat_opt (by decide)) ?_
  intro _ _ comma hcomma value hvalue key hkey
  refine ⟨Green.exact_plain ?_, .node (beq_self_eq_true _)⟩
  rw [plainShape_elementKind, ← List.append_assoc]
  exact .seq (.seq hkey hvalue) hcomma

theorem moreElements_makes {dictionary : Bool} : (moreElements dictionary mode).Makes test
    (list (elementKind dictionary).1) :=
  .commaList (.seq expr_makes fun _ => elementValue_makes) (plainShape_elementKind dictionary)

/-- The list of the elements is one of the literal that the first element makes. -/
theorem bracketElements_adds : (Grammar.bracketElements mode).Adds test fun dictionary _ =>
    (one (if dictionary then .dictionaryElementList else .arrayElementList)).Matches := by
  refine .nodeBy (.before firstElement_adds fun x => ?_)
  obtain ⟨dictionary, comma⟩ := x
  refine .before (Makes.ifAhead moreElements_makes) fun _ => ?_
  refine .returns skipToCloser_makes fun _ _ skipped hskipped more hmore first hfirst => ?_
  cases dictionary with
  | true =>
    exact ⟨Green.exact_plain (.left (.seq hfirst (.seq hmore hskipped))), .node rfl⟩
  | false =>
    exact ⟨Green.exact_plain (.left (.seq hfirst (.seq hmore hskipped))), .node rfl⟩

/-- Brackets hold an array or a dictionary, which the first colon decides. -/
theorem bracketLiteral_makes {kinds : Kind → Bool} (harray : kinds .arrayExpr)
    (hdictionary : kinds .dictionaryExpr) (h : ∀ ts, test ts → ts.isAt .leftBracket) :
    (bracketLiteral mode).Makes test (.node kinds) := by
  refine .nodeBy (.before (Makes.advanceAt h (by decide)) fun _ => .branch ?_ (.branch ?_ ?_))
  · refine .passing (Makes.emptyNode_keeps (.right .nothing)) fun _ => ?_
    refine .returns (Makes.advanceAt (fun _ h => h.2) (by decide)) ?_
    intro _ _ closer hcloser elements helements bracket hbracket
    refine ⟨Green.exact_plain ?_, .node harray⟩
    exact .seq hbracket (.seq helements (.left hcloser))
  · -- in an empty dictionary the colon stands for all elements
    have hcolon : Grammar.advance.Adds
        (fun ts => (True ∧ ts.isAt .rightBracket = false) ∧
          (ts.isAt .colon && Ahead.isAt .rightBracket ts.tail) = true)
        fun _ us gs => us.isAt .rightBracket ∧ (tok .colon).Matches gs :=
      Makes.advancePast (fun _ hts => Bool.and_elim_left hts.2)
        fun _ hts => Bool.and_elim_right hts.2
    refine .passing hcolon fun _ => .passing (Makes.emptyNode_keeps (.right .nothing)) fun _ => ?_
    refine .returns (Makes.advanceAt (fun _ h => h) (by decide)) ?_
    intro _ _ closer hcloser elements helements colon hcolon bracket hbracket
    refine ⟨Green.exact_plain ?_, .node hdictionary⟩
    exact .seq hbracket (.seq (.left hcolon) (.seq helements (.left hcloser)))
  · refine .before bracketElements_adds fun dictionary => ?_
    refine .returns Makes.require fun _ _ closer hcloser elements helements bracket hbracket => ?_
    cases dictionary with
    | true =>
      refine ⟨Green.exact_plain ?_, .node hdictionary⟩
      show Kind.dictionaryExpr.shape.Matches (bracket ++ ([] ++ (elements ++ closer)))
      exact .seq hbracket (.seq (.right .nothing) (.seq helements hcloser))
    | false =>
      refine ⟨Green.exact_plain ?_, .node harray⟩
      exact .seq hbracket (.seq helements hcloser)

/-! ## Key paths and macros -/

theorem keyPathSubscript_makes (h : ∀ ts, test ts → ts.isAt .leftBracket) :
    keyPathSubscript.Makes test (arguments .leftBracket .rightBracket) :=
  .seq (.advance h) fun _ => .seq argumentList_makes fun _ => .require

theorem keyPathMember_makes (h : ∀ ts, test ts → ts.isAt .period) :
    Grammar.keyPathMember.Makes test (.seq (tok .period) Shape.keyPathMember) := by
  refine .seq (.advance h) fun _ => .branch (.left ?_) (.right memberName_makes)
  exact keyPathSubscript_makes fun _ h => h.2

/-- There is a component where the answer says so. -/
theorem keyPathComponent_adds : keyPathComponent.Adds test fun found _ =>
    (if found then one .keyPathComponent else .nothing).Matches := by
  refine .nodeIf (.branch ?_ (.branch ?_ (.branch ?_ (.answer fun _ _ => .nothing))))
  · refine .returns (keyPathMember_makes fun _ h => h.2) fun _ _ _ hgs => ?_
    exact ⟨Green.exact_plain (.left hgs), .node rfl⟩
  · refine .returns (Makes.advanceAt (fun ts hts => Bool.and_elim_left hts.2) (by decide))
      fun _ _ _ hgs => ?_
    exact ⟨Green.exact_plain (.right (.left hgs)), .node rfl⟩
  · refine .returns (keyPathSubscript_makes fun ts hts => ?_) fun _ _ _ hgs => ?_
    · exact Bool.and_elim_left hts.2
    · exact ⟨Green.exact_plain (.right (.right hgs)), .node rfl⟩

theorem keyPathComponents_makes : keyPathComponents.Makes test (one .keyPathComponentList) := by
  refine .node (.repeatWhile (.reshape (.opt_of_answer keyPathComponent_adds) fun gs hgs => ?_))
  cases hgs with
  | left hgs => exact hgs.once
  | right hgs =>
    cases hgs
    exact .none

theorem keyPathRoot_makes : keyPathRoot.Makes test
    (opt (.node fun k => k.isType || k == .tupleExpr)) := by
  refine .look fun kind => ?_
  split
  · exact .none false
  iterate 2
    refine .left (.among (.wrap (namedType_makes fun ts hts => ?_) fun _ => ?_) ?_)
    · rw [Ahead.isAt, Ahead.isAt, hts.2]
      rfl
    · exact .seq optionalSuffixes_wraps fun _ => .pure true
    · exact fun _ hk => by rw [hk, Bool.true_or]
  · exact .left (.thenPure (.of_one (tuple_makes fun ts hts => beq_iff_eq.mpr hts.2) rfl))
  · exact .left (.thenPure (.placeholder .nothing))

theorem keyPath_makes (h : ∀ ts, test ts → ts.isAt .backslash) :
    keyPath.Makes test (one .keyPathExpr) := by
  refine .node (.seq (.advance h) fun _ => .seq keyPathRoot_makes fun named => ?_)
  refine .branch (.among keyPathComponents_makes ?_)
    (.branch (.among .visit ?_) (.placeholder .nothing))
  · exact fun _ hk => by rw [hk, Bool.or_true]
  · exact fun _ hk => by rw [Kind.isExpression_of_isOperand hk, Bool.true_or]

theorem poundKeyPathPart_makes : poundKeyPathPart.Makes test
    (.seq (nameAmong fun k => k == .identifier || k == .selfKw) (opt (tok .period))) := by
  refine .seq (.branch (.left (.advance fun _ h => h.2)) (.right (.missing rfl))) fun _ => ?_
  refine .branch (.left (.thenPure (.advance fun ts hts => ?_))) (.none false)
  exact Bool.and_elim_left hts.2

theorem poundKeyPath_makes : Grammar.poundKeyPath.Makes test Shape.poundKeyPath := by
  refine (Makes.seqIf .expect (.seq (.repeatWhile (.once poundKeyPathPart_makes)) fun _ => .require)
    (.pure ())).reshape fun gs hgs => ?_
  cases hgs with
  | left hgs => exact .left hgs
  | right hgs => exact .right hgs.of_seq_nothing

theorem poundArguments_makes : (poundArguments mode).Makes test
    (opt (arguments .leftParen .rightParen)) := by
  refine .ifAhead (.seq (.advance fun ts hts => ?_) fun _ => .seq argumentList_makes fun _ =>
    .require)
  exact Bool.and_elim_left hts.2

theorem poundRest_makes {isKeyPath : Bool} : (poundRest isKeyPath mode).Makes test
    (.alt Shape.poundKeyPath (opt (arguments .leftParen .rightParen))) := by
  cases isKeyPath
  · exact .right poundArguments_makes
  · exact .left poundKeyPath_makes

theorem poundExpr_makes {kinds : Kind → Bool} (hobject : kinds .objectLiteralExpr)
    (hexpansion : kinds .macroExpansionExpr) (h : ∀ ts, test ts → ts.isAt .poundIdentifier) :
    (poundExpr mode).Makes test (.node kinds) := by
  refine .nodeBy (.look fun isKeyPath => .look fun isObject => ?_)
  refine .before (Makes.advanceAt (fun ts hts => h ts hts.1.1) (by decide)) fun _ => ?_
  refine .returns poundRest_makes fun _ _ rest hrest pound hpound => ?_
  cases isObject with
  | true => exact ⟨Green.exact_plain (.seq hpound hrest), .node hobject⟩
  | false => exact ⟨Green.exact_plain (.seq hpound hrest), .node hexpansion⟩

/-! ## Operands -/

/-- A primary expression is always an operand; a missing one is the node that stands for it. -/
theorem primary_makes : (primary mode).Makes test (.node Kind.isOperand) := by
  refine .look fun kind => .branch (.thenPure (.of_one typeExpr_makes rfl)) ?_
  split
  iterate 6
    exact .thenPure (identifier_makes fun ts hts => Ahead.heads_of_kind hts.1.2 rfl)
  iterate 8
    exact .thenPure (.node (.advance fun ts hts => Ahead.heads_of_kind hts.1.2 rfl))
  iterate 4 exact .thenPure (.of_one stringLiteral_makes rfl)
  · exact .thenPure (.of_one (tuple_makes fun ts hts => beq_iff_eq.mpr hts.1.2) rfl)
  · exact .thenPure (bracketLiteral_makes rfl rfl fun ts hts => beq_iff_eq.mpr hts.1.2)
  · exact .thenPure (.of_one .visit rfl)
  · exact .thenPure (.of_one (keyPath_makes fun ts hts => beq_iff_eq.mpr hts.1.2) rfl)
  · exact .thenPure (implicitMember_makes fun ts hts => beq_iff_eq.mpr hts.1.2)
  · exact .thenPure (poundExpr_makes rfl rfl fun ts hts => beq_iff_eq.mpr hts.1.2)
  · exact .thenPure (.of_one typeExpr_makes rfl)
  iterate 2
    refine .thenPure (.node (valueBinding_makes fun ts hts => ?_))
    rw [Ahead.isAt, Ahead.isAt, hts.1.2]
    rfl
  · refine .branch (.thenPure (.node (.advance fun ts hts => ?_)))
      (.thenPure (.placeholder .nothing))
    exact Bool.and_elim_left hts.2

theorem callSuffix_wraps (h : ∀ ts, test ts → ts.isAt .leftParen) :
    (callSuffix mode).Wraps test Kind.isOperand := by
  have hparts : (do
      advance
      argumentList .rightParen parenBarriers mode.nested
      require .rightParen
      optionalTrailingClosures mode).Makes test (.alt
        (.seq (tok .leftParen) <| .seq (one .argumentList) <| .seq (needed .rightParen) <|
          opt trailing) trailing) := by
    refine .left (.seq (.advance h) fun _ => .seq argumentList_makes fun _ => ?_)
    exact .seq .require fun _ => optionalTrailingClosures_makes
  exact .enclose hparts rfl fun _ => Kind.isExpression_of_isOperand

theorem subscriptSuffix_wraps (h : ∀ ts, test ts → ts.isAt .leftBracket) :
    (subscriptSuffix mode).Wraps test Kind.isOperand := by
  refine .enclose (.seq (.advanceAt h (by decide)) fun _ =>
    .seq argumentList_makes fun _ => ?_) rfl ?_
  · exact .seq .require fun _ => optionalTrailingClosures_makes
  · exact fun _ => Kind.isExpression_of_isOperand

theorem memberSuffix_wraps (h : ∀ ts, test ts → ts.isAt .period) :
    memberSuffix.Wraps test Kind.isOperand := by
  refine .seq (.enclose (.seq (.advanceAt h (by decide)) fun _ => memberName_makes) rfl ?_)
    fun _ => ?_
  · exact fun _ => Kind.isExpression_of_isOperand
  · exact specialize_wraps

theorem operatorSuffix_wraps (h : ∀ ts, test ts → ts.isAt .postfixOperator) :
    operatorSuffix.Wraps test Kind.isOperand := by
  have hadvance : Grammar.advance.Makes test (tok .postfixOperator) := .advance h
  have hexpr (k : Kind) (hk : k.isOperand) := Kind.isExpression_of_isOperand hk
  intro ts g built hts hstrict hg
  show Parser.yields
    (Grammar.enclose (if ts.isSpelled "!" then _ else _ : Construct).1 advance _) _ _
  split
  · refine Wraps.enclose hadvance ?_ hexpr ts g built hts hstrict hg
    rfl
  · split
    · refine Wraps.enclose hadvance ?_ hexpr ts g built hts hstrict hg
      rfl
    · refine Wraps.enclose hadvance ?_ hexpr ts g built hts hstrict hg
      rfl

/-- Each suffix goes around the operand before it. -/
theorem suffixRule_wraps {suffix : Suffix} (h : ∀ ts, test ts → ts.suffix? mode = some suffix) :
    (suffixRule mode suffix).Wraps test Kind.isOperand := by
  have hat (ts : Ahead) (hts : test ts) := Ahead.kind_of_suffix? (h ts hts)
  cases suffix with
  | member => exact memberSuffix_wraps fun ts hts => beq_iff_eq.mpr (hat ts hts)
  | call => exact callSuffix_wraps fun ts hts => beq_iff_eq.mpr (hat ts hts)
  | subscript => exact subscriptSuffix_wraps fun ts hts => beq_iff_eq.mpr (hat ts hts)
  | operator => exact operatorSuffix_wraps fun ts hts => beq_iff_eq.mpr (hat ts hts)
  | closure =>
    have htrailing : trailingClosures.Makes test (.alt
        (.seq (tok .leftParen) <| .seq (one .argumentList) <| .seq (needed .rightParen) <|
          opt trailing) trailing) := .right trailingClosures_makes
    exact .enclose htrailing rfl fun _ => Kind.isExpression_of_isOperand

/-- An operand is a primary expression, with any number of suffixes around it. -/
theorem operandRule_makes : (operandRule mode).Makes test (.node Kind.isOperand) := by
  refine .wrap primary_makes fun missing => ?_
  cases missing with
  | true => exact .pure true
  | false =>
    refine .seq (.repeatWhile (.look fun suffix => ?_)) fun _ => .pure false
    cases suffix with
    | none => exact .pure false
    | some suffix => exact .seq (suffixRule_wraps fun _ h => h.2) fun _ => .pure true

end SwiftTree.Grammar
