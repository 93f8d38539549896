import SwiftTree.Grammar.Types
import SwiftTree.Proofs.Conformance.Makes

/-!
# The shapes of skipped text, attributes and types

There is one lemma for each rule, in the order of the grammar. The shape that it states is read off
the rule, part by part, and is compared with the shape of the kind where a node is made of the
parts. Suffixes and members are the exception: they go around the type before them (`Parser.Wraps`).
-/

namespace SwiftTree.Grammar

open Grammar.Parser Shape

variable {test : Ahead → Prop}

/-! ## Recovery -/

theorem skippedUntil_makes {stop : KindSet} : (skippedUntil stop).Makes test skipped := by
  refine .look fun n => ?_
  cases n with
  | zero => exact .none false
  | succ n => exact .thenPure (.unexpected n)

theorem skipUntil_makes {stop : KindSet} : (skipUntil stop).Makes test skipped :=
  .thenPure skippedUntil_makes

theorem skipToCloser_makes {closer : Kind} {barriers : KindSet} :
    (skipToCloser closer barriers).Makes test skipped := .branch skipUntil_makes (.none ())

theorem skipStatement_makes {boundary : Ahead → Bool} :
    (skipStatement boundary).Makes test skipped :=
  .look fun n => .unexpected n

/-! ## Attributes -/

theorem attributeArguments_makes (h : ∀ ts, test ts → ts.isAt .leftParen) :
    attributeArguments.Makes test (one .attributeArguments) :=
  .node (.seq (.advance h) fun _ => .look fun n =>
    .seq ((Makes.advanceBy n).mono fun _ _ => trivial) fun _ => .require)

theorem attributeName_makes : attributeName.Makes test (nameAmong isName) :=
  .branch (.left (.advance fun _ h => h.2)) (.right (.missing rfl))

theorem singleAttribute_makes (h : ∀ ts, test ts → ts.isAt .atSign) :
    singleAttribute.Makes test (one .attribute) := by
  refine .node (.seq (.advance h) fun _ => .seq attributeName_makes fun _ => ?_)
  refine .ifAhead (attributeArguments_makes fun ts hts => ?_)
  exact Bool.and_elim_left hts.2

theorem attributes_makes : attributes.Makes test (opt (one .attributeList)) :=
  .ifAhead (.node (.whileAhead (singleAttribute_makes fun _ h => h)))

/-! ## Types -/

theorem type_makes : Grammar.type.Makes test Shape.type := .visit

namespace Ahead

theorem isOperator_of_isOperatorFrom {c : Char} {ts : Ahead} (h : ts.isOperatorFrom c) :
    ts.kind.isOperator ∧ ts.text.head? = some c := by
  rwa [isOperatorFrom, Bool.and_eq_true, beq_iff_eq] at h

/-- An operator can be cut if its first character can become the one that it spells. -/
theorem mayCut_of_isOperatorFrom {c : Char} {head : SolidKind} {rest : Option SolidKind}
    {ts : Ahead}
    (h : ts.isOperatorFrom c) (hhead : ∀ k : Kind, k.isOperator → k.Becomes [c] head)
    (hrest : ∀ k ∈ rest, k.1 = .postfixOperator) : ts.MayCut head rest := by
  obtain ⟨hkind, htext⟩ := isOperator_of_isOperatorFrom h
  cases ts with
  | nil => cases hkind
  | cons x us =>
    intro y hy
    obtain rfl := Option.some.inj hy
    refine ⟨hkind, fun d cs hcs => ?_⟩
    change x.text.head? = some c at htext
    rw [hcs] at htext
    obtain rfl := Option.some.inj htext
    refine ⟨hhead x.kind hkind, fun k hk => ?_⟩
    rw [hrest k hk]
    exact .inr (.inr ⟨hkind, .inl rfl⟩)

/-- What is cut off an operator can be taken as what it was cut off for. -/
theorem mayTake_splitHead {c : Char} {head : SolidKind} {rest : Option SolidKind} {ts : Ahead}
    (h : ts.isOperatorFrom c) (hhead : ∀ k : Kind, k.isOperator → k.Becomes [c] head) :
    ts.splitHead head rest ≠ [] ∧ (ts.splitHead head rest).MayTake (some head) := by
  obtain ⟨hkind, htext⟩ := isOperator_of_isOperatorFrom h
  rcases ts with _ | ⟨x, us⟩
  · cases hkind
  change x.token.text.head? = some c at htext
  -- an operator of one character stays as it is, and a longer one is cut
  rcases hcs : x.token.text with _ | ⟨d, _ | ⟨e, cs⟩⟩
  · rw [hcs] at htext
    cases htext
  · rw [hcs] at htext
    obtain rfl := Option.some.inj htext
    simp only [splitHead, hcs]
    refine ⟨List.cons_ne_nil _ _, fun k hk y hy => ?_⟩
    obtain rfl := Option.some.inj hk
    obtain rfl := Option.some.inj hy
    have hspelled : x.text = [d] := hcs
    rw [hspelled]
    exact hhead x.kind hkind
  · simp only [splitHead, hcs]
    refine ⟨List.cons_ne_nil _ _, fun k hk y hy => ?_⟩
    obtain rfl := Option.some.inj hk
    obtain rfl := Option.some.inj hy
    exact .refl _ _

/-- What is cut off an operator as a postfix operator is one, and so is an operator that is not
cut. -/
theorem isOperator_splitHead {rest : Option SolidKind} {ts : Ahead} (h : ts.kind.isOperator) :
    (ts.splitHead ⟨.postfixOperator, rfl⟩ rest).kind.isOperator := by
  rcases splitHead_eq ⟨.postfixOperator, rfl⟩ rest ts with
    hts | ⟨_, _, y, _, _, _, _, -, hts, -, hy, -⟩
  · rwa [hts]
  · rw [hts]
    show y.token.kind.isOperator
    rw [hy]
    rfl

end Ahead

/-- Taking the head of an operator leaves a token of the kind that this character stands for. -/
theorem takeHead_makes {c : Char} {head : Kind} {hh : head.isSolid}
    (hhead : ∀ k : Kind, k.isOperator → k.Becomes [c] head)
    (h : ∀ ts, test ts → ts.isOperatorFrom c) :
    (takeHead head hh).Makes test (tok head) := by
  refine .look fun marks ts built hts => ?_
  refine ⟨Ahead.mayCut_of_isOperatorFrom (h ts hts.1) hhead ?_, ?_⟩
  · intro k hk
    cases marks
    · cases hk
    · obtain rfl := Option.some.inj hk
      rfl
  · have htake : (advanceAs head hh).Makes
        (fun us => us ≠ [] ∧ us.MayTake (some ⟨head, hh⟩)) (tok head) :=
      .advanceAs (fun _ h => h) (beq_self_eq_true head)
    exact htake _ built (Ahead.mayTake_splitHead (h ts hts.1) hhead)

/-- An argument clause starts with the `<` that was seen, and holds types with commas between
them. -/
theorem genericArgumentClause_makes (h : ∀ ts, test ts → ts.isOperatorFrom '<') :
    genericArgumentClause.Makes test (one .genericArgumentClause) := by
  refine .node (.seq (takeHead_makes (c := '<') ?_ h) fun _ => ?_)
  · exact fun k hk => .inr (.inr ⟨hk, .inr ⟨.inl rfl, .of_some rfl⟩⟩)
  · refine .seq (.commaList type_makes rfl) fun _ => ?_
    refine .branch (.left (takeHead_makes (c := '>') ?_ fun _ h => h.2)) (.right (.missing rfl))
    exact fun k hk => .inr (.inr ⟨hk, .inr ⟨.inr rfl, .of_some rfl⟩⟩)

theorem Ahead.isOperatorFrom_of_isAdjacentAngle {ts : Ahead} (h : ts.isAdjacentAngle) :
    ts.isOperatorFrom '<' := Bool.and_elim_left h

theorem genericArguments_makes : genericArguments.Makes test (opt (one .genericArgumentClause)) :=
  .ifAhead (genericArgumentClause_makes fun _ h => Ahead.isOperatorFrom_of_isAdjacentAngle h.2)

theorem namedType_makes
    (h : ∀ ts, test ts → (ts.isAt .identifier || ts.isAt .capitalSelfKw) = true) :
    namedType.Makes test Shape.type :=
  .node (.seq (.advance h) fun _ => genericArguments_makes)

theorem memberTypes_wraps : memberTypes.Wraps test Kind.isType := by
  have hparts : (do advance; advance; genericArguments).Makes
      (fun ts => (ts.isAt .period && Ahead.isName ts.tail) = true)
      (.seq (tok .period) (.seq word (opt (one .genericArgumentClause)))) :=
    .advanceThen (fun ts hts => Bool.and_elim_left hts)
      (.seq (.advance fun _ h => h) fun _ => genericArguments_makes)
      fun ts hts => Bool.and_elim_right hts
  exact .whileAhead (.enclose hparts rfl fun _ h => h)

/-- What is an optional suffix is an operator, and makes one of two kinds of types. -/
theorem Ahead.optionalSuffix?_eq {ts : Ahead} {kind : Construct}
    (h : ts.optionalSuffix? = some kind) :
    ts.kind.isOperator ∧ (kind.1 = .optionalType ∨ kind.1 = .implicitlyUnwrappedType) := by
  rw [optionalSuffix?] at h
  split at h
  · rename_i hsuffix
    simp only [Bool.and_eq_true] at hsuffix
    refine ⟨hsuffix.1.1, ?_⟩
    split at h
    · obtain rfl := Option.some.inj h
      exact .inl rfl
    · obtain rfl := Option.some.inj h
      exact .inr rfl
    · cases h
  · cases h

theorem optionalSuffixes_wraps : optionalSuffixes.Wraps test Kind.isType := by
  refine .repeatWhile (.look fun suffix => ?_)
  rcases suffix with _ | ⟨kind, hk⟩
  · exact .pure false
  · intro ts g built hts hstrict hg
    obtain ⟨hop, hkind⟩ := Ahead.optionalSuffix?_eq hts.2
    refine ⟨fun x hx => ?_, ?_⟩
    · cases ts with
      | nil => cases hx
      | cons y us =>
        obtain rfl := Option.some.inj hx
        exact ⟨hop, fun c cs _ => ⟨.inr (.inr ⟨hop, .inl rfl⟩), by simp⟩⟩
    · have hadvance : Grammar.advance.Makes (fun us => us.kind.isOperator = true)
          (.token Kind.isOperator) := .advance fun _ h => h
      have hall : (do Grammar.enclose kind Grammar.advance hk; return true).Wraps
          (fun us => us.kind.isOperator = true) Kind.isType := by
        rcases hkind with rfl | rfl
        · exact .seq (.enclose hadvance rfl fun _ h => h) fun _ => .pure true
        · exact .seq (.enclose hadvance rfl fun _ h => h) fun _ => .pure true
      exact hall _ g built (Ahead.isOperator_splitHead hop) hstrict hg

theorem collectionType_makes (h : ∀ ts, test ts → ts.isAt .leftBracket) :
    collectionType.Makes test Shape.type := by
  refine .nodeBy (.before (Makes.advanceAt h (by decide)) fun _ => .before type_makes fun _ => ?_)
  refine .before (.eat (by decide)) fun dictionary => .before (Makes.onlyIf type_makes) fun _ => ?_
  refine .before skipToCloser_makes fun _ => .returns Makes.require fun _ _ gs hgs => ?_
  intro skipped hskipped value hvalue colon hcolon key hkey bracket hbracket
  cases dictionary with
  | true =>
    refine ⟨Green.exact_plain ?_, .node rfl⟩
    exact .seq hbracket (.seq hkey (.seq hcolon (.seq hvalue (.seq hskipped hgs))))
  | false =>
    cases hvalue
    cases hcolon
    refine ⟨Green.exact_plain ?_, .node rfl⟩
    show Kind.arrayType.shape.Matches (bracket ++ (key ++ (skipped ++ gs)))
    exact .seq hbracket (.seq hkey (.seq hskipped hgs))

theorem effect_makes : effect.Makes test (.many (.token fun k =>
    k == .asyncKw || k == .throwsKw || k == .rethrowsKw)) := by
  refine .orElse (.eatWord rfl) (.pure true) (.orElse (.eat (by decide)) (.pure true) ?_ ?_) ?_
  · refine Makes.reshape (.eat_opt (by decide)) fun gs hgs => ?_
    cases hgs with
    | left hgs => exact .once (hgs.token_mono (by simp +contextual))
    | right hgs =>
      cases hgs
      exact .none
  · exact fun gs hgs => .once (hgs.token_mono (by simp +contextual))
  · exact fun gs hgs => .once (hgs.token_mono (by simp +contextual))

theorem effectSpecifiers_makes : effectSpecifiers.Makes test (opt (one .effectSpecifiers)) :=
  .ifAhead (.node (.repeatWhile effect_makes))

theorem Ahead.isName_of_isLabel {ts : Ahead} (h : ts.isLabel) :
    ts.isName ∧ isAt .colon ts.tail := by
  rwa [isLabel, Bool.and_eq_true] at h

/-- A label and its colon. -/
theorem advanceBy_label (h : ∀ ts, test ts → ts.isLabel) : (advanceBy 2).Makes test Shape.label :=
  .advanceThen (fun ts hts => (Ahead.isName_of_isLabel (h ts hts)).1)
    (.thenPure (.advance fun _ h => h)) fun ts hts => (Ahead.isName_of_isLabel (h ts hts)).2

/-- The labels that a tuple type allows come before the colon, or there are none. -/
theorem tupleTypeLabels_makes : tupleTypeLabels.Makes test typeLabels := by
  refine .branch (.left (advanceBy_label fun _ h => h.2)) (.right (.ifAhead ?_))
  exact .advanceThen (fun ts hts => Bool.and_elim_left hts.2)
    (advanceBy_label fun _ h => h) fun ts hts => Bool.and_elim_right hts.2

theorem Ahead.isOperator_of_spelled {s : String} {ts : Ahead} (h : ts.isOperator s) :
    ts.kind.isOperator := Bool.and_elim_left h

/-- Parentheses hold a tuple type, or the parameters of a function type, as what is behind them
decides. -/
theorem tupleOrFunctionType_makes (h : ∀ ts, test ts → ts.isAt .leftParen) :
    tupleOrFunctionType.Makes test Shape.type := by
  have helements : (unlessAt .rightParen (commaList .tupleTypeElement
      (fun ts => ts.isAt .rightParen || ts.isAt .endOfFile) do
        tupleTypeLabels
        Grammar.type
        ifAhead (Ahead.isOperator "...") advance)).Makes (fun _ => True)
      (opt (list .tupleTypeElement)) := by
    refine .ifAhead (.commaList (.seq tupleTypeLabels_makes fun _ =>
      .seq type_makes fun _ => ?_) rfl)
    exact .ifAhead (.advance fun _ hts => Ahead.isOperator_of_spelled hts.2)
  refine .nodeBy (.before (Makes.advanceAt h (by decide)) fun _ => .before helements fun _ => ?_)
  -- an arrow behind the parentheses makes it a function
  refine .before skipToCloser_makes fun _ => .before Makes.require fun _ => .branch ?_ ?_
  · refine .before effectSpecifiers_makes fun _ => .before Makes.require fun _ => ?_
    refine .returns type_makes fun _ _ result hresult arrow harrow effects heffects => ?_
    intro closer hcloser skipped hskipped elements helements paren hparen
    refine ⟨Green.exact_plain ?_, .node rfl⟩
    exact .seq hparen (.seq helements (.seq hskipped (.seq hcloser
      (.seq heffects (.seq harrow hresult)))))
  · refine .answer fun _ _ closer hcloser skipped hskipped elements helements paren hparen => ?_
    rw [List.append_nil]
    refine ⟨Green.exact_plain ?_, .node rfl⟩
    exact .seq hparen (.seq helements (.seq hskipped hcloser))

theorem someOrAny_makes (h : ∀ ts, test ts → ts.isSomeOrAny) :
    someOrAny.Makes test (.token fun k => k == .someKw || k == .anyKw) := by
  refine .branch (.advanceAs (fun ts hts => ?_) rfl) (.advanceAs (fun ts hts => ?_) rfl)
  · exact Ahead.mayTake_of_isWord rfl rfl hts.2
  · have hword := h ts hts.1
    simp only [Ahead.isSomeOrAny, hts.2, Bool.false_or, Bool.and_eq_true] at hword
    exact Ahead.mayTake_of_isWord rfl rfl hword.1.1

/-- Without attributes before it, a type is one of its kinds, with any number of suffixes around
it. -/
theorem plainTypeRule_makes : plainTypeRule.Makes test Shape.type := by
  refine .branch (.node (.seq attributes_makes fun _ => .seq (.skip (by decide)) fun _ =>
    .visit)) ?_
  refine .branch (.node (.seq (someOrAny_makes fun _ h => h.2) fun _ => .visit)) ?_
  refine .branch (.wrap (namedType_makes fun _ h => h.2) fun _ => ?_) ?_
  · exact .seq memberTypes_wraps fun _ => optionalSuffixes_wraps
  refine .branch (.wrap (collectionType_makes fun _ h => h.2) fun _ => optionalSuffixes_wraps) ?_
  refine .branch (.wrap (tupleOrFunctionType_makes fun _ h => h.2) fun _ => ?_)
    (.placeholder .nothing)
  exact optionalSuffixes_wraps

/-- Attributes before a type make it an attributed one. -/
theorem typeRule_makes : typeRule.Makes test Shape.type := by
  have hparts : (whileAhead Ahead.isComposition do advance; visit .plainType).Makes
      (fun _ => True) (.many (.seq (tok .binaryOperator) Shape.type)) := by
    refine .whileAhead (.seq (.advance fun ts hts => ?_) fun _ => .visit)
    exact Bool.and_elim_left hts
  exact .wrap .visit fun _ => .ifAhead (.enclose (hparts.mono fun _ _ => trivial) rfl fun _ h => h)

theorem typeClause_makes : typeClause.Makes test (one .typeClause) :=
  .node (.seq .require fun _ => type_makes)

theorem returnClause_makes : returnClause.Makes test (one .returnClause) :=
  .node (.seq .require fun _ => type_makes)

end SwiftTree.Grammar
