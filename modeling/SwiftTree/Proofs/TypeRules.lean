import SwiftTree.Proofs.TypeTokens

/-!
# Rules that read types

Each rule of types reads the tokens of its form, as they are described in `Ahead.IsType` and the
relations around it, and no others. Goals that are called read types as well (`readsTypes`). So
whether the tree of generic arguments is whole can be told from the tokens
(`genericArgumentClause_reads`).
-/

namespace SwiftTree.Grammar

open Grammar.Parser

section

variable {env : Env Forest} {test : Ahead → Prop} {β : Type}

/-- A closing parenthesis that is required is the next token, or it is missing. -/
theorem exists_of_run_rightParen {s t : State Forest} {a : Unit}
    (h : (require .rightParen).run env s = some (a, t)) :
    ∃ closing : Green.Leaf, closing.kind = .rightParen ∧
      t = ⟨s.ahead.past .rightParen, .leaf closing :: s.built⟩ := by
  obtain ⟨_, u, hexpect, hpure⟩ := exists_run_of_bind h
  cases hpure
  obtain ⟨found, v, heat, hrest⟩ := exists_run_of_bind hexpect
  change Parser.run env (if s.ahead.isAt .rightParen then (do advance; return true)
    else return false) s
    = _ at heat
  cases hclose : s.ahead.isAt .rightParen with
  | false =>
    rw [hclose] at heat
    cases heat
    cases hrest
    refine ⟨.missing .rightParen [')'], rfl, ?_⟩
    rw [Ahead.past, hclose]
    rfl
  | true =>
    rw [hclose] at heat
    cases heat
    cases hrest
    obtain ⟨ts, built⟩ := s
    obtain ⟨x, ts, hx, rfl⟩ := Ahead.cons_of_isAt rfl hclose
    refine ⟨.present x.token.outline, hx, ?_⟩
    rw [Ahead.past, hclose]
    rfl

/-- What makes a type optional makes a node of a type. -/
theorem ne_attributeArguments_of_optionalSuffix? {ts : Ahead} {kind : Construct}
    (h : ts.optionalSuffix? = some kind) : kind.1 ≠ .attributeArguments := by
  rw [Ahead.optionalSuffix?] at h
  split at h
  · split at h
    · cases h
      decide
    · cases h
      decide
    · cases h
  · cases h

/-- The arguments of an attribute are the tokens up to the parenthesis that ends them. -/
theorem exists_of_run_attributeArguments {x : Lexeme} {ts : Ahead} {built : Forest}
    {t : State Forest}
    {a : Unit} (h : attributeArguments.run env ⟨x :: ts, built⟩ = some (a, t)) :
    let n := Ahead.skipLength (Ahead.isAt .rightParen) 0 ts
    ∃ closing : Green.Leaf, closing.kind = .rightParen ∧ t = ⟨Ahead.past .rightParen (ts.drop n),
      .node .attributeArguments (((x :: ts.take n).map fun x => .token x.token) ++ [.leaf closing])
        :: built⟩ := by
  obtain ⟨u, hbody, rfl⟩ := exists_of_run_node h
  obtain ⟨_, v, hadvance, hbody⟩ := exists_run_of_bind hbody
  cases hadvance
  change Parser.run env (do advanceBy _; require .rightParen) _ = _ at hbody
  obtain ⟨_, w, htake, hclose⟩ := exists_run_of_bind hbody
  rw [run_advanceBy] at htake
  cases htake
  obtain ⟨closing, hkind, rfl⟩ := exists_of_run_rightParen hclose
  refine ⟨closing, hkind, ?_⟩
  rw [State.takeBy_eq, Forest.addAll_eq]
  show (⟨_, .node .attributeArguments
    ([] ++ (.leaf closing :: ((List.map (fun y : Lexeme => Green.token y.token)
    _).reverse ++ [.token x.token])).reverse) :: built⟩ : State Forest) = _
  rw [List.nil_append, List.reverse_cons, List.reverse_append, List.reverse_reverse]
  rfl

/-- Of the arguments of an attribute nothing is looked at. -/
theorem attributeArguments_reads (h : ∀ ts, test ts → ts.startsArguments) :
    attributeArguments.Reads env test fun ts _ us => ts.AreAttributeArguments us := by
  intro s a t hs hr
  have hstarts := h _ hs
  obtain ⟨ts, built⟩ := s
  obtain ⟨x, ts, hx, rfl⟩ := Ahead.cons_of_isAt rfl (Bool.and_elim_left hstarts)
  obtain ⟨closing, hkind, rfl⟩ := exists_of_run_attributeArguments hr
  have hclosing : [Green.leaf closing].all Green.isWhole := by
    rw [List.all_cons, Green.isWhole, hkind]
    cases closing.isPresent <;> rfl
  have hparen : x.kind.isOperator = false := by rw [hx]; rfl
  refine .add fun vs => ?_
  rw [Green.isWhole_tokens rfl _ hclosing (List.forall_mem_singleton.mpr (by rw [hkind]; rfl)),
    Ahead.isBalanced_cons hparen]
  constructor
  · rintro (hno | ⟨-, hxs, rfl⟩)
    · cases hstarts.symm.trans hno
    · exact ⟨rfl, hxs⟩
  · rintro ⟨rfl, hxs⟩
    exact .some hstarts ⟨hxs, rfl⟩

/-- The name of an attribute is a name, if one is there. -/
theorem attributeName_reads :
    attributeName.Reads env test fun ts _ us => us = ts.pastName := by
  refine .branch (.congr .advance fun ts _ us hts => ?_) (.congr .missing fun ts _ us hts => ?_)
  · rw [Ahead.pastName, hts.2, if_pos rfl]
  · rw [Ahead.pastName, hts.2, if_neg Bool.false_ne_true]

/-- An attribute is its sign, its name, and the arguments that touch the name. -/
theorem attribute_reads :
    singleAttribute.Reads env test fun ts _ us => ts.IsAttribute us := by
  refine .congr (.node (.step .advance (.step attributeName_reads (.ifAhead
    (attributeArguments_reads fun _ h => h.2) fun ts us _ hts => ?_)))) fun ts _ us _ => ?_
  · constructor
    · rintro (_ | h)
      · rfl
      · exact absurd h (ne_true_of_eq_false hts)
    · rintro rfl
      exact .none hts
  · constructor
    · exact .mk
    · rintro ⟨h⟩
      exact h

theorem attributes_reads : attributes.Reads env test fun ts _ us => ts.AreAttributes us :=
  .ifAhead (.node (.whileAhead attribute_reads)) fun _ _ _ => whileAhead_iff_of_not

/-- Marks are cut off one by one. -/
theorem optionalSuffixes_reads : optionalSuffixes.Reads env test fun ts _ us => ts.AreMarks us := by
  refine .repeatStep (.congr (.look
    (S := fun suffix ts b us => b = suffix.isSome ∧ us = if b then ts.pastMark else ts) ?_)
    fun _ _ _ _ => .rfl)
  rintro (_ | kind) s a t hs hr
  · have hstop : (Pure.pure false : Parser Bool).Reads env (fun _ => True) fun ts b us => b =
      false ∧ us = ts :=
      .pure false
    refine (hstop s a t trivial hr).congr fun b us => and_congr_right fun hb => ?_
    rw [hb]
    rfl
  · have hne : kind.1 ≠ .attributeArguments := ne_attributeArguments_of_optionalSuffix? hs.2
    have hmark : Parser.Reads env (fun _ => True) (do
        splitHead .postfixOperator none
        enclose kind.1 advance kind.2
        return true) fun ts b us => ∃ vs, vs = ts.pastMark ∧ b = true ∧ us = vs :=
      .congr (.step .splitHead (.andThen (.enclose .advance hne) (.pure true))) fun _ _ _ _ => .rfl
    refine (hmark s a t trivial hr).congr fun b us => ?_
    constructor
    · rintro ⟨_, rfl, rfl, rfl⟩
      exact ⟨rfl, rfl⟩
    · rintro ⟨rfl, rfl⟩
      exact ⟨_, rfl, rfl, rfl⟩

theorem takeHead_reads {head : Kind} {hk : head.isSolid} :
    (takeHead head hk).Reads env test fun ts _ us => us = ts.pastHead ⟨head, hk⟩ :=
  .congr (.look fun _ => .step .splitHead .advanceAs) fun _ _ _ _ => .rfl

/-- An effect is one token, and the answer says whether it was there. -/
theorem effect_reads :
    effect.Reads env test fun ts b us => b = ts.isEffect ∧ us = if b then ts.tail else ts := by
  have heat {k : Kind} {test : Ahead → Prop} : (eat k).Reads env test
      fun ts b us => b = ts.isAt k ∧ us = if b then ts.tail else ts :=
    .congr .eat fun ts b us _ => and_congr_right fun hb => by rw [hb, Ahead.past]
  refine .congr (.orElse .eatWord (.orElse heat heat)) fun ts b us _ => ?_
  rw [Ahead.isEffect, Bool.or_assoc]
  rfl

theorem effectSpecifiers_reads : effectSpecifiers.Reads env test fun ts _ us => ts.AreEffects us :=
  .ifAhead (.node (.repeatStep effect_reads)) fun _ _ _ => whileAhead_iff_of_not

/-- The labels of a tuple element are read where the tokens have them. -/
theorem tupleTypeLabels_reads :
    tupleTypeLabels.Reads env test fun ts _ us => us = ts.pastLabels := by
  refine .branch (.congr (.advanceBy 2) fun ts _ us hts => ?_)
    (.ifAhead (.congr (.advanceBy 3) fun ts _ us hts => ?_) fun ts us hlabel hts => ?_)
  · rw [Ahead.pastLabels, hts.2, if_pos rfl]
  · rw [Ahead.pastLabels, hts.1.2, hts.2, if_neg Bool.false_ne_true, if_pos rfl]
  · rw [Ahead.pastLabels, hlabel.2, hts, if_neg Bool.false_ne_true, if_neg Bool.false_ne_true]

/-- Whether the goals of types read types. -/
structure Env.ReadsTypes (env : Env Forest) : Prop where
  type : ∀ s a t, env.call .type s = some (a, t) →
    s.Reads (fun ts b us => b = false ∧ ts.IsType us) a t
  plainType : ∀ s a t, env.call .plainType s = some (a, t) →
    s.Reads (fun ts b us => b = false ∧ ts.IsPlainType us) a t

section

variable (henv : env.ReadsTypes)

include henv

theorem type_reads : type.Reads env test fun ts _ us => ts.IsType us := .visit henv.type

theorem plainType_reads : (visit .plainType).Reads env test fun ts _ us => ts.IsPlainType us :=
  .visit henv.plainType

/-- Generic arguments are a bracket, a list of types, and a bracket. The closing one is the only
token that must not be missing; without it the tree is not whole. -/
theorem genericArgumentClause_reads :
    genericArgumentClause.Reads env test fun ts _ us => ts.IsArguments us := by
  refine .congr (.node (.step takeHead_reads (.andThen (.commaList (type_reads henv))
    (S := fun ts _ us => ts.isOperatorFrom '>' ∧ us = ts.pastHead ⟨.rightAngle, rfl⟩)
    (.branch (.congr takeHead_reads fun ts _ us hts => ?_)
      (.congr .missingAngle fun ts _ us hts => ?_))))) fun ts _ us _ => ?_
  · rw [hts.2]
    exact (and_iff_right rfl).symm
  · rw [hts.2]
    exact ⟨False.elim, fun h => Bool.false_ne_true h.1⟩
  · constructor
    · rintro ⟨_, h, hclose, rfl⟩
      exact .mk h hclose
    · rintro ⟨h, hclose⟩
      exact ⟨_, h, hclose, rfl⟩

/-- Generic arguments are read only where a bracket touches the name. -/
theorem genericArguments_reads :
    genericArguments.Reads env test fun ts _ us => ts.AreArguments us := by
  refine .ifAhead (.congr (genericArgumentClause_reads henv) fun ts _ us hts => ?_)
    fun ts us _ hts => ?_
  · constructor
    · exact .some hts.2
    · rintro (hno | ⟨-, hus⟩)
      · exact absurd hts.2 (ne_true_of_eq_false hno)
      · exact hus
  · constructor
    · rintro (_ | ⟨hyes, -⟩)
      · rfl
      · exact absurd hyes (ne_true_of_eq_false hts)
    · rintro rfl
      exact .none hts

theorem namedType_reads :
    namedType.Reads env test fun ts _ us => Ahead.AreArguments ts.tail us :=
  .node (.congr (.step .advance (genericArguments_reads henv)) fun _ _ _ _ => .rfl)

/-- Members are read as long as there is a period with a name behind. -/
theorem memberTypes_reads :
    memberTypes.Reads env test fun ts _ us =>
      WhileAhead Ahead.startsMember Ahead.IsMember ts us := by
  refine .whileAhead
    (.enclose (.congr (.step .advance (.step .advance (genericArguments_reads henv)))
    fun ts _ us _ => ?_))
  constructor
  · exact .mk
  · rintro ⟨h⟩
    exact h

/-- Behind the type in a collection there may be a colon and another type. -/
theorem valueThen {next : Bool → Parser β} {S : Bool → Ahead → β → Ahead → Prop}
    (hnext : ∀ a, (next a).Reads env (fun _ => True) (S a)) :
    (do let dictionary ← eat .colon; onlyIf dictionary type; next dictionary : Parser β).Reads
      env test
      fun ts b vs => ∃ us, ts.IsValue us ∧ S (ts.isAt .colon) us b vs := by
  refine .congr (.eatThen fun a => .andThen (.onlyIf (type_reads henv)) (hnext a))
    fun ts b vs _ => ?_
  rw [Ahead.past]
  cases hcolon : ts.isAt .colon with
  | true =>
    refine exists_congr fun us => and_congr_left fun _ => ⟨.some hcolon, ?_⟩
    rintro (hno | ⟨-, htype⟩)
    · cases hcolon.symm.trans hno
    · exact htype
  | false =>
    refine exists_congr fun us => and_congr_left fun _ => ⟨?_, ?_⟩
    · rintro rfl
      exact .none hcolon
    · rintro (_ | ⟨hyes, -⟩)
      · rfl
      · cases hcolon.symm.trans hyes

/-- Brackets hold a type, and behind a colon a second one. -/
theorem collectionType_reads :
    collectionType.Reads env test fun ts _ us => ∃ vs ws,
    Ahead.IsType ts.tail vs ∧ Ahead.IsValue vs ws ∧
      Ahead.Closes .rightBracket (.ofList [.rightParen, .rightBrace]) ws us := by
  let kind (dictionary : Bool) : Construct :=
    if dictionary then ⟨.dictionaryType, rfl⟩ else ⟨.arrayType, rfl⟩
  have hclose (dictionary : Bool) : Parser.Reads env (fun _ => True) (do
      skipToCloser .rightBracket (.ofList [.rightParen, .rightBrace])
      require .rightBracket
      return (kind dictionary, ())) fun ts a us => ∃ vs,
        Ahead.Closes .rightBracket (.ofList [.rightParen, .rightBrace]) ts vs ∧
          a = (kind dictionary, ()) ∧ us = vs := .closerThen (.pure _)
  have hbody : Parser.Reads env test (do
      advance
      type
      let dictionary ← eat .colon
      onlyIf dictionary type
      skipToCloser .rightBracket (.ofList [.rightParen, .rightBrace])
      require .rightBracket
      return (kind dictionary, ())) fun ts a us => ∃ vs, Ahead.IsType ts.tail vs ∧ ∃ ws,
        vs.IsValue ws ∧
        ∃ xs, Ahead.Closes .rightBracket (.ofList [.rightParen, .rightBrace]) ws xs ∧
          a = (kind (vs.isAt .colon), ()) ∧ us = xs :=
    .congr (.step .advance (.andThen (type_reads henv) (valueThen henv hclose))) fun _ _ _ _ => .rfl
  refine .congr (.nodeBy hbody ?_) fun ts _ us _ => ?_
  · rintro ts a us ⟨vs, -, ws, -, xs, -, rfl, -⟩
    cases vs.isAt .colon <;> decide
  · constructor
    · rintro ⟨_, vs, hvs, ws, hws, xs, hxs, -, rfl⟩
      exact ⟨vs, ws, hvs, hws, hxs⟩
    · rintro ⟨vs, ws, hvs, hws, hxs⟩
      exact ⟨_, vs, hvs, ws, hws, us, hxs, rfl, rfl⟩

/-- An element of a tuple is a type, with labels before it and perhaps dots behind. -/
theorem tupleElement_reads : Parser.Reads env test (do
    tupleTypeLabels
    type
    ifAhead (Ahead.isOperator "...") advance) fun ts _ us => ts.IsElement us := by
  have hdots : (ifAhead (Ahead.isOperator "...") advance).Reads env (fun _ => True)
      fun ts _ us => us = ts.pastDots := by
    refine .ifAhead (.congr .advance fun ts _ us hts => ?_) fun ts us _ hts => ?_
    · rw [Ahead.pastDots, hts.2, if_pos rfl]
    · rw [Ahead.pastDots, hts, if_neg Bool.false_ne_true]
  refine .congr (.step tupleTypeLabels_reads (.andThen (type_reads henv) hdots)) fun ts _ us _ => ?_
  constructor
  · rintro ⟨_, htype, rfl⟩
    exact .mk htype
  · rintro ⟨htype⟩
    exact ⟨_, htype, rfl⟩

/-- The elements of a tuple are read up to the closing parenthesis, before which there may be a
comma. -/
theorem tupleElements_reads : Parser.Reads env test (unlessAt .rightParen
    (commaList .tupleTypeElement (fun ts => ts.isAt .rightParen || ts.isAt .endOfFile) do
      tupleTypeLabels
      type
      ifAhead (Ahead.isOperator "...") advance)) fun ts _ us => ts.AreElements us := by
  refine .ifAhead (.congr (.commaList (tupleElement_reads henv)) fun ts _ us hts => ?_)
    fun ts us _ hts => ?_
  · have hparen : ts.isAt .rightParen = false := Bool.not_eq_true' _ |>.mp hts.2
    constructor
    · exact .some hparen
    · rintro (hyes | ⟨-, hus⟩)
      · cases hparen.symm.trans hyes
      · exact hus
  · have hparen : ts.isAt .rightParen = true := Bool.not_eq_false' _ ▸ hts
    constructor
    · rintro (_ | ⟨hno, -⟩)
      · rfl
      · cases hparen.symm.trans hno
    · rintro rfl
      exact .none hparen

/-- What makes a tuple type the type of a function. -/
theorem result_reads : Parser.Reads env test (do
    if ← look fun ts => ts.isEffect || ts.isAt .arrow then
      effectSpecifiers
      require .arrow
      type
      return ((⟨.functionType, rfl⟩ : Construct), ())
    else return (⟨.tupleType, rfl⟩, ())) fun ts a us => ts.IsResult us ∧
      a = (if ts.startsResult then ⟨.functionType, rfl⟩ else ⟨.tupleType, rfl⟩, ()) := by
  refine .branch (.congr
    (.andThen effectSpecifiers_reads (.step .require (.andThen (type_reads henv)
    (.pure _)))) fun ts a us hts => ?_) (.congr (.pure _) fun ts a us hts => ?_)
  · have hstarts : ts.startsResult = true := hts.2
    rw [hstarts]
    constructor
    · rintro ⟨vs, hvs, _, hus, rfl, rfl⟩
      exact ⟨.some hstarts hvs hus, rfl⟩
    · rintro ⟨hno | ⟨-, hvs, hus⟩, rfl⟩
      · cases hstarts.symm.trans hno
      · exact ⟨_, hvs, us, hus, rfl, rfl⟩
  · have hstarts : ts.startsResult = false := hts.2
    rw [hstarts]
    constructor
    · rintro ⟨rfl, rfl⟩
      exact ⟨.none hstarts, rfl⟩
    · rintro ⟨_ | ⟨hyes, -, -⟩, rfl⟩
      · exact ⟨rfl, rfl⟩
      · cases hstarts.symm.trans hyes

/-- Parentheses hold the elements of a tuple. What comes behind tells whether they are the
parameters of a function, and then the result is read too. -/
theorem tupleOrFunctionType_reads :
    tupleOrFunctionType.Reads env test fun ts _ us => ∃ vs ws, Ahead.AreElements ts.tail vs ∧
      Ahead.Closes .rightParen (.ofList [.leftBrace, .rightBrace, .rightBracket]) vs ws ∧
        Ahead.IsResult ws us := by
  refine .congr (.nodeBy (.congr (.step .advance (.andThen (tupleElements_reads henv)
    (.closerThen (result_reads henv)))) fun _ _ _ _ => .rfl) ?_) fun ts _ us _ => ?_
  · rintro ts a us ⟨vs, -, ws, -, -, rfl⟩
    cases ws.startsResult <;> decide
  · constructor
    · rintro ⟨_, vs, hvs, ws, hws, hus, -⟩
      exact ⟨vs, ws, hvs, hws, hus⟩
    · rintro ⟨vs, ws, hvs, hws, hus⟩
      exact ⟨_, vs, hvs, ws, hws, hus, rfl⟩

/-- A type that is no composition has the form that its first tokens tell, with members and marks
behind it. Where no type starts, one is missing, and the tree is not whole. -/
theorem plainTypeRule_reads :
    plainTypeRule.Reads env test fun ts _ us => ts.IsPlainType us := by
  refine .branch (.congr (.node (.andThen attributes_reads (.step .skip (plainType_reads henv))))
    fun ts _ us hts => Ahead.isPlainType_attributed (if_pos hts.2)) ?_
  refine .branch (.congr (.node (.step (.branch .advanceAs .advanceAs) (plainType_reads henv)))
    fun ts _ us hts => Ahead.isPlainType_someOrAny ?_) ?_
  · rw [Ahead.typeForm?, hts.1.2, hts.2, if_neg Bool.false_ne_true, if_pos rfl]
  refine .branch (.congr (.andThen (namedType_reads henv) (.andThen (memberTypes_reads henv)
    optionalSuffixes_reads)) fun ts _ us hts => Ahead.isPlainType_named ?_) ?_
  · rw [Ahead.typeForm?, hts.1.1.2, hts.1.2, hts.2, if_neg Bool.false_ne_true,
      if_neg Bool.false_ne_true, if_pos rfl]
  refine .branch (.congr (.andThen (collectionType_reads henv) optionalSuffixes_reads)
    fun ts _ us hts => Ahead.isPlainType_collection ?_) ?_
  · rw [Ahead.typeForm?, hts.1.1.1.2, hts.1.1.2, hts.1.2, hts.2, if_neg Bool.false_ne_true,
      if_neg Bool.false_ne_true, if_neg Bool.false_ne_true, if_pos rfl]
  refine .branch (.congr (.andThen (tupleOrFunctionType_reads henv) optionalSuffixes_reads)
    fun ts _ us hts => Ahead.isPlainType_tuple ?_) (.congr .placeholder fun ts _ us hts =>
      (iff_false_intro (Ahead.not_isPlainType ?_)).symm)
  · rw [Ahead.typeForm?, hts.1.1.1.1.2, hts.1.1.1.2, hts.1.1.2, hts.1.2, hts.2,
      if_neg Bool.false_ne_true, if_neg Bool.false_ne_true, if_neg Bool.false_ne_true,
      if_neg Bool.false_ne_true, if_pos rfl]
  · rw [Ahead.typeForm?, hts.1.1.1.1.2, hts.1.1.1.2, hts.1.1.2, hts.1.2, hts.2,
      if_neg Bool.false_ne_true, if_neg Bool.false_ne_true, if_neg Bool.false_ne_true,
      if_neg Bool.false_ne_true, if_neg Bool.false_ne_true]

/-- A type is one that is no composition, and further ones behind `&`. -/
theorem typeRule_reads : typeRule.Reads env test fun ts _ us => ts.IsType us := by
  have hjoined : Parser.Reads env (fun ts => Ahead.isComposition ts = true) (do
      advance
      visit .plainType) fun ts _ us => ts.IsJoined us := by
    refine .congr (.step .advance (plainType_reads henv)) fun ts _ us _ => ?_
    constructor
    · exact .mk
    · rintro ⟨h⟩
      exact h
  refine .congr (.andThen (plainType_reads henv) (.ifAhead (.enclose (.whileAhead hjoined))
    fun _ _ _ => whileAhead_iff_of_not)) fun ts _ us _ => ?_
  constructor
  · rintro ⟨_, hus, hvs⟩
    exact .mk hus hvs
  · rintro ⟨hus, hvs⟩
    exact ⟨_, hus, hvs⟩

end

/-- **Goals of types read types**, with any number of calls. The induction is on the calls, as the
rules of types call each other through goals only. -/
theorem readsTypes (n rounds : Nat) : Env.ReadsTypes ⟨Goal.run n, rounds⟩ := by
  induction n generalizing rounds with
  | zero =>
    constructor
    · intro s a t hr
      cases hr
    · intro s a t hr
      cases hr
  | succ n ih =>
    have hcomplete {p : Parser Unit} {Q : Ahead → Ahead → Prop}
        (h : p.Reads ⟨Goal.run n, n⟩ (fun _ => True) fun ts _ us => Q ts us) :
        (complete p).Reads ⟨Goal.run n, n⟩ (fun _ => True) fun ts b us => b = false ∧ Q ts us := by
      refine .congr (.andThen h (.pure false)) fun ts b us _ => ?_
      constructor
      · rintro ⟨_, hus, rfl, rfl⟩
        exact ⟨rfl, hus⟩
      · rintro ⟨rfl, hus⟩
        exact ⟨_, hus, rfl, rfl⟩
    constructor
    · exact fun s a t hr => hcomplete (typeRule_reads (ih n)) s a t trivial hr
    · exact fun s a t hr => hcomplete (plainTypeRule_reads (ih n)) s a t trivial hr

end

end SwiftTree.Grammar
