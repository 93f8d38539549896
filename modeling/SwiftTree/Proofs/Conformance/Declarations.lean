import SwiftTree.Grammar.Declaration
import SwiftTree.Proofs.Conformance.Attributes

/-!
# The shapes of patterns and declarations

A declaration is followed where attributes and modifiers lead to its keyword. If the parentheses of
the attributes belong together, then the rule comes to the keyword that was seen (`decl_adds`).
-/

namespace SwiftTree.Grammar

open Grammar.Parser Shape

variable {test : Ahead → Prop} {mode : Mode}

/-! ## Keywords -/

/-- Whether a token of a kind comes first, both ahead and among what was added. -/
def Ahead.Leads (ts : Ahead) (gs : List Green) (k : Kind) : Prop :=
  ∃ x us behind, ts = x :: us ∧ gs = .token x.token :: behind ∧ x.kind = k

/-- What comes first also comes first with more behind it. -/
theorem Ahead.Leads.append {ts : Ahead} {gs : List Green} {k : Kind} (h : ts.Leads gs k)
    (hs : List Green) : ts.Leads (gs ++ hs) k := by
  obtain ⟨x, us, behind, hts, rfl, hx⟩ := h
  exact ⟨x, us, behind ++ hs, hts, rfl, hx⟩

/-- The next token is taken as it is. -/
theorem advance_adds {ts : Ahead} {k : Kind} (hk : k ≠ .endOfFile)
    (h : ∀ us, test us → us = ts ∧ us.isAt k) :
    Grammar.advance.Adds test fun _ _ gs => ts.Leads gs k := by
  intro us built hus
  obtain ⟨rfl, hat⟩ := h us hus
  obtain ⟨x, us, rfl⟩ := List.exists_cons_of_ne_nil (Ahead.ne_nil_of_isAt hk hat)
  exact ⟨Ahead.mayTake_none _, [.token x.token], rfl, ⟨trivial, trivial⟩, x, us, [], rfl, rfl,
    beq_iff_eq.mp hat⟩

/-- A rule that takes a token if it is there, and is followed by one of two. -/
theorem eat_adds {α : Type} {k : Kind} (hk : k ≠ .endOfFile) {ts : Ahead} {p q : Parser α}
    {given : α → Ahead → List Green → Prop}
    (hthere : ∀ y us, ts = y :: us → y.kind = k →
      p.Adds (fun vs => vs = us) fun a vs gs => given a vs (.token y.token :: gs))
    (hnot : ts.kind ≠ k → q.Adds (fun us => us = ts) given) :
    (eat k >>= fun found => if found then p else q).Adds (fun us => us = ts) given := by
  rintro us built rfl
  refine yields_eat hk (fun y vs hus hy => ?_) fun hne => hnot hne us built rfl
  refine yields_mono (hthere y vs hus hy vs (.token y.token :: built) rfl) ?_
  rintro a ⟨ws, _⟩ ⟨gs, rfl, hstrict, hgs⟩
  exact ⟨.token y.token :: gs, by simp, ⟨trivial, hstrict⟩, hgs⟩

/-- A token that is required is the next one if it is there. -/
theorem require_adds {k : Kind} {hk : k.isSolid} (ts : Ahead) :
    (require k hk).Adds (fun us => us = ts)
    fun _ _ gs => (needed k).Matches gs ∧ (ts.isAt k → ts.Leads gs k) := by
  refine .and Makes.require ?_
  rintro us built rfl
  refine yields_require (fun y vs hus hy => ?_) fun hnot spelling => ?_
  · exact ⟨[.token y.token], rfl, ⟨trivial, trivial⟩, fun _ => ⟨y, vs, [], hus, rfl, hy⟩⟩
  · exact ⟨[.missing k spelling], rfl, ⟨trivial, trivial⟩,
      fun hat => absurd (beq_iff_eq.mp hat) hnot⟩

/-! ## Patterns -/

theorem expr_makes : (Grammar.expr mode).Makes test Shape.expr := .visit

theorem label_makes : Grammar.label.Makes test (opt Shape.label) :=
  .ifAhead (advanceBy_label fun _ h => h.2)

/-- A tuple pattern starts with the parenthesis that was seen. -/
theorem tuplePattern_makes (h : ∀ ts, test ts → ts.isAt .leftParen) :
    tuplePattern.Makes test (one .tuplePattern) := by
  refine .node (.seq (.advance h) fun _ => .seq (.ifAhead ?_) fun _ => .require)
  exact .seq (.commaList (.seq label_makes fun _ => .visit) rfl) fun _ => skipToCloser_makes

/-- A pattern is one of its kinds, also where none starts: a missing one is a node of its own. -/
theorem patternRule_makes : patternRule.Makes test Shape.pattern := by
  refine .look fun kind => ?_
  split
  iterate 3 exact .node (.advance fun ts hts => Ahead.heads_of_kind hts.2 rfl)
  · exact .of_one (tuplePattern_makes fun ts hts => beq_iff_eq.mpr hts.2) rfl
  iterate 2
    exact .node (.seq (.advance fun ts hts => Ahead.heads_of_kind hts.2 rfl) fun _ => .visit)
  · exact (.placeholder .nothing)

theorem valueBinding_makes (h : ∀ ts, test ts → (ts.isAt .letKw || ts.isAt .varKw) = true) :
    (valueBinding mode).Makes test Shape.pattern :=
  .node (.seq (.advance h) fun _ => .visit)

theorem Ahead.isAt_of_isLone {k : Kind} {ts : Ahead} (h : ts.isLone k) : ts.isAt k :=
  Bool.and_elim_left h

/-- The pattern of a case may be an expression, since any expression can be one to match. -/
theorem casePatternRule_makes : (casePatternRule mode).Makes test Shape.pattern := by
  refine .branch (valueBinding_makes fun _ h => h.2) ?_
  refine .branch (.node (.seq (.advance fun _ h => h.2) fun _ => type_makes)) ?_
  refine .branch (.node (.advance fun ts hts => Ahead.isAt_of_isLone hts.2)) ?_
  refine .branch (.node (.advance fun ts hts => ?_)) (.node .visit)
  have hname : ts.isAt .identifier := Ahead.isAt_of_isLone (Bool.and_elim_right hts.2)
  exact Ahead.heads_of_kind (beq_iff_eq.mp hname) rfl

/-! ## Declarations -/

/-- A code block has braces on both sides, which may be missing, and a list of statements. -/
theorem codeBlock_makes : codeBlock.Makes test (one .codeBlock) := by
  refine .node (.seqOr (.eat (by decide)) (.seq .visit fun _ => .require) ?_)
  exact .seq (.missing rfl) fun _ => .seq (.emptyNode .none) fun _ => (.missing rfl)

theorem initializer_makes : (initializer mode).Makes test (one .initializerClause) :=
  .node (.seq .require fun _ => expr_makes)

/-- A parameter has one name or two. Whether a type has to follow tells if a single underscore is
one. -/
theorem parameterNames_makes {typed : Bool} :
    (Grammar.parameterNames typed).Makes test Shape.parameterNames := by
  refine .branch (.left (.seq (.advance fun _ h => h.2) fun _ => ?_)) (.right ?_)
  · exact .ifAhead (.advance fun _ h => h.2)
  · cases typed
    · exact .none ()
    · exact .left (.missing rfl)

theorem parameterType_makes {typed : Bool} :
    (parameterType typed).Makes test (opt (.seq (needed .colon) Shape.type)) :=
  .ifAhead (.seq .require fun _ => type_makes)

/-- Each part of a parameter behind its names may be absent. -/
theorem parameter_makes {typed : Bool} : (parameter typed).Makes test
    (.seq (opt (one .attributeList)) <| .seq Shape.parameterNames <|
      .seq (opt (.seq (needed .colon) Shape.type)) <| .seq (opt (.token Kind.isOperator)) <|
        opt (one .defaultArgument)) := by
  refine .seq attributes_makes fun _ => .seq parameterNames_makes fun _ => ?_
  refine .seq parameterType_makes fun _ => .seq (.ifAhead ?_) fun _ => .ifAhead ?_
  · exact .advance fun _ hts => Ahead.isOperator_of_spelled hts.2
  · exact .node (.seq (.advance fun _ h => h.2) fun _ => expr_makes)

theorem parameterClause_makes {typed : Bool} :
    (parameterClause typed).Makes test (one .parameterClause) := by
  refine .node (.seqOr (.eat (by decide)) (.seq (.ifAhead ?_) fun _ => .require) ?_)
  · exact .seq (.commaList parameter_makes rfl) fun _ => skipToCloser_makes
  · exact .seq (.missing rfl) fun _ => (.missing rfl)

/-- A binding is a pattern with a type, a value and accessors, each of which may be absent. -/
theorem patternBinding_makes : patternBinding.Makes test
    (.seq Shape.pattern <| .seq (opt (one .typeClause)) <|
      .seq (opt (one .initializerClause)) (opt (one .codeBlock))) := by
  refine .seq .visit fun _ => .seq (.ifAhead typeClause_makes) fun _ => ?_
  exact .seq (.ifAhead initializer_makes) fun _ => .ifAhead codeBlock_makes

theorem variableKeyword_makes :
    variableKeyword.Makes test (Shape.alt (tok .letKw) (needed .varKw)) :=
  .orElse (.eat (by decide)) (.pure ()) (.right .require) fun _ => .left

/-- The keyword of a variable is the next token if it is one. -/
theorem variableKeyword_adds (ts : Ahead) : variableKeyword.Adds (fun us => us = ts) fun _ _ gs =>
    ts.isAt .letKw ∨ ts.isAt .varKw → ts.Leads gs .letKw ∨ ts.Leads gs .varKw := by
  refine eat_adds (by decide) (fun y us hts hy => ?_) fun hlet => ?_
  · exact .answer fun _ _ _ => .inl ⟨y, us, [], hts, rfl, hy⟩
  · refine .mono (require_adds ts) (fun _ h => h) fun _ _ gs hgs hat => .inr (hgs.2 ?_)
    exact hat.resolve_left (mt beq_iff_eq.mp hlet)

theorem bindings_makes : Parser.Makes test (one .patternBindingList)
    (node .patternBindingList (commaList .patternBinding (fun _ => false) patternBinding)) :=
  .node (.commaList patternBinding_makes rfl)

theorem variableParts_makes : variableParts.Makes test
    (.seq (.alt (tok .letKw) (needed .varKw)) (one .patternBindingList)) :=
  .seq variableKeyword_makes fun _ => bindings_makes

/-- A variable starts with the keyword that was seen where it starts. -/
theorem variableParts_adds (ts : Ahead) : variableParts.Adds (fun us => us = ts) fun _ _ gs =>
    ts.isAt .letKw ∨ ts.isAt .varKw → ts.Leads gs .letKw ∨ ts.Leads gs .varKw :=
  .bind (variableKeyword_adds ts) (fun _ => bindings_makes)
    fun _ _ _ _ _ hs hgs _ hat => (hgs hat).imp (·.append hs) (·.append hs)

theorem functionName_makes : functionName.Makes test
    (nameAmong fun k => k == .identifier || k.isOperator) :=
  .branch (.left (.advance fun _ h => h.2)) (.right (.missing rfl))

/-- What a function has behind its keyword: a name, a signature, and a body if one is there. -/
theorem functionRest_makes : Parser.Makes test
    (.seq (nameAmong fun k => k == .identifier || k.isOperator) <|
      .seq (one .functionSignature) (opt (one .codeBlock))) (do
        functionName
        node .functionSignature do
          parameterClause true
          effectSpecifiers
          ifAt .arrow returnClause
        ifAt .leftBrace codeBlock) := by
  refine .seq functionName_makes fun _ => .seq (.node ?_) fun _ => ?_
  · refine .seq parameterClause_makes fun _ => .seq effectSpecifiers_makes fun _ => ?_
    exact .ifAhead returnClause_makes
  · exact .ifAhead codeBlock_makes

theorem functionParts_makes (h : ∀ ts, test ts → ts.isAt .funcKw) : functionParts.Makes test
    (.seq (tok .funcKw) <| .seq (nameAmong fun k => k == .identifier || k.isOperator) <|
      .seq (one .functionSignature) (opt (one .codeBlock))) :=
  .seq (.advance h) fun _ => functionRest_makes

/-- A function starts with its keyword. -/
theorem functionParts_adds {ts : Ahead} (h : ∀ us, test us → us = ts ∧ us.isAt .funcKw) :
    functionParts.Adds test fun _ _ gs => ts.Leads gs .funcKw :=
  .bind (advance_adds (by decide) h) (fun _ => functionRest_makes)
    fun _ _ _ _ _ hs hgs _ => hgs.append hs

/-- A modifier has one token, or four. -/
theorem Ahead.modifierLength?_eq {ts : Ahead} {n : Nat} (h : ts.modifierLength? = some n) :
    ts.isAt .identifier ∧ (n = 1 ∨ n = 4 ∧ isAt .leftParen (ts.drop 1) ∧
      isAt .identifier (ts.drop 2) ∧ isAt .rightParen (ts.drop 3)) := by
  rw [modifierLength?] at h
  split at h
  · rename_i hname
    rw [Bool.and_eq_true] at hname
    refine ⟨hname.1, ?_⟩
    dsimp only at h
    split at h
    · rename_i hdetailed
      simp only [Bool.and_eq_true] at hdetailed
      split at h
      · cases h
      · obtain rfl := Option.some.inj h
        exact .inr ⟨rfl, hdetailed.1.1.1, hdetailed.1.2, hdetailed.2⟩
    · split at h
      · cases h
      · obtain rfl := Option.some.inj h
        exact .inl rfl
  · cases h

/-- The word of a modifier is one token, whether it becomes a keyword or not. -/
theorem modifierWord_passes (test' : Ahead → Prop) (h : ∀ ts, test ts → ts.isAt .identifier)
    (ht : ∀ ts, test ts → test' ts.tail) :
    modifierWord.Adds test fun _ us gs => test' us ∧ Shape.modifierWord.Matches gs := by
  have orElse {k : Kind} {hk : k.isSolid} {next : Parser Unit}
      {given : Unit → Ahead → List Green → Prop} (hcontextual : k.isContextual)
      (hgiven : ∀ ts (x : Token), test ts → given () ts.tail [.token { x with kind := k }])
      (hnext : next.Adds test given) :
      (eatWord k hk >>= fun found => if found then Pure.pure () else next).Adds test given := by
    intro ts built hts
    rw [yields_bind, yields_eatWord]
    split
    · rename_i hword
      obtain ⟨hne, hmay⟩ := @Ahead.mayTake_of_isKeywordWord k hk ts hcontextual hword
      cases ts with
      | nil => exact absurd rfl hne
      | cons x us => exact ⟨hmay, [_], rfl, ⟨trivial, trivial⟩, hgiven _ x.token hts⟩
    · exact hnext ts built hts
  refine orElse rfl (fun ts x hts => ⟨ht ts hts, .token rfl⟩) ?_
  refine orElse rfl (fun ts x hts => ⟨ht ts hts, .token rfl⟩) ?_
  refine orElse rfl (fun ts x hts => ⟨ht ts hts, .token rfl⟩) ?_
  exact Makes.advancePast (fun ts hts => Ahead.heads_of_kind (beq_iff_eq.mp (h ts hts)) rfl) ht

/-- Whether the detail of a modifier stands here. -/
def Ahead.IsDetail (ts : Ahead) : Prop :=
  ts.isAt .leftParen ∧ isAt .identifier ts.tail ∧ isAt .rightParen ts.tail.tail

/-- The detail of a modifier is three tokens in all, as the look ahead has checked. -/
theorem modifierDetail_makes : (advanceBy 3).Makes Ahead.IsDetail modifierDetail := by
  have hname : (advanceBy 2).Makes
      (fun us => us.isAt .identifier ∧ Ahead.isAt .rightParen us.tail)
      (.seq (tok .identifier) (tok .rightParen)) :=
    .advanceThen (fun _ hus => hus.1) (.thenPure (.advance fun _ h => h)) fun _ hus => hus.2
  exact .advanceThen (fun _ hus => hus.1) hname fun _ hus => hus.2

/-- A modifier stands with its detail, or alone, as its length tells. -/
theorem modifier_makes (h : ∀ ts, test ts → ts.modifierLength?.isSome) :
    modifier.Makes test (one .declModifier) := by
  refine .node (.look fun length => ?_)
  have hlength (ts : Ahead) (hts : test ts ∧ ts.modifierLength?.getD 1 = length) :
      ts.modifierLength? = some length := by
    obtain ⟨n, hn⟩ := Option.isSome_iff_exists.mp (h ts hts.1)
    rw [hn, ← hts.2, hn]
    rfl
  have hname (ts : Ahead) (hts : test ts ∧ ts.modifierLength?.getD 1 = length) :
      ts.isAt .identifier := (Ahead.modifierLength?_eq (hlength ts hts)).1
  -- a word alone, or a word with a detail in parentheses
  by_cases hone : length = 1
  · subst hone
    refine Adds.passing (modifierWord_passes (fun _ => True) hname fun _ _ => trivial) fun _ => ?_
    exact .answer fun _ _ gs hgs => .seq hgs (.right .nothing)
  · have hdetail (ts : Ahead) (hts : test ts ∧ ts.modifierLength?.getD 1 = length) :
        length = 4 ∧ Ahead.IsDetail ts.tail := by
      simp only [Ahead.IsDetail, ← List.drop_one, List.drop_drop]
      exact (Ahead.modifierLength?_eq (hlength ts hts)).2.resolve_left hone
    by_cases hfour : length = 4
    · subst hfour
      refine Adds.passing (modifierWord_passes Ahead.IsDetail hname fun ts hts =>
        (hdetail ts hts).2)
        fun _ => ?_
      exact .mono modifierDetail_makes (fun _ h => h) fun _ _ _ hhs gs hgs => .seq hgs (.left hhs)
    · exact .never fun ts hts => hfour (hdetail ts hts).1

/-- Behind a modifier the look ahead goes on. -/
theorem Ahead.afterModifiers_drop {ts : Ahead} {n : Nat} (h : ts.modifierLength? = some n) :
    afterModifiers (ts.drop n) = ts.afterModifiers := by
  obtain ⟨hname, hlength⟩ := modifierLength?_eq h
  obtain ⟨x, us, rfl⟩ := List.exists_cons_of_ne_nil (ne_nil_of_isAt (by decide) hname)
  rw [afterModifiers.eq_def (x :: us)]
  dsimp only
  rw [h]
  obtain rfl | ⟨rfl, -⟩ := hlength
  · rfl
  · rfl

/-- A modifier is read up to where the look ahead passes it. -/
theorem modifier_yields {ts : Ahead} {n : Nat} {built : Forest} (h : ts.modifierLength? = some n) :
    modifier.yields ⟨ts, built⟩ fun _ t => t.ahead = ts.drop n := by
  obtain ⟨hname, hlength⟩ := Ahead.modifierLength?_eq h
  have hword : modifierWord.Adds (fun us => us = ts)
      fun _ us gs => us = ts.tail ∧ Shape.modifierWord.Matches gs :=
    modifierWord_passes (fun us => us = ts.tail) (by rintro us rfl; exact hname)
      fun us hus => by rw [hus]
  show modifierWord.yields ⟨ts, []⟩ fun _ t =>
    (advanceBy (ts.modifierLength?.getD 1 - 1)).yields t fun _ u => u.ahead = ts.drop n
  refine yields_mono (hword ts [] rfl) ?_
  rintro _ ⟨us, _⟩ ⟨gs, -, -, hus, -⟩
  refine yields_advanceBy ?_
  have hus : us = ts.drop 1 := hus.trans (List.drop_one).symm
  rw [hus, List.drop_drop, h]
  obtain rfl | ⟨rfl, -⟩ := hlength
  · rfl
  · rfl

/-- Modifiers are read up to where the look ahead passes them. -/
theorem modifiers_adds (ts : Ahead) :
    (whileAhead (fun us => us.modifierLength?.isSome) modifier).Adds (fun us => us = ts)
      fun _ us gs => (list .declModifier).Matches gs ∧ us = ts.afterModifiers := by
  refine .standing (Makes.whileAhead (modifier_makes fun _ h => h)) ?_
  rintro us built rfl
  refine yields_whileAhead (fun t => t.ahead.afterModifiers = us.afterModifiers) rfl ?_ ?_
  · rintro ⟨vs, _⟩ hvs hmodifier
    obtain ⟨n, hn⟩ := Option.isSome_iff_exists.mp hmodifier
    refine yields_mono (modifier_yields hn) ?_
    rintro _ ⟨ws, _⟩ (rfl : ws = _)
    exact (Ahead.afterModifiers_drop hn).trans hvs
  · rintro ⟨vs, _⟩ hvs hnone
    exact (Ahead.afterModifiers_eq hnone).symm.trans hvs

/-- Which node a keyword declares. -/
inductive Declares : Kind → Kind → Prop
  | function : Declares .funcKw .functionDecl
  | constant : Declares .letKw .variableDecl
  | mutable : Declares .varKw .variableDecl

/-- Whether a keyword that declares something stands here. -/
def Ahead.isDeclKeyword (ts : Ahead) : Bool := ts.isAt .letKw || ts.isAt .varKw || ts.isAt .funcKw

/-- What is known of the parts of a declaration behind its modifiers, given where they start. -/
structure DeclParts (ts : Ahead) (kind : Kind) (gs : List Green) : Prop where
  statement : kind.isStatement
  plain : kind.isPlain
  /-- attributes and modifiers may stand before them -/
  shape : ∀ attributes modifiers : List Green, (opt (one .attributeList)).Matches attributes →
    (list .declModifier).Matches modifiers →
    kind.exactShape.Matches (attributes ++ (modifiers ++ gs))
  /-- a keyword that stands here comes first, and says what is declared -/
  keyword : ts.isDeclKeyword → ∃ k, Declares k kind ∧ ts.Leads gs k

/-- The parts of a declaration start with the keyword that its kind asks for. -/
theorem declParts_adds (ts : Ahead) :
    declParts.Adds (fun us => us = ts) fun kind _ gs => DeclParts ts kind.1 gs := by
  refine .branch ?_ ?_
  · refine .returns (.and (functionParts_makes fun _ h => h.2) (functionParts_adds fun _ h => h)) ?_
    rintro _ _ gs ⟨hgs, hleads⟩
    refine ⟨rfl, rfl, fun attributes modifiers hattributes hmodifiers => ?_, fun _ => ?_⟩
    · exact .seq hattributes (.seq hmodifiers hgs)
    · exact ⟨.funcKw, .function, hleads⟩
  · have hnot : variableParts.Adds (fun us => us = ts ∧ us.isAt .funcKw = false)
        fun _ _ gs => ts.isDeclKeyword → ts.Leads gs .letKw ∨ ts.Leads gs .varKw := by
      intro us built hus
      refine yields_mono (variableParts_adds ts us built hus.1) ?_
      rintro _ t ⟨gs, hbuilt, hstrict, hgs⟩
      refine ⟨gs, hbuilt, hstrict, fun hat => hgs ?_⟩
      rwa [Ahead.isDeclKeyword, ← hus.1, hus.2, Bool.or_false, Bool.or_eq_true, hus.1] at hat
    refine .returns (.and variableParts_makes hnot) ?_
    rintro _ _ gs ⟨hgs, hleads⟩
    refine ⟨rfl, rfl, fun attributes modifiers hattributes hmodifiers => ?_, fun hat => ?_⟩
    · exact .seq hattributes (.seq hmodifiers hgs)
    · obtain hlet | hvar := hleads hat
      · exact ⟨.letKw, .constant, hlet⟩
      · exact ⟨.varKw, .mutable, hvar⟩

/-- What is known of the parts of a declaration behind its attributes, given where they start. -/
theorem declRest_adds (ts : Ahead) : Parser.Adds (fun us => us = ts) (fun answer _ gs =>
    ∃ modifiers behind, gs = modifiers ++ behind ∧ (list .declModifier).Matches modifiers ∧
      DeclParts ts.afterModifiers answer.1.1 behind) (do
    whileAhead (fun ts => ts.modifierLength?.isSome) modifier
    return (← declParts, ())) := by
  have hparts (us : Ahead) : Parser.Adds (fun vs => vs = us)
      (fun answer _ gs => DeclParts us answer.1.1 gs) (do return (← declParts, ())) :=
    .returns (declParts_adds us) fun _ _ _ h => h
  refine .bindAt (modifiers_adds ts) (fun _ us _ _ => hparts us) ?_
  rintro _ us modifiers answer vs behind ⟨hmodifiers, rfl⟩ hbehind
  exact ⟨modifiers, behind, rfl, hmodifiers, hbehind⟩

/-- A declaration with the keyword that declares it among its parts has its keyword. -/
theorem Declares.hasKeyword {k kind : Kind} {cs : List Green} {t : Token} (h : Declares k kind)
    (hmem : .token t ∈ cs) (ht : t.kind = k) : Green.HasKeyword kind cs := by
  cases h with
  | function => exact ⟨(nomatch ·), (nomatch ·)⟩
  | constant => exact ⟨fun _ => ⟨t.outline, hmem, .inl ht⟩, (nomatch ·)⟩
  | mutable => exact ⟨fun _ => ⟨t.outline, hmem, .inr ht⟩, (nomatch ·)⟩

/-- A declaration where attributes and modifiers lead to its keyword. If the parentheses of the
attributes belong together, then the keyword that was seen is the first token behind attributes and
modifiers. -/
theorem decl_adds {ts : Ahead} (h : ts.startsDecl) : decl.Adds (fun us => us = ts) fun _ _ gs =>
    ∃ kind cs, gs = [.node kind cs] ∧ kind.isStatement ∧
      (Green.attributesMatch cs → ∃ before behind k, cs = before ++ behind ∧
        (Shape.seq (opt (one .attributeList)) (list .declModifier)).Matches before ∧
        Declares k kind ∧ ts.afterAttributes.afterModifiers.Leads behind k) := by
  refine .nodeBy (.bindAt (attributes_adds ts) (fun _ us _ _ => declRest_adds us) ?_)
  rintro _ us attributes ⟨⟨kind, _⟩, _⟩ vs _ ⟨hattributes, hlook⟩
    ⟨modifiers, behind, rfl, hmodifiers, hparts⟩
  -- then the look ahead was right about where the modifiers start
  have hkeyword (hmatch : Green.attributesMatch (attributes ++ (modifiers ++ behind))) :
      ∃ k, Declares k kind ∧ ts.afterAttributes.afterModifiers.Leads behind k := by
    rw [Green.attributesMatch_append, Bool.and_eq_true] at hmatch
    rw [← hlook hmatch.1]
    refine hparts.keyword ?_
    rw [hlook hmatch.1]
    exact h
  refine ⟨Green.exact_keyed hparts.plain (hparts.shape _ _ hattributes hmodifiers) fun hmatch => ?_,
    kind, _, rfl, hparts.statement, fun hmatch => ?_⟩
  · obtain ⟨k, hdeclares, x, us, rest, -, rfl, hx⟩ := hkeyword hmatch
    exact hdeclares.hasKeyword (by simp) hx
  · obtain ⟨k, hdeclares, hleads⟩ := hkeyword hmatch
    exact ⟨attributes ++ modifiers, behind, k, (List.append_assoc _ _ _).symm,
      .seq hattributes hmodifiers, hdeclares, hleads⟩

/-- A declaration is one of the three kinds. If the parentheses of its attributes belong together,
then its keyword is the one that was seen behind them; see `DeclParts`. -/
theorem decl_makes (h : ∀ ts, test ts → ts.startsDecl) : decl.Makes test statement := by
  intro ts built hts
  refine yields_mono (decl_adds (h ts hts) ts built rfl) ?_
  rintro _ t ⟨_, hbuilt, hstrict, kind, cs, rfl, hkind, -⟩
  exact ⟨_, hbuilt, hstrict, .node (by rw [hkind]; rfl)⟩

end SwiftTree.Grammar
