import SwiftTree.Proofs.Following
import SwiftTree.Proofs.WrittenTypes

/-!
# Types are read as they are written

The rules of types are followed on tokens of which only the signs are known that they were made of
(`Ahead.Shows`). Every type is read wherever its signs fit (`isRead`), in three steps: what the
tests of the rules say of signs, what the rules make of single signs, and then one lemma for each
form of a type.

Suffixes are the reason for `IsRead`. The question marks behind a type are taken by the rule that
read the type, not by one of their own. So what is proved of a type is what its rule does if its
loop over suffixes ends in some way behind the type itself; the optional of the type goes round that
loop once more.
-/

namespace SwiftTree.Grammar

/-! ## Signs ahead -/

/-- Whether the tokens ahead are those of signs, and every operator touches what stands before
it. -/
structure Ahead.Shows (ss : List Sign) (ts : Ahead) : Prop where
  tokens : ts.map Lexeme.token = Sign.tokens ss
  adjacent : ∀ x ∈ ts, x.kind.isOperator → x.adjacent

namespace Ahead.Shows

variable {s : Sign} {ss : List Sign} {ts : Ahead}

theorem nil (h : Shows [] ts) : ts = [] := List.map_eq_nil_iff.mp h.tokens

/-- A sign that is no suffix is a token. -/
theorem cons (h : Shows (s :: ss) ts) (hs : s.isSuffix = false) :
    ∃ x us, ts = x :: us ∧ x.token = s.token ∧ (x.kind.isOperator → x.adjacent) ∧ Shows ss us := by
  have htokens := h.tokens
  rw [Sign.tokens_of_not_isSuffix hs, List.map_eq_cons_iff] at htokens
  obtain ⟨x, us, rfl, hx, hus⟩ := htokens
  exact ⟨x, us, rfl, hx, h.adjacent x List.mem_cons_self, hus,
    fun y hy => h.adjacent y (List.mem_cons_of_mem _ hy)⟩

/-- The first sign stands at the front of the first token. -/
theorem exists_cons (h : Shows (s :: ss) ts) :
    ∃ x us, ts = x :: us ∧ x.kind = s.token.kind ∧ s.token.text <+: x.text := by
  have htokens := h.tokens
  rcases hts : Sign.tokens (s :: ss) with _ | ⟨t, ts'⟩
  · exact absurd hts (Sign.tokens_cons_ne_nil s ss)
  · rw [hts, List.map_eq_cons_iff] at htokens
    obtain ⟨x, us, rfl, rfl, -⟩ := htokens
    exact ⟨x, us, rfl, Sign.head_tokens hts⟩

/-- The next token has the kind of the next sign. -/
theorem kind_eq (h : Shows ss ts) : ts.kind = Sign.kindOf ss.head? := by
  cases ss with
  | nil =>
    rw [h.nil]
    rfl
  | cons s ss =>
    obtain ⟨x, us, rfl, hx, -⟩ := h.exists_cons
    exact hx

/-- A suffix is cut off the operator that it is read with. -/
theorem cut (h : Shows (s :: ss) ts) (hs : s.isSuffix) (head : SolidKind) (rest : Option SolidKind)
    (hrest : ∀ k ∈ rest, k.1 = .postfixOperator) :
    ∃ x us, ts.splitHead head rest = x :: us ∧
      x.token = ⟨[], x.kind, s.token.text, []⟩ ∧ (x.kind = head.1 ∨ x.kind = .postfixOperator) ∧
      Shows ss us := by
  have htokens := h.tokens
  obtain ⟨c, hc⟩ : ∃ c, s.token.text = [c] := by
    cases s with
    | rightAngle | mark => exact ⟨_, rfl⟩
    | _ => cases hs
  rw [Sign.tokens, if_pos hs] at htokens
  rcases Sign.join_cases s.token.text (Sign.tokens ss) with hjoin | ⟨u, vs, hss, hu, hjoin⟩
  · -- the suffix is an operator of its own
    rw [hjoin, List.map_eq_cons_iff] at htokens
    obtain ⟨x, us, rfl, hx, hus⟩ := htokens
    refine ⟨x, us, ?_, ?_, .inr ?_, hus, fun y hy => h.adjacent y (List.mem_cons_of_mem _ hy)⟩
    · rw [Ahead.splitHead, hx, hc]
    · show x.token = ⟨[], x.token.kind, _, []⟩
      rw [hx]
    · show x.token.kind = _
      rw [hx]
  · -- it is the first character of an operator
    rw [hjoin, List.map_eq_cons_iff] at htokens
    obtain ⟨x, us, rfl, hx, hus⟩ := htokens
    obtain ⟨d, cs, htext⟩ := List.exists_cons_of_ne_nil (Sign.text_ne_nil_of_tokens hss)
    have hleading : u.leading = [] := Sign.leading_tokens u (congrArg List.head? hss)
    have hxtext : x.token.text = c :: d :: cs := by rw [hx, hc, htext]; rfl
    have hkind : (rest.getD ⟨x.kind, x.solid.2⟩).1 = u.kind := by
      cases rest with
      | none =>
        show x.token.kind = u.kind
        rw [hx]
      | some k => exact (hrest k rfl).trans hu.symm
    simp only [Ahead.splitHead, hxtext]
    refine ⟨_, _, rfl, ?_, .inl rfl, ?_, ?_⟩
    · show (⟨x.token.leading, head.1, [c], []⟩ : Token) = ⟨[], head.1, s.token.text, []⟩
      rw [hx, hc, hleading]
    · show (⟨[], _, d :: cs, x.token.trailing⟩ : Token) :: us.map Lexeme.token = Sign.tokens ss
      rw [hss, hus, hkind, hx, ← htext, ← hleading]
    · refine List.forall_mem_cons.mpr ⟨fun _ => rfl, fun y hy => ?_⟩
      exact h.adjacent y (List.mem_cons_of_mem _ hy)

/-! ### What rules look at -/

theorem isAt_eq (h : Shows ss ts) (k : Kind) : ts.isAt k = (Sign.kindOf ss.head? == k) := by
  rw [Ahead.isAt, h.kind_eq]

/-- The text of the next token starts with the first character of the sign. -/
theorem head?_text (h : Shows (s :: ss) ts) : ts.text.head? = some s.first := by
  obtain ⟨x, us, rfl, -, hprefix⟩ := h.exists_cons
  obtain ⟨c, cs, hc⟩ := List.exists_cons_of_ne_nil s.text_ne_nil
  obtain ⟨behind, hbehind⟩ := hprefix
  show x.text.head? = some (Text.peek s.token.text)
  rw [← hbehind, hc]
  rfl

/-- Whether an operator starts with a character can be told from the sign. -/
theorem isOperatorFrom_eq (h : Shows (s :: ss) ts) (c : Char) :
    ts.isOperatorFrom c = (s.token.kind.isOperator && s.first == c) := by
  rw [Ahead.isOperatorFrom, h.kind_eq, h.head?_text]
  rfl

/-- A left angle bracket of a sign touches the name before it. -/
theorem isAdjacentAngle (h : Shows (.leftAngle :: ss) ts) : ts.isAdjacentAngle := by
  rw [Ahead.isAdjacentAngle, h.isOperatorFrom_eq]
  obtain ⟨x, us, rfl, hkind, -⟩ := h.exists_cons
  exact h.adjacent x List.mem_cons_self (hkind ▸ rfl)

/-- Behind a type no generic arguments start. -/
theorem not_isAdjacentAngle (h : Shows ss ts) (hss : ss.head?.all Sign.follows) :
    ts.isAdjacentAngle = false := by
  rw [Ahead.isAdjacentAngle]
  rcases ss with _ | ⟨s, ss⟩
  · rw [h.nil]
    rfl
  · rw [h.isOperatorFrom_eq]
    cases s with
    | leftAngle => cases hss
    | _ => rfl

/-- A question mark makes the type before it optional if what is read with it are others. -/
theorem optionalSuffix?_mark (h : Shows (.mark :: ss) ts)
    (hfit : Sign.FitBefore none (.mark :: ss)) :
    ts.optionalSuffix? = some ⟨.optionalType, rfl⟩ := by
  obtain ⟨x, us, rfl, hkind, -⟩ := h.exists_cons
  have hmarks : ∀ c ∈ x.token.text, c = '?' := Sign.all_marks hfit h.tokens.symm
  have hall : x.text.all (fun c => c == '?' || c == '!') := by
    rw [List.all_eq_true]
    intro c hc
    rw [hmarks c hc]
    rfl
  have hop : x.kind.isOperator := hkind ▸ rfl
  have hadjacent := h.adjacent x List.mem_cons_self hop
  have hhead : (Ahead.text (x :: us)).head? = some '?' := h.head?_text
  have hcond : (Ahead.kind (x :: us)).isOperator && Ahead.adjacent (x :: us)
      && (Ahead.text (x :: us)).all (fun c => c == '?' || c == '!') := by
    show x.kind.isOperator && x.adjacent && x.text.all _
    rw [hop, hadjacent, hall]
    rfl
  rw [Ahead.optionalSuffix?, if_pos hcond, hhead]
  rfl

/-- Only question marks of signs are suffixes. -/
theorem optionalSuffix?_eq_none (h : Shows ss ts) (hss : ∀ s ∈ ss.head?, s ≠ .mark) :
    ts.optionalSuffix? = none := by
  rw [Ahead.optionalSuffix?]
  rcases ss with _ | ⟨s, ss⟩
  · rw [h.nil]
    rfl
  · rw [h.kind_eq, h.head?_text]
    split
    · rename_i hop
      cases s with
      | mark => exact absurd rfl (hss _ rfl)
      | leftAngle | rightAngle => rfl
      | _ => cases hop
    · rfl

/-- Behind a type stands no arrow, and nothing that comes before one. -/
theorem not_arrow (h : Shows ss ts) (hss : ss.head?.all Sign.follows) :
    (ts.isEffect || ts.isAt .arrow) = false := by
  unfold Ahead.isEffect Ahead.isWord
  rw [h.isAt_eq, h.isAt_eq, h.isAt_eq, h.isAt_eq]
  rcases ss with _ | ⟨s, ss⟩
  · rfl
  · cases s with
    | word | leftParen | leftBracket | leftAngle | arrow => cases hss
    | _ => rfl

/-- Only words are names. -/
theorem not_isName (h : Shows ss ts) (hss : ∀ n, ss.head? ≠ some (.word n)) :
    ts.isName = false := by
  unfold Ahead.isName
  rw [h.isAt_eq, h.isAt_eq, h.isAt_eq, h.kind_eq]
  rcases ss with _ | ⟨s, ss⟩
  · rfl
  · cases s with
    | word n => exact absurd rfl (hss n)
    | _ => rfl

end Ahead.Shows

/-! ## Rules -/

open Grammar.Parser

variable {s : Sign} {ss : List Sign} {ts us : Ahead} {t : WrittenType} {others : List WrittenType}

/-! ### Tokens -/

/-- A sign that is no suffix is taken as it is. -/
theorem advance_sign (built : Forest) (h : Ahead.Shows (s :: ss) ts) (hs : s.isSuffix = false) :
    ∃ us, Ahead.Shows ss us ∧ advance.Ends ⟨ts, built⟩ () ⟨us, .token s.token :: built⟩ := by
  obtain ⟨x, us, rfl, hx, -, hus⟩ := h.cons hs
  exact ⟨us, hus, hx ▸ .advance x us built⟩

/-- A token of the kind that is asked for is taken with its sign. -/
theorem eat_sign {k : Kind} (built : Forest) (h : Ahead.Shows (s :: ss) ts)
    (hs : s.isSuffix = false)
    (hk : s.token.kind = k) :
    ∃ us, Ahead.Shows ss us ∧ (eat k).Ends ⟨ts, built⟩ true ⟨us, .token s.token :: built⟩ := by
  obtain ⟨x, us, rfl, hx, -, hus⟩ := h.cons hs
  have hkind : x.kind = k := hk ▸ congrArg Token.kind hx
  exact ⟨us, hus, hx ▸ .eat hkind⟩

theorem eat_not_sign {k : Kind} (built : Forest) (h : Ahead.Shows ss ts)
    (hk : Sign.kindOf ss.head? ≠ k) : (eat k).Ends ⟨ts, built⟩ false ⟨ts, built⟩ :=
  .eat_not (h.kind_eq ▸ hk)

/-- A token that is required is taken with its sign. -/
theorem require_sign {k : Kind} {hk : k.isSolid} (built : Forest) (h : Ahead.Shows (s :: ss) ts)
    (hs : s.isSuffix = false) (hkind : s.token.kind = k) :
    ∃ us, Ahead.Shows ss us ∧ (require k hk).Ends ⟨ts, built⟩ () ⟨us, .token s.token :: built⟩ := by
  obtain ⟨x, us, rfl, hx, -, hus⟩ := h.cons hs
  have hxkind : x.kind = k := hkind ▸ congrArg Token.kind hx
  exact ⟨us, hus, hx ▸ .require hxkind⟩

/-- Before the closing token nothing is skipped. -/
theorem skipToCloser_ends {k : Kind} {barriers : KindSet} (built : Forest) (h : Ahead.Shows ss ts)
    (hk : Sign.kindOf ss.head? = k) :
    (skipToCloser k barriers).Ends ⟨ts, built⟩ () ⟨ts, built⟩ := by
  refine .ifAhead_not ?_
  show (!ts.isAt k && _) = false
  rw [h.isAt_eq, hk, beq_self_eq_true]
  rfl

/-! ### Angle brackets and question marks -/

/-- What is left of an operator whose first character is taken. -/
def Ahead.restKind (ts : Ahead) : Option SolidKind :=
  if ts.text.tail.all (fun c => c == '?' || c == '!') then some ⟨.postfixOperator, Eq.refl true⟩
    else none

/-- What is left behind the first character of an operator is one of postfix form, whose kind is not
asked for again. -/
theorem Ahead.restKind_eq {ts : Ahead} : ∀ k ∈ ts.restKind, k.1 = .postfixOperator := by
  unfold restKind
  split
  · rintro _ ⟨⟩
    rfl
  · exact nofun

/-- A token of one character is not cut. -/
theorem Ahead.splitHead_single {head : SolidKind} {rest : Option SolidKind} {x : Lexeme} {c : Char}
    (h : x.token.text = [c]) (us : Ahead) : Ahead.splitHead head rest (x :: us) = x :: us := by
  rw [Ahead.splitHead, h]

/-- The first character of an operator is taken, as a token of another kind, where it is cut off. -/
theorem takeHead_ends {head : Kind} {hk : head.isSolid} {x : Lexeme} (built : Forest)
    (h : ts.splitHead ⟨head, hk⟩ ts.restKind = x :: us) :
    (takeHead head hk).Ends ⟨ts, built⟩ () ⟨us, .token { x.token with kind := head } :: built⟩ := by
  refine (Ends.look rfl).bind ((Ends.splitHead _ _ _).bind ?_)
  show (advanceAs head hk).Ends ⟨ts.splitHead ⟨head, hk⟩ ts.restKind, built⟩ () _
  rw [h]
  exact .take _ _

/-- An opening angle bracket is taken as one. -/
theorem takeHead_leftAngle (built : Forest) (h : Ahead.Shows (.leftAngle :: ss) ts) :
    ∃ us, Ahead.Shows ss us ∧ (takeHead .leftAngle).Ends ⟨ts, built⟩ ()
      ⟨us, WrittenType.angle .leftAngle '<' :: built⟩ := by
  obtain ⟨x, us, rfl, hx, -, hus⟩ := h.cons rfl
  have htext : x.token.text = ['<'] := hx ▸ rfl
  have hends : (takeHead .leftAngle).Ends ⟨x :: us, built⟩ () _ :=
    takeHead_ends built (Ahead.splitHead_single htext us)
  rw [hx] at hends
  exact ⟨us, hus, hends⟩

/-- A closing angle bracket is cut off and taken as one. -/
theorem takeHead_rightAngle (built : Forest) (h : Ahead.Shows (.rightAngle :: ss) ts) :
    ∃ us, Ahead.Shows ss us ∧ (takeHead .rightAngle).Ends ⟨ts, built⟩ ()
      ⟨us, WrittenType.angle .rightAngle '>' :: built⟩ := by
  obtain ⟨x, us, hcut, hx, -, hus⟩ := h.cut rfl ⟨.rightAngle, rfl⟩ _ Ahead.restKind_eq
  have hends := takeHead_ends built hcut
  rw [hx] at hends
  exact ⟨us, hus, hends⟩

/-- A suffix of the type that was read. -/
def optionalSuffix : Parser Bool := do
  match ← look Ahead.optionalSuffix? with
  | none => return false
  | some kind =>
    splitHead .postfixOperator none
    enclose kind advance kind.isConstruct
    return true

/-- A question mark is put around the type before it. -/
theorem optionalSuffix_mark {g : Green} (built : Forest) (hg : g.isNode)
    (h : Ahead.Shows (.mark :: ss) ts) (hfit : Sign.FitBefore none (.mark :: ss)) :
    ∃ us, Ahead.Shows ss us ∧ optionalSuffix.Ends ⟨ts, g :: built⟩ true
      ⟨us, .node .optionalType [g, .token Sign.mark.token] :: built⟩ := by
  obtain ⟨x, us, hcut, hx, hkind, hus⟩ := h.cut rfl ⟨.postfixOperator, rfl⟩ none nofun
  have htoken : x.token = Sign.mark.token := by
    rw [hx, hkind.elim id id]
    rfl
  refine ⟨us, hus, (Ends.look (h.optionalSuffix?_mark hfit)).bind ((Ends.splitHead _ _ _).bind ?_)⟩
  dsimp only
  rw [hcut]
  refine .bind (Ends.forestEnclose hg (.advance x us [])) ?_
  rw [htoken]
  exact .pure _ _

/-- Without a question mark there is no suffix. -/
theorem optionalSuffix_none (built : Forest) (h : Ahead.Shows ss ts)
    (hss : ∀ s ∈ ss.head?, s ≠ .mark) :
    optionalSuffix.Ends ⟨ts, built⟩ false ⟨ts, built⟩ :=
  (Ends.look (h.optionalSuffix?_eq_none hss)).bind (.pure _ _)

/-! ## Types -/

/-- Whether a type is read wherever it fits. What stands behind it can follow a type, and what is
said of the suffixes there is said of those of the type. -/
def IsRead (t : WrittenType) : Prop :=
  ∀ ⦃ss : List Sign⦄ ⦃ts : Ahead⦄ (built : Forest), Sign.FitBefore none (t.signs ++ ss) →
    ss.head?.all Sign.follows → (t.isFunction → ∀ s ∈ ss.head?, s ≠ .mark) →
    Ahead.Shows (t.signs ++ ss) ts →
    ∃ us, Ahead.Shows ss us ∧ ∀ u : State Forest, optionalSuffix.Repeats ⟨us, t.tree :: built⟩ u →
      plainTypeRule.Ends ⟨ts, built⟩ () u

/-- A type is read as such if no question mark follows. -/
theorem IsRead.type_ends (h : IsRead t) (built : Forest)
    (hfit : Sign.FitBefore none (t.signs ++ ss))
    (hss : ss.head?.all Sign.follows) (hmark : ∀ s ∈ ss.head?, s ≠ .mark)
    (hts : Ahead.Shows (t.signs ++ ss) ts) :
    ∃ us, Ahead.Shows ss us ∧ Grammar.type.Ends ⟨ts, built⟩ () ⟨us, t.tree :: built⟩ := by
  obtain ⟨us, hus, hends⟩ := h built hfit hss (fun _ => hmark) hts
  have hplain := hends _ (.stop (optionalSuffix_none _ hus hmark))
  refine ⟨us, hus, .visit (.complete ?_)⟩
  refine .bind (.visit (.complete hplain)) (.ifAhead_not ?_)
  show (us.isAt .binaryOperator && _) = false
  rw [hus.isAt_eq]
  rcases ss with _ | ⟨s, ss⟩
  · rfl
  · cases s with
    | leftAngle => cases hss
    | _ => rfl

theorem isNode_tree (t : WrittenType) : t.tree.isNode := by
  cases t <;> rfl

/-! ### Elements -/

/-- Whether a rule reads a type before a comma and before a closing sign, and adds its tree. -/
def ReadsElement (body : Parser Unit) (closing : Sign) (t : WrittenType) : Prop :=
  ∀ ⦃s : Sign⦄ ⦃ss : List Sign⦄ ⦃ts : Ahead⦄ (built : Forest), s = .comma ∨ s = closing →
    Sign.FitBefore none (t.signs ++ s :: ss) → Ahead.Shows (t.signs ++ s :: ss) ts →
    ∃ us, Ahead.Shows (s :: ss) us ∧ body.Ends ⟨ts, built⟩ () ⟨us, t.tree :: built⟩

section

variable {kind : Kind} {hk : kind.isConstruct} {ends : Ahead → Bool} {body : Parser Unit}
  {vs : Ahead}
  {built gs : Forest} {comma : Green}

/-- An element with the comma behind it. The answer says whether another one follows. -/
def listElement (kind : Kind) (ends : Ahead → Bool) (body : Parser Unit) (hk : kind.isConstruct) :
    Parser Bool := do
  let comma ← node kind (h := hk) do
    body
    eat .comma
  return comma && !(← look ends)

/-- Behind a comma another element follows. -/
theorem listElement_comma (h : body.Ends ⟨ts, ([] : Forest)⟩ () ⟨us, gs⟩)
    (hcomma : (eat .comma).Ends ⟨us, gs⟩ true ⟨vs, comma :: gs⟩) (hends : ends vs = false) :
    (listElement kind ends body hk).Ends ⟨ts, built⟩ true
      ⟨vs, .node kind (comma :: gs).reverse :: built⟩ := by
  refine .bind (.forestNode _ (h.bind hcomma) rfl) ((Ends.look hends).bind ?_)
  exact .pure _ _

/-- Without a comma the list ends. -/
theorem listElement_last (h : body.Ends ⟨ts, ([] : Forest)⟩ () ⟨us, gs⟩)
    (hcomma : (eat .comma).Ends ⟨us, gs⟩ false ⟨us, gs⟩) :
    (listElement kind ends body hk).Ends ⟨ts, built⟩ false ⟨us,
      .node kind gs.reverse :: built⟩ := by
  refine .bind (.forestNode _ (h.bind hcomma) rfl) ((Ends.look rfl).bind ?_)
  exact .pure _ _

end

/-- Elements are read one by one, with the commas between them. -/
theorem commaList_ends (kind : Kind) (hk : kind.isConstruct) {ends : Ahead → Bool}
    {body : Parser Unit}
    (closing : Sign) (hclosing : closing.token.kind ≠ .comma)
    (hends : ∀ {s ss ts}, s.starts → Ahead.Shows (s :: ss) ts → ends ts = false)
    (hbody : ∀ u ∈ t :: others, ReadsElement body closing u) (built : Forest)
    (hfit : Sign.FitBefore none
      ([.comma].intercalate (WrittenType.signsAll (t :: others)) ++ closing :: ss))
    (hts : Ahead.Shows ([.comma].intercalate (WrittenType.signsAll (t :: others)) ++ closing ::
      ss) ts) :
    ∃ us, Ahead.Shows (closing :: ss) us ∧ (commaList kind ends body hk).Ends ⟨ts, built⟩ ()
      ⟨us, (WrittenType.elements kind (WrittenType.treeAll (t :: others))).reverse ++ built⟩ := by
  suffices h : ∃ us, Ahead.Shows (closing :: ss) us ∧
      (listElement kind ends body hk).Repeats (σ := Forest) ⟨ts, built⟩
        ⟨us, (WrittenType.elements kind (WrittenType.treeAll (t :: others))).reverse ++ built⟩ by
    obtain ⟨us, hus, hends⟩ := h
    exact ⟨us, hus, .repeatWhile hends⟩
  induction others generalizing t ts built with
  | nil =>
    rw [WrittenType.signsAll, WrittenType.signsAll, List.intercalate_singleton] at hfit hts
    obtain ⟨us, hus, helement⟩ := hbody t List.mem_cons_self [] (.inr rfl) hfit hts
    exact ⟨us, hus, .stop (listElement_last helement (eat_not_sign _ hus hclosing))⟩
  | cons u others ih =>
    obtain ⟨ht, hothers⟩ := List.forall_mem_cons.mp hbody
    rw [WrittenType.signsAll, WrittenType.signsAll, List.intercalate_cons_cons, List.append_assoc,
      List.append_assoc, List.singleton_append, ← WrittenType.signsAll] at hfit hts
    obtain ⟨us, hus, helement⟩ := ht [] (.inl rfl) hfit hts
    obtain ⟨vs, hvs, hcomma⟩ := eat_sign [t.tree] hus rfl rfl
    obtain ⟨s, ss', hs, hstarts⟩ := WrittenType.exists_intercalate_eq u others
    have hmore : ends vs = false := by
      rw [hs] at hvs
      exact hends hstarts hvs
    obtain ⟨ws, hws, hrest⟩ := ih hothers (.node kind [t.tree, .token Sign.comma.token] :: built)
      (Sign.fitBefore_append.mp hfit).2.2 hvs
    rw [WrittenType.treeAll, ← WrittenType.reverse_elements_cons] at hrest
    exact ⟨ws, hws, .again (listElement_comma helement hcomma hmore) hrest⟩

/-- A type is an element of generic arguments. -/
theorem IsRead.readsElement (h : IsRead t) (closing : Sign) (hclosing : closing.follows)
    (hmark : closing ≠ .mark) : ReadsElement Grammar.type closing t := by
  intro s ss ts built hs hfit hts
  rcases hs with rfl | rfl
  · exact h.type_ends built hfit rfl (by rintro _ ⟨⟩ ⟨⟩) hts
  · exact h.type_ends built hfit hclosing (by rintro _ ⟨⟩; exact hmark) hts

/-! ### Named types -/

/-- Signs that fit each other meet as they should. -/
theorem meets_head? (h : Sign.FitBefore none (s :: ss)) : s.meets ss.head? := by
  have hmeets := h.1
  rw [Option.or_none] at hmeets
  exact hmeets

/-- What starts with a name is a named type. -/
theorem plainTypeRule_named {n : Name} {behind : List Sign} {built : Forest} {g : Green}
    {u : State Forest} (hts : Ahead.Shows (.word n :: behind) ts)
    (hmeets : (Sign.word n).meets behind.head?)
    (hnamed : namedType.Ends ⟨ts, built⟩ () ⟨us, g :: built⟩) (hus : Ahead.Shows ss us)
    (hss : ss.head?.all Sign.follows) (hu : optionalSuffix.Repeats ⟨us, g :: built⟩ u) :
    plainTypeRule.Ends ⟨ts, built⟩ () u := by
  refine .branch_not ?_ (.branch_not ?_ (.branch ?_ (hnamed.bind (.bind (.whileAhead_not ?_) ?_))))
  · show (ts.isAt .atSign || ts.isAt .inoutKw) = false
    rw [hts.isAt_eq, hts.isAt_eq]
    rfl
  · -- `some` and `any` would have to stand before a type
    obtain ⟨x, vs, rfl, -, -, hvs⟩ := hts.cons rfl
    show ((_ || _) && Ahead.isIn Ahead.typeFirst vs && _) = false
    rw [Ahead.isIn, hvs.kind_eq]
    have hfirst : Ahead.typeFirst.contains (Sign.kindOf behind.head?) = false := by
      rcases behind with _ | ⟨s, behind⟩
      · rfl
      · cases s with
        | word | leftParen | leftBracket | arrow => cases hmeets
        | _ => simp [Ahead.typeFirst, Sign.kindOf, Sign.token]
    rw [hfirst, Bool.and_false, Bool.false_and]
  · show (ts.isAt .identifier || ts.isAt .capitalSelfKw) = true
    rw [hts.isAt_eq]
    rfl
  · show (us.isAt .period && _) = false
    rw [hus.isAt_eq]
    rcases ss with _ | ⟨s, ss⟩
    · rfl
    · cases s <;> rfl
  · exact .repeatWhile hu

/-- A name is read with its suffixes. No angle bracket and no member is attached to it. -/
theorem isRead_name (n : Name) : IsRead (.name n) := by
  intro ss ts built hfit hss _ hts
  obtain ⟨us, hus, hadvance⟩ := advance_sign [] hts rfl
  refine ⟨us, hus, fun u hu => plainTypeRule_named hts (meets_head? hfit) ?_ hus hss hu⟩
  refine .forestNode [.token (Sign.word n).token] (hadvance.bind ?_) rfl
  exact .ifAhead_not (hus.not_isAdjacentAngle hss)

/-- Generic arguments are read as they are written. -/
theorem genericArgumentClause_ends (ht : IsRead t) (hothers : ∀ u ∈ others, IsRead u)
    (built : Forest)
    (hfit : Sign.FitBefore none
      ([.comma].intercalate (WrittenType.signsAll (t :: others)) ++ .rightAngle :: ss))
    (hts : Ahead.Shows
      (.leftAngle :: ([.comma].intercalate (WrittenType.signsAll (t :: others)) ++ .rightAngle ::
        ss)) ts) :
    ∃ us, Ahead.Shows ss us ∧ genericArgumentClause.Ends ⟨ts, built⟩ ()
      ⟨us, .node .genericArgumentClause (WrittenType.angle .leftAngle '<' ::
        (WrittenType.elements .genericArgument (WrittenType.treeAll (t :: others))
          ++ [WrittenType.angle .rightAngle '>'])) :: built⟩ := by
  have helements : ∀ u ∈ t :: others, ReadsElement Grammar.type .rightAngle u :=
    List.forall_mem_cons.mpr
      ⟨ht.readsElement _ rfl nofun, fun u hu => (hothers u hu).readsElement _ rfl nofun⟩
  obtain ⟨us, hus, hopen⟩ := takeHead_leftAngle [] hts
  obtain ⟨vs, hvs, hlist⟩ := commaList_ends .genericArgument rfl .rightAngle nofun (fun _ _ => rfl)
    helements _ hfit hus
  obtain ⟨ws, hws, hclose⟩ := takeHead_rightAngle _ hvs
  refine ⟨ws, hws, .forestNode _ (hopen.bind (hlist.bind (.branch ?_ hclose))) ?_⟩
  · rw [hvs.isOperatorFrom_eq]
    rfl
  · simp

/-- A generic type is read: its name, and its arguments between angle brackets, the first of which
touches the name. -/
theorem isRead_generic {n : Name} (ht : IsRead t) (hothers : ∀ u ∈ others, IsRead u) :
    IsRead (.generic n t others) := by
  intro ss ts built hfit hss _ hts
  have hsigns : (WrittenType.generic n t others).signs ++ ss = .word n :: .leftAngle ::
      ([.comma].intercalate (WrittenType.signsAll (t :: others)) ++ .rightAngle :: ss) := by
    simp [WrittenType.signs, WrittenType.signsAll]
  rw [hsigns] at hfit hts
  obtain ⟨us, hus, hadvance⟩ := advance_sign [] hts rfl
  obtain ⟨vs, hvs, hargs⟩ := genericArgumentClause_ends ht hothers _ hfit.2.2 hus
  refine ⟨vs, hvs, fun u hu => plainTypeRule_named hts (meets_head? hfit) ?_ hvs hss hu⟩
  refine .forestNode _ (hadvance.bind (.ifAhead hus.isAdjacentAngle hargs)) ?_
  simp [WrittenType.tree, WrittenType.treeAll]

/-! ### Collections -/

/-- What starts with an opening bracket is a collection. -/
theorem plainTypeRule_leftBracket {behind : List Sign} {built : Forest} {g : Green}
    {u : State Forest}
    (hts : Ahead.Shows (.leftBracket :: behind) ts)
    (hcollection : collectionType.Ends ⟨ts, built⟩ () ⟨us, g :: built⟩)
    (hu : optionalSuffix.Repeats ⟨us, g :: built⟩ u) : plainTypeRule.Ends ⟨ts, built⟩ () u := by
  obtain ⟨x, vs, rfl, hx, -⟩ := hts.exists_cons
  refine .branch_not ?_
    (.branch_not ?_ (.branch_not ?_ (.branch ?_ (hcollection.bind (.repeatWhile hu)))))
  · simp [Ahead.isAt, Ahead.kind, hx, Sign.token]
  · simp [Ahead.isSomeOrAny, Ahead.isWord, Ahead.isAt, Ahead.kind, hx, Sign.token]
  · simp [Ahead.isAt, Ahead.kind, hx, Sign.token]
  · simp [Ahead.isAt, Ahead.kind, hx, Sign.token]

/-- An array is read: brackets with one type. -/
theorem isRead_array (ht : IsRead t) : IsRead (.array t) := by
  intro ss ts built hfit hss _ hts
  rw [WrittenType.signs, List.cons_append, List.append_assoc, List.singleton_append] at hfit hts
  obtain ⟨us, hus, hadvance⟩ := advance_sign [] hts rfl
  obtain ⟨vs, hvs, htype⟩ := ht.type_ends _ hfit.2 rfl (by rintro _ ⟨⟩ ⟨⟩) hus
  have hcolon := eat_not_sign (k := .colon) (t.tree :: [.token Sign.leftBracket.token]) hvs
    fun h => by cases h
  obtain ⟨ws, hws, hclose⟩ := require_sign _ hvs rfl rfl
  refine ⟨ws, hws, fun u hu => plainTypeRule_leftBracket hts ?_ hu⟩
  exact .forestNodeBy ⟨.arrayType, rfl⟩ _ (hadvance.bind (htype.bind (hcolon.bind
    (.bind (.pure _ _) (.bind (skipToCloser_ends _ hvs rfl) (hclose.bind (.pure _ _))))))) rfl

/-- A dictionary is read: brackets with two types, and a colon between them. -/
theorem isRead_dictionary {k v : WrittenType} (hk : IsRead k) (hv : IsRead v) :
    IsRead (.dictionary k v) := by
  intro ss ts built hfit hss _ hts
  rw [WrittenType.signs, List.cons_append, List.append_assoc, List.cons_append, List.append_assoc,
    List.singleton_append] at hfit hts
  obtain ⟨us, hus, hadvance⟩ := advance_sign [] hts rfl
  obtain ⟨vs, hvs, hkey⟩ := hk.type_ends _ hfit.2 rfl (by rintro _ ⟨⟩ ⟨⟩) hus
  obtain ⟨vs', hvs', hcolon⟩ := eat_sign (k := .colon) _ hvs rfl rfl
  obtain ⟨ws, hws, hvalue⟩ := hv.type_ends _ (Sign.fitBefore_append.mp hfit.2).2.2 rfl
    (by rintro _ ⟨⟩ ⟨⟩) hvs'
  obtain ⟨ws', hws', hclose⟩ := require_sign _ hws rfl rfl
  refine ⟨ws', hws', fun u hu => plainTypeRule_leftBracket hts ?_ hu⟩
  exact .forestNodeBy ⟨.dictionaryType, rfl⟩ _ (hadvance.bind (hkey.bind (hcolon.bind
    (hvalue.bind (.bind (skipToCloser_ends _ hws rfl) (hclose.bind (.pure _ _))))))) rfl

/-! ### Tuples and functions -/

/-- Behind the name that a type starts with stands an angle bracket or a question mark, if anything
of the type does. -/
theorem head?_of_word {n : Name} {behind : List Sign} (h : t.signs = .word n :: behind) :
    ∀ s ∈ behind.head?, s = .leftAngle ∨ s = .mark := by
  induction t using WrittenType.induct generalizing behind with
  | name m =>
    obtain ⟨-, rfl⟩ := List.cons.inj h
    exact nofun
  | generic m t ts =>
    obtain ⟨-, rfl⟩ := List.cons.inj h
    rintro _ ⟨⟩
    exact .inl rfl
  | optional t ih =>
    rw [WrittenType.signs] at h
    split at h
    · cases (List.cons.inj h).1
    · obtain ⟨s, ss, ht, -⟩ := t.exists_signs_eq
      rw [ht, List.cons_append] at h
      obtain ⟨rfl, rfl⟩ := List.cons.inj h
      cases ss with
      | nil =>
        rintro _ ⟨⟩
        exact .inr rfl
      | cons s' ss => exact fun u hu => ih ht u hu
  | _ => cases (List.cons.inj h).1

/-- Before an element of a tuple stands no label. -/
theorem tupleTypeLabels_ends {spaced : Bool} (built : Forest)
    (hs : s = .comma ∨ s = .rightParen spaced)
    (hts : Ahead.Shows (t.signs ++ s :: ss) ts) :
    tupleTypeLabels.Ends ⟨ts, built⟩ () ⟨ts, built⟩ := by
  obtain ⟨r, rs, hr, hstarts⟩ := t.exists_signs_eq
  rw [hr, List.cons_append] at hts
  have hnot : ts.isLabel = false ∧ (ts.isName && Ahead.isLabel ts.tail) = false := by
    cases r with
    | word n =>
      obtain ⟨x, vs, rfl, -, -, hvs⟩ := hts.cons rfl
      have hhead : ∀ u ∈ (rs ++ s :: ss).head?,
          u = .leftAngle ∨ u = .mark ∨ u = .comma ∨ u = .rightParen spaced := by
        intro u hu
        cases rs with
        | nil =>
          obtain rfl := Option.some.inj hu
          exact .inr (.inr hs)
        | cons r rs => exact (head?_of_word hr u hu).imp id .inl
      have hcolon : Ahead.isAt .colon vs = false := by
        rw [hvs.isAt_eq]
        rcases hu : (rs ++ s :: ss).head? with _ | u
        · rfl
        · rcases hhead u hu with rfl | rfl | rfl | rfl <;> rfl
      have hname : Ahead.isName vs = false :=
        hvs.not_isName fun m hm => by rcases hhead _ hm with h | h | h | h <;> cases h
      simp [Ahead.isLabel, hcolon, hname]
    | leftParen | leftBracket =>
      have hname : ts.isName = false := hts.not_isName fun _ h => by cases h
      simp [Ahead.isLabel, hname]
    | _ => cases hstarts
  exact .branch_not hnot.1 (.ifAhead_not hnot.2)

/-- The element of a tuple type. -/
def tupleTypeElement : Parser Unit := do
  tupleTypeLabels
  Grammar.type
  ifAhead (Ahead.isOperator "...") advance

/-- A type is read as an element of a tuple. No label stands before it. -/
theorem IsRead.readsTupleElement (h : IsRead t) (spaced : Bool) :
    ReadsElement tupleTypeElement (.rightParen spaced) t := by
  intro s ss ts built hs hfit hts
  have hlabels := tupleTypeLabels_ends built hs hts
  obtain ⟨us, hus, htype⟩ := h.readsElement (.rightParen spaced) rfl nofun built hs hfit hts
  refine ⟨us, hus, hlabels.bind (htype.bind (.ifAhead_not ?_))⟩
  show (us.kind.isOperator && _) = false
  rw [hus.kind_eq]
  rcases hs with rfl | rfl <;> rfl

/-- The elements of a tuple type are read as they are written. -/
theorem tupleTypeElements_ends {ts : List WrittenType} {us : Ahead} {spaced : Bool}
    (hts : ∀ t ∈ ts, IsRead t) (built : Forest)
    (hfit : Sign.FitBefore none
      ([.comma].intercalate (WrittenType.signsAll ts) ++ .rightParen spaced :: ss))
    (hus : Ahead.Shows ([.comma].intercalate (WrittenType.signsAll ts) ++ .rightParen spaced ::
      ss) us) :
    ∃ vs, Ahead.Shows (.rightParen spaced :: ss) vs ∧
    (unlessAt .rightParen (commaList .tupleTypeElement
        (fun ts => ts.isAt .rightParen || ts.isAt .endOfFile) tupleTypeElement)).Ends ⟨us, built⟩ ()
      ⟨vs, (WrittenType.elements .tupleTypeElement (WrittenType.treeAll ts)).reverse ++ built⟩ := by
  have hstart {s ss us} (hs : s.starts) (hus : Ahead.Shows (s :: ss) us) :
      us.isAt .rightParen = false ∧ us.isAt .endOfFile = false := by
    rw [hus.isAt_eq, hus.isAt_eq]
    cases s with
    | word | leftParen | leftBracket => exact ⟨rfl, rfl⟩
    | _ => cases hs
  cases ts with
  | nil =>
    refine ⟨us, hus, .ifAhead_not ?_⟩
    show (!us.isAt .rightParen) = false
    rw [hus.isAt_eq]
    rfl
  | cons t ts =>
    obtain ⟨vs, hvs, hends⟩ := commaList_ends .tupleTypeElement rfl (.rightParen spaced) nofun
      (fun hs hus => Bool.or_eq_false_iff.mpr (hstart hs hus))
      (fun u hu => (hts u hu).readsTupleElement spaced) built hfit hus
    obtain ⟨s, ss', hs, hstarts⟩ := WrittenType.exists_intercalate_eq t ts
    rw [hs] at hus
    refine ⟨vs, hvs, .ifAhead ?_ hends⟩
    rw [(hstart hstarts hus).1]
    rfl

/-- What starts with an opening parenthesis is a tuple or a function. -/
theorem plainTypeRule_leftParen {behind : List Sign} {built : Forest} {g : Green} {u : State Forest}
    (hts : Ahead.Shows (.leftParen :: behind) ts)
    (hinside : tupleOrFunctionType.Ends ⟨ts, built⟩ () ⟨us, g :: built⟩)
    (hu : optionalSuffix.Repeats ⟨us, g :: built⟩ u) : plainTypeRule.Ends ⟨ts, built⟩ () u := by
  obtain ⟨x, vs, rfl, hx, -⟩ := hts.exists_cons
  refine .branch_not ?_ (.branch_not ?_ (.branch_not ?_ (.branch_not ?_ (.branch ?_
    (hinside.bind (.repeatWhile hu))))))
  · simp [Ahead.isAt, Ahead.kind, hx, Sign.token]
  · simp [Ahead.isSomeOrAny, Ahead.isWord, Ahead.isAt, Ahead.kind, hx, Sign.token]
  · simp [Ahead.isAt, Ahead.kind, hx, Sign.token]
  · simp [Ahead.isAt, Ahead.kind, hx, Sign.token]
  · simp [Ahead.isAt, Ahead.kind, hx, Sign.token]

/-- Parentheses around types are a tuple where no arrow follows. -/
theorem tupleType_ends {ts : List WrittenType} {us : Ahead} (hts : ∀ t ∈ ts, IsRead t)
    (built : Forest)
    (hfit : Sign.FitBefore none
      ([.comma].intercalate (WrittenType.signsAll ts) ++ .rightParen false :: ss))
    (hss : ss.head?.all Sign.follows)
    (hus : Ahead.Shows
      (.leftParen :: ([.comma].intercalate (WrittenType.signsAll ts) ++ .rightParen false :: ss))
        us) :
    ∃ vs, Ahead.Shows ss vs ∧ tupleOrFunctionType.Ends ⟨us, built⟩ ()
      ⟨vs, WrittenType.tupleTree (WrittenType.treeAll ts) :: built⟩ := by
  obtain ⟨us₁, hus₁, hopen⟩ := advance_sign [] hus rfl
  obtain ⟨us₂, hus₂, helements⟩ := tupleTypeElements_ends hts _ hfit hus₁
  obtain ⟨vs, hvs, hclose⟩ := require_sign _ hus₂ rfl rfl
  refine ⟨vs, hvs, .forestNodeBy ⟨.tupleType, rfl⟩ _ (hopen.bind (helements.bind
    ((skipToCloser_ends _ hus₂ rfl).bind
      (hclose.bind (.branch_not (hvs.not_arrow hss) (.pure _ _)))))) ?_⟩
  simp [WrittenType.tupleTree]

/-- A tuple is read: parentheses with types, and no arrow behind. -/
theorem isRead_tuple {ts : List WrittenType} (h : ∀ t ∈ ts, IsRead t) : IsRead (.tuple ts) := by
  intro ss us built hfit hss _ hus
  rw [WrittenType.signs, List.cons_append, List.append_assoc, List.singleton_append] at hfit hus
  obtain ⟨vs, hvs, hends⟩ := tupleType_ends h built hfit.2 hss hus
  exact ⟨vs, hvs, fun u hu => plainTypeRule_leftParen hus hends hu⟩

/-- A function is read: parentheses with types, and an arrow with the result behind. -/
theorem isRead_function {ts : List WrittenType} {r : WrittenType} (hts : ∀ t ∈ ts, IsRead t)
    (hr : IsRead r) : IsRead (.function ts r) := by
  intro ss us built hfit hss hmark hus
  rw [WrittenType.signs, List.cons_append, List.append_assoc, List.cons_append, List.cons_append]
    at hfit hus
  obtain ⟨us₁, hus₁, hopen⟩ := advance_sign [] hus rfl
  obtain ⟨us₂, hus₂, helements⟩ := tupleTypeElements_ends hts _ hfit.2 hus₁
  obtain ⟨us₃, hus₃, hclose⟩ := require_sign _ hus₂ rfl rfl
  obtain ⟨us₄, hus₄, harrow⟩ := require_sign _ hus₃ rfl rfl
  obtain ⟨vs, hvs, hresult⟩ :=
    hr.type_ends _ (Sign.fitBefore_append.mp hfit.2).2.2.2 hss (hmark rfl) hus₄
  refine ⟨vs, hvs, fun u hu => plainTypeRule_leftParen hus ?_ hu⟩
  have hbehind : (us₃.isEffect || us₃.isAt .arrow) = true ∧ us₃.isEffect = false := by
    unfold Ahead.isEffect Ahead.isWord
    rw [hus₃.isAt_eq, hus₃.isAt_eq, hus₃.isAt_eq, hus₃.isAt_eq]
    exact ⟨rfl, rfl⟩
  refine .forestNodeBy ⟨.functionType, rfl⟩ _ (hopen.bind (helements.bind
    ((skipToCloser_ends _ hus₂ rfl).bind (hclose.bind (.branch hbehind.1
      (.bind (.ifAhead_not hbehind.2) (harrow.bind (hresult.bind (.pure _ _))))))))) ?_
  simp [WrittenType.tree]

/-! ### Optionals -/

/-- What is said of the suffixes behind a question mark is said of those of the type before it. -/
theorem optionalSuffix_again {g : Green} {built : Forest} (hg : g.isNode)
    (h : Ahead.Shows (.mark :: ss) ts)
    (hfit : Sign.FitBefore none (.mark :: ss)) :
    ∃ us, Ahead.Shows ss us ∧ ∀ u : State Forest,
      optionalSuffix.Repeats ⟨us, .node .optionalType [g, .token Sign.mark.token] :: built⟩ u →
        optionalSuffix.Repeats ⟨ts, g :: built⟩ u := by
  obtain ⟨us, hus, hmark⟩ := optionalSuffix_mark built hg h hfit
  exact ⟨us, hus, fun u hu => .again hmark hu⟩

/-- An optional is read: the type, and one round more of the loop over suffixes. -/
theorem isRead_optional (ht : IsRead t) : IsRead (.optional t) := by
  intro ss ts built hfit hss _ hts
  rw [WrittenType.signs, List.append_assoc, List.singleton_append] at hfit hts
  rw [WrittenType.tree]
  cases hfunction : t.isFunction with
  | false =>
    rw [hfunction, if_neg Bool.false_ne_true] at hfit hts
    rw [if_neg Bool.false_ne_true]
    obtain ⟨us, hus, hends⟩ := ht built hfit rfl (fun h => absurd h (by simp [hfunction])) hts
    obtain ⟨vs, hvs, hmark⟩ :=
      optionalSuffix_again (isNode_tree t) hus (Sign.fitBefore_append.mp hfit).2
    exact ⟨vs, hvs, fun u hu => hends u (hmark u hu)⟩
  | true =>
    rw [hfunction, if_pos rfl, List.cons_append, List.append_assoc,
      List.singleton_append] at hfit hts
    rw [if_pos rfl]
    have hall : ∀ u ∈ [t], IsRead u := List.forall_mem_singleton.mpr ht
    have hsigns : [.comma].intercalate (WrittenType.signsAll [t]) = t.signs :=
      List.intercalate_singleton
    rw [← hsigns] at hfit hts
    obtain ⟨us, hus, hends⟩ := tupleType_ends hall built hfit.2 rfl hts
    obtain ⟨vs, hvs, hmark⟩ :=
      optionalSuffix_again (isNode_tree (.tuple [t])) hus (Sign.fitBefore_append.mp hfit.2).2.2
    exact ⟨vs, hvs, fun u hu => plainTypeRule_leftParen hts hends (hmark u hu)⟩

/-- **Every type is read wherever it fits.** By induction on the type, with one lemma for each
form. -/
theorem isRead (t : WrittenType) : IsRead t := by
  induction t using WrittenType.induct with
  | name n => exact isRead_name n
  | generic n t ts iht ihts => exact isRead_generic iht ihts
  | optional t ih => exact isRead_optional ih
  | array t ih => exact isRead_array ih
  | dictionary k v ihk ihv => exact isRead_dictionary ihk ihv
  | tuple ts ih => exact isRead_tuple ih
  | function ts r ihts ihr => exact isRead_function ihts ihr

end SwiftTree.Grammar
