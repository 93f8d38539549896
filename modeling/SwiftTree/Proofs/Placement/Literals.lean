import SwiftTree.Proofs.Placement.Rules

/-!
# What the rule of string literals sees

The rule finds the parts of a literal by their kinds. A closing quote and an interpolation have to
go on with the line; where the rule makes up a quote or a delimiter, none came next.
-/

namespace SwiftTree

open Grammar

open Green (Placed Quoted Interpolated sightOf)

namespace Green

variable {cs : List Green} {next : Outlook}

theorem placed_stringLiteral (h : Quoted cs next) : Placed .stringLiteralExpr cs next :=
  ⟨nofun, nofun, nofun, nofun, fun _ => h, nofun, listed_of_not rfl rfl _ _⟩

theorem placed_expressionSegment (h : Interpolated cs next) : Placed .expressionSegment cs next :=
  ⟨nofun, nofun, nofun, nofun, nofun, fun _ => h, listed_of_not rfl rfl _ _⟩

end Green

namespace Grammar

open Grammar.Parser

variable {test : Ahead → Prop} {mode : Mode}

/-! ## Interpolations and segments -/

/-- A token that goes on with the line has no line break before it. -/
theorem Ahead.Led.not_containsNewline {x : Lexeme} {ts : Ahead} (h : Ahead.Led (x :: ts))
    (hline : Ahead.atLineStart (x :: ts) = false) :
    x.token.outline.leading.containsNewline = false := by
  have hnewline := isOnLine_of_led h (List.cons_ne_nil _ _) hline
  rwa [sight, Token.Outline.isOnLine_sight sight_ne_end, Bool.not_eq_true'] at hnewline

theorem interpolation_calm (h : ∀ ts, test ts →
    ts.Led ∧ ts.isAt .backslash ∧ ts.atLineStart = false) : interpolation.Calm test := by
  have hargs : (argumentList .rightParen .empty .plain).Calm fun _ => True := argumentList_calm rfl
  intro s hs _
  obtain ⟨hled, hat, hline⟩ := h _ hs
  obtain ⟨x, ts, hahead, -⟩ := Ahead.exists_of_heads (Ahead.heads_of_isAt (by decide) hat)
  have hnewline : x.token.outline.leading.containsNewline = false := by
    rw [hahead] at hled hline
    exact hled.not_containsNewline hline
  refine meets_node ?_
  rw [meets_bind]
  show (require .leftParen >>= fun _ => argumentList .rightParen .empty .plain >>= fun _ =>
    require .rightParen).meets placing (s.enter.2.take none) _
  rw [show s.enter.2.take none = (⟨ts, [.token x.token]⟩ : State Forest) by
    rw [State.take, show s.enter.2.ahead = x :: ts from hahead]; rfl]
  rw [meets_bind]
  refine meets_require fun paren us _ _ hparen => ?_
  rw [meets_bind]
  refine meets_mono (meets_around (hargs _ trivial (.any _))) ?_
  rintro _ ⟨vs, _⟩ ⟨-, cs, rfl, hcs⟩
  refine meets_require fun closer ws _ hcloser _ _ => ?_
  refine ⟨Green.placed_expressionSegment ⟨x.token.outline, paren,
    [.node .argumentList cs, .leaf closer], rfl, hnewline, fun hmissing => ?_⟩, trivial, .any _⟩
  have hnone : Ahead.isAt .leftParen us = false := by
    obtain ⟨rfl, hnone⟩ := hparen hmissing
    exact hnone
  rw [Green.sightOf_cons, Green.sightOf_node, hcloser, hcs, Ahead.isAt_sight rfl (by decide)]
  exact hnone

/-- Segments are read up to where none goes on. -/
theorem stringSegments_meets (s : State Forest) :
    stringSegments.meets placing s fun _ t => ∃ cs,
      t.built = .node .stringSegmentList cs :: s.built ∧
        sightOf cs t.ahead.sight = s.ahead.sight ∧ t.ahead.isAt .stringSegment = false ∧
          (t.ahead.isAt .backslash && !t.ahead.atLineStart) = false := by
  refine meets_node (meets_repeatWhile (fun _ => True) trivial fun t _ => ?_)
  have hinterpolation : interpolation.Calm fun ts =>
      ts.Led ∧ (ts.isAt .backslash && !ts.atLineStart) = true := by
    refine interpolation_calm fun ts hts => ?_
    rw [Bool.and_eq_true, Bool.not_eq_true'] at hts
    exact hts
  refine meets_branch (fun _ _ => trivial) fun _ hsegment => ?_
  refine meets_branch (fun hled hat => ?_) fun _ hbackslash haround => ?_
  · rw [meets_bind]
    exact meets_mono (hinterpolation t ⟨hled, hat⟩ (.any _)) fun _ _ _ => trivial
  · exact ⟨Green.placed_of_isOrdinary rfl _ _, _, rfl, haround.sight, hsegment, hbackslash⟩

/-! ## Literals -/

theorem Ahead.not_isStringQuote_of_quote? {ts : Ahead} (h : ts.quote? = none) :
    ts.kind.isStringQuote = false := by
  unfold quote? at h
  unfold Kind.isStringQuote
  split at h <;> simp_all

/-- The opening quote is taken, or it is missing. -/
theorem openingQuote_meets {s : State Forest} {post : SolidKind → State Forest → Prop}
    (h : ∀ (quote : SolidKind) l ts, quote.1.isStringQuote → l.kind = quote.1 →
      (l.isPresent = false → ts = s.ahead ∧ s.ahead.kind.isStringQuote = false) →
      post quote ⟨ts, .leaf l :: s.built⟩) : openingQuote.meets placing s post := by
  intro _
  cases hquote : s.ahead.quote? with
  | none =>
    refine h ⟨.stringQuote, rfl⟩ (.missing .stringQuote _) s.ahead rfl rfl fun _ => ⟨rfl, ?_⟩
    exact Ahead.not_isStringQuote_of_quote? hquote
  | some quote =>
    obtain ⟨hkind, hisQuote⟩ := Ahead.isStringQuote_of_quote? hquote
    obtain ⟨_ | ⟨x, ts⟩, built⟩ := s
    · exact absurd hkind.symm (Kind.ne_endOfFile_of_isSolid quote.2)
    · exact h quote (.present x.token.outline) ts hisQuote hkind nofun

/-- The closing quote goes on with the line, and the delimiter behind it is taken. Where the quote
is missing, it does not come on this line. -/
theorem closingQuote_meets {pounds : Nat} {quote : SolidKind} {s : State Forest}
    {post : Unit → State Forest → Prop}
    (h : ∀ (closing : Green.Leaf) (back : List Green) (ts : Ahead), closing.kind = quote.1 →
      sightOf (.leaf closing :: back) ts.sight = s.ahead.sight →
      (∀ t : Token.Outline, closing = .present t → t.leading.containsNewline = false ∧
        ∀ l : Green.Leaf, .leaf l ∈ back → l.isPresent = false →
          ts.isAt .rawStringDelimiter = false) →
      (closing.isPresent = false → ts = s.ahead ∧
        (s.ahead.isAt quote && !s.ahead.atLineStart) = false) →
      post () ⟨ts, back.reverse ++ .leaf closing :: s.built⟩) :
    (closingQuote pounds quote).meets placing s post := by
  refine meets_branch (fun hled hat => ?_) fun _ hat => ?_
  · rw [Bool.and_eq_true, Bool.not_eq_true'] at hat
    obtain ⟨_ | ⟨x, ts⟩, built⟩ := s
    · exact absurd (beq_iff_eq.mp hat.1).symm (Kind.ne_endOfFile_of_isSolid quote.2)
    have hnewline := hled.not_containsNewline hat.2
    have hkind : x.token.outline.kind = quote.1 := beq_iff_eq.mp hat.1
    cases pounds with
    | zero =>
      refine h (.present x.token.outline) [] ts hkind rfl ?_ nofun
      rintro _ ⟨⟩
      exact ⟨hnewline, nofun⟩
    | succ n =>
      refine meets_require fun l us _ _ hl => ?_
      refine h (.present x.token.outline) [.leaf l] us hkind rfl ?_ nofun
      rintro _ ⟨⟩
      refine ⟨hnewline, fun l' hl' habsent => ?_⟩
      obtain rfl := Green.leaf.inj (List.mem_singleton.mp hl')
      obtain ⟨rfl, hnone⟩ := hl habsent
      exact hnone
  · cases pounds with
    | zero => exact h (.missing quote _) [] s.ahead rfl rfl nofun fun _ => ⟨rfl, hat⟩
    | succ n =>
      exact h (.missing quote _) [.missing .rawStringDelimiter _] s.ahead rfl rfl nofun
        fun _ => ⟨rfl, hat⟩

/-- A quote is seen just where one comes next. -/
theorem Ahead.isAt_sight_of_isStringQuote {k : Kind} (h : k.isStringQuote) (ts : Ahead) :
    ts.sight.isAt k = ts.isAt k := by
  unfold Kind.isStringQuote at h
  split at h
  case h_4 => cases h
  all_goals exact isAt_sight rfl (by decide) ts

/-- Behind the delimiter in front, the parts of a literal are as they were seen. -/
theorem quoted_meets {pounds : Nat} (front : List Green) {ts : Ahead}
    (hfront : ts.kind.isStringQuote = false → Green.hasPresentOf front) :
    (openingQuote >>= fun quote => stringSegments >>= fun _ => closingQuote pounds quote).meets
      placing ⟨ts, front.reverse⟩ fun _ t =>
        (Green.hasPresentOf t.built → t.ahead.Tells) → Quoted t.built.reverse t.ahead.sight := by
  rw [meets_bind]
  refine openingQuote_meets fun quote opening us hquote hopening hmissing => ?_
  rw [meets_bind]
  refine meets_mono (stringSegments_meets _) ?_
  rintro _ ⟨vs, _⟩ ⟨segments, rfl, hsegments, hsegment, hbackslash⟩
  refine closingQuote_meets fun closing back ws hclosing hsight hpresent hunclosed hbehind => ?_
  -- a literal has its delimiter or its quote
  have hstarted : Green.hasPresentOf front ∨ opening.isPresent := by
    cases hopen : opening.isPresent with
    | true => exact .inr rfl
    | false => exact .inl (hfront (hmissing hopen).2)
  have htells : ws.Tells := hbehind <| by
    simp only [Green.hasPresentOf_append, Green.hasPresentOf_reverse, Green.hasPresentOf,
      Green.hasPresent, Bool.or_eq_true]
    exact .inr (.inr (.inr hstarted.symm))
  refine ⟨front, opening, segments, closing, back, by simp, fun habsent => ⟨?_, fun k hk => ?_⟩,
    fun t ht => ?_, fun habsent => ?_⟩
  · rintro rfl
    rw [habsent] at hstarted
    exact hstarted.elim Bool.false_ne_true Bool.false_ne_true
  · obtain ⟨rfl, hnone⟩ := hmissing habsent
    rw [Green.sightOf_cons, Green.sightOf_node, hsight, hsegments,
      Ahead.isAt_sight_of_isStringQuote hk]
    refine beq_false_of_ne ?_
    rintro rfl
    exact Bool.false_ne_true (hnone.symm.trans hk)
  · refine ⟨(hpresent t ht).1, fun l hl habsent => ?_⟩
    rw [Ahead.isAt_sight rfl (by decide)]
    exact (hpresent t ht).2 l hl habsent
  · obtain ⟨rfl, hquoteless⟩ := hunclosed habsent
    refine ⟨?_, fun hline => ?_⟩
    · rw [Ahead.isAt_sight rfl (by decide)]
      exact hsegment
    · have hstart : Ahead.atLineStart ws = false := by
        refine Bool.eq_false_iff.mpr fun hstart => ?_
        exact Bool.false_ne_true ((Ahead.not_isOnLine_of_tells htells hstart).symm.trans hline)
      have hquote : closing.kind.isStringQuote := hclosing ▸ hquote
      rw [hstart, Bool.not_false, Bool.and_true] at hbackslash hquoteless
      rw [Ahead.isAt_sight rfl (by decide), Ahead.isAt_sight_of_isStringQuote hquote, hclosing]
      exact ⟨hbackslash, hquoteless⟩

/-- A literal starts with a delimiter or a quote. -/
theorem stringLiteral_calm
    (h : ∀ ts, test ts → ts.isAt .rawStringDelimiter ∨ ts.kind.isStringQuote) :
    stringLiteral.Calm test := by
  intro s hs _
  have hclose {p : Parser Unit} {u : State Forest} (hp : p.meets placing u fun _ t =>
      (Green.hasPresentOf t.built → t.ahead.Tells) → Quoted t.built.reverse t.ahead.sight) :
      p.meets placing u fun _ t => s.Around t →
        Placed .stringLiteralExpr t.built.reverse t.ahead.sight ∧ True ∧ Holding (fun _ => True)
          (.node .stringLiteralExpr t.built.reverse :: s.built) :=
    meets_mono hp fun _ t ht haround =>
      ⟨Green.placed_stringLiteral (ht haround.tells), trivial, .any _⟩
  refine meets_node (meets_look fun _ => ?_)
  rw [meets_bind]
  refine meets_branch (fun _ hat => ?_) fun _ hat => ?_
  · obtain ⟨_ | ⟨x, ts⟩, built⟩ := s
    · cases hat
    · exact hclose (quoted_meets [.token x.token] fun _ => rfl)
  · refine hclose (quoted_meets [] fun hnone => ?_)
    have hquote := (h _ hs).resolve_left (Bool.eq_false_iff.mp hat)
    exact absurd hquote (Bool.eq_false_iff.mp hnone)

end Grammar

end SwiftTree
