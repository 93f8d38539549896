import SwiftTree.Token.Tokenizer

/-!
# A tokenizer loses nothing

What holds of a tokenizer at every step (`Tokenizer.Intact`): its tokens, the trivia it keeps and
the rest make up its text, its tokens are written out, and it knows where the literals that it is in
the middle of were opened. The last part is what a collapse rests on, for it goes back in the text
by what the tokens before the outermost opening cover.

One step keeps this (`Tokenizer.Intact.step`), and so does a whole run (`Tokenizer.Intact.run`).
-/

namespace SwiftTree

open Text

namespace Tokenizer

/-- Whether a token can open a literal. -/
def Opens (t : Token) : Prop := ∃ c cs, t.text = c :: cs ∧ isBlank c = false

/-- The text that the tokens, the trivia that is kept and the rest make up. -/
def covered (s : Tokenizer) : Text :=
  Token.fullText s.tokens.reverse ++ (s.leading.text ++ s.rest)

/-- What holds of a tokenizer at every step. -/
structure Intact (s : Tokenizer) : Prop where
  /-- nothing is lost -/
  tiles : s.covered = s.text
  /-- every token is written out -/
  solid : ∀ t ∈ s.tokens, t.IsSolid
  /-- a literal is opened by the token that its mode says -/
  opened : ∀ d opener, .string d opener ∈ s.modes → ∃ t,
    s.tokens.reverse[opener]? = some t ∧ Opens t
  /-- interpolations are in literals -/
  grounded : ∀ m ∈ s.modes.getLast?, m.isInterpolation = false

/-- The tokenizer before the first step. -/
def start (text : Text) : Tokenizer := { text, rest := text }

theorem intact_start (text : Text) : (start text).Intact :=
  ⟨rfl, by simp [start], by simp [start], by simp [start]⟩

variable {s : Tokenizer}

/-! ## Tokens and modes -/

/-- A token is made of the next characters and of what follows them as trivia. -/
theorem exists_emit_eq (s : Tokenizer) (kind : Kind) (n : Nat) :
    ∃ trailing rest, Trivia.text trailing ++ rest = s.rest.drop n ∧
      s.emit kind n = { s with
        rest := rest
        leading := []
        tokens := ⟨s.leading, kind, s.rest.take n, trailing⟩ :: s.tokens } := by
  unfold emit
  split
  · exact ⟨[], s.rest.drop n, rfl, rfl⟩
  · exact ⟨_, _, Trivia.scan_text _ _, rfl⟩

/-- Nothing is lost when a token is made. -/
theorem covered_emit (s : Tokenizer) (kind : Kind) (n : Nat) :
    (s.emit kind n).covered = s.covered := by
  obtain ⟨trailing, rest, hrest, hemit⟩ := s.exists_emit_eq kind n
  have hall : s.rest.take n ++ (Trivia.text trailing ++ rest) = s.rest := by
    rw [hrest, List.take_append_drop]
  rw [hemit]
  simp [covered, Token.full, hall]

/-- A token at an index stays there when others are added. -/
theorem getElem?_reverse_cons {t u : Token} {ts : List Token} {i : Nat}
    (h : ts.reverse[i]? = some t) : (u :: ts).reverse[i]? = some t := by
  obtain ⟨hi, -⟩ := List.getElem?_eq_some_iff.mp h
  rw [List.reverse_cons, List.getElem?_append_left hi, h]

theorem getElem?_reverse_length (t : Token) (ts : List Token) :
    (t :: ts).reverse[ts.length]? = some t := by
  rw [List.reverse_cons, ← List.length_reverse, List.getElem?_concat_length]

/-- Making a token keeps a tokenizer intact. -/
theorem Intact.emit (h : s.Intact) {kind : Kind} {n : Nat} (hkind : kind.isSolid)
    (hn : s.rest.take n ≠ []) : (s.emit kind n).Intact := by
  have htiles := (s.covered_emit kind n).trans h.tiles
  obtain ⟨trailing, rest, -, hemit⟩ := s.exists_emit_eq kind n
  rw [hemit] at htiles ⊢
  refine ⟨htiles, List.forall_mem_cons.mpr ⟨⟨hn, hkind⟩, h.solid⟩, ?_, h.grounded⟩
  intro d opener hmode
  obtain ⟨t, ht, hopens⟩ := h.opened d opener hmode
  exact ⟨t, getElem?_reverse_cons ht, hopens⟩

/-- A literal is opened together with the first of its tokens. -/
theorem Intact.open (h : s.Intact) (d : Delimiter) {kind : Kind} {n : Nat} {c : Char} {cs : Text}
    (hkind : kind.isSolid) (hn : s.rest.take n = c :: cs) (hc : isBlank c = false) :
    ({ s with modes := .string d s.tokens.length :: s.modes }.emit kind n).Intact := by
  have hne : s.rest.take n ≠ [] := by rw [hn]; exact List.cons_ne_nil _ _
  have htiles := (covered_emit { s with modes := .string d s.tokens.length :: s.modes } kind
    n).trans
    h.tiles
  obtain ⟨trailing, rest, -, hemit⟩ :=
    exists_emit_eq { s with modes := .string d s.tokens.length :: s.modes } kind n
  rw [hemit] at htiles ⊢
  refine ⟨htiles, List.forall_mem_cons.mpr ⟨⟨hne, hkind⟩, h.solid⟩, ?_, ?_⟩
  · intro d' opener hmode
    rcases List.mem_cons.mp hmode with heq | hmode
    · obtain ⟨rfl, rfl⟩ := Mode.string.inj heq
      exact ⟨_, getElem?_reverse_length _ _, c, cs, hn, hc⟩
    · obtain ⟨t, ht, hopens⟩ := h.opened d' opener hmode
      exact ⟨t, getElem?_reverse_cons ht, hopens⟩
  · intro m hm
    have hgrounded := h.grounded
    cases hmodes : s.modes with
    | nil =>
      rw [hmodes] at hm
      obtain rfl := Option.some.inj hm
      rfl
    | cons m' ms =>
      rw [hmodes] at hm hgrounded
      rw [List.getLast?_cons_cons] at hm
      exact hgrounded m hm

/-- Modes can be left, and interpolations entered and counted in. -/
theorem Intact.change (h : s.Intact) {ms : List Mode}
    (hstrings : ∀ d opener, .string d opener ∈ ms → .string d opener ∈ s.modes)
    (hgrounded : ∀ m ∈ ms.getLast?, m.isInterpolation = false) :
    { s with modes := ms }.Intact :=
  ⟨h.tiles, h.solid, fun d opener hmode => h.opened d opener (hstrings d opener hmode), hgrounded⟩

/-- The innermost mode is left. -/
theorem Intact.leave (h : s.Intact) {m : Mode} {ms : List Mode} (hmodes : s.modes = m :: ms) :
    { s with modes := ms }.Intact := by
  refine h.change ?_ ?_
  · intro d opener hmode
    rw [hmodes]
    exact List.mem_cons_of_mem _ hmode
  · intro m' hm'
    have hgrounded := h.grounded
    cases ms with
    | nil => cases hm'
    | cons m'' ms =>
      rw [hmodes, List.getLast?_cons_cons] at hgrounded
      exact hgrounded m' hm'

/-- An interpolation is entered, or its parentheses are counted. -/
theorem Intact.enter (h : s.Intact) (parens : Nat) {m : Mode} {ms : List Mode}
    (hstrings : ∀ d opener, .string d opener ∈ m :: ms → .string d opener ∈ s.modes)
    (hgrounded : ∀ m' ∈ (m :: ms).getLast?, m'.isInterpolation = false) :
    { s with modes := .interpolation parens :: m :: ms }.Intact := by
  refine h.change ?_ ?_
  · intro d opener hmode
    rcases List.mem_cons.mp hmode with heq | hmode
    · cases heq
    · exact hstrings d opener hmode
  · rw [List.getLast?_cons_cons]
    exact hgrounded

/-- An interpolation has modes around it. -/
theorem Intact.exists_outer (h : s.Intact) {parens : Nat} {ms : List Mode}
    (hmodes : s.modes = .interpolation parens :: ms) : ∃ m ms', ms = m :: ms' := by
  cases ms with
  | nil =>
    have hinterpolation := h.grounded (.interpolation parens) (by rw [hmodes]; rfl)
    cases hinterpolation
  | cons m ms => exact ⟨m, ms, rfl⟩

/-- What a token does to the modes keeps them intact: an interpolation that it ends was opened in
the literal around it. -/
theorem Intact.behind (h : s.Intact) (kind : Kind) :
    { s with modes := modesBehind kind s.modes }.Intact := by
  unfold modesBehind
  split
  · rename_i parens ms hmodes
    obtain ⟨m, ms, rfl⟩ := h.exists_outer hmodes
    have hleft := h.leave hmodes
    have hcount (parens : Nat) : { s with modes := .interpolation parens :: m :: ms }.Intact :=
      hleft.enter parens (fun _ _ h => h) hleft.grounded
    split
    · exact hcount _
    · split
      · split
        · exact hleft
        · exact hcount _
      · exact hcount _
  · exact h

/-! ## The parts of a step -/

/-- In a literal, a segment only takes its characters. -/
theorem rest_emit_of_string {d : Delimiter} {opener : Nat} {ms : List Mode}
    (h : s.modes = .string d opener :: ms) (kind : Kind) (n : Nat) :
    (s.emit kind n).rest = s.rest.drop n := by
  have hin : s.inString := by rw [inString, h]
  rw [emit, if_pos hin]

/-- Opening a literal keeps this: the token where it was opened is the one that is made next. -/
theorem Intact.openString (h : s.Intact) {d : Delimiter} (hd : Delimiter.ofText? s.rest = some d) :
    (s.openString d).Intact := by
  obtain ⟨c, cs, hquote, hc⟩ := d.exists_quoteText_eq
  have hopener := d.opener_append_drop hd
  rw [Delimiter.opener, List.append_assoc] at hopener
  generalize s.rest.drop _ = r at hopener
  unfold Tokenizer.openString
  dsimp only
  split
  · rename_i hpounds
    have hnone : d.poundsText = [] := by rw [Delimiter.poundsText, hpounds]; rfl
    rw [hnone, List.nil_append] at hopener
    have htake : s.rest.take d.quoteText.length = c :: cs := by
      rw [← hopener, List.take_left, hquote]
    exact h.open d d.quote_isSolid htake hc
  · rename_i hpounds
    obtain ⟨n, hn⟩ := Nat.exists_eq_succ_of_ne_zero hpounds
    have hsome : d.poundsText = '#' :: List.replicate n '#' := by rw [Delimiter.poundsText, hn]; rfl
    have htake : s.rest.take d.pounds = '#' :: List.replicate n '#' := by
      rw [← hopener, ← hsome, List.take_left' d.length_poundsText]
    refine (h.open d rfl htake rfl).emit d.quote_isSolid ?_
    rw [rest_emit_of_string rfl, ← hopener, List.drop_left' d.length_poundsText, List.take_left]
    exact d.quoteText_ne_nil

/-- Closing a literal keeps this: its closing quote is what stands at the front. -/
theorem Intact.closeString (h : s.Intact) {d : Delimiter} {opener : Nat} {ms : List Mode}
    (hmodes : s.modes = .string d opener :: ms) (hcloser : startsWith s.rest d.closer) :
    (s.closeString d ms).Intact := by
  obtain ⟨hquote, hpounds⟩ := Delimiter.take_of_startsWith_closer hcloser
  have hne : s.rest.take d.quoteText.length ≠ [] := by
    rw [hquote]
    exact d.quoteText_ne_nil
  unfold Tokenizer.closeString
  split
  · exact (h.leave hmodes).emit d.quote_isSolid hne
  · rename_i hsome
    have hclosed := (h.emit d.quote_isSolid hne).leave hmodes
    refine hclosed.emit rfl ?_
    rw [rest_emit_of_string hmodes, hpounds, ne_eq, Delimiter.poundsText, List.replicate_eq_nil_iff]
    exact hsome

/-- In the middle of something, there is an outermost literal, and the token that opened it. -/
theorem Intact.exists_outermost (h : s.Intact) (hmodes : s.modes ≠ []) :
    ∃ opener first, s.modes.reverse.findSome? Mode.opener? = some opener ∧
      s.tokens.reverse[opener]? = some first ∧ Opens first := by
  obtain ⟨m, hm⟩ := Option.ne_none_iff_exists'.mp (mt List.getLast?_eq_none_iff.mp hmodes)
  have hground := h.grounded m hm
  cases m with
  | interpolation parens => cases hground
  | string d opener =>
    obtain ⟨first, hfirst, hopens⟩ := h.opened d opener (List.mem_of_getLast? hm)
    refine ⟨opener, first, ?_, hfirst, hopens⟩
    rw [← List.head?_reverse] at hm
    obtain ⟨ms, hms⟩ := List.head?_eq_some_iff.mp hm
    rw [hms]
    rfl

/-- A collapse goes back to where the outermost literal was opened, and makes the rest of the text
one token, but for the blanks at its end. -/
theorem Intact.exists_collapse_eq (h : s.Intact) (hmodes : s.modes ≠ []) :
    ∃ opener first behind c cs, s.modes.reverse.findSome? Mode.opener? = some opener ∧
      s.tokens.reverse[opener]? = some first ∧
      s.tokens.reverse = s.tokens.reverse.take opener ++ first :: behind ∧
      (isBlank c = false ∧
        s.text = (Token.fullText (s.tokens.reverse.take opener) ++ first.leading.text) ++
          (c :: cs)) ∧
      s.collapse = { s with
        rest := (Trivia.scan .trailing (splitTrailingBlanks cs).2).2
        modes := []
        leading := []
        tokens := ⟨first.leading, .unknown, c :: (splitTrailingBlanks cs).1,
          (Trivia.scan .trailing (splitTrailingBlanks cs).2).1⟩ ::
            (s.tokens.reverse.take opener).reverse } := by
  obtain ⟨opener, first, hfind, hfirst, c, cs, htext, hc⟩ := h.exists_outermost hmodes
  let before := s.tokens.reverse.take opener
  let behind := s.tokens.reverse.drop (opener + 1)
  let taken := cs ++ (first.trailing.text ++ (Token.fullText behind ++ (s.leading.text ++ s.rest)))
  have hsplit : s.tokens.reverse = before ++ first :: behind := by
    obtain ⟨hlt, hget⟩ := List.getElem?_eq_some_iff.mp hfirst
    rw [← hget, List.getElem_cons_drop, List.take_append_drop]
  -- what the tokens before the opening cover is where the text is cut
  have hcut : s.text = (Token.fullText before ++ first.leading.text) ++ (c :: taken) := by
    rw [← h.tiles, covered, hsplit]
    simp [taken, Token.full, htext]
  have hdrop : s.text.drop (Token.fullText before ++ first.leading.text).length = c :: taken := by
    rw [hcut, List.drop_left]
  refine ⟨opener, first, behind, c, taken, hfind, hfirst, hsplit, ⟨hc, hcut⟩, ?_⟩
  unfold Tokenizer.collapse
  simp only [hfind, hfirst]
  rw [hdrop, splitTrailingBlanks_cons hc]

/-- A collapse loses nothing. -/
theorem Intact.collapse (h : s.Intact) (hmodes : s.modes ≠ []) : s.collapse.Intact := by
  obtain ⟨opener, first, behind, c, cs, -, -, -, ⟨-, hcut⟩, hcollapse⟩ :=
    h.exists_collapse_eq hmodes
  have hscan := Trivia.scan_text .trailing (splitTrailingBlanks cs).2
  have hblanks := splitTrailingBlanks_append cs
  rw [hcollapse]
  refine ⟨?_, ?_, by simp, by simp⟩
  · show covered _ = s.text
    rw [hcut]
    simp [covered, Token.full, hscan, hblanks]
  · refine List.forall_mem_cons.mpr ⟨⟨List.cons_ne_nil _ _, rfl⟩, ?_⟩
    intro t ht
    have hmem : t ∈ s.tokens.reverse := List.mem_of_mem_take (List.mem_reverse.mp ht)
    exact h.solid t (List.mem_reverse.mp hmem)

/-- A collapse keeps the text: what the tokens behind the opening quote cover is read again. -/
theorem text_collapse (s : Tokenizer) : s.collapse.text = s.text := by
  unfold Tokenizer.collapse
  dsimp only
  split
  · rfl
  · split <;> rfl

/-- A step in a literal keeps a tokenizer intact, whichever of its four cases it is. -/
theorem Intact.stringPart (h : s.Intact) {d : Delimiter} {opener : Nat} {ms : List Mode}
    (hmodes : s.modes = .string d opener :: ms) : (s.stringPart d ms).Intact := by
  unfold Tokenizer.stringPart
  split
  · rename_i hcloser
    exact h.closeString hmodes hcloser
  · split
    · rename_i hinterpolation
      rw [Delimiter.atInterpolation, Bool.and_eq_true] at hinterpolation
      have hescape := append_drop_of_startsWith hinterpolation.1
      have henter : { s with modes := .interpolation 0 :: s.modes }.Intact := by
        have hgrounded := h.grounded
        rw [hmodes] at hgrounded ⊢
        exact h.enter 0 (by rw [hmodes]; exact fun _ _ h => h) hgrounded
      refine henter.emit rfl ?_
      rw [← hescape, List.take_left]
      exact List.cons_ne_nil _ _
    · split
      · exact h.collapse (by rw [hmodes]; exact List.cons_ne_nil _ _)
      · split
        · exact h.leave hmodes
        · rename_i hcloser hinterpolation hbare hends
          have hpos := Delimiter.segmentLength_pos hcloser hinterpolation hbare hends
          refine h.emit rfl ?_
          rw [ne_eq, List.take_eq_nil_iff]
          rintro (hzero | hnil)
          · omega
          · exact hends (by rw [hnil]; rfl)

/-- Trivia is kept until there is a token that it leads. -/
theorem Intact.skipTrivia (h : s.Intact) : s.skipTrivia.Intact := by
  refine ⟨?_, h.solid, h.opened, h.grounded⟩
  refine Eq.trans ?_ h.tiles
  have hscan := Trivia.scan_text .leading s.rest
  simp [covered, Tokenizer.skipTrivia, hscan]

/-- A step outside of literals keeps a tokenizer intact. -/
theorem Intact.normalPart (h : s.Intact) {c : Char} {cs : Text} (hrest : s.rest = c :: cs) :
    (s.normalPart c cs).Intact := by
  unfold Tokenizer.normalPart
  split
  · rename_i d hd
    exact h.openString (by rw [hrest]; exact hd)
  · have hkind := Token.plain_isSolid s.tokens.head? s.leading c cs
    generalize Token.plain s.tokens.head? s.leading c cs = token at hkind
    refine (h.behind token.1).emit hkind ?_
    show s.rest.take _ ≠ []
    rw [hrest]
    exact List.cons_ne_nil _ _

/-! ## Steps and runs -/

/-- No step in a literal changes the text. -/
theorem text_stringPart (s : Tokenizer) (d : Delimiter) (ms : List Mode) :
    (s.stringPart d ms).text = s.text := by
  unfold Tokenizer.stringPart Tokenizer.closeString
  split
  · split <;> rfl
  · split
    · rfl
    · split
      · exact text_collapse s
      · split <;> rfl

/-- No step outside of literals changes the text. -/
theorem text_normalPart (s : Tokenizer) (c : Char) (cs : Text) :
    (s.normalPart c cs).text = s.text := by
  unfold Tokenizer.normalPart Tokenizer.openString
  split
  · dsimp only
    split <;> rfl
  · rfl

/-- **One step loses nothing.** A step keeps a tokenizer intact, and its text: what was read, the
trivia that is kept and what is left make up the same text before and after. Collapsing a literal is
a step like any other, as what it takes back is read again. -/
theorem Intact.step (h : s.Intact) {t : Tokenizer} (hstep : s.step = .inl t) :
    t.Intact ∧ t.text = s.text := by
  unfold Tokenizer.step at hstep
  split at hstep
  · rename_i hmodes
    obtain rfl := Sum.inl.inj hstep
    exact ⟨h.stringPart hmodes, s.text_stringPart _ _⟩
  · dsimp only at hstep
    split at hstep
    · split at hstep
      · rename_i hinterpolation
        obtain rfl := Sum.inl.inj hstep
        refine ⟨h.skipTrivia.collapse ?_, s.skipTrivia.text_collapse⟩
        intro hnil
        rw [hnil] at hinterpolation
        cases hinterpolation
      · cases hstep
    · rename_i hrest
      obtain rfl := Sum.inl.inj hstep
      exact ⟨h.skipTrivia.normalPart hrest, s.skipTrivia.text_normalPart _ _⟩

/-- Whether tokens make up a text, and only the last of them, the end of the file, is not written
out. -/
def Complete (text : Text) (ts : List Token) : Prop :=
  Token.fullText ts = text ∧
    ∃ front leading, ts = front ++ [⟨leading, .endOfFile, [], []⟩] ∧ ∀ t ∈ front, t.IsSolid

/-- At the end of the text there is nothing for a token but the trivia before it. -/
theorem emit_of_rest_eq_nil (h : s.rest = []) (kind : Kind) :
    s.emit kind 0
      = { s with rest := [], leading := [], tokens := ⟨s.leading, kind, [], []⟩ :: s.tokens } := by
  unfold Tokenizer.emit
  rw [h]
  split
  · rfl
  · rw [List.drop_nil, Trivia.scan]
    rfl

/-- At the end of the text, the tokens are complete. -/
theorem Intact.complete (h : s.Intact) {ts : List Token} (hstep : s.step = .inr ts) :
    Complete s.text ts := by
  unfold Tokenizer.step at hstep
  split at hstep
  · cases hstep
  · dsimp only at hstep
    split at hstep
    · rename_i hrest
      split at hstep
      · cases hstep
      · obtain rfl := Sum.inr.inj hstep
        have hskip := h.skipTrivia
        have htiles := (s.skipTrivia.covered_emit .endOfFile 0).trans hskip.tiles
        rw [emit_of_rest_eq_nil hrest] at htiles ⊢
        rw [covered, List.append_nil, Trivia.text_nil, List.append_nil] at htiles
        refine ⟨htiles, s.skipTrivia.tokens.reverse, s.skipTrivia.leading, ?_, ?_⟩
        · rw [List.reverse_cons]
        · exact fun t ht => hskip.solid t (List.mem_reverse.mp ht)
    · cases hstep

/-- **A run loses nothing.** However a tokenizer gets to the end of its text, its tokens are
complete: they make up the text, and the end of the file is the last one. The induction is on the
steps, which make the tokenizer smaller. -/
theorem Intact.run {s : Tokenizer} (h : s.Intact) : Complete s.text s.run := by
  fun_induction Tokenizer.run s with
  | case1 s t hstep _ ih =>
    obtain ⟨ht, htext⟩ := h.step hstep
    rw [← htext]
    exact ih ht
  | case2 s ts hstep => exact h.complete hstep

end Tokenizer

end SwiftTree
