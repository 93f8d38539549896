import SwiftTree.Proofs.Appending
import SwiftTree.Proofs.Literals
import SwiftTree.Proofs.Reading

/-!
# A text among others

Two tokenizers can read the same text, one of them with lines behind it and with other tokens before
(`Tokenizer.Alongside`). They make the same tokens of it as long as the text goes on
(`Tokenizer.Alongside.step`), and up to its end if that is where its last token ends.
-/

namespace SwiftTree

open Text

/-- Nothing is split off behind a character that is not blank. -/
theorem Text.splitTrailingBlanks_of_getLast? {cs : Text} {c : Char} (h : cs.getLast? = some c)
    (hc : isBlank c = false) : splitTrailingBlanks cs = (cs, []) := by
  induction cs with
  | nil => cases h
  | cons d cs ih =>
    rw [splitTrailingBlanks]
    cases cs with
    | nil =>
      obtain rfl : d = c := Option.some.inj h
      simp [splitTrailingBlanks, hc]
    | cons e cs =>
      rw [List.getLast?_cons_cons] at h
      rw [ih h]
      simp

theorem Delimiter.quote_ne_poundEndif (d : Delimiter) : d.quote ≠ .poundEndif := by
  intro h
  have hquoted := d.quoted
  rw [h] at hquoted
  cases hquoted

namespace Tokenizer

/-- A mode without the place where it was opened. -/
def Mode.shape : Mode → Delimiter ⊕ Nat
  | string d _ => .inl d
  | interpolation parens => .inr parens

/-- Whether a tokenizer reads the text that another one reads, with `us` behind it, and has other
tokens before those that both have made. -/
structure Alongside (us : Text) (old old' : List Token) (s t : Tokenizer) : Prop where
  rest : t.rest = s.rest ++ us
  modes : t.modes.map Mode.shape = s.modes.map Mode.shape
  leading : t.leading = s.leading
  tokens : ∃ u own, s.tokens = u :: own ++ old ∧ t.tokens = u :: own ++ old'

variable {us : Text} {old old' : List Token} {s t : Tokenizer}

/-- Modes that only differ in where they were opened are of the same sort. -/
theorem map_shape_cons {m : Mode} {ms ms' : List Mode}
    (h : ms'.map Mode.shape = (m :: ms).map Mode.shape) :
    ∃ m' more, ms' = m' :: more ∧ m'.shape = m.shape ∧ more.map Mode.shape = ms.map Mode.shape :=
  List.map_eq_cons_iff.mp h

/-- A mode that looks like a literal is one, with the same delimiter. Only the place where it was
opened may be another. -/
theorem shape_string {m : Mode} {d : Delimiter} {opener : Nat}
    (h : m.shape = (Mode.string d opener).shape) : ∃ opener', m = .string d opener' := by
  cases m with
  | string d' opener' =>
    obtain rfl : d' = d := Sum.inl.inj h
    exact ⟨opener', rfl⟩
  | interpolation parens => cases h

/-- A mode that looks like an interpolation is the same one. -/
theorem shape_interpolation {m : Mode} {parens : Nat}
    (h : m.shape = (Mode.interpolation parens).shape) : m = .interpolation parens := by
  cases m with
  | string d opener => cases h
  | interpolation parens' => exact congrArg _ (Sum.inr.inj h)

/-- What a token does to the modes does not depend on where literals were opened. -/
theorem map_shape_modesBehind (kind : Kind) {ms ms' : List Mode}
    (h : ms'.map Mode.shape = ms.map Mode.shape) :
    (modesBehind kind ms').map Mode.shape = (modesBehind kind ms).map Mode.shape := by
  cases ms with
  | nil => rw [List.map_eq_nil_iff.mp h]
  | cons m ms =>
    obtain ⟨m', more, rfl, hm, hmore⟩ := map_shape_cons h
    cases m with
    | string d opener =>
      obtain ⟨opener', rfl⟩ := shape_string hm
      exact h
    | interpolation parens =>
      obtain rfl := shape_interpolation hm
      simp only [modesBehind]
      split
      · simp [hmore]
      · split
        · split
          · exact hmore
          · simp [hmore]
        · simp [hmore]

/-- A token that does not reach the end is shorter than what is left. -/
theorem lt_of_rest_emit_ne_nil {kind : Kind} {n : Nat} (h : (s.emit kind n).rest ≠ []) :
    n < s.rest.length := by
  refine Nat.lt_of_not_le fun hle => h ?_
  have hsuffix := s.rest_emit_suffix kind n
  rw [List.drop_eq_nil_of_le hle] at hsuffix
  exact List.suffix_nil.mp hsuffix

theorem rest_ne_nil_of_emit {kind : Kind} {n : Nat} (h : (s.emit kind n).rest ≠ []) : s.rest ≠ [] :=
  List.length_pos_iff.mp (Nat.zero_lt_of_lt (lt_of_rest_emit_ne_nil h))

/-- In a literal, a step goes on in it. -/
theorem step_of_string {d : Delimiter} {opener : Nat} {ms : List Mode}
    (h : s.modes = .string d opener :: ms) : s.step = .inl (s.stringPart d ms) := by
  rw [Tokenizer.step, h]

/-- In a string, the innermost mode is a literal. -/
theorem exists_string_of_inString (h : s.inString) :
    ∃ d opener ms, s.modes = .string d opener :: ms := by
  rw [inString] at h
  split at h
  · rename_i hmodes
    exact ⟨_, _, _, hmodes⟩
  · cases h

/-- Outside of literals, a step goes on behind the trivia. -/
theorem step_of_rest (h : s.inString = false) {c : Char} {cs : Text}
    (hrest : s.skipTrivia.rest = c :: cs) :
    s.step = .inl (s.skipTrivia.normalPart c cs) := by
  unfold Tokenizer.step
  split
  · rename_i hmodes
    rw [inString, hmodes] at h
    cases h
  · simp only [hrest]

namespace Alongside

/-- Both tokenizers have the same last token, on which it depends how an operator is read. -/
theorem head?_eq (h : Alongside us old old' s t) : t.tokens.head? = s.tokens.head? := by
  obtain ⟨u, own, hs, ht⟩ := h.tokens
  rw [hs, ht]
  rfl

/-- Both tokenizers are in a literal, or neither is. -/
theorem inString_eq (h : Alongside us old old' s t) : t.inString = s.inString := by
  have hmodes := h.modes
  rw [inString, inString]
  cases hs : s.modes with
  | nil =>
    rw [hs] at hmodes
    rw [List.map_eq_nil_iff.mp hmodes]
  | cons m ms =>
    rw [hs] at hmodes
    obtain ⟨m', more, ht, hm, -⟩ := map_shape_cons hmodes
    rw [ht]
    cases m with
    | string d opener =>
      obtain ⟨opener', rfl⟩ := shape_string hm
      rfl
    | interpolation parens =>
      obtain rfl := shape_interpolation hm
      rfl

theorem withModes (h : Alongside us old old' s t) {ms ms' : List Mode}
    (hms : ms'.map Mode.shape = ms.map Mode.shape) :
    Alongside us old old' { s with modes := ms } { t with modes := ms' } :=
  ⟨h.rest, hms, h.leading, h.tokens⟩

theorem enter (h : Alongside us old old' s t) {m m' : Mode} (hm : m'.shape = m.shape) :
    Alongside us old old' { s with modes := m :: s.modes } { t with modes := m' :: t.modes } :=
  h.withModes (by rw [List.map_cons, List.map_cons, hm, h.modes])

variable (hus : us.IsNewLine)

include hus

/-- Both make the same token, unless it or the trivia behind it reaches the end. -/
theorem emit (h : Alongside us old old' s t) {kind : Kind} {n : Nat} (hn : n ≤ s.rest.length)
    (hrest : (s.emit kind n).rest ≠ [] ∨ s.rest.drop n = []) :
    Alongside us old old' (s.emit kind n) (t.emit kind n) := by
  obtain ⟨u, own, hs, ht⟩ := h.tokens
  have htake : t.rest.take n = s.rest.take n := by
    rw [h.rest, List.take_append_of_le_length hn]
  have hdrop : t.rest.drop n = s.rest.drop n ++ us := by
    rw [h.rest, List.drop_append_of_le_length hn]
  unfold Tokenizer.emit at hrest ⊢
  rw [h.inString_eq]
  split
  · exact ⟨hdrop, h.modes, rfl, _, u :: own, by rw [hs]; rfl, by rw [ht, htake, h.leading]; rfl⟩
  · rename_i hin
    rw [if_neg hin] at hrest
    have hscan := Trivia.scan_trailing_append hus hrest
    rw [hdrop, hscan]
    exact ⟨rfl, h.modes, rfl, _, u :: own, by rw [hs]; rfl, by rw [ht, htake, h.leading]; rfl⟩

theorem emit_of_ne_nil (h : Alongside us old old' s t) {kind : Kind} {n : Nat}
    (hne : (s.emit kind n).rest ≠ []) : Alongside us old old' (s.emit kind n) (t.emit kind n) :=
  h.emit hus (Nat.le_of_lt (lt_of_rest_emit_ne_nil hne)) (.inl hne)

/-! ## The parts of a step -/

/-- Opening a literal keeps the two alongside, if the text goes on behind the quote. -/
theorem openString (h : Alongside us old old' s t) {d : Delimiter}
    (hne : (s.openString d).rest ≠ []) :
    Alongside us old old' (s.openString d) (t.openString d) := by
  have hopened : Alongside us old old' { s with modes := .string d s.tokens.length :: s.modes }
      { t with modes := .string d t.tokens.length :: t.modes } := h.enter rfl
  unfold Tokenizer.openString at hne ⊢
  dsimp only at hne ⊢
  split
  · rename_i hpounds
    rw [if_pos hpounds] at hne
    exact hopened.emit_of_ne_nil hus hne
  · rename_i hpounds
    rw [if_neg hpounds] at hne
    exact (hopened.emit_of_ne_nil hus (rest_ne_nil_of_emit hne)).emit_of_ne_nil hus hne

/-- Closing a literal keeps the two alongside, if the text goes on behind it. -/
theorem closeString (h : Alongside us old old' s t) {d : Delimiter} {ms ms' : List Mode}
    (hms : ms'.map Mode.shape = ms.map Mode.shape) (hne : (s.closeString d ms).rest ≠ []) :
    Alongside us old old' (s.closeString d ms) (t.closeString d ms') := by
  unfold Tokenizer.closeString at hne ⊢
  split
  · rename_i hpounds
    rw [if_pos hpounds] at hne
    exact (h.withModes hms).emit_of_ne_nil hus hne
  · rename_i hpounds
    rw [if_neg hpounds] at hne
    have hquote : (s.emit d.quote d.quoteText.length).rest ≠ [] :=
      rest_ne_nil_of_emit (s := { s.emit d.quote d.quoteText.length with modes := ms }) hne
    exact ((h.emit_of_ne_nil hus hquote).withModes hms).emit_of_ne_nil hus hne

/-- In a literal, both go on in the same way, unless that takes all that is left. -/
theorem stringPart (h : Alongside us old old' s t) {d : Delimiter} {ms ms' : List Mode}
    (hms : ms'.map Mode.shape = ms.map Mode.shape) (hbare : ¬d.escape <:+ s.rest)
    (hrest : s.rest ≠ [])
    (hne : (s.stringPart d ms).rest ≠ []) :
    Alongside us old old' (s.stringPart d ms) (t.stringPart d ms') := by
  have hcloser : startsWith t.rest d.closer = startsWith s.rest d.closer := by
    rw [h.rest, d.startsWith_closer_append hus]
  have hinterpolation : d.atInterpolation t.rest = d.atInterpolation s.rest := by
    rw [h.rest, d.atInterpolation_append hus]
  have hbare' : d.atBareEscape s.rest = false :=
    beq_eq_false_iff_ne.mpr fun heq => hbare (heq ▸ List.suffix_rfl)
  have hnot : d.atBareEscape t.rest = false := by
    rw [h.rest, d.atBareEscape_append hus]
  have hends : d.contentEnds t.rest = d.contentEnds s.rest := by
    rw [h.rest, d.contentEnds_append hrest]
  unfold Tokenizer.stringPart at hne ⊢
  rw [hbare', if_neg Bool.false_ne_true] at hne
  rw [hcloser, hinterpolation, hbare', hnot, hends, if_neg Bool.false_ne_true,
    if_neg Bool.false_ne_true]
  split
  · rename_i hyes
    rw [if_pos hyes] at hne
    exact h.closeString hus hms hne
  · rename_i hno
    rw [if_neg hno] at hne
    split
    · rename_i hyes
      rw [if_pos hyes] at hne
      exact (h.enter rfl).emit_of_ne_nil hus hne
    · rename_i hno
      rw [if_neg hno] at hne
      split
      · exact h.withModes hms
      · rename_i hno
        rw [if_neg hno] at hne
        have hsegment : d.segmentLength t.rest = d.segmentLength s.rest := by
          rw [h.rest, d.segmentLength_append hus hbare (lt_of_rest_emit_ne_nil hne)]
        rw [hsegment]
        exact h.emit_of_ne_nil hus hne

/-- Outside of literals, both make the same token, or open the same literal. -/
theorem normalPart (h : Alongside us old old' s t) {c : Char} {cs : Text}
    (hne : (s.normalPart c cs).rest ≠ []) :
    Alongside us old old' (s.normalPart c cs) (t.normalPart c (cs ++ us)) := by
  have hquote : Delimiter.ofText? (c :: (cs ++ us)) = Delimiter.ofText? (c :: cs) :=
    Delimiter.ofText?_append hus (c :: cs)
  have hplain : Token.plain t.tokens.head? t.leading c (cs ++ us)
      = Token.plain s.tokens.head? s.leading c cs := by
    rw [h.head?_eq, h.leading, Token.plain_append hus]
  unfold Tokenizer.normalPart at hne ⊢
  rw [hquote, hplain]
  generalize Token.plain s.tokens.head? s.leading c cs = token at hne ⊢
  obtain ⟨kind, more⟩ := token
  split
  · rename_i d hd
    rw [hd] at hne
    exact h.openString hus hne
  · rename_i hnone
    rw [hnone] at hne
    exact (h.withModes (map_shape_modesBehind _ h.modes)).emit_of_ne_nil hus hne

/-- Both tokenizers skip the same trivia, if something is left behind it. -/
theorem skipTrivia (h : Alongside us old old' s t) (hne : s.skipTrivia.rest ≠ []) :
    Alongside us old old' s.skipTrivia t.skipTrivia := by
  have hscan : Trivia.scan .leading t.rest
      = ((Trivia.scan .leading s.rest).1, (Trivia.scan .leading s.rest).2 ++ us) := by
    rw [h.rest]
    exact Trivia.scan_append hus hne
  refine ⟨congrArg Prod.snd hscan, h.modes, ?_, h.tokens⟩
  rw [Tokenizer.skipTrivia, Tokenizer.skipTrivia, hscan, h.leading]

/-- **Both take the same step**, unless that takes all that is left. What one tokenizer finds at the
front of its text the other one finds too, since the text behind is longer, but not different in
what a token can see of it. -/
theorem step (h : Alongside us old old' s t) (hbare : ∀ d : Delimiter, ¬d.escape <:+ s.rest)
    (hrest : s.rest ≠ []) (hskip : s.inString = false → s.skipTrivia.rest ≠ []) {s' : Tokenizer}
    (hstep : s.step = .inl s') (hne : s'.rest ≠ []) :
    ∃ t', t.step = .inl t' ∧ Alongside us old old' s' t' := by
  cases hin : s.inString with
  | true =>
    obtain ⟨d, opener, ms, hs⟩ := exists_string_of_inString hin
    have hmodes := h.modes
    rw [hs] at hmodes
    obtain ⟨m, ms', ht, hm, hms⟩ := map_shape_cons hmodes
    obtain ⟨opener', rfl⟩ := shape_string hm
    obtain rfl := Sum.inl.inj ((step_of_string hs).symm.trans hstep)
    exact ⟨_, step_of_string ht, h.stringPart hus hms (hbare d) hrest hne⟩
  | false =>
    obtain ⟨c, cs, hcs⟩ := List.exists_cons_of_ne_nil (hskip hin)
    obtain rfl := Sum.inl.inj ((step_of_rest hin hcs).symm.trans hstep)
    have hskipped := h.skipTrivia hus (hskip hin)
    have ht : t.skipTrivia.rest = c :: (cs ++ us) := by
      rw [hskipped.rest, hcs, List.cons_append]
    exact ⟨_, step_of_rest (h.inString_eq.trans hin) ht, hskipped.normalPart hus hne⟩

end Alongside

/-! ## The end of a text -/

/-- Where nothing is left, a literal is over. -/
theorem stringPart_of_rest_eq_nil (h : s.rest = []) (d : Delimiter) (ms : List Mode) :
    s.stringPart d ms = { s with modes := ms } := by
  obtain ⟨c, cs, hquote, -⟩ := d.exists_quoteText_eq
  have hcloser : startsWith [] d.closer = false := by
    rw [Delimiter.closer, hquote]
    rfl
  have hescape : d.atEscape [] = false := rfl
  have hbare : d.atBareEscape [] = false := rfl
  rw [Tokenizer.stringPart, h, hcloser, Delimiter.atInterpolation, hescape, hbare]
  rfl

/-- A collapse leaves nothing of a text that ends with a character that is not blank. -/
theorem collapse_of_getLast? (h : s.Intact) (hmodes : s.modes ≠ []) {c : Char}
    (hlast : s.text.getLast? = some c) (hc : isBlank c = false) :
    s.collapse.rest = [] ∧ s.collapse.modes = [] ∧ s.collapse.leading = [] ∧
      ∃ u more, s.collapse.tokens = u :: more ∧ u.kind = .unknown := by
  obtain ⟨opener, first, hfind, hfirst, -⟩ := h.exists_outermost hmodes
  have hblanks (n : Nat) : (splitTrailingBlanks (s.text.drop n)).2 = [] := by
    by_cases hn : s.text.length ≤ n
    · rw [List.drop_eq_nil_of_le hn]
      rfl
    · rw [splitTrailingBlanks_of_getLast? (by rw [List.getLast?_drop, if_neg hn, hlast]) hc]
  have hscan : Trivia.scan .trailing [] = ([], []) := by rw [Trivia.scan]
  unfold Tokenizer.collapse
  simp only [hfind, hfirst, hblanks, hscan]
  exact ⟨trivial, trivial, trivial, _, _, rfl, rfl⟩

/-- Where nothing but trivia is left, the tokens are complete, or a literal cannot be read. -/
theorem step_of_skipTrivia_eq_nil (h : s.inString = false) (hrest : s.skipTrivia.rest = []) :
    s.step = if s.modes.any Mode.isInterpolation then .inl s.skipTrivia.collapse
      else .inr (s.tokens.reverse ++ [⟨s.skipTrivia.leading, .endOfFile, [], []⟩]) := by
  unfold Tokenizer.step
  split
  · rename_i hmodes
    rw [inString, hmodes] at h
    cases h
  · simp only [hrest]
    rw [emit_of_rest_eq_nil hrest, List.reverse_cons]
    rfl

/-- A run is over where nothing but trivia is left, which leads the end of the file. -/
theorem eq_of_step_inr {ts : List Token} (h : s.step = .inr ts) : s.skipTrivia.rest = [] ∧
    ts = s.tokens.reverse ++ [⟨s.skipTrivia.leading, .endOfFile, [], []⟩] := by
  cases hin : s.inString with
  | true =>
    obtain ⟨d, opener, ms, hmodes⟩ := exists_string_of_inString hin
    cases (step_of_string hmodes).symm.trans h
  | false =>
    cases hrest : s.skipTrivia.rest with
    | nil =>
      rw [step_of_skipTrivia_eq_nil hin hrest] at h
      split at h
      · cases h
      · exact ⟨rfl, (Sum.inr.inj h).symm⟩
    | cons c cs => cases (step_of_rest hin hrest).symm.trans h

/-- At the end of the text there is no trivia to skip. -/
theorem skipTrivia_of_rest_eq_nil (h : s.rest = []) : s.skipTrivia = s := by
  have hscan : Trivia.scan .leading [] = ([], []) := by rw [Trivia.scan]
  rw [Tokenizer.skipTrivia, h, hscan, List.append_nil, ← h]

/-- Where nothing is left, a run adds the end of the file to the tokens, or ends with an unknown
one. -/
theorem run_of_rest_eq_nil (h : s.Intact) (hrest : s.rest = []) {c : Char}
    (hlast : s.text.getLast? = some c) (hc : isBlank c = false) :
    s.modes.any Mode.isInterpolation = false ∧
        s.run = s.tokens.reverse ++ [⟨s.leading, .endOfFile, [], []⟩] ∨
      ∃ front u eof, s.run = front ++ [u, eof] ∧ u.kind = .unknown := by
  have hskip := skipTrivia_of_rest_eq_nil hrest
  induction hms : s.modes generalizing s with
  | nil =>
    have hin : s.inString = false := by rw [inString, hms]
    have hstep := step_of_skipTrivia_eq_nil hin (by rw [hskip, hrest])
    rw [hms, hskip] at hstep
    exact .inl ⟨rfl, run_of_inr hstep⟩
  | cons m ms ih =>
    cases m with
    | string d opener =>
      have hstep := step_of_string hms
      rw [stringPart_of_rest_eq_nil hrest] at hstep
      rw [run_of_inl hstep]
      exact ih (h.leave hms) hrest hlast
        (skipTrivia_of_rest_eq_nil (s := { s with modes := ms }) hrest) rfl
    | interpolation parens =>
      have hin : s.inString = false := by rw [inString, hms]
      have hstep := step_of_skipTrivia_eq_nil hin (by rw [hskip, hrest])
      rw [hms, hskip] at hstep
      have hmodes : s.modes ≠ [] := by
        rw [hms]
        exact List.cons_ne_nil _ _
      obtain ⟨hrest', hmodes', hleading', u, more, htokens, hu⟩ :=
        collapse_of_getLast? h hmodes hlast hc
      refine .inr ⟨more.reverse, u, ⟨[], .endOfFile, [], []⟩, ?_, hu⟩
      rw [run_of_inl hstep, run_of_inr (step_nil hmodes' hleading' hrest'), htokens,
        List.reverse_cons, List.append_assoc]
      rfl

/-! ## Up to a last directive -/

/-- A token that is made becomes the last one. It has the trivia in front of it and the spelling
that is asked for, and some of what follows as the trivia behind it. -/
theorem exists_head?_emit (s : Tokenizer) (kind : Kind) (n : Nat) :
    ∃ trailing, Trivia.text trailing ++ (s.emit kind n).rest = s.rest.drop n ∧
      (s.emit kind n).tokens.head? = some ⟨s.leading, kind, s.rest.take n, trailing⟩ := by
  obtain ⟨trailing, rest, hrest, hemit⟩ := s.exists_emit_eq kind n
  rw [hemit]
  exact ⟨trailing, hrest, rfl⟩

/-- The last token is of the kind that was made. -/
theorem kind_of_head?_emit {kind : Kind} {n : Nat} {u : Token}
    (h : (s.emit kind n).tokens.head? = some u) :
    u.kind = kind := by
  obtain ⟨trailing, -, hhead⟩ := s.exists_head?_emit kind n
  rw [hhead] at h
  obtain rfl := Option.some.inj h
  rfl

/-- What opens a literal is no directive. -/
theorem kind_openString {d : Delimiter} {u : Token} (h : (s.openString d).tokens.head? = some u) :
    u.kind ≠ .poundEndif := by
  unfold Tokenizer.openString at h
  rw [kind_of_head?_emit h]
  exact d.quote_ne_poundEndif

/-- What goes on in a literal is none, either. -/
theorem kind_stringPart {d : Delimiter} {ms : List Mode} (hbare : ¬d.escape <:+ s.rest)
    (hrest : (s.stringPart d ms).rest ≠ s.rest) {u : Token}
    (h : (s.stringPart d ms).tokens.head? = some u) : u.kind ≠ .poundEndif := by
  have hbare' : d.atBareEscape s.rest = false :=
    beq_eq_false_iff_ne.mpr fun heq => hbare (heq ▸ List.suffix_rfl)
  unfold Tokenizer.stringPart Tokenizer.closeString at h hrest
  rw [hbare', if_neg Bool.false_ne_true] at h hrest
  split at h
  · split at h
    · rw [kind_of_head?_emit h]
      exact d.quote_ne_poundEndif
    · rw [kind_of_head?_emit h]
      exact nofun
  · rename_i hcloser
    rw [if_neg hcloser] at hrest
    split at h
    · rw [kind_of_head?_emit h]
      exact nofun
    · rename_i hinterpolation
      rw [if_neg hinterpolation] at hrest
      split at h
      · rename_i hends
        rw [if_pos hends] at hrest
        exact absurd rfl hrest
      · rw [kind_of_head?_emit h]
        exact nofun

/-- Where no literal is opened, the next token is an ordinary one. -/
theorem normalPart_of_none {c : Char} {cs : Text} (h : Delimiter.ofText? (c :: cs) = none) :
    let token := Token.plain s.tokens.head? s.leading c cs
    s.normalPart c cs = { s with modes := modesBehind token.1 s.modes }.emit token.1
      (token.2 + 1) := by
  rw [normalPart, h]

/-- A directive is not longer than the text. -/
theorem plain_le_of_poundEndif {prev : Option Token} {leading : Trivia} {cs : Text}
    (h : (Token.plain prev leading '#' cs).1 = .poundEndif) :
    (Token.plain prev leading '#' cs).2 ≤ cs.length := by
  change (Token.poundWord cs).1 = .poundEndif at h
  show (Token.poundWord cs).2 ≤ cs.length
  unfold Token.poundWord at h ⊢
  dsimp only at h ⊢
  split at h
  · cases h
  · split at h
    · rename_i hstart
      rw [if_pos hstart]
      exact Token.nameLength_le cs
    · cases h

/-- A directive does not change the modes. -/
theorem modesBehind_poundEndif (ms : List Mode) : modesBehind .poundEndif ms = ms := by
  cases ms with
  | nil => rfl
  | cons m ms => cases m <;> rfl

/-- The last directive of a block. -/
def endif (leading : Trivia) : Token := ⟨leading, .poundEndif, "#endif".toList, []⟩

/-- Both make the directive at the end of the text. -/
theorem Alongside.last (h : Alongside us old old' s t) (hus : us.IsNewLine)
    (hbare : ∀ d : Delimiter, ¬d.escape <:+ s.rest) (hrest : s.rest ≠ [])
    (hskip : s.inString = false → s.skipTrivia.rest ≠ []) {s' : Tokenizer}
    (hstep : s.step = .inl s')
    (hnil : s'.rest = []) {leading : Trivia} (hlast : s'.tokens.head? = some (endif leading))
    (hopen : s'.modes.any Mode.isInterpolation = false) :
    s'.modes = [] ∧ s'.leading = [] ∧ ∃ t', t.step = .inl t' ∧ Alongside us old old' s' t' := by
  cases hin : s.inString with
  | true =>
    -- in a literal, the last token would be a part of it
    obtain ⟨d, opener, ms, hmodes⟩ := exists_string_of_inString hin
    obtain rfl := Sum.inl.inj ((step_of_string hmodes).symm.trans hstep)
    exact absurd rfl (kind_stringPart (hbare d) (by rw [hnil]; exact hrest.symm) hlast)
  | false =>
    obtain ⟨c, cs, hcs⟩ := List.exists_cons_of_ne_nil (hskip hin)
    have hskipped := h.skipTrivia hus (hskip hin)
    have ht : t.skipTrivia.rest = c :: (cs ++ us) := by
      rw [hskipped.rest, hcs, List.cons_append]
    have htstep := step_of_rest (h.inString_eq.trans hin) ht
    obtain rfl := Sum.inl.inj ((step_of_rest hin hcs).symm.trans hstep)
    -- the directive is no opening quote, and with more lines behind it is none either
    have hnone : Delimiter.ofText? (c :: cs) = none := by
      cases hd : Delimiter.ofText? (c :: cs) with
      | none => rfl
      | some d =>
        rw [Tokenizer.normalPart, hd] at hlast
        exact absurd rfl (kind_openString hlast)
    have hnone' : Delimiter.ofText? (c :: (cs ++ us)) = none :=
      (Delimiter.ofText?_append hus (c :: cs)).trans hnone
    have hplain : Token.plain t.skipTrivia.tokens.head? t.skipTrivia.leading c (cs ++ us)
        = Token.plain s.skipTrivia.tokens.head? s.skipTrivia.leading c cs := by
      rw [hskipped.head?_eq, hskipped.leading, Token.plain_append hus]
    rw [normalPart_of_none hnone', hplain] at htstep
    rw [normalPart_of_none hnone] at hlast hnil hopen ⊢
    generalize hn : Token.plain s.skipTrivia.tokens.head? s.skipTrivia.leading c cs = token
      at htstep hlast hnil hopen ⊢
    obtain ⟨kind, more⟩ := token
    obtain ⟨trailing, hdrop, hhead⟩ := exists_head?_emit
      { s.skipTrivia with modes := modesBehind kind s.skipTrivia.modes } kind (more + 1)
    obtain ⟨-, rfl, htext, rfl⟩ := Token.mk.inj (Option.some.inj (hhead.symm.trans hlast))
    have hall : s.skipTrivia.rest.drop (more + 1) = [] := hdrop.symm.trans hnil
    have hc : c = '#' := by
      change s.skipTrivia.rest.take (more + 1) = _ at htext
      rw [hcs, List.take_succ_cons] at htext
      exact (List.cons.inj htext).1
    have hlength : more + 1 ≤ s.skipTrivia.rest.length := by
      subst hc
      have hle := plain_le_of_poundEndif (congrArg Prod.fst hn)
      rw [hn] at hle
      rw [hcs]
      exact Nat.succ_le_succ hle
    have hbehind : modesBehind .poundEndif s.modes = s.modes := modesBehind_poundEndif s.modes
    -- no literal is open here and no interpolation, so nothing is
    have hmodes : s.modes = [] := by
      change (modesBehind .poundEndif s.modes).any _ = false at hopen
      rw [hbehind] at hopen
      refine modes_eq_nil (fun d opener ms hstring => ?_) (Bool.eq_false_iff.mp hopen)
      rw [inString, hstring] at hin
      cases hin
    exact ⟨hbehind.trans hmodes, rfl, _, htstep,
      (hskipped.withModes (map_shape_modesBehind _ hskipped.modes)).emit hus hlength (.inr hall)⟩

/-- A text that ends with a letter ends with no escape introducer. -/
theorem Intact.not_escape_suffix (h : s.Intact) (hend : s.text.getLast? = some 'f')
    (d : Delimiter) :
    ¬d.escape <:+ s.rest := by
  intro hescape
  have hsuffix : s.rest <:+ s.text := by
    rw [← h.tiles, covered, ← List.append_assoc]
    exact List.suffix_append _ _
  obtain ⟨before, htext⟩ := hescape.trans hsuffix
  have hlast : d.escape.getLast? = some 'f' := by
    rw [← htext, List.getLast?_append_of_ne_nil before
      (show d.escape ≠ [] from List.cons_ne_nil _ _)] at hend
    exact hend
  rcases List.mem_cons.mp (List.mem_of_getLast? hlast) with hf | hf
  · cases hf
  · exact d.not_mem_poundsText (by decide) hf

/-- A literal that cannot be read is not followed by a directive. -/
theorem Intact.skipTrivia_ne_nil (h : s.Intact) (hend : s.text.getLast? = some 'f') {s' : Tokenizer}
    (hstep : s.step = .inl s') {front : List Token} {leading : Trivia}
    (hrun : s'.run = front ++ [endif leading, ⟨[], .endOfFile, [], []⟩])
    (hin : s.inString = false) :
    s.skipTrivia.rest ≠ [] := by
  intro hnil
  rw [step_of_skipTrivia_eq_nil hin hnil] at hstep
  split at hstep
  · rename_i hopen
    obtain rfl := Sum.inl.inj hstep
    have hmodes : s.skipTrivia.modes ≠ [] := by
      intro hmodes
      change s.modes = [] at hmodes
      rw [hmodes] at hopen
      cases hopen
    obtain ⟨hrest, hmodes', hleading, u, more, htokens, hu⟩ :=
      collapse_of_getLast? h.skipTrivia hmodes hend rfl
    rw [run_of_inr (step_nil hmodes' hleading hrest), htokens, List.reverse_cons,
      List.append_assoc] at hrun
    obtain ⟨rfl, -⟩ := List.cons.inj (List.append_inj' hrun rfl).2
    cases hu
  · cases hstep

/-- Both run up to the end of the text if that is where its last directive ends. -/
theorem Alongside.run (h : Alongside us old old' s t) (hus : us.IsNewLine) (hs : s.Intact)
    (hrest : s.rest ≠ []) (hend : s.text.getLast? = some 'f') {front : List Token}
    {leading : Trivia}
    (hrun : s.run = front ++ [endif leading, ⟨[], .endOfFile, [], []⟩]) :
    ∃ s' t', Alongside us old old' s' t' ∧ s'.rest = [] ∧ s'.modes = [] ∧ s'.leading = [] ∧
      s'.run = s.run ∧ t'.run = t.run := by
  fun_induction Tokenizer.run s generalizing t with
  | case1 s s' hstep _ ih =>
    obtain ⟨hs', htext⟩ := hs.step hstep
    have hskip := hs.skipTrivia_ne_nil hend hstep hrun
    have hbare := hs.not_escape_suffix hend
    rw [← htext] at hend
    by_cases hnil : s'.rest = []
    · rcases run_of_rest_eq_nil hs' hnil hend rfl with ⟨hopen, hrun'⟩ | ⟨front', u, eof, hrun', hu⟩
      · rw [hrun', ← List.singleton_append (l := [_]), ← List.append_assoc] at hrun
        obtain ⟨htokens, heof⟩ := List.append_inj' hrun rfl
        have hlast : s'.tokens.head? = some (endif leading) := by
          rw [← List.getLast?_reverse, htokens, List.getLast?_concat]
        obtain ⟨hmodes, hleading, t', htstep, h'⟩ :=
          h.last hus hbare hrest hskip hstep hnil hlast hopen
        exact ⟨s', t', h', hnil, hmodes, hleading, rfl, (run_of_inl htstep).symm⟩
      · rw [hrun'] at hrun
        obtain ⟨rfl, -⟩ := List.cons.inj (List.append_inj' hrun rfl).2
        cases hu
    · obtain ⟨t', htstep, h'⟩ := h.step hus hbare hrest hskip hstep hnil
      rw [run_of_inl htstep]
      exact ih h' hs' hnil hend hrun
  | case2 s ts hstep =>
    -- all that is left would be trivia before the end of the file
    obtain ⟨hnil, rfl⟩ := eq_of_step_inr hstep
    obtain ⟨-, heof⟩ := List.append_inj' (hrun.trans (List.append_cons front _ _)) rfl
    have hleading : s.leading ++ (Trivia.scan .leading s.rest).1 = [] :=
      (Token.mk.inj (List.cons.inj heof).1).1
    have htext := Trivia.scan_text .leading s.rest
    rw [(List.append_eq_nil_iff.mp hleading).2,
      show (Trivia.scan .leading s.rest).2 = [] from hnil] at htext
    exact absurd htext.symm hrest

end Tokenizer

end SwiftTree
