import SwiftTree.Token.Stream

/-!
# Lines behind a text

What the tokenizer reads at the front of a text is the same with further lines behind the text
(`Text.IsNewLine`), unless it reads up to the end. For a line break ends almost everything that a
token can be made of, and is none of the characters that decide what a token is; so it counts for as
much as the end of the text does. What may hold line breaks ends before these lines, or it takes all
that is left: a block comment, a segment of a literal of several lines, and a regular expression
between `#`s, which these lines do not close since there is no slash in them.
-/

namespace SwiftTree

open Text

namespace Text

/-- Whether a text starts with a line break and has no slash in it. -/
structure IsNewLine (us : Text) : Prop where
  starts : ∃ more, us = '\n' :: more
  slash : '/' ∉ us

namespace IsNewLine

variable {us : Text} (h : us.IsNewLine)

include h

/-- A test that fails on a line break takes nothing off the front of further lines. -/
theorem takeWhile_eq_nil {p : Char → Bool} (hp : p '\n' = false) : us.takeWhile p = [] := by
  obtain ⟨more, rfl⟩ := h.starts
  exact List.takeWhile_cons_of_neg (by simp [hp])

/-- Taking characters off the front of a text stops at its end or before it, so lines behind it
change nothing. -/
theorem takeWhile_append {p : Char → Bool} (hp : p '\n' = false) (cs : Text) :
    (cs ++ us).takeWhile p = cs.takeWhile p := by
  rw [List.takeWhile_append, h.takeWhile_eq_nil hp, List.append_nil]
  split
  · rename_i hall
    exact ((List.takeWhile_prefix p).eq_of_length hall).symm
  · rfl

/-- A line break is told apart from the end of a text by few tests. -/
theorem peek_append {α : Type} (f : Char → α) (hf : f '\n' = f '\x00') (cs : Text) :
    f (peek (cs ++ us)) = f (peek cs) := by
  cases cs with
  | nil =>
    obtain ⟨more, rfl⟩ := h.starts
    exact hf
  | cons c cs => rfl

/-- How often a character is repeated at the front of a text does not depend on the lines behind
it. -/
theorem countLeading_append {c : Char} (hc : c ≠ '\n') (cs : Text) :
    countLeading c (cs ++ us) = countLeading c cs := by
  induction cs with
  | nil =>
    obtain ⟨more, rfl⟩ := h.starts
    simp [countLeading, hc.symm]
  | cons d cs ih => rw [List.cons_append, countLeading, countLeading, ih]

/-- A word that does not break the line stands at the front of a text if it does so with lines
behind. -/
theorem startsWith_append {lead : Text} (hlead : '\n' ∉ lead) (cs : Text) :
    startsWith (cs ++ us) lead = startsWith cs lead := by
  induction lead generalizing cs with
  | nil => simp [startsWith]
  | cons c lead ih =>
    obtain ⟨hc, hlead⟩ := not_or.mp (mt List.mem_cons.mpr hlead)
    cases cs with
    | nil =>
      obtain ⟨more, rfl⟩ := h.starts
      have hne : (c == '\n') = false := beq_eq_false_iff_ne.mpr (Ne.symm hc)
      simp [startsWith, List.isPrefixOf, hne]
    | cons d cs =>
      have hrest : lead.isPrefixOf (cs ++ us) = lead.isPrefixOf cs := ih hlead cs
      simp only [startsWith, List.cons_append, List.isPrefixOf, hrest]

theorem restOfLine_append (cs : Text) : restOfLine (cs ++ us) = restOfLine cs :=
  h.takeWhile_append rfl cs

end IsNewLine

/-- What passes a test that the end does not pass is no end. -/
theorem ne_nil_of_peek {p : Char → Bool} {cs : Text} (h : p (peek cs)) (hp : p '\x00' = false) :
    cs ≠ [] := by
  rintro rfl
  exact Bool.false_ne_true (hp.symm.trans h)

theorem countLeading_le (c : Char) (cs : Text) : countLeading c cs ≤ cs.length := by
  induction cs with
  | nil => exact Nat.le_refl 0
  | cons d cs ih =>
    rw [countLeading, List.length_cons]
    split <;> omega

end Text

open Text

/-! ## Trivia -/

namespace Trivia

/-- A block comment that is closed within a text is the same with anything behind, since its end was
found before. -/
theorem blockCommentLength_append {us : Text} {depth : Nat} {cs : Text}
    (hcs : blockCommentLength depth cs < cs.length) :
    blockCommentLength depth (cs ++ us) = blockCommentLength depth cs := by
  fun_induction blockCommentLength depth cs with
  | case1 depth cs ih =>
    simp only [List.length_cons] at hcs
    rw [List.cons_append, List.cons_append, blockCommentLength, ih (by omega)]
  | case2 depth cs hdepth =>
    rw [List.cons_append, List.cons_append, blockCommentLength, if_pos hdepth]
  | case3 depth cs hdepth ih =>
    simp only [List.length_cons] at hcs
    rw [List.cons_append, List.cons_append, blockCommentLength, if_neg hdepth, ih (by omega)]
  | case4 depth c cs hopen hclose ih =>
    simp only [List.length_cons] at hcs
    cases cs with
    | nil => exact absurd hcs (by simp [blockCommentLength])
    | cons d cs =>
      rw [List.cons_append, blockCommentLength, ih (by omega)]
      · rintro more rfl hmore
        exact hopen cs rfl (congrArg (List.cons · cs) (List.cons.inj hmore).1)
      · rintro more rfl hmore
        exact hclose cs rfl (congrArg (List.cons · cs) (List.cons.inj hmore).1)
  | case5 => exact absurd hcs (Nat.lt_irrefl _)

variable {us : Text} (h : us.IsNewLine) {side : Side}

include h

/-- A piece of trivia that does not reach the end is the same with lines behind. -/
theorem piece?_append {c : Char} {cs : Text} (hcs : ∀ p ∈ piece? side c cs, p.2 < cs.length) :
    piece? side c (cs ++ us) = piece? side c cs := by
  have hslash := h.peek_append (· == '/') rfl cs
  have hstar := h.peek_append (· == '*') rfl cs
  simp only [piece?] at hcs ⊢
  rw [hslash, hstar]
  split
  · rename_i hbreak
    rw [if_pos hbreak] at hcs
    split
    · rfl
    · rename_i hside
      rw [if_neg hside] at hcs
      cases cs with
      | nil => exact absurd (hcs _ rfl) (Nat.not_lt_zero _)
      | cons d cs => rfl
  · rename_i hbreak
    rw [if_neg hbreak] at hcs
    split
    · rw [h.restOfLine_append]
    · rename_i hline
      rw [if_neg hline] at hcs
      split
      · rename_i hblock
        rw [if_pos hblock] at hcs
        cases cs with
        | nil => exact absurd (hcs _ rfl) (Nat.not_lt_zero _)
        | cons d cs =>
          have hlt : blockCommentLength 1 cs + 1 < cs.length + 1 := hcs _ rfl
          rw [List.cons_append, List.tail_cons, List.tail_cons,
            blockCommentLength_append (by omega)]
      · rw [h.takeWhile_append (p := isInlineBlank) rfl]

/-- Trivia that does not reach the end is the same with lines behind. -/
theorem scan_append {cs : Text} (hcs : (scan side cs).2 ≠ []) :
    scan side (cs ++ us) = ((scan side cs).1, (scan side cs).2 ++ us) := by
  fun_induction scan side cs with
  | case1 => exact absurd rfl hcs
  | case2 c cs hnone =>
    rw [List.cons_append, scan, piece?_append h (by simp [hnone]), hnone]
  | case3 c cs kind more hsome ps rest hrest ih =>
    rw [hrest] at ih
    have hlt : more < cs.length := by
      refine Nat.lt_of_not_le fun hle => ?_
      rw [List.drop_eq_nil_of_le hle, scan] at hrest
      exact hcs (Prod.mk.inj hrest).2.symm
    have hdrop : (cs ++ us).drop more = cs.drop more ++ us :=
      List.drop_append_of_le_length (Nat.le_of_lt hlt)
    have htake : (cs ++ us).take more = cs.take more :=
      List.take_append_of_le_length (Nat.le_of_lt hlt)
    have hpiece : piece? side c (cs ++ us) = some (kind, more) := by
      rw [piece?_append h (by simp [hsome, hlt]), hsome]
    rw [List.cons_append, scan, hpiece]
    simp only [hdrop, htake, ih hcs]

/-- Behind a token, trivia ends at a line break. -/
theorem scan_trailing_append {cs : Text} (hcs : (scan .trailing cs).2 ≠ [] ∨ cs = []) :
    scan .trailing (cs ++ us) = ((scan .trailing cs).1, (scan .trailing cs).2 ++ us) := by
  rcases hcs with hcs | rfl
  · exact scan_append h hcs
  · obtain ⟨more, rfl⟩ := h.starts
    rw [List.nil_append, scan, scan]
    rfl

end Trivia

/-! ## Literals -/

namespace Delimiter

theorem not_mem_quoteText {c : Char} (hc : c ≠ '"' ∧ c ≠ '\'') (d : Delimiter) :
    c ∉ d.quoteText := by
  rw [quoteText]
  split <;> simp [hc.1, hc.2]

theorem not_mem_poundsText {c : Char} (hc : c ≠ '#') (d : Delimiter) : c ∉ d.poundsText :=
  fun hmem => hc (List.eq_of_mem_replicate hmem)

theorem newline_not_mem_escape (d : Delimiter) : '\n' ∉ d.escape :=
  fun hmem => (List.mem_cons.mp hmem).elim nofun (d.not_mem_poundsText (by decide))

/-- Whether the content of a literal ends here can be told from the first character that is left, so
anything may follow. -/
theorem contentEnds_append (d : Delimiter) {cs : Text} (hcs : cs ≠ []) (us : Text) :
    d.contentEnds (cs ++ us) = d.contentEnds cs := by
  cases cs with
  | nil => exact absurd rfl hcs
  | cons c cs => rfl

variable {us : Text} (h : us.IsNewLine) (d : Delimiter)

include h

/-- Closing delimiters do not break the line, so lines behind a text make none of its ends a
delimiter. -/
theorem startsWith_closer_append (cs : Text) :
    startsWith (cs ++ us) d.closer = startsWith cs d.closer :=
  h.startsWith_append (fun hmem => (List.mem_append.mp hmem).elim
    (d.not_mem_quoteText (by decide)) (d.not_mem_poundsText (by decide))) cs

theorem atEscape_append (cs : Text) : d.atEscape (cs ++ us) = d.atEscape cs :=
  h.startsWith_append d.newline_not_mem_escape cs

/-- An escape introducer and the parenthesis behind it stand on one line, so lines behind a text
start no interpolation in it. -/
theorem atInterpolation_append (cs : Text) :
    d.atInterpolation (cs ++ us) = d.atInterpolation cs := by
  rw [atInterpolation, atInterpolation, d.atEscape_append h]
  cases hescape : d.atEscape cs with
  | false => rfl
  | true =>
    have hle : d.escape.length ≤ cs.length := by
      have hlength := congrArg List.length (append_drop_of_startsWith hescape)
      rw [List.length_append] at hlength
      omega
    rw [List.drop_append_of_le_length hle, h.peek_append (· == '(') rfl]

/-- Lines behind make an escape introducer no longer a bare one. -/
theorem atBareEscape_append (cs : Text) : d.atBareEscape (cs ++ us) = false := by
  rw [atBareEscape, beq_eq_false_iff_ne]
  intro heq
  obtain ⟨more, rfl⟩ := h.starts
  exact d.newline_not_mem_escape (by rw [← heq]; simp)

/-- A segment that does not reach the end is the same with lines behind, if the text does not end
with an escape introducer. -/
theorem segmentLength_append {cs : Text} (hbare : ¬d.escape <:+ cs)
    (hcs : d.segmentLength cs < cs.length) : d.segmentLength (cs ++ us) = d.segmentLength cs := by
  have hends {c : Char} {cs : Text} : (d.contentEnds (c :: (cs ++ us))
      || startsWith (c :: (cs ++ us)) d.closer) =
          (d.contentEnds (c :: cs) || startsWith (c :: cs) d.closer) := by
    rw [← List.cons_append, d.contentEnds_append (List.cons_ne_nil c cs),
      d.startsWith_closer_append h]
  have hescapes {c : Char} {cs : Text} : d.atEscape (c :: (cs ++ us)) = d.atEscape (c :: cs) :=
    d.atEscape_append h (c :: cs)
  have hstops {c : Char} {cs : Text} : (d.atInterpolation (c :: (cs ++ us))
      || d.atBareEscape (c :: (cs ++ us))) = d.atInterpolation (c :: cs) := by
    rw [← List.cons_append, d.atInterpolation_append h, d.atBareEscape_append h, Bool.or_false]
  fun_induction d.segmentLength cs with
  | case1 => exact absurd hcs (Nat.lt_irrefl _)
  | case2 c cs hend => rw [List.cons_append, segmentLength, hends, if_pos hend]
  | case3 c cs hend hescape hstop =>
    have hinterpolation : d.atInterpolation (c :: cs) := by
      rcases Bool.or_eq_true _ _ |>.mp hstop with hyes | hbare'
      · exact hyes
      · exact absurd (beq_iff_eq.mp hbare' ▸ List.suffix_rfl) hbare
    rw [List.cons_append, segmentLength, hends, hescapes, hstops, if_neg hend, if_pos hescape,
      if_pos hinterpolation]
  | case4 c cs hend hescape hstop behind hidden ih =>
    obtain ⟨hinterpolation, hbare'⟩ := Bool.or_eq_false_iff.mp (Bool.eq_false_iff.mpr hstop)
    have hrest : d.escape ++ behind = c :: cs := by
      have hdrop := append_drop_of_startsWith hescape
      rwa [show d.escape.length = d.pounds + 1 by simp [escape], List.drop_succ_cons] at hdrop
    -- an escape that is hidden has something behind it, or it would be a bare one
    have hbehind : behind ≠ [] := by
      intro hnil
      rw [hnil, List.append_nil] at hrest
      rw [atBareEscape, ← hrest, beq_self_eq_true] at hbare'
      cases hbare'
    have hlength : d.pounds + behind.length = cs.length := by
      simpa [escape, Nat.add_right_comm] using congrArg List.length hrest
    have hdrop : (cs ++ us).drop d.pounds = behind ++ us :=
      List.drop_append_of_le_length (by omega)
    have hhidden : hidden ≤ behind.length := by
      have hpos := List.length_pos_iff.mpr hbehind
      unfold hidden
      split <;> omega
    have hsuffix : behind.drop hidden <:+ c :: cs :=
      (List.drop_suffix _ _).trans ((List.drop_suffix _ _).trans (List.suffix_cons c cs))
    rw [List.length_cons] at hcs
    have hsegment := ih (fun hescape => hbare (hescape.trans hsuffix)) (by
      rw [List.length_drop]
      omega)
    rw [List.cons_append, segmentLength, hends, hescapes, hstops, if_neg hend, if_pos hescape,
      if_neg (Bool.eq_false_iff.mp hinterpolation)]
    simp only [hdrop, d.contentEnds_append hbehind us]
    show 1 + d.pounds + hidden + d.segmentLength ((behind ++ us).drop hidden) = _
    rw [List.drop_append_of_le_length hhidden, hsegment]
  | case5 c cs hend hescape ih =>
    rw [List.length_cons] at hcs
    rw [List.cons_append, segmentLength, hends, hescapes, if_neg hend, if_neg hescape,
      ih (fun hsuffix => hbare (hsuffix.trans (List.suffix_cons c cs))) (by omega)]

/-- Opening delimiters do not break the line either. -/
theorem ofText?_append (cs : Text) : ofText? (cs ++ us) = ofText? cs := by
  have hpounds : countLeading '#' (cs ++ us) = countLeading '#' cs :=
    h.countLeading_append (by decide) cs
  have hdrop : (cs ++ us).drop (countLeading '#' cs) = cs.drop (countLeading '#' cs) ++ us :=
    List.drop_append_of_le_length (countLeading_le '#' cs)
  simp only [ofText?, hpounds, hdrop]
  generalize cs.drop (countLeading '#' cs) = rest
  rw [h.peek_append (· == '\'') rfl, h.peek_append (· == '"') rfl, h.startsWith_append (by decide)]
  cases rest with
  | nil => rfl
  | cons c rest => rw [List.cons_append, List.tail_cons, List.tail_cons, h.restOfLine_append]

end Delimiter

/-! ## Ordinary tokens -/

namespace Token

theorem operatorLength_le (dotted : Bool) (cs : Text) : operatorLength dotted cs ≤ cs.length := by
  induction cs with
  | nil => exact Nat.le_refl 0
  | cons c cs ih =>
    rw [operatorLength]
    split
    · exact Nat.zero_le _
    · exact Nat.succ_le_succ ih

theorem nameLength_le (cs : Text) : nameLength cs ≤ cs.length := (List.takeWhile_prefix _).length_le

/-- Behind a character that hides nothing, a regular expression goes on or ends. -/
theorem regexBodyLength?_cons {pounds : Nat} {c : Char} (hc : c ≠ '\\') (cs : Text) :
    regexBodyLength? pounds (c :: cs) =
      if pounds == 0 && isLineBreak c then none
      else if c == '/' && pounds ≤ countLeading '#' cs then some 0
      else (regexBodyLength? pounds cs).map (· + 1) := by
  rw [regexBodyLength?]
  · exact fun h _ => hc h
  · exact fun _ _ h _ => hc h

/-- A regular expression is closed by a slash. -/
theorem regexBodyLength?_eq_none {pounds : Nat} {cs : Text} (hcs : '/' ∉ cs) :
    regexBodyLength? pounds cs = none := by
  fun_induction regexBodyLength? pounds cs with
  | case1 => rfl
  | case2 => rfl
  | case3 c cs ih => simp_all
  | case4 => rfl
  | case5 => simp_all
  | case6 => simp_all

variable {us : Text} (h : us.IsNewLine)

include h

/-! ### Numbers -/

theorem digitsLength_append (cs : Text) : digitsLength (cs ++ us) = digitsLength cs :=
  congrArg List.length (h.takeWhile_append rfl cs)

theorem hexDigitsLength_append (cs : Text) : hexDigitsLength (cs ++ us) = hexDigitsLength cs :=
  congrArg List.length (h.takeWhile_append rfl cs)

/-- The exponent of a number ends at a line break. -/
theorem exponentLength_append (cs : Text) : exponentLength (cs ++ us) = exponentLength cs := by
  cases cs with
  | nil =>
    obtain ⟨more, rfl⟩ := h.starts
    rfl
  | cons c cs =>
    have hsign : (second (c :: cs ++ us) == '-' || second (c :: cs ++ us) == '+')
        = (second (c :: cs) == '-' || second (c :: cs) == '+') :=
      h.peek_append (fun d => d == '-' || d == '+') rfl cs
    have hmore {k : Nat} (hk : k ≤ cs.length) : digitsLength ((c :: cs ++ us).drop (1 + k))
        = digitsLength ((c :: cs).drop (1 + k)) := by
      rw [List.drop_append_of_le_length (by rw [List.length_cons]; omega), digitsLength_append h]
    have hk : (if second (c :: cs) == '-' || second (c :: cs) == '+' then 1 else 0) ≤
      cs.length := by
      split
      · rename_i hyes
        exact List.length_pos_iff.mpr (ne_nil_of_peek (p := fun d => d == '-' || d == '+') hyes rfl)
      · exact Nat.zero_le _
    simp only [exponentLength, hsign, hmore hk]
    rfl

/-- So does what stands behind the digits of a decimal number. -/
theorem decimal_append {n : Nat} {cs : Text} (hn : n ≤ cs.length) :
    decimal n (cs ++ us) = decimal n cs := by
  simp only [decimal, List.drop_append_of_le_length hn]
  generalize cs.drop n = rest
  cases rest with
  | nil =>
    obtain ⟨more, rfl⟩ := h.starts
    rfl
  | cons d ds =>
    have hdigit : (second (d :: ds ++ us)).isDigit = (second (d :: ds)).isDigit :=
      h.peek_append Char.isDigit rfl ds
    have hle : digitsLength ds ≤ ds.length := (List.takeWhile_prefix _).length_le
    have hfraction :
      (d :: ds ++ us).drop (1 + digitsLength ds) = (d :: ds).drop (1 + digitsLength ds) ++ us :=
      List.drop_append_of_le_length (by rw [List.length_cons]; omega)
    have htail : digitsLength (d :: ds ++ us).tail = digitsLength (d :: ds).tail :=
      digitsLength_append h ds
    have hexponent := exponentLength_append h (d :: ds)
    rw [hdigit, htail, List.tail_cons, hfraction, exponentLength_append h, hexponent]
    rfl

/-- A number has the same kind and length with lines behind: every one of its parts ends at a line
break. -/
theorem number_append (c : Char) (cs : Text) : number c (cs ++ us) = number c cs := by
  have hle : digitsLength cs ≤ cs.length := (List.takeWhile_prefix _).length_le
  rw [number, h.peek_append (fun d => d == 'b' || d == 'o') rfl, h.peek_append (· == 'x') rfl,
    digitsLength_append h, decimal_append h hle, number]
  split
  · rename_i hradix
    have hcs : cs ≠ [] :=
      ne_nil_of_peek (p := fun d => d == 'b' || d == 'o') (Bool.and_eq_true _ _ |>.mp hradix).2 rfl
    rw [List.tail_append_of_ne_nil hcs, digitsLength_append h]
  · split
    · rename_i hradix
      have hcs : cs ≠ [] :=
        ne_nil_of_peek (p := (· == 'x')) (Bool.and_eq_true _ _ |>.mp hradix).2 rfl
      rw [List.tail_append_of_ne_nil hcs, hexDigitsLength_append h]
    · rfl

/-! ### Regular expressions, placeholders and quoted names -/

/-- A regular expression does not go on in the lines behind, for they have no slash that would close
it. -/
theorem regexBodyLength?_append (pounds : Nat) (cs : Text) :
    regexBodyLength? pounds (cs ++ us) = regexBodyLength? pounds cs := by
  have hpounds {cs : Text} : countLeading '#' (cs ++ us) = countLeading '#' cs :=
    h.countLeading_append (by decide) cs
  have ne_backslash {c : Char} {cs : Text} (hnil : c = '\\' → cs = [] → False)
      (hcons : ∀ d ds, c = '\\' → cs = d :: ds → False) : c ≠ '\\' := by
    intro hc
    cases cs with
    | nil => exact hnil hc rfl
    | cons d ds => exact hcons d ds hc rfl
  fun_induction regexBodyLength? pounds cs with
  | case1 => exact regexBodyLength?_eq_none h.slash
  | case2 =>
    obtain ⟨more, rfl⟩ := h.starts
    have hslash : '/' ∉ more := fun hmem => h.slash (List.mem_cons_of_mem _ hmem)
    show (regexBodyLength? pounds more).map (· + 2) = none
    rw [regexBodyLength?_eq_none hslash]
    rfl
  | case3 c cs ih =>
    show (regexBodyLength? pounds (cs ++ us)).map (· + 2) = _
    rw [ih]
  | case4 c cs hnil hcons hbreak =>
    rw [List.cons_append, regexBodyLength?_cons (ne_backslash hnil hcons), if_pos hbreak]
  | case5 c cs hnil hcons hbreak hclose =>
    rw [List.cons_append, regexBodyLength?_cons (ne_backslash hnil hcons), if_neg hbreak, hpounds,
      if_pos hclose]
  | case6 c cs hnil hcons hbreak hclose ih =>
    rw [List.cons_append, regexBodyLength?_cons (ne_backslash hnil hcons), if_neg hbreak, hpounds,
      if_neg hclose, ih]

theorem regexLength?_append (pounds : Nat) (cs : Text) :
    regexLength? pounds (cs ++ us) = regexLength? pounds cs := by
  rw [regexLength?, regexBodyLength?_append h, regexLength?]

/-- Whether a regular expression may start can be told from the token before it and the next
character. -/
theorem regexAllowed_append (prev : Option Token) (cs : Text) :
    regexAllowed prev (cs ++ us) = regexAllowed prev cs := by
  have hpeek := h.peek_append (fun c => !isBlank c && c != '\x00') rfl cs
  rw [regexAllowed, hpeek, regexAllowed]

theorem quotedName_append (cs : Text) : quotedName (cs ++ us) = quotedName cs := by
  rw [quotedName, h.restOfLine_append, quotedName]

/-! ### Operators -/

/-- The characters of an operator are all on one line. -/
theorem operatorLength_append_line (dotted : Bool) (cs : Text) :
    operatorLength dotted (cs ++ us) = operatorLength dotted cs := by
  induction cs with
  | nil =>
    obtain ⟨more, rfl⟩ := h.starts
    rfl
  | cons c cs ih =>
    rw [List.cons_append, operatorLength, operatorLength, ih,
      h.peek_append (fun d => d == '/' || d == '*') rfl, h.peek_append (· == '#') rfl]

/-- Whether an operator is bound on its right is told by the character behind it, and a line break
tells as much as the end of the text. -/
theorem rightBound_append (left : Bool) (cs : Text) :
    rightBound left (cs ++ us) = rightBound left cs := by
  cases cs with
  | nil =>
    obtain ⟨more, rfl⟩ := h.starts
    rfl
  | cons c cs =>
    have hsecond : (second (c :: cs ++ us) == '/' || second (c :: cs ++ us) == '*')
        = (second (c :: cs) == '/' || second (c :: cs) == '*') :=
      h.peek_append (fun d => d == '/' || d == '*') rfl cs
    rw [rightBound, hsecond]
    rfl

/-- So an operator has the same kind and length with lines behind. -/
theorem operator_append (prev : Option Token) (leading : Trivia) (c : Char) (cs : Text) :
    operator prev leading c (cs ++ us) = operator prev leading c cs := by
  have hle := operatorLength_le (c == '.') cs
  simp only [operator, operatorLength_append_line h, List.take_append_of_le_length hle,
    List.drop_append_of_le_length hle, rightBound_append h]

/-! ### The token at the front of a text -/

/-- What a number sign starts is a regular expression, a word, or the sign alone, and each of them
ends before the lines behind. -/
theorem poundWord_append (cs : Text) : poundWord (cs ++ us) = poundWord cs := by
  have hpounds : countLeading '#' (cs ++ us) = countLeading '#' cs :=
    h.countLeading_append (by decide) cs
  have hslash : (nth (cs ++ us) (countLeading '#' cs) == '/') =
    (nth cs (countLeading '#' cs) == '/') := by
    rw [nth, List.drop_append_of_le_length (countLeading_le '#' cs),
      h.peek_append (· == '/') rfl, nth]
  have hregex : (if nth cs (countLeading '#' cs) == '/' then
        regexLength? (countLeading '#' cs + 1) ((cs ++ us).drop (countLeading '#' cs + 1))
          else none)
      = if nth cs (countLeading '#' cs) == '/' then
        regexLength? (countLeading '#' cs + 1) (cs.drop (countLeading '#' cs + 1)) else none := by
    split
    · rename_i hyes
      have hne : cs.drop (countLeading '#' cs) ≠ [] := ne_nil_of_peek (p := (· == '/')) hyes rfl
      have hle : countLeading '#' cs + 1 ≤ cs.length := by
        have hpos := List.length_pos_iff.mpr hne
        rw [List.length_drop] at hpos
        omega
      rw [List.drop_append_of_le_length hle, regexLength?_append h]
    · rfl
  have hname : nameLength (cs ++ us) = nameLength cs :=
    congrArg List.length (h.takeWhile_append (p := isNameChar) rfl cs)
  simp only [poundWord, hpounds, hslash, hregex, hname, h.peek_append isNameStart rfl,
    List.take_append_of_le_length (nameLength_le cs)]

/-- What `<#` starts is a placeholder, which ends on its line, or an operator. -/
theorem placeholder_append (prev : Option Token) (leading : Trivia) {cs : Text} (hcs : cs ≠ []) :
    placeholder prev leading (cs ++ us) = placeholder prev leading cs := by
  rw [placeholder, List.tail_append_of_ne_nil hcs, h.restOfLine_append, operator_append h,
    placeholder]

/-- What is read as a token is the same with lines behind. -/
theorem plain_append (prev : Option Token) (leading : Trivia) (c : Char) (cs : Text) :
    plain prev leading c (cs ++ us) = plain prev leading c cs := by
  have hname : nameLength (cs ++ us) = nameLength cs :=
    congrArg List.length (h.takeWhile_append (p := isNameChar) rfl cs)
  unfold plain
  split
  case h_12 => exact poundWord_append h cs
  case h_13 => exact quotedName_append h cs
  case h_14 => rw [hname]
  case h_15 =>
    simp only [number_append h, h.peek_append (· == '#') rfl, regexAllowed_append h,
      regexLength?_append h, operator_append h, hname,
      List.take_append_of_le_length (nameLength_le cs)]
    split
    · rfl
    · split
      · rename_i hat
        have hcs : cs ≠ [] :=
          ne_nil_of_peek (p := (· == '#')) (Bool.and_eq_true _ _ |>.mp hat).2 rfl
        exact placeholder_append h prev leading hcs
      · rfl
  all_goals rfl

end Token

end SwiftTree
