import SwiftTree.Proofs.Evaluation
import SwiftTree.Proofs.TokenEnds

/-!
# Texts that are read as they were written

A list of tokens is read back from its own text if every one of them is what the tokenizer makes of
the text that starts there. That is checked with everything behind the token present
(`Token.ReadsBefore`), so that it cannot run on into the next one, and behind the token that was
made before it, which decides whether an operator touches what it belongs to. A list in which each
token is read (`Token.Reads`) is the stream of its text (`Token.stream_of_reads`).

The second half says what is read as a token on its own: names, punctuation, and the operators that
types are written with.
-/

namespace SwiftTree

open Text

namespace Token

/-- Whether a token is read, behind the token `prev`, from a text that consists of it and of `rest`.
No trivia leads it, and what trails it ends before `rest`. -/
structure ReadsBefore (prev : Option Token) (t : Token) (rest : Text) : Prop where
  leading : t.leading = []
  trailing : Trivia.scan .trailing (t.trailing.text ++ rest) = (t.trailing, rest)
  front : ∃ c cs, t.text = c :: cs ∧
    Trivia.piece? .leading c (cs ++ (t.trailing.text ++ rest)) = none ∧
    Delimiter.ofText? (c :: (cs ++ (t.trailing.text ++ rest))) = none ∧
    plain prev [] c (cs ++ (t.trailing.text ++ rest)) = (t.kind, cs.length)

/-- Whether a token is the next one that is read, behind the token `prev`, from a text that consists
of it and of `rest`. It keeps the trivia before it. -/
structure IsNext (prev : Option Token) (t : Token) (rest : Text) : Prop where
  leading : Trivia.scan .leading (t.full ++ rest) = (t.leading, t.text ++ (t.trailing.text ++ rest))
  trailing : Trivia.scan .trailing (t.trailing.text ++ rest) = (t.trailing, rest)
  front : ∃ c cs, t.text = c :: cs ∧
    Delimiter.ofText? (c :: (cs ++ (t.trailing.text ++ rest))) = none ∧
    plain prev t.leading c (cs ++ (t.trailing.text ++ rest)) = (t.kind, cs.length)

/-- A token that is read where it stands is the next one that the tokenizer makes. -/
theorem ReadsBefore.isNext {prev : Option Token} {t : Token} {rest : Text}
    (h : ReadsBefore prev t rest) :
    IsNext prev t rest := by
  obtain ⟨hleading, htrailing, c, cs, htext, hpiece, hquote, hplain⟩ := h
  refine ⟨?_, htrailing, c, cs, htext, hquote, hleading ▸ hplain⟩
  have hfull : t.full ++ rest = c :: (cs ++ (t.trailing.text ++ rest)) := by
    rw [full, hleading, htext]
    simp
  rw [hfull, Trivia.scan, hpiece, hleading, htext, List.cons_append]

/-- Whether each of the tokens behind `prev` is read from the text of the list. -/
inductive Reads : Option Token → List Token → Prop where
  | nil {prev : Option Token} : Reads prev []
  | cons {prev : Option Token} {t : Token} {ts : List Token} :
      ReadsBefore prev t (fullText ts) → Reads (some t) ts → Reads prev (t :: ts)

end Token

namespace Tokenizer

open Token

variable {s : Tokenizer}

/-- The next token is the one that a step makes. -/
theorem step_of_isNext {t : Token} {rest : Text} (h : IsNext s.tokens.head? t rest)
    (hmodes : s.modes = []) (hleading : s.leading = []) (hrest : s.rest = t.full ++ rest) :
    s.step = .inl { s with rest, tokens := t :: s.tokens } := by
  obtain ⟨text, rest', modes, leading, tokens⟩ := s
  obtain rfl : modes = [] := hmodes
  obtain rfl : leading = [] := hleading
  obtain ⟨hscan, htrailing, c, cs, htext, hquote, hplain⟩ := h
  have hbehind : t.text ++ (t.trailing.text ++ rest) = c :: (cs ++ (t.trailing.text ++ rest)) := by
    rw [htext, List.cons_append]
  have hdrop : (c :: (cs ++ (t.trailing.text ++ rest))).drop (cs.length + 1) =
    t.trailing.text ++ rest := by
    rw [List.drop_succ_cons, List.drop_left]
  have htake : (c :: (cs ++ (t.trailing.text ++ rest))).take (cs.length + 1) = t.text := by
    rw [List.take_succ_cons, List.take_left, htext]
  -- the trivia in front is skipped, then the token is read, and the trivia behind it goes with it
  have hskip : (⟨text, rest', [], [], tokens⟩ : Tokenizer).skipTrivia
      = ⟨text, c :: (cs ++ (t.trailing.text ++ rest)), [], t.leading, tokens⟩ := by
    rw [skipTrivia, show rest' = t.full ++ rest from hrest, hscan, hbehind]
    rfl
  rw [step]
  simp only [hskip]
  simp only [normalPart, hquote]
  rw [hplain, emit]
  have hnone : (Tokenizer.inString ⟨text, c :: (cs ++ (t.trailing.text ++ rest)),
      modesBehind t.kind [], t.leading, tokens⟩) = false := rfl
  simp only [hnone, Bool.false_eq_true, if_false, hdrop, htake, htrailing]
  rfl

/-- A token that is read is the one that a step makes. -/
theorem step_of_readsBefore {t : Token} {rest : Text} (h : ReadsBefore s.tokens.head? t rest)
    (hmodes : s.modes = []) (hleading : s.leading = []) (hrest : s.rest = t.full ++ rest) :
    s.step = .inl { s with rest, tokens := t :: s.tokens } :=
  step_of_isNext h.isNext hmodes hleading hrest

/-- At the end of the text, the end of the file is the last token. -/
theorem step_nil (hmodes : s.modes = []) (hleading : s.leading = []) (hrest : s.rest = []) :
    s.step = .inr (s.tokens.reverse ++ [⟨[], .endOfFile, [], []⟩]) := by
  obtain ⟨text, rest, modes, leading, tokens⟩ := s
  obtain rfl : modes = [] := hmodes
  obtain rfl : leading = [] := hleading
  obtain rfl : rest = [] := hrest
  have hscan : ∀ side, Trivia.scan side [] = ([], []) := fun side => by rw [Trivia.scan]
  simp [step, skipTrivia, emit, inString, hscan]

/-- A list that is read is what a run makes of its text. -/
theorem run_of_reads {ts : List Token} {prev : Option Token} (h : Reads prev ts)
    (hmodes : s.modes = []) (hleading : s.leading = []) (hrest : s.rest = fullText ts)
    (hprev : s.tokens.head? = prev) :
    s.run = s.tokens.reverse ++ (ts ++ [⟨[], .endOfFile, [], []⟩]) := by
  induction h generalizing s with
  | nil => rw [run_of_inr (step_nil hmodes hleading hrest), List.nil_append]
  | cons ht _ ih =>
    subst hprev
    rw [run_of_inl (step_of_readsBefore ht hmodes hleading hrest)]
    have hrun := ih (s := { s with rest := _, tokens := _ :: s.tokens }) hmodes hleading rfl rfl
    rw [hrun, List.reverse_cons, List.append_assoc]
    rfl

end Tokenizer

namespace Token

/-- **A list that is read is the stream of its text**, without the end of the file. So the tokens of
a text that is put together of parts can be found part by part. -/
theorem stream_of_reads {ts : List Token} (h : Reads none ts) :
    stream (fullText ts) = ts ++ [⟨[], .endOfFile, [], []⟩] := by
  rw [stream, Tokenizer.run_of_reads h rfl rfl rfl rfl]
  rfl

/-! ## The front of a token -/

/-- A character that starts a token, neither trivia nor a literal. So does the end of a text. -/
def isFront (c : Char) : Bool := !isBlank c && !"/#'\"".toList.contains c

/-- The front of a token is no blank, and none of the characters that start a comment or a
literal. -/
theorem isFront_spec {c : Char} (h : isFront c) :
    isBlank c = false ∧ c ≠ '/' ∧ c ≠ '#' ∧ c ≠ '\'' ∧ c ≠ '"' := by
  rw [isFront, Bool.and_eq_true, Bool.not_eq_true', Bool.not_eq_true'] at h
  simpa using h

/-- No trivia starts where a token does. -/
theorem piece?_eq_none {side : Trivia.Side} {c : Char} (h : isFront c) (cs : Text) :
    Trivia.piece? side c cs = none := by
  obtain ⟨hblank, hslash, -⟩ := isFront_spec h
  have hne {d : Char} (hd : isBlank d) : (c == d) = false := by
    rw [beq_eq_false_iff_ne]
    rintro rfl
    rw [hd] at hblank
    cases hblank
  rw [Trivia.piece?, hne (d := '\n') (by decide), hne (d := '\r') (by decide),
    beq_eq_false_iff_ne.mpr hslash, hblank]
  rfl

/-- No literal starts with any other character than a quote or a number sign. -/
theorem ofText?_eq_none_of_ne {c : Char} (hpound : c ≠ '#') (hsingle : c ≠ '\'') (hdouble : c ≠ '"')
    (cs : Text) : Delimiter.ofText? (c :: cs) = none := by
  rw [Delimiter.ofText?, countLeading, beq_eq_false_iff_ne.mpr hpound]
  simp [peek, hsingle, hdouble]

/-- No literal starts with the front of an ordinary token. -/
theorem ofText?_eq_none {c : Char} (h : isFront c) (cs : Text) :
    Delimiter.ofText? (c :: cs) = none := by
  obtain ⟨-, -, hpound, hsingle, hdouble⟩ := isFront_spec h
  exact ofText?_eq_none_of_ne hpound hsingle hdouble cs

/-- The trivia behind a token that a single blank follows. -/
def blank : Trivia := [⟨.whitespace, [' ']⟩]

/-- Where a token starts, a scan for trivia finds nothing. -/
theorem scan_eq_nil {side : Trivia.Side} {rest : Text} (h : isFront (peek rest)) :
    Trivia.scan side rest = ([], rest) := by
  cases rest with
  | nil => rw [Trivia.scan]
  | cons c rest => rw [Trivia.scan, piece?_eq_none (c := c) h]

/-- A text that no trivia starts on the line of the token before it does not start with a blank. -/
theorem takeWhile_isInlineBlank {rest : Text} (h : Trivia.scan .trailing rest = ([], rest)) :
    rest.takeWhile isInlineBlank = [] := by
  cases rest with
  | nil => rfl
  | cons c rest =>
    refine List.takeWhile_cons_of_neg fun hblank => ?_
    rw [isInlineBlank, Bool.and_eq_true, Bool.not_eq_true'] at hblank
    have hslash : (c == '/') = false := by
      rw [beq_eq_false_iff_ne]
      rintro rfl
      exact absurd hblank.1 (by decide)
    have hpiece : Trivia.piece? .trailing c rest
        = some (.whitespace, (rest.takeWhile isInlineBlank).length) := by
      have hline : (c == '\n' || c == '\r') = false := hblank.2
      rw [Trivia.piece?, hline, hslash, hblank.1]
      rfl
    rw [Trivia.scan, hpiece] at h
    cases h

/-- A single blank trails a token if no other trivia follows it on the line. -/
theorem scan_blank {rest : Text} (h : Trivia.scan .trailing rest = ([], rest)) :
    Trivia.scan .trailing (' ' :: rest) = (blank, rest) := by
  have hpiece : Trivia.piece? .trailing ' ' rest
      = some (.whitespace, (rest.takeWhile isInlineBlank).length) := rfl
  rw [Trivia.scan, hpiece, takeWhile_isInlineBlank h]
  simp only [List.length_nil, List.drop_zero, List.take_zero, h]
  rfl

/-- A token is read if its characters are, behind what trails it. -/
theorem ReadsBefore.of_plain {prev : Option Token} {t : Token} {c : Char} {cs rest : Text}
    (hleading : t.leading = []) (htrailing : t.trailing = [] ∨ t.trailing = blank)
    (htext : t.text = c :: cs) (hc : isFront c) (hrest : Trivia.scan .trailing rest = ([], rest))
    (hplain : plain prev [] c (cs ++ (t.trailing.text ++ rest)) = (t.kind, cs.length)) :
    ReadsBefore prev t rest := by
  refine ⟨hleading, ?_, c, cs, htext, piece?_eq_none hc _, ofText?_eq_none hc _, hplain⟩
  rcases htrailing with h | h
  · rw [h]
    exact hrest
  · rw [h]
    exact scan_blank hrest

/-! ## Names -/

/-- No name starts with a digit, so a name is not read as a number. -/
theorem not_isDigit_of_isNameStart {c : Char} (h : isNameStart c) : c.isDigit = false := by
  rw [Bool.eq_false_iff]
  intro hdigit
  have hrange : 48 ≤ c.toNat ∧ c.toNat ≤ 57 := by
    simpa [Char.isDigit, UInt32.le_iff_toNat_le] using hdigit
  have halpha : c.isAlpha = false := by
    rw [Bool.eq_false_iff, Ne, isAlpha_iff]
    omega
  have hne : c ≠ '_' := by
    rintro rfl
    exact absurd hrange.2 (by decide)
  simp [isNameStart, halpha, hne] at h
  omega

/-- A name ends where no character follows that it could go on with. -/
theorem nameLength_append {cs rest : Text} (hcs : ∀ c ∈ cs, isNameChar c)
    (hrest : isNameChar (peek rest) = false) : nameLength (cs ++ rest) = cs.length := by
  have hnil : rest.takeWhile isNameChar = [] := by
    cases rest with
    | nil => rfl
    | cons c rest =>
      exact List.takeWhile_cons_of_neg (by simpa [peek] using hrest)
  rw [nameLength, List.takeWhile_append_of_pos hcs, hnil, List.append_nil]

/-- What starts a name starts nothing else. -/
theorem plain_of_isNameStart {prev : Option Token} {leading : Trivia} {c : Char} (h : isNameStart c)
    (cs : Text) : plain prev leading c cs =
      ((Kind.ofKeyword? (c :: cs.take (nameLength cs))).getD .identifier, nameLength cs) := by
  have hne {d : Char} (hd : isNameStart d = false) : (c == d) = false := by
    rw [beq_eq_false_iff_ne]
    rintro rfl
    rw [h] at hd
    cases hd
  unfold plain
  split
  case h_15 =>
    rw [not_isDigit_of_isNameStart h, hne (d := '<') (by decide), hne (d := '/') (by decide), h]
    rfl
  all_goals exact absurd h (by decide)

/-- A word is read as the keyword that it is, or as a name. -/
theorem plain_word {prev : Option Token} {leading : Trivia} {c : Char} {cs rest : Text}
    (hc : isNameStart c) (hcs : ∀ d ∈ cs, isNameChar d) (hrest : isNameChar (peek rest) = false) :
    plain prev leading c (cs ++ rest) =
      ((Kind.ofKeyword? (c :: cs)).getD .identifier, cs.length) := by
  rw [plain_of_isNameStart hc, nameLength_append hcs hrest, List.take_left]

/-- A quoted name is read up to the second quote. -/
theorem plain_quoted {prev : Option Token} {leading : Trivia} {cs rest : Text} (hne : cs ≠ [])
    (hcs : ∀ d ∈ cs, d ≠ '\x60' ∧ isLineBreak d = false) :
    plain prev leading '\x60' (cs ++ '\x60' :: rest) = (.identifier, cs.length + 1) := by
  -- neither the name nor its quotes break the line
  have hline : restOfLine (cs ++ '\x60' :: rest) = cs ++ '\x60' :: restOfLine rest := by
    rw [restOfLine, List.takeWhile_append_of_pos fun d hd => by simp [(hcs d hd).2]]
    rfl
  have hsplit : splitAtFirst ['\x60'] (cs ++ '\x60' :: restOfLine rest)
      = some (cs, restOfLine rest) := by
    clear hne hline
    induction cs with
    | nil => rfl
    | cons d cs ih =>
      obtain ⟨hd, hcs⟩ := List.forall_mem_cons.mp hcs
      have hstarts : startsWith (d :: (cs ++ '\x60' :: restOfLine rest)) ['\x60'] = false := by
        simp [startsWith, List.isPrefixOf, hd.1.symm]
      rw [List.cons_append, splitAtFirst, hstarts, ih hcs]
      rfl
  show quotedName (cs ++ '\x60' :: rest) = _
  rw [quotedName, hline, hsplit]
  simp [hne]

/-! ## Operators of types -/

/-- A character that ends an operator and does not touch it. -/
def endsOperator (c : Char) : Bool := ")],:\x00".toList.contains c

/-- A character that starts a type. -/
def startsType (c : Char) : Bool := isNameStart c || "\x60([".toList.contains c

/-- What no character of a text passes, none that it contains passes. -/
theorem eq_false_of_contains {p : Char → Bool} {cs : Text} (h : cs.any p = false) {c : Char}
    (hc : cs.contains c) : p c = false :=
  Bool.eq_false_iff.mpr (List.any_eq_false.mp h c (List.contains_iff_mem.mp hc))

/-- What starts a type is none of several other characters. -/
theorem not_contains_of_startsType {c : Char} (h : startsType c) {cs : Text}
    (hcs : cs.any startsType = false) : cs.contains c = false := by
  rw [Bool.eq_false_iff]
  intro hc
  rw [eq_false_of_contains hcs hc] at h
  cases h

/-- A type starts with something that can be seen. -/
theorem not_isBlank_of_startsType {c : Char} (h : startsType c) : isBlank c = false := by
  rw [startsType, Bool.or_eq_true] at h
  rcases h with h | h
  · exact not_isBlank_of_isNameStart h
  · exact eq_false_of_contains rfl h

/-- Where no character of an operator comes next, an operator has come to its end. -/
theorem operatorLength_of_not_isOperatorChar {dotted : Bool} {cs : Text}
    (h : isOperatorChar (peek cs) = false) : operatorLength dotted cs = 0 := by
  cases cs with
  | nil => rfl
  | cons c cs =>
    have hc : isOperatorChar c = false := h
    simp [operatorLength, hc]

/-- What starts a type touches what stands before it. -/
theorem rightBound_of_startsType {left : Bool} {rest : Text} (h : startsType (peek rest)) :
    rightBound left rest := by
  have hne {d : Char} (hd : startsType d = false) : (peek rest == d) = false := by
    rw [beq_eq_false_iff_ne]
    intro heq
    rw [← heq, h] at hd
    cases hd
  rw [rightBound, not_contains_of_startsType h rfl, hne (d := '.') (by decide),
    hne (d := '/') (by decide), not_isBlank_of_startsType h]
  rfl

/-- An opening angle bracket that touches a name and a type is an operator of its own. -/
theorem plain_leftAngle {prev : Option Token} {rest : Text} (hprev : leftBound prev [])
    (hrest : startsType (peek rest)) : plain prev [] '<' rest = (.binaryOperator, 0) := by
  have hop : isOperatorChar (peek rest) = false := not_contains_of_startsType hrest rfl
  have hpound : (peek rest == '#') = false := by
    rw [beq_eq_false_iff_ne]
    intro heq
    rw [heq] at hrest
    cases hrest
  have hplain : plain prev [] '<' rest =
      if peek rest == '#' then placeholder prev [] rest else operator prev [] '<' rest := rfl
  rw [hplain, hpound, if_neg Bool.false_ne_true, operator,
    operatorLength_of_not_isOperatorChar hop, hprev, List.drop_zero, rightBound_of_startsType hrest]
  rfl

/-- A closing angle bracket or a question mark. -/
def isSuffixChar (c : Char) : Bool := c == '>' || c == '?'

theorem isSuffixChar_iff {c : Char} : isSuffixChar c ↔ c = '>' ∨ c = '?' := by
  rw [isSuffixChar, Bool.or_eq_true, beq_iff_eq, beq_iff_eq]

/-- An operator of closing angle brackets and question marks ends where they do, unless another
character of an operator follows. -/
theorem operatorLength_append {cs rest : Text} (hcs : ∀ c ∈ cs, isSuffixChar c)
    (hrest : isOperatorChar (peek rest) = false) :
    operatorLength false (cs ++ rest) = cs.length := by
  induction cs with
  | nil => exact operatorLength_of_not_isOperatorChar hrest
  | cons c cs ih =>
    obtain ⟨hc, hcs⟩ := List.forall_mem_cons.mp hcs
    rw [List.cons_append, operatorLength, ih hcs]
    rcases isSuffixChar_iff.mp hc with rfl | rfl <;> rfl

/-- A run of closing angle brackets and question marks that touches what stands before it, and
nothing behind it, is one operator. -/
theorem plain_suffix {prev : Option Token} {c : Char} {cs rest : Text} (hprev : leftBound prev [])
    (hc : isSuffixChar c) (hcs : ∀ d ∈ cs, isSuffixChar d) (hrest : endsOperator (peek rest)) :
    plain prev [] c (cs ++ rest) = (.postfixOperator, cs.length) := by
  have hop : isOperatorChar (peek rest) = false := eq_false_of_contains rfl hrest
  have hright : rightBound true rest = false := by
    have hall : ")],:\x00".toList.all (")]\x7d,;:\x00".toList.contains ·) := rfl
    rw [rightBound, List.all_eq_true.mp hall _ (List.contains_iff_mem.mp hrest), if_pos rfl]
  have hlength := operatorLength_append hcs hop
  have hplain : plain prev [] c (cs ++ rest) = operator prev [] c (cs ++ rest) := by
    rcases isSuffixChar_iff.mp hc with rfl | rfl <;> rfl
  have hdotted : (c == '.') = false := by
    rcases isSuffixChar_iff.mp hc with rfl | rfl <;> rfl
  rw [hplain, operator, hdotted, hlength, hprev, List.drop_left, List.take_left, hright]
  rcases isSuffixChar_iff.mp hc with rfl | rfl
  · cases cs <;> rfl
  · cases cs <;> rfl

end Token

end SwiftTree
