import Mathlib.Data.List.TakeWhile
import SwiftTree.Proofs.Alongside
import SwiftTree.Proofs.Clean
import SwiftTree.Proofs.Entries
import SwiftTree.Proofs.Evaluation
import SwiftTree.Proofs.Literals
import SwiftTree.Proofs.TypeSyntax
import SwiftTree.View.Expression

/-!
# Raw string literals

A string on one line is written as a literal with number signs on both sides of its quotes
(`RawLiteral`). There have to be so many that the string has no quote, and no backslash, with as
many behind it; otherwise it is free to hold quotes, number signs and backslashes, also at its ends.

Such a literal is read back as it is written: its tokens are its delimiters and one segment
(`RawLiteral.stream_text`), and as an expression it is a string literal with the number of number
signs that it is written with, in which nothing is wrong (`Parse.rawLiteral_read`). What could go
wrong is that a quote or backslash near the end of the string meets the quote and the number signs
behind it. It does not, since the quote comes before the number signs
(`RawLiteral.not_startsWith_closed`).
-/

namespace SwiftTree

open Text

namespace Text

/-- Repeated characters are counted up to the first one that is another. -/
theorem countLeading_replicate_append {c : Char} {cs : Text} (h : peek cs ≠ c) (n : Nat) :
    countLeading c (List.replicate n c ++ cs) = n := by
  induction n with
  | zero =>
    cases cs with
    | nil => rfl
    | cons d cs =>
      have hd : (d == c) = false := beq_eq_false_iff_ne.mpr h
      rw [List.replicate_zero, List.nil_append, countLeading, hd]
      rfl
  | succ n ih => simp [List.replicate_succ, countLeading, ih]

theorem byteLen_replicate_pound (n : Nat) : byteLen (List.replicate n '#') = n := by
  induction n with
  | zero => rfl
  | succ n ih =>
    rw [List.replicate_succ, byteLen_cons, ih]
    exact Nat.add_comm 1 n

/-- A text with a part at its end has the part. -/
theorem hasPart_append {part : Text} (hpart : part ≠ []) (cs : Text) :
    hasPart part (cs ++ part) := by
  have hstart : startsWith part part := List.isPrefixOf_iff_prefix.mpr (List.prefix_refl _)
  induction cs with
  | nil =>
    obtain ⟨c, part, rfl⟩ := List.exists_cons_of_ne_nil hpart
    rw [List.nil_append, hasPart, splitAtFirst, if_pos hstart]
    rfl
  | cons c cs ih =>
    rw [List.cons_append, hasPart, splitAtFirst]
    split
    · rfl
    · rw [Option.isSome_map]
      exact ih

end Text

/-! ## Literals as they are written -/

/-- A string on one line, and the number of number signs to write it with. -/
structure RawLiteral where
  /-- how many number signs stand on each side -/
  pounds : Nat
  /-- the string -/
  body : Text
  /-- the string is on one line -/
  oneLine : ∀ c ∈ body, isLineBreak c = false
  /-- it has no quote with as many number signs behind it -/
  unquoted : ¬('"' :: List.replicate pounds '#') <:+: body
  /-- it has no backslash with as many number signs behind it -/
  unescaped : ¬('\\' :: List.replicate pounds '#') <:+: body

namespace RawLiteral

variable (r : RawLiteral)

/-- How the literal is delimited. -/
def delimiter : Delimiter := ⟨r.pounds, .stringQuote, Eq.refl true⟩

/-- The literal as it is written. -/
def text : Text := r.delimiter.opener ++ (r.body ++ r.delimiter.closer)

/-- The token of the number signs on one side, if there are any. -/
def poundsTokens : List Token :=
  if r.pounds = 0 then [] else [⟨[], .rawStringDelimiter, List.replicate r.pounds '#', []⟩]

/-- The token of a quote. -/
def quoteToken : Token := ⟨[], .stringQuote, ['"'], []⟩

/-- The token of the string, unless it is empty. -/
def segmentTokens : List Token := if r.body = [] then [] else [⟨[], .stringSegment, r.body, []⟩]

/-- The tokens that the literal is written for. -/
def tokens : List Token :=
  r.poundsTokens ++ quoteToken :: (r.segmentTokens ++ quoteToken :: r.poundsTokens)

variable {r}

/-! ## No delimiter before the end -/

/-- A character with the number signs of the literal behind it does not start in the string, if the
string has no part of that sort. It cannot start in the string and end in the delimiter either,
which has no more number signs than that. -/
theorem not_startsWith_closed {c : Char} (h : ¬(c :: List.replicate r.pounds '#') <:+: r.body)
    {d : Char}
    {cs : Text} (hcs : (d :: cs) <:+ r.body) :
    ¬startsWith ((d :: cs) ++ r.delimiter.closer) (c :: List.replicate r.pounds '#') := by
  intro hstarts
  obtain ⟨rest, hrest⟩ := List.isPrefixOf_iff_prefix.mp hstarts
  rcases List.append_eq_append_iff.mp hrest with ⟨more, hmore, -⟩ | ⟨more, hmore, hcloser⟩
  · -- it ends in the string
    exact h ((hmore ▸ List.prefix_append _ more : _ <+: d :: cs).isInfix.trans hcs.isInfix)
  · cases more with
    | nil =>
      rw [List.append_nil] at hmore
      exact h (hmore ▸ hcs.isInfix)
    | cons q more =>
      -- it would have the closing quote among its number signs
      obtain rfl : '"' = q := (List.cons.inj hcloser).1
      have hmem : '"' ∈ List.replicate r.pounds '#' := by
        rw [List.cons_append] at hmore
        rw [(List.cons.inj hmore).2]
        exact List.mem_append_right _ List.mem_cons_self
      exact absurd (List.eq_of_mem_replicate hmem) (by decide)

theorem contentEnds_eq_false {d : Char} {cs : Text} (hcs : (d :: cs) <:+ r.body) :
    r.delimiter.contentEnds ((d :: cs) ++ r.delimiter.closer) = false :=
  r.oneLine d (hcs.subset List.mem_cons_self)

theorem not_atEscape {d : Char} {cs : Text} (hcs : (d :: cs) <:+ r.body) :
    ¬r.delimiter.atEscape ((d :: cs) ++ r.delimiter.closer) :=
  not_startsWith_closed r.unescaped hcs

theorem not_atCloser {d : Char} {cs : Text} (hcs : (d :: cs) <:+ r.body) :
    ¬startsWith ((d :: cs) ++ r.delimiter.closer) r.delimiter.closer :=
  not_startsWith_closed r.unquoted hcs

theorem startsWith_closer : startsWith r.delimiter.closer r.delimiter.closer :=
  List.isPrefixOf_iff_prefix.mpr (List.prefix_refl _)

/-- Without number signs the closing delimiter is the quote alone. -/
theorem closer_of_pounds_eq_zero (h : r.pounds = 0) : r.delimiter.closer = ['"'] := by
  show '"' :: List.replicate r.pounds '#' = _
  rw [h]
  rfl

/-- The segment goes up to the closing quote. -/
theorem segmentLength_closed {cs : Text} (hcs : cs <:+ r.body) :
    r.delimiter.segmentLength (cs ++ r.delimiter.closer) = cs.length := by
  induction cs with
  | nil =>
    have hcloser := r.startsWith_closer
    obtain ⟨c, cs, hc⟩ :=
      List.exists_cons_of_ne_nil (l := r.delimiter.closer) (List.cons_ne_nil _ _)
    rw [List.nil_append, List.length_nil]
    rw [hc] at hcloser ⊢
    rw [Delimiter.segmentLength, if_pos]
    rw [hc, hcloser, Bool.or_true]
  | cons d cs ih =>
    have hcloser := not_atCloser hcs
    have hescape := not_atEscape hcs
    have hends := contentEnds_eq_false hcs
    rw [List.cons_append] at hcloser hescape hends ⊢
    rw [Delimiter.segmentLength, if_neg, if_neg hescape, ih ((List.suffix_cons d cs).trans hcs)]
    · rfl
    · rw [hends, Bool.false_or]
      exact hcloser

/-! ## The tokens -/

/-- The literal as it is written: number signs, a quote, the string, a quote, and number signs. -/
theorem text_eq :
    r.text = List.replicate r.pounds '#' ++ '"' :: (r.body ++ r.delimiter.closer) := by
  rw [text, Delimiter.opener, List.append_assoc]
  rfl

/-- The literal is told from one of several lines by its end on the same line. -/
theorem ofText?_text : Delimiter.ofText? r.text = some r.delimiter := by
  have hpounds : countLeading '#' r.text = r.pounds := by
    have hquote : peek ('"' :: (r.body ++ r.delimiter.closer)) ≠ '#' := show '"' ≠ '#' by decide
    rw [text_eq]
    exact countLeading_replicate_append hquote r.pounds
  have hrest : r.text.drop r.pounds = '"' :: (r.body ++ r.delimiter.closer) := by
    rw [text_eq, List.drop_left' List.length_replicate]
  have hline : restOfLine (r.body ++ r.delimiter.closer) = r.body ++ r.delimiter.closer := by
    refine List.takeWhile_eq_self_iff.mpr fun c hc => ?_
    rw [Bool.not_eq_true']
    rcases List.mem_append.mp hc with hc | hc
    · exact r.oneLine c hc
    · rcases List.mem_cons.mp hc with rfl | hc
      · rfl
      · rw [List.eq_of_mem_replicate hc]
        rfl
  have hpart : hasPart r.delimiter.closer (restOfLine (r.body ++ r.delimiter.closer)) := by
    rw [hline]
    exact hasPart_append (List.cons_ne_nil _ _) r.body
  have hsingle : (startsWith ('"' :: (r.body ++ r.delimiter.closer)) ['"', '"', '"']
      && (r.pounds == 0
        || !hasPart r.delimiter.closer (restOfLine (r.body ++ r.delimiter.closer)))) = false := by
    rw [hpart, Bool.not_true, Bool.or_false, Bool.and_eq_false_imp]
    intro hstarts
    refine beq_eq_false_iff_ne.mpr fun hzero => ?_
    -- without number signs a quote behind the first one closes the literal
    obtain ⟨rest, hrest⟩ := List.isPrefixOf_iff_prefix.mp hstarts
    have hbehind : '"' :: '"' :: rest = r.body ++ r.delimiter.closer := (List.cons.inj hrest).2
    have hcloser := closer_of_pounds_eq_zero hzero
    cases hbody : r.body with
    | nil =>
      rw [hbody, hcloser] at hbehind
      cases (List.cons.inj hbehind).2
    | cons d cs =>
      have hsuffix : (d :: cs) <:+ r.body := hbody ▸ List.suffix_rfl
      have hnot := not_atCloser hsuffix
      rw [← hbody, ← hbehind, hcloser] at hnot
      exact hnot rfl
  unfold Delimiter.ofText?
  dsimp only
  rw [hpounds, hrest]
  exact (if_neg Bool.false_ne_true).trans
    ((if_pos rfl).trans (if_neg (Bool.eq_false_iff.mp hsingle)))

/-- There is no trivia before the literal. -/
theorem skipTrivia_text : (Tokenizer.start r.text).skipTrivia = Tokenizer.start r.text ∧
    ∃ c cs, r.text = c :: cs := by
  obtain ⟨c, cs, hcons, hpiece⟩ : ∃ c cs,
    r.text = c :: cs ∧ Trivia.piece? .leading c cs = none := by
    rw [text_eq]
    cases r.pounds with
    | zero => exact ⟨_, _, rfl, rfl⟩
    | succ n => exact ⟨_, _, rfl, rfl⟩
  have hscan : Trivia.scan .leading r.text = ([], r.text) := by
    rw [hcons, Trivia.scan, hpiece]
  refine ⟨?_, c, cs, hcons⟩
  rw [Tokenizer.skipTrivia, Tokenizer.start, hscan]
  rfl

/-- What is in the literal is read behind its opening. -/
def inside (r : RawLiteral) (rest : Text) (tokens : List Token) : Tokenizer where
  text := r.text
  rest := rest
  modes := [.string r.delimiter 0]
  tokens := tokens

/-- Behind the opening of the literal, a part of what is left becomes a token of its own, without
trivia on either side. -/
theorem emit_inside (part behind : Text) (kind : Kind) (tokens : List Token) :
    (r.inside (part ++ behind) tokens).emit kind part.length
      = r.inside behind (⟨[], kind, part, []⟩ :: tokens) := by
  have hdrop : (part ++ behind).drop part.length = behind := List.drop_left
  have htake : (part ++ behind).take part.length = part := List.take_left
  rw [Tokenizer.emit_of_string rfl]
  unfold inside
  rw [hdrop, htake]

/-- At the front of the text the literal is opened, and what is left is the string and the closing
delimiter. -/
theorem openString_text : (Tokenizer.start r.text).openString r.delimiter
    = r.inside (r.body ++ r.delimiter.closer) (quoteToken :: r.poundsTokens) := by
  have htext := r.text_eq
  have hquote := r.emit_inside ['"'] (r.body ++ r.delimiter.closer) .stringQuote
  unfold Tokenizer.openString poundsTokens
  dsimp only
  by_cases hpounds : r.pounds = 0
  · rw [if_pos hpounds, if_pos (show r.delimiter.pounds = 0 from hpounds)]
    rw [hpounds] at htext
    exact (congrArg (fun rest => (r.inside rest []).emit .stringQuote 1) htext).trans (hquote [])
  · have hopened := r.emit_inside (List.replicate r.pounds '#')
      ('"' :: (r.body ++ r.delimiter.closer))
      .rawStringDelimiter []
    rw [← htext, List.length_replicate] at hopened
    rw [if_neg hpounds, if_neg (show ¬r.delimiter.pounds = 0 from hpounds)]
    exact (congrArg (fun s => Tokenizer.emit s .stringQuote 1) hopened).trans (hquote _)

/-- The string, if there is one, is read up to the closing quote. -/
theorem run_inside_body (tokens : List Token) :
    (r.inside (r.body ++ r.delimiter.closer) tokens).run
      = (r.inside r.delimiter.closer (r.segmentTokens ++ tokens)).run := by
  unfold segmentTokens
  cases hbody : r.body with
  | nil => rfl
  | cons d cs =>
    have hsuffix : (d :: cs) <:+ r.body := hbody ▸ List.suffix_rfl
    have hescape := not_atEscape hsuffix
    have hinterpolation : ¬r.delimiter.atInterpolation ((d :: cs) ++ r.delimiter.closer) := fun h =>
      hescape (Bool.and_eq_true_iff.mp h).1
    have hbare : ¬r.delimiter.atBareEscape ((d :: cs) ++ r.delimiter.closer) := fun h =>
      hescape (List.isPrefixOf_iff_prefix.mpr (beq_iff_eq.mp h ▸ List.prefix_refl _))
    have hends := Bool.eq_false_iff.mp (contentEnds_eq_false hsuffix)
    have hpart : (r.inside ((d :: cs) ++ r.delimiter.closer) tokens).stringPart r.delimiter []
        = (r.inside ((d :: cs) ++ r.delimiter.closer) tokens).emit .stringSegment
          (r.delimiter.segmentLength ((d :: cs) ++ r.delimiter.closer)) :=
      (if_neg (not_atCloser hsuffix)).trans
        ((if_neg hinterpolation).trans ((if_neg hbare).trans (if_neg hends)))
    rw [segmentLength_closed hsuffix, emit_inside] at hpart
    rw [Tokenizer.run_of_inl (Tokenizer.step_of_string rfl), hpart]
    rfl

/-- The last token of a text has no trivia behind it. -/
theorem emit_last (text part : Text) (kind : Kind) (tokens : List Token) :
    ({ text, rest := part, tokens } : Tokenizer).emit kind part.length
      = { text, rest := [], tokens := ⟨[], kind, part, []⟩ :: tokens } := by
  have hscan : Trivia.scan .trailing (part.drop part.length) = ([], []) := by
    rw [List.drop_length, Trivia.scan]
  unfold Tokenizer.emit
  rw [if_neg (show ¬({ text, rest := part, tokens } : Tokenizer).inString from Bool.false_ne_true),
    hscan, List.take_length]

/-- Behind the string the literal is closed, and the text ends. -/
theorem run_inside_closer (tokens : List Token) : (r.inside r.delimiter.closer tokens).run
    = tokens.reverse ++ quoteToken :: (r.poundsTokens ++ [⟨[], .endOfFile, [], []⟩]) := by
  have hclose : (r.inside r.delimiter.closer tokens).closeString r.delimiter []
      = { text := r.text, rest := [], tokens := r.poundsTokens ++ quoteToken :: tokens } := by
    unfold Tokenizer.closeString poundsTokens
    by_cases hpounds : r.pounds = 0
    · rw [if_pos hpounds, if_pos (show r.delimiter.pounds = 0 from hpounds),
        closer_of_pounds_eq_zero hpounds]
      exact emit_last r.text ['"'] .stringQuote tokens
    · have hquote := r.emit_inside ['"'] (List.replicate r.pounds '#') .stringQuote tokens
      have hlast := emit_last r.text (List.replicate r.pounds '#') .rawStringDelimiter
        (quoteToken :: tokens)
      rw [List.length_replicate] at hlast
      rw [if_neg hpounds, if_neg (show ¬r.delimiter.pounds = 0 from hpounds)]
      exact (congrArg (fun s => Tokenizer.emit { s with modes := [] } .rawStringDelimiter r.pounds)
        hquote).trans hlast
  have hpart : (r.inside r.delimiter.closer tokens).stringPart r.delimiter [] = _ :=
    (if_pos startsWith_closer).trans hclose
  have hpounds : r.poundsTokens.reverse = r.poundsTokens := by
    unfold poundsTokens
    split <;> rfl
  rw [Tokenizer.run_of_inl (Tokenizer.step_of_string rfl), hpart,
    Tokenizer.run_of_inr (Tokenizer.step_nil rfl rfl rfl)]
  simp only [List.reverse_append, List.reverse_cons, hpounds, List.append_assoc, List.cons_append,
    List.nil_append]

/-- **A literal is read as it is written:** its delimiters and one segment, or no segment if the
string is empty, and the end of the file. -/
theorem stream_text : Token.stream r.text = r.tokens ++ [⟨[], .endOfFile, [], []⟩] := by
  obtain ⟨hskip, c, cs, htext⟩ := r.skipTrivia_text
  have hstep : (Tokenizer.start r.text).step
      = .inl (r.inside (r.body ++ r.delimiter.closer) (quoteToken :: r.poundsTokens)) := by
    have hrest : (Tokenizer.start r.text).skipTrivia.rest = c :: cs := by
      rw [hskip]
      exact htext
    rw [Tokenizer.step_of_rest rfl hrest, hskip, Tokenizer.normalPart, ← htext, ofText?_text]
    exact congrArg Sum.inl openString_text
  have hreverse : (r.segmentTokens ++ quoteToken :: r.poundsTokens).reverse
      = r.poundsTokens ++ quoteToken :: r.segmentTokens := by
    unfold segmentTokens poundsTokens
    split <;> split <;> rfl
  rw [Token.stream, Tokenizer.run_of_inl hstep, run_inside_body, run_inside_closer,
    hreverse, tokens]
  simp only [List.append_assoc, List.cons_append]

/-! ## The tree -/

/-- The tree of the literal. -/
def tree (r : RawLiteral) : Green :=
  .node .stringLiteralExpr (r.poundsTokens.map .token ++ .token quoteToken ::
    .node .stringSegmentList (r.segmentTokens.map .token) :: .token quoteToken ::
      r.poundsTokens.map .token)

open Grammar Grammar.Parser

section Rules

variable {ps ss us : Ahead} {q : Lexeme} {built : Forest}

/-- The lexemes of the number signs, if there are any. -/
theorem pounds_cases (hps : ps.map Lexeme.token = r.poundsTokens) :
    r.pounds = 0 ∧ ps = [] ∨ r.pounds ≠ 0 ∧ ∃ x, ps = [x] ∧ x.kind = .rawStringDelimiter ∧
      x.text.length = r.pounds := by
  unfold poundsTokens at hps
  split at hps
  · rename_i hpounds
    exact .inl ⟨hpounds, List.map_eq_nil_iff.mp hps⟩
  · rename_i hpounds
    obtain ⟨x, rfl, hx⟩ := List.map_eq_singleton_iff.mp hps
    refine .inr ⟨hpounds, x, rfl, congrArg Token.kind hx, ?_⟩
    rw [Lexeme.text, hx, List.length_replicate]

/-- The number signs in front are counted and taken. -/
theorem opening_ends (hps : ps.map Lexeme.token = r.poundsTokens) (hq : q.kind = .stringQuote)
    (us : Ahead) (built : Forest) :
    Ahead.pounds (ps ++ q :: us) = r.pounds ∧
      (skip .rawStringDelimiter).Ends ⟨ps ++ q :: us, built⟩ ()
        ⟨q :: us, (r.poundsTokens.map .token).reverse ++ built⟩ := by
  rw [← hps]
  rcases pounds_cases hps with ⟨hpounds, rfl⟩ | ⟨-, x, rfl, hx, hlength⟩
  · have hnot : Ahead.isAt .rawStringDelimiter (q :: us) = false := by
      rw [Ahead.isAt, Ahead.kind, hq]
      rfl
    refine ⟨?_, .ifAhead_not hnot⟩
    rw [List.nil_append, Ahead.pounds, hnot, hpounds]
    rfl
  · have hat : Ahead.isAt .rawStringDelimiter (x :: q :: us) = true := beq_iff_eq.mpr hx
    refine ⟨?_, .ifAhead hat (.advance x _ built)⟩
    rw [List.singleton_append, Ahead.pounds, hat, if_pos rfl]
    exact hlength

/-- The string, if there is one, is the only segment. -/
theorem segments_ends (hss : ss.map Lexeme.token = r.segmentTokens) (hq : q.kind = .stringQuote) :
    stringSegments.Ends ⟨ss ++ q :: us, built⟩ ()
      ⟨q :: us, .node .stringSegmentList (r.segmentTokens.map .token) :: built⟩ := by
  have hsegment : Ahead.isAt .stringSegment (q :: us) = false := by
    simp [Ahead.isAt, Ahead.kind, hq]
  have hbackslash : (Ahead.isAt .backslash (q :: us) && !Ahead.atLineStart (q :: us)) = false := by
    simp [Ahead.isAt, Ahead.kind, hq]
  unfold segmentTokens at hss ⊢
  split at hss
  · rename_i hbody
    cases List.map_eq_nil_iff.mp hss
    rw [if_pos hbody]
    exact .forestNode []
      (.repeatWhile (.stop (.branch_not hsegment (.branch_not hbackslash (.pure _ _))))) rfl
  · rename_i hbody
    obtain ⟨x, rfl, hx⟩ := List.map_eq_singleton_iff.mp hss
    have hat : Ahead.isAt .stringSegment (x :: q :: us) = true :=
      beq_iff_eq.mpr (congrArg Token.kind hx)
    rw [if_neg hbody]
    refine .forestNode [.token x.token] (.repeatWhile (.again
      (.branch hat (.bind (.advance x (q :: us) []) (.pure _ _)))
      (.stop (.branch_not hsegment (.branch_not hbackslash (.pure _ _)))))) ?_
    rw [hx]
    rfl

/-- The quote and the number signs behind it are taken. -/
theorem closing_ends (hps : ps.map Lexeme.token = r.poundsTokens) (hq : q.token = quoteToken)
    (hline : q.atLineStart = false) :
    (closingQuote r.pounds ⟨.stringQuote, rfl⟩).Ends ⟨q :: ps, built⟩ ()
      ⟨[], (.token quoteToken :: r.poundsTokens.map .token).reverse ++ built⟩ := by
  have hat : (fun ts : Ahead => ts.isAt .stringQuote && !ts.atLineStart) (q :: ps) = true := by
    have hkind : q.kind = .stringQuote := congrArg Token.kind hq
    simp [Ahead.isAt, Ahead.kind, Ahead.atLineStart, hkind, hline]
  refine .branch hat (.bind (.advance q ps built) ?_)
  rw [← hps, hq]
  rcases pounds_cases hps with ⟨hpounds, rfl⟩ | ⟨hpounds, x, rfl, hx, -⟩
  · rw [onlyIf, decide_eq_false (by omega), if_neg Bool.false_ne_true]
    exact .pure _ _
  · rw [onlyIf, decide_eq_true (by omega), if_pos rfl]
    exact .require hx

/-- The literal is read as its tree. -/
theorem stringLiteral_ends {p : Lexeme} (hps : ps.map Lexeme.token = r.poundsTokens)
    (hp : p.token = quoteToken) (hss : ss.map Lexeme.token = r.segmentTokens)
    (hq : q.token = quoteToken) (hline : q.atLineStart = false)
    (hus : us.map Lexeme.token = r.poundsTokens) :
    stringLiteral.Ends ⟨ps ++ p :: (ss ++ q :: us), built⟩ () ⟨[], r.tree :: built⟩ := by
  have hpkind : p.kind = .stringQuote := congrArg Token.kind hp
  obtain ⟨hpounds, hopening⟩ :=
    opening_ends hps hpkind (ss ++ q :: us) []
  have hquote : Ahead.quote? (p :: (ss ++ q :: us)) = some ⟨.stringQuote, rfl⟩ := by
    rw [Ahead.quote?, Ahead.kind, hpkind]
  have hopened {gs : Forest} : openingQuote.Ends ⟨p :: (ss ++ q :: us), gs⟩ ⟨.stringQuote, rfl⟩
      ⟨ss ++ q :: us, .token quoteToken :: gs⟩ := by
    refine (Ends.look hquote).bind (.bind (.advance p _ gs) ?_)
    rw [hp]
    exact .pure _ _
  have hsegments {gs : Forest} : stringSegments.Ends ⟨ss ++ q :: us, gs⟩ ()
      ⟨q :: us, .node .stringSegmentList (r.segmentTokens.map .token) :: gs⟩ :=
    segments_ends hss (congrArg Token.kind hq : q.kind = .stringQuote)
  refine .forestNode _ (.bind (.look hpounds) (hopening.bind (hopened.bind (hsegments.bind
    (closing_ends hus hq hline))))) ?_
  unfold tree
  simp

end Rules

/-- Behind another token, a token without trivia in front of it does not open a line. -/
theorem not_atLineStart {endOpensLine : Bool} {pos : Nat} {prev : Token} {ts : List Token}
    {h : ∀ t ∈ ts, t.IsSolid} {x : Lexeme}
    (hx : x ∈ Lexeme.ofTokens endOpensLine pos (some prev) ts h) (hleading : x.token.leading = []) :
    x.atLineStart = false := by
  induction ts generalizing pos prev with
  | nil => cases hx
  | cons t ts ih =>
    rcases List.mem_cons.mp hx with rfl | hx
    · have ht : t.leading = [] := hleading
      show t.opensLine (some prev) = false
      rw [Token.opensLine, ht]
      rfl
    · exact ih hx

/-- The grammar sees the parts of the literal, and the closing quote does not open a line. -/
theorem exists_ofText_text : ∃ (ps ss us : Ahead) (p q : Lexeme),
    Ahead.ofText r.text = ps ++ p :: (ss ++ q :: us) ∧ ps.map Lexeme.token = r.poundsTokens ∧
      p.token = quoteToken ∧ ss.map Lexeme.token = r.segmentTokens ∧ q.token = quoteToken ∧
        q.atLineStart = false ∧ us.map Lexeme.token = r.poundsTokens := by
  obtain ⟨hts, heq⟩ := Ahead.ofText_eq r.stream_text
  have hmap := Lexeme.tokens_ofTokens (Token.lastOpensLine (Token.stream r.text)) 0 none
    r.tokens hts
  obtain ⟨ps, rest, hahead, hps, hrest⟩ := List.map_eq_append_iff.mp hmap
  obtain ⟨p, rest, rfl, hp, hrest⟩ := List.map_eq_cons_iff.mp hrest
  obtain ⟨ss, rest, rfl, hss, hrest⟩ := List.map_eq_append_iff.mp hrest
  obtain ⟨q, us, rfl, hq, hus⟩ := List.map_eq_cons_iff.mp hrest
  refine ⟨ps, ss, us, p, q, heq.trans hahead, hps, hp, hss, hq, ?_, hus⟩
  have hmem : q ∈ (Lexeme.ofTokens (Token.lastOpensLine (Token.stream r.text)) 0 none r.tokens
      hts).tail := by
    rw [hahead]
    cases ps <;> simp
  obtain ⟨t, ts, htokens⟩ : ∃ t ts, r.tokens = t :: ts := by
    unfold tokens poundsTokens
    split <;> exact ⟨_, _, rfl⟩
  revert hts
  rw [htokens]
  intro hts _ _ _ hmem
  exact not_atLineStart hmem (by rw [hq]; rfl)

/-- As an expression, the text is the literal. -/
theorem parts_text : (Entry.expression .plain).parts r.text = [r.tree] := by
  obtain ⟨ps, ss, us, p, q, hahead, hps, hp, hss, hq, hline, hus⟩ := r.exists_ofText_text
  have hliteral : stringLiteral.Ends ⟨ps ++ p :: (ss ++ q :: us), []⟩ () ⟨[], [r.tree]⟩ :=
    stringLiteral_ends hps hp hss hq hline hus
  have hfirst : ∃ k, (ps ++ p :: (ss ++ q :: us)).kind = k ∧
      (k = .rawStringDelimiter ∨ k = .stringQuote) := by
    rcases pounds_cases hps with ⟨-, rfl⟩ | ⟨-, x, rfl, hx, -⟩
    · exact ⟨_, congrArg Token.kind hp, .inr rfl⟩
    · exact ⟨_, hx, .inl rfl⟩
  obtain ⟨k, hkind, hk⟩ := hfirst
  have hprimary : (primary .plain).Ends ⟨ps ++ p :: (ss ++ q :: us), ([] : Forest)⟩ false
      ⟨[], [r.tree]⟩ := by
    refine .bind (.look hkind) (.branch_not ?_ ?_)
    · rcases hk with rfl | rfl <;> simp only [Ahead.isSomeOrAny, Ahead.isWord, Ahead.isAt,
        hkind] <;> rfl
    · rcases hk with rfl | rfl <;> exact .bind hliteral (.pure _ _)
  have hexpr := expr_ends_primary hkind (by rcases hk with rfl | rfl <;> decide) hprimary
  have hrule : (Entry.expression .plain).rule.Ends ⟨.ofText r.text, ([] : Forest)⟩ () ⟨[],
    [r.tree]⟩ := by
    rw [hahead]
    exact hexpr.bind (.skipUntil_nil _ _)
  rw [Entry.parts_of_ends hrule]
  rfl

/-- Nothing in the tree of the literal is reported. -/
theorem isClean_tree (r : RawLiteral) : r.tree.isClean := by
  have htokens (ts : List Token) : Green.allClean (ts.map .token) := by
    rw [Green.allClean_iff, List.forall_mem_map]
    exact fun t _ => Green.isClean_token t
  have hsegments : (Green.node .stringSegmentList (r.segmentTokens.map .token)).isClean := by
    rw [Green.isClean_node rfl]
    exact htokens _
  rw [tree, Green.isClean_node rfl]
  simp [htokens, hsegments]

/-- A node of the tree is viewed as a literal on one line, with the number signs that were
written. -/
theorem view_tree {v : View.StringLiteral} (hv : v.node.green = r.tree) :
    v.delimiterLen = r.pounds ∧ v.isMultiline = false := by
  obtain ⟨⟨kind, children, offset, way⟩, hform⟩ := v
  have hchildren : children = r.tree.children := congrArg Green.children hv
  subst hchildren
  unfold View.StringLiteral.delimiterLen View.StringLiteral.isMultiline tree poundsTokens
  by_cases hpounds : r.pounds = 0
  · rw [if_pos hpounds, hpounds]
    exact ⟨rfl, rfl⟩
  · rw [if_neg hpounds]
    refine ⟨?_, rfl⟩
    show Text.byteLen (Token.outline ⟨[], .rawStringDelimiter, List.replicate r.pounds '#',
      []⟩).text = _
    rw [Token.text_outline, byteLen_replicate_pound]

end RawLiteral

namespace Parse

/-- **Raw literals are read back.** A string without line breaks, written with number signs of which
no quote and no backslash in it has as many behind it, is read as its delimiters and one segment;
and as an expression it is a literal on one line with that many number signs, and nothing is wrong
with it. -/
theorem rawLiteral_read (r : RawLiteral) :
    Token.stream r.text = r.tokens ++ [⟨[], .endOfFile, [], []⟩] ∧
      (ofText (.expression .plain) r.text).diagnostics = [] ∧
        ∃ v : View.StringLiteral, (ofText (.expression .plain) r.text).root.childNodes = [v.node] ∧
          v.delimiterLen = r.pounds ∧ v.isMultiline = false := by
  refine ⟨r.stream_text, ?_, ?_⟩
  · rw [Entry.diagnostics_eq_nil_iff, Entry.isClean_tree, r.parts_text]
    simp [r.isClean_tree]
  · have hroot : (ofText (.expression .plain) r.text).root
        = .ofGreen (.node .sourceFragment [r.tree, .token (Entry.endOfFile r.text)]) := by
      rw [root, tree_ofText, Entry.tree_eq, r.parts_text]
      rfl
    rw [hroot]
    exact ⟨⟨⟨.stringLiteralExpr, r.tree.children, 0, _⟩, rfl⟩, rfl, r.view_tree rfl⟩

/-- The theorem at a string that begins with quotes, has a shorter delimiter in it, and ends with a
quote and a backslash. -/
theorem rawLiteral_read_overlapping :
    ∃ r : RawLiteral, r.text = "##\"\"\"x\"#\\#\"\\\"##".toList ∧
      (Token.stream r.text).map Token.kind = [.rawStringDelimiter, .stringQuote, .stringSegment,
        .stringQuote, .rawStringDelimiter, .endOfFile] ∧
      (ofText (.expression .plain) r.text).diagnostics = [] := by
  let r : RawLiteral :=
    ⟨2, ['"', '"', 'x', '"', '#', '\\', '#', '"',
      '\\'], by simp [isLineBreak], by decide, by decide⟩
  obtain ⟨hstream, hdiagnostics, -⟩ := rawLiteral_read r
  exact ⟨r, rfl, by rw [hstream]; rfl, hdiagnostics⟩

end Parse

end SwiftTree
