import SwiftTree.Token.Delimiter
import SwiftTree.Token.Plain
import SwiftTree.Trivia.Scan

/-!
# The tokenizer

A `Tokenizer` goes through a text step by step. It keeps a stack of modes, for literals hold
interpolations and interpolations hold literals: in a literal it looks for segments, interpolations
and the closing quote, elsewhere for trivia and ordinary tokens. Trivia in front of a token is kept
until the token is made.

When the text ends inside an interpolation, or with a bare escape introducer, the outermost literal
cannot be read. The tokenizer then takes back the tokens from its opening on, and goes back in the
text to make them one unknown token (`Tokenizer.collapse`). So a step need not make the rest of the
text shorter. `Tokenizer.size` is what every step makes smaller.
-/

namespace SwiftTree

open Text

/-- What a tokenizer is in the middle of. -/
inductive Tokenizer.Mode where
  /-- a literal, before whose opening there are `opener` tokens -/
  | string (d : Delimiter) (opener : Nat)
  /-- an interpolation, of whose parentheses `parens` are open -/
  | interpolation (parens : Nat)
deriving DecidableEq, Repr

/-- A tokenizer that has come so far. -/
structure Tokenizer where
  /-- the whole text -/
  text : Text
  /-- what is left of it -/
  rest : Text
  /-- what the tokenizer is in the middle of, the innermost first -/
  modes : List Tokenizer.Mode := []
  /-- the trivia for the next token -/
  leading : Trivia := []
  /-- the tokens so far, newest first -/
  tokens : List Token := []
deriving DecidableEq, Repr

namespace Tokenizer

/-- The number of tokens before the opening of a literal. -/
def Mode.opener? : Mode → Option Nat
  | string _ opener => some opener
  | interpolation _ => none

/-- Whether the mode is that of an interpolation. -/
def Mode.isInterpolation : Mode → Bool
  | string _ _ => false
  | interpolation _ => true

/-- The modes behind a token of a kind. Parentheses are counted in interpolations, and the one that
matches their first ends them. -/
def modesBehind (kind : Kind) : List Mode → List Mode
  | .interpolation parens :: ms =>
    if kind = .leftParen then .interpolation (parens + 1) :: ms
    else if kind = .rightParen then if parens ≤ 1 then ms else .interpolation (parens - 1) :: ms
    else .interpolation parens :: ms
  | ms => ms

/-- Whether the tokenizer is in the content of a literal, where there is no trivia. -/
def inString (s : Tokenizer) : Bool :=
  match s.modes with
  | .string _ _ :: _ => true
  | _ => false

/-- Makes a token of the next `n` characters and the trivia around them. -/
def emit (s : Tokenizer) (kind : Kind) (n : Nat) : Tokenizer :=
  let behind := if s.inString then ([], s.rest.drop n) else Trivia.scan .trailing (s.rest.drop n)
  { s with
    rest := behind.2
    leading := []
    tokens := ⟨s.leading, kind, s.rest.take n, behind.1⟩ :: s.tokens }

/-- Makes the tokens that open a literal. -/
def openString (s : Tokenizer) (d : Delimiter) : Tokenizer :=
  let s := { s with modes := .string d s.tokens.length :: s.modes }
  let s := if d.pounds = 0 then s else s.emit .rawStringDelimiter d.pounds
  s.emit d.quote d.quoteText.length

/-- Makes the tokens that close a literal, behind which the modes `ms` are left. -/
def closeString (s : Tokenizer) (d : Delimiter) (ms : List Mode) : Tokenizer :=
  if d.pounds = 0 then { s with modes := ms }.emit d.quote d.quoteText.length
  else { s.emit d.quote d.quoteText.length with modes := ms }.emit .rawStringDelimiter d.pounds

/-- Takes back everything from the opening of the outermost literal on, and makes it one unknown
token, up to the blanks at the end of the text. -/
def collapse (s : Tokenizer) : Tokenizer :=
  let abandoned := { s with modes := [], leading := [] }
  match s.modes.reverse.findSome? Mode.opener? with
  | none => abandoned
  | some opener =>
    let tokens := s.tokens.reverse
    match tokens[opener]? with
    | none => abandoned
    | some first =>
      let before := tokens.take opener
      let start := (Token.fullText before ++ first.leading.text).length
      let parts := splitTrailingBlanks (s.text.drop start)
      let behind := Trivia.scan .trailing parts.2
      { abandoned with
        rest := behind.2
        tokens := ⟨first.leading, .unknown, parts.1, behind.1⟩ :: before.reverse }

/-- Goes on in the content of a literal, outside of which the modes are `ms`. -/
def stringPart (s : Tokenizer) (d : Delimiter) (ms : List Mode) : Tokenizer :=
  if startsWith s.rest d.closer then s.closeString d ms
  else if d.atInterpolation s.rest then
    { s with modes := .interpolation 0 :: s.modes }.emit .backslash d.escape.length
  else if d.atBareEscape s.rest then s.collapse
  else if d.contentEnds s.rest then { s with modes := ms }
  else s.emit .stringSegment (d.segmentLength s.rest)

/-- Goes on with an ordinary token, or with the opening of a literal, at the character `c` before
`cs`. -/
def normalPart (s : Tokenizer) (c : Char) (cs : Text) : Tokenizer :=
  match Delimiter.ofText? (c :: cs) with
  | some d => s.openString d
  | none =>
    let (kind, more) := Token.plain s.tokens.head? s.leading c cs
    { s with modes := modesBehind kind s.modes }.emit kind (more + 1)

/-- Reads the trivia in front of a token. -/
def skipTrivia (s : Tokenizer) : Tokenizer :=
  let front := Trivia.scan .leading s.rest
  { s with leading := s.leading ++ front.1, rest := front.2 }

/-- One step: the tokenizer behind it, or all tokens at the end of the text. -/
def step (s : Tokenizer) : Tokenizer ⊕ List Token :=
  match s.modes with
  | .string d _ :: ms => .inl (s.stringPart d ms)
  | _ =>
    let s := s.skipTrivia
    match s.rest with
    | [] =>
      if s.modes.any Mode.isInterpolation then .inl s.collapse
      else .inr (s.emit .endOfFile 0).tokens.reverse
    | c :: cs => .inl (s.normalPart c cs)

/-! ## Every step makes a tokenizer smaller -/

/-- What every step makes smaller, in lexicographic order: the characters to come that are not
blank, the modes, and all characters to come. -/
def size (s : Tokenizer) : Nat × Nat × Nat := (marks s.rest, s.modes.length, s.rest.length)

/-- Behind a token there is what was there behind its characters, or less. -/
theorem rest_emit_suffix (s : Tokenizer) (kind : Kind) (n : Nat) :
    (s.emit kind n).rest <:+ s.rest.drop n := by
  unfold emit
  split
  · exact List.suffix_rfl
  · exact Trivia.scan_suffix _ _

/-- Behind a token that is written out, there is less than before. -/
theorem rest_emit_suffix_tail {s : Tokenizer} {kind : Kind} {n : Nat} (hn : 0 < n) :
    (s.emit kind n).rest <:+ s.rest.tail := by
  refine (s.rest_emit_suffix kind n).trans ?_
  rw [← List.drop_one]
  exact List.drop_suffix_drop_left _ hn

/-- The order in which steps make a tokenizer smaller. -/
def Smaller (s t : Tokenizer) : Prop := Prod.Lex (· < ·) (Prod.Lex (· < ·) (· < ·)) s.size t.size

/-- The order compares the marks that are left, then the modes, and then the characters that are
left. -/
theorem smaller_iff {s t : Tokenizer} : s.Smaller t ↔
    marks s.rest < marks t.rest ∨ marks s.rest = marks t.rest ∧
      (s.modes.length < t.modes.length ∨ s.modes.length = t.modes.length ∧
        s.rest.length < t.rest.length) := by
  rw [Smaller, Prod.lex_def, Prod.lex_def]
  rfl

theorem smaller_of_marks {s t : Tokenizer} (h : marks s.rest < marks t.rest) : s.Smaller t :=
  .left _ _ h

/-- Fewer modes make a tokenizer smaller, as long as it has no more marks. -/
theorem smaller_of_modes {s t : Tokenizer} (h : marks s.rest ≤ marks t.rest)
    (hmodes : s.modes.length < t.modes.length) : s.Smaller t := by
  rw [smaller_iff]
  omega

/-- Less text makes a tokenizer smaller, as long as it has no more modes: what is left of a text has
no more marks than the text. -/
theorem smaller_of_rest {s t : Tokenizer} (h : s.rest <:+ t.rest)
    (hlength : s.rest.length < t.rest.length) (hmodes : s.modes.length ≤ t.modes.length) :
    s.Smaller t := by
  have hmarks := marks_le_of_suffix h
  rw [smaller_iff]
  omega

/-- Reading trivia first does no harm. -/
theorem Smaller.skipTrivia {s t : Tokenizer} (h : s.Smaller t.skipTrivia) : s.Smaller t := by
  have hsuffix : t.skipTrivia.rest <:+ t.rest := Trivia.scan_suffix _ _
  have hmarks := marks_le_of_suffix hsuffix
  have hlength := hsuffix.length_le
  have hmodes : t.skipTrivia.modes.length = t.modes.length := rfl
  rw [smaller_iff] at h ⊢
  omega

/-- A token that starts with a character that is not blank makes a tokenizer smaller, whatever the
modes behind it are. -/
theorem smaller_of_suffix_tail {s t : Tokenizer} {c : Char} {cs : Text} (ht : t.rest = c :: cs)
    (hc : isBlank c = false) (h : s.rest <:+ t.rest.tail) : s.Smaller t := by
  refine smaller_of_marks ?_
  rw [ht] at h ⊢
  exact marks_lt_of_suffix hc h

/-- A token adds no mode to those that a tokenizer is in. -/
theorem length_modesBehind_le (kind : Kind) (ms : List Mode) :
    (modesBehind kind ms).length ≤ ms.length := by
  unfold modesBehind
  split
  · split
    · exact Nat.le_refl _
    · split
      · split
        · exact Nat.le_succ _
        · exact Nat.le_refl _
      · exact Nat.le_refl _
  · exact Nat.le_refl _

/-- Opening a literal takes a character at least. -/
theorem rest_openString_suffix (s : Tokenizer) (d : Delimiter) :
    (s.openString d).rest <:+ s.rest.tail := by
  have hquote := List.length_pos_iff.mpr d.quoteText_ne_nil
  unfold openString
  dsimp only
  split
  · exact rest_emit_suffix_tail hquote
  · rename_i hpounds
    exact (rest_emit_suffix_tail hquote).trans
      ((List.tail_suffix _).trans (rest_emit_suffix_tail (Nat.pos_of_ne_zero hpounds)))

/-- Closing a literal takes a character at least. -/
theorem rest_closeString_suffix (s : Tokenizer) (d : Delimiter) (ms : List Mode) :
    (s.closeString d ms).rest <:+ s.rest.tail := by
  have hquote := List.length_pos_iff.mpr d.quoteText_ne_nil
  unfold closeString
  split
  · exact rest_emit_suffix_tail hquote
  · have hsuffix : (s.emit d.quote d.quoteText.length).rest <:+ s.rest.tail :=
      rest_emit_suffix_tail hquote
    exact (rest_emit_suffix _ _ _).trans ((List.drop_suffix _ _).trans hsuffix)

/-- After a collapse, nothing is left but blanks. Where there was nothing to take back, the modes
are given up all the same. -/
theorem collapse_cases (s : Tokenizer) :
    s.collapse.modes = [] ∧ (s.collapse.rest = s.rest ∨ marks s.collapse.rest = 0) := by
  unfold collapse
  dsimp only
  split
  · exact ⟨rfl, .inl rfl⟩
  · split
    · exact ⟨rfl, .inl rfl⟩
    · refine ⟨rfl, .inr (Nat.le_zero.mp ?_)⟩
      rw [← marks_splitTrailingBlanks]
      exact marks_le_of_suffix (Trivia.scan_suffix _ _)

/-- A collapse makes a tokenizer smaller when it is in the middle of something. -/
theorem smaller_collapse {s t : Tokenizer} (hrest : s.rest <:+ t.rest) (hmodes : t.modes ≠ []) :
    s.collapse.Smaller t := by
  obtain ⟨hnone, hcollapse⟩ := s.collapse_cases
  refine smaller_of_modes ?_ (by rw [hnone]; exact List.length_pos_iff.mpr hmodes)
  rcases hcollapse with h | h
  · rw [h]
    exact marks_le_of_suffix hrest
  · rw [h]
    exact Nat.zero_le _

/-- A step in a literal makes a tokenizer smaller. What ends a literal without its quote, be it the
end of the line or a collapse, takes modes away, and everything else takes text. -/
theorem smaller_stringPart {s : Tokenizer} {d : Delimiter} {opener : Nat} {ms : List Mode}
    (h : s.modes = .string d opener :: ms) : (s.stringPart d ms).Smaller s := by
  unfold stringPart
  split
  · rename_i hcloser
    obtain ⟨c, cs, hquote, hc⟩ := d.exists_quoteText_eq
    have hrest := append_drop_of_startsWith hcloser
    rw [Delimiter.closer, hquote, List.cons_append] at hrest
    exact smaller_of_suffix_tail hrest.symm hc (s.rest_closeString_suffix d ms)
  · split
    · rename_i hinterpolation
      rw [Delimiter.atInterpolation, Bool.and_eq_true] at hinterpolation
      have hrest := append_drop_of_startsWith hinterpolation.1
      exact smaller_of_suffix_tail hrest.symm rfl
        (rest_emit_suffix_tail (s := { s with modes := .interpolation 0 :: s.modes })
          (Nat.succ_pos _))
    · split
      · exact smaller_collapse List.suffix_rfl (by rw [h]; exact List.cons_ne_nil _ _)
      · split
        · refine smaller_of_modes (Nat.le_refl _) ?_
          rw [h]
          exact Nat.lt_succ_self _
        · rename_i hcloser hinterpolation hbare hends
          have hpos := Delimiter.segmentLength_pos hcloser hinterpolation hbare hends
          have hsuffix := s.rest_emit_suffix .stringSegment (d.segmentLength s.rest)
          refine smaller_of_rest (hsuffix.trans (List.drop_suffix _ _)) ?_ (Nat.le_refl _)
          have hlength := hsuffix.length_le
          have hrest : s.rest ≠ [] := fun hrest => hends (by rw [hrest]; rfl)
          have hne := List.length_pos_iff.mpr hrest
          rw [List.length_drop] at hlength
          omega

/-- A step outside of literals makes a tokenizer smaller: what opens a literal takes marks, and an
ordinary token takes text and adds no mode. -/
theorem smaller_normalPart {s : Tokenizer} {c : Char} {cs : Text} (h : s.rest = c :: cs) :
    (s.normalPart c cs).Smaller s := by
  unfold normalPart
  split
  · rename_i d hd
    obtain ⟨c', cs', hopener, hc⟩ := d.exists_opener_eq
    have hrest := d.opener_append_drop hd
    rw [hopener, List.cons_append, ← h] at hrest
    exact smaller_of_suffix_tail hrest.symm hc (s.rest_openString_suffix d)
  · -- an ordinary token can be made of blanks, so only its length counts
    rename_i hplain
    generalize Token.plain s.tokens.head? s.leading c cs = token
    have hsuffix : ({ s with modes := modesBehind token.1 s.modes }.emit token.1 (token.2 + 1)).rest
        <:+ s.rest.tail := rest_emit_suffix_tail (Nat.succ_pos _)
    refine smaller_of_rest (hsuffix.trans (List.tail_suffix _)) ?_ (length_modesBehind_le _ _)
    refine Nat.lt_of_le_of_lt hsuffix.length_le ?_
    rw [h]
    exact Nat.lt_succ_self _

/-- Every step that does not end makes a tokenizer smaller. -/
theorem smaller_step {s t : Tokenizer} (h : s.step = .inl t) : t.Smaller s := by
  unfold step at h
  split at h
  · rename_i hmodes
    obtain rfl := Sum.inl.inj h
    exact smaller_stringPart hmodes
  · have hsuffix : s.skipTrivia.rest <:+ s.rest := Trivia.scan_suffix _ _
    dsimp only at h
    split at h
    · split at h
      · rename_i hmodes
        obtain rfl := Sum.inl.inj h
        refine smaller_collapse hsuffix ?_
        intro hnil
        rw [skipTrivia, hnil] at hmodes
        cases hmodes
      · cases h
    · rename_i hrest
      obtain rfl := Sum.inl.inj h
      exact (smaller_normalPart hrest).skipTrivia

/-- All tokens of the text that the tokenizer goes through. -/
def run (s : Tokenizer) : List Token :=
  match hs : s.step with
  | .inl t =>
    have := smaller_step hs
    t.run
  | .inr tokens => tokens
termination_by s.size
decreasing_by exact this

end Tokenizer

end SwiftTree
