import SwiftTree.Text.Blank
import SwiftTree.Token

/-!
# Delimiters of string literals

A string literal is a raw delimiter of `#`s that may be absent, a quote, its content, and the same
quote and delimiter again. The delimiter decides what ends the content, and what a backslash in it
means: an escape needs as many `#`s behind the backslash as the literal has on each side, and an
interpolation a parenthesis behind these.
-/

namespace SwiftTree

open Text

/-- How a string literal is delimited. -/
structure Delimiter where
  /-- the number of `#` on each side -/
  pounds : Nat
  /-- the kind of quote -/
  quote : Kind
  /-- a quote is a quote -/
  quoted : quote.isStringQuote
deriving DecidableEq, Repr

namespace Delimiter

/-- The `#`s. -/
def poundsText (d : Delimiter) : Text := List.replicate d.pounds '#'

@[simp] theorem length_poundsText (d : Delimiter) : d.poundsText.length = d.pounds :=
  List.length_replicate

/-- The spelling of a quote. -/
def quoteText (d : Delimiter) : Text :=
  match d.quote with
  | .multilineStringQuote => ['"', '"', '"']
  | .singleQuote => ['\'']
  | _ => ['"']

/-- Whether the content may hold line breaks. -/
def isMultiline (d : Delimiter) : Bool := d.quote == .multilineStringQuote

/-- The quote and the `#`s behind it. -/
def closer (d : Delimiter) : Text := d.quoteText ++ d.poundsText

/-- The backslash and the `#`s that make it an escape. -/
def escape (d : Delimiter) : Text := '\\' :: d.poundsText

/-- The delimiter that opens a literal at the front of a text. Behind `#`s, three quotes open a
literal of several lines only when none of them closes it on the same line. -/
def ofText? (cs : Text) : Option Delimiter :=
  let pounds := countLeading '#' cs
  let rest := cs.drop pounds
  if peek rest == '\'' then some ⟨pounds, .singleQuote, rfl⟩
  else if peek rest == '"' then
    let single : Delimiter := ⟨pounds, .stringQuote, rfl⟩
    if startsWith rest ['"', '"', '"']
        && (pounds == 0 || !hasPart single.closer (restOfLine rest.tail)) then
      some ⟨pounds, .multilineStringQuote, rfl⟩
    else some single
  else none

/-- Whether a text begins with an escape. More `#`s than needed do no harm. -/
def atEscape (d : Delimiter) (cs : Text) : Bool := startsWith cs d.escape

/-- Whether a text begins with an interpolation. -/
def atInterpolation (d : Delimiter) (cs : Text) : Bool :=
  d.atEscape cs && peek (cs.drop d.escape.length) == '('

/-- Whether a text is nothing but an escape introducer. -/
def atBareEscape (d : Delimiter) (cs : Text) : Bool := cs == d.escape

/-- Whether the content of a literal cannot go on: at the end of the text, and at a line break that
the literal may not hold. -/
def contentEnds (d : Delimiter) : Text → Bool
  | [] => true
  | c :: _ => !d.isMultiline && isLineBreak c

/-- The number of characters up to the end of a segment. An escape hides the character behind it; in
a literal of one line it does not hide a line break. -/
def segmentLength (d : Delimiter) (cs : Text) : Nat :=
  match cs with
  | [] => 0
  | c :: cs =>
    if d.contentEnds (c :: cs) || startsWith (c :: cs) d.closer then 0
    else if d.atEscape (c :: cs) then
      if d.atInterpolation (c :: cs) || d.atBareEscape (c :: cs) then 0
      else
        let behind := cs.drop d.pounds
        let hidden := if d.contentEnds behind then 0 else 1
        1 + d.pounds + hidden + d.segmentLength (behind.drop hidden)
    else d.segmentLength cs + 1
termination_by cs.length
decreasing_by all_goals simp; try omega

/-- Where the content of a literal goes on and neither the literal ends nor an interpolation starts,
there is a segment. -/
theorem segmentLength_pos {d : Delimiter} {cs : Text} (hcloser : ¬startsWith cs d.closer)
    (hinterpolation : ¬d.atInterpolation cs) (hbare : ¬d.atBareEscape cs)
    (hends : ¬d.contentEnds cs) :
    0 < d.segmentLength cs := by
  cases cs with
  | nil => exact absurd rfl hends
  | cons c cs =>
    rw [segmentLength]
    simp only [hends, hcloser, hinterpolation, hbare, Bool.false_eq_true, if_false, Bool.or_self]
    split
    · omega
    · omega

/-- Behind a segment there is no other. -/
theorem segmentLength_drop (d : Delimiter) (cs : Text) :
    d.segmentLength (cs.drop (d.segmentLength cs)) = 0 := by
  fun_induction d.segmentLength cs with
  | case1 => rw [List.drop_nil, segmentLength]
  | case2 c cs hend => rw [List.drop_zero, segmentLength, if_pos hend]
  | case3 c cs hend hescape hstop =>
    rw [List.drop_zero, segmentLength, if_neg hend, if_pos hescape, if_pos hstop]
  | case4 c cs hend hescape hstop behind hidden ih =>
    rw [Nat.add_assoc, Nat.add_assoc, Nat.add_comm 1, List.drop_succ_cons, ← Nat.add_assoc,
      Nat.add_assoc, ← List.drop_drop, ← List.drop_drop]
    exact ih
  | case5 c cs hend hescape ih =>
    rw [List.drop_succ_cons]
    exact ih

end Delimiter

theorem append_drop_of_startsWith {lead cs : Text} (h : startsWith cs lead = true) :
    lead ++ cs.drop lead.length = cs := by
  obtain ⟨t, rfl⟩ := List.isPrefixOf_iff_prefix.mp h
  simp

/-- Where a literal is closed, its quote stands in front, and its `#`s behind the quote. -/
theorem Delimiter.take_of_startsWith_closer {d : Delimiter} {cs : Text}
    (h : startsWith cs d.closer) :
    cs.take d.quoteText.length = d.quoteText ∧
      (cs.drop d.quoteText.length).take d.pounds = d.poundsText := by
  have hcs := append_drop_of_startsWith h
  rw [closer, List.append_assoc] at hcs
  generalize cs.drop _ = behind at hcs
  rw [← hcs, List.take_left, List.drop_left, List.take_left' d.length_poundsText]
  exact ⟨rfl, rfl⟩

theorem replicate_countLeading (c : Char) (cs : Text) :
    List.replicate (countLeading c cs) c ++ cs.drop (countLeading c cs) = cs := by
  induction cs with
  | nil => rfl
  | cons d cs ih =>
    by_cases h : d = c
    · subst h; simpa [countLeading, List.replicate_succ] using ih
    · simp [countLeading, h]

/-- The text that opens a literal. -/
def Delimiter.opener (d : Delimiter) : Text := d.poundsText ++ d.quoteText

theorem Delimiter.quoteText_ne_nil (d : Delimiter) : d.quoteText ≠ [] := by
  unfold quoteText
  split <;> simp

/-- A quote starts with a character that is not blank. -/
theorem Delimiter.exists_quoteText_eq (d : Delimiter) :
    ∃ c cs, d.quoteText = c :: cs ∧ isBlank c = false := by
  unfold quoteText
  split
  · exact ⟨_, _, rfl, rfl⟩
  · exact ⟨_, _, rfl, rfl⟩
  · exact ⟨_, _, rfl, rfl⟩

/-- So does everything that opens a literal. -/
theorem Delimiter.exists_opener_eq (d : Delimiter) :
    ∃ c cs, d.opener = c :: cs ∧ isBlank c = false := by
  unfold opener poundsText
  cases d.pounds with
  | zero => exact d.exists_quoteText_eq
  | succ n => exact ⟨_, _, rfl, rfl⟩

theorem Delimiter.quote_isSolid (d : Delimiter) : d.quote.isSolid := by
  obtain ⟨_, quote, quoted⟩ := d
  unfold Kind.isStringQuote at quoted
  split at quoted
  · rfl
  · rfl
  · rfl
  · cases quoted

/-- A recognised delimiter does stand at the front of the text. -/
theorem Delimiter.opener_append_drop {cs : Text} {d : Delimiter} (h : ofText? cs = some d) :
    d.opener ++ cs.drop d.opener.length = cs := by
  have pounds := replicate_countLeading '#' cs
  have quote (e : Delimiter) (q : Text) (he : e.pounds = countLeading '#' cs)
      (hq : e.quoteText = q) (hs : startsWith (cs.drop (countLeading '#' cs)) q = true) :
      e.opener ++ cs.drop e.opener.length = cs := by
    have hq' := append_drop_of_startsWith hs
    simp only [opener, poundsText, he, hq, List.length_append, List.length_replicate,
      List.append_assoc]
    rw [List.drop_drop] at hq'
    rw [hq', pounds]
  have single (c : Char) (hc : c ≠ '\x00') (hp : peek (cs.drop (countLeading '#' cs)) = c) :
      startsWith (cs.drop (countLeading '#' cs)) [c] = true := by
    cases hr : cs.drop (countLeading '#' cs) with
    | nil => simp [hr, peek] at hp; exact absurd hp.symm hc
    | cons d r => simp [hr, peek] at hp; simp [startsWith, hp, List.isPrefixOf]
  unfold ofText? at h
  dsimp only at h
  split at h
  · rename_i hp
    obtain rfl := Option.some.inj h
    exact quote _ ['\''] rfl rfl (single '\'' (by decide) (by simpa using hp))
  · split at h
    · rename_i hp
      split at h
      · rename_i hs
        obtain rfl := Option.some.inj h
        exact quote _ _ rfl rfl (by simp only [Bool.and_eq_true] at hs; exact hs.1)
      · obtain rfl := Option.some.inj h
        exact quote _ ['"'] rfl rfl (single '"' (by decide) (by simpa using hp))
    · cases h

end SwiftTree
