import Mathlib.Data.List.TakeWhile
import SwiftTree.Marker
import SwiftTree.Token.Delimiter
import SwiftTree.Token.Plain

/-!
# Where tokens end

No token outside of string literals ends with a blank (`Token.plain_sharp`): most have none, and
those that can have some end with what closes them. So white space behind a token is all of it
trivia.
-/

namespace SwiftTree

namespace Text

/-- Whether a text does not end with a blank. -/
def Sharp (cs : Text) : Prop := ∀ c ∈ cs.getLast?, isBlank c = false

/-- Whether there are no blanks in a text. -/
def Dense (cs : Text) : Prop := ∀ c ∈ cs, isBlank c = false

variable {cs ds : Text} {c : Char} {m n : Nat}

theorem Dense.sharp (h : cs.Dense) : cs.Sharp := fun c hc => h c (List.mem_of_getLast? hc)

theorem Dense.append (hcs : cs.Dense) (hds : ds.Dense) : (cs ++ ds).Dense :=
  List.forall_mem_append.mpr ⟨hcs, hds⟩

/-- A text ends as its second part does, if there is one. -/
theorem Sharp.append (hds : ds.Sharp) (hne : ds ≠ []) (cs : Text) : (cs ++ ds).Sharp := by
  intro c hc
  obtain ⟨d, hd⟩ := Option.ne_none_iff_exists'.mp (mt List.getLast?_eq_none_iff.mp hne)
  rw [List.getLast?_append, hd] at hc
  exact hds c (hd.trans hc)

theorem Sharp.cons (hc : isBlank c = false) (h : cs.Sharp) : Sharp (c :: cs) := by
  cases cs with
  | nil =>
    rintro d ⟨⟩
    exact hc
  | cons d cs => exact h.append (List.cons_ne_nil d cs) [c]

theorem Sharp.isInlineBlank (h : cs.Sharp) : ∀ c ∈ cs.getLast?, isInlineBlank c = false := by
  intro c hc
  rw [Text.isInlineBlank, h c hc, Bool.false_and]

theorem dense_nil : Dense [] := nofun

theorem sharp_nil : Sharp [] := nofun

theorem Dense.cons (hc : isBlank c = false) (h : cs.Dense) : Dense (c :: cs) :=
  List.forall_mem_cons.mpr ⟨hc, h⟩

/-- What is taken in two parts has no blanks if neither has. -/
theorem Dense.take_add (hfirst : Dense (cs.take m)) (hsecond : Dense ((cs.drop m).take n)) :
    Dense (cs.take (m + n)) := by
  rw [List.take_add]
  exact hfirst.append hsecond

theorem dense_take_one (h : isBlank (peek cs) = false) : Dense (cs.take 1) := by
  cases cs with
  | nil => exact dense_nil
  | cons c cs => exact dense_nil.cons h

/-- What is taken while a test holds has no blanks, if no blank passes the test. -/
theorem dense_takeWhile {test : Char → Bool} (h : ∀ c, test c → isBlank c = false) (cs : Text) :
    Dense (cs.take (cs.takeWhile test).length) := by
  rw [← List.prefix_iff_eq_take.mp (List.takeWhile_prefix test)]
  exact fun c hc => h c (List.mem_takeWhile_imp hc)

/-- What is left of a text without the blanks at its end does not end with a blank. -/
theorem splitTrailingBlanks_sharp (cs : Text) : (splitTrailingBlanks cs).1.Sharp := by
  induction cs with
  | nil => exact sharp_nil
  | cons c cs ih =>
    rw [splitTrailingBlanks]
    dsimp only
    split
    · exact sharp_nil
    · rename_i hkept
      cases hbody : (splitTrailingBlanks cs).1 with
      | nil =>
        rw [hbody] at hkept
        rintro d ⟨⟩
        simpa using hkept
      | cons d body =>
        rw [hbody] at ih
        exact ih.append (List.cons_ne_nil _ _) [c]

/-- A blank is one of a few code points. -/
theorem toNat_of_isBlank (h : isBlank c) :
    (9 ≤ c.toNat ∧ c.toNat ≤ 13) ∨ c.toNat = 32 ∨ 0x80 ≤ c.toNat := by
  simp only [isBlank, inRanges, blankRanges, List.any_cons, List.any_nil, Bool.or_false,
    Bool.or_eq_true, Bool.and_eq_true, decide_eq_true_eq] at h
  omega

/-- An ASCII character is a blank only if it is one of the six that stand at 9 to 13 and at 32. -/
theorem not_isBlank_of_toNat (hlow : c.toNat < 0x80)
    (hnot : ¬(9 ≤ c.toNat ∧ c.toNat ≤ 13) ∧ c.toNat ≠ 32) : isBlank c = false := by
  refine Bool.eq_false_iff.mpr fun h => ?_
  have := toNat_of_isBlank h
  omega

end Text

namespace Delimiter

open Text

theorem quoteText_dense (d : Delimiter) : d.quoteText.Dense := by
  have hquote {c : Char} (hc : isBlank c = false) : Text.Dense [c] := dense_nil.cons hc
  unfold quoteText
  split
  · exact ((hquote rfl).cons rfl).cons rfl
  · exact hquote rfl
  · exact hquote rfl

theorem poundsText_dense (d : Delimiter) : d.poundsText.Dense := by
  intro c hc
  rw [poundsText] at hc
  rw [List.eq_of_mem_replicate hc]
  rfl

end Delimiter

namespace Token

open Text

variable {c : Char} {cs : Text}

/-! ## Characters of tokens -/

/-- Digits are no blanks, which their code points tell. -/
theorem not_isBlank_of_isDigit (h : c.isDigit) : isBlank c = false := by
  simp only [Char.isDigit, Bool.and_eq_true, decide_eq_true_eq, ge_iff_le,
    UInt32.le_iff_toNat_le] at h
  change 48 ≤ c.toNat ∧ c.toNat ≤ 57 at h
  exact not_isBlank_of_toNat (by omega) (by omega)

/-- Letters are in two ranges. -/
theorem isAlpha_iff :
    c.isAlpha ↔ 65 ≤ c.toNat ∧ c.toNat ≤ 90 ∨ 97 ≤ c.toNat ∧ c.toNat ≤ 122 := by
  show (decide (c.val ≥ 'A'.val ∧ c.val ≤ 'Z'.val)
    || (decide (c.val ≥ 'a'.val) && decide (c.val ≤ 'z'.val))) = true ↔ _
  simp only [Bool.or_eq_true, Bool.and_eq_true, decide_eq_true_eq, UInt32.le_iff_toNat_le]
  rfl

/-- Letters are no blanks, which the two ranges of their code points tell. -/
theorem not_isBlank_of_isAlpha (h : c.isAlpha) : isBlank c = false := by
  rcases isAlpha_iff.mp h with h | h
  · exact not_isBlank_of_toNat (by omega) (by omega)
  · exact not_isBlank_of_toNat (by omega) (by omega)

/-- A name starts with a letter, an underscore, or a character outside ASCII that is no blank. -/
theorem not_isBlank_of_isNameStart (h : isNameStart c) : isBlank c = false := by
  rw [isNameStart, Bool.or_eq_true, Bool.or_eq_true] at h
  rcases h with (h | h) | h
  · exact not_isBlank_of_isAlpha h
  · rw [beq_iff_eq.mp h]
    rfl
  · simpa using (Bool.and_eq_true_iff.mp h).2

/-- A name goes on with what it can start with, and with digits. -/
theorem not_isBlank_of_isNameChar (h : isNameChar c) : isBlank c = false := by
  rw [isNameChar, Bool.or_eq_true] at h
  exact h.elim not_isBlank_of_isNameStart not_isBlank_of_isDigit

theorem not_isBlank_of_mem {chars : List Char} (hchars : chars.all fun c => !isBlank c)
    (h : c ∈ chars) : isBlank c = false := by
  simpa using List.all_eq_true.mp hchars c h

theorem not_isBlank_of_isOperatorChar (h : isOperatorChar c) : isBlank c = false :=
  not_isBlank_of_mem (by decide) (List.contains_iff_mem.mp h)

/-! ## Tokens without blanks -/

theorem nameLength_dense (cs : Text) : Dense (cs.take (nameLength cs)) :=
  dense_takeWhile (fun _ => not_isBlank_of_isNameChar) cs

/-- Digits and the underscores between them have no blanks. -/
theorem digitsLength_dense (cs : Text) : Dense (cs.take (digitsLength cs)) := by
  refine dense_takeWhile (fun c h => ?_) cs
  rcases Bool.or_eq_true_iff.mp h with h | h
  · exact not_isBlank_of_isDigit h
  · rw [beq_iff_eq.mp h]
    rfl

theorem hexDigitsLength_dense (cs : Text) : Dense (cs.take (hexDigitsLength cs)) := by
  refine dense_takeWhile (fun c h => ?_) cs
  rcases Bool.or_eq_true_iff.mp h with h | h
  · rcases Bool.or_eq_true_iff.mp h with h | h
    · exact not_isBlank_of_isDigit h
    · rw [beq_iff_eq.mp h]
      rfl
  · exact not_isBlank_of_mem (by decide) (List.contains_iff_mem.mp h)

/-- An exponent has a mark, perhaps a sign, and digits. -/
theorem exponentLength_dense (cs : Text) : Dense (cs.take (exponentLength cs)) := by
  unfold exponentLength
  split
  · rename_i hletter
    have hfirst : Dense (cs.take 1) := by
      refine dense_take_one ?_
      rcases Bool.or_eq_true_iff.mp hletter with h | h <;> (rw [beq_iff_eq.mp h]; rfl)
    refine (hfirst.take_add ?_).take_add (digitsLength_dense _)
    split
    · rename_i hsign
      refine dense_take_one ?_
      rw [List.drop_one]
      change isBlank (second cs) = false
      rcases Bool.or_eq_true_iff.mp hsign with h | h <;> (rw [beq_iff_eq.mp h]; rfl)
    · exact dense_nil
  · exact dense_nil

/-- Behind digits without blanks, a fraction and an exponent add none. -/
theorem decimal_dense {n : Nat} (h : Dense (cs.take n)) : Dense (cs.take (decimal n cs).2) := by
  unfold decimal
  dsimp only
  split
  · rename_i hpoint
    have hfirst : Dense ((cs.drop n).take 1) := by
      refine dense_take_one ?_
      rw [beq_iff_eq.mp (Bool.and_eq_true_iff.mp hpoint).1]
      rfl
    have hdigits := digitsLength_dense (cs.drop n).tail
    have hfraction : Dense ((cs.drop n).take (1 + digitsLength (cs.drop n).tail)) := by
      refine hfirst.take_add ?_
      rwa [List.drop_one]
    have hexponent := exponentLength_dense ((cs.drop n).drop (1 + digitsLength (cs.drop n).tail))
    refine (h.take_add hfraction).take_add ?_
    rwa [← List.drop_drop (i := 1 + digitsLength (cs.drop n).tail)]
  · split
    · exact h.take_add (exponentLength_dense _)
    · exact h

/-- A number has no blanks, whatever its base is: each of its parts has none. -/
theorem number_dense (c : Char) (cs : Text) : Dense (cs.take (number c cs).2) := by
  unfold number
  split
  · rename_i hradix
    refine Dense.take_add (dense_take_one ?_) ?_
    · rcases Bool.or_eq_true_iff.mp (Bool.and_eq_true_iff.mp hradix).2 with h | h <;>
        (rw [beq_iff_eq.mp h]; rfl)
    · rw [List.drop_one]
      exact digitsLength_dense _
  · split
    · rename_i hradix
      refine Dense.take_add (dense_take_one ?_) ?_
      · rw [beq_iff_eq.mp (Bool.and_eq_true_iff.mp hradix).2]
        rfl
      · rw [List.drop_one]
        exact hexDigitsLength_dense _
    · exact decimal_dense (digitsLength_dense cs)

/-- The characters of operators are no blanks. -/
theorem operatorLength_dense (dotted : Bool) (cs : Text) :
    Dense (cs.take (operatorLength dotted cs)) := by
  induction cs with
  | nil => exact dense_nil
  | cons c cs ih =>
    rw [operatorLength]
    split
    · exact dense_nil
    · rename_i hgoes
      refine ih.cons (not_isBlank_of_isOperatorChar ?_)
      simp only [Bool.or_eq_true, Bool.not_eq_true', not_or, Bool.not_eq_false] at hgoes
      exact hgoes.1.1.1

/-! ## Tokens that are closed -/

/-- What ends a regular expression comes where its length says. -/
theorem regexBodyLength?_spec {pounds n : Nat} {body : Text}
    (h : regexBodyLength? pounds body = some n) :
    ∃ rest, body.drop n = '/' :: rest ∧ pounds ≤ countLeading '#' rest := by
  fun_induction regexBodyLength? pounds body generalizing n with
  | case1 => cases h
  | case2 => cases h
  | case3 c cs ih =>
    obtain ⟨m, hm, rfl⟩ := Option.map_eq_some_iff.mp h
    exact ih hm
  | case4 => cases h
  | case5 c cs _ _ _ hclose =>
    obtain rfl := Option.some.inj h
    obtain ⟨hc, hpounds⟩ := Bool.and_eq_true_iff.mp hclose
    exact ⟨cs, by rw [beq_iff_eq.mp hc]; rfl, of_decide_eq_true hpounds⟩
  | case6 c cs _ _ _ _ ih =>
    obtain ⟨m, hm, rfl⟩ := Option.map_eq_some_iff.mp h
    exact ih hm

/-- A regular expression ends with a slash and number signs. -/
theorem regex_sharp {pounds n : Nat} {cs : Text}
    (h : regexLength? pounds (cs.drop pounds) = some n) : Sharp (cs.take (n - 1)) := by
  obtain ⟨m, hm, rfl⟩ := Option.map_eq_some_iff.mp h
  obtain ⟨rest, hrest, hpounds⟩ := regexBodyLength?_spec hm
  have hlength : (pounds + 1) + m + (1 + pounds) - 1 = (pounds + m) + (1 + pounds) := by omega
  rw [hlength, List.take_add, ← List.drop_drop, hrest]
  refine Sharp.append (Dense.sharp ?_) ?_ _
  · rw [Nat.add_comm, List.take_succ_cons]
    refine Dense.cons rfl ?_
    rw [← replicate_countLeading '#' rest, List.take_append_of_le_length (by simpa using hpounds)]
    intro d hd
    rw [List.eq_of_mem_replicate (List.mem_of_mem_take hd)]
    rfl
  · rw [Nat.add_comm, List.take_succ_cons]
    exact List.cons_ne_nil _ _

/-- What is found on the rest of the line ends where it is found. -/
theorem take_of_splitAtFirst {part name after : Text} (h : splitAtFirst part (restOfLine cs)
    = some (name, after)) : cs.take (name.length + part.length) = name ++ part := by
  obtain ⟨rest, hrest⟩ : restOfLine cs <+: cs := List.takeWhile_prefix _
  rw [← hrest, eq_append_of_splitAtFirst h, List.append_assoc, List.append_assoc,
    ← List.append_assoc, List.take_left' List.length_append]

/-- A name in quotes ends with its closing quote, and without one nothing but the opening quote is
taken. -/
theorem quotedName_sharp (cs : Text) : Sharp (cs.take (quotedName cs).2) := by
  unfold quotedName
  split
  · rename_i hsplit
    split
    · exact sharp_nil
    · have htake := take_of_splitAtFirst hsplit
      change Sharp (cs.take (_ + ['\x60'].length))
      rw [htake]
      exact Sharp.append (Dense.sharp (dense_nil.cons rfl)) (List.cons_ne_nil _ _) _
  · exact sharp_nil

/-- A placeholder ends with `#>`. What is none is read as an operator, and operators have no
blanks. -/
theorem placeholder_sharp (prev : Option Token) (leading : Trivia) {cs : Text} (h : peek cs = '#') :
    Sharp (cs.take (placeholder prev leading cs).2) := by
  obtain ⟨cs, rfl⟩ : ∃ ds, cs = '#' :: ds := by
    cases cs with
    | nil => cases h
    | cons d ds => exact ⟨ds, by rw [← show d = '#' from h]⟩
  unfold placeholder
  split
  · rename_i name _ hsplit
    have hlength : 1 + name.length + 2 = (name.length + "#>".toList.length) + 1 := by
      have : "#>".toList.length = 2 := rfl
      omega
    have htake : cs.take (name.length + "#>".toList.length) = name ++ "#>".toList :=
      take_of_splitAtFirst hsplit
    rw [hlength, List.take_succ_cons, htake]
    exact (Sharp.append (Dense.sharp ((dense_nil.cons rfl).cons rfl)) (List.cons_ne_nil _ _) _).cons
      rfl
  · exact (operatorLength_dense _ _).sharp

/-- What a number sign starts does not end with a blank: a regular expression ends with a slash and
number signs, and a word has no blanks at all. -/
theorem poundWord_sharp (cs : Text) : Sharp (cs.take (poundWord cs).2) := by
  unfold poundWord
  dsimp only
  split
  · rename_i n hregex
    split at hregex
    · exact regex_sharp hregex
    · cases hregex
  · split
    · exact (nameLength_dense cs).sharp
    · exact sharp_nil

/-- A token that starts with no blank ends with none. So the blanks behind a token are trivia, and
never part of the token itself. -/
theorem plain_sharp (prev : Option Token) (leading : Trivia) (hc : isBlank c = false) (cs : Text) :
    Sharp (c :: cs.take (plain prev leading c cs).2) := by
  refine Sharp.cons hc ?_
  unfold plain
  split
  case h_12 => exact poundWord_sharp cs
  case h_13 => exact quotedName_sharp cs
  case h_14 => exact (nameLength_dense cs).sharp
  case h_15 =>
    split
    · exact (number_dense _ cs).sharp
    · split
      · rename_i h
        exact placeholder_sharp prev leading (beq_iff_eq.mp (Bool.and_eq_true_iff.mp h).2)
      · split
        · split
          · rename_i hregex
            exact regex_sharp hregex
          · exact (operatorLength_dense _ cs).sharp
        · split
          · exact (nameLength_dense cs).sharp
          · split
            · exact (operatorLength_dense _ cs).sharp
            · exact sharp_nil
  -- all other tokens have one character
  all_goals exact sharp_nil

end Token

end SwiftTree
