import SwiftTree.Text

/-!
# Blank characters

The characters with the Unicode property `White_Space`, and what trivia and trimming make of them.
-/

namespace SwiftTree.Text

/-- The ranges of code points with the property `White_Space`. -/
def blankRanges : List (Nat × Nat) :=
  [(0x09, 0x0D), (0x20, 0x20), (0x85, 0x85), (0xA0, 0xA0), (0x1680, 0x1680), (0x2000, 0x200A),
   (0x2028, 0x2029), (0x202F, 0x202F), (0x205F, 0x205F), (0x3000, 0x3000)]

/-- Whether a character is white space. -/
def isBlank (c : Char) : Bool := inRanges blankRanges c

/-- White space that stays on its line. -/
def isInlineBlank (c : Char) : Bool := isBlank c && !isLineBreak c

/-- A text as its part up to the last character that is not blank, and the blanks after it. -/
def splitTrailingBlanks : Text → Text × Text
  | [] => ([], [])
  | c :: cs =>
    let (body, blanks) := splitTrailingBlanks cs
    if body.isEmpty && isBlank c then ([], c :: blanks) else (c :: body, blanks)

/-- The number of characters that are not blank. -/
def marks (cs : Text) : Nat := cs.countP fun c => !isBlank c

theorem marks_le_of_suffix {cs ds : Text} (h : ds <:+ cs) : marks ds ≤ marks cs :=
  h.sublist.countP_le

/-- A text is left with fewer characters that are not blank when it starts with one. -/
theorem marks_lt_of_suffix {c : Char} {cs ds : Text} (hc : isBlank c = false) (h : ds <:+ cs) :
    marks ds < marks (c :: cs) := by
  have hle := marks_le_of_suffix h
  have hcons : marks (c :: cs) = marks cs + 1 := List.countP_cons_of_pos (by simp [hc])
  omega

theorem marks_splitTrailingBlanks (cs : Text) : marks (splitTrailingBlanks cs).2 = 0 := by
  induction cs with
  | nil => rfl
  | cons c cs ih =>
    rw [splitTrailingBlanks]
    dsimp only
    split
    · rename_i h
      rw [Bool.and_eq_true] at h
      rw [marks, List.countP_cons_of_neg (by simp [h.2])]
      exact ih
    · exact ih

/-- Blanks are only split off behind the last character that is not blank. -/
theorem splitTrailingBlanks_cons {c : Char} (hc : isBlank c = false) (cs : Text) :
    splitTrailingBlanks (c :: cs) =
    (c :: (splitTrailingBlanks cs).1, (splitTrailingBlanks cs).2) := by
  rw [splitTrailingBlanks, hc]
  dsimp only
  rw [Bool.and_false, if_neg Bool.false_ne_true]

theorem splitTrailingBlanks_append (cs : Text) :
    (splitTrailingBlanks cs).1 ++ (splitTrailingBlanks cs).2 = cs := by
  induction cs with
  | nil => rfl
  | cons c cs ih =>
    simp only [splitTrailingBlanks]
    split
    · rename_i h
      have : (splitTrailingBlanks cs).1 = [] := by simp_all
      simpa [this] using ih
    · simpa using ih

end SwiftTree.Text
