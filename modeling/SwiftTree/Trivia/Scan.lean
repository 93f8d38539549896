import SwiftTree.Text.Blank
import SwiftTree.Trivia

/-!
# Scanning trivia

`Trivia.scan` reads as many pieces of trivia as it finds at the front of a text. Before a token it
reads everything (`.leading`); after a token it stops at a line break (`.trailing`), so that a line
break always leads the token behind it. What was read and what is left make up the text
(`Trivia.scan_text`).
-/

namespace SwiftTree.Trivia

/-- The side of a token on which trivia is read. -/
inductive Side where
  | leading | trailing
deriving DecidableEq, Repr

/-- The number of characters of a block comment, past its opening and with `depth` comments open. It
ends with the closing of the outermost comment, or with the text. -/
def blockCommentLength (depth : Nat) : Text → Nat
  | '/' :: '*' :: cs => blockCommentLength (depth + 1) cs + 2
  | '*' :: '/' :: cs => if depth ≤ 1 then 2 else blockCommentLength (depth - 1) cs + 2
  | _ :: cs => blockCommentLength depth cs + 1
  | [] => 0

/-- The sort of the piece of trivia that starts with the character `c` before `cs`, and how many
characters of `cs` belong to it. -/
def piece? (side : Side) (c : Char) (cs : Text) : Option (TriviaKind × Nat) :=
  if c == '\n' || c == '\r' then
    if side = .trailing then none
    else some (.newline, if c == '\r' && Text.peek cs == '\n' then 1 else 0)
  else if c == '/' && Text.peek cs == '/' then some (.lineComment, (Text.restOfLine cs).length)
  else if c == '/' && Text.peek cs == '*' then
    some (.blockComment, blockCommentLength 1 cs.tail + 1)
  else if Text.isBlank c then some (.whitespace, (cs.takeWhile Text.isInlineBlank).length)
  else none

/-- The trivia at the front of a text, and the text behind it. -/
def scan (side : Side) (cs : Text) : Trivia × Text :=
  match cs with
  | [] => ([], [])
  | c :: cs =>
    match piece? side c cs with
    | none => ([], c :: cs)
    | some (kind, more) =>
      let (ps, rest) := scan side (cs.drop more)
      (⟨kind, c :: cs.take more⟩ :: ps, rest)
termination_by cs.length
decreasing_by simp only [List.length_drop, List.length_cons]; omega

/-- Scanning loses nothing. -/
theorem scan_text (side : Side) (cs : Text) : (scan side cs).1.text ++ (scan side cs).2 = cs := by
  fun_induction scan side cs with
  | case1 => rfl
  | case2 => rfl
  | case3 c cs kind more _ ps rest h ih =>
    rw [h] at ih
    simp [ih]

theorem scan_suffix (side : Side) (cs : Text) : (scan side cs).2 <:+ cs := ⟨_, scan_text side cs⟩

end SwiftTree.Trivia
