/-!
# Texts

A text is a list of characters, and every position and length in it is a number of bytes of its
UTF-8 form. `byteLen` measures a text, `cutBytes` splits one at a byte position, which fails inside
a character and past the end. The first character of a text that has ended reads as NUL (`peek`), so
tests of the next character need no case for the end; a NUL that stands in the text is told apart
only by the tests that ask for the end itself.
-/

namespace SwiftTree

/-- A text, character by character. -/
abbrev Text := List Char

namespace Text

/-- The number of bytes of the UTF-8 form. -/
def byteLen : Text → Nat
  | [] => 0
  | c :: cs => c.utf8Size + byteLen cs

@[simp] theorem byteLen_nil : byteLen [] = 0 := rfl

@[simp] theorem byteLen_cons (c : Char) (cs : Text) :
    byteLen (c :: cs) = c.utf8Size + byteLen cs := rfl

@[simp] theorem byteLen_append (s t : Text) : byteLen (s ++ t) = byteLen s + byteLen t := by
  induction s with
  | nil => simp
  | cons c s ih => simp [ih, Nat.add_assoc]

theorem byteLen_pos {cs : Text} (h : cs ≠ []) : 0 < byteLen cs := by
  cases cs with
  | nil => exact absurd rfl h
  | cons c cs =>
    have := c.utf8Size_pos
    rw [byteLen_cons]
    omega

/-- The text before and the text from the byte position `n`. There is no such split when `n` lies
inside a character or past the end. -/
def cutBytes : Nat → Text → Option (Text × Text)
  | 0, cs => some ([], cs)
  | _, [] => none
  | n, c :: cs =>
    if c.utf8Size ≤ n then (cutBytes (n - c.utf8Size) cs).map fun (a, b) => (c :: a, b) else none

theorem cutBytes_append (s t : Text) : cutBytes (byteLen s) (s ++ t) = some (s, t) := by
  induction s with
  | nil => cases t <;> rfl
  | cons c s ih =>
    have := c.utf8Size_pos
    rw [List.cons_append, cutBytes]
    · simp [ih]
    · simp only [byteLen_cons]
      omega

/-- The part of a text between two byte positions. -/
def slice? (start stop : Nat) (cs : Text) : Option Text := do
  let (_, rest) ← cutBytes start cs
  let (part, _) ← cutBytes (stop - start) rest
  return part

theorem slice?_append (r s t : Text) :
    slice? (byteLen r) (byteLen r + byteLen s) (r ++ (s ++ t)) = some s := by
  simp [slice?, cutBytes_append]

/-- The next character, NUL at the end. -/
def peek (cs : Text) : Char := cs.headD '\x00'

/-- The character after the next one, NUL at the end. -/
def second (cs : Text) : Char := peek cs.tail

/-- The character `n` places on, NUL at the end. -/
def nth (cs : Text) (n : Nat) : Char := peek (cs.drop n)

/-- Whether a text begins with another. -/
def startsWith (cs lead : Text) : Bool := lead.isPrefixOf cs

/-- How many copies of `c` a text begins with. -/
def countLeading (c : Char) : Text → Nat
  | [] => 0
  | d :: cs => if d == c then countLeading c cs + 1 else 0

/-- The first place where `part` occurs: the text before it and the text after it. -/
def splitAtFirst (part : Text) : Text → Option (Text × Text)
  | [] => if part.isEmpty then some ([], []) else none
  | c :: cs =>
    if startsWith (c :: cs) part then some ([], (c :: cs).drop part.length)
    else (splitAtFirst part cs).map fun (a, b) => (c :: a, b)

/-- Whether `part` occurs in a text. -/
def hasPart (part cs : Text) : Bool := (splitAtFirst part cs).isSome

/-- Whether a character lies in one of several ranges of code points. -/
def inRanges (ranges : List (Nat × Nat)) (c : Char) : Bool :=
  ranges.any fun (lo, hi) => lo ≤ c.toNat && c.toNat ≤ hi

/-- The characters that end a line. -/
def isLineBreak (c : Char) : Bool := c == '\n' || c == '\r'

/-- What is left of the current line. -/
def restOfLine (cs : Text) : Text := cs.takeWhile fun c => !isLineBreak c

end Text

end SwiftTree
