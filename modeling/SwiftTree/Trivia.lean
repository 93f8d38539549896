import SwiftTree.Text

/-!
# Trivia

The blanks, line breaks and comments between tokens. A piece of trivia that was read carries its own
text, so a run of pieces always fits the text that it stands for. In a tree, and where trivia is
described from outside, only the kinds and the byte lengths of the pieces are kept
(`Trivia.Outline`); these can be any numbers, and need not agree with the characters of a text.
-/

namespace SwiftTree

/-- The sorts of text that separate tokens. -/
inductive TriviaKind where
  | whitespace | newline | lineComment | blockComment
deriving DecidableEq, Repr

/-- A stretch of trivia of one sort. -/
structure Piece where
  /-- the sort of trivia -/
  kind : TriviaKind
  /-- the characters of the stretch -/
  text : Text
deriving DecidableEq, Repr

/-- The byte length of a piece. -/
def Piece.byteLen (p : Piece) : Nat := Text.byteLen p.text

/-- The pieces on one side of a token, in order. -/
abbrev Trivia := List Piece

namespace Trivia

/-- Kinds and byte lengths of the pieces of a run of trivia. -/
abbrev Outline := List (TriviaKind × Nat)

/-- The characters of all pieces. -/
def text : Trivia → Text
  | [] => []
  | p :: ps => p.text ++ text ps

@[simp] theorem text_nil : text [] = [] := rfl

@[simp] theorem text_cons (p : Piece) (ps : Trivia) : text (p :: ps) = p.text ++ text ps := rfl

@[simp] theorem text_append (ps qs : Trivia) : text (ps ++ qs) = text ps ++ text qs := by
  induction ps with
  | nil => rfl
  | cons p ps ih => simp [ih]

/-- The byte length of all pieces. -/
def byteLen : Trivia → Nat
  | [] => 0
  | p :: ps => p.byteLen + byteLen ps

/-- The length of trivia is that of its text. -/
theorem byteLen_text (ts : Trivia) : Text.byteLen ts.text = ts.byteLen := by
  induction ts with
  | nil => rfl
  | cons p ps ih => simp [byteLen, Piece.byteLen, ih]

/-- Whether a line break is among the pieces. -/
def containsNewline (ts : Trivia) : Bool := ts.any fun p => p.kind == .newline

/-- Kinds and lengths, without the characters. -/
def outline (ts : Trivia) : Outline := ts.map fun p => (p.kind, p.byteLen)

/-- The sum of the lengths in an outline. -/
def Outline.byteLen : Outline → Nat
  | [] => 0
  | (_, n) :: rest => n + Outline.byteLen rest

/-- Whether a line break is in an outline. -/
def Outline.containsNewline (o : Outline) : Bool := o.any fun p => p.1 == .newline

/-- What is kept of trivia has the same length. -/
theorem byteLen_outline (ts : Trivia) : ts.outline.byteLen = ts.byteLen := by
  induction ts with
  | nil => rfl
  | cons p ps ih => simp [outline, Outline.byteLen, byteLen] at ih ⊢; exact ih

theorem containsNewline_outline (ts : Trivia) :
    ts.outline.containsNewline = ts.containsNewline := by
  simp [outline, Outline.containsNewline, containsNewline, List.any_map, Function.comp_def]

end Trivia

end SwiftTree
