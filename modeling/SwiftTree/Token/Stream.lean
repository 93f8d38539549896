import SwiftTree.Token.Intact

/-!
# The tokens of a text

`Token.stream` splits a text into tokens. The last token is the end of the file, with the trivia
that no other token owns. A literal whose interpolation never ends becomes one unknown token, from
its opening to the last character of the text that is not blank.

The tokens make up the text (`Token.fullText_stream`).
-/

namespace SwiftTree.Token

/-- The tokens of a text. -/
def stream (cs : Text) : List Token := (Tokenizer.start cs).run

/-- The tokens make up the text. -/
theorem fullText_stream (cs : Text) : fullText (stream cs) = cs :=
  (Tokenizer.intact_start cs).run.1

/-- The last token is the end of the file. It is not written out and nothing follows it; all others
are written out. -/
theorem exists_stream_eq (cs : Text) :
    ∃ front leading, stream cs = front ++ [⟨leading, .endOfFile, [], []⟩] ∧ ∀ t ∈ front,
    t.IsSolid :=
  (Tokenizer.intact_start cs).run.2

/-- Every token but the last is written out. -/
theorem solid_of_mem_dropLast {cs : Text} {t : Token} (ht : t ∈ (stream cs).dropLast) :
    t.IsSolid := by
  obtain ⟨front, leading, h, solid⟩ := exists_stream_eq cs
  rw [h, List.dropLast_concat] at ht
  exact solid t ht

/-- Whether a token opens a line: it is the first of its text, or a line break leads it. -/
def opensLine (prev : Option Token) (t : Token) : Bool :=
  prev.isNone || t.leading.containsNewline

/-- Whether nothing separates a token from the one before it. -/
def touches (prev : Option Token) (t : Token) : Bool :=
  prev.any (·.trailing.isEmpty) && t.leading.isEmpty

/-- Whether the last of some tokens, with which a text starts, opens a line. -/
def lastOpensLine (ts : List Token) : Bool := ts.getLast?.any (opensLine ts.dropLast.getLast?)

end SwiftTree.Token
