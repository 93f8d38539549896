import SwiftTree.Kind
import SwiftTree.Trivia

/-!
# Tokens

A token is a kind, its spelling, and the trivia on both sides. Tokens carry no positions: the text
of a token (`Token.full`) includes its trivia, and the tokens of a text follow each other without
gaps, so positions are sums of lengths.

`Token.Outline` is what a tree keeps of a token. It holds the whole text once, and of the trivia the
kinds and lengths alone; the spelling is cut out of the text (`Token.text_outline`).
-/

namespace SwiftTree

/-- A token with the trivia around it. -/
structure Token where
  /-- the trivia before the token -/
  leading : Trivia
  /-- what the token is -/
  kind : Kind
  /-- the spelling, without trivia -/
  text : Text
  /-- the trivia after the token -/
  trailing : Trivia
deriving DecidableEq, Repr, Inhabited

namespace Token

/-- The text of a token with its trivia. -/
def full (t : Token) : Text := t.leading.text ++ t.text ++ t.trailing.text

/-- The byte length with trivia. -/
def byteLen (t : Token) : Nat := t.leading.byteLen + Text.byteLen t.text + t.trailing.byteLen

theorem byteLen_full (t : Token) : Text.byteLen t.full = t.byteLen := by
  simp [full, byteLen, Trivia.byteLen_text, Nat.add_assoc]

/-- Whether a token is written out in its text, as every token but the end of the file is. -/
def IsSolid (t : Token) : Prop := t.text ≠ [] ∧ t.kind.isSolid

/-- The text of several tokens. -/
def fullText : List Token → Text
  | [] => []
  | t :: ts => t.full ++ fullText ts

@[simp] theorem fullText_nil : fullText [] = [] := rfl

@[simp] theorem fullText_cons (t : Token) (ts : List Token) :
    fullText (t :: ts) = t.full ++ fullText ts := rfl

@[simp] theorem fullText_append (ts us : List Token) :
    fullText (ts ++ us) = fullText ts ++ fullText us := by
  induction ts with
  | nil => simp
  | cons t ts ih => simp [ih]

/-- A token as a tree keeps it: the whole text, and the kinds and lengths of the trivia in it. -/
structure Outline where
  /-- the trivia before the token -/
  leading : Trivia.Outline
  /-- what the token is -/
  kind : Kind
  /-- the text with trivia -/
  full : Text
  /-- the trivia after the token -/
  trailing : Trivia.Outline
deriving DecidableEq, Repr

namespace Outline

/-- The byte length with trivia. -/
def byteLen (o : Outline) : Nat := Text.byteLen o.full

/-- Whether the text has room for the trivia. -/
def hasRoom (o : Outline) : Bool := o.leading.byteLen + o.trailing.byteLen ≤ o.byteLen

/-- The spelling, without trivia. There is none if the trivia ends inside a character. -/
def text (o : Outline) : Text :=
  (Text.slice? o.leading.byteLen (o.byteLen - o.trailing.byteLen) o.full).getD []

end Outline

/-- What a tree keeps of a token. -/
def outline (t : Token) : Outline := ⟨t.leading.outline, t.kind, t.full, t.trailing.outline⟩

@[simp] theorem byteLen_outline (t : Token) : t.outline.byteLen = t.byteLen := t.byteLen_full

@[simp] theorem byteLen_leading_outline (t : Token) :
    t.outline.leading.byteLen = t.leading.byteLen := t.leading.byteLen_outline

@[simp] theorem byteLen_trailing_outline (t : Token) :
    t.outline.trailing.byteLen = t.trailing.byteLen := t.trailing.byteLen_outline

theorem hasRoom_outline (t : Token) : t.outline.hasRoom := by
  have h : t.leading.byteLen + t.trailing.byteLen ≤ t.byteLen := by
    simp only [byteLen]
    omega
  simp [Outline.hasRoom, h]

/-- The outline of a token has the spelling of the token. -/
@[simp] theorem text_outline (t : Token) : t.outline.text = t.text := by
  have h : t.byteLen - t.trailing.byteLen = t.leading.byteLen + Text.byteLen t.text := by
    simp only [byteLen]
    omega
  have hf : t.outline.full = t.leading.text ++ (t.text ++ t.trailing.text) := by
    simp [outline, full]
  rw [Outline.text, hf, byteLen_leading_outline, byteLen_trailing_outline, byteLen_outline, h,
    ← Trivia.byteLen_text t.leading, Text.slice?_append]
  rfl

end Token

end SwiftTree
