import SwiftTree.Node
import SwiftTree.Token.Stream

/-!
# Tokens tile their text

Tokens carry no positions, so a list of tokens is first placed: each token starts where the one
before it ends (`Token.place`). The ranges that come out are ranges of a text when the tokens make
up that text: the full range of a token cuts out the token with its trivia, and the range of its
spelling cuts out its spelling (`Token.Placed.slice?_full`, `Token.Placed.slice?_spelling`).

`Token.stream_tiles` puts this together with what is known of the tokens of a text: they make up the
text, the last one is the end of the file, and all others are written out.
-/

namespace SwiftTree

namespace Text

/-- Whether a position lies between two characters of a text, or at one of its ends. -/
def IsBoundary (n : Nat) (text : Text) : Prop := ∃ a b, text = a ++ b ∧ byteLen a = n

end Text

namespace Token

/-! ## Placed tokens -/

/-- A token and where it starts, trivia included. -/
structure Placed where
  /-- the token -/
  token : Token
  /-- where its leading trivia starts -/
  pos : Nat
deriving DecidableEq

namespace Placed

/-- The range of a token with its trivia. -/
def full (p : Placed) : Span := .ofLen p.pos p.token.byteLen

/-- The range of a token without trivia. -/
def spelling (p : Placed) : Span :=
  .ofLen (p.pos + p.token.leading.byteLen) (Text.byteLen p.token.text)

end Placed

/-- Tokens that follow each other from a position. -/
def place (pos : Nat) : List Token → List Placed
  | [] => []
  | t :: ts => ⟨t, pos⟩ :: place (pos + t.byteLen) ts

/-- Placing some tokens and others is placing the others behind the first ones. -/
theorem place_append (pos : Nat) (ts us : List Token) :
    place pos (ts ++ us) = place pos ts ++ place (pos + Text.byteLen (fullText ts)) us := by
  induction ts generalizing pos with
  | nil => rfl
  | cons t ts ih =>
    rw [List.cons_append, place, ih, place, fullText_cons, Text.byteLen_append, byteLen_full,
      Nat.add_assoc, List.cons_append]

/-- A placed token is one of the tokens, behind those that come before it. -/
theorem exists_of_mem_place {pos : Nat} {ts : List Token} {p : Placed} (hp : p ∈ place pos ts) :
    ∃ before behind, ts = before ++ p.token :: behind ∧
      p.pos = pos + Text.byteLen (fullText before) := by
  induction ts generalizing pos with
  | nil => cases hp
  | cons t ts ih =>
    rcases List.mem_cons.mp hp with rfl | hp
    · exact ⟨[], ts, rfl, rfl⟩
    · obtain ⟨before, behind, rfl, hpos⟩ := ih hp
      refine ⟨t :: before, behind, rfl, ?_⟩
      rw [hpos, fullText_cons, Text.byteLen_append, byteLen_full, Nat.add_assoc]

namespace Placed

variable {text : Text} {ts : List Token} {p : Placed}

/-- Where a placed token stands in the text that the tokens make up. -/
theorem exists_text_eq (hts : fullText ts = text) (hp : p ∈ place 0 ts) :
    ∃ a b, text = a ++ (p.token.leading.text ++ (p.token.text ++ (p.token.trailing.text ++ b))) ∧
      Text.byteLen a = p.pos := by
  obtain ⟨before, behind, rfl, hpos⟩ := exists_of_mem_place hp
  refine ⟨fullText before, fullText behind, ?_, by rw [hpos, Nat.zero_add]⟩
  rw [← hts, fullText_append, fullText_cons]
  simp only [Token.full, List.append_assoc]

/-- The full range cuts the token with its trivia out of the text. -/
theorem slice?_full (hts : fullText ts = text) (hp : p ∈ place 0 ts) :
    text.slice? p.full.start p.full.stop = some p.token.full := by
  obtain ⟨a, b, rfl, ha⟩ := exists_text_eq hts hp
  have h := Text.slice?_append a p.token.full b
  rw [byteLen_full, ha] at h
  simpa [full, Span.ofLen, Token.full, List.append_assoc] using h

/-- The range of the spelling cuts the spelling out of the text. -/
theorem slice?_spelling (hts : fullText ts = text) (hp : p ∈ place 0 ts) :
    text.slice? p.spelling.start p.spelling.stop = some p.token.text := by
  obtain ⟨a, b, rfl, ha⟩ := exists_text_eq hts hp
  have h := Text.slice?_append (a ++ p.token.leading.text) p.token.text
    (p.token.trailing.text ++ b)
  rw [Text.byteLen_append, ha, Trivia.byteLen_text] at h
  simpa [spelling, Span.ofLen, List.append_assoc] using h

/-- Both ranges begin and end between characters. -/
theorem isBoundary (hts : fullText ts = text) (hp : p ∈ place 0 ts) :
    ∀ n ∈ [p.full.start, p.full.stop, p.spelling.start, p.spelling.stop],
      Text.IsBoundary n text := by
  obtain ⟨a, b, rfl, ha⟩ := exists_text_eq hts hp
  intro n hn
  simp only [List.mem_cons, List.not_mem_nil, or_false] at hn
  rcases hn with rfl | rfl | rfl | rfl
  · exact ⟨a, _, rfl, ha⟩
  · refine ⟨a ++ p.token.full, b, by simp [Token.full], ?_⟩
    rw [Text.byteLen_append, ha, byteLen_full]
    rfl
  · refine ⟨a ++ p.token.leading.text, _, by rw [List.append_assoc], ?_⟩
    rw [Text.byteLen_append, ha, Trivia.byteLen_text]
    rfl
  · refine ⟨a ++ p.token.leading.text ++ p.token.text, p.token.trailing.text ++ b, by simp, ?_⟩
    rw [Text.byteLen_append, Text.byteLen_append, ha, Trivia.byteLen_text]
    rfl

/-- A token that is written out covers some of the text. -/
theorem spelling_lt (h : p.token.IsSolid) : p.spelling.start < p.spelling.stop :=
  Nat.lt_add_of_pos_right (Text.byteLen_pos h.1)

end Placed

end Token

/-! ## Tilings -/

/-- Whether ranges follow each other without gaps from one position to another. -/
def Span.Tiles (start : Nat) : List Span → Nat → Prop
  | [], stop => start = stop
  | s :: rest, stop => s.start = start ∧ s.start ≤ s.stop ∧ Tiles s.stop rest stop

namespace Token

/-- Placed tokens tile the text from where the first one is placed. -/
theorem tiles_place (pos : Nat) (ts : List Token) :
    Span.Tiles pos ((place pos ts).map Placed.full) (pos + Text.byteLen (fullText ts)) := by
  induction ts generalizing pos with
  | nil => rfl
  | cons t ts ih =>
    refine ⟨rfl, Nat.le_add_right _ _, ?_⟩
    rw [fullText_cons, Text.byteLen_append, byteLen_full, ← Nat.add_assoc]
    exact ih (pos + t.byteLen)

/-- A text is scanned to its end, whatever it is. The full ranges of its tokens follow each other
without gaps from the start of the text to its end, and cut it into the tokens with their trivia.
Every range begins and ends between characters. The last token, and no other, is the end of the
file, with the empty range at the end of the text; every other token covers some of the text. -/
theorem stream_tiles (text : Text) :
    let placed := place 0 (stream text)
    Span.Tiles 0 (placed.map Placed.full) (Text.byteLen text) ∧
    (∀ p ∈ placed,
      text.slice? p.full.start p.full.stop = some p.token.full ∧
      text.slice? p.spelling.start p.spelling.stop = some p.token.text ∧
      ∀ n ∈ [p.full.start, p.full.stop, p.spelling.start, p.spelling.stop],
        Text.IsBoundary n text) ∧
    ∃ front last, placed = front ++ [last] ∧
      last.token.kind = .endOfFile ∧ last.spelling = .empty (Text.byteLen text) ∧
      ∀ p ∈ front, p.token.kind ≠ .endOfFile ∧ p.spelling.start < p.spelling.stop := by
  intro placed
  have full := fullText_stream text
  refine ⟨?_, fun p hp => ⟨p.slice?_full full hp, p.slice?_spelling full hp,
    p.isBoundary full hp⟩, ?_⟩
  · have tiles := tiles_place 0 (stream text)
    rwa [full, Nat.zero_add] at tiles
  · obtain ⟨front, leading, hstream, solid⟩ := exists_stream_eq text
    let last : Placed := ⟨⟨leading, .endOfFile, [], []⟩, Text.byteLen (fullText front)⟩
    have hplaced : placed = place 0 front ++ [last] := by
      simp only [placed, hstream, place_append, Nat.zero_add]
      rfl
    refine ⟨place 0 front, last, hplaced, rfl, ?_, ?_⟩
    · -- the end of the file stands behind all other tokens and the trivia before it
      have len := congrArg Text.byteLen full
      rw [hstream, fullText_append, Text.byteLen_append] at len
      simp only [fullText_cons, fullText_nil, Token.full, List.append_nil, Trivia.text_nil,
        Trivia.byteLen_text] at len
      rw [← len]
      rfl
    · intro p hp
      obtain ⟨before, behind, hfront, -⟩ := exists_of_mem_place hp
      have psolid : p.token.IsSolid := by
        apply solid
        rw [hfront]
        exact List.mem_append_right _ List.mem_cons_self
      exact ⟨Kind.ne_endOfFile_of_isSolid psolid.2, Placed.spelling_lt psolid⟩

end Token

end SwiftTree
