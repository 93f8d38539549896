import SwiftTree.Token

/-!
# Counting parentheses

How many parentheses are open behind some tokens, whatever else stands among them. The parentheses
of tokens match if each closing one closes one of them and none is left open (`Token.parensMatch`);
then whoever counts parentheses has as many of them open behind the tokens as before.
-/

namespace SwiftTree

/-- How many parentheses are open behind a token. -/
def Kind.parensBehind (k : Kind) (parens : Nat) : Nat :=
  if k = .leftParen then parens + 1 else if k = .rightParen then parens - 1 else parens

/-- Parentheses that were open before do not matter to a token that closes none of them. -/
theorem Kind.parensBehind_add {k : Kind} {parens : Nat} (h : k ≠ .rightParen ∨ parens ≠ 0)
    (outer : Nat) : k.parensBehind (parens + outer) = k.parensBehind parens + outer := by
  unfold parensBehind
  split
  · omega
  · split
    · rename_i hright
      have hpos : parens ≠ 0 := h.resolve_left (not_not_intro hright)
      omega
    · rfl

namespace Token

/-- How many parentheses are open behind several tokens. A closing one closes the last one, if there
is one. -/
def parensBehind : Nat → List Outline → Nat
  | parens, [] => parens
  | parens, t :: ts => parensBehind (t.kind.parensBehind parens) ts

/-- Whether no closing parenthesis among some tokens closes one that was not open. -/
def staysOpen : Nat → List Outline → Bool
  | _, [] => true
  | parens, t :: ts =>
    (t.kind != .rightParen || parens != 0) && staysOpen (t.kind.parensBehind parens) ts

variable {parens : Nat} {ts us : List Outline}

/-- Counting through some tokens and others is counting through the others from where the first ones
end. -/
theorem parensBehind_append (parens : Nat) (ts us : List Outline) :
    parensBehind parens (ts ++ us) = parensBehind (parensBehind parens ts) us := by
  induction ts generalizing parens with
  | nil => rfl
  | cons t ts ih => exact ih _

/-- A parenthesis stays open over some tokens and others if it stays open over each. -/
theorem staysOpen_append : staysOpen parens (ts ++ us) ↔
    staysOpen parens ts ∧ staysOpen (parensBehind parens ts) us := by
  induction ts generalizing parens with
  | nil => simp [staysOpen, parensBehind]
  | cons t ts ih => simp only [List.cons_append, staysOpen, Bool.and_eq_true, ih, and_assoc,
      parensBehind]

/-- Parentheses that were open before do not matter to those that are opened and closed behind. -/
theorem parensBehind_add (h : staysOpen parens ts) (outer : Nat) :
    parensBehind (parens + outer) ts = parensBehind parens ts + outer := by
  induction ts generalizing parens with
  | nil => rfl
  | cons t ts ih =>
    rw [staysOpen, Bool.and_eq_true, Bool.or_eq_true, bne_iff_ne, bne_iff_ne] at h
    rw [parensBehind, parensBehind, Kind.parensBehind_add h.1]
    exact ih h.2

/-- Whether tokens leave as many parentheses open as before. -/
def Neutral (ts : List Outline) : Prop := ∀ n, parensBehind n ts = n

theorem Neutral.append (hts : Neutral ts) (hus : Neutral us) : Neutral (ts ++ us) := fun n => by
  rw [parensBehind_append, hts, hus]

/-- Whether the parentheses of some tokens match. -/
def parensMatch (ts : List Outline) : Bool := staysOpen 0 ts && parensBehind 0 ts == 0

/-- Where the parentheses match, as many are open behind as before. -/
theorem neutral_of_parensMatch (h : parensMatch ts) : Neutral ts := fun n => by
  rw [parensMatch, Bool.and_eq_true, beq_iff_eq] at h
  have hadd := parensBehind_add h.1 n
  rwa [h.2, Nat.zero_add] at hadd

end Token

end SwiftTree
