import SwiftTree.Proofs.Construction

/-!
# Trees that can be computed

A tokenizer runs until it is done, and what decreases on the way is not a number. So its tokens
cannot be computed by unfolding definitions. With a number of steps they can (`Tokenizer.runFor`),
and if the steps are enough they are the tokens of the text. The tree of a text then follows from
its tokens, with no detour by events (`Entry.tree?`).
-/

namespace SwiftTree

open Grammar

namespace Tokenizer

/-- The tokens, if a number of steps is enough for them. -/
def runFor : Nat → Tokenizer → Option (List Token)
  | 0, _ => none
  | n + 1, s =>
    match s.step with
    | .inl t => t.runFor n
    | .inr ts => some ts

/-- A run goes on behind a step. -/
theorem run_of_inl {s t : Tokenizer} (h : s.step = .inl t) : s.run = t.run := by
  rw [run]
  split
  · rename_i u hu
    exact congrArg run (Sum.inl.inj (hu.symm.trans h))
  · rename_i ts hts
    cases hts.symm.trans h

/-- A run is over when a step has tokens for an answer. -/
theorem run_of_inr {s : Tokenizer} {ts : List Token} (h : s.step = .inr ts) : s.run = ts := by
  rw [run]
  split
  · rename_i u hu
    cases hu.symm.trans h
  · rename_i us hus
    exact Sum.inr.inj (hus.symm.trans h)

/-- A run with a limited number of steps has the same tokens, if it has any. -/
theorem run_eq_of_runFor {n : Nat} {s : Tokenizer} {ts : List Token} (h : s.runFor n = some ts) :
    s.run = ts := by
  induction n generalizing s with
  | zero => cases h
  | succ n ih =>
    rw [runFor] at h
    split at h
    · rename_i t ht
      rw [run_of_inl ht, ih h]
    · rename_i us hus
      rw [run_of_inr hus, Option.some.inj h]

end Tokenizer

instance (t : Token) : Decidable t.IsSolid := inferInstanceAs (Decidable (_ ∧ _))

/-- The tokens of a text, if a number of steps is enough for them. -/
def Token.stream? (n : Nat) (text : Text) : Option (List Token) := (Tokenizer.start text).runFor n

theorem Token.stream_eq_of_stream? {n : Nat} {text : Text} {ts : List Token}
    (h : stream? n text = some ts) : stream text = ts := Tokenizer.run_eq_of_runFor h

/-- What is computed of the tokens holds of them. -/
theorem Token.of_stream? {n : Nat} {text : Text} {p : List Token → Bool}
    (h : (stream? n text).any p) : p (stream text) := by
  obtain ⟨ts, hts, hp⟩ := (Option.any_eq_true ..).mp h
  rw [stream_eq_of_stream? hts, hp]

/-- What is computed of the tokens, as the grammar sees them, holds of them. -/
theorem Grammar.Ahead.of_stream? {n : Nat} {text : Text} {p : Ahead → Bool}
    (h : (Token.stream? n text).any fun ts =>
      if h : ∀ t ∈ ts.dropLast, t.IsSolid then
        p (Lexeme.ofTokens (Token.lastOpensLine ts) 0 none ts.dropLast h)
      else false) :
    p (.ofText text) := by
  have hp := Token.of_stream? h
  rw [dif_pos fun _ => Token.solid_of_mem_dropLast] at hp
  exact hp

/-- The tokens of a text, without the end of the file. -/
theorem Grammar.Ahead.ofText_eq {text : Text} {ts : List Token} {last : Token}
    (h : Token.stream text = ts ++ [last]) :
    ∃ hts, Ahead.ofText text
      = Lexeme.ofTokens (Token.lastOpensLine (Token.stream text)) 0 none ts hts := by
  obtain rfl : (Token.stream text).dropLast = ts := by rw [h, List.dropLast_concat]
  exact ⟨_, rfl⟩

namespace Entry

/-- The tree of a text, if a number of steps is enough for its tokens. -/
def tree? (e : Entry) (n : Nat) (text : Text) : Option Green :=
  (Token.stream? n text).bind fun ts =>
    if h : ∀ t ∈ ts.dropLast, t.IsSolid then
      (e.rule.run (.ofLimit (callLimit (Text.byteLen text)))
        ⟨Lexeme.ofTokens (Token.lastOpensLine ts) 0 none ts.dropLast h, ([] : Forest)⟩).map
          fun (_, s) =>
          .node e.root (s.built.reverse ++ [.token (ts.getLastD default)])
    else none

/-- The tree that is computed is the tree of the text. It was made of the same tokens by the same
rules. -/
theorem tree_eq_of_tree? {e : Entry} {n : Nat} {text : Text} {tree : Green}
    (h : e.tree? n text = some tree) : e.tree text = tree := by
  obtain ⟨ts, hts, h⟩ := Option.bind_eq_some_iff.mp h
  obtain rfl := Token.stream_eq_of_stream? hts
  rw [dif_pos fun _ => Token.solid_of_mem_dropLast] at h
  obtain ⟨⟨a, s⟩, hrun, rfl⟩ := Option.map_eq_some_iff.mp h
  have hrun : e.rule.run (.ofLimit (callLimit (Text.byteLen text))) ⟨.ofText text, ([] : Forest)⟩
      = some (a, s) := hrun
  rw [tree_eq, parts, outcome, hrun]
  rfl

/-- What is computed of the tree holds of it. -/
theorem of_tree? {e : Entry} {n : Nat} {text : Text} {p : Green → Bool}
    (h : (e.tree? n text).any p) : p (e.tree text) := by
  obtain ⟨tree, htree, hp⟩ := (Option.any_eq_true ..).mp h
  rw [tree_eq_of_tree? htree, hp]

end Entry

end SwiftTree
