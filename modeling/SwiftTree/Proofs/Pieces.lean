import SwiftTree.Kind.Spelling
import SwiftTree.Token

/-!
# Tokens in pieces

Rules take tokens as the scanner read them, with two exceptions. A name can become the keyword that
it spells, and an operator can be cut into pieces, of which some become angle brackets
(`Kind.Becomes`). `Token.IsCut` says of some tokens that they are the pieces of one: they make up
its text, its trivia is on the outer sides, and there is none between them. `Token.Pieces` says it
of the tokens of a list, one after the other.

A piece can be taken as another kind, and be cut again (`Pieces.recast`, `Pieces.split`).
-/

namespace SwiftTree

namespace Kind

/-- The words that a rule can turn into keywords. -/
def isContextual : Kind → Bool
  | .asyncKw | .awaitKw | .moveKw | .anyKw | .someKw | .weakKw | .unownedKw => true
  | _ => false

/-- Whether a token, or a piece of one, that is spelled so can become one of another kind: names
become the keywords that they spell, and operators postfix operators or the brackets that they
spell. -/
def Becomes (k : Kind) (text : Text) (j : Kind) : Prop :=
  j = k ∨ (k = .identifier ∧ j.isContextual ∧ j.Spells text) ∨
    (k.isOperator ∧
      (j = .postfixOperator ∨ (j = .leftAngle ∨ j = .rightAngle) ∧ j.Spells text))

/-- What can become a keyword is no operator. -/
theorem not_isOperator_of_isContextual {k : Kind} (h : k.isContextual) : ¬k.isOperator := by
  unfold isContextual at h
  split at h
  case h_8 => cases h
  all_goals exact Bool.false_ne_true

theorem Becomes.refl (k : Kind) (text : Text) : k.Becomes text k := .inl rfl

/-- What becomes an operator was one. -/
theorem Becomes.isOperator {k j : Kind} {text : Text} (h : k.Becomes text j) (hj : j.isOperator) :
    k.isOperator ∧ (j = k ∨ j = .postfixOperator) := by
  rcases h with rfl | ⟨-, hcontextual, -⟩ | ⟨hk, rfl | ⟨rfl | rfl, -⟩⟩
  · exact ⟨hj, .inl rfl⟩
  · exact absurd hj (not_isOperator_of_isContextual hcontextual)
  · exact ⟨hk, .inr rfl⟩
  · cases hj
  · cases hj

/-- Whatever a piece of an operator becomes, the operator could become. -/
theorem Becomes.of_operator {k j i : Kind} {text text' : Text} (h : k.Becomes text j)
    (hj : j.isOperator) (h' : j.Becomes text' i) : k.Becomes text' i := by
  obtain ⟨hk, rfl | rfl⟩ := h.isOperator hj
  · exact h'
  · rcases h' with rfl | ⟨hname, -⟩ | ⟨-, hi⟩
    · exact .inr (.inr ⟨hk, .inl rfl⟩)
    · cases hname
    · exact .inr (.inr ⟨hk, hi⟩)

/-- What a piece of a token can become, the token can become. -/
theorem Becomes.trans {k j i : Kind} {text : Text} (h : k.Becomes text j)
    (h' : j.Becomes text i) : k.Becomes text i := by
  by_cases hj : j.isOperator
  · exact h.of_operator hj h'
  · rcases h' with rfl | ⟨rfl, hi⟩ | ⟨hop, -⟩
    · exact h
    · rcases h with rfl | ⟨-, hcontextual, -⟩ | ⟨-, hname | ⟨hname | hname, -⟩⟩
      · exact .inr (.inl ⟨rfl, hi⟩)
      · cases hcontextual
      · cases hname
      · cases hname
      · cases hname
    · exact absurd hop hj

end Kind

namespace Token

/-- Whether tokens are the pieces of a token. Only operators have more than one. -/
inductive IsCut : Token → List Token → Prop where
  | whole {t : Token} {k : Kind} (hk : t.kind.Becomes t.text k) : IsCut t [{ t with kind := k }]
  | cut {t : Token} {k : Kind} {a b : Text} {ps : List Token} (hop : t.kind.isOperator)
      (htext : t.text = a ++ b) (ha : a ≠ []) (hb : b ≠ []) (hk : t.kind.Becomes a k)
      (hps : IsCut ⟨[], t.kind, b, t.trailing⟩ ps) : IsCut t (⟨t.leading, k, a, []⟩ :: ps)

namespace IsCut

variable {t x : Token} {us vs : List Token}

theorem refl (t : Token) : IsCut t [t] := whole (.refl t.kind t.text)

/-- The pieces of a token make it up. -/
theorem fullText_eq (h : IsCut t us) : fullText us = t.full := by
  induction h with
  | whole => exact List.append_nil _
  | @cut t k a b ps _ htext _ _ _ _ ih =>
    rw [fullText_cons, ih, full, full, full, htext]
    simp

/-- A piece can become one of another kind. What it can become, the token that it was cut from can
become in this place. -/
theorem recast (h : IsCut t (us ++ x :: vs)) {k : Kind} (hk : x.kind.Becomes x.text k) :
    IsCut t (us ++ { x with kind := k } :: vs) := by
  generalize hps : us ++ x :: vs = ps at h
  induction h generalizing us with
  | whole hj =>
    cases us with
    | nil =>
      obtain ⟨rfl, rfl⟩ := List.cons.inj hps
      exact .whole (hj.trans hk)
    | cons u us =>
      have hlen := congrArg List.length hps
      simp at hlen
  | cut hop htext ha hb hj hps' ih =>
    cases us with
    | nil =>
      obtain ⟨rfl, rfl⟩ := List.cons.inj hps
      exact .cut hop htext ha hb (hj.trans hk) hps'
    | cons u us =>
      obtain ⟨rfl, hrest⟩ := List.cons.inj hps
      exact .cut hop htext ha hb hj (ih hrest)

/-- A piece that is an operator can be cut again, and its parts are pieces of the same token, with
the trivia on the outer sides. -/
theorem split (h : IsCut t (us ++ x :: vs)) (hx : x.kind.isOperator) {a b : Text}
    (htext : x.text = a ++ b) (ha : a ≠ []) (hb : b ≠ []) {j k : Kind}
    (hj : x.kind.Becomes a j) (hk : x.kind.Becomes b k) :
    IsCut t (us ++ ⟨x.leading, j, a, []⟩ :: ⟨[], k, b, x.trailing⟩ :: vs) := by
  generalize hps : us ++ x :: vs = ps at h
  induction h generalizing us with
  | @whole t i hi =>
    cases us with
    | nil =>
      obtain ⟨rfl, rfl⟩ := List.cons.inj hps
      exact .cut (hi.isOperator hx).1 htext ha hb (hi.of_operator hx hj)
        (.whole (t := ⟨[], t.kind, b, t.trailing⟩) (hi.of_operator hx hk))
    | cons u us =>
      have hlen := congrArg List.length hps
      simp at hlen
  | @cut t i a' b' ps hop htext' ha' hb' hi hps' ih =>
    cases us with
    | nil =>
      obtain ⟨rfl, rfl⟩ := List.cons.inj hps
      obtain rfl : a' = a ++ b := htext
      rw [List.append_assoc] at htext'
      refine .cut hop htext' ha ?_ (hi.of_operator hx hj) (.cut hop rfl hb hb' ?_ hps')
      · simp [hb]
      · exact hi.of_operator hx hk
    | cons u us =>
      obtain ⟨rfl, hrest⟩ := List.cons.inj hps
      exact .cut hop htext' ha' hb' hi (ih hrest)

end IsCut

/-- Whether tokens are the pieces of others, in order. -/
inductive Pieces : List Token → List Token → Prop where
  | nil : Pieces [] []
  | cons {t : Token} {ts ps us : List Token} (ht : IsCut t ps) (hts : Pieces ts us) :
      Pieces (t :: ts) (ps ++ us)

namespace Pieces

/-- Tokens are the pieces of themselves. -/
theorem refl (ts : List Token) : Pieces ts ts := by
  induction ts with
  | nil => exact .nil
  | cons t ts ih => exact .cons (.refl t) ih

/-- Pieces make up what they are the pieces of. -/
theorem fullText_eq {ts us : List Token} (h : Pieces ts us) : fullText us = fullText ts := by
  induction h with
  | nil => rfl
  | cons ht _ ih => rw [fullText_append, ht.fullText_eq, ih, fullText_cons]

/-- The pieces of some tokens and those of others come one after the other. -/
theorem append {ts us ts' us' : List Token} (h : Pieces ts us) (h' : Pieces ts' us') :
    Pieces (ts ++ ts') (us ++ us') := by
  induction h with
  | nil => exact h'
  | cons ht _ ih =>
    rw [List.cons_append, List.append_assoc]
    exact .cons ht ih

/-- A token among the pieces is a piece of one of the others. -/
theorem exists_isCut {ts us vs : List Token} {x : Token} (h : Pieces ts (us ++ x :: vs)) :
    ∃ ts₁ t ts₂ us₁ ps qs vs₂, ts = ts₁ ++ t :: ts₂ ∧ us = us₁ ++ ps ∧ vs = qs ++ vs₂ ∧
      Pieces ts₁ us₁ ∧ IsCut t (ps ++ x :: qs) ∧ Pieces ts₂ vs₂ := by
  generalize hall : us ++ x :: vs = ws at h
  induction h generalizing us with
  | nil => cases us <;> cases hall
  | @cons t ts ps ws' ht hts ih =>
    rcases List.append_eq_append_iff.mp hall with ⟨as, hps, hrest⟩ | ⟨as, hus, hrest⟩
    · cases as with
      | nil =>
        obtain ⟨ts₁, t', ts₂, us₁, ps', qs, vs₂, rfl, hus, rfl, h₁, h', h₂⟩ :=
          @ih [] hrest
        rw [List.append_nil] at hps
        obtain ⟨rfl, rfl⟩ := List.append_eq_nil_iff.mp hus.symm
        refine ⟨t :: ts₁, t', ts₂, ps ++ [], [], qs, vs₂, rfl, by simp [hps], rfl, ?_, h', h₂⟩
        exact .cons ht h₁
      | cons y as =>
        obtain ⟨rfl, rfl⟩ := List.cons.inj hrest
        subst hps
        exact ⟨[], t, ts, [], us, as, ws', rfl, rfl, rfl, .nil, ht, hts⟩
    · subst hus
      obtain ⟨ts₁, t', ts₂, us₁, ps', qs, vs₂, rfl, rfl, rfl, h₁, h', h₂⟩ := ih hrest.symm
      refine ⟨t :: ts₁, t', ts₂, ps ++ us₁, ps', qs, vs₂, rfl, by simp, rfl, .cons ht h₁, h', h₂⟩

/-- What replaces a piece among the pieces of its token does so among all pieces. -/
theorem replace {ts us vs : List Token} {x : Token} (ys : List Token)
    (h : Pieces ts (us ++ x :: vs))
    (hx : ∀ t ps qs, IsCut t (ps ++ x :: qs) → IsCut t (ps ++ (ys ++ qs))) :
    Pieces ts (us ++ (ys ++ vs)) := by
  obtain ⟨ts₁, t, ts₂, us₁, ps, qs, vs₂, rfl, rfl, rfl, h₁, ht, h₂⟩ := h.exists_isCut
  have hall := h₁.append (.cons (hx t ps qs ht) h₂)
  simpa using hall

theorem recast {ts us vs : List Token} {x : Token} (h : Pieces ts (us ++ x :: vs)) {k : Kind}
    (hk : x.kind.Becomes x.text k) : Pieces ts (us ++ { x with kind := k } :: vs) :=
  h.replace [_] fun _ _ _ ht => ht.recast hk

theorem split {ts us vs : List Token} {x : Token} (h : Pieces ts (us ++ x :: vs))
    (hx : x.kind.isOperator) {a b : Text} (htext : x.text = a ++ b) (ha : a ≠ []) (hb : b ≠ [])
    {j k : Kind} (hj : x.kind.Becomes a j) (hk : x.kind.Becomes b k) :
    Pieces ts (us ++ ⟨x.leading, j, a, []⟩ :: ⟨[], k, b, x.trailing⟩ :: vs) :=
  h.replace [_, _] fun _ _ _ ht => ht.split hx htext ha hb hj hk

end Pieces

end Token

end SwiftTree
