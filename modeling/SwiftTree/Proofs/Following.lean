import SwiftTree.Proofs.Construction

/-!
# Where rules end

A rule ends in a state with an answer (`Parser.Ends`) if it has no other outcome, however many calls
and rounds it is granted. That it has an outcome at all is no part of this: texts are granted enough
of both (`Entry.outcome_of_ends`).

What is said here is one lemma for each way to put rules together, so that a rule can be followed on
tokens of which only some things are known.
-/

namespace SwiftTree.Grammar

variable {σ : Type} [Assembly σ]

/-- Whether a rule has no other outcome than an answer and a state. -/
def Parser.Ends {α : Type} (p : Parser α) (s : State σ) (a : α) (t : State σ) : Prop :=
  ∀ n rounds r, p.run ⟨Goal.run n, rounds⟩ s = some r → r = (a, t)

/-- Whether rounds of a loop have no other outcome than an answer and a state. -/
def Parser.Turns {α : Type} (body : Parser (Option α)) (s : State σ) (a : α) (t : State σ) : Prop :=
  ∀ n rounds k r, iterate (body.run ⟨Goal.run n, rounds⟩) k s = some r → r = (a, t)

namespace Parser

variable {α β : Type} {s t u : State σ} {a : α} {b : β}

namespace Ends

theorem pure (a : α) (s : State σ) : (Pure.pure a : Parser α).Ends s a s :=
  fun _ _ _ h => (Option.some.inj h).symm

/-- Two rules one after the other end where the second one ends. -/
theorem bind {first : Parser α} {next : α → Parser β} (h : first.Ends s a t)
    (h' : (next a).Ends t b u) : (first >>= next).Ends s b u := by
  intro n rounds r hr
  change (Parser.bind first next).run _ s = _ at hr
  rw [Parser.run] at hr
  split at hr
  · cases hr
  · rename_i hfirst
    obtain ⟨rfl, rfl⟩ := Prod.mk.inj (h n rounds _ hfirst)
    exact h' n rounds r hr

/-- A look ends with what is seen, and changes nothing. -/
theorem look {f : Ahead → α} (h : f s.ahead = a) : (Grammar.look f).Ends s a s := by
  subst h
  exact fun _ _ _ h => (Option.some.inj h).symm

theorem take (kind : Option SolidKind) (s : State σ) : (Parser.take kind).Ends s () (s.take kind) :=
  fun _ _ _ h => (Option.some.inj h).symm

theorem splitHead (head : SolidKind) (rest : Option SolidKind) (s : State σ) :
    (Parser.splitHead head rest).Ends s () { s with ahead := s.ahead.splitHead head rest } :=
  fun _ _ _ h => (Option.some.inj h).symm

/-- A node ends where its parts end, and is closed there. -/
theorem mark {body : Parser (Option Construct × α)} (kind : Option Construct)
    (h : body.Ends s.enter.2 (kind, a) t) :
    (Parser.mark body).Ends s a (t.leave s.enter.1 (kind.map Subtype.val)) := by
  intro n rounds r hr
  rw [run_mark] at hr
  split at hr
  · cases hr
  · rename_i hbody
    obtain ⟨hanswer, rfl⟩ := Prod.mk.inj (h n rounds _ hbody)
    obtain ⟨rfl, rfl⟩ := Prod.mk.inj hanswer
    exact (Option.some.inj hr).symm

theorem nodeBy {body : Parser (Construct × α)} {kind : Construct}
    (h : body.Ends s.enter.2 (kind, a) t) :
    (Grammar.nodeBy body).Ends s a (t.leave s.enter.1 (some kind.1)) :=
  mark (some kind) (h.bind (pure _ _))

theorem node {body : Parser α} {kind : Kind} {hk : kind.isConstruct} (h : body.Ends s.enter.2 a t) :
    (Grammar.node kind body hk).Ends s a (t.leave s.enter.1 (some kind)) :=
  mark (some ⟨kind, hk⟩) (h.bind (pure _ _))

/-- A node around the newest tree ends where the rest of its parts ends. -/
theorem enclose {body : Parser α} {kind : Kind} {hk : kind.isConstruct}
    (h : body.Ends s.precede.2 a t) :
    (Grammar.enclose kind body hk).Ends s a (t.leave s.precede.1 (some kind)) := by
  intro n rounds r hr
  change (Parser.enclose ⟨kind, hk⟩ body).run _ s = _ at hr
  rw [run_enclose] at hr
  split at hr
  · cases hr
  · rename_i hbody
    obtain ⟨rfl, rfl⟩ := Prod.mk.inj (h n rounds _ hbody)
    exact (Option.some.inj hr).symm

/-- A call ends as the rule that it calls. -/
theorem call {goal : Goal} {b : Bool} (h : goal.rule.Ends s b t) :
    (Grammar.call goal).Ends s b t := by
  intro n rounds r hr
  cases n with
  | zero => cases hr
  | succ n => exact h n n r hr

theorem visit {goal : Goal} {b : Bool} (h : goal.rule.Ends s b t) :
    (Grammar.visit goal).Ends s () t :=
  (call h).bind (pure _ _)

/-- A rule that is no expression ends in no missing operand. -/
theorem complete {rule : Parser Unit} (h : rule.Ends s () t) :
    (Grammar.complete rule).Ends s false t := h.bind (pure _ _)

/-- At the end of a text nothing is skipped. -/
theorem skipUntil_nil (stop : KindSet) (built : σ) :
    (Grammar.skipUntil stop).Ends ⟨[], built⟩ () ⟨[], built⟩ :=
  fun _ _ _ hr => (Option.some.inj hr).symm

/-! ### Conditions -/

theorem ifAhead {test : Ahead → Bool} {rule : Parser Unit} (htest : test s.ahead)
    (h : rule.Ends s () t) : (Grammar.ifAhead test rule).Ends s () t :=
  (look htest).bind h

theorem ifAhead_not {test : Ahead → Bool} {rule : Parser Unit} (htest : test s.ahead = false) :
    (Grammar.ifAhead test rule).Ends s () s :=
  (look htest).bind (pure _ _)

theorem branch {test : Ahead → Bool} {p q : Parser α} (htest : test s.ahead) (h : p.Ends s a t) :
    (Grammar.look test >>= fun b => if b then p else q).Ends s a t :=
  (look htest).bind h

theorem branch_not {test : Ahead → Bool} {p q : Parser α} (htest : test s.ahead = false)
    (h : q.Ends s a t) : (Grammar.look test >>= fun b => if b then p else q).Ends s a t :=
  (look htest).bind h

/-! ### Tokens -/

theorem advance (x : Lexeme) (ts : Ahead) (built : σ) :
    Grammar.advance.Ends ⟨x :: ts, built⟩ () ⟨ts, Assembly.token x.token x.start built⟩ :=
  take none _

theorem eat {k : Kind} {x : Lexeme} {ts : Ahead} {built : σ} (h : x.kind = k) :
    (Grammar.eat k).Ends ⟨x :: ts, built⟩ true ⟨ts, Assembly.token x.token x.start built⟩ :=
  branch (beq_iff_eq.mpr h) ((advance x ts built).bind (pure _ _))

theorem eat_not {k : Kind} (h : s.ahead.kind ≠ k) : (Grammar.eat k).Ends s false s :=
  branch_not (beq_eq_false_iff_ne.mpr h) (pure _ _)

/-- A required token that is there is taken. -/
theorem require {k : Kind} {hk : k.isSolid} {x : Lexeme} {ts : Ahead} {built : σ} (h : x.kind = k) :
    (Grammar.require k hk).Ends ⟨x :: ts, built⟩ () ⟨ts, Assembly.token x.token x.start built⟩ := by
  refine bind (a := true) ?_ (pure _ _)
  exact (eat h).bind (pure _ _)

/-! ### Nodes of a forest -/

section Forest

variable {ts us : Ahead} {built : Forest} {g : Green}

/-- A node is added with what was put together inside. -/
theorem forestNode {body : Parser α} {kind : Kind} {hk : kind.isConstruct} (gs : Forest)
    (h : body.Ends ⟨ts, ([] : Forest)⟩ a ⟨us, gs⟩) (hg : .node kind gs.reverse = g) :
    (Grammar.node kind body hk).Ends ⟨ts, built⟩ a ⟨us, g :: built⟩ :=
  hg ▸ .node (s := ⟨ts, built⟩) (t := ⟨us, gs⟩) h

theorem forestNodeBy {body : Parser (Construct × α)} (kind : Construct) (gs : Forest)
    (h : body.Ends ⟨ts, ([] : Forest)⟩ (kind, a) ⟨us, gs⟩) (hg : .node kind.1 gs.reverse = g) :
    (Grammar.nodeBy body).Ends ⟨ts, built⟩ a ⟨us, g :: built⟩ :=
  hg ▸ .nodeBy (s := ⟨ts, built⟩) (t := ⟨us, gs⟩) h

/-- A node is put around the newest tree. -/
theorem forestEnclose {body : Parser α} {kind : Kind} {hk : kind.isConstruct} {gs : Forest}
    (hg : g.isNode) (h : body.Ends ⟨ts, ([] : Forest)⟩ a ⟨us, gs⟩) :
    (Grammar.enclose kind body hk).Ends ⟨ts, g :: built⟩ a
      ⟨us, .node kind (g :: gs.reverse) :: built⟩ := by
  cases g with
  | leaf l => cases hg
  | node k cs => exact .enclose (s := ⟨ts, .node k cs :: built⟩) (t := ⟨us, gs⟩) h

end Forest

/-! ### Loops -/

theorem repeatUntil {body : Parser (Option α)} (h : body.Turns s a t) :
    (Grammar.repeatUntil body).Ends s a t :=
  fun n rounds r hr => h n rounds rounds r hr

end Ends

namespace Turns

/-- A round with an answer is the last one. -/
theorem stop {body : Parser (Option α)} (h : body.Ends s (some a) t) : body.Turns s a t := by
  intro n rounds k r hr
  cases k with
  | zero => cases hr
  | succ k =>
    rw [iterate] at hr
    split at hr
    · cases hr
    · rename_i hbody
      cases h n rounds _ hbody
      exact (Option.some.inj hr).symm
    · rename_i hbody
      cases h n rounds _ hbody

/-- A round without an answer is followed by others. -/
theorem again {body : Parser (Option α)} (h : body.Ends s none t) (h' : body.Turns t a u) :
    body.Turns s a u := by
  intro n rounds k r hr
  cases k with
  | zero => cases hr
  | succ k =>
    rw [iterate] at hr
    split at hr
    · cases hr
    · rename_i hbody
      cases h n rounds _ hbody
    · rename_i hbody
      cases h n rounds _ hbody
      exact h' n rounds k r hr

end Turns

/-- Whether a rule that is repeated as long as it answers `true` has no other outcome than a
state. -/
abbrev Repeats (body : Parser Bool) (s t : State σ) : Prop :=
  Turns (do return if ← body then none else some ()) s () t

namespace Repeats

theorem stop {body : Parser Bool} (h : body.Ends s false t) : body.Repeats s t :=
  Turns.stop (h.bind (.pure _ _))

theorem again {body : Parser Bool} (h : body.Ends s true t) (h' : body.Repeats t u) :
    body.Repeats s u := Turns.again (h.bind (.pure _ _)) h'

end Repeats

theorem Ends.repeatWhile {body : Parser Bool} (h : body.Repeats s t) :
    (Grammar.repeatWhile body).Ends s () t := .repeatUntil h

/-- A loop whose test fails adds nothing. -/
theorem Ends.whileAhead_not {test : Ahead → Bool} {rule : Parser Unit} (h : test s.ahead = false) :
    (Grammar.whileAhead test rule).Ends s () s :=
  .repeatWhile (.stop (branch_not h (.pure _ _)))

end Parser

end SwiftTree.Grammar

namespace SwiftTree.Entry

open Grammar

/-- **From rules to texts.** The outcome of a text is the one that its rules have, if they have no
other. That there is one at all is known of all texts, so rules are followed without a thought of
how many calls are granted. -/
theorem outcome_of_ends {e : Entry} {text : Text} {σ : Type} [Assembly σ] {built : σ} {t : State σ}
    (h : e.rule.Ends ⟨.ofText text, built⟩ () t) :
    e.outcome (callLimit (Text.byteLen text)) text built = some t := by
  obtain ⟨a, s, hrun, -⟩ := Parser.run_of_wp (s := ⟨.ofText text, built⟩)
    (grants_callLimit (Nat.le_refl _)) (e.rule_wp (.ofText text))
  rw [outcome, hrun, Option.map_some, h _ _ _ hrun]

end SwiftTree.Entry
