import SwiftTree.Proofs.Forest

/-!
# Rules come to an end

Rules call each other in circles and repeat each other in loops, and many of them may take no token
at all. They come to an end because each circle of calls and each round of a loop takes something.
To show this, goals have an order (`Goal.rank`): of two goals that call each other before the same
tokens, the one that is called comes first in it. `Goal.Reaches` says what reaching a goal does to
the tokens ahead: nothing at all, or it takes something (`Ahead.Onward`).

`Parser.wp` is the condition under which a rule ends with an outcome as wanted, if until it has
taken something it only calls goals that come before a given place in the order (`Ahead.Allows`),
and if it takes something in every round of a loop. `Parser.run_of_wp` turns it into an outcome,
once for all rules, and `Parser.meets_of_wp` into a statement about every call and every round on
the way. The condition itself speaks of the tokens ahead only.
-/

namespace SwiftTree.Grammar

/-! ## Weights -/

namespace Ahead

/-- How many bytes are still to be read. -/
def left (ts : Ahead) : Nat := Text.byteLen ts.source

@[simp] theorem left_cons (x : Lexeme) (ts : Ahead) :
    left (x :: ts) = x.token.byteLen + left ts := by
  rw [left, source_cons, Text.byteLen_append, Token.byteLen_full]
  rfl

@[simp] theorem left_splitHead (head : SolidKind) (rest : Option SolidKind) (ts : Ahead) :
    (ts.splitHead head rest).left = ts.left := by
  rw [left, source_splitHead]
  rfl

/-- Behind the next token there is no more left than before it. -/
theorem left_tail_le (ts : Ahead) : left ts.tail ≤ left ts := by
  cases ts with
  | nil => exact Nat.le_refl _
  | cons x ts => exact (left_cons x ts).symm ▸ Nat.le_add_left _ _

/-- Every token takes room. -/
theorem left_tail_lt {ts : Ahead} (h : ts ≠ []) : left ts.tail < left ts := by
  cases ts with
  | nil => exact absurd rfl h
  | cons x ts =>
    have hlen := Text.byteLen_pos x.solid.1
    rw [left_cons, Token.byteLen, List.tail_cons]
    omega

/-- What is behind the head of a cut token is less than what was there: the head has at least one
byte. -/
theorem left_tail_splitHead_lt {head : SolidKind} {rest : Option SolidKind} {ts : Ahead}
    (h : ts ≠ []) : left (ts.splitHead head rest).tail < left ts := by
  have hne : ts.splitHead head rest ≠ [] := by
    rcases splitHead_eq head rest ts with hs | ⟨_, _, _, _, _, _, _, _, hs, -⟩
    · rwa [hs]
    · rw [hs]
      exact List.cons_ne_nil _ _
  rw [← left_splitHead head rest ts]
  exact left_tail_lt hne

/-- Behind any number of tokens there is no more left. -/
theorem left_drop_le (n : Nat) (ts : Ahead) : left (ts.drop n) ≤ left ts := by
  induction n generalizing ts with
  | zero => exact Nat.le_refl _
  | succ n ih =>
    rw [← List.drop_tail]
    exact Nat.le_trans (ih ts.tail) (left_tail_le ts)

/-- Behind at least one token there is less left, if there was one. -/
theorem left_drop_lt {n : Nat} {ts : Ahead} (hn : 0 < n) (h : ts ≠ []) :
    left (ts.drop n) < left ts := by
  obtain ⟨n, rfl⟩ := Nat.exists_eq_succ_of_ne_zero (Nat.ne_of_gt hn)
  rw [← List.drop_tail]
  exact Nat.lt_of_le_of_lt (left_drop_le n ts.tail) (left_tail_lt h)

/-- Whether rules can lead from some tokens to others: nothing was done, or something was taken. -/
def Onward (ts us : Ahead) : Prop := us = ts ∨ us.left < ts.left

namespace Onward

theorem refl (ts : Ahead) : Onward ts ts := .inl rfl

variable {ts us vs : Ahead}

/-- Onward there is no more left. -/
theorem le (h : Onward ts us) : us.left ≤ ts.left := by
  rcases h with rfl | h
  · exact Nat.le_refl _
  · exact Nat.le_of_lt h

/-- What is onward of something onward is onward of the start. -/
theorem trans (h : Onward ts us) (h' : Onward us vs) : Onward ts vs := by
  rcases h with rfl | h
  · exact h'
  · exact .inr (Nat.lt_of_le_of_lt h'.le h)

/-- Taking the next token leads onward. -/
theorem tail (ts : Ahead) : Onward ts ts.tail := by
  cases ts with
  | nil => exact .refl []
  | cons x ts => exact .inr (left_tail_lt (List.cons_ne_nil x ts))

/-- Taking any number of tokens leads onward. -/
theorem drop (n : Nat) (ts : Ahead) : Onward ts (ts.drop n) := by
  rcases n with _ | n
  · exact .refl ts
  · rcases ts with _ | ⟨x, ts⟩
    · exact .refl []
    · exact .inr (left_drop_lt (Nat.succ_pos n) (List.cons_ne_nil x ts))

end Onward

/-- Whether an operand starts here. Where no expression starts, a binding may. -/
def startsOperand (ts : Ahead) : Bool := ts.startsExpr || ts.isAt .letKw || ts.isAt .varKw

theorem startsOperand_of_startsExpr {ts : Ahead} (h : ts.startsExpr) : ts.startsOperand := by
  rw [startsOperand, h]
  rfl

/-- Tokens that start a pattern of a declaration. -/
def patternFirst : KindSet := .ofList
  [.identifier, .selfKw, .underscore, .leftParen, .letKw, .varKw]

/-- Whether a rule that stands at the place `r` in the order and starts before some tokens may,
before others, call the goals below the place `rank`: something was taken, or it stands high enough
itself. -/
def Allows (start : Ahead) (r rank : Nat) (ts : Ahead) : Prop :=
  ts.left < start.left ∨ ts = start ∧ rank ≤ r

namespace Allows

variable {start ts us : Ahead} {r rank rank' : Nat}

/-- Where goals are allowed, there is no more left than at the start. -/
theorem left_le (h : start.Allows r rank ts) : ts.left ≤ start.left := by
  rcases h with h | ⟨rfl, -⟩
  · exact Nat.le_of_lt h
  · exact Nat.le_refl _

theorem mono (h : start.Allows r rank ts) (hr : rank' ≤ rank) : start.Allows r rank' ts :=
  h.imp_right fun h => ⟨h.1, Nat.le_trans hr h.2⟩

/-- Where something was taken, any goal may be called. -/
theorem of_lt (h : start.Allows r rank ts) (hlt : us.left < ts.left) : start.Allows r rank' us :=
  .inl (Nat.lt_of_lt_of_le hlt h.left_le)

/-- What is allowed stays so onward. -/
theorem onward (h : start.Allows r rank ts) (hus : ts.Onward us) : start.Allows r rank us := by
  rcases hus with rfl | hlt
  · exact h
  · exact h.of_lt hlt

end Allows

end Ahead

namespace Goal

/-- The order in which goals call each other at one place. A closure that starts with its brace
takes it first; one that does not may call anything. -/
def rank : Goal → Ahead → Nat
  | pattern, _ => 0
  | plainType, _ => 1
  | type, _ => 2
  | operand _, _ => 3
  | unary _ _, _ => 4
  | sequence _ _, _ => 5
  | casePattern _, _ => 6
  | statement, _ => 7
  | statements _, _ => 8
  | switchCases _, _ => 9
  | closure, ts => if ts.isAt .leftBrace then 0 else 9

/-- The place behind all goals. -/
def top : Nat := 10

theorem rank_lt_top (g : Goal) (ts : Ahead) : g.rank ts < top := by
  unfold top
  cases g <;> simp only [rank] <;> first | omega | (split <;> omega)

/-- What is left counts most, and the place in the order next. -/
theorem weight_lt {g : Goal} {start ts : Ahead} {r : Nat}
    (h : start.Allows r (g.rank ts + 1) ts) : 16 * ts.left + g.rank ts < 16 * start.left + r := by
  have hlt : g.rank ts < 10 := g.rank_lt_top ts
  rcases h with h | ⟨rfl, h⟩
  · omega
  · omega

/-- Whether reaching a goal certainly takes something. -/
def takes : Goal → Ahead → Bool
  | sequence _ _, ts | unary _ _, ts => ts.startsOperand
  | operand _, ts =>
    ts.startsOperand && !ts.isAt .tryKw && !(ts.isAt .prefixOperator && !ts.isOperatorRef)
  | type, ts => ts.isIn Ahead.typeFirst || ts.isComposition
  | plainType, ts => ts.isIn Ahead.typeFirst
  | pattern, ts => ts.isIn Ahead.patternFirst
  | casePattern _, ts => ts.startsOperand || ts.isAt .isKw
  | statement, ts => ts.startsItem
  | closure, ts => ts.isAt .leftBrace
  | _, _ => false

/-- Whether reaching a goal leads from some tokens to others. -/
structure Reaches (g : Goal) (ts us : Ahead) : Prop where
  /-- nothing was done, or something was taken -/
  onward : ts.Onward us
  /-- something was taken where the goal takes something -/
  lt : g.takes ts → us.left < ts.left
  /-- statements only end where their body does -/
  ends : ∀ body, g = .statements body → us.endsBody body

end Goal

/-! ## The condition for an outcome -/

namespace Parser

/-- The condition under which a rule that stands at the place `r` and starts before the tokens
`start` ends as wanted. -/
def wp (start : Ahead) (r : Nat) :
    {α : Type} → Parser α → Ahead → (α → Ahead → Prop) → Prop
  | _, .pure a, ts, post => post a ts
  | _, .bind first next, ts, post => first.wp start r ts fun a us => (next a).wp start r us post
  | _, .look f, ts, post => post (f ts) ts
  | _, .take _, ts, post => post () ts.tail
  | _, .splitHead head rest, ts, post => post () (ts.splitHead head rest)
  | _, .missing _ _, ts, post => post () ts
  | _, .placeholder _, ts, post => post () ts
  | _, .unexpected more, ts, post => post () (ts.drop (more + 1))
  | _, .override _ _, ts, post => post () ts
  | _, .mark body, ts, post => body.wp start r ts fun a us => post a.2 us
  | _, .enclose _ body, ts, post => body.wp start r ts post
  | _, .call goal, ts, post =>
    start.Allows r (goal.rank ts + 1) ts ∧ ∀ a us, goal.Reaches ts us → post a us
  | _, .repeatUntil body, ts, post =>
    ts.left ≤ start.left ∧ ∀ us, ts.Onward us →
      body.wp start r us fun a vs => match a with
        | some a => post a vs
        | none => vs.left < us.left

variable {α : Type} {start : Ahead} {r : Nat} {ts : Ahead}

theorem wp_bind {β : Type} {first : Parser α} {next : α → Parser β} {post : β → Ahead → Prop} :
    (first >>= next).wp start r ts post =
      first.wp start r ts fun a us => (next a).wp start r us post := rfl

theorem wp_look {f : Ahead → α} {post : α → Ahead → Prop} :
    (Grammar.look f).wp start r ts post = post (f ts) ts := rfl

/-- The condition for a rule may be weakened in what it demands of the outcome. The proof follows
the operations of rules. -/
theorem wp_mono {p : Parser α} {post post' : α → Ahead → Prop} (h : p.wp start r ts post)
    (hpost : ∀ a us, post a us → post' a us) : p.wp start r ts post' := by
  induction p generalizing ts with
  | pure a => exact hpost _ _ h
  | bind first next ih_first ih_next => exact ih_first h fun a us h => ih_next a h hpost
  | look f => exact hpost _ _ h
  | take kind => exact hpost _ _ h
  | splitHead head rest => exact hpost _ _ h
  | missing kind spelling => exact hpost _ _ h
  | placeholder kind => exact hpost _ _ h
  | unexpected more => exact hpost _ _ h
  | override start diagnostic => exact hpost _ _ h
  | mark body ih => exact ih h fun a us h => hpost _ _ h
  | enclose kind body ih => exact ih h hpost
  | call goal => exact ⟨h.1, fun a us hr => hpost a us (h.2 a us hr)⟩
  | repeatUntil body ih =>
    refine ⟨h.1, fun us hus => ih (h.2 us hus) ?_⟩
    rintro (_ | a) vs h
    · exact h
    · exact hpost _ _ h

end Parser

/-! ## What the condition promises -/

/-- A loop that takes something in each round ends before the rounds run out. -/
theorem iterate_of_wp {σ α : Type} {step : State σ → Option (Option α × State σ)}
    {post : α → Ahead → Prop} {ts : Ahead}
    (hstep : ∀ s, ts.Onward s.ahead → ∃ a t, step s = some (a, t) ∧
      match a with
        | some a => post a t.ahead
        | none => t.ahead.left < s.ahead.left)
    (n : Nat) : ∀ s : State σ, ts.Onward s.ahead → s.ahead.left < n →
      ∃ a t, iterate step n s = some (a, t) ∧ post a t.ahead := by
  induction n with
  | zero =>
    intro s _ hn
    exact absurd hn (Nat.not_lt_zero _)
  | succ n ih =>
    intro s hs hn
    obtain ⟨_ | a, t, ht, hpost⟩ := hstep s hs
    · have hlt : t.ahead.left < s.ahead.left := hpost
      rw [iterate, ht]
      exact ih t (hs.trans (.inr hlt)) (by omega)
    · rw [iterate, ht]
      exact ⟨a, t, rfl, hpost⟩

section Runs

variable {σ : Type} [Assembly σ]

theorem State.ahead_take (kind : Option SolidKind) (s : State σ) :
    (s.take kind).ahead = s.ahead.tail := by
  obtain ⟨_ | ⟨x, ts⟩, built⟩ := s <;> rfl

/-- Skipping leaves what is behind the tokens that are skipped. -/
theorem State.ahead_unexpected (more : Nat) (s : State σ) :
    (s.unexpected more).ahead = s.ahead.drop (more + 1) := by
  obtain ⟨_ | ⟨x, ts⟩, built⟩ := s
  · rfl
  · rw [unexpected_cons, List.drop_succ_cons]

/-- Whether an environment reaches all goals that a rule may call that stands at the place `r` and
starts before the tokens `start`, and grants more rounds than bytes are left then. -/
structure Env.Grants (env : Env σ) (start : Ahead) (r : Nat) : Prop where
  /-- goals are reached -/
  call : ∀ g (s : State σ), start.Allows r (g.rank s.ahead + 1) s.ahead →
    ∃ a t, env.call g s = some (a, t) ∧ g.Reaches s.ahead t.ahead
  /-- loops may go round so often -/
  rounds : start.left < env.rounds

/-- **Under its condition a rule has an outcome**, and it is as wanted. This turns a statement about
one rule into one about its runs, once for all rules, by induction on how they are put together.
Loops end since each round but the last takes something. -/
theorem Parser.run_of_wp {α : Type} {start : Ahead} {r : Nat} {env : Env σ}
    (henv : env.Grants start r) {p : Parser α} :
    ∀ {s : State σ} {post : α → Ahead → Prop}, p.wp start r s.ahead post →
      ∃ a t, p.run env s = some (a, t) ∧ post a t.ahead := by
  induction p with
  | pure a =>
    intro s post h
    exact ⟨a, s, rfl, h⟩
  | bind first next ih_first ih_next =>
    intro s post h
    obtain ⟨a, t, ht, hnext⟩ := ih_first h
    obtain ⟨b, u, hu, hpost⟩ := ih_next a hnext
    refine ⟨b, u, ?_, hpost⟩
    rw [run, ht]
    exact hu
  | look f =>
    intro s post h
    exact ⟨_, s, rfl, h⟩
  | take kind =>
    intro s post h
    exact ⟨(), s.take kind, rfl, by rwa [State.ahead_take]⟩
  | splitHead head rest =>
    intro s post h
    exact ⟨(), _, rfl, h⟩
  | missing kind spelling =>
    intro s post h
    exact ⟨(), _, rfl, h⟩
  | placeholder kind =>
    intro s post h
    exact ⟨(), _, rfl, h⟩
  | unexpected more =>
    intro s post h
    exact ⟨(), _, rfl, by rwa [State.ahead_unexpected]⟩
  | override start diagnostic =>
    intro s post h
    exact ⟨(), _, rfl, h⟩
  | mark body ih =>
    intro s post h
    obtain ⟨⟨kind, a⟩, t, ht, hpost⟩ := ih (s := s.enter.2) h
    exact ⟨a, t.leave s.enter.1 (kind.map Subtype.val), by rw [run_mark, ht], hpost⟩
  | enclose kind body ih =>
    intro s post h
    obtain ⟨a, t, ht, hpost⟩ := ih (s := s.precede.2) h
    exact ⟨a, t.leave s.precede.1 (some kind.1), by rw [run_enclose, ht], hpost⟩
  | call goal =>
    intro s post h
    obtain ⟨a, t, ht, hreaches⟩ := henv.call goal s h.1
    exact ⟨a, t, ht, h.2 a t.ahead hreaches⟩
  | repeatUntil body ih =>
    intro s post h
    -- the rounds that are granted are more than the tokens that are left
    refine iterate_of_wp (fun t ht => ?_) env.rounds s (.refl _)
      (Nat.lt_of_le_of_lt h.1 henv.rounds)
    exact ih (h.2 t.ahead ht)

/-! ## Calls and rounds on the way -/

/-- What may happen on the way through a rule. -/
inductive Happening (σ : Type) where
  /-- a goal is called -/
  | call (goal : Goal) (s : State σ)
  /-- a round of a loop leads from one state to another, and the loop goes on -/
  | round (s t : State σ)

/-- Whether something on the way brings the end nearer: a call comes behind something that was
taken, or before its caller in the order, and a round takes something. -/
def Happening.Descends (start : Ahead) (r : Nat) : Happening σ → Prop
  | call goal s => start.Allows r (goal.rank s.ahead + 1) s.ahead
  | round s t => t.ahead.left < s.ahead.left

/-- Whether something happens on the way through a rule from a state. -/
inductive Parser.Meets (env : Env σ) : {α : Type} → Parser α → State σ → Happening σ → Prop where
  | first {α β : Type} {first : Parser α} {next : α → Parser β} {s : State σ} {m : Happening σ}
      (h : Meets env first s m) : Meets env (.bind first next) s m
  | next {α β : Type} {first : Parser α} {next : α → Parser β} {s t : State σ} {a : α}
      {m : Happening σ} (hr : first.run env s = some (a, t)) (h : Meets env (next a) t m) :
      Meets env (.bind first next) s m
  | mark {α : Type} {body : Parser (Option Construct × α)} {s : State σ} {m : Happening σ}
      (h : Meets env body s.enter.2 m) : Meets env (.mark body) s m
  | enclose {α : Type} {kind : Construct} {body : Parser α} {s : State σ} {m : Happening σ}
      (h : Meets env body s.precede.2 m) : Meets env (.enclose kind body) s m
  | call {goal : Goal} {s : State σ} : Meets env (.call goal) s (.call goal s)
  | inside {α : Type} {body : Parser (Option α)} {s : State σ} {m : Happening σ}
      (h : Meets env body s m) : Meets env (.repeatUntil body) s m
  | round {α : Type} {body : Parser (Option α)} {s t : State σ}
      (hr : body.run env s = some (none, t)) : Meets env (.repeatUntil body) s (.round s t)
  | goOn {α : Type} {body : Parser (Option α)} {s t : State σ} {m : Happening σ}
      (hr : body.run env s = some (none, t)) (h : Meets env (.repeatUntil body) t m) :
      Meets env (.repeatUntil body) s m

/-- What is left after a rule that has an outcome. -/
theorem Parser.post_of_run {α : Type} {start : Ahead} {r : Nat} {env : Env σ}
    (henv : env.Grants start r) {p : Parser α} {s t : State σ} {a : α} {post : α → Ahead → Prop}
    (h : p.wp start r s.ahead post)
    (hr : p.run env s = some (a, t)) : post a t.ahead := by
  obtain ⟨b, u, hu, hpost⟩ := run_of_wp henv h
  rw [hr] at hu
  cases hu
  exact hpost

/-- Under the condition of a rule, everything on its way brings the end nearer. The condition that
gives a rule its outcome also bounds what happens before: each call is below the rule in the order
of goals, or has less to read. -/
theorem Parser.meets_of_wp {α : Type} {start : Ahead} {r : Nat} {env : Env σ}
    (henv : env.Grants start r) {p : Parser α} {s : State σ} {m : Happening σ}
    (hm : p.Meets env s m) :
    ∀ {post : α → Ahead → Prop}, p.wp start r s.ahead post → m.Descends start r := by
  induction hm with
  | first _ ih =>
    intro post h
    exact ih h
  | @next _ _ first _ _ _ _ _ hr _ ih =>
    intro post h
    exact ih (post_of_run (p := first) henv h hr)
  | mark _ ih =>
    intro post h
    exact ih h
  | enclose _ ih =>
    intro post h
    exact ih h
  | call =>
    intro post h
    exact h.1
  | inside _ ih =>
    intro post h
    exact ih (h.2 _ (.refl _))
  | round hr =>
    intro post h
    exact post_of_run henv (h.2 _ (.refl _)) hr
  | @goOn _ body s t _ hr _ ih =>
    intro post h
    have hlt : t.ahead.left < s.ahead.left := post_of_run henv (h.2 _ (.refl _)) hr
    refine ih ⟨Nat.le_trans (Nat.le_of_lt hlt) h.1, fun us hus => h.2 us ?_⟩
    exact .trans (.inr hlt) hus

end Runs

end SwiftTree.Grammar
