import SwiftTree.Grammar.Run

/-!
# Rules take the same steps for every assembly

Rules only write to what they put together. So two assemblies that follow one rule on the same
tokens take the same steps, and whatever relates what they have put together before still relates it
afterwards, if single steps respect it. `Simulation` names what has to be checked of the single
steps: one condition for each operation, stated only for the kinds that rules can use there.
`Simulation.run` and `Simulation.goal` are the inductions over rules and over calls.

What is related is related relative to a context, since an open node hides what stands before it: a
simulation chooses a context for the inside of a node, and says how to get back when the node
closes.

A property of one assembly is a simulation with `Unit`, which puts nothing together.
-/

namespace SwiftTree.Grammar

/-- Nothing is put together. -/
instance : Assembly Unit where
  Mark := Unit
  token _ _ _ := ()
  missing _ _ _ := ()
  enter _ := ((), ())
  precede _ := ((), ())
  leave _ _ _ := ()

variable {σ τ : Type} [Assembly σ] [Assembly τ]

/-- Adds tokens as they are. -/
def addAll (xs : Ahead) (built : σ) : σ :=
  xs.foldl (fun built x => Assembly.token x.token x.start built) built

/-- Taking several tokens adds them as they are. -/
theorem State.takeBy_eq (n : Nat) (s : State σ) :
    s.takeBy n = ⟨s.ahead.drop n, addAll (s.ahead.take n) s.built⟩ := by
  induction n generalizing s with
  | zero => rfl
  | succ n ih =>
    obtain ⟨ahead, built⟩ := s
    cases ahead with
    | nil => rw [State.takeBy, ih]; simp [State.take]
    | cons x ts => rw [State.takeBy, ih]; rfl

/-- Skipped text is a node around the tokens that are taken. -/
theorem State.unexpected_cons (more : Nat) (x : Lexeme) (ts : Ahead) (built : σ) :
    State.unexpected more ⟨x :: ts, built⟩ = ⟨ts.drop more,
      Assembly.leave (Assembly.enter built).1 (some .unexpected)
        (addAll (x :: ts.take more) (Assembly.enter built).2)⟩ := by
  show ((State.takeBy (more + 1) ⟨x :: ts, (Assembly.enter built).2⟩).leave _ _) = _
  rw [takeBy_eq]
  rfl

@[simp] theorem fst_addAll (xs : Ahead) (built : σ × τ) :
    (addAll xs built).1 = addAll xs built.1 := by
  induction xs generalizing built with
  | nil => rfl
  | cons x xs ih => exact ih _

@[simp] theorem snd_addAll (xs : Ahead) (built : σ × τ) :
    (addAll xs built).2 = addAll xs built.2 := by
  induction xs generalizing built with
  | nil => rfl
  | cons x xs ih => exact ih _

theorem Parser.run_look_bind {α β : Type} {env : Env σ} {s : State σ} {f : Ahead → α}
    {next : α → Parser β} :
    (Grammar.look f >>= next).run env s = (next (f s.ahead)).run env s := rfl

/-- What is done one after the other goes on where the first rule ends. -/
theorem Parser.run_bind_of_run {α β : Type} {env : Env σ} {s t : State σ} {first : Parser α}
    {next : α → Parser β} {a : α} (h : first.run env s = some (a, t)) :
    (first >>= next).run env s = (next a).run env t := by
  show (Parser.bind first next).run env s = _
  rw [Parser.run, h]

/-- What is done one after the other has an outcome in between. -/
theorem Parser.exists_run_of_bind {α β : Type} {env : Env σ} {s u : State σ} {first : Parser α}
    {next : α → Parser β} {b : β} (h : (first >>= next).run env s = some (b, u)) :
    ∃ a t, first.run env s = some (a, t) ∧ (next a).run env t = some (b, u) := by
  change (Parser.bind first next).run env s = _ at h
  rw [Parser.run] at h
  split at h
  · cases h
  · rename_i a t hfirst
    exact ⟨a, t, hfirst, h⟩

/-- Skipping takes what comes before the place where it stops into one node, if anything does. -/
theorem Parser.run_skipUntil {env : Env σ} {s : State σ} (stop : KindSet) :
    (skipUntil stop).run env s
      = some ((), match Ahead.skipLength (Ahead.isIn stop) 0 s.ahead with
        | 0 => s
        | n + 1 => s.unexpected n) := by
  show (Parser.bind (skippedUntil stop) _).run env s = _
  rw [run, skippedUntil, run_look_bind]
  cases Ahead.skipLength (Ahead.isIn stop) 0 s.ahead <;> rfl

/-- The rule inside a node has an outcome if the node has one, and then the node closes. -/
theorem Parser.exists_run_of_node {α : Type} {env : Env σ} {s t : State σ} {kind : Kind}
    {hk : kind.isConstruct} {body : Parser α} {a : α}
    (h : (node kind body hk).run env s = some (a, t)) :
    ∃ u : State σ, body.run env s.enter.2 = some (a, u) ∧ t = u.leave s.enter.1 (some kind) := by
  change (Parser.mark _).run env s = _ at h
  rw [run_mark] at h
  split at h
  · cases h
  · rename_i hbody
    obtain ⟨b, u, hrun, hpure⟩ := exists_run_of_bind hbody
    cases hpure
    cases h
    exact ⟨_, hrun, rfl⟩

/-- A relation between what two assemblies put together, with what single steps have to respect. -/
structure Simulation (σ τ : Type) [Assembly σ] [Assembly τ] where
  /-- what is known of the surroundings of the node that is being built -/
  Context : Type
  /-- how the two are related before some tokens -/
  rel : Context → Ahead → σ → τ → Prop
  /-- a token is taken -/
  token : ∀ {c x ts a b} (kind : SolidKind), rel c (x :: ts) a b →
    rel c ts (Assembly.token { x.token with kind := kind.1 } x.start a)
      (Assembly.token { x.token with kind := kind.1 } x.start b)
  /-- a token is cut in two -/
  split : ∀ {c ts a b} (head : SolidKind) (rest : Option SolidKind), rel c ts a b →
    rel c (ts.splitHead head rest) a b
  /-- a missing token is added -/
  missing : ∀ {c ts a b} (kind : SolidKind) (spelling : Text), rel c ts a b →
    rel c ts (Assembly.missing kind.1 spelling a) (Assembly.missing kind.1 spelling b)
  /-- a placeholder is added -/
  placeholder : ∀ {c ts a b} (kind : Placeholder), rel c ts a b →
    rel c ts (Assembly.leave (Assembly.enter a).1 (some kind.1) (Assembly.enter a).2)
      (Assembly.leave (Assembly.enter b).1 (some kind.1) (Assembly.enter b).2)
  /-- tokens are taken as unexpected text -/
  unexpected : ∀ {c ts a b} (xs : Ahead), xs ≠ [] → rel c (xs ++ ts) a b →
    rel c ts (Assembly.leave (Assembly.enter a).1 (some .unexpected)
    (addAll xs (Assembly.enter a).2))
      (Assembly.leave (Assembly.enter b).1 (some .unexpected) (addAll xs (Assembly.enter b).2))
  /-- a diagnostic is noted -/
  override : ∀ {c ts a b} (start : Nat) (diagnostic : Nat → Diagnostic), rel c ts a b →
    rel c ts (Assembly.override start diagnostic a) (Assembly.override start diagnostic b)
  /-- a node opens, and closes with a kind or without -/
  enter : ∀ {c ts a b}, rel c ts a b → ∃ d, rel d ts (Assembly.enter a).2 (Assembly.enter b).2 ∧
    ∀ {ts' a' b'} (kind : Option Construct), rel d ts' a' b' →
      rel c ts' (Assembly.leave (Assembly.enter a).1 (kind.map Subtype.val) a')
        (Assembly.leave (Assembly.enter b).1 (kind.map Subtype.val) b')
  /-- a node opens around the node that was added last, and closes -/
  precede : ∀ {c ts a b}, rel c ts a b →
    ∃ d, rel d ts (Assembly.precede a).2 (Assembly.precede b).2 ∧
    ∀ {ts' a' b'} (kind : Construct), rel d ts' a' b' →
      rel c ts' (Assembly.leave (Assembly.precede a).1 (some kind.1) a')
        (Assembly.leave (Assembly.precede b).1 (some kind.1) b')

namespace Simulation

variable (S : Simulation σ τ)

/-- Two states before the same tokens with related assemblies. -/
def Related (c : S.Context) (s : State σ) (t : State τ) : Prop :=
  s.ahead = t.ahead ∧ S.rel c s.ahead s.built t.built

/-- Two outcomes that agree: either there is none, or both have the same answer in related
states. -/
def Agree {α : Type} (c : S.Context) : Option (α × State σ) → Option (α × State τ) → Prop
  | none, none => True
  | some (a, s), some (b, t) => a = b ∧ S.Related c s t
  | _, _ => False

/-- Two environments that agree: goals have agreeing outcomes, and loops the same rounds. -/
structure EnvAgree (e : Env σ) (f : Env τ) : Prop where
  /-- a goal is reached in the same way -/
  call : ∀ g {c s t}, S.Related c s t → S.Agree c (e.call g s) (f.call g t)
  /-- loops go round equally often -/
  rounds : e.rounds = f.rounds

variable {S}

/-- If one of two runs that agree has no outcome, neither has the other. -/
theorem agree_none {α : Type} {c : S.Context} {r : Option (α × State τ)} (h : S.Agree c none r) :
    r = none := by
  cases r with
  | none => rfl
  | some r => exact h.elim

/-- If one of two runs that agree has an outcome, the other has one with the same answer, and what
was put together is related. -/
theorem agree_some {α : Type} {c : S.Context} {a : α} {s : State σ} {r : Option (α × State τ)}
    (h : S.Agree c (some (a, s)) r) : ∃ t, r = some (a, t) ∧ S.Related c s t := by
  cases r with
  | none => exact h.elim
  | some r =>
    obtain ⟨b, t⟩ := r
    obtain ⟨rfl, h⟩ := h
    exact ⟨t, rfl, h⟩

/-- Taking a token keeps the relation, also where the token is taken as one of another kind. -/
theorem take {c : S.Context} {s : State σ} {t : State τ} (kind : Option SolidKind)
    (h : S.Related c s t) : S.Related c (s.take kind) (t.take kind) := by
  obtain ⟨ahead, a⟩ := s
  obtain ⟨_, b⟩ := t
  obtain ⟨rfl, h⟩ := h
  cases ahead with
  | nil => exact ⟨rfl, h⟩
  | cons x ts =>
    refine ⟨rfl, ?_⟩
    cases kind with
    | none => exact S.token ⟨x.token.kind, x.solid.2⟩ h
    | some kind => exact S.token kind h

/-- Skipping tokens keeps the relation. Where there is none, nothing is skipped. -/
theorem skip {c : S.Context} {s : State σ} {t : State τ} (more : Nat) (h : S.Related c s t) :
    S.Related c (s.unexpected more) (t.unexpected more) := by
  obtain ⟨ahead, a⟩ := s
  obtain ⟨_, b⟩ := t
  obtain ⟨rfl, h⟩ := h
  cases ahead with
  | nil => exact ⟨rfl, h⟩
  | cons x ts =>
    rw [State.unexpected_cons, State.unexpected_cons]
    exact ⟨rfl, S.unexpected (x :: ts.take more) (List.cons_ne_nil _ _)
      (by rwa [List.cons_append, List.take_append_drop])⟩

/-- Loops go round in the same way if their steps agree. -/
theorem iterate {α : Type} {c : S.Context} {f : State σ → Option (Option α × State σ)}
    {g : State τ → Option (Option α × State τ)}
    (step : ∀ {s t}, S.Related c s t → S.Agree c (f s) (g t)) (n : Nat) :
    ∀ {s t}, S.Related c s t → S.Agree c (Grammar.iterate f n s) (Grammar.iterate g n t) := by
  induction n with
  | zero =>
    intro s t _
    trivial
  | succ n ih =>
    intro s t h
    have hstep := step h
    rw [Grammar.iterate, Grammar.iterate]
    rcases e : f s with _ | ⟨_ | a, s'⟩ <;> rw [e] at hstep
    · rw [agree_none hstep]
      trivial
    · obtain ⟨t', ht, h'⟩ := agree_some hstep
      rw [ht]
      exact ih h'
    · obtain ⟨t', ht, h'⟩ := agree_some hstep
      rw [ht]
      exact ⟨rfl, h'⟩

/-- **A rule has agreeing outcomes in agreeing environments**, by induction on how it is put
together. Both runs have the same answer before the same tokens, and what they put together is
related, or neither has an outcome. -/
theorem run {e : Env σ} {f : Env τ} (hef : S.EnvAgree e f) {α : Type} (p : Parser α) :
    ∀ {c s t}, S.Related c s t → S.Agree c (p.run e s) (p.run f t) := by
  induction p with
  | pure a =>
    intro c s t h
    exact ⟨rfl, h⟩
  | bind first next ih_first ih_next =>
    intro c s t h
    have hfirst := ih_first h
    rw [Parser.run, Parser.run]
    rcases hr : first.run e s with _ | ⟨a, s'⟩ <;> rw [hr] at hfirst
    · rw [agree_none hfirst]
      trivial
    · obtain ⟨t', ht, h'⟩ := agree_some hfirst
      rw [ht]
      exact ih_next a h'
  | look f =>
    intro c s t h
    exact ⟨by rw [h.1], h⟩
  | take kind =>
    intro c s t h
    exact ⟨rfl, take kind h⟩
  | splitHead head rest =>
    intro c s t h
    exact ⟨rfl, by rw [h.1], S.split head rest h.2⟩
  | missing kind spelling =>
    intro c s t h
    exact ⟨rfl, h.1, S.missing kind spelling h.2⟩
  | placeholder kind =>
    intro c s t h
    exact ⟨rfl, h.1, S.placeholder kind h.2⟩
  | unexpected more =>
    intro c s t h
    exact ⟨rfl, skip more h⟩
  | override start diagnostic =>
    intro c s t h
    exact ⟨rfl, h.1, S.override start diagnostic h.2⟩
  | mark body ih =>
    intro c s t h
    -- the body runs in a context of its own, and `back` leads out of it
    obtain ⟨d, hd, back⟩ := S.enter h.2
    have hbody := ih (c := d) (s := s.enter.2) (t := t.enter.2) ⟨h.1, hd⟩
    rw [Parser.run_mark, Parser.run_mark]
    rcases hr : body.run e s.enter.2 with _ | ⟨⟨kind, a⟩, s'⟩ <;> rw [hr] at hbody
    · rw [agree_none hbody]
      trivial
    · obtain ⟨t', ht, h'⟩ := agree_some hbody
      rw [ht]
      exact ⟨rfl, h'.1, back kind h'.2⟩
  | enclose kind body ih =>
    intro c s t h
    obtain ⟨d, hd, back⟩ := S.precede h.2
    have hbody := ih (c := d) (s := s.precede.2) (t := t.precede.2) ⟨h.1, hd⟩
    rw [Parser.run_enclose, Parser.run_enclose]
    rcases hr : body.run e s.precede.2 with _ | ⟨a, s'⟩ <;> rw [hr] at hbody
    · rw [agree_none hbody]
      trivial
    · obtain ⟨t', ht, h'⟩ := agree_some hbody
      rw [ht]
      exact ⟨rfl, h'.1, back kind h'.2⟩
  | call goal =>
    intro c s t h
    exact hef.call goal h
  | repeatUntil body ih =>
    intro c s t h
    rw [Parser.run, Parser.run, hef.rounds]
    exact iterate ih f.rounds h

/-- Goals have agreeing outcomes with equally many calls. The induction is on the calls: the
environment of a rule has one call less than the rule. -/
theorem goal (n : Nat) (g : Goal) :
    ∀ {c s t}, S.Related c s t → S.Agree c (g.run n s) (g.run n t) := by
  induction n generalizing g with
  | zero =>
    intro c s t _
    trivial
  | succ n ih =>
    intro c s t h
    have agree : S.EnvAgree ⟨Goal.run n, n⟩ ⟨Goal.run n, n⟩ := ⟨fun g _ _ _ => ih g, rfl⟩
    exact run agree g.rule h

theorem ofLimit (n : Nat) : S.EnvAgree (.ofLimit n) (.ofLimit n) :=
  ⟨fun g _ _ _ => goal n g, rfl⟩

/-! ## Two assemblies side by side -/

/-- Of two assemblies side by side, the first is written to as if it were alone. -/
def ofFst (σ τ : Type) [Assembly σ] [Assembly τ] : Simulation (σ × τ) σ where
  Context := Unit
  rel _ _ both a := both.1 = a
  token _ h := h ▸ rfl
  split _ _ h := h
  missing _ _ h := h ▸ rfl
  placeholder _ h := h ▸ rfl
  unexpected xs _ h := by
    subst h
    exact congrArg _ (fst_addAll xs _)
  override _ _ h := h ▸ rfl
  enter h := by
    subst h
    exact ⟨(), rfl, fun _ h => h ▸ rfl⟩
  precede h := by
    subst h
    exact ⟨(), rfl, fun _ h => h ▸ rfl⟩

/-- Of two assemblies side by side, the second is written to as if it were alone. -/
def ofSnd (σ τ : Type) [Assembly σ] [Assembly τ] : Simulation (σ × τ) τ where
  Context := Unit
  rel _ _ both b := both.2 = b
  token _ h := h ▸ rfl
  split _ _ h := h
  missing _ _ h := h ▸ rfl
  placeholder _ h := h ▸ rfl
  unexpected xs _ h := by
    subst h
    exact congrArg _ (snd_addAll xs _)
  override _ _ h := h ▸ rfl
  enter h := by
    subst h
    exact ⟨(), rfl, fun _ h => h ▸ rfl⟩
  precede h := by
    subst h
    exact ⟨(), rfl, fun _ h => h ▸ rfl⟩

end Simulation

end SwiftTree.Grammar
