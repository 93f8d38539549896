import SwiftTree.Grammar.Parser

/-!
# Following rules

What a rule puts together is up to an `Assembly`: a type with one operation for each thing that can
be added. An assembly is only written to. Which steps are taken depends on the tokens alone, so all
assemblies see the same steps, and two of them can be written to side by side.

`Parser.run` follows a rule. It gets from its environment the way to reach a goal and a number of
rounds that a loop may take. It has no answer when either runs out.
-/

namespace SwiftTree.Grammar

/-! ### What rules put together -/

/-- What the steps of a rule put together. -/
class Assembly (σ : Type) where
  /-- what has to be remembered of an open node -/
  Mark : Type
  /-- adds a token, whose spelling starts at a position -/
  token : Token → Nat → σ → σ
  /-- adds a missing token -/
  missing : Kind → Text → σ → σ
  /-- opens a node -/
  enter : σ → Mark × σ
  /-- opens a node around the node that was added last -/
  precede : σ → Mark × σ
  /-- closes a node; without a kind, what was added since it was opened stays where it is -/
  leave : Mark → Option Kind → σ → σ
  /-- notes what is reported in the place of unexpected text; most assemblies take no notice -/
  override : Nat → (Nat → Diagnostic) → σ → σ := fun _ _ built => built

/-- Two assemblies side by side. -/
instance {σ τ : Type} [Assembly σ] [Assembly τ] : Assembly (σ × τ) where
  Mark := Assembly.Mark σ × Assembly.Mark τ
  token t start built := (Assembly.token t start built.1, Assembly.token t start built.2)
  missing kind spelling built :=
    (Assembly.missing kind spelling built.1, Assembly.missing kind spelling built.2)
  enter built :=
    let (m, a) := Assembly.enter built.1
    let (n, b) := Assembly.enter built.2
    ((m, n), (a, b))
  precede built :=
    let (m, a) := Assembly.precede built.1
    let (n, b) := Assembly.precede built.2
    ((m, n), (a, b))
  leave mark kind built :=
    (Assembly.leave mark.1 kind built.1, Assembly.leave mark.2 kind built.2)
  override start diagnostic built :=
    (Assembly.override start diagnostic built.1, Assembly.override start diagnostic built.2)

/-! ### States -/

/-- What a rule works on. -/
structure State (σ : Type) where
  /-- the tokens that are still to be read -/
  ahead : Ahead
  /-- what was put together -/
  built : σ

/-- What a rule can rely on. -/
structure Env (σ : Type) where
  /-- reaches a goal -/
  call : Goal → State σ → Option (Bool × State σ)
  /-- how often a loop may go round -/
  rounds : Nat

variable {σ : Type} [Assembly σ]

namespace State

/-- Takes the next token. -/
def take (kind : Option SolidKind) (s : State σ) : State σ :=
  match s.ahead with
  | [] => s
  | x :: ts =>
    let token := { x.token with kind := (kind.map Subtype.val).getD x.token.kind }
    ⟨ts, Assembly.token token x.start s.built⟩

/-- Takes several tokens. -/
def takeBy : Nat → State σ → State σ
  | 0, s => s
  | n + 1, s => takeBy n (s.take none)

/-- Opens a node. -/
def enter (s : State σ) : Assembly.Mark σ × State σ :=
  let r := Assembly.enter s.built
  (r.1, ⟨s.ahead, r.2⟩)

/-- Opens a node around the node that was added last. -/
def precede (s : State σ) : Assembly.Mark σ × State σ :=
  let r := Assembly.precede s.built
  (r.1, ⟨s.ahead, r.2⟩)

/-- Closes a node. -/
def leave (mark : Assembly.Mark σ) (kind : Option Kind) (s : State σ) : State σ :=
  ⟨s.ahead, Assembly.leave mark kind s.built⟩

/-- Takes the next token and so many more as unexpected text. -/
def unexpected (more : Nat) (s : State σ) : State σ :=
  match s.ahead with
  | [] => s
  | _ :: _ =>
    let (m, s) := s.enter
    (s.takeBy (more + 1)).leave m (some .unexpected)

end State

/-! ### Steps -/

/-- Repeats a step until it has an answer, at most `n` times. -/
def iterate {σ α : Type} (step : State σ → Option (Option α × State σ)) :
    Nat → State σ → Option (α × State σ)
  | 0, _ => none
  | n + 1, s =>
    match step s with
    | none => none
    | some (some a, s) => some (a, s)
    | some (none, s) => iterate step n s

/-- Follows a rule. -/
def Parser.run (env : Env σ) : {α : Type} → Parser α → State σ → Option (α × State σ)
  | _, .pure a, s => some (a, s)
  | _, .bind first next, s =>
    match first.run env s with
    | none => none
    | some (a, s) => (next a).run env s
  | _, .look f, s => some (f s.ahead, s)
  | _, .take kind, s => some ((), s.take kind)
  | _, .splitHead head rest, s => some ((), { s with ahead := s.ahead.splitHead head rest })
  | _, .missing kind spelling, s =>
    some ((), { s with built := Assembly.missing kind.1 spelling s.built })
  | _, .placeholder kind, s =>
    let (m, s) := s.enter
    some ((), s.leave m (some kind.1))
  | _, .unexpected more, s => some ((), s.unexpected more)
  | _, .override start diagnostic, s =>
    some ((), { s with built := Assembly.override start diagnostic s.built })
  | _, .mark body, s =>
    let (m, s) := s.enter
    match body.run env s with
    | none => none
    | some ((kind, a), s) => some (a, s.leave m (kind.map Subtype.val))
  | _, .enclose kind body, s =>
    let (m, s) := s.precede
    match body.run env s with
    | none => none
    | some (a, s) => some (a, s.leave m (some kind.1))
  | _, .call goal, s => env.call goal s
  | _, .repeatUntil body, s => iterate (body.run env) env.rounds s

namespace Parser

variable {α : Type} {env : Env σ} {s : State σ}

theorem run_mark {body : Parser (Option Construct × α)} :
    (Parser.mark body).run env s =
      match body.run env s.enter.2 with
      | none => none
      | some ((kind, a), t) => some (a, t.leave s.enter.1 (kind.map Subtype.val)) := rfl

theorem run_enclose {kind : Construct} {body : Parser α} :
    (Parser.enclose kind body).run env s =
      match body.run env s.precede.2 with
      | none => none
      | some (a, t) => some (a, t.leave s.precede.1 (some kind.1)) := rfl

end Parser

end SwiftTree.Grammar
