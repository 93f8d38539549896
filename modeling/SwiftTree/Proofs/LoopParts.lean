import SwiftTree.Proofs.Forest

/-!
# Loops without what is noted of them

The rule of loops asks where tokens stand, for the diagnostic that it notes. Nothing else in the
grammar depends on positions, and what is noted is no part of a tree. So for an assembly that takes
no notice (`Assembly.Heedless`) the rule may as well not ask: it does what `forParts` does, which
knows no positions (`run_forStatement`). This is the form in which loops are reasoned about wherever
two texts are compared whose tokens stand at different places.
-/

namespace SwiftTree.Grammar

/-- Whether an assembly takes no notice of the diagnostics that rules note. -/
class Assembly.Heedless (σ : Type) [Assembly σ] : Prop where
  /-- what is noted changes nothing -/
  override_eq (start : Nat) (diagnostic : Nat → Diagnostic) (built : σ) :
    Assembly.override start diagnostic built = built

instance : Assembly.Heedless Forest := ⟨fun _ _ _ => rfl⟩

/-- What a loop is made of. -/
def forParts : Parser Unit := do
  advance
  if ← look Ahead.isCStyleLoop then
    skipUntil (.single .leftBrace)
    codeBlock
  else
    forHeader
    bodyBlock

section Runs

variable {σ : Type} [Assembly σ] {env : Env σ} {s : State σ} {α β : Type}

/-- Rules that do the same one behind the other do the same together. -/
theorem Parser.run_bind_congr {p q : Parser α} {f g : α → Parser β} (h : p.run env s = q.run env s)
    (hnext : ∀ a t, (f a).run env t = (g a).run env t) :
    (p >>= f).run env s = (q >>= g).run env s := by
  show (Parser.bind p f).run env s = (Parser.bind q g).run env s
  rw [run, run, h]
  split
  · rfl
  · exact hnext _ _

theorem Parser.run_node_congr {kind : Kind} {hk : kind.isConstruct} {p q : Parser α}
    (h : ∀ t, p.run env t = q.run env t) :
    (node kind p hk).run env s = (node kind q hk).run env s := by
  show (Parser.mark (p >>= _)).run env s = (Parser.mark (q >>= _)).run env s
  rw [run_mark, run_mark, run_bind_congr (h _) fun _ _ => rfl]

variable [Assembly.Heedless σ]

/-- What is noted is lost on those who take no notice. -/
theorem run_override (start : Nat) (diagnostic : Nat → Diagnostic) :
    (override start diagnostic).run env s = some ((), s) := by
  show some ((), ({ s with built := Assembly.override start diagnostic s.built } : State σ)) = _
  rw [Assembly.Heedless.override_eq]

/-- The clauses of a C-style loop are skipped as any other text is, up to the brace of the block. -/
theorem run_removedCStyleFor (word : Span) :
    (removedCStyleFor word).run env s = (skipUntil (.single .leftBrace)).run env s := by
  refine Parser.run_bind_congr (p := skippedUntil (.single .leftBrace)) rfl fun found t => ?_
  cases found with
  | false => rfl
  | true => exact run_override _ _

/-- For an assembly that takes no notice, a loop is a node of its parts: it does not matter where
its tokens stand. Only the diagnostic that is noted depends on that, and it is lost on such an
assembly. -/
theorem run_forStatement : forStatement.run env s = (node .forStmt forParts).run env s := by
  refine Parser.run_node_congr fun t => ?_
  refine Parser.run_bind_congr (p := advance) rfl fun _ u => ?_
  refine Parser.run_bind_congr (p := look Ahead.isCStyleLoop) rfl fun clauses v => ?_
  cases clauses with
  | false => rfl
  | true => exact Parser.run_bind_congr (run_removedCStyleFor _) fun _ _ => rfl

end Runs

/-- Whether two rules do the same for every assembly that takes no notice of what is noted. What
such an assembly is told of one of the rules, it may be told of the other. -/
def Parser.Agrees {α : Type} (p q : Parser α) : Prop :=
  ∀ ⦃σ : Type⦄ [Assembly σ] [Assembly.Heedless σ] (env : Env σ) (s : State σ),
    p.run env s = q.run env s

theorem Parser.Agrees.complete {p q : Parser Unit} (h : p.Agrees q) :
    (Grammar.complete p).Agrees (Grammar.complete q) :=
  fun _ _ _ env s => run_bind_congr (h env s) fun _ _ => rfl

/-- What stands for any statement chooses by the next token. In its place a rule will do that takes
a loop for what it is made of. -/
theorem agrees_of_statementRule {next : Kind → Parser Unit}
    (hrule : statementRule = (look Ahead.kind >>= next)) (hfor : next .forKw = forStatement) :
    statementRule.Agrees
      (look Ahead.kind >>= fun kind => if kind = .forKw then node .forStmt forParts
        else next kind) := by
  intro σ _ _ env s
  rw [hrule, Parser.run_look_bind, Parser.run_look_bind]
  split
  · rename_i hkind
    rw [hkind, hfor]
    exact run_forStatement
  · rfl

/-- A node is made of what its rule adds. -/
theorem Parser.exists_of_run_node {α : Type} {env : Env Forest} {kind : Kind}
    {hk : kind.isConstruct}
    {body : Parser α} {s t : State Forest} {a : α}
    (h : (node kind body hk).run env s = some (a, t)) :
    ∃ u : State Forest, body.run env ⟨s.ahead, []⟩ = some (a, u) ∧
      t = ⟨u.ahead, .node kind u.built.reverse :: s.built⟩ := exists_run_of_node h

end SwiftTree.Grammar
