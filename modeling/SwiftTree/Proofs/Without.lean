import SwiftTree.Proofs.Prospect

/-!
# Rules that make no node of a kind

Often something is to be said of the nodes of one kind only, and most rules make none of these.
`Parser.Without` says so of a rule, whatever it reads, and what its answers are: for the rules that
choose the kind of a node. It also says that the rule notes nothing. Such a rule keeps what is said
of the nodes so far (`Parser.fronts_of_without`), so it is left to look at the rules that do make
nodes of the kind.

There is a lemma for each way to put rules together.
-/

namespace SwiftTree.Grammar

/-- Whether no node that a rule makes itself is of a kind, it notes nothing itself, and its answers
are as given. -/
def Parser.Without (k : Kind) : {α : Type} → Parser α → (α → Prop) → Prop
  | _, .pure a, given => given a
  | _, .bind first next, given => first.Without k fun a => (next a).Without k given
  | _, .look f, given => ∀ ts, given (f ts)
  | _, .take _, given => given ()
  | _, .splitHead _ _, given => given ()
  | _, .missing _ _, given => given ()
  | _, .placeholder kind, given => kind.1 ≠ k ∧ given ()
  | _, .unexpected _, given => .unexpected ≠ k ∧ given ()
  | _, .override _ _, _ => False
  | _, .mark body, given => body.Without k fun a => (∀ kind ∈ a.1, kind.1 ≠ k) ∧ given a.2
  | _, .enclose kind body, given => kind.1 ≠ k ∧ body.Without k given
  | _, .call _, given => ∀ found, given found
  | _, .repeatUntil body, given => body.Without k fun a => ∀ b ∈ a, given b

/-- Whether a rule makes no loop itself. -/
abbrev Parser.LoopFree {α : Type} (p : Parser α) : Prop := p.Without .forStmt fun _ => True

/-- Whether what an environment reaches keeps what is said of the nodes so far. -/
def Env.KeepsFronts (p : Kind → List Green → List Kind → Prop) (env : Env Forest) : Prop :=
  ∀ (goal : Goal) (s : State Forest) (a : Bool) (t : State Forest),
    env.call goal s = some (a, t) → s.Fronts p → t.Fronts p

namespace Parser

variable {α β : Type} {k : Kind}

/-- Less may be said of the answers of a rule. -/
theorem without_mono {p : Parser α} {given given' : α → Prop} (h : p.Without k given)
    (hgiven : ∀ a, given a → given' a) : p.Without k given' := by
  induction p with
  | pure a => exact hgiven _ h
  | bind first next ih_first ih_next => exact ih_first h fun a ha => ih_next a ha hgiven
  | look f => exact fun ts => hgiven _ (h ts)
  | take kind => exact hgiven _ h
  | splitHead head rest => exact hgiven _ h
  | missing kind spelling => exact hgiven _ h
  | placeholder kind => exact ⟨h.1, hgiven _ h.2⟩
  | unexpected more => exact ⟨h.1, hgiven _ h.2⟩
  | override start diagnostic => exact h.elim
  | mark body ih => exact ih h fun a ha => ⟨ha.1, hgiven _ ha.2⟩
  | enclose kind body ih => exact ⟨h.1, ih h.2 hgiven⟩
  | call goal => exact fun found => hgiven _ (h found)
  | repeatUntil body ih => exact ih h fun a ha b hb => hgiven _ (ha b hb)

/-- Whether a rule, if it makes no node of a kind, keeps what is said of the nodes so far. What it
puts together has to be as wanted. -/
def KeepsFronts (p : Kind → List Green → List Kind → Prop) (k : Kind) (env : Env Forest)
    (rule : Parser α) : Prop :=
  ∀ ⦃s : State Forest⦄ ⦃a : α⦄ ⦃t : State Forest⦄ ⦃given : α → Prop⦄
    ⦃wanted : α → State Forest → Prop⦄, rule.Without k given → rule.run env s = some (a, t) →
      rule.yields s wanted → s.Fronts p → given a ∧ t.Fronts p

namespace KeepsFronts

variable {p : Kind → List Green → List Kind → Prop} {env : Env Forest}

/-- Two rules one after the other keep what is said if each of them does. -/
theorem bind (henv : env.Honest) {first : Parser α} {next : α → Parser β}
    (hfirst : first.KeepsFronts p k env) (hnext : ∀ a, (next a).KeepsFronts p k env) :
    (Parser.bind first next).KeepsFronts p k env := by
  intro s b t given wanted h hr hy hs
  rw [run] at hr
  split at hr
  · cases hr
  · rename_i a u hu
    obtain ⟨hwithout, hu'⟩ := hfirst h hu hy hs
    exact hnext a hwithout hr (sound_of_yields henv hu hy).1 hu'

/-- A node that closes is of another kind, of which nothing is said. A mark that is given up leaves
its parts to the node around it. -/
theorem mark (hp : ∀ kind cs next, kind ≠ k → p kind cs next) (henv : env.Honest)
    {body : Parser (Option Construct × α)} (hbody : body.KeepsFronts p k env) :
    (Parser.mark body).KeepsFronts p k env := by
  intro s b t given wanted h hr hy hs
  rw [run_mark] at hr
  split at hr
  · cases hr
  · rename_i kind a u hu
    cases hr
    obtain ⟨⟨hkind, hgiven⟩, hu'⟩ := hbody h hu hy (.enter s)
    have hcarries := (sound_of_yields henv hu hy).2
    refine ⟨hgiven, ?_⟩
    cases kind with
    | some kind => exact hs.closeNew _ hu' hcarries (hp _ _ _ (hkind kind rfl))
    | none =>
      have hrelease := hs.release hu' hcarries
      rwa [← List.append_nil u.built] at hrelease

/-- A node around the newest tree keeps what is said: nothing has to be said of it, since it is of
another kind. -/
theorem enclose (hp : ∀ kind cs next, kind ≠ k → p kind cs next) (henv : env.Honest)
    {kind : Construct} {body : Parser α} (hbody : body.KeepsFronts p k env) :
    (Parser.enclose kind body).KeepsFronts p k env := by
  intro s b t given wanted h hr hy hs
  rw [run_enclose] at hr
  split at hr
  · cases hr
  · rename_i a u hu
    cases hr
    obtain ⟨wrapped, before, hbuilt, hprecede⟩ := s.precede_eq
    rw [yields, hprecede] at hy
    rw [hprecede] at hu ⊢
    obtain ⟨hgiven, hu'⟩ := hbody h.2 hu hy (.enter s)
    exact ⟨hgiven, hs.close hbuilt hu' (sound_of_yields henv hu hy).2 (hp _ _ _ h.1)⟩

/-- The invariant of a loop is about what is put together, and what is said of the nodes goes along
with it. -/
theorem repeatUntil (henv : env.Honest) {body : Parser (Option α)}
    (hbody : body.KeepsFronts p k env) : (Parser.repeatUntil body).KeepsFronts p k env := by
  intro s b t given wanted h hr hy hs
  obtain ⟨invariant, hinvariant, hround⟩ := hy
  refine (@iterate_of_yields _ _ (fun u => invariant u ∧ u.Fronts p)
    (fun a u => given a ∧ u.Fronts p) ?_ env.rounds _ _ _ ⟨hinvariant, hs⟩ hr).1
  rintro u a v ⟨hu, hfronts⟩ hv
  obtain ⟨hyields, hcarries⟩ := sound_of_yields henv hv (hround u hu)
  obtain ⟨hgiven, hfronts'⟩ := hbody h hv (hround u hu) hfronts
  refine ⟨?_, hcarries⟩
  cases a with
  | some a => exact ⟨hgiven a rfl, hfronts'⟩
  | none => exact ⟨hyields, hfronts'⟩

end KeepsFronts

/-- A rule without nodes of a kind keeps what is said of such nodes, by induction on how it is put
together. Of other nodes nothing has to be said, and calls keep it by assumption. -/
theorem fronts_of_without {p : Kind → List Green → List Kind → Prop}
    (hp : ∀ kind cs next, kind ≠ k → p kind cs next) {env : Env Forest} (henv : env.Honest)
    (hcalls : env.KeepsFronts p) (rule : Parser α) : rule.KeepsFronts p k env := by
  induction rule with
  | bind first next ih_first ih_next => exact .bind henv ih_first ih_next
  | mark body ih => exact .mark hp henv ih
  | enclose kind body ih => exact .enclose hp henv ih
  | repeatUntil body ih => exact .repeatUntil henv ih
  | pure a =>
    intro s b t given wanted h hr _ hs
    cases hr
    exact ⟨h, hs⟩
  | look f =>
    intro s b t given wanted h hr _ hs
    cases hr
    exact ⟨h _, hs⟩
  | take kind =>
    intro s b t given wanted h hr hy hs
    cases hr
    exact ⟨h, hs.take hy.1⟩
  | splitHead head rest =>
    intro s b t given wanted h hr hy hs
    cases hr
    exact ⟨h, hs.splitHead hy.1⟩
  | missing kind spelling =>
    intro s b t given wanted h hr _ hs
    cases hr
    exact ⟨h, hs.missing⟩
  | placeholder kind =>
    intro s b t given wanted h hr _ hs
    cases hr
    exact ⟨h.2, hs.closeNew _ (.enter s) (.refl _) (hp _ _ _ h.1)⟩
  | unexpected more =>
    intro s b t given wanted h hr _ hs
    cases hr
    exact ⟨h.2, hs.unexpected fun cs next => hp _ _ _ h.1⟩
  | override start diagnostic =>
    intro s b t given wanted h
    exact h.elim
  | call goal =>
    intro s b t given wanted h hr _ hs
    exact ⟨h _, hcalls goal s b t hr hs⟩

/-! ## Ways to put rules together -/

namespace Without

variable {given : α → Prop}

theorem pure {a : α} (h : given a) : (Pure.pure a : Parser α).Without k given := h

theorem done {a : α} : (Pure.pure a : Parser α).Without k fun _ => True := trivial

/-- Two rules one after the other make no node of a kind if neither of them does. -/
theorem bind {first : Parser α} {next : α → Parser β} {given : β → Prop}
    (h : first.Without k fun _ => True) (hnext : ∀ a, (next a).Without k given) :
    (first >>= next).Without k given := by
  have hboth : first.Without k fun a => (next a).Without k given :=
    without_mono h fun a _ => hnext a
  exact hboth

/-- An answer that is known of what was answered before. -/
theorem returns {first : Parser α} {f : α → β} {given' : β → Prop} (h : first.Without k given)
    (hf : ∀ a, given a → given' (f a)) :
    (first >>= fun a => Pure.pure (f a)).Without k given' := by
  have hboth : first.Without k fun a => given' (f a) := without_mono h hf
  exact hboth

theorem look {f : Ahead → β} {next : β → Parser α} (h : ∀ b, (next b).Without k given) :
    (Grammar.look f >>= next).Without k given := fun _ => h _

/-- A look whose answer says which kinds the rule behind it chooses from. -/
theorem lookAt {f : Ahead → β} {next : β → Parser α} (h : ∀ ts, (next (f ts)).Without k given) :
    (Grammar.look f >>= next).Without k given := h

/-- A choice that was made before makes no node of a kind if neither rule does. -/
theorem ite {c : Prop} [Decidable c] {p q : Parser α} (hp : p.Without k given)
    (hq : q.Without k given) : (if c then p else q).Without k given := by
  split
  · exact hp
  · exact hq

theorem branch {f : Ahead → Bool} {p q : Parser α} (hp : p.Without k given)
    (hq : q.Without k given) : (Grammar.look f >>= fun b => if b then p else q).Without k given :=
  look fun _ => ite hp hq

theorem onlyIf {b : Bool} {p : Parser Unit} (h : p.Without k fun _ => True) :
    (Grammar.onlyIf b p).Without k fun _ => True := ite h done

theorem ifAhead {f : Ahead → Bool} {p : Parser Unit} (h : p.Without k fun _ => True) :
    (Grammar.ifAhead f p).Without k fun _ => True := branch h done

/-! ### Tokens -/

theorem advance : Grammar.advance.Without k fun _ => True := trivial

theorem advanceAs {j : Kind} {hj : j.isSolid} :
    (Grammar.advanceAs j hj).Without k fun _ => True := trivial

/-- Taking several tokens makes no node. -/
theorem advanceBy (n : Nat) : (Grammar.advanceBy n).Without k fun _ => True := by
  induction n with
  | zero => exact done
  | succ n ih => exact bind advance fun _ => ih

theorem splitHead {head : Kind} {rest : Option SolidKind} {h : head.isSolid} :
    (Grammar.splitHead head rest h).Without k fun _ => True := trivial

theorem eat {j : Kind} : (Grammar.eat j).Without k fun _ => True :=
  branch (bind advance fun _ => done) done

theorem skip {j : Kind} : (Grammar.skip j).Without k fun _ => True := ifAhead advance

theorem eatWord {j : Kind} {hj : j.isSolid} : (Grammar.eatWord j hj).Without k fun _ => True :=
  branch (bind advanceAs fun _ => done) done

theorem missingSpelled {j : Kind} {spelling : Text} {hj : j.isSolid} :
    (Grammar.missingSpelled j spelling hj).Without k fun _ => True := trivial

theorem missing {j : Kind} {hj : j.isSolid} : (Grammar.missing j hj).Without k fun _ => True :=
  trivial

theorem expect {j : Kind} {hj : j.isSolid} : (Grammar.expect j hj).Without k fun _ => True :=
  bind eat fun _ => ite done (bind missing fun _ => done)

theorem require {j : Kind} {hj : j.isSolid} : (Grammar.require j hj).Without k fun _ => True :=
  bind expect fun _ => done

/-! ### Nodes -/

theorem placeholder {j : Kind} {hj : j.isMissingNode} (h : j != k) :
    (Grammar.placeholder j hj).Without k fun _ => True := ⟨bne_iff_ne.mp h, trivial⟩

theorem unexpected {more : Nat} (h : .unexpected != k) :
    (Grammar.unexpected more).Without k fun _ => True := ⟨bne_iff_ne.mp h, trivial⟩

/-- A node whose kind is among those that the rule inside answers with. -/
theorem nodeBy {p : Parser (Construct × α)} (h : p.Without k fun a => a.1.1 != k) :
    (Grammar.nodeBy p).Without k fun _ => True := by
  have hkinds : p.Without k fun a => (∀ kind ∈ some a.1, kind.1 ≠ k) ∧ True :=
    without_mono h fun a ha => ⟨fun kind hkind => Option.some.inj hkind ▸ bne_iff_ne.mp ha, trivial⟩
  exact hkinds

/-- A node of another kind. -/
theorem node {kind : Kind} {p : Parser α} {hk : kind.isConstruct} (hkind : kind != k)
    (h : p.Without k given) : (Grammar.node kind p hk).Without k given := by
  have hbody : p.Without k fun a => (∀ j ∈ some (⟨kind, hk⟩ : Construct), j.1 ≠ k) ∧ given a :=
    without_mono h fun a ha => ⟨fun j hj => Option.some.inj hj ▸ bne_iff_ne.mp hkind, ha⟩
  exact hbody

/-- A node of another kind that may be given up. -/
theorem nodeIf {kind : Kind} {p : Parser Bool} {hk : kind.isConstruct} (hkind : kind != k)
    (h : p.Without k fun _ => True) :
    (Grammar.nodeIf kind p hk).Without k fun _ => True := by
  have hbody : p.Without k fun found => (∀ j ∈ (if found then some ⟨kind, hk⟩ else none :
      Option Construct), j.1 ≠ k) ∧ True := without_mono h fun found _ => by
    cases found with
    | true => exact ⟨fun j hj => Option.some.inj hj ▸ bne_iff_ne.mp hkind, trivial⟩
    | false => exact ⟨nofun, trivial⟩
  exact hbody

theorem emptyNode {kind : Kind} {hk : kind.isConstruct} (hkind : kind != k) :
    (Grammar.emptyNode kind hk).Without k fun _ => True := node hkind done

theorem enclose {kind : Kind} {p : Parser α} {hk : kind.isConstruct} (hkind : kind != k)
    (h : p.Without k given) : (Grammar.enclose kind p hk).Without k given :=
  ⟨bne_iff_ne.mp hkind, h⟩

/-! ### Calls and loops -/

theorem call (goal : Goal) : (Grammar.call goal).Without k fun _ => True := fun _ => trivial

theorem visit (goal : Goal) : (Grammar.visit goal).Without k fun _ => True :=
  bind (call goal) fun _ => done

/-- A loop makes no node of a kind if its body does not. -/
theorem repeatUntil {p : Parser (Option α)} (h : p.Without k fun _ => True) :
    (Grammar.repeatUntil p).Without k fun _ => True := by
  have hrounds : p.Without k fun a => ∀ b ∈ a, True := without_mono h fun _ _ _ _ => trivial
  exact hrounds

theorem repeatWhile {p : Parser Bool} (h : p.Without k fun _ => True) :
    (Grammar.repeatWhile p).Without k fun _ => True := repeatUntil (bind h fun _ => done)

theorem whileAhead {f : Ahead → Bool} {p : Parser Unit} (h : p.Without k fun _ => True) :
    (Grammar.whileAhead f p).Without k fun _ => True :=
  repeatWhile (branch (bind h fun _ => done) done)

theorem commaList {kind : Kind} {ends : Ahead → Bool} {p : Parser Unit} {hk : kind.isConstruct}
    (hkind : kind != k) (h : p.Without k fun _ => True) :
    (Grammar.commaList kind ends p hk).Without k fun _ => True :=
  repeatWhile (bind (node hkind (bind h fun _ => eat)) fun _ => look fun _ => done)

theorem complete {p : Parser Unit} (h : p.Without k fun _ => True) :
    (Grammar.complete p).Without k fun _ => True := bind h fun _ => done

end Without

end Parser

end SwiftTree.Grammar
