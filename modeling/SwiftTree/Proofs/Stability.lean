import SwiftTree.Proofs.Bracing
import SwiftTree.Proofs.Clean
import SwiftTree.Proofs.Following
import SwiftTree.Proofs.LoopParts

/-!
# Rules that do not depend on the end

A rule that finds everything it wants, and leaves something behind, does the same when the tokens do
not end with the file but with a brace that closes the block they are in (`Parser.Stable`). For it
never looks past what it takes in a way that could tell the two ends apart, and what it would do at
the end of the file, it does not do here.

What goes wrong is followed by an assembly that only remembers whether anything did (`Tally`). It
never recovers, and neither do tokens come back once they are used up. So whatever a rule does on
the way to a clean end with tokens left is done in a clean state with tokens left, too
(`Parser.clean_of_run`). This is why a rule is stable if its parts are, and why rules that add
something missing or unexpected are stable for no other reason than that.
-/

namespace SwiftTree

/-- Whether a node of a kind is neither in the place of a missing part nor around unexpected
text. -/
def Kind.isWanted (kind : Kind) : Bool := !(kind.isMissingNode || kind == .unexpected)

/-- What rules make a node of is neither a placeholder nor unexpected text. -/
theorem Kind.isWanted_of_isConstruct {kind : Kind} (h : kind.isConstruct) : kind.isWanted := by
  simp only [isConstruct, Bool.and_eq_true, Bool.not_eq_true', bne_iff_ne] at h
  rw [isWanted, h.1.2, beq_eq_false_iff_ne.mpr h.2]
  rfl

theorem Green.isClean_node_eq (kind : Kind) (cs : List Green) :
    (node kind cs).isClean = (kind.isWanted && allClean cs) := rfl

namespace Grammar

/-! ## Whether anything went wrong -/

/-- Rules only note whether nothing is missing or unexpected. -/
structure Tally where
  /-- nothing is missing or unexpected so far -/
  isClean : Bool

namespace Tally

instance : Assembly Tally where
  Mark := Unit
  token _ _ tally := tally
  missing _ _ _ := ⟨false⟩
  enter tally := ((), tally)
  precede tally := ((), tally)
  leave _ kind tally := ⟨tally.isClean && kind.all Kind.isWanted⟩

instance : Assembly.Heedless Tally := ⟨fun _ _ _ => rfl⟩

/-- What was wrong once remains wrong, and tokens do not come back. The end may count as well. -/
def losing (atEnd : Prop) : Simulation Tally Unit where
  Context := Unit
  rel _ ts tally _ := atEnd ∧ ts = [] ∨ tally.isClean = false
  token _ h := h.elim nofun .inr
  split := by
    rintro _ ts _ _ head rest (⟨hend, rfl⟩ | h)
    · exact .inl ⟨hend, rfl⟩
    · exact .inr h
  missing _ _ _ := .inr rfl
  placeholder _ h := h.imp_right fun h => by simp [Assembly.leave, Assembly.enter, h]
  unexpected _ _ _ := .inr (Bool.and_false _)
  override _ _ h := h
  enter h := ⟨(), h, fun _ h => h.imp_right fun h => by simp [Assembly.leave, h]⟩
  precede h := ⟨(), h, fun _ h => h.imp_right fun h => by simp [Assembly.leave, h]⟩

/-- A node that is closed is counted with what it is put around. -/
theorem isClean_leave {outer : Bool} {before built : Forest} (wrapped : List Green) (kind : Kind)
    {inner : Tally} (h : inner.isClean =
      (outer && Green.allClean (wrapped ++ before) && Green.allClean built)) :
    (inner.isClean && kind.isWanted)
      = (outer && Green.allClean (Forest.leave (wrapped, before) (some kind) built)) := by
  rw [h, Forest.leave, Green.allClean_cons, Green.isClean_node_eq]
  simp only [Green.allClean_append, Green.allClean_reverse]
  ac_rfl

/-- What is noted is whether the trees are clean. -/
def counting : Simulation Tally Forest where
  Context := Bool
  rel outer _ tally built := tally.isClean = (outer && Green.allClean built)
  token _ h := by simpa [Assembly.token] using h
  split _ _ h := h
  missing _ _ _ := (Bool.and_false _).symm
  placeholder kind h := isClean_leave [] kind.1 (by simpa [Assembly.enter] using h)
  unexpected {outer ts tally built} xs _ _ := by
    have hunwanted : ∀ cs, (Green.node .unexpected cs).isClean = false := fun cs => rfl
    show (_ && false) = (outer && Green.allClean (Green.node .unexpected _ :: built))
    rw [Green.allClean_cons, hunwanted, Bool.false_and, Bool.and_false, Bool.and_false]
  override _ _ h := h
  enter {outer ts tally built} h := by
    refine ⟨tally.isClean, (Bool.and_true _).symm, ?_⟩
    rintro us inner trees kind hinner
    rw [h] at hinner
    cases kind with
    | some kind => exact isClean_leave [] kind.1 hinner
    | none =>
      show (inner.isClean && true) = (outer && Green.allClean (trees ++ [] ++ built))
      rw [hinner, Bool.and_true, List.append_nil, Green.allClean_append]
      ac_rfl
  precede {outer ts tally built} h := by
    rcases Forest.precede_eq built with ⟨kind, cs, before, rfl, hprecede⟩ | hprecede
    · refine ⟨tally.isClean, (Bool.and_true _).symm, ?_⟩
      intro us inner trees kind hinner
      rw [h] at hinner
      exact isClean_leave [_] kind.1 hinner
    · refine ⟨tally.isClean, ?_, ?_⟩
      · show _ = (_ && Green.allClean (Forest.precede built).2)
        rw [hprecede]
        exact (Bool.and_true _).symm
      · intro us inner trees kind hinner
        show _ = (outer && Green.allClean (Forest.leave (Forest.precede built).1 _ _))
        rw [hprecede]
        rw [h] at hinner
        exact isClean_leave [] kind.1 hinner

end Tally

/-! ## Clean ends -/

/-- Some tokens are left, and nothing was wrong so far. -/
def State.clean (ts : Ahead) : State Tally := ⟨ts, ⟨true⟩⟩

/-- Whether no clean end can be reached from a state, or none with tokens left. -/
def State.IsLost (atEnd : Prop) (s : State Tally) : Prop :=
  atEnd ∧ s.ahead = [] ∨ s.built.isClean = false

/-- A state that is not lost is a clean one, with tokens left if the end counts as a loss. -/
theorem State.eq_clean {atEnd : Prop} {s : State Tally} (h : ¬s.IsLost atEnd) :
    ∃ ts, s = .clean ts ∧ (atEnd → ts ≠ []) := by
  obtain ⟨ts, ⟨isClean⟩⟩ := s
  obtain ⟨hne, hclean⟩ := not_or.mp h
  obtain rfl : isClean = true := Bool.not_eq_false _ |>.mp hclean
  exact ⟨ts, rfl, fun hend hnil => hne ⟨hend, hnil⟩⟩

theorem State.not_isLost_clean {atEnd : Prop} {ts : Ahead} (h : atEnd → ts ≠ []) :
    ¬(State.clean ts).IsLost atEnd :=
  not_or.mpr ⟨fun hlost => h hlost.1 hlost.2, nofun⟩

/-- A node that closes in a clean state was clean before, and is no unexpected text. -/
theorem State.eq_clean_of_leave {s : State Tally} {mark : Assembly.Mark Tally} {kind : Option Kind}
    {us : Ahead} (h : s.leave mark kind = .clean us) : s = .clean us ∧ kind.all Kind.isWanted := by
  obtain ⟨ts, ⟨isClean⟩⟩ := s
  obtain rfl : ts = us := congrArg State.ahead h
  have hclean : (isClean && kind.all Kind.isWanted) = true := congrArg (fun s => s.built.isClean) h
  obtain ⟨rfl, hkind⟩ := (Bool.and_eq_true _ _).mp hclean
  exact ⟨rfl, hkind⟩

theorem State.leave_clean (ts : Ahead) {mark : Assembly.Mark Tally} {kind : Option Kind}
    (h : kind.all Kind.isWanted) : (State.clean ts).leave mark kind = .clean ts :=
  congrArg (fun isClean => (⟨ts, ⟨isClean⟩⟩ : State Tally)) h

section Runs

variable {α : Type} {n rounds : Nat} {a : α} {s : State Tally} {us : Ahead} {atEnd : Prop}

/-- What a state has lost is not found again. -/
theorem State.eq_clean_of_agree (hne : atEnd → us ≠ [])
    (h : s.IsLost atEnd → ∃ r, (Tally.losing atEnd).Agree () (some (a, .clean us)) r) :
    ∃ ts, s = .clean ts ∧ (atEnd → ts ≠ []) := by
  refine State.eq_clean fun hlost => ?_
  obtain ⟨r, hagree⟩ := h hlost
  obtain ⟨t, -, -, hlost'⟩ := Simulation.agree_some hagree
  exact State.not_isLost_clean hne hlost'

theorem Tally.envAgree (n rounds : Nat) :
    (Tally.losing atEnd).EnvAgree ⟨Goal.run n, rounds⟩ ⟨Goal.run n, rounds⟩ :=
  ⟨fun g _ _ _ => Simulation.goal n g, rfl⟩

/-- What leads to a clean state starts in one. -/
theorem Parser.exists_clean_of_run {p : Parser α}
    (h : p.run ⟨Goal.run n, rounds⟩ s = some (a, .clean us)) (hne : atEnd → us ≠ []) :
    ∃ ts, s = .clean ts ∧ (atEnd → ts ≠ []) := by
  refine State.eq_clean_of_agree (a := a) hne fun hlost => ?_
  rw [← h]
  exact ⟨_, Simulation.run (Tally.envAgree n rounds) p (s := s) (t := ⟨s.ahead, ()⟩) ⟨rfl, hlost⟩⟩

/-- Rounds that lead to a clean state start in one. -/
theorem Parser.exists_clean_of_iterate {body : Parser (Option α)} {k : Nat}
    (h : iterate (body.run ⟨Goal.run n, rounds⟩) k s = some (a, .clean us))
    (hne : atEnd → us ≠ []) :
    ∃ ts, s = .clean ts ∧ (atEnd → ts ≠ []) := by
  refine State.eq_clean_of_agree (a := a) hne fun hlost => ?_
  rw [← h]
  exact ⟨_, Simulation.iterate (Simulation.run (Tally.envAgree n rounds) body) k (s := s)
    (t := ⟨s.ahead, ()⟩) ⟨rfl, hlost⟩⟩

theorem Parser.clean_of_run {p : Parser α} (h : p.run ⟨Goal.run n, rounds⟩ s = some (a, .clean us))
    (hne : us ≠ []) : ∃ ts, s = .clean ts ∧ ts ≠ [] :=
  (exists_clean_of_run h fun _ => hne).imp fun _ h => ⟨h.1, h.2 trivial⟩

theorem Parser.clean_of_iterate {body : Parser (Option α)} {k : Nat}
    (h : iterate (body.run ⟨Goal.run n, rounds⟩) k s = some (a, .clean us)) (hne : us ≠ []) :
    ∃ ts, s = .clean ts ∧ ts ≠ [] :=
  (exists_clean_of_iterate h fun _ => hne).imp fun _ h => ⟨h.1, h.2 trivial⟩

/-- Nothing is wrong on the way to a state in which nothing is. -/
theorem Parser.eq_clean_of_run {p : Parser α}
    (h : p.run ⟨Goal.run n, rounds⟩ s = some (a, .clean us)) :
    ∃ ts, s = .clean ts :=
  (exists_clean_of_run h False.elim).imp fun _ h => h.1

end Runs

/-! ## Stable rules -/

/-- Whether a way from some tokens to others can be gone as well if a brace stands behind them. -/
def Parser.Keeps {α : Type} (p : Parser α) (ts us : Ahead) (a : α) : Prop :=
  ∀ vs, Ahead.Braced ts vs → ∃ ws, Ahead.Braced us ws ∧ p.Ends (.clean vs) a (.clean ws)

/-- Whether a goal that is reached in a clean way is reached as well if a brace stands behind. -/
def Goal.StableFor (n : Nat) (g : Goal) : Prop :=
  ∀ ⦃ts us b⦄, g.run n (.clean ts) = some (b, .clean us) → us ≠ [] → (call g).Keeps ts us b

/-- Whether a rule does not depend on what stands behind the tokens: each clean way with tokens left
can be gone as well if a brace stands behind them. -/
def Parser.Stable {α : Type} (p : Parser α) : Prop :=
  ∀ ⦃n⦄, (∀ g, Goal.StableFor n g) → ∀ ⦃rounds ts us a⦄,
    p.run ⟨Goal.run n, rounds⟩ (.clean ts) = some (a, .clean us) → us ≠ [] → p.Keeps ts us a

/-- Unexpected text is never clean. Only the end can be passed over. -/
theorem Parser.eq_nil_of_unexpected {m n rounds : Nat} {ts us : Ahead} {a : Unit}
    (h : (Grammar.unexpected m).run ⟨Goal.run n, rounds⟩ (.clean ts) = some (a, .clean us)) :
    ts = [] ∧ us = [] := by
  have hstate : State.unexpected m (.clean ts) = .clean us := (Prod.mk.inj (Option.some.inj h)).2
  cases ts with
  | nil => exact ⟨rfl, (congrArg State.ahead hstate).symm⟩
  | cons x ts =>
    rw [State.clean, State.unexpected_cons] at hstate
    have hclean := congrArg (fun s => s.built.isClean) hstate
    exact absurd hclean (by simp [Assembly.leave, Kind.isWanted, State.clean])

namespace Parser.Stable

variable {α β : Type}

/-- A rule is stable if one is that does the same. A tally takes no notice of what is noted. -/
theorem of_agrees {p q : Parser α} (h : p.Agrees q) (hq : q.Stable) : p.Stable := by
  intro n hcalls rounds ts us a hrun hne vs hvs
  rw [h] at hrun
  obtain ⟨ws, hws, hends⟩ := hq hcalls hrun hne vs hvs
  refine ⟨ws, hws, fun n rounds r hr => hends n rounds r ?_⟩
  rwa [← h]

/-- An answer alone does not look at the tokens. -/
theorem pure (a : α) : (Pure.pure a : Parser α).Stable := by
  intro n _ rounds ts us b h _ vs hvs
  obtain ⟨rfl, ht⟩ := Prod.mk.inj (Option.some.inj h)
  obtain rfl : ts = us := congrArg State.ahead ht
  exact ⟨vs, hvs, .pure _ _⟩

/-- Two rules one after the other: the state in between is clean with tokens left, so the first one
can be followed with a brace behind, and then the second one. -/
theorem bind {first : Parser α} {next : α → Parser β} (h : first.Stable)
    (hnext : ∀ a, (next a).Stable) :
    (first >>= next).Stable := by
  intro n hcalls rounds ts us b hrun hne vs hvs
  change (Parser.bind first next).run _ _ = _ at hrun
  rw [Parser.run] at hrun
  split at hrun
  · cases hrun
  · rename_i a t hfirst
    obtain ⟨ms, rfl, hms⟩ := clean_of_run hrun hne
    obtain ⟨ws, hws, hends⟩ := h hcalls hfirst hms vs hvs
    obtain ⟨xs, hxs, hends'⟩ := hnext a hcalls hrun hne ws hws
    exact ⟨xs, hxs, hends.bind hends'⟩

/-- A rule behind a look whose answer is the same wherever the rule finds all that it wants. -/
theorem lookWith {f : Ahead → α} {next : α → Parser β}
    (hf : ∀ ⦃n rounds ts us vs b⦄,
      (next (f ts)).run ⟨Goal.run n, rounds⟩ (.clean ts) = some (b, .clean us) →
      us ≠ [] → ts ≠ [] → Ahead.Braced ts vs → f vs = f ts)
    (hnext : ∀ a, (next a).Stable) : (Grammar.look f >>= next).Stable := by
  intro n hcalls rounds ts us b hrun hne vs hvs
  change (next (f ts)).run _ _ = _ at hrun
  obtain ⟨ts', hts', hts⟩ := clean_of_run hrun hne
  obtain rfl : ts = ts' := congrArg State.ahead hts'
  obtain ⟨ws, hws, hends⟩ := hnext _ hcalls hrun hne vs hvs
  exact ⟨ws, hws, (Ends.look (hf hrun hne hts hvs)).bind hends⟩

/-- A rule behind a look that cannot see what stands behind the tokens. -/
theorem look {f : Ahead → α} {next : α → Parser β} (hf : Ahead.Blind f)
    (hnext : ∀ a, (next a).Stable) :
    (Grammar.look f >>= next).Stable :=
  lookWith (fun _ _ _ _ _ _ _ _ hts hvs => (hf hvs hts).symm) hnext

/-- A rule that finds something missing or unexpected has no clean way. -/
theorem of_faulty {p : Parser α} (h : ∀ ⦃n rounds ts us a⦄,
    p.run ⟨Goal.run n, rounds⟩ (.clean ts) = some (a, .clean us) → us = []) : p.Stable :=
  fun _ _ _ _ _ _ hrun hne => absurd (h hrun) hne

theorem missingSpelled {k : Kind} {spelling : Text} {hk : k.isSolid} :
    (Grammar.missingSpelled k spelling hk).Stable := of_faulty fun _ _ _ _ _ => nofun

theorem missing {k : Kind} {hk : k.isSolid} : (Grammar.missing k hk).Stable := missingSpelled

/-- A placeholder leads to no clean state. -/
theorem placeholder {k : Kind} {hk : k.isMissingNode} : (Grammar.placeholder k hk).Stable := by
  refine of_faulty fun n rounds ts us a h => ?_
  have hclean : k.isWanted = true :=
    congrArg (fun s => s.built.isClean) (Prod.mk.inj (Option.some.inj h)).2
  rw [Kind.isWanted, hk] at hclean
  cases hclean

theorem unexpected {m : Nat} : (Grammar.unexpected m).Stable :=
  of_faulty fun _ _ _ _ _ h => (eq_nil_of_unexpected h).2

/-- A token is taken as before, as long as another one is left behind it. -/
theorem take (kind : Option SolidKind) : (Parser.take kind).Stable := by
  intro n _ rounds ts us a hrun hne vs hvs
  obtain ⟨rfl, ht⟩ := Prod.mk.inj (Option.some.inj hrun)
  cases hvs with
  | nil => exact absurd (congrArg State.ahead ht).symm hne
  | @cons x y ts vs halike hlast hvs =>
    obtain rfl : ts = us := congrArg State.ahead ht
    exact ⟨vs, hvs, .take kind _⟩

/-- A token may be cut if what is left of it is of its own kind, or does not show the end behind
it. -/
theorem splitHead {head : SolidKind} {rest : Option SolidKind}
    (h : ∀ k ∈ rest, Ahead.loose.contains k.1 = false) : (Parser.splitHead head rest).Stable := by
  intro n _ rounds ts us a hrun hne vs hvs
  obtain ⟨rfl, ht⟩ := Prod.mk.inj (Option.some.inj hrun)
  obtain rfl : ts.splitHead head rest = us := congrArg State.ahead ht
  exact ⟨_, hvs.splitHead h (fun hnil => hne (by rw [hnil]; rfl)), .splitHead head rest _⟩

/-- A node leads to a clean state if its parts do. -/
theorem mark {body : Parser (Option Construct × α)} (h : body.Stable) :
    (Parser.mark body).Stable := by
  intro n hcalls rounds ts us a hrun hne vs hvs
  rw [run_mark] at hrun
  split at hrun
  · cases hrun
  · rename_i kind b t hbody
    obtain ⟨rfl, ht⟩ := Prod.mk.inj (Option.some.inj hrun)
    obtain ⟨rfl, hkind⟩ := State.eq_clean_of_leave ht
    obtain ⟨ws, hws, hends⟩ := h hcalls hbody hne vs hvs
    refine ⟨ws, hws, ?_⟩
    rw [← State.leave_clean ws hkind]
    exact Ends.mark (s := .clean vs) (t := .clean ws) kind hends

/-- A node around the newest tree leads to a clean state if its other parts do. -/
theorem enclose {kind : Kind} {body : Parser α} {hk : kind.isConstruct} (h : body.Stable) :
    (Grammar.enclose kind body hk).Stable := by
  intro n hcalls rounds ts us a hrun hne vs hvs
  change (Parser.enclose ⟨kind, hk⟩ body).run _ _ = _ at hrun
  rw [run_enclose] at hrun
  split at hrun
  · cases hrun
  · rename_i b t hbody
    obtain ⟨rfl, ht⟩ := Prod.mk.inj (Option.some.inj hrun)
    obtain ⟨rfl, hkind⟩ := State.eq_clean_of_leave ht
    obtain ⟨ws, hws, hends⟩ := h hcalls hbody hne vs hvs
    refine ⟨ws, hws, ?_⟩
    rw [← State.leave_clean ws hkind]
    exact Ends.enclose (s := .clean vs) (t := .clean ws) hends

theorem call (g : Goal) : (Grammar.call g).Stable :=
  fun _ hcalls _ _ _ _ hrun hne => hcalls g hrun hne

theorem visit (g : Goal) : (Grammar.visit g).Stable := (call g).bind fun _ => pure ()

/-- Each round of a loop can be gone with a brace behind. The induction is on the rounds. -/
theorem repeatUntil {body : Parser (Option α)} (h : body.Stable) :
    (Grammar.repeatUntil body).Stable := by
  intro n hcalls rounds ts us a hrun hne vs hvs
  -- by induction on the rounds; each one is stable, and the next starts where it ends
  have hturns (k : Nat) :
    ∀ {ts vs}, iterate (body.run ⟨Goal.run n, rounds⟩) k (.clean ts) = some (a, .clean us) →
      Ahead.Braced ts vs → ∃ ws, Ahead.Braced us ws ∧ body.Turns (.clean vs) a (.clean ws) := by
    induction k with
    | zero => exact fun h => nomatch h
    | succ k ih =>
      intro ts vs hrun hvs
      rw [iterate] at hrun
      split at hrun
      · cases hrun
      · rename_i hbody
        cases hrun
        obtain ⟨ws, hws, hends⟩ := h hcalls hbody hne vs hvs
        exact ⟨ws, hws, .stop hends⟩
      · rename_i t hbody
        obtain ⟨ms, rfl, hms⟩ := clean_of_iterate hrun hne
        obtain ⟨ws, hws, hends⟩ := h hcalls hbody hms vs hvs
        obtain ⟨xs, hxs, hturns⟩ := ih hrun hws
        exact ⟨xs, hxs, .again hends hturns⟩
  obtain ⟨ws, hws, hends⟩ := hturns rounds hrun hvs
  exact ⟨ws, hws, .repeatUntil hends⟩

/-! ### Conditions -/

/-- A choice that was made before is the same whatever stands behind. -/
theorem ite {c : Bool} {p q : Parser α} (hp : p.Stable) (hq : q.Stable) :
    (if c then p else q).Stable := by
  split
  · exact hp
  · exact hq

theorem branch {f : Ahead → Bool} {p q : Parser α} (hf : Ahead.Blind f) (hp : p.Stable)
    (hq : q.Stable) : (Grammar.look f >>= fun b => if b then p else q).Stable :=
  look hf fun _ => ite hp hq

theorem onlyIf {b : Bool} {p : Parser Unit} (h : p.Stable) : (Grammar.onlyIf b p).Stable :=
  ite h (pure ())

theorem ifAhead {f : Ahead → Bool} {p : Parser Unit} (hf : Ahead.Blind f) (h : p.Stable) :
    (Grammar.ifAhead f p).Stable := branch hf h (pure ())

theorem ifAt {k : Kind} {p : Parser Unit} (h : p.Stable) : (Grammar.ifAt k p).Stable :=
  ifAhead .isAtAny h

theorem unlessAt {k : Kind} {p : Parser Unit} (h : p.Stable) : (Grammar.unlessAt k p).Stable :=
  ifAhead (.not .isAtAny) h

/-! ### Tokens -/

theorem advance : Grammar.advance.Stable := take none

theorem advanceAs {k : Kind} {hk : k.isSolid} : (Grammar.advanceAs k hk).Stable := take _

/-- Tokens are taken one after the other. -/
theorem advanceBy (n : Nat) : (Grammar.advanceBy n).Stable := by
  induction n with
  | zero => exact pure ()
  | succ n ih => exact advance.bind fun _ => ih

theorem eat {k : Kind} : (Grammar.eat k).Stable :=
  branch .isAtAny (advance.bind fun _ => pure true) (pure false)

theorem skip {k : Kind} : (Grammar.skip k).Stable := ifAt advance

theorem eatWord {k : Kind} {hk : k.isSolid} : (Grammar.eatWord k hk).Stable :=
  branch .isKeywordWord (advanceAs.bind fun _ => pure true) (pure false)

theorem expect {k : Kind} {hk : k.isSolid} : (Grammar.expect k hk).Stable :=
  eat.bind fun _ => ite (pure true) (missing.bind fun _ => pure false)

theorem require {k : Kind} {hk : k.isSolid} : (Grammar.require k hk).Stable :=
  expect.bind fun _ => pure ()

/-! ### Nodes -/

theorem nodeBy {p : Parser (Construct × α)} (h : p.Stable) : (Grammar.nodeBy p).Stable :=
  mark (h.bind fun _ => pure _)

theorem node {kind : Kind} {p : Parser α} {hk : kind.isConstruct} (h : p.Stable) :
    (Grammar.node kind p hk).Stable := mark (h.bind fun _ => pure _)

theorem nodeIf {kind : Kind} {p : Parser Bool} {hk : kind.isConstruct} (h : p.Stable) :
    (Grammar.nodeIf kind p hk).Stable := mark (h.bind fun _ => pure _)

theorem emptyNode {kind : Kind} {hk : kind.isConstruct} : (Grammar.emptyNode kind hk).Stable :=
  node (pure ())

/-! ### Loops -/

theorem repeatWhile {p : Parser Bool} (h : p.Stable) : (Grammar.repeatWhile p).Stable :=
  repeatUntil (h.bind fun _ => pure _)

theorem whileAhead {f : Ahead → Bool} {p : Parser Unit} (hf : Ahead.Blind f) (h : p.Stable) :
    (Grammar.whileAhead f p).Stable :=
  repeatWhile (branch hf (h.bind fun _ => pure true) (pure false))

theorem commaList {kind : Kind} {ends : Ahead → Bool} {p : Parser Unit} {hk : kind.isConstruct}
    (hends : Ahead.Blind ends) (h : p.Stable) : (Grammar.commaList kind ends p hk).Stable :=
  repeatWhile ((node (h.bind fun _ => eat)).bind fun _ => look hends fun _ => pure _)

theorem complete {p : Parser Unit} (h : p.Stable) : (Grammar.complete p).Stable :=
  h.bind fun _ => pure false

end Parser.Stable

/-- Goals that are reached in a clean way are reached as well if a brace stands behind the tokens,
if all rules are stable. -/
theorem Goal.stableFor (h : ∀ g : Goal, g.rule.Stable) (n : Nat) (g : Goal) : g.StableFor n := by
  induction n generalizing g with
  | zero => exact fun _ _ _ hrun => nomatch hrun
  | succ n ih =>
    intro ts us b hrun hne vs hvs
    obtain ⟨ws, hws, hends⟩ := @h g n ih n _ _ _ hrun hne vs hvs
    exact ⟨ws, hws, .call hends⟩

end Grammar

end SwiftTree
