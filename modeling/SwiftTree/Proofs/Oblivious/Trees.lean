import SwiftTree.Proofs.Entries
import SwiftTree.Proofs.Oblivious.Rules

/-!
# Trees that differ in trivia

Trees can be stripped of their trivia as tokens can (`Green.bare`). What is left are the nodes, the
kinds and spellings of the tokens, and the missing tokens.

A rule that sees no trivia takes the same steps before tokens that differ in nothing else, and puts
together the same trees up to trivia (`Parser.Oblivious.run`). All rules are such rules, so texts
with the same tokens up to trivia have the same trees up to trivia (`Entry.bare_tree`).
-/

namespace SwiftTree

/-! ## Trees without trivia -/

/-- A token of a tree without the trivia around it. -/
def Token.Outline.bare (o : Outline) : Outline := ⟨[], o.kind, o.text, []⟩

theorem Token.Outline.bare_eq (o : Outline) : o.bare = outline ⟨[], o.kind, o.text, []⟩ := by
  simp [bare, outline, Token.full, Trivia.outline]

/-- A token keeps its spelling without trivia. -/
@[simp] theorem Token.Outline.text_bare (o : Outline) : o.bare.text = o.text := by
  rw [bare_eq, text_outline]

@[simp] theorem Token.Outline.bare_bare (o : Outline) : o.bare.bare = o.bare := by
  rw [bare, text_bare, bare]

@[simp] theorem Token.bare_outline (t : Token) : t.outline.bare = t.bare.outline := by
  rw [Outline.bare_eq, text_outline]
  rfl

namespace Green

/-- A leaf without trivia. A missing token has none. -/
def Leaf.bare : Leaf → Leaf
  | present t => present t.bare
  | missing kind spelling => missing kind spelling

mutual

/-- A tree without trivia. -/
def bare : Green → Green
  | node kind cs => node kind (bareAll cs)
  | leaf l => leaf l.bare

/-- Several trees without trivia. -/
def bareAll : List Green → List Green
  | [] => []
  | g :: gs => g.bare :: bareAll gs

end

mutual

@[simp] theorem bare_bare : (g : Green) → g.bare.bare = g.bare
  | node kind cs => by rw [bare, bare, bareAll_bareAll]
  | leaf (.present t) => by simp [bare, Leaf.bare]
  | leaf (.missing kind spelling) => rfl

@[simp] theorem bareAll_bareAll : (gs : List Green) → bareAll (bareAll gs) = bareAll gs
  | [] => rfl
  | g :: gs => by rw [bareAll, bareAll, bare_bare, bareAll_bareAll]

end

/-- Several trees are stripped one by one. -/
theorem bareAll_eq_map (gs : List Green) : bareAll gs = gs.map bare := by
  induction gs with
  | nil => rfl
  | cons g gs ih => rw [bareAll, ih, List.map_cons]

@[simp] theorem bareAll_append (gs hs : List Green) :
    bareAll (gs ++ hs) = bareAll gs ++ bareAll hs := by
  simp [bareAll_eq_map]

@[simp] theorem bareAll_reverse (gs : List Green) : bareAll gs.reverse = (bareAll gs).reverse := by
  simp [bareAll_eq_map]

mutual

@[simp] theorem leaves_bare : (g : Green) → g.bare.leaves = g.leaves.map Leaf.bare
  | node kind cs => by rw [bare, leaves, leaves, leavesOf_bareAll]
  | leaf l => rfl

@[simp] theorem leavesOf_bareAll :
    (gs : List Green) → leavesOf (bareAll gs) = (leavesOf gs).map Leaf.bare
  | [] => rfl
  | g :: gs => by rw [bareAll, leavesOf, leavesOf, List.map_append, leaves_bare, leavesOf_bareAll]

end

@[simp] theorem Leaf.isPresent_bare (l : Leaf) : l.bare.isPresent = l.isPresent := by
  cases l <;> rfl

@[simp] theorem Leaf.textTrimmed_bare (l : Leaf) : l.bare.textTrimmed = l.textTrimmed := by
  cases l with
  | present t => exact t.text_bare
  | missing kind spelling => rfl

@[simp] theorem kind_bare (g : Green) : g.bare.kind = g.kind := by
  match g with
  | node _ _ | leaf (.present _) | leaf (.missing _ _) => rfl

@[simp] theorem hasPresent_bare (g : Green) : g.bare.hasPresent = g.hasPresent := by
  rw [hasPresent_eq_any, hasPresent_eq_any, leaves_bare, List.any_map]
  exact congrArg _ (funext Leaf.isPresent_bare)

@[simp] theorem isMissing_bare (g : Green) : g.bare.isMissing = g.isMissing := by
  simp [isMissing]

@[simp] theorem bare_token (t : Token) : (token t).bare = token t.bare := by
  rw [token, bare, Leaf.bare, t.bare_outline, token]

end Green

namespace Grammar

/-! ## States without trivia -/

/-- A mark of a forest without trivia. -/
def Forest.bareMark (mark : List Green × Forest) : List Green × Forest :=
  (Green.bareAll mark.1, Green.bareAll mark.2)

namespace State

/-- A state without trivia. -/
def bare (s : State Forest) : State Forest := ⟨s.ahead.bare, Green.bareAll s.built⟩

variable (s : State Forest)

/-- Taking a token and stripping it can be done in either order. -/
theorem bare_take (kind : Option SolidKind) : (s.take kind).bare = s.bare.take kind := by
  obtain ⟨ahead, built⟩ := s
  cases ahead with
  | nil => rfl
  | cons x ts =>
    show State.mk _ (Green.bare (.token _) :: _) = _
    rw [Green.bare_token]
    rfl

/-- The same for several tokens. -/
theorem bare_takeBy (n : Nat) : (s.takeBy n).bare = s.bare.takeBy n := by
  induction n generalizing s with
  | zero => rfl
  | succ n ih => rw [takeBy, ih, bare_take, takeBy]

theorem bare_missing (kind : Kind) (spelling : Text) :
    bare { s with built := Assembly.missing kind spelling s.built }
      = { s.bare with built := Assembly.missing kind spelling s.bare.built } := rfl

theorem bare_enter : s.bare.enter = (Forest.bareMark s.enter.1, s.enter.2.bare) := rfl

/-- What a node opens around is the newest tree, stripped or not. -/
theorem bare_precede : s.bare.precede = (Forest.bareMark s.precede.1, s.precede.2.bare) := by
  obtain ⟨ahead, built⟩ := s
  match built with
  | [] | .leaf _ :: _ | .node _ _ :: _ => rfl

/-- Closing a node and stripping it can be done in either order. -/
theorem bare_leave (mark : Assembly.Mark Forest) (kind : Option Kind) :
    (s.leave mark kind).bare = s.bare.leave (Forest.bareMark mark) kind := by
  cases kind with
  | none =>
    show State.mk _ (Green.bareAll (s.built ++ mark.1 ++ mark.2)) = _
    rw [Green.bareAll_append, Green.bareAll_append]
    rfl
  | some kind =>
    show State.mk _ (Green.bareAll (.node kind (mark.1 ++ s.built.reverse) :: mark.2)) = _
    rw [Green.bareAll, Green.bare, Green.bareAll_append, Green.bareAll_reverse]
    rfl

/-- Skipping tokens and stripping them can be done in either order. -/
theorem bare_unexpected (more : Nat) : (s.unexpected more).bare = s.bare.unexpected more := by
  obtain ⟨ahead, built⟩ := s
  cases ahead with
  | nil => rfl
  | cons x ts =>
    show (leave _ _ (takeBy _ _)).bare = leave _ _ (takeBy _ _)
    rw [bare_leave, bare_takeBy]
    rfl

variable {s} {t : State Forest} (h : s.bare = t.bare)

include h

theorem enter_congr : Forest.bareMark s.enter.1 = Forest.bareMark t.enter.1 ∧
    s.enter.2.bare = t.enter.2.bare :=
  Prod.mk.inj (by rw [← bare_enter, ← bare_enter, h])

theorem precede_congr : Forest.bareMark s.precede.1 = Forest.bareMark t.precede.1 ∧
    s.precede.2.bare = t.precede.2.bare :=
  Prod.mk.inj (by rw [← bare_precede, ← bare_precede, h])

theorem leave_congr {mark mark' : Assembly.Mark Forest}
    (hmark : Forest.bareMark mark = Forest.bareMark mark') (kind : Option Kind) :
    (s.leave mark kind).bare = (t.leave mark' kind).bare := by
  rw [bare_leave, bare_leave, h, hmark]

end State

/-! ## Runs -/

section Runs

variable {α : Type} {env : Env Forest} {s t : State Forest}

/-- An outcome without trivia. -/
def bareOutcome (r : Option (α × State Forest)) : Option (α × State Forest) :=
  r.map fun (a, s) => (a, s.bare)

theorem eq_none_of_bareOutcome {r : Option (α × State Forest)}
    (h : bareOutcome none = bareOutcome r) : r = none := Option.map_eq_none_iff.mp h.symm

/-- If the outcomes of two runs are the same up to trivia and one has an answer, the other has the
same one. -/
theorem exists_of_bareOutcome {a : α} {r : Option (α × State Forest)}
    (h : bareOutcome (some (a, s)) = bareOutcome r) : ∃ t, r = some (a, t) ∧ s.bare = t.bare := by
  obtain ⟨⟨b, t⟩, rfl, hbare⟩ := Option.map_eq_some_iff.mp h.symm
  obtain ⟨rfl, ht⟩ := Prod.mk.inj hbare
  exact ⟨t, rfl, ht.symm⟩

theorem bareOutcome_congr {a : α} (h : s.bare = t.bare) :
    bareOutcome (some (a, s)) = bareOutcome (some (a, t)) := congrArg (fun u => some (a, u)) h

/-- Whether goals have the same outcomes up to trivia from states that differ in trivia. -/
def Env.Oblivious (env : Env Forest) : Prop :=
  ∀ g {s t}, s.bare = t.bare → bareOutcome (env.call g s) = bareOutcome (env.call g t)

/-- Loops have the same outcomes up to trivia if their rounds do. The induction is on the rounds. -/
theorem bareOutcome_iterate {step : State Forest → Option (Option α × State Forest)}
    (hstep : ∀ {s t}, s.bare = t.bare → bareOutcome (step s) = bareOutcome (step t)) (n : Nat)
    (h : s.bare = t.bare) : bareOutcome (iterate step n s) = bareOutcome (iterate step n t) := by
  induction n generalizing s t with
  | zero => rfl
  | succ n ih =>
    have hst := hstep h
    rw [iterate, iterate]
    rcases e : step s with _ | ⟨_ | a, s'⟩ <;> rw [e] at hst
    · rw [eq_none_of_bareOutcome hst]
    · obtain ⟨t', ht, h'⟩ := exists_of_bareOutcome hst
      rw [ht]
      exact ih h'
    · obtain ⟨t', ht, h'⟩ := exists_of_bareOutcome hst
      rw [ht]
      exact bareOutcome_congr h'

/-- **A rule that sees no trivia has the same outcome up to trivia** from states that differ in
trivia. The induction is on how the rule is put together. -/
theorem Parser.Oblivious.run (henv : env.Oblivious) {p : Parser α} (hp : p.Oblivious)
    (h : s.bare = t.bare) : bareOutcome (p.run env s) = bareOutcome (p.run env t) := by
  -- by induction on the rule: before and behind every step, the two states differ in trivia at most
  induction p generalizing s t with
  | pure a => exact bareOutcome_congr h
  | bind first next ih_first ih_next =>
    have hfirst := ih_first hp.1 h
    rw [Parser.run, Parser.run]
    rcases hr : first.run env s with _ | ⟨a, s'⟩ <;> rw [hr] at hfirst
    · rw [eq_none_of_bareOutcome hfirst]
    · obtain ⟨t', ht, h'⟩ := exists_of_bareOutcome hfirst
      rw [ht]
      exact ih_next a (hp.2 a) h'
  | look f =>
    have hahead : s.ahead.bare = t.ahead.bare := congrArg State.ahead h
    have hf : f s.ahead = f t.ahead := by rw [← hp, hahead, hp]
    rw [Parser.run, Parser.run, hf]
    exact bareOutcome_congr h
  | take kind => exact bareOutcome_congr (by rw [State.bare_take, h, ← State.bare_take])
  | splitHead head rest =>
    -- the second half has a new position, so cutting respects `bare` without commuting with it
    have hahead : s.ahead.bare = t.ahead.bare := congrArg State.ahead h
    have hsplit : (s.ahead.splitHead head rest).bare = (t.ahead.splitHead head rest).bare := by
      rw [← Ahead.splitHead_bare, hahead, Ahead.splitHead_bare]
    exact bareOutcome_congr (congrArg₂ State.mk hsplit (congrArg State.built h))
  | missing kind spelling =>
    exact bareOutcome_congr (by rw [State.bare_missing, h, ← State.bare_missing])
  | override start diagnostic => exact bareOutcome_congr h
  | placeholder kind =>
    obtain ⟨hmark, hstate⟩ := State.enter_congr h
    exact bareOutcome_congr (State.leave_congr hstate hmark (some kind.1))
  | unexpected more =>
    exact bareOutcome_congr (by rw [State.bare_unexpected, h, ← State.bare_unexpected])
  | mark body ih =>
    obtain ⟨hmark, hstate⟩ := State.enter_congr h
    have hbody := ih hp hstate
    rw [Parser.run_mark, Parser.run_mark]
    rcases hr : body.run env s.enter.2 with _ | ⟨⟨kind, a⟩, s'⟩ <;> rw [hr] at hbody
    · rw [eq_none_of_bareOutcome hbody]
    · obtain ⟨t', ht, h'⟩ := exists_of_bareOutcome hbody
      rw [ht]
      exact bareOutcome_congr (State.leave_congr h' hmark _)
  | enclose kind body ih =>
    obtain ⟨hmark, hstate⟩ := State.precede_congr h
    have hbody := ih hp hstate
    rw [Parser.run_enclose, Parser.run_enclose]
    rcases hr : body.run env s.precede.2 with _ | ⟨a, s'⟩ <;> rw [hr] at hbody
    · rw [eq_none_of_bareOutcome hbody]
    · obtain ⟨t', ht, h'⟩ := exists_of_bareOutcome hbody
      rw [ht]
      exact bareOutcome_congr (State.leave_congr h' hmark _)
  | call goal => exact henv goal h
  | repeatUntil body ih => exact bareOutcome_iterate (fun hst => ih hp hst) env.rounds h

/-- No goal depends on trivia, however many calls there are. -/
theorem Env.oblivious_ofLimit (n : Nat) : (Env.ofLimit n : Env Forest).Oblivious := by
  induction n with
  | zero => exact fun _ _ _ _ => rfl
  | succ n ih =>
    intro g s t h
    obtain ⟨p, hagrees, hp⟩ := g.exists_oblivious_rule
    show bareOutcome (g.rule.run (.ofLimit n) s) = bareOutcome (g.rule.run (.ofLimit n) t)
    rw [hagrees, hagrees]
    exact hp.run ih h

end Runs

end Grammar

/-! ## Trees of texts -/

namespace Entry

open Grammar

variable {text text' : Text}

/-- The rule of every entry sees no trivia. -/
theorem rule_oblivious (e : Entry) : e.rule.Oblivious := by
  cases e with
  | sourceFile => exact .visit _
  | expression mode => exact .bind expr_oblivious fun _ => skipUntil_oblivious
  | statement => exact .bind (.visit _) fun _ => skipUntil_oblivious
  | closure => exact .bind (.visit _) fun _ => skipUntil_oblivious
  | returnStatement => exact .bind returnStatement_oblivious fun _ => skipUntil_oblivious

/-- Texts with the same tokens up to trivia have the same parts up to trivia. -/
theorem bareAll_parts (e : Entry) (h : (Ahead.ofText text).bare = (Ahead.ofText text').bare) :
    Green.bareAll (e.parts text) = Green.bareAll (e.parts text') := by
  -- the texts need not be of one length, so each run is granted the calls of both
  let n := max (callLimit (Text.byteLen text)) (callLimit (Text.byteLen text'))
  have hrun := Parser.run_mono (Env.extends_ofLimit (Nat.le_max_left _ _ : _ ≤ n)) (e.run_rule text)
  have hrun' := Parser.run_mono (Env.extends_ofLimit (Nat.le_max_right _ _ : _ ≤ n))
    (e.run_rule text')
  have hstart : State.bare ⟨.ofText text, []⟩ = State.bare ⟨.ofText text', []⟩ :=
    congrArg (State.mk · []) h
  have houtcome := e.rule_oblivious.run (Env.oblivious_ofLimit n) hstart
  rw [hrun, hrun'] at houtcome
  obtain ⟨t, ht, hbare⟩ := exists_of_bareOutcome houtcome
  obtain rfl := (Prod.mk.inj (Option.some.inj ht)).2
  have hbuilt := congrArg (fun u => u.built.reverse) hbare
  simpa [State.bare] using hbuilt

/-- Texts with the same tokens up to trivia have the same trees up to trivia: the rules of their
entry take the same steps on both. -/
theorem bare_tree (e : Entry) (h : (Ahead.ofText text).bare = (Ahead.ofText text').bare) :
    (e.tree text).bare = (e.tree text').bare := by
  obtain ⟨leading, heof⟩ := exists_endOfFile_eq text
  obtain ⟨leading', heof'⟩ := exists_endOfFile_eq text'
  rw [tree_eq, tree_eq, Green.bare, Green.bare, Green.bareAll_append, Green.bareAll_append,
    e.bareAll_parts h, heof, heof']
  simp [Green.bareAll, Token.bare]

end Entry

end SwiftTree
