import SwiftTree.Proofs.Clauses
import SwiftTree.Proofs.LoopClauses

/-!
# What rules note of C-style loops

Rules note one diagnostic for each C-style loop, at the moment at which they have skipped its
clauses. The tree is not there yet then: what is noted is made of the position of the word that was
taken, of the position where the next token starts, and of the one where the last token that was
skipped ends. When the tree is there, all of that can be read off it (`Node.standIn`).

This module shows that the two agree (`Entry.overrides_eq`). Trees are put together and diagnostics
are noted side by side (`Noted`), and at every moment what was noted is what can be read off the
trees so far (`State.Hands`). Rules that make no loops keep this (`Parser.keepsHands`); for loops it
takes where their tokens stand (`Parser.forStatement_hands`).
-/

namespace SwiftTree

open Grammar

/-! ## What can be read off a tree -/

namespace Green

/-- What a node that starts at a position hands on in the place of its clauses, if it is a C-style
loop: under the position where the clauses start, a diagnostic at the word of the loop, with the
clauses up to their end. -/
def handedBy (pos : Nat) : Kind → List Green → List Override
  | .forStmt, .leaf (.present word) :: .node .unexpected (.leaf (.present first) :: cs) :: _ =>
    let start := pos + word.byteLen + first.leading.byteLen
    let range := ⟨pos + word.leading.byteLen, pos + (word.byteLen - word.trailing.byteLen)⟩
    [⟨start, { Diagnostic.error .removedCStyleFor range with
      highlight := some ⟨start, pos + word.byteLen + byteLenOf (.leaf (.present first) :: cs)⟩ }⟩]
  | _, _ => []

mutual

/-- What the C-style loops of a tree that starts at a position hand on, in source order. -/
def handed (pos : Nat) : Green → List Override
  | .node kind cs => handedBy pos kind cs ++ handedAll pos cs
  | .leaf _ => []

/-- What the C-style loops of several trees hand on, of which the first starts at a position. -/
def handedAll (pos : Nat) : List Green → List Override
  | [] => []
  | g :: gs => g.handed pos ++ handedAll (pos + g.byteLen) gs

end

/-- Trees hand on what the first ones do, and then what the others do from where the first ones
end. -/
theorem handedAll_append (pos : Nat) (gs hs : List Green) :
    handedAll pos (gs ++ hs) = handedAll pos gs ++ handedAll (pos + byteLenOf gs) hs := by
  induction gs generalizing pos with
  | nil => rfl
  | cons g gs ih =>
    rw [List.cons_append, handedAll, handedAll, ih, byteLenOf, List.append_assoc, Nat.add_assoc]

theorem handedAll_concat (pos : Nat) (gs : List Green) (g : Green) :
    handedAll pos (gs ++ [g]) = handedAll pos gs ++ g.handed (pos + byteLenOf gs) := by
  rw [handedAll_append, handedAll, handedAll, List.append_nil]

/-- Leaves hand nothing on. -/
theorem handedAll_tokens (pos : Nat) (xs : Ahead) :
    handedAll pos (xs.map fun x => .token x.token) = [] := by
  induction xs generalizing pos with
  | nil => rfl
  | cons x xs ih => exact ih _

/-- Only loops hand something on themselves. -/
theorem handedBy_of_ne {kind : Kind} (h : kind ≠ .forStmt) (pos : Nat) (cs : List Green) :
    handedBy pos kind cs = [] := by
  unfold handedBy
  split
  · exact absurd rfl h
  · rfl

/-- What other nodes hand on is what their parts hand on. -/
theorem handed_of_ne {kind : Kind} (h : kind ≠ .forStmt) (pos : Nat) (cs : List Green) :
    (node kind cs).handed pos = handedAll pos cs := by
  rw [handed, handedBy_of_ne h, List.nil_append]

/-- A loop whose second part is no unexpected text hands nothing on itself. -/
theorem handedBy_of_not_startUnexpected {g : Green} {cs : List Green}
    (h : startUnexpected cs = false)
    (pos : Nat) (kind : Kind) : handedBy pos kind (g :: cs) = [] := by
  unfold handedBy
  split
  · rename_i heq
    obtain ⟨rfl, rfl⟩ := List.cons.inj heq
    cases h
  · rfl

end Green

namespace Node

/-- What stands in for the clauses of a C-style loop, under the position where these start. -/
def standIn (c : Node) : Override := ⟨c.trimmedRange.start, c.unexpectedDiagnostic⟩

/-- What a node hands on is what stands in for its clauses. -/
theorem handedBy_eq {n : Node} (hn : n.green.Proper) (hregular : n.green.Regular) :
    Green.handedBy n.offset n.kind n.children = n.clauses?.toList.map standIn := by
  cases h : n.clauses? with
  | none =>
    obtain ⟨kind, children, offset, way⟩ := n
    show Green.handedBy offset kind children = []
    unfold Green.handedBy
    split
    · rename_i word first cs gs
      have hsome : clauses? ⟨.forStmt, .leaf (.present word)
        :: .node .unexpected (.leaf (.present first) :: cs) :: gs, offset, way⟩ = some _ := rfl
      rw [hsome] at h
      cases h
    · rfl
  | some c =>
    obtain ⟨hkind, hclauses, hbelow, helement⟩ := of_clauses? hn h
    obtain ⟨hloop, g, cs, gs, hchildren, rfl⟩ := clauses?_eq_some h
    obtain ⟨word, hs, hword, -⟩ := exists_word hn hloop
    have hfirst := firstLeaf_of_present hword
    rw [hchildren] at hword
    obtain ⟨rfl, -⟩ := List.cons.inj hword
    have hunexpected : (Green.node .unexpected cs).Regular := by
      have hall : Green.RegularAll n.children := hregular.2.2
      rw [hchildren] at hall
      exact hall.2.1
    obtain ⟨first, cs, rfl⟩ :=
      Green.exists_present_of_isPresent (hunexpected.2.1 rfl).1 (hunexpected.2.1 rfl).2
    have hstart := start_trimmedRange_of_present
      (n := ⟨.unexpected, .leaf (.present first) :: cs,
        n.offset + (Green.leaf (.present word)).byteLen, n.step 1⟩) rfl
    show _ = [standIn _]
    rw [standIn, unexpectedDiagnostic_of_isCStyleClauses hbelow hclauses hfirst, hloop, hchildren,
      hstart]
    rfl

mutual

/-- What a tree hands on stands in for the clauses of its loops. -/
theorem handed_eq (n : Node) (index offset : Nat) : {g : Green} → g.Proper → g.Regular →
    g.handed offset = ((n.nodesIn index offset g).filterMap clauses?).map standIn
  | .leaf _, _, _ => rfl
  | .node kind cs, hproper, hregular => by
    have hown := handedBy_eq (n := ⟨kind, cs, offset, n.step index⟩) hproper hregular
    have hinside := handedAll_eq ⟨kind, cs, offset, n.step index⟩ 0 offset hproper.2 hregular.2.2
    rw [Green.handed, hown, hinside, nodesIn, ← List.map_append]
    cases h : clauses? ⟨kind, cs, offset, n.step index⟩ with
    | none => rw [List.filterMap_cons_none h, Option.toList_none, List.nil_append]
    | some c => rw [List.filterMap_cons_some h, Option.toList_some, List.singleton_append]

/-- What trees hand on is what stands in for the clauses of the C-style loops among their nodes.
Only a loop with clauses hands something on, and the two descriptions see the same parts of it. -/
theorem handedAll_eq (n : Node) (index offset : Nat) : {gs : List Green} → Green.ProperAll gs →
    Green.RegularAll gs →
    Green.handedAll offset gs = ((n.nodesFrom index offset gs).filterMap clauses?).map standIn
  | [], _, _ => rfl
  | g :: gs, hproper, hregular => by
    rw [Green.handedAll, handed_eq n index offset hproper.1 hregular.1,
      handedAll_eq n (index + 1) _ hproper.2 hregular.2, nodesFrom, List.filterMap_append,
      List.map_append]

end

end Node

/-! ## What rules note -/

namespace Grammar

/-- Trees, and what was noted while they were put together. -/
abbrev Noted := Forest × Notes

/-- How trees and notes belong together. The tokens that are still to be read stand where the trees
so far end, and what was noted, behind what was noted `before`, is what these trees hand on when the
first of them starts at a position. -/
structure State.Hands (pos : Nat) (before : List Override) (s : State Noted) : Prop where
  /-- the next token stands where the last one that was taken ends -/
  standsAt : s.ahead.StandsAt s.built.2.consumed
  /-- the trees so far cover the text up to there -/
  consumed : s.built.2.consumed = pos + Green.byteLenOf s.built.1
  /-- the notes are those of the trees so far -/
  overrides : s.built.2.overrides = before ++ Green.handedAll pos s.built.1.reverse

namespace State.Hands

variable {pos : Nat} {before : List Override} {s u : State Noted}

/-- Trees are added behind the others, and with them what they hand on. -/
theorem add {ts : Ahead} (h : s.Hands pos before) (gs : List Green) (notes : Notes)
    (hts : ts.StandsAt notes.consumed)
    (hconsumed : notes.consumed = s.built.2.consumed + Green.byteLenOf gs)
    (hnotes : notes.overrides = s.built.2.overrides ++ Green.handedAll s.built.2.consumed gs) :
    State.Hands pos before ⟨ts, (gs.reverse ++ s.built.1, notes)⟩ := by
  refine ⟨hts, ?_, ?_⟩
  · show notes.consumed = pos + Green.byteLenOf (gs.reverse ++ s.built.1)
    rw [hconsumed, h.consumed, Green.byteLenOf_append, Green.byteLenOf_reverse]
    omega
  · show notes.overrides = before ++ Green.handedAll pos (gs.reverse ++ s.built.1).reverse
    rw [hnotes, h.overrides, h.consumed, List.reverse_append, List.reverse_reverse,
      Green.handedAll_append, Green.byteLenOf_reverse, List.append_assoc]

/-- A token ends where the next one starts. -/
theorem consumed_token {x : Lexeme} {pos : Nat} (h : x.start = pos + x.token.leading.byteLen) :
    x.start + Text.byteLen x.token.text + x.token.trailing.byteLen = pos + x.token.byteLen := by
  rw [h, Token.byteLen]
  omega

/-- Taking a token keeps this: the token moves to the trees, and the next one starts where it
ends. -/
theorem take (kind : Option SolidKind) (h : s.Hands pos before) :
    (s.take kind).Hands pos before := by
  obtain ⟨ahead, built, notes⟩ := s
  cases ahead with
  | nil => exact h
  | cons x ts =>
    obtain ⟨hstart, hts⟩ := h.standsAt
    have hconsumed := consumed_token hstart
    have hlength : Green.byteLenOf
      [.token { x.token with kind := (kind.map Subtype.val).getD x.token.kind }]
        = x.token.byteLen := Token.byteLen_outline _
    refine h.add [.token _] ⟨_, notes.overrides⟩ ?_ ?_ (List.append_nil _).symm
    · show Ahead.StandsAt (x.start + Text.byteLen x.token.text + x.token.trailing.byteLen) ts
      rwa [hconsumed]
    · rw [hlength]
      exact hconsumed

theorem splitHead (head : SolidKind) (rest : Option SolidKind) (h : s.Hands pos before) :
    State.Hands pos before { s with ahead := s.ahead.splitHead head rest } :=
  ⟨Ahead.standsAt_splitHead head rest h.standsAt, h.consumed, h.overrides⟩

theorem missing (kind : Kind) (spelling : Text) (h : s.Hands pos before) :
    State.Hands pos before { s with built := Assembly.missing kind spelling s.built } :=
  h.add [.missing kind spelling] _ h.standsAt rfl (List.append_nil _).symm

/-- What is noted of tokens that are added as they are: where the last one ends. -/
theorem addAll_notes {xs ts : Ahead} {notes : Notes}
    (h : Ahead.StandsAt notes.consumed (xs ++ ts)) :
    addAll xs notes
        = ⟨notes.consumed + Green.byteLenOf (xs.map fun x => .token x.token), notes.overrides⟩ ∧
      ts.StandsAt (addAll xs notes).consumed := by
  induction xs generalizing notes with
  | nil => exact ⟨rfl, h⟩
  | cons x xs ih =>
    obtain ⟨hstart, hrest⟩ := h
    have hconsumed := consumed_token hstart
    have hnext : addAll (x :: xs) notes
        = addAll xs ⟨notes.consumed + x.token.byteLen, notes.overrides⟩ := by
      rw [← hconsumed]
      rfl
    have hlength : Green.byteLenOf ((x :: xs).map fun x => .token x.token)
        = x.token.byteLen + Green.byteLenOf (xs.map fun x => .token x.token) := by
      rw [List.map_cons, Green.byteLenOf]
      exact congrArg (· + _) (Token.byteLen_outline _)
    obtain ⟨hnotes, hts⟩ := @ih ⟨notes.consumed + x.token.byteLen, notes.overrides⟩ hrest
    rw [hnext, hlength, ← Nat.add_assoc]
    exact ⟨hnotes, hts⟩

/-- Inside a node that opens nothing is there yet. -/
theorem enter (h : s.Hands pos before) : s.enter.2.Hands s.built.2.consumed s.built.2.overrides :=
  ⟨h.standsAt, rfl, (List.append_nil _).symm⟩

/-- Inside of a node that opens around the newest tree nothing is put together yet: trees and notes
start where those so far end. -/
theorem precede (h : s.Hands pos before) :
    s.precede.2.Hands s.built.2.consumed s.built.2.overrides := by
  have hprecede : s.precede.2 = ⟨s.ahead, ((Forest.precede s.built.1).2, s.built.2)⟩ := rfl
  rcases Forest.precede_eq s.built.1 with ⟨k, cs, rest, -, hinside⟩ | hinside
  · rw [hprecede, hinside]
    exact h.enter
  · rw [hprecede, hinside]
    exact h.enter

/-- A node that closes hands on what it hands on itself, and then what its parts hand on. -/
theorem closeNew {kind : Kind} (h : s.Hands pos before)
    (hu : u.Hands s.built.2.consumed
      (s.built.2.overrides ++ Green.handedBy s.built.2.consumed kind u.built.1.reverse)) :
    (u.leave s.enter.1 (some kind)).Hands pos before := by
  refine h.add [.node kind u.built.1.reverse] u.built.2 hu.standsAt ?_ ?_
  · rw [hu.consumed]
    show _ = _ + (Green.byteLenOf u.built.1.reverse + 0)
    rw [Green.byteLenOf_reverse, Nat.add_zero]
  · rw [hu.overrides, Green.handedAll, Green.handed, Green.handedAll, List.append_nil,
      List.append_assoc]

/-- A node other than a loop hands on what its parts do. -/
theorem closeOther {kind : Kind} (hkind : kind ≠ .forStmt) (h : s.Hands pos before)
    (hu : u.Hands s.built.2.consumed s.built.2.overrides) :
    (u.leave s.enter.1 (some kind)).Hands pos before := by
  refine h.closeNew ?_
  rwa [Green.handedBy_of_ne hkind, List.append_nil]

/-- The parts of a node that is given up stay where they are. -/
theorem release (h : s.Hands pos before) (hu : u.Hands s.built.2.consumed s.built.2.overrides) :
    (u.leave s.enter.1 none).Hands pos before := by
  have hadd := h.add u.built.1.reverse u.built.2 hu.standsAt
    (by rw [hu.consumed, Green.byteLenOf_reverse]) hu.overrides
  rw [List.reverse_reverse] at hadd
  have hleave : u.leave s.enter.1 none = ⟨u.ahead, (u.built.1 ++ [] ++ s.built.1, u.built.2)⟩ := rfl
  rwa [hleave, List.append_nil]

/-- A node around the tree that was added last has that as its first part. -/
theorem closeAround {kind : Kind} (hkind : kind ≠ .forStmt) (h : s.Hands pos before)
    (hu : u.Hands s.built.2.consumed s.built.2.overrides) :
    (u.leave s.precede.1 (some kind)).Hands pos before := by
  have hprecede : s.precede.1 = ((Forest.precede s.built.1).1, ()) := rfl
  rcases Forest.precede_eq s.built.1 with ⟨k, cs, rest, hbuilt, hmark⟩ | hmark
  · have hlength : s.built.2.consumed = pos + (Green.byteLenOf cs + Green.byteLenOf rest) := by
      rw [h.consumed, hbuilt]
      rfl
    have hleave : u.leave s.precede.1 (some kind)
        = ⟨u.ahead, (.node kind (.node k cs :: u.built.1.reverse) :: rest, u.built.2)⟩ := by
      show State.leave (s.precede.1 : (List Green × Forest) × Unit) _ _ = _
      rw [hprecede, hmark]
      rfl
    rw [hleave]
    refine ⟨hu.standsAt, ?_, ?_⟩
    · rw [hu.consumed, hlength]
      show _ = pos + (Green.byteLenOf cs + Green.byteLenOf u.built.1.reverse + Green.byteLenOf rest)
      rw [Green.byteLenOf_reverse]
      omega
    · have hstart : pos + Green.byteLenOf rest.reverse + Green.byteLenOf cs =
        s.built.2.consumed := by
        rw [hlength, Green.byteLenOf_reverse]
        omega
      show u.built.2.overrides = before ++ Green.handedAll pos (.node kind _ :: rest).reverse
      rw [hu.overrides, h.overrides, hbuilt, List.reverse_cons, List.reverse_cons,
        Green.handedAll_concat, Green.handedAll_concat, Green.handed_of_ne hkind, Green.handedAll,
        Green.byteLen, hstart, List.append_assoc, List.append_assoc]
  · have hleave : u.leave s.precede.1 (some kind) = u.leave s.enter.1 (some kind) := by
      show State.leave (s.precede.1 : (List Green × Forest) × Unit) _ _ = _
      rw [hprecede, hmark]
      rfl
    rw [hleave]
    exact h.closeOther hkind hu

/-- Unexpected text is a node of the tokens that are taken. -/
theorem unexpected_eq (more : Nat) (x : Lexeme) (ts : Ahead) (built : Noted) :
    State.unexpected more ⟨x :: ts, built⟩ = ⟨ts.drop more,
      (.node .unexpected ((x :: ts.take more).map fun x => .token x.token) :: built.1,
        addAll (x :: ts.take more) built.2)⟩ := by
  have hadded : addAll (x :: ts.take more) (Assembly.enter built).2
      = (addAll (x :: ts.take more) ([] : Forest), addAll (x :: ts.take more) built.2) :=
    Prod.ext (fst_addAll _ _) (snd_addAll _ _)
  have hleave (trees : Forest) (notes : Notes) :
      Assembly.leave (Assembly.enter built).1 (some .unexpected) (trees, notes)
        = (.node .unexpected trees.reverse :: built.1, notes) := rfl
  rw [State.unexpected_cons, hadded, hleave, Forest.addAll_eq, List.append_nil,
    List.reverse_reverse]

/-- Skipped text makes a node that hands on nothing. -/
theorem unexpected (more : Nat) (h : s.Hands pos before) :
    (s.unexpected more).Hands pos before := by
  obtain ⟨ahead, built⟩ := s
  cases ahead with
  | nil => exact h
  | cons x ts =>
    have hahead : x :: ts = (x :: ts.take more) ++ ts.drop more := by
      rw [List.cons_append, List.take_append_drop]
    have hstands := h.standsAt
    rw [hahead] at hstands
    obtain ⟨hnotes, hts⟩ := addAll_notes hstands
    rw [unexpected_eq]
    refine h.add [.node .unexpected _] _ hts ?_ ?_
    · rw [hnotes]
      rfl
    · rw [hnotes, Green.handedAll, Green.handed_of_ne (nofun : Kind.unexpected ≠ .forStmt),
        Green.handedAll_tokens]
      exact (List.append_nil _).symm

end State.Hands

/-! ## Rules that make no loops -/

/-- Whether what an environment reaches keeps trees and notes together. -/
def Env.KeepsHands (env : Env Noted) : Prop :=
  ∀ (goal : Goal) ⦃s : State Noted⦄ ⦃a : Bool⦄ ⦃t : State Noted⦄ ⦃pos : Nat⦄
    ⦃before : List Override⦄, env.call goal s = some (a, t) → s.Hands pos before →
    t.Hands pos before

namespace Parser

variable {env : Env Noted} {α β : Type}

/-- Whether a rule, if it makes no loops and notes nothing itself, keeps trees and notes
together. -/
def KeepsHands (env : Env Noted) (rule : Parser α) : Prop :=
  ∀ ⦃s : State Noted⦄ ⦃a : α⦄ ⦃t : State Noted⦄ ⦃given : α → Prop⦄ ⦃pos : Nat⦄
    ⦃before : List Override⦄, rule.Without .forStmt given → rule.run env s = some (a, t) →
      s.Hands pos before → given a ∧ t.Hands pos before

namespace KeepsHands

/-- Rules one after the other keep trees and notes together, since each of them does. -/
theorem bind {first : Parser α} {next : α → Parser β} (hfirst : first.KeepsHands env)
    (hnext : ∀ a, (next a).KeepsHands env) : (Parser.bind first next).KeepsHands env := by
  intro s b t given pos before h hr hs
  obtain ⟨a, u, hu, hrest⟩ := exists_run_of_bind hr
  obtain ⟨hwithout, hands⟩ := hfirst h hu hs
  exact hnext a hwithout hrest hands

/-- The node that closes is no loop. A mark that is given up leaves its parts to the node around
it. -/
theorem mark {body : Parser (Option Construct × α)} (hbody : body.KeepsHands env) :
    (Parser.mark body).KeepsHands env := by
  intro s b t given pos before h hr hs
  rw [run_mark] at hr
  split at hr
  · cases hr
  · rename_i kind a u hu
    cases hr
    obtain ⟨⟨hkind, hgiven⟩, hands⟩ := hbody h hu hs.enter
    refine ⟨hgiven, ?_⟩
    cases kind with
    | some kind => exact hs.closeOther (hkind kind rfl) hands
    | none => exact hs.release hands

/-- A node around the newest tree is no loop, so it hands on what its parts do. -/
theorem enclose {kind : Construct} {body : Parser α} (hbody : body.KeepsHands env) :
    (Parser.enclose kind body).KeepsHands env := by
  intro s b t given pos before h hr hs
  rw [run_enclose] at hr
  split at hr
  · cases hr
  · rename_i a u hu
    cases hr
    obtain ⟨hgiven, hands⟩ := hbody h.2 hu hs.precede
    exact ⟨hgiven, hs.closeAround h.1 hands⟩

/-- A loop keeps trees and notes together, since every round does. -/
theorem repeatUntil {body : Parser (Option α)} (hbody : body.KeepsHands env) :
    (Parser.repeatUntil body).KeepsHands env := by
  intro s b t given pos before h hr hs
  change iterate _ env.rounds s = _ at hr
  -- by induction on the rounds, each of which keeps trees and notes together
  generalize env.rounds = n at hr
  induction n generalizing s with
  | zero => cases hr
  | succ n ih =>
    rw [iterate] at hr
    split at hr
    · cases hr
    · rename_i a u hu
      cases hr
      obtain ⟨hgiven, hands⟩ := hbody h hu hs
      exact ⟨hgiven b rfl, hands⟩
    · rename_i u hu
      exact ih (hbody h hu hs).2 hr

end KeepsHands

/-- **Rules that make no loops keep trees and notes together**, by induction on how a rule is put
together. Calls keep them together by assumption, since a loop may be inside of them. -/
theorem keepsHands (hcalls : env.KeepsHands) (rule : Parser α) : rule.KeepsHands env := by
  induction rule with
  | bind first next ih_first ih_next => exact .bind ih_first ih_next
  | mark body ih => exact .mark ih
  | enclose kind body ih => exact .enclose ih
  | repeatUntil body ih => exact .repeatUntil ih
  | pure a =>
    intro s b t given pos before h hr hs
    cases hr
    exact ⟨h, hs⟩
  | look f =>
    intro s b t given pos before h hr hs
    cases hr
    exact ⟨h _, hs⟩
  | take kind =>
    intro s b t given pos before h hr hs
    cases hr
    exact ⟨h, hs.take kind⟩
  | splitHead head rest =>
    intro s b t given pos before h hr hs
    cases hr
    exact ⟨h, hs.splitHead head rest⟩
  | missing kind spelling =>
    intro s b t given pos before h hr hs
    cases hr
    exact ⟨h, hs.missing kind.1 spelling⟩
  | placeholder kind =>
    intro s b t given pos before h hr hs
    cases hr
    exact ⟨h.2, hs.closeOther h.1 hs.enter⟩
  | unexpected more =>
    intro s b t given pos before h hr hs
    cases hr
    exact ⟨h.2, hs.unexpected more⟩
  | override start diagnostic =>
    intro s b t given pos before h
    exact h.elim
  | call goal =>
    intro s b t given pos before h hr hs
    exact ⟨h _, hcalls goal hr hs⟩

end Parser

/-! ## Loops -/

section Loops

open Grammar.Parser

variable {env : Env Noted} {pos : Nat} {before : List Override}

/-- If clauses are found ahead, they are skipped, and it is noted what is reported in their
place. -/
theorem exists_run_removedCStyleFor (env : Env Noted) (word : Span) {us : Ahead}
    (h : us.isCStyleLoop) (built : Noted) :
    ∃ y ys n, us = y :: ys ∧
      let v := State.unexpected n ⟨y :: ys, built⟩
      (removedCStyleFor word).run env ⟨y :: ys, built⟩ = some ((), ⟨v.ahead, (v.built.1,
        ⟨v.built.2.consumed, v.built.2.overrides ++
          [⟨y.start, { Diagnostic.error .removedCStyleFor word with
            highlight := some ⟨y.start, v.built.2.consumed⟩ }⟩]⟩)⟩) := by
  obtain ⟨hne, hlength⟩ := Ahead.skipLength_ne_zero_of_isCStyleLoop h
  obtain ⟨y, ys, rfl⟩ := List.exists_cons_of_ne_nil hne
  obtain ⟨n, hn⟩ := Nat.exists_eq_succ_of_ne_zero hlength
  have hskipped : (skippedUntil (.single .leftBrace)).run env ⟨y :: ys, built⟩
      = some (true, State.unexpected n ⟨y :: ys, built⟩) := by
    rw [skippedUntil, run_look_bind]
    dsimp only
    rw [hn]
    rfl
  refine ⟨y, ys, n, rfl, ?_⟩
  rw [removedCStyleFor, run_look_bind, run_bind_of_run hskipped]
  rfl

/-- What is noted of a C-style loop is what it hands on once it is put together. -/
theorem handedBy_loop {x y : Lexeme} {xs : Ahead} {gs : List Green} {base : Nat}
    (hx : x.start = base + x.token.leading.byteLen)
    (hy : y.start = base + x.token.byteLen + y.token.leading.byteLen) :
    Green.handedBy base .forStmt
        (.token x.token :: .node .unexpected ((y :: xs).map fun x => .token x.token) :: gs)
      = [⟨y.start, { Diagnostic.error .removedCStyleFor (.ofLen x.start (Text.byteLen x.text)) with
          highlight := some ⟨y.start,
            base + x.token.byteLen + Green.byteLenOf ((y :: xs).map fun x => .token x.token)⟩ }⟩] :=
            by
  have hword : base + (x.token.byteLen - x.token.trailing.byteLen)
      = x.start + Text.byteLen x.token.text := by
    rw [hx, Token.byteLen]
    omega
  simp only [Green.handedBy, Green.token, List.map_cons, Token.byteLen_outline,
    Token.byteLen_leading_outline, Token.byteLen_trailing_outline, hword, ← hx, ← hy]
  rfl

variable {n : Nat} {s u : State Noted}

/-- Notes make no difference to the trees: what is known of the trees that a rule adds holds beside
notes. -/
theorem exists_added {α : Type} {rule : Parser α} {given : α → Ahead → List Green → Prop} {a : α}
    (hadds : rule.Adds (fun _ => True) given) (hr : rule.run (.ofLimit n) s = some (a, u)) :
    ∃ gs, u.built.1 = gs.reverse ++ s.built.1 ∧ given a u.ahead gs := by
  have hagree := (Simulation.ofFst Forest Notes).run (Simulation.ofLimit n) rule (c := ()) (s := s)
    (t := ⟨s.ahead, s.built.1⟩) ⟨rfl, rfl⟩
  rw [hr] at hagree
  obtain ⟨⟨ahead, built⟩, hforest, hahead, hbuilt⟩ := Simulation.agree_some hagree
  obtain ⟨⟨gs, hgs, -, hgiven⟩, -⟩ :=
    sound_of_yields (Env.honest_ofLimit n) hforest (hadds s.ahead s.built.1 trivial)
  refine ⟨gs, hbuilt.trans hgs, ?_⟩
  rwa [← show u.ahead = ahead from hahead] at hgiven

/-- Behind the word of a loop, before clauses: what is noted is what the loop will hand on. -/
theorem clauses_hands {x : Lexeme} (hcalls : (Env.ofLimit n : Env Noted).KeepsHands)
    (hs : s.Hands pos before) (hbuilt : s.built.1 = [.token x.token])
    (hx : x.start = pos + x.token.leading.byteLen) (hclauses : s.ahead.isCStyleLoop)
    (hr : (do removedCStyleFor (.ofLen x.start (Text.byteLen x.text)); codeBlock : Parser Unit).run
      (.ofLimit n) s = some ((), u)) :
    u.Hands pos (before ++ Green.handedBy pos .forStmt u.built.1.reverse) := by
  obtain ⟨ahead, trees, notes⟩ := s
  obtain rfl : trees = [.token x.token] := hbuilt
  obtain ⟨y, ys, m, rfl, hnoted⟩ := exists_run_removedCStyleFor (.ofLimit n)
    (.ofLen x.start (Text.byteLen x.text)) hclauses ([.token x.token], notes)
  rw [run_bind_of_run hnoted] at hr
  have hskipped := hs.unexpected m
  rw [State.Hands.unexpected_eq] at hskipped hr
  obtain ⟨gs, hgs, -⟩ := exists_added codeBlock_makes hr
  refine (keepsHands hcalls codeBlock codeBlock_loopFree hr
    ⟨hskipped.standsAt, hskipped.consumed, ?_⟩).2
  -- word and clauses hand nothing on, so all that was noted so far is what the loop hands on
  have hconsumed : notes.consumed = pos + x.token.byteLen := by
    rw [← Token.byteLen_outline]
    exact hs.consumed
  have hy : y.start = pos + x.token.byteLen + y.token.leading.byteLen := by
    rw [← hconsumed]
    exact hs.standsAt.1
  have hstop : (addAll (y :: ys.take m) notes).consumed = pos + x.token.byteLen
      + Green.byteLenOf ((y :: ys.take m).map fun x => .token x.token) := by
    refine hskipped.consumed.trans ?_
    show pos + (Green.byteLenOf _ + (x.token.outline.byteLen + 0)) = _
    rw [Token.byteLen_outline]
    omega
  have hnothing : Green.handedAll pos [.token x.token,
      .node .unexpected ((y :: ys.take m).map fun x => .token x.token)] = [] := by
    rw [Green.handedAll, Green.handedAll, Green.handed_of_ne (nofun : Kind.unexpected ≠ .forStmt),
      Green.handedAll_tokens]
    rfl
  have hbefore : (addAll (y :: ys.take m) notes).overrides = before := by
    have hoverrides := hskipped.overrides
    exact hoverrides.trans ((congrArg (before ++ ·) hnothing).trans (List.append_nil _))
  have hloop : u.built.1.reverse = .token x.token
      :: .node .unexpected ((y :: ys.take m).map fun x => .token x.token) :: gs := by
    rw [hgs, List.reverse_append, List.reverse_reverse]
    rfl
  show (addAll (y :: ys.take m) notes).overrides ++ _ = _ ++ Green.handedAll pos [_, _]
  rw [hnothing, List.append_nil, hbefore, hloop, handedBy_loop hx hy, ← hstop]

/-- Behind the word of a loop, before anything else: nothing is noted, and the loop hands nothing
on. -/
theorem header_hands {g : Green} (hcalls : (Env.ofLimit n : Env Noted).KeepsHands)
    (hs : s.Hands pos before) (hbuilt : s.built.1 = [g])
    (hr : (do forHeader; bodyBlock : Parser Unit).run (.ofLimit n) s = some ((), u)) :
    u.Hands pos (before ++ Green.handedBy pos .forStmt u.built.1.reverse) := by
  obtain ⟨gs, hgs, hstart⟩ := exists_added header_adds hr
  have hloop : u.built.1.reverse = g :: gs := by
    rw [hgs, hbuilt, List.reverse_append, List.reverse_reverse]
    rfl
  rw [hloop, Green.handedBy_of_not_startUnexpected hstart, List.append_nil]
  have hwithout : (do forHeader; bodyBlock : Parser Unit).LoopFree :=
    .bind forHeader_loopFree fun _ => bodyBlock_loopFree
  exact (keepsHands hcalls _ hwithout hr hs).2

/-- A loop keeps trees and notes together: what is noted inside of it, before its block, is what it
hands on itself. The note is made of positions of tokens, and these are where the parts of the node
will be. -/
theorem forStatement_hands (hcalls : (Env.ofLimit n : Env Noted).KeepsHands)
    (hat : s.ahead.kind = .forKw) (hr : forStatement.run (.ofLimit n) s = some ((), u))
    (hs : s.Hands pos before) : u.Hands pos before := by
  obtain ⟨v, hv, rfl⟩ := exists_run_of_node hr
  obtain ⟨ahead, built⟩ := s
  cases ahead with
  | nil => cases hat
  | cons x us =>
    rw [run_look_bind] at hv
    have hword : advance.run (.ofLimit n) (State.enter ⟨x :: us, built⟩).2
        = some ((), (State.enter ⟨x :: us, built⟩).2.take none) := rfl
    rw [run_bind_of_run hword, run_look_bind] at hv
    have hx : x.start = built.2.consumed + x.token.leading.byteLen := hs.standsAt.1
    have hinside := hs.enter.take none
    refine hs.closeNew ?_
    split at hv
    · rename_i hclauses
      exact clauses_hands hcalls hinside rfl hx hclauses hv
    · exact header_hands hcalls hinside rfl hv

/-- A statement keeps trees and notes together: a C-style loop notes what can be read off its tree,
and other statements make no loop. -/
theorem statementRule_hands (hcalls : (Env.ofLimit n : Env Noted).KeepsHands)
    (hr : statementRule.run (.ofLimit n) s = some ((), u)) (hs : s.Hands pos before) :
    u.Hands pos before := by
  obtain ⟨next, hrule, hfor, hothers⟩ := exists_statement
  rw [hrule, run_look_bind] at hr
  by_cases hat : s.ahead.kind = .forKw
  · rw [hat, hfor] at hr
    exact forStatement_hands hcalls hat hr hs
  · exact (keepsHands hcalls _ (hothers _ hat) hr hs).2

end Loops

/-- Goals keep trees and notes together, by induction on the calls that they may make. -/
theorem Env.keepsHands_ofLimit (n : Nat) : (Env.ofLimit n : Env Noted).KeepsHands := by
  induction n with
  | zero =>
    intro goal s a t pos before h
    cases h
  | succ n ih =>
    intro goal s a t pos before h hs
    change goal.rule.run (.ofLimit n) s = _ at h
    by_cases hgoal : goal = .statement
    · subst hgoal
      obtain ⟨_, u, hu, hpure⟩ := Parser.exists_run_of_bind h
      cases hpure
      exact statementRule_hands ih hu hs
    · exact (Parser.keepsHands ih goal.rule (Goal.rule_loopFree hgoal) h hs).2

end Grammar

/-! ## What is noted of a text -/

namespace Entry

/-- What is noted while a text is read is what the parts of its tree hand on. -/
theorem overrides_eq_handedAll (e : Entry) (text : Text) :
    e.overrides text = Green.handedAll 0 (e.parts text) := by
  have hparts : e.outcome (callLimit (Text.byteLen text)) text ([] : Forest)
      = some ⟨[], (e.parts text).reverse⟩ := by
    rw [outcome, e.run_rule text, Option.map_some]
  obtain ⟨⟨_, t⟩, hrun, hend⟩ := Option.map_eq_some_iff.mp (e.outcome_notes hparts)
  have hstart : State.Hands 0 [] ⟨.ofText text, (([] : Forest), ({} : Notes))⟩ :=
    ⟨Ahead.standsAt_ofTokens _ 0 none _ _, rfl, rfl⟩
  have hands := (Parser.keepsHands (Env.keepsHands_ofLimit _) e.rule e.rule_loopFree hrun hstart).2
  obtain rfl : t = _ := hend
  rw [e.overrides_eq_notes]
  exact hands.overrides.trans (congrArg (Green.handedAll 0) (List.reverse_reverse _))

/-- **What is noted can be read off the tree.** The diagnostics that are noted while a text is read,
with the positions under which they are noted, are what stands in for the clauses of the C-style
loops of its tree, in source order. -/
theorem overrides_eq (e : Entry) (text : Text) : e.overrides text
    = ((Node.ofGreen (e.tree text)).descendants.filterMap Node.clauses?).map Node.standIn := by
  have hproper : (Node.ofGreen (e.tree text)).green.Proper :=
    proper_of_mem_descendants List.mem_cons_self
  have hall := Node.handedAll_eq (Node.ofGreen (e.tree text)) 0 0 hproper.2 (e.regular_tree text)
  have hroot : (Node.ofGreen (e.tree text)).clauses? = none := by
    rw [Option.eq_none_iff_forall_ne_some]
    intro c hc
    have hkind := (Node.clauses?_eq_some hc).1
    rw [e.kind_root] at hkind
    cases e <;> cases hkind
  have hlast : Green.handedAll 0 (Node.ofGreen (e.tree text)).children
      = Green.handedAll 0 (e.parts text) := by
    rw [e.tree_eq]
    show Green.handedAll 0 (e.parts text ++ [.token (endOfFile text)]) = _
    rw [Green.handedAll_concat]
    exact List.append_nil _
  rw [overrides_eq_handedAll, ← hlast, hall, Node.descendants, List.filterMap_cons_none hroot,
    Node.offset_ofGreen]

end Entry

end SwiftTree
