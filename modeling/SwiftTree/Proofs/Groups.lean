import Mathlib.Data.Bool.Basic
import SwiftTree.Grammar.Recovery

/-!
# Groups that are stepped over

Two looks ahead step over bracketed groups: the one for the place where a skip ends
(`Ahead.outside`), and the one for the closing token of a list (`Ahead.closer`). Both count the
groups that are open (`Ahead.depthBehind`).

A skip can also be told group by group, where a group ends at the bracket that brings its own count
back to zero (`Ahead.pastGroups?`). Nothing but a bracket that opens a group starts a count, so no
count ever falls below zero, and the skip ends at the same place (`Ahead.pastGroups?_eq`).
-/

namespace SwiftTree.Grammar

namespace Ahead

/-! ## Counting groups -/

/-- How many groups are open behind tokens. -/
def depthBehind (depth : Nat) (ts : Ahead) : Nat :=
  ts.foldl (fun depth x => depthAfter depth x.kind) depth

variable {test : Ahead → Bool} {depth : Nat} {x : Lexeme} {ts skipped rest : Ahead}

/-- A skip ends at the first place outside of all groups where its test holds. -/
theorem stop_outside_here (h : test (x :: ts)) : (outside test).stop 0 (x :: ts) = x :: ts := by
  rw [Scan.stop, Scan.run]
  simp only [outside, h, beq_self_eq_true, Bool.and_self, if_true]

/-- Inside of a group, or where its test fails, a skip goes on. -/
theorem stop_outside_cons (h : depth = 0 → test (x :: ts) = false) :
    (outside test).stop depth (x :: ts) = (outside test).stop (depthAfter depth x.kind) ts := by
  have hgo : (depth == 0 && test (x :: ts)) = false := by
    by_cases hdepth : depth = 0
    · rw [h hdepth, Bool.and_false]
    · rw [beq_false_of_ne hdepth, Bool.false_and]
  rw [Scan.stop, Scan.stop, Scan.run]
  simp only [outside, hgo, Bool.false_eq_true, if_false]

/-- A skip passes tokens if its test fails wherever it is outside of all groups among them. -/
theorem stop_outside_append (h : ∀ before y behind, skipped = before ++ y :: behind →
    depthBehind depth before = 0 → test (y :: behind ++ rest) = false) :
    (outside test).stop depth (skipped ++ rest)
      = (outside test).stop (depthBehind depth skipped) rest := by
  induction skipped generalizing depth with
  | nil => rfl
  | cons x skipped ih =>
    have hgo : (outside test).stop depth (x :: (skipped ++ rest))
        = (outside test).stop (depthAfter depth x.kind) (skipped ++ rest) :=
      stop_outside_cons fun hdepth => h [] x skipped rfl hdepth
    rw [List.cons_append, hgo]
    exact ih fun before y behind hskipped => h (x :: before) y behind (congrArg (x :: ·) hskipped)

/-- Skipping ends where it should, or with the text. -/
theorem stop_outside (stop : Ahead → Bool) (depth : Nat) (ts : Ahead) :
    (outside stop).stop depth ts = [] ∨ stop ((outside stop).stop depth ts) := by
  induction ts generalizing depth with
  | nil => exact .inl rfl
  | cons x ts ih =>
    rw [Scan.stop, Scan.run]
    simp only [outside]
    cases hstop : depth == 0 && stop (x :: ts) with
    | true => exact .inr (Bool.and_elim_right hstop)
    | false => exact ih _

theorem drop_skipLength (stop : Ahead → Bool) (depth : Nat) (ts : Ahead) :
    ts.drop (skipLength stop depth ts) = (outside stop).stop depth ts := by
  exact (List.suffix_iff_eq_drop.mp ((outside stop).stop_suffix depth ts)).symm

/-- The number of tokens before the place where a skip ends. -/
theorem skipLength_append (h : (outside test).stop depth (skipped ++ rest) = rest) :
    skipLength test depth (skipped ++ rest) = skipped.length := by
  rw [skipLength, h, List.length_append, Nat.add_sub_cancel_right]

/-! ## Group by group -/

/-- How many groups are open behind a token, if no more are closed than were opened. -/
def depthAfter? (depth : Nat) (k : Kind) : Option Nat :=
  if openers.contains k then some (depth + 1)
  else if closers.contains k then
    match depth with
    | 0 => none
    | depth + 1 => some depth
  else some depth

/-- What follows a group in which `depth` brackets are open. A group goes on up to the bracket that
closes the last one, or up to the end of the file. -/
def pastGroup? (depth : Nat) : Ahead → Option Ahead
  | [] => some []
  | x :: ts =>
    match depthAfter? depth x.kind with
    | none => none
    | some 0 => some ts
    | some (depth + 1) => pastGroup? (depth + 1) ts

/-- What follows the next token, or the whole group if it opens one. -/
def pastBalanced? (ts : Ahead) : Option Ahead :=
  if ts.isIn openers then ts.pastGroup? 0 else some ts.tail

/-- Inside of a group, every bracket can be counted. -/
theorem depthAfter?_succ (depth : Nat) (k : Kind) :
    depthAfter? (depth + 1) k = some (depthAfter (depth + 1) k) := by
  unfold depthAfter? depthAfter
  split
  · rfl
  · split
    · rfl
    · rfl

/-- Inside of a group the count does not fall below zero. What follows the group is where a skip is
outside of all groups again. -/
theorem exists_pastGroup (test : Ahead → Bool) (depth : Nat) (ts : Ahead) :
    ∃ us, pastGroup? (depth + 1) ts = some us ∧ us <:+ ts ∧
      (outside test).stop (depth + 1) ts = (outside test).stop 0 us := by
  induction ts generalizing depth with
  | nil => exact ⟨[], rfl, List.suffix_refl [], rfl⟩
  | cons x ts ih =>
    -- with a group open, the count of the group is the count of the skip
    rw [pastGroup?, depthAfter?_succ, stop_outside_cons fun h => absurd h (Nat.succ_ne_zero depth)]
    cases depthAfter (depth + 1) x.kind with
    | zero => exact ⟨ts, rfl, List.suffix_cons x ts, rfl⟩
    | succ d =>
      obtain ⟨us, hus, hsuffix, hstop⟩ := ih d
      exact ⟨us, hus, hsuffix.trans (List.suffix_cons x ts), hstop⟩

/-- What follows a token or group is where a skip is outside of all groups again. -/
theorem exists_pastBalanced (h : test (x :: ts) = false) :
    ∃ us, pastBalanced? (x :: ts) = some us ∧ us <:+ ts ∧
      (outside test).stop 0 (x :: ts) = (outside test).stop 0 us := by
  rw [stop_outside_cons fun _ => h, pastBalanced?, isIn, kind]
  by_cases hopens : openers.contains x.kind
  · have hafter : depthAfter? 0 x.kind = some 1 := if_pos hopens
    rw [if_pos hopens, pastGroup?, hafter, depthAfter, if_pos hopens]
    exact exists_pastGroup test 0 ts
  · have hafter : depthAfter 0 x.kind = 0 := by
      rw [depthAfter, if_neg hopens]
      split <;> rfl
    rw [if_neg hopens, hafter]
    exact ⟨ts, rfl, List.suffix_refl ts, rfl⟩

/-- Behind a balanced group there are fewer tokens. -/
theorem length_lt_of_pastBalanced {us : Ahead} (hne : ts ≠ []) (h : pastBalanced? ts = some us) :
    us.length < ts.length := by
  obtain ⟨x, ts, rfl⟩ := List.exists_cons_of_ne_nil hne
  obtain ⟨vs, hvs, hsuffix, -⟩ := @exists_pastBalanced (fun _ => false) x ts rfl
  obtain rfl := Option.some.inj (h.symm.trans hvs)
  exact Nat.lt_succ_of_le hsuffix.length_le

/-- What is left when tokens and groups are skipped, one after the other, up to a token of a set. -/
def pastGroups? (stop : KindSet) (ts : Ahead) : Option Ahead :=
  if hstop : ts.isIn stop ∨ ts = [] then some ts
  else
    match h : pastBalanced? ts with
    | none => none
    | some us =>
      have := length_lt_of_pastBalanced (fun hnil => hstop (.inr hnil)) h
      pastGroups? stop us
termination_by ts.length

/-- **Group by group, a skip ends at the same place** as one that counts what is open. The one is
how skipping is told, the other how the rules do it. -/
theorem pastGroups?_eq (stop : KindSet) (ts : Ahead) :
    pastGroups? stop ts = some ((outside (isIn stop)).stop 0 ts) := by
  fun_induction pastGroups? stop ts with
  | case1 ts hstop =>
    rcases ts with _ | ⟨x, ts⟩
    · rfl
    · rw [stop_outside_here (hstop.resolve_right (List.cons_ne_nil x ts))]
  | case2 ts hstop hnone =>
    obtain ⟨x, us, rfl⟩ := List.exists_cons_of_ne_nil fun hnil => hstop (.inr hnil)
    obtain ⟨vs, hvs, -⟩ := exists_pastBalanced (Bool.eq_false_iff.mpr fun h => hstop (.inl h))
    exact absurd (hnone.symm.trans hvs) (Option.some_ne_none vs).symm
  | case3 ts hstop vs hsome hlength ih =>
    obtain ⟨x, us, rfl⟩ := List.exists_cons_of_ne_nil fun hnil => hstop (.inr hnil)
    obtain ⟨ws, hws, -, hend⟩ := exists_pastBalanced (Bool.eq_false_iff.mpr fun h => hstop (.inl h))
    obtain rfl := Option.some.inj (hsome.symm.trans hws)
    rw [ih, hend]

/-! ## The closing token that is seen -/

variable {closing : Kind} {barriers : KindSet}

/-- The closing token that is seen stands behind complete groups, and before it nothing outside of
groups is a closing token of this kind or a barrier. -/
theorem exists_closer (h : (closer closing barriers).answer depth ts) :
    ∃ skipped x rest, ts = skipped ++ x :: rest ∧ x.kind = closing ∧
      (closer closing barriers).stop depth ts = x :: rest ∧ depthBehind depth skipped = 0 ∧
      ∀ before y behind, skipped = before ++ y :: behind → depthBehind depth before = 0 →
        y.kind ≠ closing ∧ barriers.contains y.kind = false := by
  induction ts generalizing depth with
  | nil => cases h
  | cons x ts ih =>
    rw [Scan.answer, Scan.run] at h
    rw [Scan.stop, Scan.run]
    dsimp only [closer] at h ⊢
    -- the look ahead ends here, gives up at a barrier, or goes on
    by_cases hhere : (depth == 0 && x.kind == closing) = true
    · rw [if_pos hhere]
      rw [Bool.and_eq_true, beq_iff_eq, beq_iff_eq] at hhere
      refine ⟨[], x, ts, rfl, hhere.2, rfl, hhere.1, fun before y behind hnil => ?_⟩
      exact absurd hnil.symm (List.append_ne_nil_of_right_ne_nil _ (List.cons_ne_nil y behind))
    rw [if_neg hhere] at h ⊢
    by_cases hbarrier : (depth == 0 && barriers.contains x.kind) = true
    · rw [if_pos hbarrier] at h
      cases h
    rw [if_neg hbarrier] at h ⊢
    obtain ⟨skipped, y, rest, rfl, hkind, hstop, hdepth, hpassed⟩ := ih h
    refine ⟨x :: skipped, y, rest, rfl, hkind, hstop, hdepth, fun before z behind hskipped => ?_⟩
    cases before with
    | nil =>
      obtain ⟨rfl, -⟩ := List.cons.inj hskipped
      rintro rfl
      rw [beq_self_eq_true, Bool.true_and] at hhere hbarrier
      exact ⟨fun hz => hhere (beq_iff_eq.mpr hz), Bool.eq_false_iff.mpr hbarrier⟩
    | cons w before =>
      obtain ⟨rfl, hrest⟩ := List.cons.inj hskipped
      exact hpassed before z behind hrest

/-- At a closing token nothing has to be skipped. -/
theorem closerAhead_of_isAt {closing : SolidKind} (h : ts.isAt closing.1) :
    ts.closerAhead closing.1 barriers := by
  cases ts with
  | nil => exact absurd (beq_iff_eq.mp h).symm (Kind.ne_endOfFile_of_isSolid closing.2)
  | cons x ts =>
    have hkind : (x.kind == closing.1) = true := h
    rw [closerAhead, Scan.answer, Scan.run]
    simp only [closer, hkind, beq_self_eq_true, Bool.and_self, if_true]

end Ahead

end SwiftTree.Grammar
