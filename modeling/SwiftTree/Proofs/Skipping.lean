import SwiftTree.Proofs.Evaluation
import SwiftTree.Proofs.Groups

/-!
# Where skipping ends

The skip to the closing token of a list steps over the same groups as the look ahead for that token.
So it ends at the token that was seen, with one node of all that comes before
(`skipToCloser_reaches`).
-/

namespace SwiftTree.Grammar

/-! ## Taking what is skipped -/

variable {σ : Type} [Assembly σ]

/-- Adds a node of text that no rule wanted. -/
def addUnexpected (xs : Ahead) (built : σ) : σ :=
  Assembly.leave (Assembly.enter built).1 (some .unexpected) (addAll xs (Assembly.enter built).2)

/-- In a tree, a node of unexpected text is made of its tokens. -/
theorem Forest.addUnexpected_eq (xs : Ahead) (built : Forest) :
    addUnexpected xs built = .node .unexpected (xs.map fun x => .token x.token) :: built := by
  show Green.node .unexpected ([] ++ (addAll xs ([] : Forest)).reverse) :: built = _
  rw [Forest.addAll_eq, List.append_nil, List.reverse_reverse, List.nil_append]

section Runs

variable {env : Env σ} {stop : KindSet} {skipped rest : Ahead} {built : σ}

/-- What comes before the place where a skip ends is taken into one node. -/
theorem run_skipUntil_of_ne_nil
    (h : (Ahead.outside (Ahead.isIn stop)).stop 0 (skipped ++ rest) = rest) (hne : skipped ≠ []) :
    (skipUntil stop).run env ⟨skipped ++ rest, built⟩
      = some ((), ⟨rest, addUnexpected skipped built⟩) := by
  obtain ⟨x, more, rfl⟩ := List.exists_cons_of_ne_nil hne
  have hlength : Ahead.skipLength (Ahead.isIn stop) 0 (x :: more ++ rest) = more.length + 1 :=
    Ahead.skipLength_append h
  rw [Parser.run_skipUntil, hlength]
  change some ((), State.unexpected more.length ⟨x :: (more ++ rest), built⟩) = _
  rw [State.unexpected_cons, List.take_left, List.drop_left]
  rfl

/-- Eating a token always has an answer: whether the token is there. -/
theorem exists_run_eat (env : Env σ) (k : Kind) (s : State σ) :
    ∃ t, (eat k).run env s = some (s.ahead.isAt k, t) := by
  change ∃ t, Parser.run env (if s.ahead.isAt k then (do advance; return true) else return false) s
    = some (s.ahead.isAt k, t)
  cases s.ahead.isAt k with
  | true => exact ⟨s.take none, rfl⟩
  | false => exact ⟨s, rfl⟩

/-- A token is expected with success if it is there. -/
theorem exists_run_expect (env : Env σ) (k : Kind) (hk : k.isSolid) (s : State σ) :
    ∃ t, (expect k hk).run env s = some (s.ahead.isAt k, t) := by
  obtain ⟨t, ht⟩ := exists_run_eat env k s
  change ∃ u, (Parser.bind (eat k) _).run env s = some (s.ahead.isAt k, u)
  rw [Parser.run, ht]
  cases s.ahead.isAt k with
  | true => exact ⟨t, rfl⟩
  | false => exact ⟨_, rfl⟩

/-- A skip to a closing token does nothing if it is there or not seen. -/
theorem run_skipToCloser_of_not {closing : Kind} {barriers : KindSet} {s : State σ}
    (h : s.ahead.isAt closing ∨ s.ahead.closerAhead closing barriers = false) :
    (skipToCloser closing barriers).run env s = some ((), s) := by
  have htest : (!s.ahead.isAt closing && s.ahead.closerAhead closing barriers) = false := by
    rcases h with h | h
    · rw [h, Bool.not_true, Bool.false_and]
    · rw [h, Bool.and_false]
  change Parser.run env (if !s.ahead.isAt closing && s.ahead.closerAhead closing barriers
    then skipUntil (.single closing) else pure ()) s = _
  rw [htest]
  rfl

/-- Where the closing token is seen ahead, skipping to it is skipping up to it. -/
theorem run_skipToCloser_of_closerAhead {closing : Kind} {barriers : KindSet} {s : State σ}
    (hat : s.ahead.isAt closing = false) (h : s.ahead.closerAhead closing barriers) :
    (skipToCloser closing barriers).run env s = (skipUntil (.single closing)).run env s := by
  change Parser.run env (if !s.ahead.isAt closing && s.ahead.closerAhead closing barriers
    then skipUntil (.single closing) else pure ()) s = _
  rw [hat, h]
  rfl

end Runs

/-- The tokens before the closing token that is seen are skipped. -/
theorem exists_run_skipToCloser (env : Env σ) {closing : Kind} {barriers : KindSet} {s : State σ}
    (hat : s.ahead.isAt closing = false) (h : s.ahead.closerAhead closing barriers) :
    ∃ skipped x rest, s.ahead = skipped ++ x :: rest ∧ skipped ≠ [] ∧ x.kind = closing ∧
      (Ahead.closer closing barriers).stop 0 s.ahead = x :: rest ∧
      s.ahead.pastGroups? (.single closing) = some (x :: rest) ∧
      (∀ before y behind, skipped = before ++ y :: behind → Ahead.depthBehind 0 before = 0 →
        y.kind ≠ closing ∧ barriers.contains y.kind = false) ∧
      (skipToCloser closing barriers).run env s
        = some ((), ⟨x :: rest, addUnexpected skipped s.built⟩) := by
  obtain ⟨skipped, x, rest, hahead, hkind, hseen, hdepth, hpassed⟩ := Ahead.exists_closer h
  have hne : skipped ≠ [] := by
    rintro rfl
    rw [hahead] at hat
    exact Bool.false_ne_true (hat.symm.trans (beq_iff_eq.mpr hkind))
  have hends : (Ahead.outside (Ahead.isIn (.single closing))).stop 0 (skipped ++ x :: rest)
      = x :: rest := by
    rw [Ahead.stop_outside_append, hdepth, Ahead.stop_outside_here]
    · rw [Ahead.isIn, KindSet.contains_single]
      exact beq_iff_eq.mpr hkind
    · intro before y behind hskipped hbefore
      rw [Ahead.isIn, KindSet.contains_single]
      exact beq_eq_false_iff_ne.mpr (hpassed before y behind hskipped hbefore).1
  refine ⟨skipped, x, rest, hahead, hne, hkind, hseen, ?_, hpassed, ?_⟩
  · rw [Ahead.pastGroups?_eq, hahead, hends]
  · rw [run_skipToCloser_of_closerAhead hat h]
    obtain ⟨ahead, built⟩ := s
    obtain rfl : ahead = skipped ++ x :: rest := hahead
    exact run_skipUntil_of_ne_nil hends hne

/-- **A skip to a closing token reaches the one that was seen.** Whatever the rule is followed for
and whatever it is granted: if the next token is no closing token but one is seen, then the look
ahead stops at a closing token, the tokens before it become one node of unexpected text, and the
rule ends at this token. None of the tokens in between is a closing token of this kind or a barrier
where no group is open. A skip that is told group by group ends at the same token, and no count of
open groups falls below zero on the way. Otherwise nothing is done.

So the closing token is there to be taken afterwards if it was seen before. -/
theorem skipToCloser_reaches (env : Env σ) (closing : SolidKind) (barriers : KindSet)
    (s : State σ) :
    (s.ahead.isAt closing.1 = false → s.ahead.closerAhead closing.1 barriers →
      ∃ skipped x rest, s.ahead = skipped ++ x :: rest ∧ skipped ≠ [] ∧ x.kind = closing.1 ∧
        (Ahead.closer closing.1 barriers).stop 0 s.ahead = x :: rest ∧
        s.ahead.pastGroups? (.single closing.1) = some (x :: rest) ∧
        (∀ before y behind, skipped = before ++ y :: behind → Ahead.depthBehind 0 before = 0 →
          y.kind ≠ closing.1 ∧ barriers.contains y.kind = false) ∧
        (skipToCloser closing.1 barriers).run env s
          = some ((), ⟨x :: rest, addUnexpected skipped s.built⟩) ∧
        ∀ built : Forest, addUnexpected skipped built
          = .node .unexpected (skipped.map fun y => .token y.token) :: built) ∧
    (s.ahead.isAt closing.1 ∨ s.ahead.closerAhead closing.1 barriers = false →
      (skipToCloser closing.1 barriers).run env s = some ((), s)) ∧
    ∃ t, (do skipToCloser closing.1 barriers; expect closing.1 closing.2).run env s
      = some (s.ahead.closerAhead closing.1 barriers, t) := by
  -- whether the token is there does not depend on how the skip came to it
  have hbehind {u : State σ}
      (hskip : (skipToCloser closing.1 barriers).run env s = some ((), u))
      (hthere : u.ahead.isAt closing.1 = s.ahead.closerAhead closing.1 barriers) :
      ∃ t, (do skipToCloser closing.1 barriers; expect closing.1 closing.2).run env s
        = some (s.ahead.closerAhead closing.1 barriers, t) := by
    obtain ⟨t, ht⟩ := exists_run_expect env closing.1 closing.2 u
    refine ⟨t, ?_⟩
    change (Parser.bind (skipToCloser closing.1 barriers) _).run env s = _
    rw [Parser.run, hskip]
    rw [hthere] at ht
    exact ht
  refine ⟨fun hat h => ?_, run_skipToCloser_of_not, ?_⟩
  · obtain ⟨skipped, x, rest, hahead, hne, hkind, hseen, hgroups, hpassed, hrun⟩ :=
      exists_run_skipToCloser env hat h
    exact ⟨skipped, x, rest, hahead, hne, hkind, hseen, hgroups, hpassed, hrun,
      Forest.addUnexpected_eq skipped⟩
  · by_cases hat : s.ahead.isAt closing.1
    · exact hbehind (run_skipToCloser_of_not (.inl hat))
        (hat.trans (Ahead.closerAhead_of_isAt hat).symm)
    · rw [Bool.not_eq_true] at hat
      by_cases h : s.ahead.closerAhead closing.1 barriers
      · obtain ⟨skipped, x, rest, -, -, hkind, -, -, -, hrun⟩ := exists_run_skipToCloser env hat h
        refine hbehind hrun ?_
        rw [h]
        exact beq_iff_eq.mpr hkind
      · rw [Bool.not_eq_true] at h
        exact hbehind (run_skipToCloser_of_not (.inr h)) (hat.trans h.symm)

/-- In `[)]b)` the first parenthesis closes the group that the bracket opened, so the last one is
reached. -/
theorem skipToCloser_reaches_last :
    let s : State Forest := ⟨.ofText ['[', ')', ']', 'b', ')'], []⟩
    s.ahead.isAt .rightParen = false ∧ s.ahead.closerAhead .rightParen .empty ∧
      ∃ skipped x, s.ahead = skipped ++ [x] ∧ x.kind = .rightParen ∧
        (skipToCloser .rightParen .empty).run (.ofLimit 0) s
          = some ((), ⟨[x], [.node .unexpected (skipped.map fun y => .token y.token)]⟩) := by
  intro s
  have hs : s.ahead.isAt .rightParen = false ∧ s.ahead.closerAhead .rightParen .empty ∧
      ((Ahead.closer .rightParen .empty).stop 0 s.ahead).length = 1 :=
    of_decide_eq_true (Ahead.of_stream? (n := 20) (p := fun ts => ts.isAt .rightParen = false ∧
      ts.closerAhead .rightParen .empty ∧
      ((Ahead.closer .rightParen .empty).stop 0 ts).length = 1) (by decide +kernel))
  obtain ⟨hat, h, hlast⟩ := hs
  obtain ⟨skipped, x, rest, hahead, -, hkind, hseen, -, -, hrun, hforest⟩ :=
    (skipToCloser_reaches (.ofLimit 0) ⟨.rightParen, rfl⟩ .empty s).1 hat h
  rw [hseen] at hlast
  obtain rfl : rest = [] := List.length_eq_zero_iff.mp (Nat.succ.inj hlast)
  rw [hforest] at hrun
  exact ⟨hat, h, skipped, x, hahead, hkind, hrun⟩

end SwiftTree.Grammar
