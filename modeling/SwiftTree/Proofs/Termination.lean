import SwiftTree.Parse
import SwiftTree.Proofs.Progress.Statements

/-!
# Parsing comes to an end

The rules of all goals meet their conditions (`Goal.rule_wp`), so all goals are reached with calls
and rounds in proportion to what is still to be read (`Goal.run_of_callLimit`). More of them change
nothing (`Parser.run_mono`). `Parser.Encounters` looks into calls as well: whatever happens inside
of a call, at any depth, comes behind something that was taken or earlier in the order of goals, so
a rule that is called inside of itself has less to read.
-/

namespace SwiftTree

namespace Grammar

variable {σ : Type}

/-! ## More calls change nothing -/

/-- Whether an environment does at least what another one does. -/
structure Env.Extends (env env' : Env σ) : Prop where
  /-- goals that are reached are reached in the same way -/
  call : ∀ {g s r}, env.call g s = some r → env'.call g s = some r
  /-- loops may go round as often -/
  rounds : env.rounds ≤ env'.rounds

/-- More rounds of a step that does at least as much lead to the same end. -/
theorem iterate_mono {α : Type} {step step' : State σ → Option (Option α × State σ)}
    (hstep : ∀ {s r}, step s = some r → step' s = some r) {n n' : Nat} (hn : n ≤ n')
    {s : State σ} {r : α × State σ} (h : iterate step n s = some r) :
    iterate step' n' s = some r := by
  induction n generalizing n' s with
  | zero => cases h
  | succ n ih =>
    obtain ⟨n', rfl⟩ : ∃ k, n' = k + 1 := ⟨n' - 1, by omega⟩
    rw [iterate] at h
    split at h
    · cases h
    · rename_i hs
      rw [iterate, hstep hs]
      exact h
    · rename_i hs
      rw [iterate, hstep hs]
      exact ih (Nat.le_of_succ_le_succ hn) h

section Runs

variable [Assembly σ]

/-- A rule with an outcome keeps it in a larger environment. So it does not matter how many calls
and rounds are granted, as long as they are enough. -/
theorem Parser.run_mono {α : Type} {env env' : Env σ} (henv : env.Extends env') {p : Parser α} :
    ∀ {s : State σ} {r : α × State σ}, p.run env s = some r → p.run env' s = some r := by
  induction p with
  | bind first next ih_first ih_next =>
    intro s r h
    rw [run] at h ⊢
    split at h
    · cases h
    · rename_i hs
      rw [ih_first hs]
      exact ih_next _ h
  | mark body ih =>
    intro s r h
    rw [run_mark] at h ⊢
    split at h
    · cases h
    · rename_i hs
      rw [ih hs]
      exact h
  | enclose kind body ih =>
    intro s r h
    rw [run_enclose] at h ⊢
    split at h
    · cases h
    · rename_i hs
      rw [ih hs]
      exact h
  | call goal => exact henv.call
  | repeatUntil body ih => exact fun h => iterate_mono ih henv.rounds h
  | _ => exact fun h => h

/-- With more calls granted, at least the same goals are reached. -/
theorem Env.extends_ofLimit {n n' : Nat} (hn : n ≤ n') :
    (Env.ofLimit n : Env σ).Extends (.ofLimit n') := by
  induction n generalizing n' with
  | zero => exact ⟨nofun, hn⟩
  | succ n ih =>
    obtain ⟨n', rfl⟩ : ∃ k, n' = k + 1 := ⟨n' - 1, by omega⟩
    exact ⟨fun h => Parser.run_mono (ih (Nat.le_of_succ_le_succ hn)) h, hn⟩

/-! ## All goals are reached -/

/-- With calls in proportion to what is left, all goals are reached. -/
theorem Env.grants_ofLimit {n : Nat} {start : Ahead} {r : Nat} (h : 16 * start.left + r < n) :
    (Env.ofLimit n : Env σ).Grants start r := by
  induction n generalizing start r with
  | zero => exact absurd h (Nat.not_lt_zero _)
  | succ n ih =>
    refine ⟨fun g s hallow => ?_, show start.left < n + 1 by omega⟩
    have hlt := Goal.weight_lt hallow
    exact Parser.run_of_wp (ih (by omega)) (g.rule_wp s.ahead)

/-- Calls that suffice for a rule suffice at every place in the order. -/
theorem Env.grants_callLimit {n : Nat} {start : Ahead} {r : Nat} (hr : r ≤ Goal.top)
    (hn : callLimit start.left ≤ n) : (Env.ofLimit n : Env σ).Grants start r := by
  refine grants_ofLimit ?_
  rw [callLimit] at hn
  rw [Goal.top] at hr
  omega

/-- The number of calls that is granted for the bytes that are left suffices: each call comes behind
something that was taken, or before its caller in the order of goals, which is finite. -/
theorem Goal.run_of_callLimit {n : Nat} (g : Goal) {s : State σ}
    (hn : callLimit s.ahead.left ≤ n) :
    ∃ a t, g.run n s = some (a, t) ∧ g.Reaches s.ahead t.ahead := by
  have hgrants : (Env.ofLimit n : Env σ).Grants s.ahead (g.rank s.ahead + 1) :=
    Env.grants_callLimit (g.rank_lt_top s.ahead) hn
  exact hgrants.call g s (.inr ⟨rfl, Nat.le_refl _⟩)

/-- Where a goal is reached with some calls, it is as with enough of them. -/
theorem Goal.reaches_of_run {n : Nat} {g : Goal} {s t : State σ} {a : Bool}
    (h : g.run n s = some (a, t)) : g.Reaches s.ahead t.ahead := by
  obtain ⟨a', t', ht', hreaches⟩ :=
    g.run_of_callLimit (s := s) (Nat.le_max_right n (callLimit s.ahead.left))
  have hmore : g.run (max n (callLimit s.ahead.left)) s = some (a, t) :=
    (Env.extends_ofLimit (Nat.le_max_left n (callLimit s.ahead.left))).call h
  rw [hmore] at ht'
  cases ht'
  exact hreaches

/-! ## Calls inside of calls -/

/-- Whether something happens on the way through a rule or, at any depth, inside of the calls on its
way. There are `n` calls to be had. -/
inductive Parser.Encounters : Nat → {α : Type} → Parser α → State σ → Happening σ → Prop where
  | here {n : Nat} {α : Type} {p : Parser α} {s : State σ} {m : Happening σ}
      (h : p.Meets (.ofLimit n) s m) : Encounters n p s m
  | inside {n : Nat} {α : Type} {p : Parser α} {s t : State σ} {g : Goal} {m : Happening σ}
      (hg : p.Meets (.ofLimit (n + 1)) s (.call g t)) (h : Encounters n g.rule t m) :
      Encounters (n + 1) p s m

/-- What a goal may call is also allowed for a rule that may call the goal. -/
theorem Ahead.Allows.trans {start ts us : Ahead} {r rank rank' : Nat}
    (h : start.Allows r (rank + 1) ts) (h' : ts.Allows rank rank' us) :
    start.Allows r rank' us := by
  rcases h' with hlt | ⟨rfl, hle⟩
  · exact h.of_lt hlt
  · exact h.mono (Nat.le_succ_of_le hle)

/-- Whatever happens inside of a rule brings the end nearer. -/
theorem Parser.descends_of_encounters {n : Nat} {α : Type} {p : Parser α} {s : State σ}
    {m : Happening σ} (hm : p.Encounters n s m) : ∀ {start : Ahead} {r : Nat}
      {post : α → Ahead → Prop}, 16 * start.left + r < n → p.wp start r s.ahead post →
        m.Descends start r := by
  induction hm with
  | here h =>
    intro start r post hn hwp
    exact meets_of_wp (Env.grants_ofLimit hn) h hwp
  | @inside n α p s t g m hg _ ih =>
    intro start r post hn hwp
    have hcall : start.Allows r (g.rank t.ahead + 1) t.ahead :=
      meets_of_wp (Env.grants_ofLimit hn) hg hwp
    have hlt := Goal.weight_lt hcall
    have hdown : m.Descends t.ahead (g.rank t.ahead) := ih (by omega) (g.rule_wp t.ahead)
    cases m with
    | call g' u => exact hcall.trans hdown
    | round u v => exact hdown

end Runs

/-- Whether two goals are of one rule, perhaps in different modes. -/
def Goal.SameRule (g g' : Goal) : Prop := g.ctorIdx = g'.ctorIdx

theorem Goal.rank_eq_of_sameRule {g g' : Goal} (h : g.SameRule g') (ts : Ahead) :
    g.rank ts = g'.rank ts := by
  cases g <;> cases g' <;> first | rfl | cases h

/-- A rule that is called inside of itself has less to read. -/
theorem Goal.left_lt_of_sameRule [Assembly σ] {g g' : Goal} {s t : State σ} {n : Nat}
    (hn : callLimit s.ahead.left ≤ n) (h : g.rule.Encounters n s (.call g' t))
    (hg : g.SameRule g') : t.ahead.left < s.ahead.left := by
  have hrank : g.rank s.ahead < 10 := g.rank_lt_top s.ahead
  rw [callLimit] at hn
  have hdown : s.ahead.Allows (g.rank s.ahead) (g'.rank t.ahead + 1) t.ahead :=
    Parser.descends_of_encounters h (by omega) (g.rule_wp s.ahead)
  rcases hdown with hlt | ⟨hts, hlt⟩
  · exact hlt
  · rw [hts, rank_eq_of_sameRule hg] at hlt
    exact absurd hlt (Nat.not_succ_le_self _)

/-! ## Looking ahead -/

namespace Ahead

/-- Looking past attributes leads to a place further on. -/
theorem afterAttributes_suffix (ts : Ahead) : ts.afterAttributes <:+ ts := by
  fun_induction afterAttributes ts with
  | case1 => exact List.suffix_refl []
  | case2 x ts h ih => exact (ih.trans (afterAttribute_suffix ts)).trans (List.suffix_cons x ts)
  | case3 x ts h => exact List.suffix_refl _

/-- Looking past modifiers leads to a place further on. -/
theorem afterModifiers_suffix (ts : Ahead) : ts.afterModifiers <:+ ts := by
  fun_induction afterModifiers ts with
  | case1 => exact List.suffix_refl []
  | case2 x ts n h ih => exact (ih.trans (List.drop_suffix _ ts)).trans (List.suffix_cons x ts)
  | case3 x ts h => exact List.suffix_refl _

/-- A skip without a place to stop skips everything. -/
theorem skipLength_of_never {stop : Ahead → Bool} (h : ∀ ts, stop ts = false) (depth : Nat)
    (ts : Ahead) : ts.skipLength stop depth = ts.length := by
  have hstop : (outside stop).stop depth ts = [] := by
    induction ts generalizing depth with
    | nil => rfl
    | cons x ts ih =>
      have hstep : (outside stop).step depth x ts = .inl (depthAfter depth x.kind) := by
        simp only [outside, h, Bool.and_false, Bool.false_eq_true, if_false]
      rw [Scan.stop, Scan.run, hstep]
      exact ih _
  rw [skipLength, hstop, List.length_nil, Nat.sub_zero]

end Ahead

/-- Only the empty list is at the end of the file. -/
theorem Ahead.isAt_endOfFile {ts : Ahead} : ts.isAt .endOfFile ↔ ts = [] := by
  cases ts with
  | nil => exact iff_of_true rfl rfl
  | cons x ts =>
    refine iff_of_false (fun h => ?_) (List.cons_ne_nil x ts)
    exact Kind.ne_endOfFile_of_isSolid x.solid.2 (beq_iff_eq.mp h)

/-- The statements of a file only end with the file. -/
theorem Ahead.endsBody_file {ts : Ahead} : ts.endsBody {} ↔ ts = [] := by
  rw [endsBody, Bool.false_and, Bool.false_and, Bool.false_and, Bool.or_false, Bool.or_false,
    Bool.or_false, isAt_endOfFile]

/-- Skipping without an end leaves nothing. -/
theorem skipRest_wp {start : Ahead} {r : Nat} {ts : Ahead} :
    (skipUntil .empty).wp start r ts fun _ us => us = [] := by
  have hlen : ts.skipLength (Ahead.isIn .empty) 0 = ts.length :=
    Ahead.skipLength_of_never (fun us => KindSet.contains_empty us.kind) 0 ts
  rw [skipUntil, Parser.wp_bind, skippedUntil, Parser.wp_bind, Parser.wp_look, hlen]
  cases ts with
  | nil => rfl
  | cons x ts => exact List.drop_length

end Grammar

open Grammar

namespace Entry

/-- **Every entry reads its text to the end.** The rule of an entry is the last in the order, so it
may call any goal at once; and what it leaves is skipped. -/
theorem rule_wp (e : Entry) (ts : Ahead) : e.rule.wp ts Goal.top ts fun _ us => us = [] := by
  have skip {p : Parser Unit} (h : p.Steady (fun us => us = ts) Goal.top) :
      (p >>= fun _ => skipUntil .empty).wp ts Goal.top ts fun _ us => us = [] := by
    rw [Parser.wp_bind]
    exact Parser.wp_mono (h ts Goal.top ts rfl (.inr ⟨rfl, Nat.le_refl _⟩)) fun _ us _ =>
      skipRest_wp
  cases e with
  | sourceFile =>
    refine ⟨.inr ⟨rfl, Goal.rank_lt_top _ _⟩, ?_⟩
    exact fun _ us h => Ahead.endsBody_file.mp (h.ends {} rfl)
  | expression mode => exact skip (expr_steady (by decide))
  | statement => exact skip .visitAny
  | closure => exact skip .visitAny
  | returnStatement => exact skip (returnStatement_steady (by decide))

/-- The end of the file is not written out; trivia may stand before it. -/
theorem exists_endOfFile_eq (text : Text) :
    ∃ leading, endOfFile text = ⟨leading, .endOfFile, [], []⟩ := by
  obtain ⟨front, leading, h, -⟩ := Token.exists_stream_eq text
  refine ⟨leading, ?_⟩
  rw [endOfFile, h, List.getLastD_concat]

/-- The tokens and the end of the file make up the text. -/
theorem source_ofText (text : Text) :
    (Ahead.ofText text).source ++ (endOfFile text).full = text := by
  obtain ⟨front, leading, h, -⟩ := Token.exists_stream_eq text
  have htext := Token.fullText_stream text
  rw [Ahead.source, Ahead.ofText, Lexeme.tokens_ofTokens, endOfFile]
  rw [h] at htext ⊢
  rw [List.dropLast_concat, List.getLastD_concat]
  simpa using htext

/-- What the grammar sees of a text weighs no more than the text. -/
theorem left_ofText_le (text : Text) : (Ahead.ofText text).left ≤ Text.byteLen text := by
  have hlen := congrArg Text.byteLen (source_ofText text)
  rw [Text.byteLen_append] at hlen
  exact Nat.le.intro hlen

/-- Calls and rounds that suffice for a text. -/
theorem grants_callLimit {σ : Type} [Assembly σ] {n : Nat} {text : Text}
    (hn : callLimit (Text.byteLen text) ≤ n) :
    (Env.ofLimit n : Env σ).Grants (.ofText text) Goal.top := by
  refine Env.grants_callLimit (Nat.le_refl _) (Nat.le_trans ?_ hn)
  exact Nat.mul_le_mul_left 16 (Nat.add_le_add_right (left_ofText_le text) 2)

/-- **Parsing comes to an end.** With calls and rounds in proportion to its length, a text is read
to its end, whatever is put together on the way, and more of them change nothing. A round of a loop
that goes on takes something. A call inside of a call, at any depth, comes behind something that was
taken, or earlier in the order of goals; so a rule that is called inside of itself has less to read.
The statements of a file end with the file. What looks ahead without a limit stops at the end of the
file at the latest. -/
theorem terminates (e : Entry) (text : Text) (extra : Nat) {σ : Type} [Assembly σ] (built : σ) :
    (∃ s, e.outcome (callLimit (Text.byteLen text) + extra) text built = some s ∧ s.ahead = [] ∧
      e.outcome (callLimit (Text.byteLen text)) text built = some s) ∧
    (∀ s t : State σ,
      e.rule.Encounters (callLimit (Text.byteLen text) + extra) ⟨.ofText text, built⟩ (.round s t) →
        t.ahead.left < s.ahead.left) ∧
    (∀ (g g' : Goal) (s t : State σ),
      g.rule.Encounters (callLimit s.ahead.left + extra) s (.call g' t) →
        (t.ahead.left < s.ahead.left ∨
          t.ahead = s.ahead ∧ g'.rank t.ahead < g.rank s.ahead) ∧
        (g.SameRule g' → t.ahead.left < s.ahead.left)) ∧
    (∀ s : State σ, ∃ a t,
      (Goal.statements {}).run (callLimit s.ahead.left + extra) s = some (a, t) ∧ t.ahead = []) ∧
    (∀ {τ α : Type} (scan : Scan τ α) (x : τ) (ts : Ahead), scan.stop x ts <:+ ts) ∧
    ∀ ts : Ahead, ts.afterAttributes <:+ ts ∧ ts.afterModifiers <:+ ts := by
  refine ⟨?_, ?_, ?_, ?_, Scan.stop_suffix,
    fun ts => ⟨ts.afterAttributes_suffix, ts.afterModifiers_suffix⟩⟩
  · obtain ⟨a, s, hs, hend⟩ := Parser.run_of_wp (s := ⟨.ofText text, built⟩)
      (grants_callLimit (Nat.le_refl _)) (e.rule_wp (.ofText text))
    have hs' := Parser.run_mono (Env.extends_ofLimit (Nat.le_add_right _ extra)) hs
    refine ⟨s, ?_, hend, ?_⟩
    · rw [outcome, hs', Option.map_some]
    · rw [outcome, hs, Option.map_some]
  · intro s t h
    refine Parser.descends_of_encounters (m := .round s t) h ?_ (e.rule_wp (.ofText text))
    -- the tokens have no more to be read than the text
    have hleft := left_ofText_le text
    rw [callLimit, Goal.top]
    omega
  · intro g g' s t h
    refine ⟨?_, Goal.left_lt_of_sameRule (Nat.le_add_right _ extra) h⟩
    have hrank : g.rank s.ahead < 10 := g.rank_lt_top s.ahead
    exact Parser.descends_of_encounters h (by rw [callLimit]; omega) (g.rule_wp s.ahead)
  · intro s
    obtain ⟨a, t, ht, hreaches⟩ := (Goal.statements {}).run_of_callLimit (s := s)
      (Nat.le_add_right (callLimit s.ahead.left) extra)
    exact ⟨a, t, ht, Ahead.endsBody_file.mp (hreaches.ends {} rfl)⟩

end Entry

end SwiftTree
