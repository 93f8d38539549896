import SwiftTree.Proofs.AngleBrackets
import SwiftTree.Proofs.Skipping

/-!
# The brace that a body is looked for at

Before a body, the look for a brace on this line (`Ahead.lineBrace`) counts parentheses and
brackets, and the skip to the brace counts braces as well. All that the look ahead has open, the
skip has open (`Ahead.exists_lineBrace`), so the skip does not stop at a brace that was stepped
over. It may pass the one that was found, if it has more open there.

So a body starts with the brace that was found exactly if all groups that were opened before it are
closed (`bodyBlock_agrees`). In `defer ({) {}` the first brace opens a group for the skip alone,
which then takes the rest of the text (`Entry.bodyBlock_passes_brace`).
-/

namespace SwiftTree

namespace Grammar

/-! ## The brace that is found -/

namespace Ahead

/-- The more brackets are open before a token, the more are open behind it. -/
theorem depthAfter_mono {m n : Nat} (h : m ≤ n) (k : Kind) : depthAfter m k ≤ depthAfter n k := by
  unfold depthAfter
  split
  · exact Nat.succ_le_succ h
  · split
    · exact Nat.sub_le_sub_right h 1
    · exact h

/-- Only a closing bracket closes one. -/
theorem le_depthAfter {k : Kind} (depth : Nat) (h : closers.contains k = false) :
    depth ≤ depthAfter depth k := by
  unfold depthAfter
  split
  · exact Nat.le_succ depth
  · exact Nat.le_of_eq (by rw [h, if_neg Bool.false_ne_true])

/-- What one step of the look for a brace does: it gives up, it is at the brace, or it goes on, with
no more open than a skip would have. -/
theorem step_lineBrace (s : LineState) (x : Lexeme) (ts : Ahead) :
    lineBrace.step s x ts = .inr false ∨ (s.first ∨ x.atLineStart = false) ∧
      (lineBrace.step s x ts = .inr true ∧ x.kind = .leftBrace ∧ s.depth = 0 ∨
        ∃ depth, lineBrace.step s x ts = .inl ⟨depth, false⟩ ∧ (x.kind = .leftBrace → s.depth ≠ 0) ∧
          depth ≤ depthAfter s.depth x.kind) := by
  by_cases hends : (x.kind == .rightBrace || (!s.first && x.atLineStart)) = true
  · exact .inl (if_pos hends)
  unfold lineBrace
  dsimp only
  rw [if_neg hends]
  -- the look goes on at this token, so it stands on the line and closes no block
  rw [Bool.or_eq_true, not_or, Bool.and_eq_true, not_and, Bool.not_eq_true', beq_iff_eq] at hends
  refine .inr ⟨?_, ?_⟩
  · cases hfirst : s.first with
    | true => exact .inl rfl
    | false => exact .inr (Bool.eq_false_iff.mpr (hends.2 hfirst))
  split
  · rename_i hkind
    by_cases hdepth : s.depth = 0
    · exact .inl ⟨if_pos (beq_iff_eq.mpr hdepth), hkind, hdepth⟩
    · refine .inr ⟨s.depth, if_neg fun h => hdepth (beq_iff_eq.mp h), fun _ => hdepth, ?_⟩
      rw [hkind]
      exact Nat.le_succ _
  -- parentheses and brackets are counted by both
  iterate 4
    rename_i hkind
    rw [hkind]
    exact .inr ⟨_, rfl, fun h => absurd h (by decide), Nat.le_refl _⟩
  rename_i hbrace _ _ hparen hbracket
  refine .inr ⟨_, rfl, fun h => absurd h hbrace, le_depthAfter _ ?_⟩
  rw [closers, KindSet.contains_ofList, List.contains_eq_mem, decide_eq_false_iff_not]
  simp only [List.mem_cons, List.not_mem_nil, or_false, not_or]
  exact ⟨hparen, hbracket, hends.1⟩

variable {ts : Ahead}

/-- The first token that is passed may open a line. -/
theorem forall_mem_drop_first {first : Bool} {x : Lexeme} (hx : first ∨ x.atLineStart = false)
    (h : ∀ y ∈ ts, y.atLineStart = false) :
    ∀ y ∈ (x :: ts).drop first.toNat, y.atLineStart = false := by
  cases first with
  | true => exact h
  | false => exact List.forall_mem_cons.mpr ⟨hx.resolve_left Bool.false_ne_true, h⟩

/-- The brace that is found is on this line. A skip has no fewer groups open on the way than the
look ahead, so it is in a group where the look ahead steps over a brace. The converse fails: a skip
counts braces as well. -/
theorem exists_lineBrace {s : LineState} (h : lineBrace.answer s ts) :
    ∃ skipped brace rest, ts = skipped ++ brace :: rest ∧ brace.kind = .leftBrace ∧
      lineBrace.stop s ts = brace :: rest ∧
      (∀ x ∈ (skipped ++ [brace]).drop s.first.toNat, x.atLineStart = false) ∧
      ∀ depth, s.depth ≤ depth → ∀ before y behind, skipped = before ++ y :: behind →
        depthBehind depth before = 0 → y.kind ≠ .leftBrace := by
  induction ts generalizing s with
  | nil => cases h
  | cons x ts ih =>
    rw [Scan.answer, Scan.run] at h
    rw [Scan.stop, Scan.run]
    obtain hgives | ⟨hline, ⟨hfound, hkind, -⟩ | ⟨depth, hgoes, hbrace, hdepth⟩⟩ :=
      step_lineBrace s x ts
    · rw [hgives] at h
      cases h
    · rw [hfound]
      refine ⟨[], x, ts, rfl, hkind, rfl, ?_, fun _ _ before y behind hnil => ?_⟩
      · exact forall_mem_drop_first hline (List.forall_mem_nil _)
      · exact absurd hnil.symm (List.append_ne_nil_of_right_ne_nil _ (List.cons_ne_nil y behind))
    · rw [hgoes] at h ⊢
      obtain ⟨skipped, brace, rest, rfl, hkind, hstop, hlines, hpassed⟩ := ih h
      refine ⟨x :: skipped, brace, rest, rfl, hkind, hstop, forall_mem_drop_first hline hlines, ?_⟩
      intro more hmore before y behind hskipped hbefore
      cases before with
      | nil =>
        -- where the skip is outside of all groups, so is the look ahead
        obtain ⟨rfl, -⟩ := List.cons.inj hskipped
        obtain rfl : more = 0 := hbefore
        exact fun hy => hbrace hy (Nat.le_zero.mp hmore)
      | cons z before =>
        obtain ⟨rfl, hrest⟩ := List.cons.inj hskipped
        exact hpassed _ (Nat.le_trans hdepth (depthAfter_mono hmore _)) before y behind
          hrest hbefore

/-- The brace that the next token is, is found at once. -/
theorem isAt_of_passed {skipped rest : Ahead} {brace : Lexeme} (hkind : brace.kind = .leftBrace)
    (h : ∀ y behind, skipped = y :: behind → y.kind ≠ .leftBrace) :
    isAt .leftBrace (skipped ++ brace :: rest) = skipped.isEmpty := by
  cases skipped with
  | nil => exact beq_iff_eq.mpr hkind
  | cons y behind => exact beq_eq_false_iff_ne.mpr (h y behind rfl)

end Ahead

/-! ## The way to the block -/

/-- The skip to a brace on this line, if there is one. -/
def skipToBrace : Parser Unit :=
  ifAhead (fun ts => !ts.isAt .leftBrace && ts.braceOnLine) (skipUntil (.single .leftBrace))

theorem bodyBlock_eq : bodyBlock = (do skipToBrace; codeBlock) := rfl

section Runs

variable {σ : Type} [Assembly σ] {ts : Ahead}

/-- Without a brace on this line nothing is skipped. -/
theorem run_skipToBrace_of_not (env : Env σ) (built : σ) (h : ts.braceOnLine = false) :
    skipToBrace.run env ⟨ts, built⟩ = some ((), ⟨ts, built⟩) := by
  change Parser.run env (if !ts.isAt .leftBrace && ts.braceOnLine then _ else _) _ = _
  rw [h, Bool.and_false]
  rfl

/-- What comes before the brace that is found is skipped, and the brace with it if a group is open
there. -/
theorem exists_run_skipToBrace (env : Env σ) (built : σ) (h : ts.braceOnLine) :
    ∃ skipped brace rest, ts = skipped ++ brace :: rest ∧ brace.kind = .leftBrace ∧
      Ahead.lineBrace.stop ⟨0, true⟩ ts = brace :: rest ∧
      (∀ x ∈ (skipped ++ [brace]).tail, x.atLineStart = false) ∧
      (Ahead.depthBehind 0 skipped = 0 → skipToBrace.run env ⟨ts, built⟩
        = some ((), ⟨brace :: rest, if skipped.isEmpty then built
          else addUnexpected skipped built⟩)) ∧
      (Ahead.depthBehind 0 skipped ≠ 0 → ∃ more behind, rest = more ++ behind ∧
        skipToBrace.run env ⟨ts, built⟩
          = some ((), ⟨behind, addUnexpected (skipped ++ brace :: more) built⟩)) := by
  obtain ⟨skipped, brace, rest, rfl, hkind, hstop, hlines, hpassed⟩ := Ahead.exists_lineBrace h
  have hpassed := hpassed 0 (Nat.le_refl 0)
  have hat : Ahead.isAt .leftBrace (skipped ++ brace :: rest) = skipped.isEmpty :=
    Ahead.isAt_of_passed hkind fun y behind hskipped => hpassed [] y behind hskipped rfl
  have hrun : skipToBrace.run env ⟨skipped ++ brace :: rest, built⟩
      = if skipped.isEmpty then some ((), ⟨skipped ++ brace :: rest, built⟩)
        else (skipUntil (.single .leftBrace)).run env ⟨skipped ++ brace :: rest, built⟩ := by
    change Parser.run env (if !Ahead.isAt .leftBrace (skipped ++ brace :: rest)
      && Ahead.braceOnLine (skipped ++ brace :: rest) then _ else _) _ = _
    rw [hat, h, Bool.and_true]
    cases skipped.isEmpty <;> rfl
  -- the skip comes as far as the brace that is found, with what is open there
  have houtside : (Ahead.outside (Ahead.isIn (.single .leftBrace))).stop 0
    (skipped ++ brace :: rest)
      = (Ahead.outside (Ahead.isIn (.single .leftBrace))).stop (Ahead.depthBehind 0 skipped)
        (brace :: rest) := by
    refine Ahead.stop_outside_append fun before y behind hskipped hbefore => ?_
    rw [Ahead.isIn, KindSet.contains_single]
    exact beq_eq_false_iff_ne.mpr (hpassed before y behind hskipped hbefore)
  refine ⟨skipped, brace, rest, rfl, hkind, hstop, ?_, fun hdepth => ?_, fun hdepth => ?_⟩
  · rw [← List.drop_one]
    exact hlines
  · rw [hrun]
    split
    · rename_i hempty
      rw [List.isEmpty_iff.mp hempty]
      rfl
    · rename_i hempty
      refine run_skipUntil_of_ne_nil ?_ fun hnil => hempty (List.isEmpty_iff.mpr hnil)
      rw [houtside, hdepth, Ahead.stop_outside_here]
      rw [Ahead.isIn, KindSet.contains_single]
      exact beq_iff_eq.mpr hkind
  · have hne : ¬skipped.isEmpty = true := by
      intro hempty
      rw [List.isEmpty_iff.mp hempty] at hdepth
      exact hdepth rfl
    rw [Ahead.stop_outside_cons fun h => absurd h hdepth] at houtside
    have hsuffix := (Ahead.outside (Ahead.isIn (.single .leftBrace))).stop_suffix
      (Ahead.depthAfter (Ahead.depthBehind 0 skipped) brace.kind) rest
    rw [← houtside] at hsuffix
    generalize hbehind : (Ahead.outside (Ahead.isIn (.single .leftBrace))).stop 0
      (skipped ++ brace :: rest) = behind at hsuffix
    obtain ⟨more, rfl⟩ := hsuffix
    refine ⟨more, behind, rfl, ?_⟩
    rw [hrun, if_neg hne]
    have hall : skipped ++ brace :: (more ++ behind) = (skipped ++ brace :: more) ++ behind := by
      rw [List.append_assoc, List.cons_append]
    rw [hall] at hbehind ⊢
    exact run_skipUntil_of_ne_nil hbehind (by simp)

end Runs

section Blocks

open Grammar.Parser

variable {n : Nat} {built : Forest} {t : State Forest} {a : Unit}

/-- A block that starts with a brace has the brace. -/
theorem exists_of_run_codeBlock {brace : Lexeme} {rest : Ahead} (hbrace : brace.kind = .leftBrace)
    (h : codeBlock.run (.ofLimit n) ⟨brace :: rest, built⟩ = some (a, t)) :
    ∃ behind, t.built = .node .codeBlock (.token brace.token :: behind) :: built := by
  obtain ⟨u, hbody, rfl⟩ := exists_of_run_node h
  obtain ⟨_, v, heat, hinside⟩ := exists_run_of_bind hbody
  have hread := (Ends.eat hbrace : (eat .leftBrace).Ends (⟨brace :: rest, []⟩ : State Forest) _ _) _
    _ _
    heat
  obtain ⟨rfl, rfl⟩ := Prod.mk.inj hread
  have hmakes : (do visit (.statements { braced := true }); require .rightBrace).Makes
      (fun _ => True) _ := .seq .visit fun _ => .require
  obtain ⟨⟨gs, hbuilt, -⟩, -⟩ := sound_of_yields (Env.honest_ofLimit n) hinside (hmakes _ _ trivial)
  refine ⟨gs, ?_⟩
  rw [hbuilt]
  show Green.node .codeBlock (gs.reverse ++ [Green.token brace.token]).reverse :: built = _
  rw [List.reverse_append, List.reverse_reverse]
  rfl

end Blocks

/-- **A body starts with the brace that is found.** The rule for a body has one outcome, which adds
a block last. If no brace is found on this line, nothing is skipped before the block.

If one is found, then it stands on this line: no token up to the brace opens another one. If besides
all groups that are opened before the brace are closed before it, then the tokens before it become a
node of unexpected text, if there are any, and the block starts with the brace. Otherwise the skip
passes the brace. -/
theorem bodyBlock_agrees (ts : Ahead) (before : Forest) : ∃ (t : State Forest) (parts : List Green),
    bodyBlock.run (.ofLimit (callLimit ts.left)) ⟨ts, before⟩ = some ((), t) ∧
    bodyBlock.Ends ⟨ts, before⟩ () t ∧
    (ts.braceOnLine = false →
      codeBlock.Ends ⟨ts, before⟩ () t ∧ t.built = .node .codeBlock parts :: before) ∧
    (ts.braceOnLine → ∃ skipped brace rest, ts = skipped ++ brace :: rest ∧
      brace.kind = .leftBrace ∧
      Ahead.lineBrace.stop ⟨0, true⟩ ts = brace :: rest ∧
      (∀ x ∈ (skipped ++ [brace]).tail, x.atLineStart = false) ∧
      (Ahead.depthBehind 0 skipped = 0 → parts.head? = some (.token brace.token) ∧
        t.built = .node .codeBlock parts :: if skipped.isEmpty then before
          else .node .unexpected (skipped.map fun x => .token x.token) :: before) ∧
      (Ahead.depthBehind 0 skipped ≠ 0 → ∃ more behind, rest = more ++ behind ∧
        t.built = .node .codeBlock parts
          :: .node .unexpected ((skipped ++ brace :: more).map fun x => .token x.token) ::
            before)) := by
  have hsteady : bodyBlock.Steady (fun _ => True) Goal.top := bodyBlock_steady
  obtain ⟨⟨⟩, t, hrun, hends⟩ := hsteady.exists_ends ts trivial before
  have hparts : (do skipToBrace; codeBlock).run _ ⟨ts, before⟩ = some ((), t) := bodyBlock_eq ▸ hrun
  -- the run is cut where the skip ends
  obtain ⟨⟨⟩, u, hskip, hblock⟩ := Parser.exists_run_of_bind hparts
  obtain ⟨v, -, ht⟩ := Parser.exists_of_run_node hblock
  have hbuilt : t.built = .node .codeBlock v.built.reverse :: u.built := by rw [ht]
  refine ⟨t, v.built.reverse, hrun, hends, fun hnone => ?_, fun hfound => ?_⟩
  · rw [run_skipToBrace_of_not _ before hnone] at hskip
    cases hskip
    exact ⟨.of_run hblock, hbuilt⟩
  · obtain ⟨skipped, brace, rest, hts, hkind, hstop, hlines, hclosed, hopen⟩ :=
      exists_run_skipToBrace (.ofLimit (callLimit ts.left)) before hfound
    refine ⟨skipped, brace, rest, hts, hkind, hstop, hlines, fun hdepth => ?_, fun hdepth => ?_⟩
    · rw [hclosed hdepth] at hskip
      cases hskip
      obtain ⟨behind, hstarts⟩ := exists_of_run_codeBlock hkind hblock
      rw [hbuilt] at hstarts
      obtain ⟨-, hparts⟩ := Green.node.inj (List.cons.inj hstarts).1
      refine ⟨by rw [hparts, List.head?_cons], ?_⟩
      rw [hbuilt]
      cases skipped.isEmpty with
      | true => rfl
      | false => exact congrArg _ (Forest.addUnexpected_eq skipped before)
    · obtain ⟨more, behind, hrest, hpassed⟩ := hopen hdepth
      rw [hpassed] at hskip
      cases hskip
      refine ⟨more, behind, hrest, ?_⟩
      rw [hbuilt, Forest.addUnexpected_eq]

/-- In `defer (a) {}` a group stands before the brace. -/
theorem bodyBlock_agrees_group :
    let ts : Ahead :=
  (Ahead.ofText ['d', 'e', 'f', 'e', 'r', ' ', '(', 'a', ')', ' ', '{', '}']).tail
    ts.braceOnLine ∧ ∃ (t : State Forest) (brace : Token) (skipped behind : List Green),
      bodyBlock.run (.ofLimit (callLimit ts.left)) ⟨ts, []⟩ = some ((), t) ∧
      brace.kind = .leftBrace ∧
      t.built = [.node .codeBlock (.token brace :: behind), .node .unexpected skipped] := by
  intro ts
  have hts : ts.braceOnLine ∧ ∃ more,
    more = ts.length - (Ahead.lineBrace.stop ⟨0, true⟩ ts).length ∧
      Ahead.depthBehind 0 (ts.take more) = 0 ∧ (ts.take more).isEmpty = false := by
    refine ⟨?_, _, rfl, ?_⟩
    · exact Ahead.of_stream? (n := 20) (p := fun ts => Ahead.braceOnLine ts.tail)
        (by decide +kernel)
    · exact of_decide_eq_true (Ahead.of_stream? (n := 20) (p := fun ts =>
        Ahead.depthBehind 0 (ts.tail.take
          (ts.tail.length - (Ahead.lineBrace.stop ⟨0, true⟩ ts.tail).length)) = 0 ∧
        (ts.tail.take
          (ts.tail.length - (Ahead.lineBrace.stop ⟨0, true⟩ ts.tail).length)).isEmpty = false)
        (by decide +kernel))
  obtain ⟨hfound, more, hmore, hdepth, hskipped⟩ := hts
  obtain ⟨t, parts, hrun, -, -, hbody⟩ := bodyBlock_agrees ts []
  obtain ⟨skipped, brace, rest, hsplit, hkind, hstop, -, hclosed, -⟩ := hbody hfound
  obtain rfl : skipped = ts.take more := by
    rw [hmore, hstop, hsplit, List.length_append, Nat.add_sub_cancel_right, List.take_left]
  obtain ⟨hhead, hbuilt⟩ := hclosed hdepth
  obtain ⟨behind, rfl⟩ := List.head?_eq_some_iff.mp hhead
  rw [hskipped, if_neg Bool.false_ne_true] at hbuilt
  exact ⟨hfound, t, brace.token, _, behind, hrun, hkind, hbuilt⟩

end Grammar

namespace Entry

open Grammar

/-- In `defer ({) {}` the look ahead finds the second brace. The first one opens a group that is not
closed before it, so the skip takes both, and the block is missing. -/
theorem bodyBlock_passes_brace :
    let text := ['d', 'e', 'f', 'e', 'r', ' ', '(', '{', ')', ' ', '{', '}']
    Ahead.braceOnLine (Ahead.ofText text).tail ∧
    ∃ n ∈ (Node.ofGreen (statement.tree text)).descendants, n.kind = .codeBlock ∧
      ∃ l ∈ n.childLeaves.head?, l.kind = .leftBrace ∧ l.isPresent = false := by
  constructor
  · exact Ahead.of_stream? (n := 20) (p := fun ts => Ahead.braceOnLine ts.tail) (by decide +kernel)
  · exact of_decide_eq_true
      (of_tree? (n := 20) (p := fun tree => ∃ n ∈ (Node.ofGreen tree).descendants,
      n.kind = .codeBlock ∧ ∃ l ∈ n.childLeaves.head?, l.kind = .leftBrace ∧ l.isPresent = false)
      (by decide +kernel))

end Entry

end SwiftTree
