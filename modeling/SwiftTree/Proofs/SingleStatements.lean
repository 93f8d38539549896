import SwiftTree.Proofs.CaseStatements

/-!
# Files of a single statement

A file that starts with a directive and is one statement is read by the rule for statements, from
its start to its end (`Entry.exists_run_statement`). For the list of statements goes on as long as
tokens are left, and whatever it reads then it adds. If nothing is wrong in the file, the rule puts
the statement together in a clean way (`Entry.exists_run_statement_clean`).
-/

namespace SwiftTree

namespace Grammar

open Grammar.Parser

/-- Where nothing is added, nothing is read. -/
theorem State.Carries.left_eq {s t : State Forest} (h : s.Carries t) (hbuilt : t.built = s.built) :
    t.ahead.left = s.ahead.left := by
  obtain ⟨taken, htokens, hpieces⟩ := h
  rw [hbuilt] at htokens
  obtain rfl := List.map_eq_nil_iff.mp (List.append_right_eq_self.mp htokens.symm)
  exact congrArg Text.byteLen (hpieces _ [] (.refl _)).fullText_eq

/-- A loop that starts does a round, and adds what it adds then behind. -/
theorem Parser.exists_of_run_whileAhead {env : Env Forest} (henv : env.Honest) {test : Ahead → Bool}
    {rule : Parser Unit} {shape : Shape} (hrule : rule.Makes (fun ts => test ts = true) shape)
    {s u : State Forest} {a : Unit} (htest : test s.ahead)
    (h : (whileAhead test rule).run env s = some (a, u)) :
    ∃ (t : State Forest) (gs : List Green), rule.run env s = some ((), t) ∧
    u.built = gs.reverse ++ t.built ∧ t.Carries u := by
  let round : Parser (Option Unit) := do
    return if ← (do if ← look test then do rule; return true else return false) then none
      else some ()
  change iterate (round.run env) env.rounds s = _ at h
  cases hrounds : env.rounds with
  | zero =>
    rw [hrounds] at h
    cases h
  | succ rounds =>
    have hround : round.Makes (fun _ => True) (.many shape) :=
      .thenPure (.branch (.thenPure (hrule.once.mono fun _ hts => hts.2))
        (Adds.answer fun _ _ => .none))
    -- the test holds, so the first round is one of the rule
    have hfirst {b : Option Unit} {t : State Forest} (h : round.run env s = some (b, t)) :
        b = none ∧ rule.run env s = some ((), t) := by
      obtain ⟨more, v, hbody, hpure⟩ := exists_run_of_bind h
      cases hpure
      change Parser.run env (if test s.ahead then do rule; return true else return false) s =
        _ at hbody
      rw [if_pos htest] at hbody
      obtain ⟨_, w, hrun, hpure⟩ := exists_run_of_bind hbody
      cases hpure
      exact ⟨rfl, hrun⟩
    rw [hrounds, iterate] at h
    split at h
    · cases h
    · rename_i hstop
      cases (hfirst hstop).1
    · rename_i t hgo
      let invariant (x : State Forest) : Prop := ∃ gs : List Green, x.built = gs.reverse ++ t.built
      have hstep : ∀ x b y, invariant x → round.run env x = some (b, y) →
        invariant y ∧ x.Carries y := by
        rintro x b y ⟨gs, hx⟩ hr
        obtain ⟨⟨hs, hy, -⟩, hcarries⟩ := sound_of_yields henv hr (hround x.ahead x.built trivial)
        refine ⟨⟨gs ++ hs, ?_⟩, hcarries⟩
        rw [hy, hx, List.reverse_append, List.append_assoc]
      have hstart : invariant t := ⟨[], rfl⟩
      have hend : invariant u ∧ t.Carries u := by
        refine @iterate_of_yields Unit (round.run env) invariant (fun _ => invariant)
          (fun x b y hx hr => ?_)
          rounds t a u hstart h
        obtain ⟨hy, hcarries⟩ := hstep x b y hx hr
        cases b with
        | none => exact ⟨hy, hcarries⟩
        | some _ => exact ⟨hy, hcarries⟩
      obtain ⟨⟨gs, hbuilt⟩, hcarries⟩ := hend
      exact ⟨t, gs, (hfirst hgo).2, hbuilt, hcarries⟩

/-- At a directive an item is a statement. -/
theorem run_of_run_item {σ : Type} [Assembly σ] {env : Env σ} {body : Body} {s t : State σ}
    {a : Unit}
    (hat : s.ahead.isAt .poundIf) (h : (item body).run env s = some (a, t)) :
    (visit .statement).run env s = some ((), t) := by
  have hkind : s.ahead.kind = .poundIf := beq_iff_eq.mp hat
  obtain ⟨taken, v, heat, hrest⟩ := exists_run_of_bind h
  rw [run_eat, Ahead.isAt, hkind, if_neg (by decide)] at heat
  cases heat
  change Parser.run env (if s.ahead.startsItem then visit .statement else _) s = _ at hrest
  have hstarts : s.ahead.startsItem := by
    rw [Ahead.startsItem, Ahead.startsStatement, Ahead.isIn, Ahead.isAt, hkind]
    rfl
  rwa [if_pos hstarts] at hrest

end Grammar

namespace Entry

open Grammar Grammar.Parser

/-- The statements of a file, with what stands between them. -/
def items (text : Text) : List Green := (sourceFile.tree text).children.flatMap Green.children

variable {text : Text}

/-- The items of a file are the items of its list of statements. -/
theorem items_eq (text : Text) : items text = (sourceFile.parts text).flatMap Green.children := by
  rw [items, tree_eq]
  show (_ ++ [Green.token (endOfFile text)]).flatMap Green.children = _
  rw [List.flatMap_append]
  exact List.append_nil _

/-- If a file is one statement that starts with a directive, then this is read up to the end. The
list of statements would go on otherwise, and whatever it goes on with adds an item. -/
theorem exists_run_statement (hone : (items text).length = 1)
    (hat : (Ahead.ofText text).isAt .poundIf) :
    ∃ n, statementRule.run ⟨Goal.run n, n⟩ ⟨.ofText text, ([] : Forest)⟩
      = some ((), ⟨[], (items text).reverse⟩) := by
  have hrun := sourceFile.run_rule text
  generalize callLimit (Text.byteLen text) = limit at hrun
  obtain ⟨b, t, hcall, hpure⟩ := exists_run_of_bind hrun
  cases hpure
  cases limit with
  | zero => cases hcall
  | succ n =>
    change (complete (statementsRule {})).run _ _ = _ at hcall
    obtain ⟨_, t, hrule, hpure⟩ := exists_run_of_bind hcall
    cases hpure
    obtain ⟨u, hloop, hbuilt⟩ := exists_of_run_node hrule
    have hitems : items text = u.built.reverse := by
      have hparts : (sourceFile.parts text).reverse = [.node .codeBlockItemList u.built.reverse] :=
        congrArg State.built hbuilt
      rw [List.reverse_eq_iff] at hparts
      rw [items_eq, hparts]
      exact List.append_nil _
    have hahead : u.ahead = [] := (congrArg State.ahead hbuilt).symm
    have hmore : Ahead.ofText text ≠ [] := Ahead.ne_nil_of_isAt (by decide) hat
    have htest : (!Ahead.endsBody {} (Ahead.ofText text)) = true := by
      rw [Bool.not_eq_true', Bool.eq_false_iff]
      exact fun hends => hmore (Ahead.endsBody_file.mp hends)
    obtain ⟨t, gs, hitem, hadded, hcarries⟩ :=
      Parser.exists_of_run_whileAhead (Env.honest_ofLimit n) item_makes htest hloop
    have hstatement :
      (visit .statement).run (.ofLimit n) ⟨.ofText text, ([] : Forest)⟩ = some ((), t) :=
      run_of_run_item hat hitem
    obtain ⟨b, t, hcall, hpure⟩ := exists_run_of_bind hstatement
    cases hpure
    obtain ⟨⟨g, hg, -⟩, -⟩ := Env.honest_ofLimit n _ _ _ _ hcall
    -- what the round adds is the one statement, so nothing is left to be read
    have hnone : gs = [] := by
      rw [hitems, hadded, hg, List.length_reverse, List.length_append, List.length_reverse] at hone
      exact List.length_eq_zero_iff.mp (by simpa using hone)
    subst hnone
    have hleft := hcarries.left_eq hadded
    have hend : t.ahead = [] := by
      by_contra hne
      have hlt := Ahead.left_tail_lt hne
      rw [← hleft, hahead] at hlt
      exact absurd hlt (Nat.not_lt_zero _)
    cases n with
    | zero => cases hcall
    | succ n =>
      change (complete statementRule).run _ _ = _ at hcall
      obtain ⟨_, v, hrule, hpure⟩ := exists_run_of_bind hcall
      cases hpure
      refine ⟨n, hrule.trans ?_⟩
      rw [hitems, List.reverse_reverse, hadded, ← hend]
      rfl

/-- The statements of a file without diagnostics are clean. -/
theorem allClean_items (h : (Parse.ofText .sourceFile text).diagnostics = []) :
    Green.allClean (items text) := by
  rw [sourceFile.diagnostics_eq_nil_iff, isClean_tree] at h
  rw [Green.allClean_iff] at h ⊢
  intro g hg
  rw [items_eq] at hg
  obtain ⟨list, hlist, hg⟩ := List.mem_flatMap.mp hg
  cases list with
  | leaf _ => cases hg
  | node kind cs =>
    have hnode := h _ hlist
    rw [Green.isClean, Bool.and_eq_true, Green.allClean_iff] at hnode
    exact hnode.2 g hg

/-- If nothing is wrong in a file that is one statement, then this is put together in a clean way.
So it can be followed where other tokens stand behind it. -/
theorem exists_run_statement_clean (hclean : (Parse.ofText .sourceFile text).diagnostics = [])
    (hone : (items text).length = 1) (hat : (Ahead.ofText text).isAt .poundIf) :
    ∃ n, statementRule.run ⟨Goal.run n, n⟩ (.clean (.ofText text)) = some ((), .clean []) := by
  obtain ⟨n, hrun⟩ := exists_run_statement hone hat
  have hagree := Tally.counting.run (Simulation.ofLimit n) statementRule
    (c := true) (s := .clean (.ofText text)) (t := ⟨.ofText text, []⟩) ⟨rfl, rfl⟩
  rw [Env.ofLimit, Env.ofLimit, hrun] at hagree
  refine ⟨n, ?_⟩
  cases htally : statementRule.run ⟨Goal.run n, n⟩ (.clean (.ofText text)) with
  | none =>
    rw [htally] at hagree
    exact hagree.elim
  | some r =>
    obtain ⟨⟨⟩, ts, ⟨isClean⟩⟩ := r
    rw [htally] at hagree
    obtain ⟨-, hnil, hcounted⟩ := hagree
    obtain rfl : ts = [] := hnil
    have hitems : isClean = true := by
      refine Eq.trans (b := true && Green.allClean (items text).reverse) hcounted ?_
      rw [Bool.true_and, Green.allClean_reverse]
      exact allClean_items hclean
    rw [hitems]
    rfl

end Entry

end SwiftTree
