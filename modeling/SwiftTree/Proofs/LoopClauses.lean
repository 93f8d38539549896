import SwiftTree.Proofs.LoopFree
import SwiftTree.Proofs.Positions
import SwiftTree.Proofs.TotalViews

/-!
# Loops tell what was ahead of them

Behind its word a loop looks for the clauses of a C-style loop. What it finds only depends on the
kinds ahead, without those that rules may change (`Ahead.isCStyleLoop_congr`). If it finds clauses,
it keeps them as unexpected text; otherwise a pattern comes first, perhaps behind some words. So the
second part of a loop tells of all that comes behind the word of the loop what the look ahead has
found there (`TellsClauses`). Only loops make loops, so this holds of every node of a tree
(`Entry.tellsClauses`).
-/

namespace SwiftTree

/-- Whether parts start with unexpected text. -/
def Green.startUnexpected : List Green → Bool
  | .node .unexpected _ :: _ => true
  | _ => false

namespace Grammar

/-! ## What the look ahead depends on -/

namespace Ahead

/-- A token that rules may change does not matter to the look for clauses. -/
theorem step_loopClauses {x : Lexeme} (h : x.kind.isSteady = false) (depth : Nat) (ts : Ahead) :
    loopClauses.step depth x ts = .inl depth := by
  unfold loopClauses
  dsimp only
  split
  iterate 8
    rename_i hkind
    rw [hkind] at h
    cases h
  rfl

/-- Tokens that rules may take as others, or cut, make no difference to the look for clauses. -/
theorem answer_loopClauses_filter (depth : Nat) (ts : Ahead) :
    loopClauses.answer depth
    (ts.filter fun x => x.kind.isSteady) = loopClauses.answer depth ts := by
  induction ts generalizing depth with
  | nil => rfl
  | cons x ts ih =>
    by_cases hx : x.kind.isSteady
    · have hstep : loopClauses.step depth x (ts.filter fun x => x.kind.isSteady)
          = loopClauses.step depth x ts := rfl
      rw [List.filter_cons, if_pos hx, Scan.answer, Scan.answer, Scan.run, Scan.run, hstep]
      split
      · exact ih _
      · rfl
    · have hstep := step_loopClauses (Bool.eq_false_iff.mpr hx) depth ts
      rw [List.filter_cons, if_neg hx, ih, Scan.answer, Scan.answer, Scan.run, hstep]

/-- The look for clauses sees kinds only. -/
theorem answer_loopClauses_congr (depth : Nat) {ts us : Ahead}
    (h : ts.map Lexeme.kind = us.map Lexeme.kind) :
    loopClauses.answer depth ts = loopClauses.answer depth us := by
  induction ts generalizing us depth with
  | nil =>
    obtain rfl := List.map_eq_nil_iff.mp h.symm
    rfl
  | cons x ts ih =>
    obtain ⟨y, us, rfl, hkind, hrest⟩ := List.map_eq_cons_iff.mp h.symm
    have hstep : loopClauses.step depth x ts = loopClauses.step depth y us := by
      dsimp only [loopClauses]
      rw [hkind]
    rw [Scan.answer, Scan.answer, Scan.run, Scan.run, hstep]
    split
    · exact ih _ hrest.symm
    · rfl

/-- A token of the text is in the prospect before it as it is in that of its tree. -/
theorem prospect_cons (x : Lexeme) (ts : Ahead) :
    prospect (x :: ts) = Green.steadyKinds [.token x.token] ++ ts.prospect := by
  rw [prospect, List.map_cons, List.map_cons, ← List.singleton_append, Token.steadyKinds_append,
    List.append_assoc]
  rfl

/-- The prospect is made of the steady kinds ahead, with the end of the file. -/
theorem prospect_eq (ts : Ahead) :
    ts.prospect = (ts.filter fun x => x.kind.isSteady).map Lexeme.kind ++ [.endOfFile] := by
  rw [prospect, Token.steadyKinds, List.map_map, List.map_map, List.filter_map]
  rfl

/-- Clauses of a C-style loop are found by the prospect: the look ahead only asks for kinds that
rules do not change. This is what makes it possible to ask the finished tree for what was seen. -/
theorem isCStyleLoop_congr {ts us : Ahead} (h : ts.prospect = us.prospect) :
    ts.isCStyleLoop = us.isCStyleLoop := by
  rw [prospect_eq, prospect_eq] at h
  have hkinds := List.append_cancel_right h
  rw [isCStyleLoop, isCStyleLoop, ← answer_loopClauses_filter, answer_loopClauses_congr 0 hkinds,
    answer_loopClauses_filter]

/-- The clauses of a C-style loop are not empty. -/
theorem skipLength_ne_zero_of_isCStyleLoop {ts : Ahead} (h : ts.isCStyleLoop) :
    ts ≠ [] ∧ skipLength (isIn (.single .leftBrace)) 0 ts ≠ 0 := by
  cases ts with
  | nil => cases h
  | cons x us =>
    refine ⟨List.cons_ne_nil x us, ?_⟩
    have hbrace : isIn (.single .leftBrace) (x :: us) = false := by
      rw [isIn, KindSet.contains_single, beq_eq_false_iff_ne]
      intro hkind
      rw [isCStyleLoop, Scan.answer, Scan.run] at h
      dsimp only [loopClauses] at h
      rw [show x.kind = .leftBrace from hkind] at h
      cases h
    have hstop := ((outside (isIn (.single .leftBrace))).stop_suffix
      (depthAfter 0 x.kind) us).length_le
    have hstep : (outside (isIn (.single .leftBrace))).stop 0 (x :: us)
        = (outside (isIn (.single .leftBrace))).stop (depthAfter 0 x.kind) us := by
      rw [Scan.stop, Scan.stop, Scan.run]
      simp only [outside, hbrace, Bool.and_false, Bool.false_eq_true, if_false]
    rw [skipLength, hstep, List.length_cons]
    omega

end Ahead

/-- What a loop tells: its second part is unexpected text exactly if the clauses of a C-style loop
come behind its first part. -/
def TellsClauses (kind : Kind) (cs : List Green) (next : List Kind) : Prop :=
  kind = .forStmt → ∀ ts : Ahead, Green.steadyKinds cs.tail ++ next = ts.prospect →
    Green.startUnexpected cs.tail = ts.isCStyleLoop

/-! ## What loops are made of -/

open Grammar.Parser

/-- Skipped text is a node of unexpected text, if there is something to skip. -/
theorem unexpected_adds (n : Nat) : (Grammar.unexpected n).Adds (fun ts => ts ≠ []) fun _ _ gs =>
    ∃ cs, gs = [.node .unexpected cs] := by
  intro ts built hts
  have hmakes : (Grammar.unexpected n).Makes (fun _ => True) Shape.skipped := .unexpected n
  obtain ⟨gs, hbuilt, hstrict, hskipped⟩ := hmakes ts built trivial
  refine ⟨gs, hbuilt, hstrict, ?_⟩
  cases hskipped with
  | left hone =>
    obtain ⟨kind, cs, rfl, hkind⟩ := hone.exists_node
    exact ⟨cs, by rw [beq_iff_eq.mp hkind]⟩
  | right hnone =>
    cases hnone
    obtain ⟨x, us, rfl⟩ := List.exists_cons_of_ne_nil hts
    rw [State.unexpected_eq] at hbuilt
    exact absurd hbuilt (List.cons_ne_self _ _)

/-- The clauses of a C-style loop are kept as unexpected text. -/
theorem skipClauses_adds : (skipUntil (.single .leftBrace)).Adds (fun ts => ts.isCStyleLoop)
    fun _ _ gs => ∃ cs, gs = [.node .unexpected cs] := by
  intro ts built hts
  obtain ⟨hne, hlength⟩ := Ahead.skipLength_ne_zero_of_isCStyleLoop hts
  obtain ⟨n, hn⟩ := Nat.exists_eq_succ_of_ne_zero hlength
  rw [skipUntil, yields_bind, skippedUntil, yields_bind, yields_look, hn]
  exact unexpected_adds n ts built hne

/-- The header of a loop starts with a word or a pattern. -/
theorem not_startUnexpected_of_forHeader {gs hs : List Green} (h : Shape.forHeader.Matches gs) :
    Green.startUnexpected (gs ++ hs) = false := by
  have hsome : Shape.forHeader.least Kind.isPattern Kind.never
      ≤ gs.countP (Green.isAmong Kind.isPattern Kind.never) := Shape.least_le_countP h
  have hwithin : gs.all (Green.isWithin (· != .unexpected) fun _ => true) :=
    Shape.all_isWithin h rfl
  cases gs with
  | nil => exact absurd hsome (by decide)
  | cons g gs =>
    rw [List.all_cons, Bool.and_eq_true] at hwithin
    obtain ⟨hg, -⟩ := hwithin
    rw [List.cons_append]
    unfold Green.startUnexpected
    split
    · rename_i heq
      obtain ⟨rfl, -⟩ := List.cons.inj heq
      cases hg
    · rfl

/-- Where clauses were found ahead, there is something to skip before the brace of the body. -/
theorem clauses_adds : (do skipUntil (.single .leftBrace); codeBlock).Adds
    (fun ts => ts.isCStyleLoop) fun _ _ cs => Green.startUnexpected cs = true := by
  refine .bind skipClauses_adds (fun _ => codeBlock_makes) ?_
  rintro _ _ gs _ _ hs ⟨cs, rfl⟩ -
  rfl

/-- A loop without such clauses starts with its pattern, or with a word before it. -/
theorem header_adds : (do forHeader; bodyBlock).Adds (fun _ => True)
    fun _ _ cs => Green.startUnexpected cs = false :=
  .bind forHeader_makes (fun _ => bodyBlock_makes) fun _ _ _ _ _ _ hgs _ =>
    not_startUnexpected_of_forHeader hgs

/-- What stands behind the word of a loop starts with unexpected text if clauses are found ahead. -/
theorem behindWord_adds {us : Ahead} {test : Ahead → Prop} (h : ∀ ts, test ts → ts = us) :
    (do if ← look Ahead.isCStyleLoop then skipUntil (.single .leftBrace); codeBlock
        else forHeader; bodyBlock).Adds test
      fun _ _ cs => Green.startUnexpected cs = us.isCStyleLoop := by
  refine .branch ?_ ?_
  · rintro ts built ⟨hts, hlook⟩
    rw [← h ts hts, hlook]
    exact clauses_adds ts built hlook
  · rintro ts built ⟨hts, hlook⟩
    rw [← h ts hts, hlook]
    exact header_adds ts built trivial

/-- What loops are made of, given the tokens that they start with. -/
theorem forParts_adds (x : Lexeme) (us : Ahead) :
    forParts.Adds (fun ts => ts = x :: us) fun _ _ gs =>
    ∃ cs, gs = .token x.token :: cs ∧ Green.startUnexpected cs = us.isCStyleLoop := by
  have hword : Grammar.advance.Adds (fun ts => ts = x :: us)
      fun _ vs gs => vs = us ∧ gs = [.token x.token] := by
    rintro _ built rfl
    exact ⟨Ahead.mayTake_none _, [.token x.token], rfl, ⟨trivial, trivial⟩, rfl, rfl⟩
  refine .bind hword (fun _ => behindWord_adds fun _ ⟨_, hts, _⟩ => hts) ?_
  rintro _ _ gs _ _ cs ⟨-, rfl⟩ hcs
  exact ⟨cs, rfl, hcs⟩

/-! ## What is told in whole trees -/

/-- Nothing is demanded of nodes that are no loops. -/
theorem tellsClauses_of_ne {kind : Kind} (h : kind ≠ .forStmt) (cs : List Green)
    (next : List Kind) :
    TellsClauses kind cs next := fun hkind => absurd hkind h

section Keeping

variable {env : Env Forest} {s t : State Forest} {a : Unit}

/-- A rule that makes no loops keeps what loops tell. -/
theorem tells_of_loopFree {α : Type} {rule : Parser α} {a : α} {wanted : α → State Forest → Prop}
    (henv : env.Honest) (hcalls : env.KeepsFronts TellsClauses) (h : rule.LoopFree)
    (hr : rule.run env s = some (a, t)) (hy : rule.yields s wanted) (hs : s.Fronts TellsClauses) :
    t.Fronts TellsClauses :=
  (fronts_of_without (fun _ cs next h => tellsClauses_of_ne h cs next) henv hcalls rule h hr
    hy hs).2

/-- A loop that is made tells what its look ahead has found. -/
theorem forStatement_tells (henv : env.Honest) (hcalls : env.KeepsFronts TellsClauses)
    (hat : s.ahead.kind = .forKw) (hr : forStatement.run env s = some (a, t))
    (hs : s.Fronts TellsClauses) : t.Fronts TellsClauses := by
  rw [run_forStatement] at hr
  obtain ⟨u, hu, rfl⟩ := exists_of_run_node hr
  obtain ⟨x, us, hahead⟩ : ∃ x us, s.ahead = x :: us := by
    refine List.exists_cons_of_ne_nil fun hnil => ?_
    rw [hnil] at hat
    cases hat
  have hyields := forParts_adds x us s.ahead [] hahead
  have hinside := tells_of_loopFree henv hcalls forParts_loopFree hu hyields (.enter s)
  obtain ⟨⟨gs, hbuilt, -, cs, rfl, hcs⟩, hcarries⟩ := sound_of_yields henv hu hyields
  rw [List.append_nil] at hbuilt
  have hreverse : u.built.reverse = .token x.token :: cs := by rw [hbuilt, List.reverse_reverse]
  -- the clauses are looked for behind the word, and there the other parts of the loop stand
  have hbehind : Green.steadyKinds cs ++ u.ahead.prospect = Ahead.prospect us := by
    have hall : Green.steadyKinds (.token x.token :: cs) ++ u.ahead.prospect = s.ahead.prospect :=
      hcarries.prospect_eq (by rw [hreverse]; rfl)
    rw [hahead, Ahead.prospect_cons, Green.steadyKinds_cons, List.append_assoc] at hall
    exact List.append_cancel_left hall
  refine hs.closeNew .forStmt hinside hcarries ?_
  rw [hreverse]
  intro _ ts hts
  exact hcs.trans (Ahead.isCStyleLoop_congr (hbehind.symm.trans hts))

/-- A statement tells of the clauses ahead if it is a loop, and other statements make no loop. -/
theorem statementRule_tells (henv : env.Honest) (hcalls : env.KeepsFronts TellsClauses)
    (hr : statementRule.run env s = some (a, t)) (hs : s.Fronts TellsClauses) :
    t.Fronts TellsClauses := by
  obtain ⟨next, hrule, hfor, hothers⟩ := exists_statement
  have hmakes : statementRule.Makes (fun _ => True) Shape.statement := statementRule_makes
  have hyields := hmakes s.ahead s.built trivial
  rw [hrule] at hr hyields
  change (next s.ahead.kind).run env s = _ at hr
  by_cases hat : s.ahead.kind = .forKw
  · rw [hat, hfor] at hr
    exact forStatement_tells henv hcalls hat hr hs
  · exact tells_of_loopFree henv hcalls (hothers _ hat) hr hyields hs

/-- Whatever is asked for tells of the clauses ahead, if all that it calls does. -/
theorem Goal.rule_tells {goal : Goal} {a : Bool} (henv : env.Honest)
    (hcalls : env.KeepsFronts TellsClauses) (hr : goal.rule.run env s = some (a, t))
    (hs : s.Fronts TellsClauses) : t.Fronts TellsClauses := by
  by_cases hgoal : goal = .statement
  · subst hgoal
    obtain ⟨_, u, hu, hpure⟩ := exists_run_of_bind hr
    cases hpure
    exact statementRule_tells henv hcalls hu hs
  · exact tells_of_loopFree henv hcalls (Goal.rule_loopFree hgoal) hr
      (goal.rule_adds s.ahead s.built trivial) hs

end Keeping

/-- However many calls are granted, goals tell of the clauses ahead. The induction is on their
number. -/
theorem Env.keepsFronts_ofLimit (n : Nat) :
    (Env.ofLimit n : Env Forest).KeepsFronts TellsClauses := by
  induction n with
  | zero =>
    intro goal s a t h
    cases h
  | succ n ih => exact fun goal s a t h => Goal.rule_tells (Env.honest_ofLimit n) ih h

end Grammar

namespace Entry

open Grammar

/-- No rule of an entry makes loops itself; they come from statements. -/
theorem rule_loopFree (e : Entry) : e.rule.LoopFree := by
  cases e with
  | sourceFile => exact .visit _
  | expression mode => exact .bind expr_loopFree fun _ => skipUntil_loopFree
  | statement => exact .bind (.visit _) fun _ => skipUntil_loopFree
  | closure => exact .bind (.visit _) fun _ => skipUntil_loopFree
  | returnStatement => exact .bind returnStatement_loopFree fun _ => skipUntil_loopFree

/-- **The loops in the tree of a text tell what was ahead of them.** The second part of a loop is
unexpected text exactly if its clauses come behind its word, and what comes behind a node is in the
tree as well. -/
theorem tellsClauses (e : Entry) {text : Text} {n : Node}
    (hn : n ∈ (Node.ofGreen (e.tree text)).descendants) :
    TellsClauses n.kind n.children (Green.steadyKinds n.behind) := by
  have hparts : Green.FrontAll TellsClauses [.endOfFile] (e.parts text) := by
    have hend := tells_of_loopFree (Env.honest_ofLimit _) (Env.keepsFronts_ofLimit _)
      e.rule_loopFree
      (e.run_rule text) (e.rule_makes (.ofText text) [] trivial) trivial
    rwa [State.Fronts, List.reverse_reverse] at hend
  have hroot : (Node.ofGreen (e.tree text)).green.Fronts TellsClauses [] := by
    rw [e.tree_eq]
    refine ⟨tellsClauses_of_ne (by cases e <;> rintro ⟨⟩) _ _,
      Green.frontAll_append.mpr ⟨?_, trivial, trivial⟩⟩
    rwa [steadyKinds_endOfFile, List.append_nil]
  have h := Node.fronts_of_mem_descendants (Node.way_ofGreen _) hroot hn
  rw [List.append_nil] at h
  exact h.1

end Entry

end SwiftTree
