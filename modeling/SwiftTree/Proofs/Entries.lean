import SwiftTree.Proofs.Conformance.Trees
import SwiftTree.Proofs.Evaluation
import SwiftTree.Proofs.Following

/-!
# Entries agree

A text can be parsed from several entries. Where their rules take the same way, the trees agree
(`Entry.agree`): a file with a single item has the tree of that item in it, a `return` statement is
the statement that starts with `return`, a closure on its own is an expression, and so is every
statement that is nothing else.

An outcome of one entry is carried over to another by the places where its rules end: a rule that
has an outcome has no other (`Parser.Ends.of_run`), whoever calls it.
-/

namespace SwiftTree

open Grammar

namespace Grammar.Parser

variable {σ : Type} [Assembly σ] {α β : Type} {n : Nat} {s u : State σ}

/-- A rule with an outcome has no other, however many calls and rounds it is granted. So one run is
enough to know where a rule ends. -/
theorem Ends.of_run {p : Parser α} {a : α} (h : p.run (.ofLimit n) s = some (a, u)) :
    p.Ends s a u := by
  intro m rounds r hr
  -- both environments do at most what a larger one does
  have hlarge : Env.Extends ⟨Goal.run m, rounds⟩ (.ofLimit (n + m + rounds) : Env σ) :=
    ⟨(Env.extends_ofLimit (by omega : m ≤ n + m + rounds)).call, by simp only [Env.ofLimit]; omega⟩
  have hboth := run_mono hlarge hr
  rw [run_mono (Env.extends_ofLimit (by omega : n ≤ n + m + rounds)) h] at hboth
  exact (Option.some.inj hboth).symm

/-- A rule that moves on wherever it has to has one outcome, with calls and rounds that suffice for
what is left. -/
theorem Steady.exists_ends {test : Ahead → Prop} {p : Parser α} (h : p.Steady test Goal.top)
    (ts : Ahead)
    (hts : test ts) (built : σ) :
    ∃ a t, p.run (.ofLimit (callLimit ts.left)) ⟨ts, built⟩ = some (a, t) ∧
      p.Ends ⟨ts, built⟩ a t := by
  obtain ⟨a, t, hrun, -⟩ := run_of_wp (s := ⟨ts, built⟩)
    (Env.grants_callLimit (Nat.le_refl _) (Nat.le_refl (callLimit ts.left)))
    (h ts Goal.top ts hts (.inr ⟨rfl, Nat.le_refl _⟩))
  exact ⟨a, t, hrun, .of_run hrun⟩

/-- A goal that is visited adds a single tree. -/
theorem exists_of_run_visit_ofLimit {g : Goal} {s t : State Forest} {a : Unit}
    (h : (visit g).run (.ofLimit n) s = some (a, t)) : ∃ tree, t.built = tree :: s.built := by
  obtain ⟨b, u, hcall, hpure⟩ := exists_run_of_bind h
  obtain ⟨-, rfl⟩ := Prod.mk.inj (Option.some.inj hpure)
  obtain ⟨⟨tree, hbuilt, -⟩, -⟩ := Env.honest_ofLimit n g s b u hcall
  exact ⟨tree, hbuilt⟩

end Grammar.Parser

namespace Grammar

open Grammar.Parser

/-! ## Skipping the rest of a text -/

/-- What is left of a text is skipped as one node. -/
theorem exists_skipAll_ends (x : Lexeme) (ts : Ahead) (built : Forest) :
    ∃ skipped, (skipUntil .empty).Ends ⟨x :: ts, built⟩ () ⟨[], skipped :: built⟩ := by
  have hlength : Ahead.skipLength (Ahead.isIn .empty) 0 (x :: ts) = ts.length + 1 :=
    Ahead.skipLength_of_never (fun us => KindSet.contains_empty us.kind) 0 (x :: ts)
  refine ⟨.node .unexpected (addAll (x :: ts) []).reverse, fun m rounds r hr => ?_⟩
  rw [run_skipUntil, hlength] at hr
  obtain rfl : ((), State.unexpected ts.length ⟨x :: ts, built⟩) = r := Option.some.inj hr
  rw [State.unexpected_cons, List.take_length, List.drop_length]
  rfl

/-! ## Where the rules of entries come together -/

namespace Ahead

/-- Whether an item of a list of statements can start with a token of a kind. -/
def canStart (k : Kind) : Bool :=
  statementKeywords.contains k || exprFirst.contains k || k.isOperator

/-- Where an item starts, no token stands that cannot start one. -/
theorem isAt_eq_false_of_startsItem {ts : Ahead} (h : ts.startsItem) {k : Kind}
    (hk : canStart k = false) : ts.isAt k = false := by
  rw [Bool.eq_false_iff]
  intro hat
  rw [← beq_iff_eq.mp hat, canStart, Bool.or_eq_false_iff, Bool.or_eq_false_iff] at hk
  rw [startsItem, startsStatement, startsExpr, isOperatorRef, isIn, isIn, hk.1.1, hk.1.2, hk.2] at h
  cases h

end Ahead

section Rules

variable {s t : State Forest}

/-- At `return` a statement is a `return` statement. -/
theorem statementRule_ends_return (hat : s.ahead.isAt .returnKw)
    (h : returnStatement.Ends s () t) : statementRule.Ends s () t :=
  .bind (.look (beq_iff_eq.mp hat)) h

/-- A statement that is nothing else is an expression. -/
theorem statementRule_ends_expr (hkeyword : s.ahead.isIn Ahead.statementKeywords = false)
    (hdecl : s.ahead.startsDecl = false) (hlabel : s.ahead.isLabeledStatement = false)
    (h : (expr .plain).Ends s () t) : statementRule.Ends s () t := by
  refine .bind (.look rfl) ?_
  rw [Ahead.isIn] at hkeyword
  split
  case h_18 =>
    refine .branch_not ?_ (.branch_not hlabel h)
    rw [hdecl, Bool.and_false]
  -- every other case is the one of a keyword
  all_goals
    rename_i hkind
    rw [hkind] at hkeyword
    cases hkeyword

/-- At an opening brace an operand is a closure. -/
theorem primary_ends_closure (hat : s.ahead.isAt .leftBrace)
    (h : (visit .closure).Ends s () t) : (primary .plain).Ends s false t := by
  have hkind := beq_iff_eq.mp hat
  refine .bind (.look hkind) (.branch_not ?_ (.bind h (.pure _ _)))
  simp only [Ahead.isSomeOrAny, Ahead.isWord, Ahead.isAt, hkind]
  rfl

/-- An operand at the end of a text is an expression, unless it starts with a name, an operator or
`try`. -/
theorem expr_ends_primary {k : Kind} (hkind : s.ahead.kind = k)
    (hk : k ≠ .identifier ∧ k ≠ .prefixOperator ∧ k ≠ .tryKw) {built : Forest}
    (h : (primary .plain).Ends s false ⟨[], built⟩) : (expr .plain).Ends s () ⟨[], built⟩ := by
  have hother {k' : Kind} (hne : k ≠ k') : s.ahead.isAt k' = false := by
    rw [Ahead.isAt, hkind]
    exact beq_eq_false_iff_ne.mpr hne
  have hword (w : String) : s.ahead.isWord w = false := by
    rw [Ahead.isWord, hother hk.1, Bool.false_and]
  have hoperand : (operandRule .plain).Ends s false ⟨[], built⟩ :=
    .bind h (.bind (.repeatWhile (.stop (.bind (.look rfl) (.pure _ _)))) (.pure _ _))
  have hunary : (unaryRule .plain 0).Ends s false ⟨[], built⟩ := by
    refine .branch_not ?_
      (.branch_not (hother hk.2.2) (.branch_not ?_ (.branch_not ?_ (.call hoperand))))
    · rw [hother hk.2.1, Bool.false_and]
    · rw [Ahead.isAwait, hword]
      rfl
    · rw [Ahead.isMove, hword]
      rfl
  exact .visit (.bind (.call hunary) (.repeatUntil (.stop (.bind (.look rfl) (.pure _ _)))))

/-- A closure at the end of a text is an expression. -/
theorem expr_ends_closure (hat : s.ahead.isAt .leftBrace) {built : Forest}
    (h : (visit .closure).Ends s () ⟨[], built⟩) : (expr .plain).Ends s () ⟨[], built⟩ :=
  expr_ends_primary (beq_iff_eq.mp hat) (by decide) (primary_ends_closure hat h)

end Rules

end Grammar

namespace Entry

open Grammar.Parser

/-! ## From outcomes to trees -/

variable {text : Text}

/-- Where the rules of an entry end, the parts are what they have added. -/
theorem parts_of_ends {e : Entry} {t : State Forest}
    (h : e.rule.Ends ⟨.ofText text, ([] : Forest)⟩ () t) : e.parts text = t.built.reverse := by
  obtain ⟨-, rfl⟩ := Prod.mk.inj (h _ _ _ (e.run_rule text))
  exact (List.reverse_reverse _).symm

/-- Constructs that end in the same place leave the same rest to skip. -/
theorem tree_congr {e e' : Entry} {p q : Parser Unit} (hroot : e'.root = e.root)
    (hrule : e.rule = do p; skipUntil .empty) (hrule' : e'.rule = do q; skipUntil .empty)
    (h : ∀ {t : State Forest}, p.Ends ⟨.ofText text, []⟩ () t → q.Ends ⟨.ofText text, []⟩ () t) :
    e'.tree text = e.tree text := by
  have hrun := e.run_rule text
  rw [hrule] at hrun
  obtain ⟨⟨⟩, t, hp, hskip⟩ := exists_run_of_bind hrun
  have hends : e'.rule.Ends ⟨.ofText text, []⟩ () ⟨[], (e.parts text).reverse⟩ := by
    rw [hrule']
    exact .bind (h (.of_run hp)) (.of_run hskip)
  rw [tree_eq, tree_eq, hroot, parts_of_ends hends, List.reverse_reverse]

/-- A goal that gives all there is of a text leaves nothing to skip. -/
theorem visit_ends_of_parts {goal : Goal} {e : Entry}
    (hrule : e.rule = do visit goal; skipUntil .empty) {g : Green} (hparts : e.parts text = [g]) :
    (visit goal).Ends ⟨.ofText text, ([] : Forest)⟩ () ⟨[], [g]⟩ := by
  have hrun := e.run_rule text
  rw [hrule, hparts] at hrun
  obtain ⟨⟨⟩, ⟨ts, built⟩, hvisit, hskip⟩ := exists_run_of_bind hrun
  obtain ⟨tree, rfl⟩ := exists_of_run_visit_ofLimit hvisit
  cases ts with
  | nil =>
    obtain ⟨-, hstate⟩ := Prod.mk.inj (Ends.skipUntil_nil _ _ _ _ _ hskip)
    have hends := Ends.of_run hvisit
    rw [← hstate] at hends
    exact hends
  | cons x ts =>
    -- what is skipped would be a second part
    obtain ⟨skipped, hends⟩ := exists_skipAll_ends x ts [tree]
    cases hends _ _ _ hskip

/-- The children of the root are the parts and the end of the file. -/
theorem parts_of_tree_eq {e : Entry} {kind : Kind} {eof : Green} (gs : List Green)
    (h : e.tree text = .node kind (gs ++ [eof])) :
    e.parts text = gs ∧ eof = .token (endOfFile text) := by
  rw [tree_eq] at h
  obtain ⟨-, hchildren⟩ := Green.node.inj h
  obtain ⟨hparts, heof⟩ := List.append_inj' hchildren rfl
  exact ⟨hparts, (List.cons.inj heof).1.symm⟩

/-- A file with a single item is a list of that item. -/
theorem sourceFile_ends {s : Green} (hstarts : (Ahead.ofText text).startsItem)
    (h : (visit .statement).Ends ⟨.ofText text, ([] : Forest)⟩ () ⟨[], [s]⟩) :
    sourceFile.rule.Ends ⟨.ofText text, ([] : Forest)⟩ () ⟨[], [.node .codeBlockItemList [s]]⟩ := by
  have hmore : (Ahead.ofText text).endsBody {} = false := by
    rw [Bool.eq_false_iff, ne_eq, Ahead.endsBody_file]
    intro hnil
    rw [hnil] at hstarts
    cases hstarts
  have hsemicolon := Ahead.isAt_eq_false_of_startsItem hstarts (k := .semicolon) rfl
  have hitem : (item {}).Ends ⟨.ofText text, ([] : Forest)⟩ () ⟨[], [s]⟩ :=
    .bind (.eat_not (beq_eq_false_iff_ne.mp hsemicolon)) (.branch hstarts h)
  have hlist : (statementsRule {}).Ends ⟨.ofText text, ([] : Forest)⟩ ()
      ⟨[], [.node .codeBlockItemList [s]]⟩ := by
    refine .node (.repeatWhile (.again (t := ⟨[], [s]⟩) ?_ (.stop (.branch_not rfl (.pure _ _)))))
    refine .branch ?_ (.bind hitem (.pure _ _))
    rw [Bool.not_eq_true']
    exact hmore
  exact .visit (.complete hlist)

end Entry

/-- **Entries agree.** Four ways to parse a text come to the same tree as another: a file that
starts with an item has the list of that item alone if the item, parsed as a statement, takes the
whole text; what starts with `return` is the same statement from either entry; a closure that takes
the whole text is an expression; and so is a statement that starts with neither a keyword of
statements, `#if` among them, nor a declaration nor a label. -/
theorem Entry.agree (text : Text) :
    let ts := Ahead.ofText text
    (∀ s eof, ts.startsItem → statement.tree text = .node .sourceFragment [s, eof] →
      sourceFile.tree text = .node .sourceFile [.node .codeBlockItemList [s], eof]) ∧
    (ts.isAt .returnKw → returnStatement.tree text = statement.tree text) ∧
    (∀ cs eof, ts.isAt .leftBrace →
      closure.tree text = .node .sourceFragment [.node .closureExpr cs, eof] →
        (expression .plain).tree text = closure.tree text) ∧
    (ts.isIn Ahead.statementKeywords = false → ts.startsDecl = false →
      ts.isLabeledStatement = false → statement.tree text = (expression .plain).tree text) := by
  refine ⟨fun s eof hstarts htree => ?_, fun hat => ?_, fun cs eof hat htree => ?_,
    fun hkeyword hdecl hlabel => ?_⟩
  · obtain ⟨hparts, rfl⟩ := parts_of_tree_eq [s] htree
    rw [tree_eq, parts_of_ends (sourceFile_ends hstarts (visit_ends_of_parts rfl hparts))]
    rfl
  · symm
    exact tree_congr rfl rfl rfl fun h => .visit (.complete (statementRule_ends_return hat h))
  · obtain ⟨hparts, rfl⟩ := parts_of_tree_eq [.node .closureExpr cs] htree
    have hexpr := expr_ends_closure hat (visit_ends_of_parts rfl hparts)
    have hends : (expression .plain).rule.Ends ⟨.ofText text, []⟩ () _ :=
      .bind hexpr (.skipUntil_nil _ _)
    rw [htree, tree_eq, parts_of_ends hends]
    rfl
  · exact tree_congr rfl rfl rfl fun h =>
      .visit (.complete (statementRule_ends_expr hkeyword hdecl hlabel h))

/-- The parts of a fragment, if they are two. -/
def Green.pair? : Green → Option (Green × Green)
  | .node .sourceFragment [g, h] => some (g, h)
  | _ => none

/-- A tree that is a pair is a fragment with the two. -/
theorem Green.eq_of_pair? {tree g h : Green} (hpair : tree.pair? = some (g, h)) :
    tree = .node .sourceFragment [g, h] := by
  unfold pair? at hpair
  split at hpair
  · cases hpair
    rfl
  · cases hpair

/-- `return {}` is an item and starts with `return`, `{}` is a closure, and `f(1)` starts with no
keyword. -/
theorem Entry.agree_items :
    let item : Text := "return \x7b\x7d".toList
    let closure : Text := "\x7b\x7d".toList
    let call : Text := "f(1)".toList
    (∃ s eof, (Ahead.ofText item).startsItem ∧
      statement.tree item = .node .sourceFragment [s, eof] ∧
      sourceFile.tree item = .node .sourceFile [.node .codeBlockItemList [s], eof]) ∧
    ((Ahead.ofText item).isAt .returnKw ∧ returnStatement.tree item = statement.tree item) ∧
    (∃ cs eof, (Ahead.ofText closure).isAt .leftBrace ∧
      Entry.closure.tree closure = .node .sourceFragment [.node .closureExpr cs, eof] ∧
      (expression .plain).tree closure = Entry.closure.tree closure) ∧
    ((Ahead.ofText call).isIn Ahead.statementKeywords = false ∧
      (Ahead.ofText call).startsDecl = false ∧
      (Ahead.ofText call).isLabeledStatement = false ∧
      statement.tree call = (expression .plain).tree call) := by
  intro item closure call
  have hitem : (Ahead.ofText item).startsItem := Ahead.of_stream? (n := 20) (by decide +kernel)
  have hreturn : (Ahead.ofText item).isAt .returnKw :=
    Ahead.of_stream? (n := 20) (by decide +kernel)
  have hbrace : (Ahead.ofText closure).isAt .leftBrace :=
    Ahead.of_stream? (n := 20) (by decide +kernel)
  have hother : (!(Ahead.ofText call).isIn Ahead.statementKeywords &&
    !(Ahead.ofText call).startsDecl
      && !(Ahead.ofText call).isLabeledStatement) = true :=
    Ahead.of_stream? (n := 20) (p := fun ts => !ts.isIn Ahead.statementKeywords && !ts.startsDecl
      && !ts.isLabeledStatement) (by decide +kernel)
  simp only [Bool.and_eq_true, Bool.not_eq_true'] at hother
  obtain ⟨⟨hkeyword, hdecl⟩, hlabel⟩ := hother
  obtain ⟨s, eof, htree⟩ : ∃ s eof, statement.tree item = .node .sourceFragment [s, eof] := by
    have hpair : (statement.tree item).pair?.isSome :=
      of_tree? (n := 20) (p := fun tree => tree.pair?.isSome) (by decide +kernel)
    obtain ⟨⟨s, eof⟩, h⟩ := Option.isSome_iff_exists.mp hpair
    exact ⟨s, eof, Green.eq_of_pair? h⟩
  obtain ⟨cs, ceof, hclosure⟩ : ∃ cs eof, Entry.closure.tree closure
      = .node .sourceFragment [.node .closureExpr cs, eof] := by
    have hpair : (Entry.closure.tree closure).pair?.any fun p => p.1.isNode &&
      p.1.kind == .closureExpr :=
      of_tree? (n := 20) (p := fun tree => tree.pair?.any fun p => p.1.isNode &&
        p.1.kind == .closureExpr)
        (by decide +kernel)
    obtain ⟨⟨g, eof⟩, h, hg⟩ := (Option.any_eq_true ..).mp hpair
    rw [Bool.and_eq_true, beq_iff_eq] at hg
    cases g with
    | leaf l => cases hg.1
    | node kind cs =>
      obtain rfl : kind = .closureExpr := hg.2
      exact ⟨cs, eof, Green.eq_of_pair? h⟩
  refine ⟨⟨s, eof, hitem, htree, ?_⟩, ⟨hreturn, ?_⟩, ⟨cs, ceof, hbrace, hclosure, ?_⟩,
    ⟨hkeyword, hdecl, hlabel, ?_⟩⟩
  · exact (agree item).1 s eof hitem htree
  · exact (agree item).2.1 hreturn
  · exact (agree closure).2.2.1 cs ceof hbrace hclosure
  · exact (agree call).2.2.2 hkeyword hdecl hlabel

end SwiftTree
