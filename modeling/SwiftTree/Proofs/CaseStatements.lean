import SwiftTree.Proofs.Entries
import SwiftTree.Proofs.Stability.Statements

/-!
# Statements in a case of a `switch`

A conditional compilation block that is a statement on its own is one in a case of a `switch` as
well (`file_ends_of_block`): what is between `#if` and `#endif` does not depend on the end behind it
(`Goal.rule_stable`), and nothing of it belongs to the `switch` if the block is not taken for one of
cases (`Ahead.isCaseBlock`). It is taken for one only where `case` or `default` stands outside of
braces (`Ahead.isCaseBlock_eq_false`).
-/

namespace SwiftTree.Grammar

open Grammar.Parser

/-! ## Following a clean way -/

namespace Parser

variable {α β : Type} {n rounds : Nat} {ts us : Ahead}

/-- What is done one after the other is done in clean states. -/
theorem exists_of_run_bind {first : Parser α} {next : α → Parser β} {b : β}
    (h : (first >>= next).run ⟨Goal.run n, rounds⟩ (.clean ts) = some (b, .clean us)) :
    ∃ a ms, first.run ⟨Goal.run n, rounds⟩ (.clean ts) = some (a, .clean ms) ∧
      (next a).run ⟨Goal.run n, rounds⟩ (.clean ms) = some (b, .clean us) := by
  obtain ⟨a, t, hfirst, hnext⟩ := exists_run_of_bind h
  obtain ⟨ms, rfl⟩ := eq_clean_of_run hnext
  exact ⟨a, ms, hfirst, hnext⟩

/-- What a node is made of is found in a clean way if the node is. -/
theorem run_of_run_node {body : Parser α} {kind : Kind} {hk : kind.isConstruct} {a : α}
    (h : (Grammar.node kind body hk).run ⟨Goal.run n, rounds⟩ (.clean ts) = some (a, .clean us)) :
    body.run ⟨Goal.run n, rounds⟩ (.clean ts) = some (a, .clean us) := by
  change (Parser.mark _).run _ _ = _ at h
  rw [run_mark] at h
  split at h
  · cases h
  · rename_i kind' b t hbody
    obtain ⟨rfl, ht⟩ := Prod.mk.inj (Option.some.inj h)
    obtain ⟨rfl, -⟩ := State.eq_clean_of_leave ht
    obtain ⟨c, ms, hrun, hpure⟩ := @exists_of_run_bind _ _ n rounds ts _ body _ _ hbody
    obtain ⟨hanswer, hms⟩ := Prod.mk.inj (Option.some.inj hpure)
    obtain ⟨-, rfl⟩ := Prod.mk.inj hanswer
    rw [hrun, hms]

/-- What `eat` does to the tokens ahead, whatever is put together. -/
theorem run_eat {σ : Type} [Assembly σ] {env : Env σ} {k : Kind} {s : State σ} :
    (eat k).run env s = if s.ahead.isAt k then some (true, s.take none) else some (false, s) := by
  rw [eat, isAt, run_look_bind]
  split
  · rfl
  · rfl

/-- A token that is required is there. -/
theorem cons_of_run_require {k : Kind} {hk : k.isSolid} {a : Unit}
    (h : (require k hk).run ⟨Goal.run n, rounds⟩ (.clean ts) = some (a, .clean us)) :
    ∃ x, x.kind = k ∧ ts = x :: us := by
  obtain ⟨found, ms, hexpect, hpure⟩ := exists_of_run_bind h
  obtain ⟨-, hms⟩ := Prod.mk.inj (Option.some.inj hpure)
  rw [hms] at hexpect
  obtain ⟨taken, ms, heat, hrest⟩ := exists_of_run_bind hexpect
  rw [run_eat] at heat
  split at heat
  · rename_i hat
    obtain ⟨x, xs, hx, rfl⟩ := Ahead.cons_of_isAt hk hat
    obtain ⟨rfl, ht⟩ := Prod.mk.inj (Option.some.inj heat)
    obtain rfl : xs = ms := congrArg State.ahead ht
    obtain rfl : xs = us := congrArg State.ahead (Prod.mk.inj (Option.some.inj hrest)).2
    exact ⟨x, hx, rfl⟩
  · obtain ⟨rfl, -⟩ := Prod.mk.inj (Option.some.inj heat)
    cases hrest

end Parser

namespace Parser.Ends

variable {α : Type} {ts us : Ahead} {a : α}

/-- A rule within a node ends where the rule ends. -/
theorem cleanNode {body : Parser α} {kind : Kind} {hk : kind.isConstruct}
    (h : body.Ends (.clean ts) a (.clean us)) :
    (Grammar.node kind body hk).Ends (.clean ts) a (.clean us) := by
  have hnode := @Ends.node _ _ _ (.clean ts) _ a body kind hk h
  have hkind : (some kind).all Kind.isWanted := Kind.isWanted_of_isConstruct hk
  rwa [State.leave_clean us hkind] at hnode

/-- A rule that chooses the kind of its node ends where the rule for the parts ends. -/
theorem cleanNodeBy {body : Parser (Construct × α)} {kind : Construct}
    (h : body.Ends (.clean ts) (kind, a) (.clean us)) :
    (Grammar.nodeBy body).Ends (.clean ts) a (.clean us) := by
  have hnode := Ends.nodeBy (s := .clean ts) h
  have hkind : (some kind.1).all Kind.isWanted := Kind.isWanted_of_isConstruct kind.2
  rwa [State.leave_clean us hkind] at hnode

theorem cleanAdvance (x : Lexeme) (ts : Ahead) :
    Grammar.advance.Ends (.clean (x :: ts)) () (.clean ts) :=
  advance x ts _

theorem cleanEat {k : Kind} {x : Lexeme} (h : x.kind = k) (ts : Ahead) :
    (Grammar.eat k).Ends (.clean (x :: ts)) true (.clean ts) := eat h

theorem cleanExpect {k : Kind} {hk : k.isSolid} {x : Lexeme} (h : x.kind = k) (ts : Ahead) :
    (Grammar.expect k hk).Ends (.clean (x :: ts)) true (.clean ts) :=
  (cleanEat h ts).bind (pure _ _)

theorem cleanRequire {k : Kind} {hk : k.isSolid} {x : Lexeme} (h : x.kind = k) (ts : Ahead) :
    (Grammar.require k hk).Ends (.clean (x :: ts)) () (.clean ts) := require h

/-- A loop of a single round. -/
theorem whileAhead_once {σ : Type} [Assembly σ] {s t : State σ} {test : Ahead → Bool}
    {rule : Parser Unit} (htest : test s.ahead) (h : rule.Ends s () t)
    (hstop : test t.ahead = false) :
    (Grammar.whileAhead test rule).Ends s () t :=
  .repeatWhile (.again (.branch htest (h.bind (.pure _ _))) (.stop (.branch_not hstop (.pure _ _))))

end Parser.Ends

/-! ## The block at the end of a file -/

theorem run_statementRule_of_block {σ : Type} [Assembly σ] {env : Env σ} {s : State σ}
    (hat : s.ahead.isAt .poundIf) : statementRule.run env s
      = (ifConfig (.statements { braced := true, directive := true })).run env s := by
  rw [statementRule, run_look_bind, beq_iff_eq.mp hat]

/-- A conditional compilation block with which a file ends is the same before a brace. -/
theorem ifConfig_ends_of_run {content : Goal} {n rounds : Nat} {ts vs : Ahead}
    (h : (ifConfig content).run ⟨Goal.run n, rounds⟩ (.clean ts) = some ((), .clean []))
    (hvs : Ahead.Braced ts vs) :
    ∃ b, b.ClosesBlock ∧ (ifConfig content).Ends (.clean vs) () (.clean [b]) := by
  obtain ⟨_, ms, hclause, hrest⟩ := exists_of_run_bind (run_of_run_node h)
  obtain ⟨_, ns, hclauses, hrequire⟩ := exists_of_run_bind hrest
  obtain ⟨x, hx, rfl⟩ := cons_of_run_require hrequire
  have hcalls : ∀ g, Goal.StableFor n g := Goal.stableFor Goal.rule_stable n
  have hms : ms ≠ [] := by
    obtain ⟨ms', hms', hne⟩ := clean_of_run hclauses (List.cons_ne_nil x [])
    obtain rfl : ms = ms' := congrArg State.ahead hms'
    exact hne
  obtain ⟨ws, hws, hends⟩ := ifConfigClause_stable hcalls hclause hms vs hvs
  obtain ⟨xs, hxs, hends'⟩ := ifConfigClauses_stable hcalls hclauses (List.cons_ne_nil x []) ws hws
  cases hxs with
  | @cons _ y _ us halike _ hb =>
    cases hb with
    | @nil b hb =>
      exact ⟨b, hb, .cleanNode
        (hends.bind (hends'.bind (.cleanRequire (halike.kind.symm.trans hx) _)))⟩

/-! ## The block in a case -/

/-- The list of statements of a case. -/
abbrev Body.ofCase : Body := { braced := true, directive := true, inCase := true }

/-- The statements of a case do not end at a conditional compilation block, unless it is one of
cases. -/
theorem Ahead.endsBody_ofCase {ts : Ahead} (hat : ts.isAt .poundIf)
    (hblock : ts.isCaseBlock = false) :
    ts.endsBody .ofCase = false := by
  have hkind : ts.kind = .poundIf := beq_iff_eq.mp hat
  rw [endsBody, hblock, startsCase, isAt, isAt, isAt, isAt, isAt, isIn, hkind]
  rfl

/-- Whether `case` or `default` stands outside of braces, of which some are open. -/
def Ahead.hasOpenCase (braces : Nat) : Ahead → Bool
  | [] => false
  | x :: ts =>
    match x.kind with
    | .leftBrace => hasOpenCase (braces + 1) ts
    | .rightBrace => hasOpenCase (braces - 1) ts
    | .caseKw | .defaultKw => braces == 0 || hasOpenCase braces ts
    | _ => hasOpenCase braces ts

/-- As long as `case` and `default` stand in braces only, the scan goes on or answers that they do
not. -/
theorem Ahead.step_blockCases {x : Lexeme} {ts : Ahead} {s : BlockState}
    (h : hasOpenCase s.braces (x :: ts) = false) :
    (∃ t, blockCases.step s x ts = .inl t ∧ hasOpenCase t.braces ts = false) ∨
      blockCases.step s x ts = .inr false := by
  rw [hasOpenCase] at h
  simp only [blockCases]
  -- both look at the kind of the token; a case outside of braces is what `h` rules out
  split at h
  · rename_i hkind
    simp only [hkind]
    exact .inl ⟨_, rfl, h⟩
  · rename_i hkind
    simp only [hkind]
    split
    · exact .inr rfl
    · exact .inl ⟨_, rfl, h⟩
  · rename_i hkind
    obtain ⟨hbraces, hrest⟩ := Bool.or_eq_false_iff.mp h
    simp only [hkind, hbraces]
    exact .inl ⟨_, rfl, hrest⟩
  · rename_i hkind
    obtain ⟨hbraces, hrest⟩ := Bool.or_eq_false_iff.mp h
    simp only [hkind, hbraces]
    exact .inl ⟨_, rfl, hrest⟩
  · rename_i hleft hright hcase hdefault
    split
    · exact .inl ⟨_, rfl, h⟩
    · split
      · exact .inr rfl
      · exact .inl ⟨_, rfl, h⟩
    · exact absurd ‹_› hleft
    · exact absurd ‹_› hright
    · exact absurd ‹_› hcase
    · exact absurd ‹_› hdefault
    · exact .inl ⟨_, rfl, h⟩

/-- Where they stand in braces only, the scan answers that the block holds no cases. -/
theorem Ahead.answer_blockCases {ts : Ahead} {s : BlockState}
    (h : hasOpenCase s.braces ts = false) :
    blockCases.answer s ts = false := by
  induction ts generalizing s with
  | nil => rfl
  | cons x ts ih =>
    rw [Scan.answer, Scan.run]
    rcases step_blockCases h with ⟨t, hgo, hrest⟩ | hstop
    · rw [hgo]
      exact ih hrest
    · rw [hstop]

/-- A block in which `case` and `default` only stand in braces is none of cases. This is the only
thing that a case has to know of a block to leave it to its statements. -/
theorem Ahead.isCaseBlock_eq_false {ts : Ahead} (h : hasOpenCase 0 ts = false) :
    ts.isCaseBlock = false := by
  cases ts with
  | nil => rfl
  | cons x ts =>
    cases hat : Ahead.isAt .poundIf (x :: ts) with
    | false => rw [isCaseBlock, hat, Bool.false_and]
    | true =>
      have hkind : x.kind = .poundIf := beq_iff_eq.mp hat
      rw [hasOpenCase, hkind] at h
      rw [isCaseBlock, hat, List.tail_cons, answer_blockCases h]
      rfl

section Block

variable {vs : Ahead} {b : Lexeme}

/-- A block is the only statement of a case. -/
theorem statements_ends_of_block (hat : vs.isAt .poundIf) (hblock : vs.isCaseBlock = false)
    (hb : b.ClosesBlock)
    (h : (ifConfig (.statements { braced := true, directive := true })).Ends (.clean vs) ()
      (.clean [b])) :
    (visit (.statements .ofCase)).Ends (.clean vs) () (.clean [b]) := by
  have hkind : vs.kind = .poundIf := beq_iff_eq.mp hat
  have hstatement : statementRule.Ends (.clean vs) () (.clean [b]) := .bind (.look hkind) h
  have hno : vs.kind ≠ .semicolon := by
    rw [hkind]
    decide
  have hstarts : vs.startsItem := by
    rw [Ahead.startsItem, Ahead.startsStatement, Ahead.isIn, Ahead.isAt, hkind]
    rfl
  have hitem : (item .ofCase).Ends (.clean vs) () (.clean [b]) :=
    (Ends.eat_not hno).bind (.branch hstarts (.visit (.complete hstatement)))
  have hgoes : (!vs.endsBody .ofCase) = true := by
    rw [Ahead.endsBody_ofCase hat hblock]
    rfl
  have hstops : (!Ahead.endsBody .ofCase [b]) = false := by
    have hbrace : Ahead.isAt .rightBrace [b] := beq_iff_eq.mpr hb.kind
    rw [Ahead.endsBody, hbrace]
    simp
  exact .visit (.complete (.cleanNode (.whileAhead_once hgoes hitem hstops)))

end Block

/-! ## The case around the statements -/

/-- A token that is an expression on its own, in a mode and before a token that goes on with
none. -/
structure Lexeme.IsOperand (x : Lexeme) (mode : Mode) (ts : Ahead) : Prop where
  primary : (primary mode).Ends (.clean (x :: ts)) false (.clean ts)
  not_prefix : x.kind ≠ .prefixOperator
  not_try : x.kind ≠ .tryKw
  not_await : (Ahead.isWord "await" (x :: ts)) = false
  not_move : (Ahead.isWord "_move" (x :: ts)) = false
  no_suffix : ts.suffix? mode = none
  no_operator : ts.infixOperator mode = none

variable {x : Lexeme} {ts : Ahead} {mode : Mode}

/-- A token that is an operand on its own is read as an expression, since what is behind it goes on
with none. -/
theorem Lexeme.IsOperand.sequence_ends (h : x.IsOperand mode ts) (power : Nat) :
    (visit (.sequence mode power)).Ends (.clean (x :: ts)) () (.clean ts) := by
  have hoperand : (call (.operand mode)).Ends (.clean (x :: ts)) false (.clean ts) :=
    .call (.bind h.primary
      (.bind (.repeatWhile (.stop (.bind (.look h.no_suffix) (.pure _ _)))) (.pure _ _)))
  have hunary : (call (.unary mode power)).Ends (.clean (x :: ts)) false (.clean ts) := by
    refine .call (.branch_not ?_ (.branch_not ?_ (.branch_not ?_ (.branch_not ?_ hoperand))))
    · exact Bool.and_eq_false_imp.mpr fun hat => absurd (beq_iff_eq.mp hat) h.not_prefix
    · exact beq_eq_false_iff_ne.mpr h.not_try
    · show Ahead.isAwait (x :: ts) = false
      rw [Ahead.isAwait, h.not_await]
      rfl
    · show Ahead.isMove (x :: ts) = false
      rw [Ahead.isMove, h.not_move]
      rfl
  exact .visit (.bind hunary (.repeatUntil (.stop (.bind (.look h.no_operator) (.pure _ _)))))

/-- A name before a brace is an expression in a header. -/
theorem isOperand_name {b : Lexeme} (hx : x.kind = .identifier) (htext : x.text = ['x'])
    (hb : b.kind = .leftBrace) : x.IsOperand .header (b :: ts) := by
  have hword {s : String} (hs : s.toList ≠ ['x']) : Ahead.isWord s (x :: b :: ts) = false := by
    simp [Ahead.isWord, Ahead.isSpelled, Ahead.text, htext, hs.symm]
  have hkind : Ahead.kind (x :: b :: ts) = .identifier := hx
  refine ⟨?_, by simp [hx], by simp [hx], hword (by decide), hword (by decide), ?_, ?_⟩
  · refine .bind (.look hkind) (.branch_not ?_ ?_)
    · show Ahead.isSomeOrAny (x :: b :: ts) = false
      rw [Ahead.isSomeOrAny, hword (by decide), hword (by decide)]
      rfl
    · refine .bind (.branch_not rfl (.bind (.cleanNode (.cleanAdvance x _)) (.ifAhead_not ?_)))
        (.pure _ _)
      simp [State.clean, Ahead.isGenericArguments, Ahead.isAdjacentAngle, Ahead.isOperatorFrom,
        Ahead.kind, hb, Kind.isOperator]
  · simp [Ahead.suffix?, Ahead.kind, hb, Mode.header]
  · simp [Ahead.infixOperator, Ahead.kind, hb]

/-- A number before a colon is an operand on its own. -/
theorem isOperand_number {c : Lexeme} (hx : x.kind = .integerLiteral) (hc : c.kind = .colon) :
    x.IsOperand .plain (c :: ts) := by
  have hword {s : String} : Ahead.isWord s (x :: c :: ts) = false := by
    simp [Ahead.isWord, Ahead.isAt, Ahead.kind, hx]
  have hkind : Ahead.kind (x :: c :: ts) = .integerLiteral := hx
  refine ⟨?_, by simp [hx], by simp [hx], hword, hword, ?_, ?_⟩
  · refine .bind (.look hkind) (.branch_not ?_ ?_)
    · show Ahead.isSomeOrAny (x :: c :: ts) = false
      rw [Ahead.isSomeOrAny, hword, hword]
      rfl
    · exact .bind (.cleanNode (.cleanAdvance x _)) (.pure _ _)
  · simp [Ahead.suffix?, Ahead.kind, hc]
  · simp [Ahead.infixOperator, Ahead.kind, hc]

/-- The tokens of `switch x {` and `case 1:`. -/
inductive Ahead.OpensCase : Ahead → Prop where
  | intro {switch x brace case one colon : Lexeme} (hswitch : switch.kind = .switchKw)
      (hx : x.kind = .identifier) (hname : x.text = ['x']) (hbrace : brace.kind = .leftBrace)
      (hcase : case.kind = .caseKw) (hone : one.kind = .integerLiteral)
        (hcolon : colon.kind = .colon) :
      OpensCase [switch, x, brace, case, one, colon]

section Header

variable {vs : Ahead} {b : Lexeme}

/-- A number is read as the pattern of a case, up to the colon. -/
theorem casePattern_ends {one colon : Lexeme} (hone : one.kind = .integerLiteral)
    (hcolon : colon.kind = .colon) :
    (visit (.casePattern .plain)).Ends (.clean (one :: colon :: vs)) () (.clean (colon :: vs)) := by
  have hkind : Ahead.kind (one :: colon :: vs) = .integerLiteral := hone
  have hat {k : Kind} (hk : k ≠ .integerLiteral) : Ahead.isAt k (one :: colon :: vs) = false := by
    rw [Ahead.isAt, hkind]
    exact beq_eq_false_iff_ne.mpr hk.symm
  refine .visit (.complete (.branch_not ?_ (.branch_not ?_ (.branch_not ?_ (.branch_not rfl ?_)))))
  · show (Ahead.isAt .letKw (one :: colon :: vs) || Ahead.isAt .varKw (one :: colon :: vs)) = false
    rw [hat (by decide), hat (by decide)]
    rfl
  · exact hat (by decide)
  · show (Ahead.isAt .underscore (one :: colon :: vs) && _) = false
    rw [hat (by decide)]
    rfl
  · exact .cleanNode ((isOperand_number hone hcolon).sequence_ends _)

/-- A label with a number as its pattern is read up to behind the colon. -/
theorem caseLabel_ends {case one colon : Lexeme} (hcase : case.kind = .caseKw)
    (hone : one.kind = .integerLiteral) (hcolon : colon.kind = .colon) :
    caseLabel.Ends (.clean (case :: one :: colon :: vs)) () (.clean vs) := by
  have hat {k : Kind} (hk : k ≠ .colon) : Ahead.isAt k (colon :: vs) = false := by
    rw [Ahead.isAt, Ahead.kind, hcolon]
    exact beq_eq_false_iff_ne.mpr hk.symm
  have hitem : (do
      visit (.casePattern .plain)
      whereClause .plain : Parser Unit).Ends (.clean (one :: colon :: vs)) ()
        (.clean (colon :: vs)) :=
    .bind (casePattern_ends hone hcolon) (.ifAhead_not (hat (by decide)))
  have hcomma : (eat .comma).Ends (.clean (colon :: vs)) false (.clean (colon :: vs)) :=
    .eat_not fun h => absurd (hcolon.symm.trans h) (by decide)
  have hlist : (node .caseItemList do
      commaList .caseItem (fun _ => false) do
        visit (.casePattern .plain)
        whereClause .plain).Ends (.clean (one :: colon :: vs)) () (.clean (colon :: vs)) :=
    .cleanNode (.repeatWhile (.stop (.bind (a := false) (.cleanNode (hitem.bind hcomma))
      (.bind (.look rfl) (.pure _ _)))))
  exact .cleanNodeBy (.bind (.cleanEat hcase _)
    (.bind hlist (.bind (.cleanRequire hcolon _)
      (.pure ((⟨.switchCaseLabel, rfl⟩ : Construct), ()) _))))

/-- The statements of a case end at the brace of the `switch`. -/
theorem switchCase_ends {case one colon : Lexeme} (hcase : case.kind = .caseKw)
    (hone : one.kind = .integerLiteral) (hcolon : colon.kind = .colon)
    (h : (visit (.statements .ofCase)).Ends (.clean vs) () (.clean [b])) :
    switchCase.Ends (.clean (case :: one :: colon :: vs)) () (.clean [b]) := by
  have hat : Ahead.isAt .atSign (case :: one :: colon :: vs) = false := by
    rw [Ahead.isAt, Ahead.kind, hcase]
    rfl
  exact .cleanNode (.bind (.ifAhead_not hat) (.bind (caseLabel_ends hcase hone hcolon) h))

/-- A `switch` with this one case is read up to its closing brace, if the statements of the case
are. -/
theorem switchCases_ends {case one colon : Lexeme} (hcase : case.kind = .caseKw)
    (hone : one.kind = .integerLiteral) (hcolon : colon.kind = .colon) (hb : b.ClosesBlock)
    (h : (visit (.statements .ofCase)).Ends (.clean vs) () (.clean [b])) :
    (visit (.switchCases false)).Ends (.clean (case :: one :: colon :: vs)) () (.clean [b]) := by
  have hkind : Ahead.kind (case :: one :: colon :: vs) = .caseKw := hcase
  have hgoes : (!Ahead.endsCases false (case :: one :: colon :: vs)) = true := by
    rw [Ahead.endsCases, Ahead.isAt, Ahead.isAt, hkind]
    rfl
  have hstops : (!Ahead.endsCases false [b]) = false := by
    rw [Ahead.endsCases, Ahead.isAt, Ahead.isAt, show Ahead.kind [b] = .rightBrace from hb.kind]
    rfl
  have hstarts : Ahead.startsCase (case :: one :: colon :: vs) := by
    rw [Ahead.startsCase, Ahead.isAt, hkind]
    rfl
  have hitem : caseItem.Ends (.clean (case :: one :: colon :: vs)) () (.clean [b]) :=
    .branch hstarts (switchCase_ends hcase hone hcolon h)
  exact .visit (.complete (.cleanNode (.whileAhead_once hgoes hitem hstops)))

/-- A file that is a `switch` with a case of statements has nothing wrong in it. -/
theorem file_ends_of_case {header : Ahead} (hheader : header.OpensCase) (hb : b.ClosesBlock)
    (h : (visit (.statements .ofCase)).Ends (.clean vs) () (.clean [b])) :
    (visit (.statements {})).Ends (.clean (header ++ vs)) () (.clean []) := by
  cases hheader with
  | @intro switch x brace case one colon hswitch hx hname hbrace hcase hone hcolon =>
    -- the header is read token by token, up to the colon of the case
    let ts : Ahead := switch :: x :: brace :: case :: one :: colon :: vs
    have hkind : ts.kind = .switchKw := hswitch
    have hswitchStatement : switchStatement.Ends (.clean ts) () (.clean []) := by
      have hexpr : (expr .header).Ends (.clean (x :: brace :: case :: one :: colon :: vs)) ()
          (.clean (brace :: case :: one :: colon :: vs)) :=
        (isOperand_name hx hname hbrace).sequence_ends 0
      exact .cleanNode (.bind (.cleanAdvance switch _) (.bind hexpr (.bind (.cleanExpect hbrace _)
        (.bind (switchCases_ends hcase hone hcolon hb h) (.cleanRequire hb.kind _)))))
    have hstatement : statementRule.Ends (.clean ts) () (.clean []) := by
      refine .bind (.look hkind) ?_
      exact hswitchStatement
    have hstarts : ts.startsItem := by
      rw [Ahead.startsItem, Ahead.startsStatement, Ahead.isIn, Ahead.isAt, hkind]
      rfl
    have hno : ts.kind ≠ .semicolon := by
      rw [hkind]
      decide
    have hgoes : (!ts.endsBody {}) = true := by
      rw [Bool.not_eq_true', Bool.eq_false_iff]
      exact fun hends => List.cons_ne_nil _ _ (Ahead.endsBody_file.mp hends)
    have hitem : (item {}).Ends (.clean ts) () (.clean []) :=
      (Ends.eat_not hno).bind (.branch hstarts (.visit (.complete hstatement)))
    exact .visit (.complete (.cleanNode (.whileAhead_once hgoes hitem rfl)))

end Header

/-- **A block that is a statement is one in a case.** A block that is a statement of its own with
nothing wrong in it is read in the same way in a case of a `switch`, and the `switch` around it is
read to its end. -/
theorem file_ends_of_block {n rounds : Nat} {ts vs header : Ahead}
    (h : statementRule.run ⟨Goal.run n, rounds⟩ (.clean ts) = some ((), .clean []))
    (hat : ts.isAt .poundIf) (hcases : Ahead.hasOpenCase 0 ts = false) (hvs : Ahead.Braced ts vs)
    (hheader : header.OpensCase) :
    (visit (.statements {})).Ends (.clean (header ++ vs)) () (.clean []) := by
  rw [run_statementRule_of_block hat] at h
  obtain ⟨b, hb, hends⟩ := ifConfig_ends_of_run h hvs
  have hat' : vs.isAt .poundIf := by
    rw [← Ahead.Agrees.isAt (P := fun _ => True) .poundIf rfl hvs trivial]
    exact hat
  have hblock : vs.isCaseBlock = false := by
    rw [← Ahead.Agrees.isCaseBlock (P := fun _ => True) hvs trivial]
    exact Ahead.isCaseBlock_eq_false hcases
  exact file_ends_of_case hheader hb (statements_ends_of_block hat' hblock hb hends)

end SwiftTree.Grammar
