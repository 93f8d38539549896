import SwiftTree.Proofs.Entries
import SwiftTree.Proofs.Precedence

/-!
# Operators as they stand in a text

A phrase is a row of operands and operators among the tokens ahead, with nothing grouped
(`Grammar.Ahead.Phrase`). It only says which tokens are operators, by their kinds, and lists the
words of an expression in the order in which they stand there. What an operand is, or a type behind
`as`, is left to the rules for these.

The rule of sequences reads all of a phrase into one expression
(`Grammar.Ahead.Phrase.exists_sequence`), and that expression has the words of the phrase. As words
have one grouping by powers, it is known from the phrase alone.

The rule calls itself with the right power of an operator, and leaves the operators that are weaker
to its caller. So what is proved of it by induction on the words is that it takes some of the words
in front, and that the next one is an operator that is too weak (`Grammar.Ahead.SequencesRead`).
-/

namespace SwiftTree

open Grammar

namespace Grammar

open Green (Word nextPower? powerOf?)
open Grammar.Parser

namespace Ahead

/-! ## Phrases -/

/-- What stands before an operand: a prefix operator, or a word. Its kind is that of the node that
it makes of the operand, and the trees are those of its tokens. -/
inductive IsBefore : Ahead → Kind → List Green → Ahead → Prop where
  | operator {x : Lexeme} {ts : Ahead} (hkind : x.kind = .prefixOperator)
      (hname : isOperatorRef (x :: ts) = false) :
      IsBefore (x :: ts) .prefixExpr [.token x.token] ts
  | tryWord {x : Lexeme} {ts : Ahead} (hkind : x.kind = .tryKw)
      (hmark : (isAt .postfixOperator ts && adjacent ts) = false) :
      IsBefore (x :: ts) .tryExpr [.token x.token] ts
  | tryMark {x y : Lexeme} {ts : Ahead} (hkind : x.kind = .tryKw)
      (hmark : y.kind = .postfixOperator)
      (hadjacent : y.adjacent) :
      IsBefore (x :: y :: ts) .tryExpr [.token x.token, .token y.token] ts
  | awaitWord {x : Lexeme} {ts : Ahead} (hword : isAwait (x :: ts)) :
      IsBefore (x :: ts) .awaitExpr [.token { x.token with kind := .awaitKw }] ts
  | moveWord {x : Lexeme} {ts : Ahead} (hword : isMove (x :: ts)) :
      IsBefore (x :: ts) .moveExpr [.token { x.token with kind := .moveKw }] ts

/-- An operand, with everything that is attached behind it. Nothing stands before it, and it is what
the rule of operands makes of it. -/
structure IsOperand (mode : Mode) (ts : Ahead) (g : Green) (us : Ahead) : Prop where
  alone : ∀ kind parts vs, ¬ts.IsBefore kind parts vs
  ends : ∀ built : Forest, (operandRule mode).Ends ⟨ts, built⟩ false ⟨us, g :: built⟩

/-- An operator that has an operand on either side, with what belongs to it: the middle of a ternary
operator, and the effects before an arrow. -/
inductive IsBetween (mode : Mode) : Ahead → Kind → List Green → Ahead → Prop where
  | binary {x : Lexeme} {ts : Ahead} (hkind : x.kind = .binaryOperator ∨ x.kind = .equal) :
      IsBetween mode (x :: ts) .binaryExpr [.token x.token] ts
  | ternary {x y : Lexeme} {ts us : Ahead} {middle : Green} (hkind : x.kind = .infixQuestionMark)
      (hmiddle : ∀ built : Forest, (expr mode).Ends ⟨ts, built⟩ () ⟨y :: us, middle :: built⟩)
      (hcolon : y.kind = .colon) :
      IsBetween mode (x :: ts) .ternaryExpr [.token x.token, middle, .token y.token] us
  | arrow {y : Lexeme} {ts us : Ahead} {effects : List Green}
      (hkind : ts.kind = .arrow ∨ ts.kind = .throwsKw ∨ ts.kind = .rethrowsKw ∨ ts.isAsyncArrow)
      (heffects : ∀ built : Forest,
        effectSpecifiers.Ends ⟨ts, built⟩ () ⟨y :: us, effects.reverse ++ built⟩)
      (harrow : y.kind = .arrow) :
      IsBetween mode ts .arrowExpr (effects ++ [.token y.token]) us

/-- An operator that has a type behind it. -/
inductive IsBehind : Ahead → Kind → List Green → Ahead → Prop where
  | cast {x : Lexeme} {ts us : Ahead} {type : Green} (hkind : x.kind = .asKw)
      (hmark : (isAt .postfixOperator ts && (isSpelled "?" ts || isSpelled "!" ts)) = false)
      (htype : ∀ built : Forest, Grammar.type.Ends ⟨ts, built⟩ () ⟨us, type :: built⟩) :
      IsBehind (x :: ts) .castExpr [.token x.token, type] us
  | castMark {x y : Lexeme} {ts us : Ahead} {type : Green} (hkind : x.kind = .asKw)
      (hmark : y.kind = .postfixOperator) (htext : y.text = ['?'] ∨ y.text = ['!'])
      (htype : ∀ built : Forest, Grammar.type.Ends ⟨ts, built⟩ () ⟨us, type :: built⟩) :
      IsBehind (x :: y :: ts) .castExpr [.token x.token, .token y.token, type] us
  | test {x : Lexeme} {ts us : Ahead} {type : Green} (hkind : x.kind = .isKw)
      (htype : ∀ built : Forest, Grammar.type.Ends ⟨ts, built⟩ () ⟨us, type :: built⟩) :
      IsBehind (x :: ts) .isExpr [.token x.token, type] us

/-- Words as they stand among the tokens ahead, and what is left behind them. The flag says whether
an operand comes next, or stands before. In the condition of a directive no operator starts a
line. -/
inductive Phrase (mode : Mode) : Bool → Ahead → List Word → Ahead → Prop where
  | done {us : Ahead} : Phrase mode false us [] us
  | operand {ts us vs : Ahead} {g : Green} {ws : List Word} (h : IsOperand mode ts g us)
      (hws : Phrase mode false us ws vs) : Phrase mode true ts (.operand g :: ws) vs
  | before {ts us vs : Ahead} {kind : Kind} {parts : List Green} {ws : List Word}
      (h : IsBefore ts kind parts us) (hws : Phrase mode true us ws vs) :
      Phrase mode true ts (.before kind parts :: ws) vs
  | between {ts us vs : Ahead} {kind : Kind} {parts : List Green} {ws : List Word}
      (hline : (mode.directive && ts.atLineStart) = false) (h : IsBetween mode ts kind parts us)
      (hws : Phrase mode true us ws vs) : Phrase mode false ts (.between kind parts :: ws) vs
  | behind {ts us vs : Ahead} {kind : Kind} {parts : List Green} {ws : List Word}
      (hline : (mode.directive && ts.atLineStart) = false) (h : IsBehind ts kind parts us)
      (hws : Phrase mode false us ws vs) : Phrase mode false ts (.behind kind parts :: ws) vs

/-! ## What rules make of single words -/

theorem isAt_of_isAwait {ts : Ahead} (h : ts.isAwait) : ts.isAt .identifier :=
  Bool.and_elim_left (Bool.and_elim_left (Bool.and_elim_left (Bool.and_elim_left h)))

theorem isAt_of_isMove {ts : Ahead} (h : ts.isMove) : ts.isAt .identifier :=
  Bool.and_elim_left (Bool.and_elim_left (Bool.and_elim_left h))

/-- The operand that the rule of operands has made is none of the nodes that operators make. -/
theorem IsOperand.exists_node {mode : Mode} {ts us : Ahead} {g : Green}
    (h : IsOperand mode ts g us) :
    ∃ kind cs, g = .node kind cs ∧ kind.isOperation = false := by
  have hsteady : (Grammar.call (.operand mode)).Steady (fun _ => True) Goal.top := .callAny
  obtain ⟨missing, t, hrun, -⟩ := hsteady.exists_ends ts trivial ([] : Forest)
  have hends : (Grammar.call (.operand mode)).Ends ⟨ts, []⟩ false ⟨us, [g]⟩ := .call (h.ends [])
  obtain ⟨-, rfl⟩ := Prod.mk.inj (hends _ _ _ hrun)
  obtain ⟨⟨g', hbuilt, hgives⟩, -⟩ := Env.honest_ofLimit _ _ _ _ _ hrun
  obtain rfl : g = g' := (List.cons.inj hbuilt).1
  have hshape : (Shape.node Kind.isOperand).Matches [g] := hgives.shape
  obtain ⟨kind, cs, hg, hkind⟩ := hshape.exists_node
  exact ⟨kind, cs, List.singleton_inj.mp hg, Kind.isOperation_of_isOperand hkind⟩

section

variable {mode : Mode} {power : Nat} {ts us vs : Ahead} {kind : Kind} {parts : List Green}
  {g : Green}

/-- An operand with nothing before it is read by the rule of operands. -/
theorem IsOperand.unary_ends (h : IsOperand mode ts g us) (built : Forest) :
    (unaryRule mode power).Ends ⟨ts, built⟩ false ⟨us, g :: built⟩ := by
  refine .branch_not ?_ (.branch_not ?_ (.branch_not ?_ (.branch_not ?_ (.call (h.ends built)))))
  · rw [Bool.eq_false_iff]
    intro hop
    obtain ⟨hat, hname⟩ := Bool.and_eq_true _ _ |>.mp hop
    obtain ⟨x, us, hkind, rfl⟩ := cons_of_isAt rfl hat
    exact h.alone _ _ _ (.operator hkind (Bool.not_eq_true' _ |>.mp hname))
  · rw [Bool.eq_false_iff]
    intro hat
    obtain ⟨x, us, hkind, rfl⟩ := cons_of_isAt rfl hat
    by_cases hmark : isAt .postfixOperator us && adjacent us
    · obtain ⟨hop, hadjacent⟩ := Bool.and_eq_true _ _ |>.mp hmark
      obtain ⟨y, us, hsuffix, rfl⟩ := cons_of_isAt rfl hop
      exact h.alone _ _ _ (.tryMark hkind hsuffix hadjacent)
    · exact h.alone _ _ _ (.tryWord hkind (Bool.eq_false_iff.mpr hmark))
  · rw [Bool.eq_false_iff]
    intro hword
    obtain ⟨x, us, -, rfl⟩ := cons_of_isAt rfl (isAt_of_isAwait hword)
    exact h.alone _ _ _ (.awaitWord hword)
  · rw [Bool.eq_false_iff]
    intro hword
    obtain ⟨x, us, -, rfl⟩ := cons_of_isAt rfl (isAt_of_isMove hword)
    exact h.alone _ _ _ (.moveWord hword)

/-- What stands before an operand makes a node of what is read behind it: of a sequence if it covers
that, and otherwise of an operand. -/
theorem IsBefore.unary_ends (h : IsBefore ts kind parts us) : kind.isPrefixed ∧
    ∀ {vs : Ahead} {g : Green}, (Grammar.call (if kind.isCovering then .sequence mode power
        else .unary mode power)).Ends ⟨us, parts.reverse⟩ false ⟨vs, g :: parts.reverse⟩ →
      ∀ built : Forest, (unaryRule mode power).Ends ⟨ts, built⟩ false
        ⟨vs, .node kind (parts ++ [g]) :: built⟩ := by
  refine ⟨by cases h <;> rfl, fun {vs g} hbehind built => ?_⟩
  cases h with
  | @operator x us hkind hname =>
    refine .branch ?_ (.forestNode [g, .token x.token] ((Ends.advance x us []).bind hbehind) rfl)
    show (x.kind == .prefixOperator && !isOperatorRef (x :: us)) = true
    rw [hname, hkind]
    rfl
  | @tryWord x us hkind hmark =>
    refine .branch_not ?_ (.branch (beq_iff_eq.mpr hkind) (.forestNode [g, .token x.token]
      ((Ends.advance x us []).bind (.bind (.ifAhead_not hmark) hbehind)) rfl))
    rw [isAt, show Ahead.kind (x :: us) = .tryKw from hkind]
    rfl
  | @tryMark x y us hkind hmark hadjacent =>
    refine .branch_not ?_ (.branch (beq_iff_eq.mpr hkind)
      (.forestNode [g, .token y.token, .token x.token] ((Ends.advance x _ []).bind
        (.bind (.ifAhead ?_ (.advance y us _)) hbehind)) rfl))
    · rw [isAt, show Ahead.kind (x :: y :: us) = .tryKw from hkind]
      rfl
    · show (y.kind == .postfixOperator && y.adjacent) = true
      rw [hmark, hadjacent]
      rfl
  | @awaitWord x us hword =>
    have hkind : Ahead.kind (x :: us) = .identifier := beq_iff_eq.mp (isAt_of_isAwait hword)
    refine .branch_not ?_ (.branch_not ?_ (.branch hword
      (.forestNode [g, .token { x.token with kind := .awaitKw }] (.bind (.take _ _) hbehind) rfl)))
    · rw [isAt, hkind]
      rfl
    · rw [isAt, hkind]
      rfl
  | @moveWord x us hword =>
    have hkind : Ahead.kind (x :: us) = .identifier := beq_iff_eq.mp (isAt_of_isMove hword)
    have htext : Ahead.text (x :: us) = "_move".toList :=
      beq_iff_eq.mp (Bool.and_elim_right (Bool.and_elim_left (Bool.and_elim_left hword)))
    refine .branch_not ?_ (.branch_not ?_ (.branch_not ?_ (.branch hword
      (.forestNode [g, .token { x.token with kind := .moveKw }] (.bind (.take _ _) hbehind) rfl))))
    · rw [isAt, hkind]
      rfl
    · rw [isAt, hkind]
      rfl
    · rw [isAwait, isWord, isSpelled, htext]
      simp

/-- Tokens that are binary operators by their kind are seen as such, with the power of their
node. -/
theorem exists_infixOperator_binary {x : Lexeme}
    (hline : (mode.directive && atLineStart (x :: us)) = false)
    (hkind : x.kind = .binaryOperator ∨ x.kind = .equal) :
    ∃ p, infixOperator mode (x :: us) = some (.binary, p) ∧
      powerOf? .binaryExpr [.token x.token] = some p := by
  have hpower : powerOf? .binaryExpr [.token x.token]
      = some (if x.token.kind = .equal then .assignment else .ofOperator x.token.text) :=
    congrArg (fun text =>
      some (if x.token.kind = .equal then Power.assignment else .ofOperator text))
      (Token.text_outline x.token)
  rw [infixOperator, hline, if_neg Bool.false_ne_true, hpower]
  rcases hkind with hkind | hkind
  · rw [show Ahead.kind (x :: us) = .binaryOperator from hkind,
      show x.token.kind = .binaryOperator from hkind]
    exact ⟨_, rfl, rfl⟩
  · rw [show Ahead.kind (x :: us) = .equal from hkind, show x.token.kind = .equal from hkind]
    exact ⟨_, rfl, rfl⟩

/-- So is what starts an arrow. -/
theorem infixOperator_arrow (hline : (mode.directive && ts.atLineStart) = false)
    (hkind : ts.kind = .arrow ∨ ts.kind = .throwsKw ∨ ts.kind = .rethrowsKw ∨ ts.isAsyncArrow) :
    ts.infixOperator mode = some (.arrow, .rightGrouping 2) := by
  rw [infixOperator, hline, if_neg Bool.false_ne_true]
  rcases hkind with hkind | hkind | hkind | hkind
  · rw [hkind]
  · rw [hkind]
  · rw [hkind]
  · have hname : ts.kind = .identifier :=
      beq_iff_eq.mp (Bool.and_elim_left (Bool.and_elim_left hkind))
    rw [hname]
    exact if_pos hkind

/-- An operator between operands is seen as one, with the power that its node has. The node is made
of the operand before it, of its own tokens, and of a sequence behind them. -/
theorem IsBetween.exists_infix (h : IsBetween mode ts kind parts us)
    (hline : (mode.directive && ts.atLineStart) = false) :
    ∃ op p, ts.infixOperator mode = some (op, p) ∧ op.kind.1 = kind ∧ kind.hasRightOperand ∧
      powerOf? kind parts = some p ∧ ∀ {q : Nat} {vs : Ahead} {g : Green},
        (Grammar.call (.sequence mode q)).Ends ⟨us, parts.reverse⟩ false ⟨vs, g :: parts.reverse⟩ →
        (rightSide mode op q).Ends ⟨ts, ([] : Forest)⟩ false ⟨vs, g :: parts.reverse⟩ := by
  cases h with
  | @binary x us hkind =>
    obtain ⟨p, hfixity, hpower⟩ := exists_infixOperator_binary hline hkind
    exact ⟨.binary, p, hfixity, rfl, rfl, hpower,
      fun hbehind => (Ends.advance x us []).bind hbehind⟩
  | @ternary x y us ws middle hkind hmiddle hcolon =>
    have hfixity : infixOperator mode (x :: us) = some (.ternary, .rightGrouping 3) := by
      rw [infixOperator, hline, if_neg Bool.false_ne_true,
        show Ahead.kind (x :: us) = .infixQuestionMark from hkind]
    refine ⟨.ternary, _, hfixity, rfl, rfl, rfl, fun hbehind => ?_⟩
    exact (Ends.advance x us []).bind ((hmiddle _).bind ((Ends.require hcolon).bind hbehind))
  | @arrow y _ ws effects hkind heffects harrow =>
    refine ⟨.arrow, _, infixOperator_arrow hline hkind, rfl, rfl, rfl, fun hbehind => ?_⟩
    have hparts : (effects ++ [Green.token y.token]).reverse = .token y.token :: effects.reverse :=
      List.reverse_concat
    rw [hparts] at hbehind ⊢
    have heffects := heffects []
    rw [List.append_nil] at heffects
    exact heffects.bind ((Ends.require harrow).bind hbehind)

/-- An operator with a type behind it is seen as one, too. Its node is made of the operand before
it, of its own tokens and of the type. -/
theorem IsBehind.exists_infix (h : IsBehind ts kind parts us)
    (hline : (mode.directive && ts.atLineStart) = false) :
    ∃ op p, ts.infixOperator mode = some (op, p) ∧ op.kind.1 = kind ∧ kind.isInfix ∧
      kind.hasRightOperand = false ∧ powerOf? kind parts = some p ∧
      ∀ q, (rightSide mode op q).Ends ⟨ts, ([] : Forest)⟩ false ⟨us, parts.reverse⟩ := by
  cases h with
  | @cast x ts _ type hkind hmark htype =>
    have hfixity : infixOperator mode (x :: ts) = some (.cast, .leftGrouping 9) := by
      rw [infixOperator, hline, if_neg Bool.false_ne_true,
        show Ahead.kind (x :: ts) = .asKw from hkind]
    refine ⟨.cast, _, hfixity, rfl, rfl, rfl, rfl, fun q => ?_⟩
    exact (Ends.advance x ts []).bind (.bind (.ifAhead_not hmark) ((htype _).bind (.pure _ _)))
  | @castMark x y ts _ type hkind hmark htext htype =>
    have hfixity : infixOperator mode (x :: y :: ts) = some (.cast, .leftGrouping 9) := by
      rw [infixOperator, hline, if_neg Bool.false_ne_true,
        show Ahead.kind (x :: y :: ts) = .asKw from hkind]
    refine ⟨.cast, _, hfixity, rfl, rfl, rfl, rfl, fun q => ?_⟩
    refine (Ends.advance x _ []).bind
      (.bind (.ifAhead ?_ (.advance y ts _)) ((htype _).bind (.pure _ _)))
    show (y.kind == .postfixOperator && (y.text == ['?'] || y.text == ['!'])) = true
    rw [hmark]
    rcases htext with htext | htext <;> rw [htext] <;> rfl
  | @test x ts _ type hkind htype =>
    have hfixity : infixOperator mode (x :: ts) = some (.test, .leftGrouping 9) := by
      rw [infixOperator, hline, if_neg Bool.false_ne_true,
        show Ahead.kind (x :: ts) = .isKw from hkind]
    refine ⟨.test, _, hfixity, rfl, rfl, rfl, rfl, fun q => ?_⟩
    exact (Ends.advance x ts []).bind ((htype _).bind (.pure _ _))

end

/-! ## Sequences -/

/-- A round of the loop over operators. -/
def operatorRound (mode : Mode) (power : Nat) : Parser (Option Bool) := do
  match ← look (Ahead.infixOperator mode) with
  | none => return some false
  | some (op, p) =>
    if p.left < power then
      return some false
    else
      let missing ← Parser.enclose op.kind (rightSide mode op p.right)
      return if missing then some true else none

/-- Whether words do not go on with an operator of at least a power. -/
def WeakerThan (power : Nat) (ws : List Word) : Prop := ∀ p ∈ nextPower? ws, p.left < power

/-- Whether an expression is read that has some of the words of a phrase, up to tokens where the
phrase goes on with the others. -/
def ReadsInto (mode : Mode) (ws : List Word) (vs : Ahead) (stops : List Word → Prop)
    (reads : Green → Ahead → Prop) : Prop :=
  ∃ g back us, ws = g.words ++ back ∧ g.isNode ∧ Phrase mode false us back vs ∧ stops back ∧
    reads g us

/-- Whether the rule of sequences reads phrases of fewer words than a number, up to an operator that
is too weak. -/
def SequencesRead (mode : Mode) (vs : Ahead) (bound : Nat) : Prop :=
  ∀ ⦃ts : Ahead⦄ ⦃ws : List Word⦄, ws.length < bound → Phrase mode true ts ws vs → ∀ power : Nat,
    ReadsInto mode ws vs (WeakerThan power) fun g us =>
      ∀ built : Forest, (sequenceRule mode power).Ends ⟨ts, built⟩ false ⟨us, g :: built⟩

section

variable {mode : Mode} {power bound : Nat} {ts us vs : Ahead} {g : Green} {ws : List Word}

/-- An operand is read with what stands before it, by induction on how much that is. -/
theorem Phrase.unary_reads (power : Nat) (hsequences : SequencesRead mode vs bound)
    (hlen : ws.length ≤ bound)
    (h : Phrase mode true ts ws vs) : ReadsInto mode ws vs (fun _ => True) fun g us =>
      ∀ built : Forest, (unaryRule mode power).Ends ⟨ts, built⟩ false ⟨us, g :: built⟩ := by
  induction ws generalizing ts with
  | nil => cases h
  | cons w ws ih =>
    cases h with
    | @operand _ us _ g _ hoperand hws =>
      obtain ⟨kind, cs, rfl, hkind⟩ := hoperand.exists_node
      refine ⟨_, ws, us, ?_, rfl, hws, trivial, hoperand.unary_ends⟩
      rw [Green.words_operand hkind]
      rfl
    | @before _ us _ kind parts _ hbefore hws =>
      obtain ⟨hprefixed, hreads⟩ := hbefore.unary_ends
      have hwords (g : Green) (back : List Word) :
          Word.before kind parts :: (g.words ++ back) = (Green.node kind (parts ++ [g])).words ++
            back := by
        rw [Green.words_before hprefixed]
        rfl
      cases hcovering : kind.isCovering with
      | true =>
        obtain ⟨g, back, us', rfl, -, hback, -, hends⟩ :=
          hsequences (Nat.lt_of_succ_le hlen) hws power
        refine ⟨_, back, us', hwords g back, rfl, hback, trivial, hreads ?_⟩
        rw [hcovering, if_pos rfl]
        exact .call (hends _)
      | false =>
        obtain ⟨g, back, us', rfl, -, hback, -, hends⟩ := ih (Nat.le_of_succ_le hlen) hws
        refine ⟨_, back, us', hwords g back, rfl, hback, trivial, hreads ?_⟩
        rw [hcovering, if_neg Bool.false_ne_true]
        exact .call (hends _)

/-- Where no operator comes, or a weak one, the loop over operators ends. -/
theorem operatorRound_stop (built : Forest)
    (h : ∀ op p, us.infixOperator mode = some (op, p) → p.left < power) :
    (operatorRound mode power).Ends ⟨us, built⟩ (some false) ⟨us, built⟩ := by
  refine (Ends.look rfl).bind ?_
  split
  · exact .pure _ _
  · rename_i op p heq
    rw [if_pos (h op p heq)]
    exact .pure _ _

/-- Where one comes that is not, it makes a node of what was read, and the loop goes on. -/
theorem operatorRound_again {op : Infix} {p : Power} {gs : Forest} (hg : g.isNode) (built : Forest)
    (hfixity : us.infixOperator mode = some (op, p)) (hpower : ¬p.left < power)
    (hreads : (rightSide mode op p.right).Ends ⟨us, ([] : Forest)⟩ false ⟨ts, gs⟩) :
    (operatorRound mode power).Ends ⟨us, g :: built⟩ none
      ⟨ts, .node op.kind.1 (g :: gs.reverse) :: built⟩ := by
  refine (Ends.look hfixity).bind ?_
  dsimp only
  rw [if_neg hpower]
  exact (Ends.forestEnclose hg hreads).bind (.pure _ _)

/-- Operators are read behind an expression as long as they are strong enough, by induction on how
many words there are. -/
theorem Phrase.operators_read (power : Nat) (hsequences : SequencesRead mode vs bound)
    (hlen : ws.length ≤ bound)
    (hvs : vs.infixOperator mode = none) (hg : g.isNode) (h : Phrase mode false us ws vs) :
    ReadsInto mode (g.words ++ ws) vs (WeakerThan power) fun g' us' => ∀ built : Forest,
      (operatorRound mode power).Turns ⟨us, g :: built⟩ false ⟨us', g' :: built⟩ := by
  induction hn : ws.length using Nat.strongRecOn generalizing us g ws with
  | _ n ih =>
    cases h with
    | done =>
      refine ⟨g, [], vs, rfl, hg, .done, nofun, fun built => .stop (operatorRound_stop _ ?_)⟩
      rw [hvs]
      exact nofun
    | @between _ us' _ kind parts ws hline hbetween hws =>
      obtain ⟨op, p, hfixity, rfl, hright, hpower, hreads⟩ := hbetween.exists_infix hline
      by_cases hweak : p.left < power
      · refine ⟨g, _, us, rfl, hg, .between hline hbetween hws, ?_, fun built =>
          .stop (operatorRound_stop _ ?_)⟩
        · intro q hq
          obtain rfl := Option.some.inj (hpower.symm.trans hq)
          exact hweak
        · rw [hfixity]
          rintro _ _ ⟨⟩
          exact hweak
      · -- the operand behind the operator is a sequence, and what that leaves is left to the loop
        obtain ⟨r, back, us'', rfl, -, hback, -, hends⟩ :=
          hsequences (Nat.lt_of_succ_le hlen) hws p.right
        have hlt : back.length < n := by
          rw [← hn, List.length_cons, List.length_append]
          omega
        obtain ⟨g', rest, us''', hwords, hg', hrest, hstops, hturns⟩ := ih back.length hlt
          (g := .node op.kind.1 (g :: (parts ++ [r]))) (by omega) rfl hback rfl
        refine ⟨g', rest, us''', ?_, hg', hrest, hstops, fun built => .again ?_ (hturns built)⟩
        · rw [← hwords, Green.words_between hright, List.append_assoc]
          rfl
        · have hround := operatorRound_again hg built hfixity hweak (hreads (.call (hends _)))
          rwa [List.reverse_cons, List.reverse_reverse] at hround
    | @behind _ us' _ kind parts ws hline hbehind hws =>
      obtain ⟨op, p, hfixity, rfl, hjoin, hright, hpower, hreads⟩ := hbehind.exists_infix hline
      by_cases hweak : p.left < power
      · refine ⟨g, _, us, rfl, hg, .behind hline hbehind hws, ?_, fun built =>
          .stop (operatorRound_stop _ ?_)⟩
        · intro q hq
          obtain rfl := Option.some.inj (hpower.symm.trans hq)
          exact hweak
        · rw [hfixity]
          rintro _ _ ⟨⟩
          exact hweak
      · have hlt : ws.length < n := by
          rw [← hn, List.length_cons]
          omega
        obtain ⟨g', rest, us'', hwords, hg', hrest, hstops, hturns⟩ := ih ws.length hlt
          (g := .node op.kind.1 (g :: parts)) (by omega) rfl hws rfl
        refine ⟨g', rest, us'', ?_, hg', hrest, hstops, fun built => .again ?_ (hturns built)⟩
        · rw [← hwords, Green.words_behind hjoin hright, List.append_assoc]
          rfl
        · have hround := operatorRound_again hg built hfixity hweak (hreads p.right)
          rwa [List.reverse_reverse] at hround

/-- Phrases are read by the rule of sequences up to an operator that is too weak. -/
theorem sequencesRead (hvs : vs.infixOperator mode = none) (bound : Nat) :
    SequencesRead mode vs bound := by
  induction bound with
  | zero =>
    intro ts ws hlen
    exact absurd hlen (Nat.not_lt_zero _)
  | succ bound ih =>
    intro ts ws hlen h power
    have hlen : ws.length ≤ bound := Nat.le_of_lt_succ hlen
    obtain ⟨u, back, us, rfl, hu, hback, -, hunary⟩ := h.unary_reads power ih hlen
    rw [List.length_append] at hlen
    obtain ⟨g, rest, us', hwords, hg, hrest, hstops, hturns⟩ :=
      hback.operators_read power ih (by omega) hvs hu
    refine ⟨g, rest, us', hwords, hg, hrest, hstops, fun built => ?_⟩
    have hcall : (Grammar.call (.unary mode power)).Ends ⟨ts, built⟩ false ⟨us, u :: built⟩ :=
      .call (hunary built)
    exact hcall.bind (.repeatUntil (hturns built))

/-- **A phrase is read as one expression.** The rule of sequences reads all of its words, and they
are the words of the expression. It stops where the phrase ends, since no operator follows there. -/
theorem Phrase.exists_sequence (h : Phrase mode true ts ws vs)
    (hvs : vs.infixOperator mode = none) :
    ∃ g : Green, g.isNode ∧ g.words = ws ∧ ∀ built : Forest,
      (sequenceRule mode 0).Ends ⟨ts, built⟩ false ⟨vs, g :: built⟩ := by
  obtain ⟨g, back, us, rfl, hg, hback, hstops, hends⟩ :=
    sequencesRead hvs _ (Nat.lt_succ_self _) h 0
  cases hback with
  | done => exact ⟨g, hg, (List.append_nil _).symm, hends⟩
  | between hline hbetween =>
    obtain ⟨_, p, -, -, -, hpower, -⟩ := hbetween.exists_infix hline
    exact absurd (hstops p hpower) (Nat.not_lt_zero _)
  | behind hline hbehind =>
    obtain ⟨_, p, -, -, -, -, hpower, -⟩ := hbehind.exists_infix hline
    exact absurd (hstops p hpower) (Nat.not_lt_zero _)

/-- An operand that no operator follows is an expression on its own. -/
theorem IsOperand.expr_ends (h : IsOperand mode ts g us) (hus : us.infixOperator mode = none)
    (built : Forest) : (expr mode).Ends ⟨ts, built⟩ () ⟨us, g :: built⟩ := by
  have hstop : ∀ op p, us.infixOperator mode = some (op, p) → p.left < 0 := by
    rw [hus]
    exact nofun
  exact .visit (.bind (.call (h.unary_ends built))
    (.repeatUntil (.stop (operatorRound_stop _ hstop))))

/-- **The words of a phrase are grouped by powers.** Whatever rule asks for an expression gets the
one that powers make of the words, and goes on behind them. The calls that the text grants are
enough. -/
theorem Phrase.exists_grouping (h : Phrase mode true ts ws vs)
    (hvs : vs.infixOperator mode = none) :
    ∃ g : Green, g.IsGrouping ws ∧ ∀ built : Forest,
      (expr mode).run (.ofLimit (callLimit ts.left)) ⟨ts, built⟩ = some ((), ⟨vs, g :: built⟩) ∧
        (expr mode).Ends ⟨ts, built⟩ () ⟨vs, g :: built⟩ := by
  obtain ⟨g, -, rfl, hends⟩ := h.exists_sequence hvs
  have hsteady : (Grammar.call (.sequence mode 0)).Steady (fun _ => True) Goal.top := .callAny
  have hrun (built : Forest) : (Grammar.call (.sequence mode 0)).run (.ofLimit (callLimit ts.left))
      ⟨ts, built⟩ = some (false, ⟨vs, g :: built⟩) := by
    have hcall : (Grammar.call (.sequence mode 0)).Ends ⟨ts, built⟩ false ⟨vs, g :: built⟩ :=
      .call (hends built)
    obtain ⟨missing, t, hrun, -⟩ := hsteady.exists_ends ts trivial built
    rw [hrun, hcall _ _ _ hrun]
  obtain ⟨⟨g', hbuilt, hgives⟩, -⟩ := Env.honest_ofLimit _ _ _ _ _ (hrun [])
  obtain rfl : g = g' := (List.cons.inj hbuilt).1
  refine ⟨g, Green.isGrouping_of_proper (hgives.strict.imp fun _ _ h => h.toAdmits) hgives.shape,
    fun built => ⟨?_, .visit (hends built)⟩⟩
  exact run_bind_of_run (hrun built)

end

end Ahead

end Grammar

end SwiftTree
