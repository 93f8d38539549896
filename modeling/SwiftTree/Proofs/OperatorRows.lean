import SwiftTree.Proofs.Phrases
import SwiftTree.Proofs.Signs

/-!
# Rows of operands and operators as text

A `Row` is a row of names with binary and ternary operators between them, written with a blank on
either side of each operator. Any text can be the spelling of a binary operator that is read as one
between blanks (`Token.isSpacedOperator`).

The tokens of a row are those that it is written with (`Row.stream_text`), and they are a phrase
(`Row.phrase`). So the expression that is read from a row has the words of the row, in their order.
Which operator gets which operand is then a matter of their powers alone (`Entry.precedence`). Of
ternary operators, each belongs to the last operand of the one before it, however many there are
(`Row.parts_chain`).
-/

namespace SwiftTree

open Grammar Text Token

/-! ## Operators between blanks -/

namespace Token

/-- Whether a text is read as an operator between operands if there are blanks around it. -/
def isSpacedOperator : Text → Bool
  | [] => false
  | c :: cs =>
    isOperatorChar c && !(c == '/' && (peek cs == '/' || peek cs == '*'))
      && operatorLength (c == '.') (cs ++ [' ']) == cs.length
      && (operatorKind (c :: cs) false false == .binaryOperator
        || operatorKind (c :: cs) false false == .equal)

/-- All operators that have a level of their own are read so, and assignment. -/
theorem isSpacedOperator_of_mem_table :
    isSpacedOperator ['='] ∧ ∀ row ∈ Power.table, ∀ s ∈ row.1, isSpacedOperator s.toList := by
  decide

/-- Behind a blank, nothing belongs to an operator. -/
theorem operatorLength_blank (dotted : Bool) (cs rest : Text) :
    operatorLength dotted (cs ++ ' ' :: rest) = operatorLength dotted (cs ++ [' ']) := by
  induction cs with
  | nil => rfl
  | cons c cs ih =>
    have hpeek : peek (cs ++ ' ' :: rest) = peek (cs ++ [' ']) := by cases cs <;> rfl
    rw [List.cons_append, List.cons_append, operatorLength, operatorLength, hpeek, ih]

/-- An operator that a blank follows does not touch what is behind it. -/
theorem rightBound_blank (left : Bool) (rest : Text) : rightBound left (' ' :: rest) = false := rfl

/-- An operator behind a token with a blank does not touch it. -/
theorem leftBound_blank {t : Token} (h : t.trailing = blank) : leftBound (some t) [] = false := by
  rw [leftBound, Option.any_some, h]
  rfl

/-- Nothing touches a token with a blank behind it. -/
theorem touches_of_blank {prev : Token} (h : prev.trailing = blank) (t : Token) :
    t.touches (some prev) = false := by
  rw [touches, Option.any_some, h]
  rfl

/-- What starts with a character of an operator is an operator, behind an operand and if it is none
of a few other things. -/
theorem plain_of_isOperatorChar {t : Token} {c : Char} (h : isOperatorChar c)
    (ht : endsOperand.contains t.kind) (leading : Trivia) {cs : Text}
    (hplaceholder : (c == '<' && peek cs == '#') = false) :
    plain (some t) leading c cs = operator (some t) leading c cs := by
  have hregex : regexAllowed (some t) cs = false := by
    rw [regexAllowed, Option.any_some, ht, Bool.not_true, Bool.and_false]
  unfold plain
  split
  case h_15 =>
    have hdigit : c.isDigit = false := eq_false_of_contains rfl h
    have hname : isNameStart c = false := eq_false_of_contains rfl h
    rw [hdigit, hplaceholder, hregex, hname, h, Bool.and_false]
    rfl
  all_goals exact absurd h (by decide)

end Token

/-- An operator between operands. -/
structure Operator where
  /-- how it is written -/
  text : Text
  /-- it is read as an operator between blanks -/
  isSpaced : Token.isSpacedOperator text = true
deriving DecidableEq

namespace Operator

/-- The operator with the blank behind it. -/
def token (op : Operator) : Token := ⟨[], operatorKind op.text false false, op.text, blank⟩

theorem trailing_token (op : Operator) : op.token.trailing = blank := rfl

/-- An operator between operands is a binary operator or the equals sign. -/
theorem kind_cases (op : Operator) :
    op.token.kind = .binaryOperator ∨ op.token.kind = .equal := by
  obtain ⟨text, h⟩ := op
  cases text with
  | nil => cases h
  | cons c cs =>
    rw [isSpacedOperator, Bool.and_eq_true, Bool.or_eq_true] at h
    exact h.2.imp beq_iff_eq.mp beq_iff_eq.mp

/-- No comment starts where an operator does, and no blank. -/
theorem piece?_eq_none (side : Trivia.Side) {c : Char} {cs : Text} (h : isSpacedOperator (c :: cs))
    (rest : Text) : Trivia.piece? side c (cs ++ ' ' :: rest) = none := by
  rw [isSpacedOperator, Bool.and_eq_true, Bool.and_eq_true, Bool.and_eq_true,
    Bool.not_eq_true'] at h
  obtain ⟨⟨⟨hc, hcomment⟩, -⟩, -⟩ := h
  have hne {d : Char} (hd : isOperatorChar d = false) : c ≠ d := by
    rintro rfl
    rw [hc] at hd
    cases hd
  have hblank : isBlank c = false := eq_false_of_contains rfl hc
  have hslash : ∀ d, d ≠ ' ' → (c == '/' && peek cs == d) = false →
      (c == '/' && peek (cs ++ ' ' :: rest) == d) = false := by
    intro d hd h
    cases cs with
    | nil => exact Bool.and_eq_false_iff.mpr (.inr (beq_eq_false_iff_ne.mpr hd.symm))
    | cons => exact h
  rw [Bool.and_or_distrib_left, Bool.or_eq_false_iff] at hcomment
  rw [Trivia.piece?, beq_eq_false_iff_ne.mpr (hne rfl), beq_eq_false_iff_ne.mpr (hne rfl),
    hslash '/' (by decide) hcomment.1, hslash '*' (by decide) hcomment.2, hblank]
  rfl

/-- Nothing of an operator belongs to the token before it. -/
theorem scan_text (op : Operator) (rest : Text) :
    Trivia.scan .trailing (op.text ++ ' ' :: rest) = ([], op.text ++ ' ' :: rest) := by
  obtain ⟨text, h⟩ := op
  cases text with
  | nil => cases h
  | cons c cs =>
    rw [List.cons_append, Trivia.scan, piece?_eq_none .trailing h]

/-- An operator is read behind an operand with a blank. -/
theorem readsBefore (op : Operator) {t : Token} {rest : Text} (ht : endsOperand.contains t.kind)
    (htrailing : t.trailing = blank) (hrest : Trivia.scan .trailing rest = ([], rest)) :
    ReadsBefore (some t) op.token rest := by
  obtain ⟨text, h⟩ := op
  cases text with
  | nil => cases h
  | cons c cs =>
    have hpiece := piece?_eq_none .leading h rest
    rw [isSpacedOperator, Bool.and_eq_true, Bool.and_eq_true, Bool.and_eq_true] at h
    obtain ⟨⟨⟨hc, -⟩, hlength⟩, -⟩ := h
    have hlength' : operatorLength (c == '.') (cs ++ ' ' :: rest) = cs.length := by
      rw [operatorLength_blank, beq_iff_eq.mp hlength]
    have hplaceholder : (c == '<' && peek (cs ++ ' ' :: rest) == '#') = false := by
      cases cs with
      | nil => exact Bool.and_false _
      | cons d cs =>
        rw [Bool.and_eq_false_iff, beq_eq_false_iff_ne (a := peek _)]
        refine .inr fun hd => ?_
        obtain rfl : d = '#' := hd
        cases hlength
    have hoperator : plain (some t) [] c (cs ++ ' ' :: rest)
        = (operatorKind (c :: cs) false false, cs.length) := by
      rw [plain_of_isOperatorChar hc ht [] hplaceholder, operator, hlength', List.drop_left,
        List.take_left, leftBound_blank htrailing, rightBound_blank]
    have hne {d : Char} (hd : isOperatorChar d = false) : c ≠ d := by
      rintro rfl
      rw [hc] at hd
      cases hd
    exact ⟨rfl, scan_blank hrest, c, cs, rfl, hpiece,
      ofText?_eq_none_of_ne (hne rfl) (hne rfl) (hne rfl) _, hoperator⟩

end Operator

/-! ## Rows -/

/-- Names with operators between them. The middle of a ternary operator is a name as well. -/
inductive Row where
  | last (n : Name)
  | binary (n : Name) (op : Operator) (rest : Row)
  | ternary (n middle : Name) (rest : Row)

/-- A name with the blank behind it. -/
def Name.spaced (n : Name) : Token := ⟨[], .identifier, n.text, blank⟩

theorem Name.trailing_spaced (n : Name) : n.spaced.trailing = blank := rfl

/-- No trivia starts where a name does. -/
theorem Name.scan_text (n : Name) (rest : Text) :
    Trivia.scan .trailing (n.text ++ rest) = ([], n.text ++ rest) := by
  refine scan_eq_nil ?_
  rcases n.text_cases with ⟨cs, htext, -⟩ | ⟨c, cs, htext, hc, -⟩
  · rw [htext]
    rfl
  · rw [htext]
    exact Sign.isFront_of_startsType (Bool.or_eq_true_iff.mpr (.inl hc))

namespace Row

/-- A name at the end of a row. -/
def lastToken (n : Name) : Token := ⟨[], .identifier, n.text, []⟩

/-- The question mark of a ternary operator. -/
def questionMark : Token := ⟨[], .infixQuestionMark, ['?'], blank⟩

/-- The colon of a ternary operator. -/
def colon : Token := ⟨[], .colon, [':'], blank⟩

theorem trailing_questionMark : questionMark.trailing = blank := rfl

theorem trailing_colon : colon.trailing = blank := rfl

/-- How a row is written. -/
def text : Row → Text
  | last n => n.text
  | binary n op r => n.text ++ [' '] ++ op.text ++ [' '] ++ r.text
  | ternary n m r => n.text ++ [' ', '?', ' '] ++ m.text ++ [' ', ':', ' '] ++ r.text

/-- The tokens of a row. -/
def tokens : Row → List Token
  | last n => [lastToken n]
  | binary n op r => n.spaced :: op.token :: r.tokens
  | ternary n m r => n.spaced :: questionMark :: m.spaced :: colon :: r.tokens

/-- The operand that a name is. Where patterns bind names, it is one of these. -/
def operand (mode : Mode) (t : Token) : Green :=
  if mode.bindingPattern then .node .patternExpr [.node .identifierPattern [.token t]]
  else .node .identifierExpr [.token t]

open Green (Word)

/-- The words of a row. -/
def words (mode : Mode) : Row → List Word
  | last n => [.operand (operand mode (lastToken n))]
  | binary n op r =>
    .operand (operand mode n.spaced) :: .between .binaryExpr [.token op.token] :: r.words mode
  | ternary n m r =>
    .operand (operand mode n.spaced)
      :: .between .ternaryExpr [.token questionMark, operand mode m.spaced, .token colon] ::
        r.words mode

/-! ### The tokens of a row -/

/-- The tokens of a row make up its text. -/
theorem fullText_tokens (r : Row) : fullText r.tokens = r.text := by
  induction r with
  | last n => simp [tokens, text, lastToken, full]
  | binary n op r ih => simp [tokens, text, Name.spaced, Operator.token, full, blank, ih]
  | ternary n m r ih => simp [tokens, text, Name.spaced, questionMark, colon, full, blank, ih]

/-- A row starts as a name does, and without trivia. -/
theorem scan_text (r : Row) : Trivia.scan .trailing r.text = ([], r.text) := by
  cases r with
  | last n =>
    have h := n.scan_text []
    rwa [List.append_nil] at h
  | binary n op r =>
    rw [text, List.append_assoc, List.append_assoc, List.append_assoc]
    exact n.scan_text _
  | ternary n m r =>
    rw [text, List.append_assoc, List.append_assoc, List.append_assoc]
    exact n.scan_text _

/-- A name with a blank behind it is read as one. -/
theorem readsBefore_spaced {prev : Option Token} (n : Name) {rest : Text}
    (hrest : Trivia.scan .trailing rest = ([], rest)) : ReadsBefore prev n.spaced rest :=
  n.readsBefore (.inr rfl) hrest rfl

/-- A question mark behind a blank stands between operands. -/
theorem readsBefore_questionMark {t : Token} (ht : t.trailing = blank) {rest : Text}
    (hrest : Trivia.scan .trailing rest = ([], rest)) :
    ReadsBefore (some t) questionMark rest := by
  refine .of_plain rfl (.inr rfl) rfl rfl hrest ?_
  have hoperator :
    plain (some t) [] '?' (' ' :: rest) = operator (some t) [] '?' (' ' :: rest) := rfl
  show plain (some t) [] '?' (' ' :: rest) = _
  rw [hoperator, operator, leftBound_blank ht]
  rfl

/-- The tokens of a row are read one after the other. -/
theorem reads_tokens (r : Row) {prev : Option Token} : Reads prev r.tokens := by
  induction r generalizing prev with
  | last n => exact .cons (n.readsBefore (.inl rfl) (scan_eq_nil rfl) rfl) .nil
  | binary n op r ih =>
    have hrest : Trivia.scan .trailing (fullText r.tokens) = ([], fullText r.tokens) :=
      r.fullText_tokens ▸ r.scan_text
    have hends : endsOperand.contains n.spaced.kind :=
      (by decide : endsOperand.contains .identifier)
    refine .cons (readsBefore_spaced n ?_) (.cons (op.readsBefore hends rfl hrest) ih)
    have htext : fullText (op.token :: r.tokens) = op.text ++ ' ' :: fullText r.tokens := by
      simp [Operator.token, full, blank]
    rw [htext]
    exact op.scan_text _
  | ternary n m r ih =>
    have hrest : Trivia.scan .trailing (fullText r.tokens) = ([], fullText r.tokens) :=
      r.fullText_tokens ▸ r.scan_text
    have hmiddle : Trivia.scan .trailing (fullText (m.spaced :: colon :: r.tokens))
        = ([], fullText (m.spaced :: colon :: r.tokens)) := by
      have htext : fullText (m.spaced :: colon :: r.tokens)
          = m.text ++ (blank.text ++ fullText (colon :: r.tokens)) := by
        simp [Name.spaced, full]
      rw [htext]
      exact m.scan_text _
    refine .cons (readsBefore_spaced n (scan_eq_nil rfl)) ?_
    refine .cons (readsBefore_questionMark rfl hmiddle) ?_
    refine .cons (readsBefore_spaced m (scan_eq_nil rfl)) (.cons ?_ ih)
    exact .of_plain rfl (.inr rfl) rfl rfl hrest rfl

/-- A row is read as the tokens that it is written with, and the end of the text. -/
theorem stream_text (r : Row) : Token.stream r.text = r.tokens ++ [⟨[], .endOfFile, [], []⟩] := by
  rw [← r.fullText_tokens]
  exact stream_of_reads r.reads_tokens

end Row

/-! ## Names as operands -/

namespace Grammar

open Grammar.Parser

namespace Ahead

/-- Whether nothing is attached to the name before: a blank is behind it, or the end, and then an
operator that is not one on its own, or a colon. -/
structure StandsApart (us : Ahead) : Prop where
  adjacent : us.adjacent = false
  kind_cases : us.kind = .endOfFile ∨ us.kind = .binaryOperator ∨ us.kind = .equal
    ∨ us.kind = .infixQuestionMark ∨ us.kind = .colon
  isOperatorRef : us.isOperatorRef = false

namespace StandsApart

variable {mode : Mode} {us : Ahead} (h : us.StandsApart)

include h

/-- No expression starts with what stands apart from a name. -/
theorem startsExpr : us.startsExpr = false := by
  rw [Ahead.startsExpr, h.isOperatorRef, Bool.or_false, isIn]
  rcases h.kind_cases with hkind | hkind | hkind | hkind | hkind <;> rw [hkind] <;> decide

/-- No type does, either. -/
theorem startsType : us.isIn typeFirst = false := by
  rw [isIn]
  rcases h.kind_cases with hkind | hkind | hkind | hkind | hkind <;> rw [hkind] <;> decide

/-- Nothing is attached to the name before. -/
theorem suffix?_eq_none : us.suffix? mode = none := by
  rw [suffix?]
  split
  · rfl
  · rcases h.kind_cases with hkind | hkind | hkind | hkind | hkind <;> rw [hkind]

theorem isGenericArguments : us.isGenericArguments = false := by
  rw [Ahead.isGenericArguments, isAdjacentAngle, h.adjacent, Bool.and_false, Bool.false_and]

end StandsApart

end Ahead

section

variable {mode : Mode} {x : Lexeme} {us : Ahead}

/-- A name is an operand where nothing is attached to it. -/
theorem identifier_ends (hx : x.kind = .identifier) (hus : us.StandsApart) (built : Forest) :
    (identifier mode).Ends ⟨x :: us, built⟩ () ⟨us, Row.operand mode x.token :: built⟩ := by
  unfold Row.operand
  have hbinding : Ahead.isBindingName (x :: us) = true := by
    have hat : Ahead.isAt .identifier (x :: us) = true := beq_iff_eq.mpr hx
    rw [Ahead.isBindingName, hat, List.tail_cons, hus.adjacent]
    rfl
  by_cases hmode : mode.bindingPattern
  · rw [if_pos hmode]
    refine .branch ?_ (.forestNode _ (.forestNode [_] (.advance x us _) rfl) rfl)
    show (mode.bindingPattern && Ahead.isBindingName (x :: us)) = true
    rw [hmode, hbinding]
    rfl
  · rw [if_neg hmode]
    refine .branch_not ?_ (.bind (.forestNode [_] (.advance x us _) rfl)
      (.ifAhead_not hus.isGenericArguments))
    show (mode.bindingPattern && Ahead.isBindingName (x :: us)) = false
    rw [Bool.eq_false_iff.mpr hmode, Bool.false_and]

/-- A name is an operand where nothing is attached to it: the rule for operands reads it and
stops. -/
theorem Ahead.StandsApart.isOperand (hus : us.StandsApart) (hx : x.kind = .identifier) :
    Ahead.IsOperand mode (x :: us) (Row.operand mode x.token) us where
  alone := by
    intro kind parts vs h
    have hkind : Ahead.kind (x :: us) = .identifier := hx
    cases h with
    | operator h => exact absurd (h.symm.trans hx) nofun
    | tryWord h => exact absurd (h.symm.trans hx) nofun
    | tryMark h => exact absurd (h.symm.trans hx) nofun
    | awaitWord h =>
      rw [Ahead.isAwait, List.tail_cons, hus.startsExpr, Bool.and_false] at h
      cases h
    | moveWord h =>
      have hmove : (Ahead.isAt .identifier us || Ahead.isAt .selfKw us
          || Ahead.isAt .dollarIdentifier us) = false := by
        rw [Ahead.isAt, Ahead.isAt, Ahead.isAt]
        rcases hus.kind_cases with hkind | hkind | hkind | hkind | hkind <;> rw [hkind] <;> rfl
      rw [Ahead.isMove, List.tail_cons, hmove, Bool.and_false] at h
      cases h
  ends := by
    intro built
    have hprimary : (primary mode).Ends ⟨x :: us, built⟩ false
        ⟨us, Row.operand mode x.token :: built⟩ := by
      refine .bind (.look hx) (.branch_not ?_ ((identifier_ends hx hus built).bind (.pure _ _)))
      rw [Ahead.isSomeOrAny, List.tail_cons, hus.startsType, Bool.and_false, Bool.false_and]
    exact .bind hprimary
      (.bind (.repeatWhile (.stop (.bind (.look hus.suffix?_eq_none) (.pure _ _))))
      (.pure _ _))

end

end Grammar

/-! ## Rows as phrases -/

namespace Row

open Grammar.Parser

variable {mode : Mode} {ts : Ahead}

/-- Whether tokens do not touch each other, and do not start a line. -/
def areApart (ts : Ahead) : Prop := ∀ x ∈ ts, x.adjacent = false ∧ x.atLineStart = false

/-- The first token of a row is a name. -/
theorem kind_of_tokens {r : Row} (h : ts.map Lexeme.token = r.tokens) : ts.kind = .identifier := by
  cases r <;>
  · obtain ⟨x, us, rfl, hx, -⟩ := List.map_eq_cons_iff.mp h
    exact congrArg Token.kind hx

/-- Behind the operand before it, an operator stands apart if a name follows. -/
theorem standsApart_operator {y : Lexeme} (hy : y.adjacent = false)
    (hkind : y.kind = .binaryOperator ∨ y.kind = .equal ∨ y.kind = .infixQuestionMark)
    (hts : ts.kind = .identifier) : Ahead.StandsApart (y :: ts) where
  adjacent := hy
  kind_cases := .inr (hkind.imp_right (·.imp_right .inl))
  isOperatorRef := by
    rw [Ahead.isOperatorRef, List.tail_cons, Ahead.isIn, hts]
    exact Bool.and_false _

/-- The middle of a ternary operator is read as an expression. The colon behind it is no operator,
and nothing that could belong to the name. -/
theorem middle_ends {z w : Lexeme} (hz : z.kind = .identifier) (hw : w.kind = .colon)
    (hcolon : w.adjacent = false) (built : Forest) :
    (expr mode).Ends ⟨z :: w :: ts, built⟩ () ⟨w :: ts, operand mode z.token :: built⟩ := by
  have hkind : Ahead.kind (w :: ts) = .colon := hw
  have hfixity : Ahead.infixOperator mode (w :: ts) = none := by
    rw [Ahead.infixOperator, hkind]
    split <;> rfl
  have hapart : Ahead.StandsApart (w :: ts) :=
    ⟨hcolon, .inr (.inr (.inr (.inr hkind))), by rw [Ahead.isOperatorRef, hkind]; rfl⟩
  exact (hapart.isOperand hz).expr_ends hfixity built

/-- A name, an operator that stands apart from it on the same line, and a phrase are a phrase. -/
theorem phrase_operator {x y : Lexeme} {us vs : Ahead} {kind : Kind} {gs : List Green}
    {ws : List Green.Word} (hx : x.kind = .identifier) (hy : Ahead.StandsApart (y :: us))
    (hline : y.atLineStart = false) (hbetween : Ahead.IsBetween mode (y :: us) kind gs vs)
    (hws : vs.Phrase mode true ws []) :
    Ahead.Phrase mode true (x :: y :: us) (.operand (operand mode x.token) :: .between kind gs :: ws)
      [] := by
  refine .operand (hy.isOperand hx) (.between ?_ hbetween hws)
  rw [show Ahead.atLineStart (y :: us) = false from hline, Bool.and_false]

/-- **A row is a phrase.** The tokens of a row are a phrase that has its words, by induction on how
many operators there are. It takes that the tokens are apart, as those of a text with blanks are. -/
theorem phrase (r : Row) (hts : ts.map Lexeme.token = r.tokens) (happart : areApart ts.tail) :
    ts.Phrase mode true (r.words mode) [] := by
  induction r generalizing ts with
  | last n =>
    obtain ⟨x, us, rfl, hx, hus⟩ := List.map_eq_cons_iff.mp hts
    obtain rfl := List.map_eq_nil_iff.mp hus
    have hoperand : Ahead.IsOperand mode [x] (operand mode x.token) [] :=
      Ahead.StandsApart.isOperand ⟨rfl, by decide, rfl⟩ (congrArg Token.kind hx)
    rw [hx] at hoperand
    exact .operand hoperand .done
  | binary n op r ih =>
    obtain ⟨x, us, rfl, hx, hus⟩ := List.map_eq_cons_iff.mp hts
    obtain ⟨y, us, rfl, hy, hus⟩ := List.map_eq_cons_iff.mp hus
    obtain ⟨⟨hadjacent, hline⟩, hrest⟩ := List.forall_mem_cons.mp happart
    have hkind : y.kind = .binaryOperator ∨ y.kind = .equal := by
      rw [Lexeme.kind, hy]
      exact op.kind_cases
    have hphrase := phrase_operator (congrArg Token.kind hx)
      (standsApart_operator hadjacent (hkind.imp_right .inl) (kind_of_tokens hus)) hline
      (.binary hkind) (ih hus fun z hz => hrest z (List.mem_of_mem_tail hz))
    rwa [hx, hy] at hphrase
  | ternary n m r ih =>
    obtain ⟨x, us, rfl, hx, hus⟩ := List.map_eq_cons_iff.mp hts
    obtain ⟨y, us, rfl, hy, hus⟩ := List.map_eq_cons_iff.mp hus
    obtain ⟨z, us, rfl, hz, hus⟩ := List.map_eq_cons_iff.mp hus
    obtain ⟨w, us, rfl, hw, hus⟩ := List.map_eq_cons_iff.mp hus
    obtain ⟨⟨hadjacent, hline⟩, hrest⟩ := List.forall_mem_cons.mp happart
    obtain ⟨-, hrest⟩ := List.forall_mem_cons.mp hrest
    obtain ⟨⟨hcolon, -⟩, hrest⟩ := List.forall_mem_cons.mp hrest
    have hmark : y.kind = .infixQuestionMark := congrArg Token.kind hy
    have hname : Ahead.kind (z :: w :: us) = .identifier := congrArg Token.kind hz
    have hbetween : Ahead.IsBetween mode (y :: z :: w :: us) .ternaryExpr
        [.token y.token, operand mode z.token, .token w.token] us :=
      .ternary hmark (middle_ends (congrArg Token.kind hz) (congrArg Token.kind hw) hcolon)
        (congrArg Token.kind hw)
    have hphrase := phrase_operator (congrArg Token.kind hx)
      (standsApart_operator hadjacent (.inr (.inr hmark)) hname) hline hbetween
      (ih hus fun v hv => hrest v (List.mem_of_mem_tail hv))
    rwa [hx, hy, hz, hw] at hphrase

section

variable {endOpensLine : Bool} {pos : Nat}

/-- Behind a token with a blank, all tokens of a row are apart if those behind the first are. -/
theorem areApart_of_tail {r : Row} {prev : Token} (hprev : prev.trailing = blank)
    {h : ∀ t ∈ r.tokens, t.IsSolid}
    (htail : areApart (Lexeme.ofTokens endOpensLine pos (some prev) r.tokens h).tail) :
    areApart (Lexeme.ofTokens endOpensLine pos (some prev) r.tokens h) := by
  cases r <;> exact List.forall_mem_cons.mpr ⟨⟨touches_of_blank hprev _, rfl⟩, htail⟩

/-- The tokens of a row are apart, by induction on how many operators there are. -/
theorem areApart_tail (r : Row) {prev : Option Token} {h : ∀ t ∈ r.tokens, t.IsSolid} :
    areApart (Lexeme.ofTokens endOpensLine pos prev r.tokens h).tail := by
  induction r generalizing pos prev with
  | last n => exact List.forall_mem_nil _
  | binary n op r ih =>
    exact List.forall_mem_cons.mpr ⟨⟨touches_of_blank n.trailing_spaced op.token, rfl⟩,
      areApart_of_tail op.trailing_token ih⟩
  | ternary n m r ih =>
    refine List.forall_mem_cons.mpr ⟨⟨touches_of_blank n.trailing_spaced questionMark, rfl⟩, ?_⟩
    refine List.forall_mem_cons.mpr ⟨⟨touches_of_blank trailing_questionMark m.spaced, rfl⟩, ?_⟩
    exact List.forall_mem_cons.mpr ⟨⟨touches_of_blank m.trailing_spaced colon, rfl⟩,
      areApart_of_tail trailing_colon ih⟩

end

/-- The text of a row is a phrase that has its words. -/
theorem phrase_ofText (r : Row) : (Ahead.ofText r.text).Phrase mode true (r.words mode) [] := by
  obtain ⟨hts, hahead⟩ := Ahead.ofText_eq r.stream_text
  rw [hahead]
  exact r.phrase (Lexeme.tokens_ofTokens _ 0 none r.tokens hts) r.areApart_tail

end Row

/-! ## The tree of a row -/

namespace Entry

/-- As an expression, a text that is a phrase is the one that powers make of its words. -/
theorem exists_parts_of_phrase {mode : Mode} {text : Text} {ws : List Green.Word}
    (h : (Ahead.ofText text).Phrase mode true ws []) :
    ∃ g : Green, g.IsGrouping ws ∧ (expression mode).parts text = [g] := by
  have hfixity : Ahead.infixOperator mode [] = none := by
    rw [Ahead.infixOperator]
    split <;> rfl
  obtain ⟨g, hg, hends⟩ := h.exists_grouping hfixity
  refine ⟨g, hg, ?_⟩
  rw [parts_of_ends ((hends []).2.bind (.skipUntil_nil _ _))]
  rfl

end Entry

namespace Row

/-- Ternary operators one after the other, each with its condition and its first answer. -/
def chain : List (Name × Name) → Name → Row
  | [], n => last n
  | (condition, answer) :: branches, n => ternary condition answer (chain branches n)

/-- The tree in which each of them is the last operand of the one before. -/
def chainTree (mode : Mode) : List (Name × Name) → Name → Green
  | [], n => operand mode (lastToken n)
  | (condition, answer) :: branches, n =>
    .node .ternaryExpr [operand mode condition.spaced, .token questionMark,
      operand mode answer.spaced, .token colon, chainTree mode branches n]

section

variable {mode : Mode}

/-- The operand that a name is is a node that is made of no operands. -/
theorem exists_operand_eq (mode : Mode) (t : Token) :
    ∃ kind cs, operand mode t = .node kind cs ∧ kind.isOperation = false := by
  unfold operand
  split
  · exact ⟨_, _, rfl, rfl⟩
  · exact ⟨_, _, rfl, rfl⟩

/-- An operand is one word. -/
theorem words_operand (mode : Mode) (t : Token) :
    (operand mode t).words = [.operand (operand mode t)] := by
  obtain ⟨kind, cs, hoperand, hkind⟩ := exists_operand_eq mode t
  rw [hoperand, Green.words_operand hkind]

/-- The tree of a chain has the words of the chain. -/
theorem words_chainTree (branches : List (Name × Name)) (n : Name) :
    (chainTree mode branches n).words = (chain branches n).words mode := by
  induction branches with
  | nil => exact words_operand mode _
  | cons branch branches ih =>
    obtain ⟨condition, answer⟩ := branch
    have hwords : (chainTree mode ((condition, answer) :: branches) n).words
        = (operand mode condition.spaced).words ++ .between .ternaryExpr
          [.token questionMark, operand mode answer.spaced, .token colon]
            :: (chainTree mode branches n).words :=
      @Green.words_between .ternaryExpr _ _
        [.token questionMark, operand mode answer.spaced, .token colon] rfl
    rw [words_operand, ih] at hwords
    exact hwords

/-- The right operand of an operator of the chain is no weaker than the operator is on its right. -/
theorem holdsFrom_chainTree (branches : List (Name × Name)) (n : Name) :
    (chainTree mode branches n).HoldsFrom (Power.rightGrouping 3).right := by
  cases branches with
  | nil =>
    obtain ⟨kind, cs, hoperand, hkind⟩ := exists_operand_eq mode (lastToken n)
    rw [chainTree, hoperand]
    exact Green.holdsFrom_of_not_isOperation hkind
  | cons branch branches =>
    obtain ⟨condition, answer⟩ := branch
    obtain ⟨kind, cs, hoperand, hkind⟩ := exists_operand_eq mode condition.spaced
    rw [chainTree, Green.holdsFrom_iff_of_isInfix (p := .rightGrouping 3) rfl rfl, hoperand]
    exact ⟨by decide, Green.holdsFrom_of_not_isOperation hkind⟩

/-- The tree of a chain is composed of its operands: each ternary operator has the name before it,
and its last operand is the rest of the chain. -/
theorem composed_chainTree (branches : List (Name × Name)) (n : Name) :
    (chainTree mode branches n).Composed := by
  induction branches with
  | nil =>
    obtain ⟨kind, cs, hoperand, hkind⟩ := exists_operand_eq mode (lastToken n)
    rw [chainTree, hoperand]
    exact .operand hkind
  | cons branch branches ih =>
    obtain ⟨condition, answer⟩ := branch
    obtain ⟨kind, cs, hoperand, hkind⟩ := exists_operand_eq mode condition.spaced
    rw [chainTree, hoperand]
    have hjoins : Green.Joins .ternaryExpr
        [.token questionMark, operand mode answer.spaced, .token colon] (.rightGrouping 3)
        (.node kind cs) :=
      ⟨rfl, rfl, Green.holdsAgainst_of_not_isOperation hkind,
        Green.not_isCovering (Kind.not_isOperation hkind).2⟩
    exact .between rfl hjoins (holdsFrom_chainTree branches n) (.operand hkind) ih

/-- **A chain of ternary operators nests to the right**, however long it is. The tree that nests so
has the words of the chain and is grouped by powers, and no other tree is. -/
theorem parts_chain (mode : Mode) (branches : List (Name × Name)) (n : Name) :
    (Entry.expression mode).parts (chain branches n).text = [chainTree mode branches n] := by
  have hphrase : (Ahead.ofText (chain branches n).text).Phrase mode true
      ((chain branches n).words mode) [] := (chain branches n).phrase_ofText
  obtain ⟨g, hg, hparts⟩ := Entry.exists_parts_of_phrase hphrase
  have hcomposed := Green.composed_of_proper hg.proper hg.isExpression
  have hwords := hg.words.trans (words_chainTree branches n).symm
  rw [hparts, hcomposed.unique (composed_chainTree branches n) hwords]

end

end Row

/-- **Operators group by precedence.** In the tree of every text, every operator has a power, the
operands of every infix node are grouped by the powers of its operator and of theirs, and ternary
operators nest to the right. The expressions of the tree are the only ones with their operands and
operators that are grouped so.

All operators of a text get into the tree that way: where a phrase is ahead, of any length and
behind anything, the rule of expressions reads it as the one expression that powers make of its
words. So a row of names and operators is one expression with all of its operators. In a chain of
ternary operators each is the last operand of the one before. -/
theorem Entry.precedence (e : Entry) (text : Text) :
    (let nodes := (Node.ofGreen (e.tree text)).descendants
    (∀ n ∈ nodes, n.kind.isInfix → ∃ p l, n.green.Precedence p l) ∧
      (∀ n ∈ nodes, n.kind = .ternaryExpr →
        ∀ l ∈ n.green.leftOperand?, ∀ m, l.OnRight m → m.kind ≠ .ternaryExpr) ∧
      ∀ n ∈ nodes, n.kind.isExpression → n.green.IsGrouping n.green.words) ∧
    (∀ (mode : Mode) (ts us : Ahead) (ws : List Green.Word), ts.Phrase mode true ws us →
      us.infixOperator mode = none → ∃ g : Green, g.IsGrouping ws ∧ ∀ before : Forest,
        (expr mode).run (.ofLimit (callLimit ts.left)) ⟨ts, before⟩
          = some ((), ⟨us, g :: before⟩)) ∧
    (∀ (mode : Mode) (r : Row), ∃ g : Green, g.IsGrouping (r.words mode) ∧
      (expression mode).parts r.text = [g]) ∧
    ∀ (mode : Mode) (branches : List (Name × Name)) (n : Name),
      (expression mode).parts (Row.chain branches n).text = [Row.chainTree mode branches n] := by
  have hcomposed : ∀ n ∈ (Node.ofGreen (e.tree text)).descendants, n.kind.isExpression →
      n.green.Composed := fun n hn hexpr =>
    Green.composed_of_proper (proper_of_mem_descendants hn) (.node hexpr)
  have hjoin : ∀ n ∈ (Node.ofGreen (e.tree text)).descendants, n.kind.isInfix →
      ∃ p l, n.green.Precedence p l := fun n hn h =>
    (hcomposed n hn (Kind.isExpression_of_isInfix h)).exists_precedence h
  refine ⟨⟨hjoin, ?_, ?_⟩, ?_, ?_, Row.parts_chain⟩
  · rintro ⟨_, cs, offset, path⟩ hn rfl l hl m hm
    obtain ⟨p, l', h⟩ := hjoin _ hn rfl
    obtain rfl := Option.some.inj (h.operand.symm.trans hl)
    exact h.ne_ternaryExpr hm
  · exact fun n hn hexpr => Green.isGrouping_of_proper (proper_of_mem_descendants hn) (.node hexpr)
  · intro mode ts us ws hphrase hfixity
    obtain ⟨g, hg, hreads⟩ := hphrase.exists_grouping hfixity
    exact ⟨g, hg, fun before => (hreads before).1⟩
  · exact fun mode r => exists_parts_of_phrase r.phrase_ofText

/-- In `a + b * c` the product is the right operand of the sum, and in `a ? b : c ? d : e` the
second ternary operator is the last operand of the first. -/
theorem Entry.precedence_nested :
    (∃ n ∈ (Node.ofGreen ((expression .plain).tree "a + b * c".toList)).descendants,
      n.kind = .binaryExpr ∧ ∃ p l, n.green.Precedence p l ∧ p = .leftGrouping 11 ∧
        ∃ r ∈ n.green.rightOperand?, r.kind = .binaryExpr ∧ r.power? = some (.leftGrouping 12)) ∧
    ∃ a b c d e : Green, (expression .plain).parts "a ? b : c ? d : e".toList
      = [.node .ternaryExpr [a, .token Row.questionMark, b, .token Row.colon,
          .node .ternaryExpr [c, .token Row.questionMark, d, .token Row.colon, e]]] := by
  constructor
  · have htree : ∃ n ∈ (Node.ofGreen ((expression .plain).tree "a + b * c".toList)).descendants,
        n.kind = .binaryExpr ∧ n.green.power? = some (.leftGrouping 11) ∧
          ∃ r ∈ n.green.rightOperand?, r.kind = .binaryExpr ∧
            r.power? = some (.leftGrouping 12) :=
      of_decide_eq_true (of_tree? (n := 20) (p := fun tree => ∃ n ∈ (Node.ofGreen tree).descendants,
        n.kind = .binaryExpr ∧ n.green.power? = some (.leftGrouping 11) ∧
          ∃ r ∈ n.green.rightOperand?, r.kind = .binaryExpr ∧
            r.power? = some (.leftGrouping 12)) (by decide +kernel))
    obtain ⟨n, hn, hkind, hpower, hright⟩ := htree
    obtain ⟨p, l, h⟩ :=
      (precedence (expression .plain) "a + b * c".toList).1.1 n hn (by rw [hkind]; rfl)
    obtain rfl := Option.some.inj (h.power.symm.trans hpower)
    exact ⟨n, hn, hkind, _, l, h, rfl, hright⟩
  · have hchain := (precedence .sourceFile []).2.2.2 .plain
      [(⟨['a'], rfl⟩, ⟨['b'], rfl⟩), (⟨['c'], rfl⟩, ⟨['d'], rfl⟩)] ⟨['e'], rfl⟩
    exact ⟨_, _, _, _, _, hchain⟩

end SwiftTree
