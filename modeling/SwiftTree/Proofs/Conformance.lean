import SwiftTree.Proofs.Counting
import SwiftTree.Proofs.Forest
import SwiftTree.Proofs.Grouping
import SwiftTree.Proofs.Pieces
import SwiftTree.Proofs.Progress

/-!
# What rules put together

Rules only make trees of the right shapes, group operators by their powers, and close string
literals as they were opened. All this is said of every node of a tree at once (`Green.Proper`). A
variable and a default label also have the keyword that was seen behind their attributes, if the
parentheses of the attributes tell where it is (`Green.Exact`). What a rule can rely on when it
calls another one is stated for goals: each of them adds one tree (`Goal.Gives`).

`Parser.yields` is the condition under which a rule puts together what is wanted, if it has an
outcome at all. It also asks that tokens are only taken as other ones, and only cut, where their
spelling allows it. `Parser.sound_of_yields` says what the condition promises, once for all rules:
the outcome is as wanted, and the tokens of the trees are the pieces of those that were read
(`State.Carries`).
-/

namespace SwiftTree

/-- The shape of no trees. -/
def Shape.never : Shape := .token fun _ => false

/-- No trees have the shape of no trees. -/
theorem Shape.not_matches_never {xs : List Green} : ¬Shape.never.Matches xs := by
  intro h
  cases h with
  | token h => cases h

/-- Whether there is nothing to say of a node of a kind but its shape. -/
def Kind.isPlain (kind : Kind) : Bool := !kind.isOperation && kind != .stringLiteralExpr

namespace Shape.Matches

variable {a a' b b' : Shape} {gs : List Green}

/-- What is known of the second part of a shape may be weakened. -/
theorem seq_imp (h : (Shape.seq a b).Matches gs) (hb : ∀ ys, b.Matches ys → b'.Matches ys) :
    (Shape.seq a b').Matches gs := by
  cases h with
  | seq hx hy => exact .seq hx (hb _ hy)

/-- What is known of both alternatives of a shape may be weakened. -/
theorem alt_imp (h : (Shape.alt a b).Matches gs) (ha : a.Matches gs → a'.Matches gs)
    (hb : b.Matches gs → b'.Matches gs) : (Shape.alt a' b').Matches gs := by
  cases h with
  | left h => exact .left (ha h)
  | right h => exact .right (hb h)

end Shape.Matches

/-- An `if` statement up to its block, and what stands behind. -/
def Shape.ifThen (rest : Shape) : Shape :=
  .seq (tok .ifKw) <| .seq (one .conditionElementList) <| .seq body rest

/-- The shape of an `if` statement, of which also is said what an `else` leads to: a further one
where `if` comes next, and a block otherwise. -/
def Shape.ifStatement : Shape := ifThen (opt (.seq (tok .elseKw) (.alt (one .ifStmt) body)))

/-- The shape that the rules give to a node of a kind. -/
def Kind.exactShape : Kind → Shape
  | .ifStmt => .ifStatement
  | kind => kind.shape

/-- The nodes that are made where a keyword was seen behind attributes. -/
def Kind.isKeyed (kind : Kind) : Bool := kind == .variableDecl || kind == .switchCase

/-- The shape of a node of which only the shape has to be known. No other node has it. -/
def Kind.plainShape (kind : Kind) : Shape :=
  bif kind.isPlain && !kind.isKeyed then kind.exactShape else .never

/-- The shape that the rules give to a node is one of its kind. -/
theorem Kind.shape_of_exactShape {kind : Kind} {cs : List Green} (h : kind.exactShape.Matches cs) :
    kind.shape.Matches cs := by
  unfold exactShape at h
  split at h
  · refine h.seq_imp fun _ h => h.seq_imp fun _ h => h.seq_imp fun _ h => h.alt_imp ?_ fun h => h
    intro h
    refine h.seq_imp fun _ h => h.alt_imp (fun h => ?_) fun h => h
    cases h with
    | node hk => exact .node (by rw [beq_iff_eq.mp hk]; rfl)
  · exact h

namespace Green

/-- Whether a string literal ends with the quote that it starts with, and with a raw delimiter if it
starts with one. A literal that is not closed lacks a delimiter of the length of the one at its
start. -/
inductive Delimited : List Green → Prop
  | quoted {opening closing : Leaf} {segments : List Green} (hquote : opening.kind.isStringQuote)
      (hkind : closing.kind = opening.kind) :
    Delimited [.leaf opening, .node .stringSegmentList segments, .leaf closing]
  | raw {pounds : Token.Outline} {opening closing delimiter : Leaf} {segments : List Green}
      (hpounds : pounds.kind = .rawStringDelimiter) (hquote : opening.kind.isStringQuote)
      (hkind : closing.kind = opening.kind) (hdelimiter : delimiter.kind = .rawStringDelimiter)
      (hmissing : closing.isPresent = false →
        delimiter = .missing .rawStringDelimiter (List.replicate pounds.text.length '#')) :
    Delimited [.leaf (.present pounds), .leaf opening, .node .stringSegmentList segments,
      .leaf closing, .leaf delimiter]

/-- Whether trees have the shapes of their kinds, are grouped by the powers of operators, and are
delimited as string literals are. -/
structure Admits (kind : Kind) (cs : List Green) : Prop where
  shape : kind.shape.Matches cs
  grouped : (node kind cs).Grouped
  delimited : kind = .stringLiteralExpr → Delimited cs

/-- A node that is made of operands is admitted if its shape fits and it is grouped. -/
theorem admits_of_isOperation {kind : Kind} {cs : List Green} (hkind : kind.isOperation)
    (h : kind.shape.Matches cs) (hgrouped : (node kind cs).Grouped) : Admits kind cs := by
  refine ⟨h, hgrouped, ?_⟩
  rintro rfl
  cases hkind

/-- Of a plain node only the shape has to fit. -/
theorem admits_of_isPlain {kind : Kind} {cs : List Green} (h : kind.shape.Matches cs)
    (hkind : kind.isPlain) : Admits kind cs := by
  rw [Kind.isPlain, Bool.and_eq_true, Bool.not_eq_true', bne_iff_ne] at hkind
  exact ⟨h, grouped_of_not_isOperation hkind.1, fun hliteral => absurd hliteral hkind.2⟩

/-- Whether every node of a tree is as it should be. -/
abbrev Proper : Green → Prop := Deep Admits

/-- Whether every node of several trees is as it should be. -/
abbrev ProperAll : List Green → Prop := DeepAll Admits

/-! ### Tokens -/

/-- The token of a leaf that was read. -/
def Leaf.token? : Leaf → Option Token.Outline
  | .present t => some t
  | .missing _ _ => none

/-- The tokens of several trees. -/
def tokensOf (gs : List Green) : List Token.Outline := (leavesOf gs).filterMap Leaf.token?

theorem leavesOf_append (gs hs : List Green) :
    leavesOf (gs ++ hs) = leavesOf gs ++ leavesOf hs := by
  induction gs with
  | nil => rfl
  | cons g gs ih => rw [List.cons_append, leavesOf, leavesOf, ih, List.append_assoc]

theorem tokensOf_append (gs hs : List Green) :
    tokensOf (gs ++ hs) = tokensOf gs ++ tokensOf hs := by
  rw [tokensOf, leavesOf_append, List.filterMap_append]
  rfl

theorem hasPresentOf_append (gs hs : List Green) :
    hasPresentOf (gs ++ hs) = (hasPresentOf gs || hasPresentOf hs) := by
  rw [hasPresentOf_eq_any, leavesOf_append, List.any_append, ← hasPresentOf_eq_any,
    ← hasPresentOf_eq_any]

/-- Where one of the trees is a token that was read, one was read. -/
theorem hasPresentOf_of_mem {gs : List Green} {t : Token.Outline}
    (h : .leaf (.present t) ∈ gs) : hasPresentOf gs := by
  obtain ⟨front, back, rfl⟩ := List.append_of_mem h
  rw [hasPresentOf_append, Bool.or_eq_true]
  exact .inr rfl

/-- Only what a node is made of matters to its tokens. -/
theorem tokensOf_node (kind : Kind) (cs : List Green) : tokensOf [.node kind cs] = tokensOf cs := by
  rw [tokensOf, leavesOf, leavesOf, List.append_nil, leaves]
  rfl

/-- The tokens of several trees are those of the first and those of the others. -/
theorem exists_of_tokensOf_cons {g : Green} {gs : List Green} {ts : List Token}
    (h : tokensOf (g :: gs) = ts.map Token.outline) : ∃ us vs, ts = us ++ vs ∧
      tokensOf [g] = us.map Token.outline ∧ tokensOf gs = vs.map Token.outline := by
  have hsplit : tokensOf [g] ++ tokensOf gs = ts.map Token.outline := by
    rw [← tokensOf_append]
    exact h
  obtain ⟨us, vs, hts, hus, hvs⟩ := List.map_eq_append_iff.mp hsplit.symm
  exact ⟨us, vs, hts, hus.symm, hvs.symm⟩

/-- A tree without tokens was not read. -/
theorem tokensOf_eq_nil {g : Green} (h : g.hasPresent = false) : tokensOf [g] = [] := by
  rw [hasPresent_eq_any, List.any_eq_false] at h
  rw [tokensOf, leavesOf, leavesOf, List.append_nil, List.filterMap_eq_nil_iff]
  intro l hl
  cases l with
  | present t => exact absurd rfl (h _ hl)
  | missing kind spelling => rfl

/-! ### Placeholders -/

/-- Whether a tree stands for an expression, a pattern or a type of which nothing was written. Where
a pattern may be any expression, it is the expression that is missing. -/
def isPlaceholder : Green → Bool
  | .node .expressionPattern [.node .missingExpr []] => true
  | .node kind [] => kind.isMissingNode
  | _ => false

/-! ### Keywords behind attributes -/

/-- Whether the parentheses around the arguments of an attribute belong together, as far as
parentheses go. Between the two all parentheses match. Where the text ends instead, none closes the
first one. -/
def argumentsMatch (arguments : List Green) : Bool :=
  let inside := tokensOf arguments.tail.dropLast
  Token.staysOpen 0 inside
    && (!arguments.getLast?.any hasPresent || Token.parensBehind 0 inside == 0)

/-- Whether the parentheses of an attribute belong together. -/
def attributeMatches (one : Green) : Bool :=
  one.children.all fun part => part.kind != .attributeArguments || argumentsMatch part.children

/-- Whether the parentheses of the attributes among some parts belong together. -/
def attributesMatch (cs : List Green) : Bool :=
  (cs.filter (·.kind == .attributeList)).all fun list => list.children.all attributeMatches

theorem attributesMatch_append (cs ds : List Green) :
    attributesMatch (cs ++ ds) = (attributesMatch cs && attributesMatch ds) := by
  rw [attributesMatch, List.filter_append, List.all_append]
  rfl

/-- Whether a variable has its keyword, and the default label of a case has its own. -/
structure HasKeyword (kind : Kind) (cs : List Green) : Prop where
  declared : kind = .variableDecl →
    ∃ t, .leaf (.present t) ∈ cs ∧ (t.kind = .letKw ∨ t.kind = .varKw)
  labeled : kind = .switchCase → ∀ label, .node .switchDefaultLabel label ∈ cs →
    ∃ t, .leaf (.present t) ∈ label ∧ t.kind = .defaultKw

/-- Nothing is said of the keyword of a node that has none. -/
theorem hasKeyword_of_not_isKeyed {kind : Kind} (h : kind.isKeyed = false) (cs : List Green) :
    HasKeyword kind cs := by
  rw [Kind.isKeyed, Bool.or_eq_false_iff, beq_eq_false_iff_ne, beq_eq_false_iff_ne] at h
  exact ⟨fun hvariable => absurd hvariable h.1, fun hcase => absurd hcase h.2⟩

/-- Whether trees are as they should be, have the shape that the rules give them, and the keyword
that the rules have seen behind attributes. -/
structure Exact (kind : Kind) (cs : List Green) : Prop extends Admits kind cs where
  exactShape : kind.exactShape.Matches cs
  keyed : attributesMatch cs → HasKeyword kind cs

/-- A node that is made of operands is exact if its shape fits and it is grouped. -/
theorem exact_of_isOperation {kind : Kind} {cs : List Green} (hkind : kind.isOperation)
    (h : kind.shape.Matches cs) (hgrouped : (node kind cs).Grouped) : Exact kind cs := by
  refine ⟨admits_of_isOperation hkind h hgrouped, ?_, fun _ => hasKeyword_of_not_isKeyed ?_ cs⟩
  · unfold Kind.exactShape
    split
    · cases hkind
    · exact h
  · rw [Kind.isKeyed, Bool.or_eq_false_iff, beq_eq_false_iff_ne, beq_eq_false_iff_ne]
    constructor
    · rintro rfl
      cases hkind
    · rintro rfl
      cases hkind

/-- A node that is made where a keyword was seen has it if the attributes before it tell where. -/
theorem exact_keyed {kind : Kind} {cs : List Green} (hkind : kind.isPlain)
    (h : kind.exactShape.Matches cs) (hkeyed : attributesMatch cs → HasKeyword kind cs) :
    Exact kind cs :=
  ⟨admits_of_isPlain (Kind.shape_of_exactShape h) hkind, h, hkeyed⟩

/-- A node of which only the shape has to be known is exact if it has this shape. -/
theorem exact_plain {kind : Kind} {cs : List Green} (h : kind.plainShape.Matches cs) :
    Exact kind cs := by
  unfold Kind.plainShape at h
  cases hplain : kind.isPlain && !kind.isKeyed with
  | true =>
    rw [hplain] at h
    rw [Bool.and_eq_true, Bool.not_eq_true'] at hplain
    exact exact_keyed hplain.1 h fun _ => hasKeyword_of_not_isKeyed hplain.2 cs
  | false =>
    rw [hplain] at h
    exact absurd h Shape.not_matches_never

/-- Whether every node of a tree is as the rules make it. -/
abbrev Strict : Green → Prop := Deep Exact

/-- Whether every node of several trees is as the rules make it. -/
abbrev StrictAll : List Green → Prop := DeepAll Exact

end Green

namespace Grammar

/-! ## What goals give -/

namespace Goal

/-- What reaching a goal adds. -/
def shape : Goal → Shape
  | sequence _ _ | unary _ _ => .expr
  | operand _ => .node Kind.isOperand
  | closure => .one .closureExpr
  | type | plainType => .type
  | pattern | casePattern _ => .pattern
  | statement => .statement
  | statements _ => .one .codeBlockItemList
  | switchCases _ => .one .switchCaseList

/-- How an expression is grouped with respect to the least power that it was asked for, and to the
operator behind it. Behind a missing operand nothing follows. -/
def Groups : Goal → Bool → Ahead → Green → Prop
  | sequence mode power, missing, ts, g =>
    g.HoldsFrom power ∧ (missing = false → ∀ op p, ts.infixOperator mode = some (op, p) →
      p.left < power ∧ g.HoldsAgainst p.left)
  | unary mode power, missing, ts, g =>
    g.kind.isInfix = false ∧ g.HoldsFrom power ∧
      (missing = false → ∀ op p, ts.infixOperator mode = some (op, p) →
        g.HoldsAgainst p.left ∧ (g.IsCovering → p.left < power))
  | _, _, _, _ => True

/-- What stands where nothing that a goal asks for is written. -/
def placeholder? : Goal → Option Green
  | sequence _ _ | unary _ _ | operand _ => some (.node .missingExpr [])
  | type | plainType => some (.node .missingType [])
  | pattern => some (.node .missingPattern [])
  | casePattern _ => some (.node .expressionPattern [.node .missingExpr []])
  | _ => none

/-- Whether the answer of a goal tells of a missing operand. -/
def isOperand : Goal → Bool
  | sequence _ _ | unary _ _ | operand _ => true
  | _ => false

/-- What a goal does that takes nothing: it leaves a placeholder. -/
structure Vacates (goal : Goal) (start : Ahead) (missing : Bool) (ts : Ahead) (g : Green) :
    Prop where
  placeholder : goal.placeholder? = some g
  ahead : ts = start
  answer : missing = goal.isOperand

/-- Whether a tree is one for a goal, as a whole. -/
structure Fits (goal : Goal) (missing : Bool) (ts : Ahead) (g : Green) : Prop where
  shape : goal.shape.Matches [g]
  groups : goal.Groups missing ts g

/-- What is known of the tree that a goal has added to the tokens that it has read. -/
structure Gives (goal : Goal) (start : Ahead) (missing : Bool) (ts : Ahead) (g : Green) : Prop
    extends goal.Fits missing ts g where
  strict : g.Strict
  /-- at `if` a statement is an `if` statement -/
  isIf : goal = .statement → start.isAt .ifKw → (Shape.one .ifStmt).Matches [g]
  /-- a goal that takes something adds a token -/
  read : goal.takes start → g.hasPresent
  /-- another one may leave a placeholder, and then does nothing else -/
  vacant : goal.takes start = false → goal.placeholder?.isSome → goal.Vacates start missing ts g

end Goal

/-! ## The condition for trees as wanted -/

namespace Ahead

/-- Whether the next token may be taken as one of another kind. -/
def MayTake (ts : Ahead) (kind : Option SolidKind) : Prop :=
  ∀ k ∈ kind, ∀ x ∈ ts.head?, x.kind.Becomes x.text k.1

/-- A token can always be taken as it is. -/
theorem mayTake_none (ts : Ahead) : ts.MayTake none := by
  intro k hk
  cases hk

/-- Whether the next token may be cut. -/
def MayCut (ts : Ahead) (head : SolidKind) (rest : Option SolidKind) : Prop :=
  ∀ x ∈ ts.head?, x.kind.isOperator ∧ ∀ c cs, x.text = c :: cs →
    x.kind.Becomes [c] head.1 ∧ ∀ k ∈ rest, x.kind.Becomes cs k.1

end Ahead

/-- The condition under which a rule, if it has an outcome, puts together what is wanted. -/
def Parser.yields : {α : Type} → Parser α → State Forest → (α → State Forest → Prop) → Prop
  | _, .pure a, s, post => post a s
  | _, .bind first next, s, post => first.yields s fun a t => (next a).yields t post
  | _, .look f, s, post => post (f s.ahead) s
  | _, .take kind, s, post => s.ahead.MayTake kind ∧ post () (s.take kind)
  | _, .splitHead head rest, s, post =>
    s.ahead.MayCut head rest ∧ post () { s with ahead := s.ahead.splitHead head rest }
  | _, .missing kind spelling, s, post =>
    post () { s with built := Assembly.missing kind.1 spelling s.built }
  | _, .placeholder kind, s, post => post () (s.enter.2.leave s.enter.1 (some kind.1))
  | _, .unexpected more, s, post => post () (s.unexpected more)
  | _, .override _ _, s, post => post () s
  | _, .mark body, s, post =>
    body.yields s.enter.2 fun a t => post a.2 (t.leave s.enter.1 (a.1.map Subtype.val))
  | _, .enclose kind body, s, post =>
    body.yields s.precede.2 fun a t => post a (t.leave s.precede.1 (some kind.1))
  | _, .call goal, s, post => ∀ a ts g, goal.Gives s.ahead a ts g → post a ⟨ts, g :: s.built⟩
  | _, .repeatUntil body, s, post =>
    ∃ invariant : State Forest → Prop, invariant s ∧ ∀ t, invariant t →
      body.yields t fun a u => match a with
        | some a => post a u
        | none => invariant u

namespace Parser

variable {α : Type}

theorem yields_bind {β : Type} {first : Parser α} {next : α → Parser β} {s : State Forest}
    {post : β → State Forest → Prop} :
    (first >>= next).yields s post = first.yields s fun a t => (next a).yields t post := rfl

theorem yields_look {f : Ahead → α} {s : State Forest} {post : α → State Forest → Prop} :
    (Grammar.look f).yields s post = post (f s.ahead) s := rfl

/-- The condition for a rule may be weakened in what it demands of the outcome. The proof follows
the operations of rules. -/
theorem yields_mono {p : Parser α} {s : State Forest} {post post' : α → State Forest → Prop}
    (h : p.yields s post) (hpost : ∀ a t, post a t → post' a t) : p.yields s post' := by
  induction p generalizing s with
  | pure a => exact hpost _ _ h
  | bind first next ih_first ih_next => exact ih_first h fun a t h => ih_next a h hpost
  | look f => exact hpost _ _ h
  | take kind => exact ⟨h.1, hpost _ _ h.2⟩
  | splitHead head rest => exact ⟨h.1, hpost _ _ h.2⟩
  | missing kind spelling => exact hpost _ _ h
  | placeholder kind => exact hpost _ _ h
  | unexpected more => exact hpost _ _ h
  | override start diagnostic => exact hpost _ _ h
  | mark body ih => exact ih h fun a t h => hpost _ _ h
  | enclose kind body ih => exact ih h fun a t h => hpost _ _ h
  | call goal => exact fun a ts g hg => hpost _ _ (h a ts g hg)
  | repeatUntil body ih =>
    obtain ⟨invariant, hs, hround⟩ := h
    refine ⟨invariant, hs, fun t ht => ih (hround t ht) ?_⟩
    rintro (_ | a) u hu
    · exact hu
    · exact hpost _ _ hu

/-- Two things that are put together are put together at once. -/
theorem yields_and {p : Parser α} {s : State Forest} {post post' : α → State Forest → Prop}
    (h : p.yields s post) (h' : p.yields s post') : p.yields s fun a t => post a t ∧ post' a t := by
  induction p generalizing s with
  | pure a => exact ⟨h, h'⟩
  | bind first next ih_first ih_next =>
    have hnext := yields_mono (ih_first h h') fun a t ht => ih_next a ht.1 ht.2
    exact hnext
  | look f => exact ⟨h, h'⟩
  | take kind => exact ⟨h.1, h.2, h'.2⟩
  | splitHead head rest => exact ⟨h.1, h.2, h'.2⟩
  | missing kind spelling => exact ⟨h, h'⟩
  | placeholder kind => exact ⟨h, h'⟩
  | unexpected more => exact ⟨h, h'⟩
  | override start diagnostic => exact ⟨h, h'⟩
  | mark body ih => exact ih h h'
  | enclose kind body ih => exact ih h h'
  | call goal => exact fun a ts g hg => ⟨h a ts g hg, h' a ts g hg⟩
  | repeatUntil body ih =>
    obtain ⟨invariant, hs, hround⟩ := h
    obtain ⟨invariant', hs', hround'⟩ := h'
    refine ⟨fun t => invariant t ∧ invariant' t, ⟨hs, hs'⟩, fun t ht => ?_⟩
    refine yields_mono (ih (hround t ht.1) (hround' t ht.2)) ?_
    rintro (_ | a) u hu
    · exact hu
    · exact hu

end Parser

/-! ## What the condition promises -/

/-- A node opens around the newest tree, or, if that is no node, around nothing. -/
theorem State.precede_eq (s : State Forest) : ∃ wrapped before : Forest,
    s.built = wrapped.reverse ++ before ∧ s.precede = ((wrapped, before), s.enter.2) := by
  have hstate {r : (List Green × Forest) × Forest} (h : Forest.precede s.built = r) :
      s.precede = (r.1, (⟨s.ahead, r.2⟩ : State Forest)) := by
    rw [← h]
    rfl
  rcases Forest.precede_eq s.built with ⟨k, cs, before, hbuilt, h⟩ | h
  · exact ⟨[.node k cs], before, hbuilt, hstate h⟩
  · exact ⟨[], s.built, rfl, hstate h⟩

/-- Whether one state comes behind another: the tokens that were added, and those that are still to
be read, are pieces of what the tokens to be read were pieces of. -/
def State.Carries (s t : State Forest) : Prop :=
  ∃ taken : List Token,
    Green.tokensOf t.built.reverse
      = Green.tokensOf s.built.reverse ++ taken.map Token.outline ∧
    ∀ source before, Token.Pieces source (before ++ s.ahead.map Lexeme.token) →
      Token.Pieces source (before ++ taken ++ t.ahead.map Lexeme.token)

namespace State.Carries

variable {s t u : State Forest}

theorem refl (s : State Forest) : s.Carries s :=
  ⟨[], by simp, fun _ _ h => by simpa using h⟩

/-- What comes behind a state comes behind every state that this one is behind. -/
theorem trans (h : s.Carries t) (h' : t.Carries u) : s.Carries u := by
  obtain ⟨taken, htokens, hpieces⟩ := h
  obtain ⟨taken', htokens', hpieces'⟩ := h'
  refine ⟨taken ++ taken', ?_, fun source before hsource => ?_⟩
  · rw [htokens', htokens, List.map_append, List.append_assoc]
  · have hall := hpieces' source _ (hpieces source before hsource)
    simpa using hall

/-- Steps that neither read nor add tokens. -/
theorem still (hahead : t.ahead = s.ahead)
    (hbuilt : Green.tokensOf t.built.reverse = Green.tokensOf s.built.reverse) : s.Carries t :=
  ⟨[], by simpa using hbuilt, fun _ _ h => by simpa [hahead] using h⟩

/-- Taking a token carries on, also where it is taken as one of another kind. -/
theorem take {kind : Option SolidKind} (h : s.ahead.MayTake kind) : s.Carries (s.take kind) := by
  obtain ⟨_ | ⟨x, ts⟩, built⟩ := s
  · exact refl _
  · refine ⟨[{ x.token with kind := (kind.map Subtype.val).getD x.token.kind }], ?_, ?_⟩
    · show Green.tokensOf (Green.token _ :: built).reverse = _
      rw [List.reverse_cons, Green.tokensOf_append]
      rfl
    · intro source before hsource
      rw [List.append_assoc]
      cases kind with
      | none => exact hsource
      | some k => exact hsource.recast (h k rfl x rfl)

/-- Cutting a token carries on: both parts are pieces of it. -/
theorem splitHead {head : SolidKind} {rest : Option SolidKind} (h : s.ahead.MayCut head rest) :
    s.Carries { s with ahead := s.ahead.splitHead head rest } := by
  refine ⟨[], by simp, fun source before hsource => ?_⟩
  rw [List.append_nil]
  obtain ⟨_ | ⟨x, ts⟩, built⟩ := s
  · exact hsource
  · obtain ⟨hx, hbecomes⟩ := h x rfl
    rcases htext : x.token.text with _ | ⟨c, _ | ⟨d, cs⟩⟩
    · exact absurd htext x.solid.1
    · simpa only [Ahead.splitHead, htext] using hsource
    · obtain ⟨hhead, hrest⟩ := hbecomes c (d :: cs) htext
      simp only [Ahead.splitHead, htext, List.map_cons] at hsource ⊢
      refine hsource.split hx (a := [c]) (b := d :: cs) htext (List.cons_ne_nil _ _)
        (List.cons_ne_nil _ _) hhead ?_
      cases rest with
      | none => exact .refl _ _
      | some k => exact hrest k rfl

/-- Adding tokens as they are carries on. -/
theorem addAll (n : Nat) (ts : Ahead) (built : Forest) :
    State.Carries ⟨ts, built⟩ ⟨ts.drop n, Grammar.addAll (ts.take n) built⟩ := by
  induction n generalizing ts built with
  | zero => exact refl _
  | succ n ih =>
    cases ts with
    | nil => exact refl _
    | cons x ts => exact trans (@take ⟨x :: ts, built⟩ none (Ahead.mayTake_none _)) (ih ts _)

/-- Leaving a node does not change the tokens that were added, in whatever nodes they are. -/
theorem tokensOf_leave (mark : List Green × Forest) (kind : Option Kind) (built : Forest) :
    Green.tokensOf (Forest.leave mark kind built).reverse = match kind with
      | some _ => Green.tokensOf (mark.2.reverse ++ (mark.1 ++ built.reverse))
      | none => Green.tokensOf (mark.2.reverse ++ (mark.1.reverse ++ built.reverse)) := by
  cases kind with
  | some kind =>
    show Green.tokensOf (Green.node kind _ :: mark.2).reverse = _
    rw [List.reverse_cons, Green.tokensOf_append, Green.tokensOf_node, ← Green.tokensOf_append]
  | none => simp [Forest.leave]

/-- A node that opens and closes carries what its inside carries. -/
theorem mark (kind : Option Kind) (h : State.Carries s.enter.2 t) :
    s.Carries (t.leave s.enter.1 kind) := by
  obtain ⟨taken, htokens, hpieces⟩ := h
  refine ⟨taken, ?_, hpieces⟩
  have hleave := tokensOf_leave s.enter.1 kind t.built
  refine hleave.trans ?_
  have hinner : Green.tokensOf t.built.reverse = taken.map Token.outline := htokens
  cases kind <;>
    simp [State.enter, Assembly.enter, Green.tokensOf_append, hinner]

/-- So does one that opens around the newest node. -/
theorem enclose (kind : Kind) (h : State.Carries s.precede.2 t) :
    s.Carries (t.leave s.precede.1 (some kind)) := by
  obtain ⟨wrapped, before, hbuilt, hprecede⟩ := s.precede_eq
  rw [hprecede] at h ⊢
  obtain ⟨taken, htokens, hpieces⟩ := h
  have hinner : Green.tokensOf t.built.reverse = taken.map Token.outline := htokens
  have hopened : s.built.reverse = before.reverse ++ wrapped := by
    rw [hbuilt, List.reverse_append, List.reverse_reverse]
  refine ⟨taken, ?_, hpieces⟩
  refine (tokensOf_leave (wrapped, before) (some kind) t.built).trans ?_
  show Green.tokensOf (before.reverse ++ (wrapped ++ t.built.reverse)) = _
  rw [← List.append_assoc, ← hopened, Green.tokensOf_append, hinner]

/-- A missing token is none of the tokens that were read. -/
theorem missing (kind : Kind) (spelling : Text) :
    s.Carries { s with built := Assembly.missing kind spelling s.built } := by
  refine .still rfl ?_
  show Green.tokensOf (Green.missing _ _ :: s.built).reverse = _
  rw [List.reverse_cons, Green.tokensOf_append]
  exact List.append_nil _

/-- What is skipped is taken as it is. -/
theorem unexpected (more : Nat) : s.Carries (s.unexpected more) := by
  obtain ⟨_ | ⟨x, ts⟩, built⟩ := s
  · exact .refl _
  · rw [State.unexpected_cons]
    exact State.Carries.mark (s := ⟨x :: ts, built⟩) (some .unexpected)
      (.addAll (more + 1) (x :: ts) [])

end State.Carries

/-- What is taken is among the tokens that are added. -/
theorem State.Carries.hasPresent {s t : State Forest} {g : Green} (h : s.Carries t)
    (hbuilt : t.built = g :: s.built) (hlt : t.ahead.left < s.ahead.left) : g.hasPresent := by
  obtain ⟨taken, htokens, hpieces⟩ := h
  rw [hbuilt, List.reverse_cons, Green.tokensOf_append] at htokens
  have hadded := List.append_cancel_left htokens
  cases hg : g.hasPresent with
  | true => rfl
  | false =>
    rw [Green.tokensOf_eq_nil hg] at hadded
    obtain rfl := List.map_eq_nil_iff.mp hadded.symm
    have hsame := (hpieces _ [] (.refl _)).fullText_eq
    exact absurd (congrArg Text.byteLen hsame) (Nat.ne_of_lt hlt)

/-- Whether what an environment reaches is what goals give. -/
def Env.Honest (env : Env Forest) : Prop :=
  ∀ (goal : Goal) (s : State Forest) (a : Bool) (t : State Forest),
    env.call goal s = some (a, t) →
      (∃ g, t.built = g :: s.built ∧ goal.Gives s.ahead a t.ahead g) ∧ s.Carries t

/-- A loop puts together what is wanted if its rounds keep an invariant. -/
theorem iterate_of_yields {α : Type} {step : State Forest → Option (Option α × State Forest)}
    {invariant : State Forest → Prop} {post : α → State Forest → Prop}
    (hstep : ∀ s a t, invariant s → step s = some (a, t) → (match a with
      | some a => post a t
      | none => invariant t) ∧ s.Carries t) (n : Nat) :
    ∀ {s : State Forest} {a : α} {t : State Forest}, invariant s →
      iterate step n s = some (a, t) → post a t ∧ s.Carries t := by
  induction n with
  | zero =>
    intro s a t _ h
    cases h
  | succ n ih =>
    intro s a t hs h
    rw [iterate] at h
    split at h
    · cases h
    · rename_i b u hu
      cases h
      exact hstep s _ _ hs hu
    · rename_i u hu
      obtain ⟨hinvariant, hcarries⟩ := hstep s _ u hs hu
      obtain ⟨hpost, hcarries'⟩ := ih hinvariant h
      exact ⟨hpost, hcarries.trans hcarries'⟩

/-- **Under its condition a rule puts together what is wanted**, if it has an outcome, and of the
pieces of the tokens that it reads. This turns a statement about one rule, its condition, into one
about all of its runs, by induction on how rules are put together. -/
theorem Parser.sound_of_yields {α : Type} {env : Env Forest} (henv : env.Honest) {p : Parser α} :
    ∀ {s : State Forest} {a : α} {t : State Forest} {post : α → State Forest → Prop},
      p.run env s = some (a, t) → p.yields s post → post a t ∧ s.Carries t := by
  induction p with
  | pure a =>
    intro s b t post hr h
    cases hr
    exact ⟨h, .refl s⟩
  | bind first next ih_first ih_next =>
    intro s b t post hr h
    rw [run] at hr
    split at hr
    · cases hr
    · rename_i a u hu
      obtain ⟨hnext, hcarries⟩ := ih_first hu h
      obtain ⟨hpost, hcarries'⟩ := ih_next a hr hnext
      exact ⟨hpost, hcarries.trans hcarries'⟩
  | look f =>
    intro s b t post hr h
    cases hr
    exact ⟨h, .refl s⟩
  | take kind =>
    intro s b t post hr h
    cases hr
    exact ⟨h.2, .take h.1⟩
  | splitHead head rest =>
    intro s b t post hr h
    cases hr
    exact ⟨h.2, .splitHead h.1⟩
  | missing kind spelling =>
    intro s b t post hr h
    cases hr
    exact ⟨h, .missing kind.1 spelling⟩
  | placeholder kind =>
    intro s b t post hr h
    cases hr
    exact ⟨h, .mark (some kind.1) (.refl _)⟩
  | unexpected more =>
    intro s b t post hr h
    cases hr
    exact ⟨h, .unexpected more⟩
  | override start diagnostic =>
    intro s b t post hr h
    cases hr
    exact ⟨h, .refl s⟩
  | mark body ih =>
    intro s b t post hr h
    rw [run_mark] at hr
    split at hr
    · cases hr
    · rename_i hu
      cases hr
      obtain ⟨hpost, hcarries⟩ := ih hu h
      exact ⟨hpost, .mark _ hcarries⟩
  | enclose kind body ih =>
    intro s b t post hr h
    rw [run_enclose] at hr
    split at hr
    · cases hr
    · rename_i hu
      cases hr
      obtain ⟨hpost, hcarries⟩ := ih hu h
      exact ⟨hpost, .enclose kind.1 hcarries⟩
  | call goal =>
    intro s b t post hr h
    -- nothing is known of a goal but what it gives
    obtain ⟨⟨g, hbuilt, hgives⟩, hcarries⟩ := henv goal s b t hr
    have hpost := h b t.ahead g hgives
    rw [← hbuilt] at hpost
    exact ⟨hpost, hcarries⟩
  | repeatUntil body ih =>
    intro s b t post hr h
    obtain ⟨invariant, hs, hround⟩ := h
    exact iterate_of_yields (fun u a v hu hv => ih hv (hround u hu)) env.rounds hs hr

end Grammar

end SwiftTree
