import SwiftTree.Proofs.Evaluation
import SwiftTree.Proofs.Parentheses
import SwiftTree.Proofs.Placement.Statements

/-!
# Literals are closed as they are opened

The tokenizer opens and closes string literals by their delimiters. The rules find the literals
again among the tokens, by kinds alone. They are in step with the tokenizer as long as they see an
interpolation end where the tokenizer does, which counts parentheses: a closing one that the rules
leave to the wrong group makes them take a quote or `#`s of one literal for those of another.

So what is asked here is about parentheses (`Green.keepsParens`). Those inside an interpolation
match, and the one that ends it is there. The arguments of an attribute end with the parenthesis
that closes their first one. Unexpected text leaves none open. Then a scan passes from one tree to
the next as the rules did: a tree of code leaves what is open as it was, but for the parentheses of
the interpolation around it (`Green.CrossesCode`), and the parts of a literal leave it open
(`Green.CrossesLiteral`). As the scan takes the tokens of every text, all literals are closed as
they are opened (`Entry.literals_closeAsOpened`).
-/

namespace SwiftTree

-- what holds of all kinds is computed kind by kind
set_option maxRecDepth 1000

open Grammar

open Scope (scan scan_cons_of_isCode scan_append_of_closed scan_quote scan_pounds scan_openingQuote
  scan_closingQuote scan_closingPounds scan_unclosed scan_segment scan_backslash scan_paren
  scan_closingParen shift shift_nil shift_append shift_of_neutral Keeps keeps_append isCode
    isCode_shift)

open Green (Placed Quoted Interpolated Delimited DeepAll StandAll tokensOf tokensOf_append
  tokensOf_node)

namespace Kind

/-- The nodes that only stand in a string literal. -/
def literalParts : List Kind := [.stringSegmentList, .expressionSegment]

/-- The tokens that only string literals have. -/
def stringParts : List Kind :=
  [.stringQuote, .multilineStringQuote, .singleQuote, .rawStringDelimiter, .stringSegment]

/-- The tokens of `stringParts` are all the tokens that only string literals have. -/
theorem contains_stringParts {k : Kind} (h : k.isStringPart) : stringParts.contains k := by
  unfold isStringPart isStringQuote at h
  split at h
  case h_4 =>
    rcases Bool.or_eq_true_iff.mp h with h | h
    all_goals obtain rfl := beq_iff_eq.mp h; rfl
  all_goals rfl

/-- The nodes that are made of code. -/
def isCode (k : Kind) : Bool :=
  !literalParts.contains k && !k.isVerbatim && k != .stringLiteralExpr

end Kind

/-- Whether trees of a shape have none of some nodes, and none of some tokens. -/
def Shape.without (nodes tokens : List Kind) : Shape → Bool
  | .nothing | .missing _ => true
  | .token kinds => tokens.all fun k => !kinds k
  | .node kinds => nodes.all fun k => !kinds k
  | .seq a b | .alt a b => a.without nodes tokens && b.without nodes tokens
  | .many a => a.without nodes tokens

/-- Whether trees of a shape can have some nodes or tokens is computed from the shape. -/
theorem Shape.all_isWithin_of_without {nodes tokens : List Kind} {a : Shape} {gs : List Green}
    (h : a.Matches gs) (ha : a.without nodes tokens) :
    gs.all (Green.isWithin (fun k => !nodes.contains k) fun k => !tokens.contains k) := by
  have hnot {ks : List Kind} {kinds : Kind → Bool} {k : Kind} (hks : ks.all fun k => !kinds k)
      (hk : kinds k) : (!ks.contains k) = true := by
    rw [Bool.not_eq_true', ← Bool.not_eq_true, List.contains_iff_mem]
    intro hmem
    have hnone := List.all_eq_true.mp hks k hmem
    rw [hk] at hnone
    cases hnone
  induction h with
  | nothing | none | missing => rfl
  | token hkind | node hkind => exact (Bool.and_true _).trans (hnot ha hkind)
  | seq _ _ ihx ihy =>
    rw [without, Bool.and_eq_true] at ha
    rw [List.all_append, ihx ha.1, ihy ha.2, Bool.and_true]
  | left _ ih => exact ih ((Bool.and_eq_true _ _).mp ha).1
  | right _ ih => exact ih ((Bool.and_eq_true _ _).mp ha).2
  | more _ _ ihx ihy => rw [List.all_append, ihx ha, ihy ha, Bool.and_true]

/-- Nodes of code have no parts of literals, and no tokens that only literals have. -/
theorem Kind.without_shape {k : Kind} (h : k.isCode) :
    k.shape.without literalParts stringParts := by
  have hall : all.all fun k => !k.isCode || k.shape.without literalParts stringParts := by
    decide +kernel
  have hk := List.all_eq_true.mp hall k k.mem_all
  rwa [h, Bool.not_true, Bool.false_or] at hk

namespace Token

/-- Whether tokens start with a parenthesis, and the last one closes it. -/
def isParenthesized : List Outline → Bool
  | [] => false
  | t :: ts => t.kind == .leftParen && (ts.getLast?.any fun u => u.kind == .rightParen) &&
      parensMatch ts.dropLast

variable {ts : List Outline}

/-- Parentheses around something whose own parentheses match, with the closing one at the end. -/
theorem exists_of_isParenthesized (h : isParenthesized ts) : ∃ opener inside closer,
    ts = opener :: (inside ++ [closer]) ∧ opener.kind = .leftParen ∧ closer.kind = .rightParen ∧
      parensMatch inside := by
  cases ts with
  | nil => cases h
  | cons opener ts =>
    simp only [isParenthesized, Bool.and_eq_true, beq_iff_eq, Option.any_eq_true] at h
    obtain ⟨⟨hopener, closer, hlast, hcloser⟩, hmatch⟩ := h
    refine ⟨opener, ts.dropLast, closer, ?_, hopener, hcloser, hmatch⟩
    rw [List.dropLast_append_getLast? closer hlast]

end Token

/-! ## What is asked, and what holds then -/

namespace Green

/-- Whether the parentheses of a node are where counting finds them: those inside an interpolation
match, and the one behind them is there; those of an attribute end with the one that closes the
first one; and unexpected text leaves none open. -/
def keepsParens : Green → Bool
  | .node .expressionSegment [_, _, arguments, .leaf closer] =>
    closer.isPresent && Token.parensMatch (tokensOf [arguments])
  | .node .expressionSegment _ => false
  | .node .attributeArguments cs => Token.isParenthesized (tokensOf cs)
  | .node .unexpected cs => Token.parensBehind 0 (tokensOf cs) == 0
  | _ => true

/-- Whether the parts of a literal end as they start: with the same quote, and with as many `#`s
behind it, be they there or missing, as there are in front. -/
def closesAsOpened : List Green → Bool
  | [.leaf opening, .node .stringSegmentList _, .leaf closing] =>
    opening.kind.isStringQuote && closing.kind == opening.kind
  | [.leaf pounds, .leaf opening, .node .stringSegmentList _, .leaf closing, .leaf delimiter] =>
    pounds.isPresent && pounds.kind == .rawStringDelimiter && opening.kind.isStringQuote &&
      closing.kind == opening.kind && delimiter.kind == .rawStringDelimiter &&
        delimiter.textTrimmed == pounds.textTrimmed
  | _ => false

/-- Whether a node, if it is a literal, ends as it starts. -/
def Closes (kind : Kind) (cs : List Green) : Prop := kind = .stringLiteralExpr → closesAsOpened cs

/-- Whether a scan that passes some trees of code comes out as it went in, but for the parentheses
of the interpolation that they stand in, and all literals in them are closed as they are opened. -/
def CrossesCode (next : Outlook) (gs : List Green) : Prop :=
  ∀ ss us, isCode ss → Token.Show us next → Keeps 0 (tokensOf gs) ss →
    (scan ss (tokensOf gs ++ us)).isSome →
      scan ss (tokensOf gs ++ us) = scan (shift (tokensOf gs) ss) us ∧ DeepAll Closes gs

/-- Whether a scan that passes some parts of a literal is still in the literal, and their
parentheses match. -/
def CrossesLiteral (next : Outlook) (gs : List Green) : Prop :=
  ∀ d ss us, isCode ss → Token.Show us next → (scan (.literal d :: ss) (tokensOf gs ++ us)).isSome →
    scan (.literal d :: ss) (tokensOf gs ++ us) = scan (.literal d :: ss) us ∧ DeepAll Closes gs ∧
      Token.Neutral (tokensOf gs)

/-- Whether a scan passes a node as its kind tells. -/
def Crosses (kind : Kind) (cs : List Green) (next : Outlook) : Prop :=
  if Kind.literalParts.contains kind then CrossesLiteral next [.node kind cs]
  else CrossesCode next [.node kind cs]

variable {kind : Kind} {g : Green} {gs hs cs : List Green} {next : Outlook}

theorem tokensOf_cons (g : Green) (gs : List Green) :
    tokensOf (g :: gs) = tokensOf [g] ++ tokensOf gs := tokensOf_append [g] gs

theorem tokensOf_present (t : Token.Outline) (gs : List Green) :
    tokensOf (.leaf (.present t) :: gs) = t :: tokensOf gs := rfl

theorem crossesCode_nil : CrossesCode next [] := by
  intro ss us _ _ _ _
  rw [show tokensOf [] = [] from rfl, shift_nil]
  exact ⟨rfl, trivial⟩

/-- A scan crosses code in two parts. The first part is seen with the second one behind it. -/
theorem CrossesCode.append (hg : CrossesCode (sightOf hs next) gs) (hh : CrossesCode next hs) :
    CrossesCode next (gs ++ hs) := by
  intro ss us hss hus hkeeps hsome
  rw [tokensOf_append] at hkeeps hsome ⊢
  rw [List.append_assoc] at hsome ⊢
  obtain ⟨hfirst, hrest⟩ := keeps_append.mp hkeeps
  obtain ⟨hgs, hclosed⟩ := hg ss _ hss (hus.append hs) hfirst hsome
  rw [hgs] at hsome ⊢
  obtain ⟨hhs, hclosed'⟩ := hh _ us (isCode_shift hss _) hus hrest hsome
  rw [shift_append]
  exact ⟨hhs, deepAll_append.mpr ⟨hclosed, hclosed'⟩⟩

theorem crossesLiteral_nil : CrossesLiteral next [] :=
  fun _ _ _ _ _ _ => ⟨rfl, trivial, fun _ => rfl⟩

/-- A scan crosses the parts of a literal in two goes, in the same way. -/
theorem CrossesLiteral.append (hg : CrossesLiteral (sightOf hs next) gs)
    (hh : CrossesLiteral next hs) : CrossesLiteral next (gs ++ hs) := by
  intro d ss us hss hus hsome
  rw [tokensOf_append] at hsome ⊢
  rw [List.append_assoc] at hsome ⊢
  obtain ⟨hgs, hclosed, hparens⟩ := hg d ss _ hss (hus.append hs) hsome
  rw [hgs] at hsome ⊢
  obtain ⟨hhs, hclosed', hparens'⟩ := hh d ss us hss hus hsome
  exact ⟨hhs, deepAll_append.mpr ⟨hclosed, hclosed'⟩, hparens.append hparens'⟩

/-! ### Code -/

/-- A token of code is crossed on its own: all it can do is to count as a parenthesis. -/
theorem crossesCode_leaf {l : Leaf} (h : l.isPresent → l.kind.isStringPart = false) :
    CrossesCode next [.leaf l] := by
  intro ss us hss _ hkeeps _
  cases l with
  | present t => exact ⟨scan_cons_of_isCode hss hkeeps (h rfl), trivial, trivial⟩
  | missing k spelling =>
    rw [show tokensOf [.leaf (.missing k spelling)] = [] from rfl, shift_nil]
    exact ⟨rfl, trivial, trivial⟩

/-- A node is passed as its parts are. -/
theorem CrossesCode.node (h : CrossesCode next cs) (hkind : kind ≠ .stringLiteralExpr) :
    CrossesCode next [.node kind cs] := by
  intro ss us hss hus hkeeps hsome
  rw [tokensOf_node] at hkeeps hsome ⊢
  obtain ⟨hscan, hclosed⟩ := h ss us hss hus hkeeps hsome
  exact ⟨hscan, ⟨fun hliteral => absurd hliteral hkind, hclosed⟩, trivial⟩

/-- Trees that are no parts of literals are passed one by one. -/
theorem crossesCode_of_standAll (h : StandAll Crosses next gs)
    (hall : gs.all (isWithin (fun k => !Kind.literalParts.contains k)
      fun k => !Kind.stringParts.contains k)) : CrossesCode next gs := by
  induction gs with
  | nil => exact crossesCode_nil
  | cons g gs ih =>
    rw [List.all_cons, Bool.and_eq_true] at hall
    suffices hfirst : CrossesCode (sightOf gs next) [g] from hfirst.append (ih h.2 hall.2)
    cases g with
    | leaf l =>
      refine crossesCode_leaf fun hpresent => ?_
      cases l with
      | present t =>
        refine Bool.eq_false_iff.mpr fun hpart => Bool.false_ne_true ?_
        exact ((Bool.not_eq_true' _).mp hall.1).symm.trans (Kind.contains_stringParts hpart)
      | missing k spelling => cases hpresent
    | node kind cs =>
      have hcrosses := h.1.1
      rwa [Crosses, if_neg (Bool.eq_false_iff.mp ((Bool.not_eq_true' _).mp hall.1))] at hcrosses

/-- Trees without nodes close no literal. -/
theorem deepAll_of_isVerbatim (hkind : kind.isVerbatim) (h : kind.shape.Matches cs)
    {p : Kind → List Green → Prop} : DeepAll p cs := by
  refine deepAll_iff.mpr fun c hc => ?_
  cases c with
  | node k ds => exact absurd hc (not_mem_of_isVerbatim hkind h k ds)
  | leaf l => trivial

/-- Unexpected text, where it leaves no parenthesis open. -/
theorem crossesCode_unexpected (hshape : Kind.unexpected.shape.Matches cs)
    (hplaced : Placed .unexpected cs next) (hkeeps : keepsParens (.node .unexpected cs)) :
    CrossesCode next [.node .unexpected cs] := by
  refine CrossesCode.node (fun ss us hss hus hcode hsome => ?_) nofun
  obtain ⟨t, us, rfl, hnext⟩ := hus.exists_cons
  subst hnext
  exact ⟨scan_append_of_closed hss hcode (beq_iff_eq.mp hkeeps)
    (Outlook.LeavesLiterals.cases (hplaced.unexpected rfl)) hsome, deepAll_of_isVerbatim rfl hshape⟩

/-- The arguments of an attribute, which end with the parenthesis that closes the first one. -/
theorem crossesCode_attributeArguments (hshape : Kind.attributeArguments.shape.Matches cs)
    (hkeeps : keepsParens (.node .attributeArguments cs)) :
    CrossesCode next [.node .attributeArguments cs] := by
  refine CrossesCode.node (fun ss us hss _ hcode hsome => ?_) nofun
  refine ⟨?_, deepAll_of_isVerbatim rfl hshape⟩
  obtain ⟨opener, inside, closer, htokens, hopener, hcloser, hmatch⟩ :=
    Token.exists_of_isParenthesized hkeeps
  rw [Token.parensMatch, Bool.and_eq_true, beq_iff_eq] at hmatch
  have hinside {t : Token.Outline} (ht : t.kind = .leftParen ∨ t.kind = .rightParen) :
      t.kind.isStringPart = false := by
    rcases ht with ht | ht <;> rw [ht] <;> rfl
  have hsplit : tokensOf cs = [opener] ++ (inside ++ [closer]) := htokens
  rw [hsplit] at hcode hsome ⊢
  obtain ⟨hfirst, hrest⟩ := keeps_append.mp hcode
  obtain ⟨hmiddle, hlast⟩ := keeps_append.mp hrest
  rw [List.append_assoc, List.append_assoc, List.singleton_append, List.singleton_append] at hsome ⊢
  have hss' := isCode_shift hss [opener]
  rw [scan_cons_of_isCode hss hfirst (hinside (.inl hopener))] at hsome ⊢
  have hclosed := scan_append_of_closed hss' hmiddle hmatch.2 (.inr (by rw [hcloser]; rfl)) hsome
  rw [hclosed, scan_cons_of_isCode (isCode_shift hss' inside) hlast (hinside (.inr hcloser)),
    shift_append [opener], shift_append inside]

/-! ### Parts of literals -/

/-- Nodes that are no literals of their own are parts of the literal around them. -/
theorem CrossesLiteral.node (h : CrossesLiteral next cs) (hkind : kind ≠ .stringLiteralExpr) :
    CrossesLiteral next [.node kind cs] := by
  intro d ss us hss hus hsome
  rw [tokensOf_node] at hsome ⊢
  obtain ⟨hscan, hclosed, hparens⟩ := h d ss us hss hus hsome
  exact ⟨hscan, ⟨⟨fun hliteral => absurd hliteral hkind, hclosed⟩, trivial⟩, hparens⟩

/-- A segment is a part of a literal, and leaves it open. -/
theorem crossesLiteral_segment {t : Token.Outline} (ht : t.kind = .stringSegment) :
    CrossesLiteral next [.leaf (.present t)] := by
  intro d ss us hss _ hsome
  refine ⟨scan_segment hss ht hsome, ⟨trivial, trivial⟩, fun n => ?_⟩
  exact Scope.parensBehind_of_ne (by rw [ht]; exact nofun) (by rw [ht]; exact nofun) n

/-- Segments are passed one by one. -/
theorem crossesLiteral_of_standAll (h : StandAll Crosses next gs)
    (hall : gs.all (isWithin (fun k => k == .expressionSegment) fun k => k == .stringSegment)) :
    CrossesLiteral next gs := by
  induction gs with
  | nil => exact crossesLiteral_nil
  | cons g gs ih =>
    rw [List.all_cons, Bool.and_eq_true] at hall
    suffices hfirst : CrossesLiteral (sightOf gs next) [g] from hfirst.append (ih h.2 hall.2)
    cases g with
    | leaf l =>
      cases l with
      | present t => exact crossesLiteral_segment (beq_iff_eq.mp hall.1)
      | missing k spelling =>
        exact fun d ss us _ _ _ => ⟨rfl, ⟨trivial, trivial⟩, fun _ => rfl⟩
    | node kind cs =>
      obtain rfl : kind = .expressionSegment := beq_iff_eq.mp hall.1
      exact h.1.1

/-- The parts of an interpolation by its shape: a backslash, an opening parenthesis, arguments, and
a closing parenthesis. -/
theorem exists_of_expressionSegment (h : Kind.expressionSegment.shape.Matches cs) :
    ∃ (backslash : Token.Outline) (paren : Leaf) (arguments : List Green) (closer : Leaf),
      cs = [.leaf (.present backslash), .leaf paren, .node .argumentList arguments, .leaf closer] ∧
        backslash.kind = .backslash ∧ paren.kind = .leftParen ∧ closer.kind = .rightParen := by
  cases h with
  | seq hbackslash h =>
    cases h with
    | seq hparen h =>
      cases h with
      | seq harguments hcloser =>
        obtain ⟨backslash, rfl, hb⟩ := hbackslash.exists_token
        obtain ⟨paren, rfl, hp⟩ := hparen.exists_leaf
        obtain ⟨kind, arguments, rfl, hk⟩ := harguments.exists_node
        obtain rfl := beq_iff_eq.mp hk
        obtain ⟨closer, rfl, hc⟩ := hcloser.exists_leaf
        exact ⟨backslash, paren, arguments, closer, rfl, beq_iff_eq.mp hb, hp, hc⟩

/-- An interpolation, where the parentheses inside it match. -/
theorem crossesLiteral_expressionSegment (hshape : Kind.expressionSegment.shape.Matches cs)
    (hplaced : Placed .expressionSegment cs next)
    (hkeeps : keepsParens (.node .expressionSegment cs))
    (h : StandAll Crosses next cs) : CrossesLiteral next [.node .expressionSegment cs] := by
  refine CrossesLiteral.node (fun d ss us hss hus hsome => ?_) nofun
  obtain ⟨backslash, paren, arguments, closer, rfl, hbackslash, hparen, hcloser⟩ :=
    exists_of_expressionSegment hshape
  obtain ⟨_, _, _, heq, hline, hnone⟩ := hplaced.interpolated rfl
  cases heq
  obtain ⟨hpresent, hmatch⟩ := (Bool.and_eq_true ..).mp hkeeps
  cases closer with
  | missing => cases hpresent
  | present closer =>
    rw [tokensOf_present, List.cons_append, scan_backslash hline hbackslash] at hsome ⊢
    cases paren with
    | missing k spelling =>
      -- the parenthesis would have been seen
      obtain ⟨t, ts, hts, hsight⟩ := (hus.append [.leaf (.missing k spelling),
        .node .argumentList arguments, .leaf (.present closer)]).exists_cons
      rw [hts] at hsome
      have hat : t.sight.isAt .leftParen = false := hsight ▸ hnone rfl
      rw [Token.Outline.isAt_sight rfl (by decide), (scan_paren hsome).1] at hat
      cases hat
    | present paren =>
      rw [tokensOf_present, tokensOf_cons, List.cons_append, List.append_assoc] at hsome ⊢
      have hentered := (scan_paren hsome).2
      rw [hentered] at hsome ⊢
      have hinside : CrossesCode (sightOf [.leaf (.present closer)] next)
          [.node .argumentList arguments] := h.2.2.1.1
      have hneutral := Token.neutral_of_parensMatch hmatch
      rw [Token.parensMatch, Bool.and_eq_true] at hmatch
      obtain ⟨hscan, hclosed⟩ := hinside (.interpolation 0 :: .literal d :: ss) (closer :: us) rfl
        ⟨List.cons_ne_nil _ _, rfl⟩ hmatch.1 hsome
      refine ⟨hscan.trans ?_, ⟨trivial, trivial, hclosed.1, trivial, trivial⟩, fun n => ?_⟩
      · rw [shift_of_neutral hneutral, scan_closingParen hcloser]
      · have hclose : closer.kind = .rightParen := hcloser
        have hopen : paren.kind = .leftParen := hparen
        rw [Token.parensBehind, Token.parensBehind, Token.parensBehind_append, hneutral, hbackslash,
          hopen, tokensOf_present, Token.parensBehind, hclose]
        rfl

/-! ### Literals -/

/-- What is known of a literal by its quotes. -/
structure Unclosed (quote : Kind) (next : Outlook) : Prop where
  segment : next.isAt .stringSegment = false
  line : next.isOnLine → next.isAt .backslash = false ∧ next.isAt quote = false

section

variable {opening closing delimiter : Leaf} {segments : List Green}

/-- What is known of a literal without number signs, read off where its quotes are. -/
theorem Quoted.of_quotes
    (h : Quoted [.leaf opening, .node .stringSegmentList segments, .leaf closing] next) :
    opening.isPresent ∧ (∀ t : Token.Outline, closing = .present t →
      t.leading.containsNewline = false) ∧
      (closing.isPresent = false → Unclosed closing.kind next) := by
  obtain ⟨front, _, _, _, back, heq, hopening, hclosing, hunclosed⟩ := h
  rcases front with _ | ⟨_, _ | ⟨_, _ | ⟨_, front⟩⟩⟩
  · cases heq
    refine ⟨?_, fun t ht => (hclosing t ht).1, fun hmissing => ?_⟩
    · by_contra hmissing
      exact (hopening (Bool.eq_false_iff.mpr hmissing)).1 rfl
    · exact ⟨(hunclosed hmissing).1, (hunclosed hmissing).2⟩
  all_goals simp at heq

/-- What is known of a literal with number signs, read off where its quotes and its delimiter
are. -/
theorem Quoted.of_raw {pounds : Token.Outline}
    (h : Quoted [.leaf (.present pounds), .leaf opening, .node .stringSegmentList segments,
      .leaf closing, .leaf delimiter] next) :
    (opening.isPresent = false → ∀ k : Kind, k.isStringQuote → (sightOf
      [.node .stringSegmentList segments, .leaf closing, .leaf delimiter] next).isAt k = false) ∧
      (∀ t : Token.Outline, closing = .present t → t.leading.containsNewline = false ∧
        (delimiter.isPresent = false → next.isAt .rawStringDelimiter = false)) ∧
      (closing.isPresent = false → Unclosed closing.kind next) := by
  obtain ⟨front, _, _, _, back, heq, hopening, hclosing, hunclosed⟩ := h
  rcases front with _ | ⟨_, _ | ⟨_, _ | ⟨_, _ | ⟨_, _ | ⟨_, front⟩⟩⟩⟩⟩
  · simp at heq
  · cases heq
    refine ⟨fun hmissing => (hopening hmissing).2, fun t ht => ⟨(hclosing t ht).1, ?_⟩,
      fun hmissing => ⟨(hunclosed hmissing).1, (hunclosed hmissing).2⟩⟩
    exact (hclosing t ht).2 _ (List.mem_singleton_self _)
  all_goals simp at heq

/-- Tokens that only literals have are no parentheses. -/
theorem neutral_leaf {l : Leaf} (h : l.kind.isStringPart) : Token.Neutral (tokensOf [.leaf l]) := by
  cases l with
  | present t =>
    refine Scope.parensBehind_of_ne ?_ ?_ <;> intro hk <;>
      exact Bool.false_ne_true ((congrArg Kind.isStringPart hk).symm.trans h)
  | missing k spelling => exact fun _ => rfl

/-- A quote is one of the tokens that only string literals have. -/
theorem isStringPart_of_isStringQuote {k : Kind} (h : k.isStringQuote) : k.isStringPart := by
  rw [Kind.isStringPart, h]
  rfl

variable {ss : List Scope} {us : List Token.Outline} {d : Delimiter}

/-- A literal without `#`s ends with its quote, or is given up where it is missing. -/
theorem scan_closing (hss : isCode ss) (hus : Token.Show us next) (hpounds : d.pounds = 0)
    (hkind : closing.kind = d.quote)
    (hline : ∀ t : Token.Outline, closing = .present t → t.leading.containsNewline = false)
    (hunclosed : closing.isPresent = false → Unclosed closing.kind next)
    (h : (scan (.literal d :: ss) (tokensOf [.leaf closing] ++ us)).isSome) :
    scan (.literal d :: ss) (tokensOf [.leaf closing] ++ us) = scan ss us := by
  cases closing with
  | present t =>
    rw [tokensOf_present, List.cons_append, scan_closingQuote (hline t rfl) hkind, if_pos hpounds]
    rfl
  | missing k spelling =>
    obtain ⟨hsegment, honline⟩ := hunclosed rfl
    rw [show k = d.quote from hkind] at honline
    exact scan_unclosed hss hus hsegment honline h

/-- Behind the quote of a literal stand as many `#`s as in front of it, or they are missing with
it. -/
theorem scan_closingRaw (hss : isCode ss) (hus : Token.Show us next) (hpounds : d.pounds ≠ 0)
    (hkind : closing.kind = d.quote) (hdelimiter : delimiter.kind = .rawStringDelimiter)
    (hline : ∀ t : Token.Outline, closing = .present t → t.leading.containsNewline = false ∧
      (delimiter.isPresent = false → next.isAt .rawStringDelimiter = false))
    (hmissing : closing.isPresent = false → delimiter = .missing .rawStringDelimiter d.poundsText)
    (hunclosed : closing.isPresent = false → Unclosed closing.kind next)
    (h : (scan (.literal d :: ss) (tokensOf [.leaf closing, .leaf delimiter] ++ us)).isSome) :
    scan (.literal d :: ss) (tokensOf [.leaf closing, .leaf delimiter] ++ us) = scan ss us ∧
      delimiter.textTrimmed = d.poundsText := by
  cases closing with
  | present t =>
    obtain ⟨hnewline, hnone⟩ := hline t rfl
    rw [tokensOf_present, List.cons_append, scan_closingQuote hnewline hkind, if_neg hpounds] at h ⊢
    cases delimiter with
    | present u =>
      obtain ⟨-, htext, hscan⟩ := scan_closingPounds h
      exact ⟨hscan, htext⟩
    | missing k spelling =>
      -- the delimiter would have been seen
      obtain ⟨u, us, rfl, hsight⟩ := hus.exists_cons
      have hat : u.sight.isAt .rawStringDelimiter = false := hsight ▸ hnone rfl
      rw [Token.Outline.isAt_sight rfl (by decide), (scan_closingPounds h).1] at hat
      cases hat
  | missing k spelling =>
    obtain ⟨hsegment, honline⟩ := hunclosed rfl
    rw [show k = d.quote from hkind] at honline
    obtain rfl := hmissing rfl
    exact ⟨scan_unclosed hss hus hsegment honline h, rfl⟩

/-- Whether a scan passes a literal of code, and the literal ends as it starts. -/
structure PassesLiteral (ss : List Scope) (us : List Token.Outline) (cs : List Green) : Prop where
  scan : scan ss (tokensOf cs ++ us) = scan ss us
  neutral : Token.Neutral (tokensOf cs)
  closes : closesAsOpened cs
  inside : DeepAll Closes cs

/-- A literal that starts with a quote. -/
theorem passesLiteral_quoted (hss : isCode ss) (hus : Token.Show us next)
    (hquote : opening.kind.isStringQuote) (hkind : closing.kind = opening.kind)
    (hquoted : Quoted [.leaf opening, .node .stringSegmentList segments, .leaf closing] next)
    (hsegments : CrossesLiteral (sightOf [.leaf closing] next) [.node .stringSegmentList segments])
    (hsome : (scan ss (tokensOf [.leaf opening, .node .stringSegmentList segments, .leaf closing]
      ++ us)).isSome) :
    PassesLiteral ss us [.leaf opening, .node .stringSegmentList segments, .leaf closing] := by
  obtain ⟨hpresent, hline, hunclosed⟩ := hquoted.of_quotes
  cases opening with
  | missing => cases hpresent
  | present opening =>
    obtain ⟨hscan, hclosed, hparens⟩ : scan ss (tokensOf [.leaf (.present opening),
          .node .stringSegmentList segments, .leaf closing] ++ us) = scan ss us ∧
        DeepAll Closes [.node .stringSegmentList segments] ∧
        Token.Neutral (tokensOf [.node .stringSegmentList segments]) := by
      rw [tokensOf_present, tokensOf_cons, List.cons_append, List.append_assoc,
        scan_quote hss hquote] at hsome ⊢
      obtain ⟨hscan, hclosed, hparens⟩ := hsegments _ ss _ hss (hus.append [.leaf closing]) hsome
      rw [hscan] at hsome
      exact ⟨hscan.trans (scan_closing hss hus rfl hkind hline hunclosed hsome), hclosed, hparens⟩
    have hfront := neutral_leaf (isStringPart_of_isStringQuote hquote)
    have hback := neutral_leaf (isStringPart_of_isStringQuote (hkind ▸ hquote))
    refine ⟨hscan, ?_, ?_, trivial, hclosed.1, trivial, trivial⟩
    · rw [tokensOf_cons, tokensOf_cons (.node .stringSegmentList segments)]
      exact hfront.append (hparens.append hback)
    · rw [closesAsOpened, hquote, hkind, beq_self_eq_true]
      rfl

/-- A literal that starts with `#`s. -/
theorem passesLiteral_raw {pounds : Token.Outline} (hss : isCode ss) (hus : Token.Show us next)
    (hpounds : pounds.kind = .rawStringDelimiter) (hquote : opening.kind.isStringQuote)
    (hkind : closing.kind = opening.kind) (hdelimiter : delimiter.kind = .rawStringDelimiter)
    (hmissing : closing.isPresent = false →
      delimiter = .missing .rawStringDelimiter (List.replicate pounds.text.length '#'))
    (hquoted : Quoted [.leaf (.present pounds), .leaf opening, .node .stringSegmentList segments,
      .leaf closing, .leaf delimiter] next)
    (hsegments : CrossesLiteral (sightOf [.leaf closing, .leaf delimiter] next)
      [.node .stringSegmentList segments])
    (hsome : (scan ss (tokensOf [.leaf (.present pounds), .leaf opening,
      .node .stringSegmentList segments, .leaf closing, .leaf delimiter] ++ us)).isSome) :
    PassesLiteral ss us [.leaf (.present pounds), .leaf opening, .node .stringSegmentList segments,
      .leaf closing, .leaf delimiter] := by
  obtain ⟨hopening, hline, hunclosed⟩ := hquoted.of_raw
  obtain ⟨hscan, hsame, hclosed, hparens⟩ : scan ss
    (tokensOf [.leaf (.present pounds), .leaf opening,
        .node .stringSegmentList segments, .leaf closing, .leaf delimiter] ++ us) = scan ss us ∧
      delimiter.textTrimmed = pounds.text ∧ DeepAll Closes [.node .stringSegmentList segments] ∧
      Token.Neutral (tokensOf [.node .stringSegmentList segments]) := by
    rw [tokensOf_present, List.cons_append] at hsome ⊢
    obtain ⟨hne, htext, hfront⟩ := scan_pounds hss hpounds hsome
    rw [hfront] at hsome ⊢
    cases opening with
    | missing k spelling =>
      -- the quote would have been seen
      obtain ⟨t, ts, hts, hsight⟩ := (hus.append [.leaf (.missing k spelling),
        .node .stringSegmentList segments, .leaf closing, .leaf delimiter]).exists_cons
      rw [hts] at hsome
      obtain ⟨ht, -⟩ := scan_openingQuote hsome
      have hat : t.sight.isAt t.kind = false := hsight ▸ hopening rfl t.kind ht
      obtain ⟨hsteady, hend⟩ :=
        Kind.isSteady_of_isInLiteral (Kind.isInLiteral_of_isStringQuote ht)
      rw [Token.Outline.isAt_sight hsteady hend, beq_self_eq_true] at hat
      cases hat
    | present opening =>
      rw [tokensOf_present, tokensOf_cons, List.cons_append, List.append_assoc] at hsome ⊢
      obtain ⟨ho, hopened⟩ := scan_openingQuote hsome
      rw [hopened] at hsome ⊢
      obtain ⟨hscan, hclosed, hparens⟩ :=
        hsegments _ ss _ hss (hus.append [.leaf closing, .leaf delimiter]) hsome
      rw [hscan] at hsome
      have hlength : pounds.text.length ≠ 0 := mt List.length_eq_zero_iff.mp hne
      obtain ⟨hend, hsame⟩ := scan_closingRaw (d := ⟨pounds.text.length, opening.kind, ho⟩)
        hss hus hlength hkind hdelimiter hline hmissing hunclosed hsome
      exact ⟨hscan.trans hend, hsame.trans htext.symm, hclosed, hparens⟩
  have hpart {k : Kind} (hk : k = .rawStringDelimiter) : k.isStringPart := by rw [hk]; rfl
  have hfront := (neutral_leaf (l := .present pounds) (hpart hpounds)).append
    (neutral_leaf (isStringPart_of_isStringQuote hquote))
  have hback := (neutral_leaf (isStringPart_of_isStringQuote (hkind ▸ hquote))).append
    (neutral_leaf (hpart hdelimiter))
  refine ⟨hscan, ?_, ?_, trivial, trivial, hclosed.1, trivial, trivial, trivial⟩
  · rw [← tokensOf_cons] at hback
    rw [tokensOf_cons, tokensOf_cons (.leaf opening),
      tokensOf_cons (.node .stringSegmentList segments), ← List.append_assoc]
    exact hfront.append (hparens.append hback)
  · simp only [closesAsOpened, Bool.and_eq_true, beq_iff_eq]
    exact ⟨⟨⟨⟨⟨rfl, hpounds⟩, hquote⟩, hkind⟩, hdelimiter⟩, hsame⟩

end

/-- A literal in code, and whether it ends as it starts. -/
theorem crossesCode_stringLiteral (hdelimited : Delimited cs) (hquoted : Quoted cs next)
    (h : StandAll Crosses next cs) : CrossesCode next [.node .stringLiteralExpr cs] := by
  intro ss us hss hus _ hsome
  rw [tokensOf_node] at hsome ⊢
  have hpasses : PassesLiteral ss us cs := by
    cases hdelimited with
    | quoted hquote hkind =>
      exact passesLiteral_quoted hss hus hquote hkind hquoted h.2.1.1 hsome
    | raw hpounds hquote hkind hdelimiter hmissing =>
      exact passesLiteral_raw hss hus hpounds hquote hkind hdelimiter hmissing hquoted
        h.2.2.1.1 hsome
  rw [shift_of_neutral hpasses.neutral]
  exact ⟨hpasses.scan, ⟨fun _ => hpasses.closes, hpasses.inside⟩, trivial⟩

/-! ### Every node -/

/-- A node is passed as its kind tells if its parts are, and parentheses are where counting finds
them. -/
theorem crosses_of_standAll (hexact : Exact kind cs) (hplaced : Placed kind cs next)
    (hkeeps : (node kind cs).keepsParens) (h : StandAll Crosses next cs) :
    Crosses kind cs next := by
  by_cases hlist : kind = .stringSegmentList
  · subst hlist
    refine CrossesLiteral.node (crossesLiteral_of_standAll h ?_) nofun
    exact Shape.all_isWithin hexact.shape rfl
  by_cases hsegment : kind = .expressionSegment
  · subst hsegment
    exact crossesLiteral_expressionSegment hexact.shape hplaced hkeeps h
  by_cases hliteral : kind = .stringLiteralExpr
  · subst hliteral
    exact crossesCode_stringLiteral (hexact.delimited rfl) (hplaced.quoted rfl) h
  by_cases hunexpected : kind = .unexpected
  · subst hunexpected
    exact crossesCode_unexpected hexact.shape hplaced hkeeps
  by_cases harguments : kind = .attributeArguments
  · subst harguments
    exact crossesCode_attributeArguments hexact.shape hkeeps
  have hpart : Kind.literalParts.contains kind = false := by
    simp [Kind.literalParts, hlist, hsegment]
  have hverbatim : kind.isVerbatim = false := by
    unfold Kind.isVerbatim
    split
    · exact absurd rfl hunexpected
    · exact absurd rfl harguments
    · rfl
  have hcode : kind.isCode := by
    rw [Kind.isCode, hpart, hverbatim, bne_iff_ne.mpr hliteral]
    rfl
  rw [Crosses, hpart, if_neg Bool.false_ne_true]
  refine CrossesCode.node (crossesCode_of_standAll h ?_) hliteral
  exact Shape.all_isWithin_of_without hexact.shape (Kind.without_shape hcode)

mutual

/-- Every node of a tree is passed as its kind tells. -/
theorem crosses_of_deep : {g : Green} → {next : Outlook} → g.Strict → g.Stands Placed next →
    g.Deep (fun kind cs => (node kind cs).keepsParens) → g.Stands Crosses next
  | .node _ _, _, hstrict, hstands, hkeeps =>
    have hparts := crosses_of_deepAll hstrict.2 hstands.2 hkeeps.2
    ⟨crosses_of_standAll hstrict.1 hstands.1 hkeeps.1 hparts, hparts⟩
  | .leaf _, _, _, _, _ => trivial

/-- A scan crosses the trees of several parts if it crosses those of each of them, with the sight of
the others behind it. -/
theorem crosses_of_deepAll : {gs : List Green} → {next : Outlook} → StrictAll gs →
    StandAll Placed next gs → DeepAll (fun kind cs => (node kind cs).keepsParens) gs →
      StandAll Crosses next gs
  | [], _, _, _, _ => trivial
  | _ :: _, _, hstrict, hstands, hkeeps =>
    ⟨crosses_of_deep hstrict.1 hstands.1 hkeeps.1,
      crosses_of_deepAll hstrict.2 hstands.2 hkeeps.2⟩

end

end Green

namespace Entry

/-- In every text, a string literal ends with the quote that it starts with; and if that one is
missing at its end, so are as many `#`s behind it as there are in front. Where parentheses are where
counting finds them, every literal has as many `#`s at its end as at its start, be they there or
missing. -/
theorem literals_closeAsOpened (e : Entry) (text : Text) {n : Node}
    (hn : n ∈ (Node.ofGreen (e.tree text)).descendants) (hkind : n.kind = .stringLiteralExpr) :
    Delimited n.children ∧
      ((∀ m ∈ (Node.ofGreen (e.tree text)).descendants, m.green.keepsParens) →
        Green.closesAsOpened n.children) := by
  refine ⟨(strict_of_mem_descendants hn).1.delimited hkind, fun hkeeps => ?_⟩
  have hcode : e.root.isCode := by cases e <;> rfl
  have hstrict := e.strict_tree text
  have hstands := e.stands_tree placing_met text
  obtain ⟨pieces, hpieces, htokens⟩ := e.exists_pieces text
  rw [e.tree_eq] at hn hkeeps hstrict hstands htokens
  have hdeep := Node.deep_of_forall_descendants
    (p := fun kind cs => (Green.node kind cs).keepsParens) hkeeps
  have hcrosses := (Green.crosses_of_deep hstrict hstands hdeep).2
  have hall := Shape.all_isWithin_of_without hstrict.1.shape (Kind.without_shape hcode)
  rw [List.all_append, Bool.and_eq_true] at hall
  have hparts := Green.crossesCode_of_standAll (Green.standAll_append.mp hcrosses).1 hall.1
  -- the scan of the text, with the end of the file behind the parts
  have hscan : scan [] (tokensOf (e.parts text) ++ [(endOfFile text).outline]) = some [] := by
    rw [tokensOf_node, tokensOf_append] at htokens
    have hend : tokensOf [.token (endOfFile text)] = [(endOfFile text).outline] := rfl
    rw [← hend, htokens, hpieces.scan_eq, Token.scan_stream]
  have hsight : (endOfFile text).outline.sight = none := if_pos (kind_endOfFile text)
  have hclosed := (hparts [] [(endOfFile text).outline] rfl ⟨List.cons_ne_nil _ _, ?_⟩ trivial
    (by rw [hscan]; rfl)).2
  · have hroot : Green.Closes e.root (e.parts text ++ [.token (endOfFile text)]) := by
      intro hliteral
      cases e <;> cases hliteral
    have htree : (Green.node e.root (e.parts text ++ [.token (endOfFile text)])).Deep
      Green.Closes :=
      ⟨hroot, Green.deepAll_append.mpr ⟨hclosed, trivial, trivial⟩⟩
    exact (Node.deep_of_mem_descendants (n := .ofGreen (.node e.root _)) htree hn).1 hkind
  · exact hsight.trans hsight.symm

/-- The theorem at `#"\#(f(b))"#`, with parentheses inside an interpolation. -/
theorem literals_closeAsOpened_raw :
    ∃ n ∈ (Node.ofGreen (sourceFile.tree
        ['#', '"', '\\', '#', '(', 'f', '(', 'b', ')', ')', '"', '#'])).descendants,
      n.kind = .stringLiteralExpr ∧ Green.closesAsOpened n.children := by
  have htree : (∃ n ∈ (Node.ofGreen (sourceFile.tree
        ['#', '"', '\\', '#', '(', 'f', '(', 'b', ')', ')', '"', '#'])).descendants,
      n.kind = .stringLiteralExpr) ∧ ∀ m ∈ (Node.ofGreen (sourceFile.tree
        ['#', '"', '\\', '#', '(', 'f', '(', 'b', ')', ')', '"', '#'])).descendants,
      m.green.keepsParens := of_decide_eq_true (of_tree? (n := 30)
        (p := fun tree => (∃ n ∈ (Node.ofGreen tree).descendants, n.kind = .stringLiteralExpr) ∧
          ∀ m ∈ (Node.ofGreen tree).descendants, m.green.keepsParens) (by decide +kernel))
  obtain ⟨⟨n, hn, hkind⟩, hkeeps⟩ := htree
  exact ⟨n, hn, hkind, (literals_closeAsOpened .sourceFile _ hn hkind).2 hkeeps⟩

/-- A parenthesis that is left to unexpected text: in `#"\#({ )"# }) "x"` the literal is taken to
end with the quote of the next one, and no `#` is made up behind it. -/
theorem literal_closedByOther :
    ∃ n ∈ (Node.ofGreen (sourceFile.tree ['#', '"', '\\', '#', '(', '{', ' ', ')', '"', '#',
      ' ', '}', ')', ' ', '"', 'x', '"'])).descendants,
      n.kind = .stringLiteralExpr ∧ Green.closesAsOpened n.children = false :=
  of_decide_eq_true (of_tree? (n := 40) (p := fun tree => ∃ n ∈ (Node.ofGreen tree).descendants,
    n.kind = .stringLiteralExpr ∧ Green.closesAsOpened n.children = false) (by decide +kernel))

end Entry

end SwiftTree
