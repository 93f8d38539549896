import SwiftTree.Proofs.Conformance.Types
import SwiftTree.Proofs.Groups
import SwiftTree.Proofs.Progress.Declarations

/-!
# The look ahead past attributes

The look ahead past attributes (`Ahead.afterAttributes`) only counts parentheses. The rule for the
arguments of an attribute skips groups of all brackets, up to a closing parenthesis outside of them.
If the parentheses around the arguments belong together (`Green.argumentsMatch`), then both come to
the same token; otherwise they do not, unless the look ahead comes to the end of the file
(`attributeArguments_yields`). So behind all attributes both are at one place if the parentheses of
each of them belong together (`attributes_adds`).
-/

namespace SwiftTree.Grammar

namespace Ahead

/-! ## Counting parentheses ahead -/

/-- What a tree keeps of the tokens. -/
def outlines (ts : Ahead) : List Token.Outline := ts.map fun x => x.token.outline

variable {x y : Lexeme} {inside rest : Ahead}

/-- What the look for the end of an open group of parentheses does with a token that does not close
it. -/
theorem stop_parens_cons {depth : Nat} (h : x.kind ≠ .rightParen ∨ depth ≠ 0) :
    parens.stop (depth + 1) (x :: rest) = parens.stop (x.kind.parensBehind depth + 1) rest := by
  have hstep : parens.step (depth + 1) x rest
      = if x.kind.parensBehind (depth + 1) = 0 then .inr ()
        else .inl (x.kind.parensBehind (depth + 1)) :=
    rfl
  rw [Kind.parensBehind_add h 1, if_neg (Nat.succ_ne_zero _)] at hstep
  rw [Scan.stop, Scan.run, hstep]
  rfl

/-- The look for the end of a group of parentheses stops at the token that closes it. -/
theorem stop_parens_right (hx : x.kind = .rightParen) : parens.stop 1 (x :: rest) = x :: rest := by
  rw [Scan.stop, Scan.run]
  simp only [parens, hx]
  rfl

/-- The look for the end of a group of parentheses passes tokens that do not close the group. -/
theorem stop_parens_append {depth : Nat} (h : Token.staysOpen depth inside.outlines) :
    parens.stop (depth + 1) (inside ++ rest)
      = parens.stop (Token.parensBehind depth inside.outlines + 1) rest := by
  induction inside generalizing depth with
  | nil => rfl
  | cons z inside ih =>
    rw [outlines, List.map_cons, Token.staysOpen, Bool.and_eq_true, Bool.or_eq_true, bne_iff_ne,
      bne_iff_ne] at h
    exact (stop_parens_cons h.1).trans (ih h.2)

/-- Where a token closes the group, the look for its end stops. -/
theorem exists_stop_parens {depth : Nat} (h : Token.staysOpen depth inside.outlines = false) :
    ∃ z back, z :: back <:+ inside ∧ parens.stop (depth + 1) (inside ++ rest) = z ::
    (back ++ rest) := by
  induction inside generalizing depth with
  | nil => cases h
  | cons z inside ih =>
    rw [outlines, List.map_cons, Token.staysOpen, Bool.and_eq_false_iff, Bool.or_eq_false_iff,
      bne_eq_false_iff_eq, bne_eq_false_iff_eq] at h
    by_cases hcloses : z.kind = .rightParen ∧ depth = 0
    · obtain ⟨hz, rfl⟩ := hcloses
      exact ⟨z, inside, List.suffix_refl _, stop_parens_right hz⟩
    · obtain ⟨y, back, hsuffix, hstop⟩ := ih (h.resolve_left hcloses)
      refine ⟨y, back, hsuffix.trans (List.suffix_cons _ _), ?_⟩
      exact (stop_parens_cons (not_and_or.mp hcloses)).trans hstop

/-- Counting from depth zero, the first token must open a parenthesis. -/
theorem stop_parens_open (hx : x.kind = .leftParen) :
    parens.stop 0 (x :: rest) = parens.stop 1 rest := by
  rw [Scan.stop, Scan.run]
  simp only [parens, hx, if_pos]
  rfl

/-- Behind a group of parentheses that match, the look ahead is behind the one that closes it. -/
theorem afterParens_closed (hx : x.kind = .leftParen) (hy : y.kind = .rightParen)
    (hstays : Token.staysOpen 0 inside.outlines)
    (hmatch : Token.parensBehind 0 inside.outlines = 0) :
    afterParens (x :: (inside ++ y :: rest)) = rest := by
  rw [afterParens, stop_parens_open hx, stop_parens_append hstays, hmatch, stop_parens_right hy]
  rfl

/-- Behind other groups the look ahead is elsewhere, or it is at the end. -/
theorem afterParens_other (hx : x.kind = .leftParen)
    (hother : Token.staysOpen 0 inside.outlines = false ∨ Token.parensBehind 0 inside.outlines ≠ 0)
    (hafter : afterParens (x :: (inside ++ y :: rest)) ≠ []) :
    afterParens (x :: (inside ++ y :: rest)) ≠ rest := by
  intro hrest
  rw [afterParens, stop_parens_open hx] at hafter hrest
  cases hstays : Token.staysOpen 0 inside.outlines with
  | false =>
    obtain ⟨z, back, -, hstop⟩ := @exists_stop_parens inside (y :: rest) 0 hstays
    rw [hstop] at hrest
    have hlength := congrArg List.length hrest
    simp only [List.tail_cons, List.length_append, List.length_cons] at hlength
    omega
  | true =>
    have hopen := hother.resolve_left (by rw [hstays]; decide)
    rw [stop_parens_append hstays, stop_parens_cons (.inr hopen)] at hafter hrest
    have hsuffix := parens.stop_suffix
      (y.kind.parensBehind (Token.parensBehind 0 inside.outlines) + 1) rest
    have hlength := hsuffix.length_le
    have hnonempty := List.length_pos_iff.mpr hafter
    rw [List.length_tail] at hnonempty
    have hsame := congrArg List.length hrest
    rw [List.length_tail] at hsame
    omega

/-- A group of parentheses that is not closed goes up to the end. -/
theorem afterParens_unclosed (hx : x.kind = .leftParen)
    (hstays : Token.staysOpen 0 inside.outlines) :
    afterParens (x :: inside) = [] := by
  have hstop := @stop_parens_append inside [] 0 hstays
  rw [List.append_nil] at hstop
  rw [afterParens, stop_parens_open hx, hstop]
  rfl

theorem afterAttributes_cons {ts : Ahead} (h : x.kind = .atSign) :
    afterAttributes (x :: ts) = ts.afterAttribute.afterAttributes := by
  rw [afterAttributes, if_pos (beq_iff_eq.mpr h)]

end Ahead

/-! ## Reading the arguments of an attribute -/

/-- Tokens that were added as they are keep the order that they had ahead. -/
theorem tokensOf_tokens (xs : Ahead) :
    Green.tokensOf (xs.map fun x => .token x.token) = xs.outlines := by
  induction xs with
  | nil => rfl
  | cons x xs ih => exact congrArg (x.token.outline :: ·) ih

/-- The arguments of an attribute, with what ends them. -/
def argumentsOf (x : Lexeme) (inside : Ahead) (closing : Green.Leaf) : List Green :=
  (.token x.token :: inside.map fun y => .token y.token) ++ [.leaf closing]

/-- Arguments of this form belong together exactly if the depth stays open over what is inside, and
comes back to zero where a parenthesis closes them. -/
theorem argumentsMatch_argumentsOf {x : Lexeme} {inside : Ahead} {closing : Green.Leaf} :
    Green.argumentsMatch (argumentsOf x inside closing) ↔ Token.staysOpen 0 inside.outlines ∧
      (closing.isPresent → Token.parensBehind 0 inside.outlines = 0) := by
  have hinside : (argumentsOf x inside closing).tail.dropLast = inside.map fun y =>
    .token y.token :=
    List.dropLast_concat
  have hlast : (argumentsOf x inside closing).getLast? = some (.leaf closing) :=
    List.getLast?_concat
  rw [Green.argumentsMatch, hinside, hlast, tokensOf_tokens, Option.any_some, Green.hasPresent]
  cases closing.isPresent <;> simp

section Yields

open Grammar.Parser

variable {ts : Ahead} {built : Forest}

/-- Tokens are taken as they are. -/
theorem yields_advanceBy {n : Nat} {post : Unit → State Forest → Prop}
    (h : post () ⟨ts.drop n, addAll (ts.take n) built⟩) :
    (advanceBy n).yields ⟨ts, built⟩ post := by
  induction n generalizing ts built with
  | zero => exact h
  | succ n ih =>
    cases ts with
    | nil => exact ⟨Ahead.mayTake_none _, ih (by rwa [List.drop_nil, List.take_nil] at h ⊢)⟩
    | cons x ts => exact ⟨Ahead.mayTake_none _, ih h⟩

/-- A token of a kind is the next one, or nothing is taken. -/
theorem yields_eat {k : Kind} (hk : k ≠ .endOfFile) {post : Bool → State Forest → Prop}
    (hthere : ∀ y us, ts = y :: us → y.kind = k → post true ⟨us, .token y.token :: built⟩)
    (hnot : ts.kind ≠ k → post false ⟨ts, built⟩) : (eat k).yields ⟨ts, built⟩ post := by
  show Parser.yields (if ts.isAt k then _ else _) _ _
  by_cases hat : ts.kind = k
  · have hhere : ts.isAt k = true := beq_iff_eq.mpr hat
    cases ts with
    | nil => exact absurd hat.symm hk
    | cons y us =>
      rw [hhere]
      exact ⟨Ahead.mayTake_none _, hthere y us rfl hat⟩
  · have hnone : ts.isAt k = false := beq_eq_false_iff_ne.mpr hat
    rw [hnone]
    exact hnot hat

/-- A token that is required is the next one, or it is missing. -/
theorem yields_require {k : Kind} {hk : k.isSolid} {post : Unit → State Forest → Prop}
    (hthere : ∀ y us, ts = y :: us → y.kind = k → post () ⟨us, .token y.token :: built⟩)
    (hmissing : ts.kind ≠ k → ∀ spelling, post () ⟨ts, .missing k spelling :: built⟩) :
    (require k hk).yields ⟨ts, built⟩ post :=
  yields_eat (Kind.ne_endOfFile_of_isSolid hk) hthere fun hnot => hmissing hnot _

/-- **The two ways past the arguments of an attribute.** The look ahead comes to the token behind
the arguments, unless it comes to the end of the file, exactly if the parentheses around them belong
together. It counts parentheses, and the rule skips groups. -/
theorem attributeArguments_yields {x : Lexeme} (hx : x.kind = .leftParen) :
    attributeArguments.yields ⟨x :: ts, built⟩ fun _ t => ∃ arguments,
      t.built = .node .attributeArguments arguments :: built ∧
        (Green.argumentsMatch arguments → t.ahead = Ahead.afterParens (x :: ts)) ∧
        (Ahead.afterParens (x :: ts) ≠ [] → t.ahead = Ahead.afterParens (x :: ts) →
          Green.argumentsMatch arguments) := by
  let n := Ahead.skipLength (Ahead.isAt .rightParen) 0 ts
  have hends : ts.drop n = [] ∨ Ahead.isAt .rightParen (ts.drop n) := by
    rw [Ahead.drop_skipLength]
    exact Ahead.stop_outside _ 0 ts
  have hbuilt (closing : Green.Leaf) : Green.node .attributeArguments
      (.leaf closing :: addAll (ts.take n) [.token x.token]).reverse :: built
        = .node .attributeArguments (argumentsOf x (ts.take n) closing) :: built := by
    rw [Forest.addAll_eq, argumentsOf, List.reverse_cons, List.reverse_append, List.reverse_reverse]
    rfl
  refine ⟨Ahead.mayTake_none _, yields_advanceBy (yields_require ?_ ?_)⟩
  · -- a closing parenthesis ends the arguments
    intro y us hus hy
    have hts : ts = ts.take n ++ y :: us := (List.take_append_drop n ts).symm.trans (congrArg _ hus)
    refine ⟨_, hbuilt (.present y.token.outline), fun hmatch => ?_, fun hafter hsame => ?_⟩
    · obtain ⟨hstays, hclosed⟩ := argumentsMatch_argumentsOf.mp hmatch
      calc us = Ahead.afterParens (x :: (ts.take n ++ y :: us)) :=
            (Ahead.afterParens_closed hx hy hstays (hclosed rfl)).symm
        _ = Ahead.afterParens (x :: ts) := by rw [← hts]
    · refine argumentsMatch_argumentsOf.mpr ?_
      by_contra hother
      rw [not_and_or, Bool.not_eq_true] at hother
      rw [hts] at hafter hsame
      refine Ahead.afterParens_other hx (hother.imp_right fun h hzero => h fun _ => hzero) hafter ?_
      exact hsame.symm
  · -- the arguments take what is left of the text
    intro hnot spelling
    have hnil : ts.drop n = [] := hends.resolve_right fun hat => hnot (beq_iff_eq.mp hat)
    have hall : ts.take n = ts := by
      rw [← List.append_nil (ts.take n), ← hnil, List.take_append_drop]
    refine ⟨_, hbuilt (.missing .rightParen spelling), fun hmatch => ?_, fun hafter hsame => ?_⟩
    · calc ts.drop n = Ahead.afterParens (x :: ts.take n) := by
            rw [Ahead.afterParens_unclosed hx (argumentsMatch_argumentsOf.mp hmatch).1, hnil]
        _ = Ahead.afterParens (x :: ts) := by rw [hall]
    · exact absurd (hsame.symm.trans hnil) hafter

/-- A token is not the node of the arguments. -/
theorem ne_attributeArguments (x : Lexeme) : (Green.token x.token).kind ≠ .attributeArguments := by
  intro hkind
  have hsolid : Kind.attributeArguments.isSolid := hkind ▸ x.solid.2
  exact absurd hsolid (by decide)

/-- A name is taken if it is there, and otherwise missing. -/
theorem attributeName_yields {post : Unit → State Forest → Prop}
    (h : ∀ name : Green, name.kind ≠ .attributeArguments →
      post () ⟨if ts.isName then ts.tail else ts, name :: built⟩) :
    attributeName.yields ⟨ts, built⟩ post := by
  show Parser.yields (if ts.isName then _ else _) _ _
  cases hname : ts.isName with
  | false =>
    rw [hname] at h
    exact h _ (by decide)
  | true =>
    rw [hname] at h
    cases ts with
    | nil => cases hname
    | cons y us => exact ⟨Ahead.mayTake_none _, h _ (ne_attributeArguments y)⟩

/-- Only the arguments of an attribute matter to whether its parentheses belong together. -/
theorem attributeMatches_iff {sign name : Green} {parts : List Green}
    (hsign : sign.kind ≠ .attributeArguments)
    (hname : name.kind ≠ .attributeArguments) :
    Green.attributeMatches (.node .attribute (sign :: name :: parts))
      ↔ parts.all fun part => part.kind != .attributeArguments ||
      Green.argumentsMatch part.children := by
  simp [Green.attributeMatches, Green.children, hsign, hname]

/-- The look ahead comes to the token behind an attribute, unless it comes to the end of the file,
exactly if the parentheses of the attribute belong together. -/
theorem singleAttribute_yields {x : Lexeme} :
    singleAttribute.yields ⟨x :: ts, built⟩ fun _ t => ∃ one, t.built = one :: built ∧
      (Green.attributeMatches one → t.ahead = Ahead.afterAttribute ts) ∧
      (Ahead.afterAttribute ts ≠ [] → t.ahead = Ahead.afterAttribute ts →
        Green.attributeMatches one) := by
  have hsign : (Green.token x.token).kind ≠ .attributeArguments := ne_attributeArguments x
  refine ⟨Ahead.mayTake_none _, attributeName_yields fun name hname => ?_⟩
  obtain ⟨us, hus⟩ : ∃ us : Ahead, (if ts.isName then ts.tail else ts) = us := ⟨_, rfl⟩
  rw [hus]
  have hafter : Ahead.afterAttribute ts
      = if us.isAt .leftParen && us.adjacent then us.afterParens else us := by
    rw [← hus]
    rfl
  show Parser.yields (if us.isAt .leftParen && us.adjacent then _ else _) _ _
  cases htest : us.isAt .leftParen && us.adjacent with
  | false =>
    rw [htest] at hafter
    exact ⟨_, rfl, fun _ => hafter.symm, fun _ _ => (attributeMatches_iff hsign hname).mpr rfl⟩
  | true =>
    rw [htest] at hafter
    obtain ⟨y, vs, rfl⟩ := List.exists_cons_of_ne_nil (Ahead.ne_nil_of_isAt (by decide)
      (Bool.and_elim_left htest))
    have hy : y.kind = .leftParen := beq_iff_eq.mp (Bool.and_elim_left htest)
    refine yields_mono (attributeArguments_yields hy) ?_
    rintro _ ⟨ws, _⟩ ⟨arguments, rfl, hmatch, hother⟩
    have hone : Green.attributeMatches
        (.node .attribute (.token x.token :: name :: [.node .attributeArguments arguments]))
        ↔ Green.argumentsMatch arguments := by
      rw [attributeMatches_iff hsign hname, List.all_cons, List.all_nil, Bool.and_true]
      exact Iff.rfl
    refine ⟨_, rfl, fun h => (hmatch (hone.mp h)).trans hafter.symm, fun hne hsame => ?_⟩
    rw [hafter] at hne hsame
    exact hone.mpr (hother hne hsame)

/-- A loop keeps an invariant until its test fails. -/
theorem yields_whileAhead {test : Ahead → Bool} {rule : Parser Unit} {s : State Forest}
    {post : Unit → State Forest → Prop} (invariant : State Forest → Prop) (hstart : invariant s)
    (hround : ∀ t, invariant t → test t.ahead → rule.yields t fun _ u => invariant u)
    (hend : ∀ t, invariant t → test t.ahead = false → post () t) :
    (whileAhead test rule).yields s post := by
  refine ⟨invariant, hstart, fun t ht => ?_⟩
  show Parser.yields (if test t.ahead then _ else _) t _
  cases htest : test t.ahead with
  | true => exact hround t ht htest
  | false => exact hend t ht htest

/-- If the parentheses of the attributes here belong together, then the look ahead comes to the
token behind them. -/
theorem attributeList_yields :
    attributeList.yields ⟨ts, built⟩ fun _ t => ∃ list,
    t.built = .node .attributeList list :: built ∧
      (list.all Green.attributeMatches → t.ahead = ts.afterAttributes) := by
  -- what the look ahead has before it from here on does not change
  refine yields_whileAhead (fun t => t.built.all Green.attributeMatches →
    t.ahead.afterAttributes = ts.afterAttributes) (fun _ => rfl) ?_ ?_
  · rintro ⟨us, done⟩ hdone hat
    obtain ⟨x, us, rfl⟩ := List.exists_cons_of_ne_nil (Ahead.ne_nil_of_isAt (by decide) hat)
    refine yields_mono singleAttribute_yields ?_
    rintro _ ⟨vs, _⟩ ⟨one, rfl, hone, -⟩ hall
    rw [List.all_cons, Bool.and_eq_true] at hall
    rw [hone hall.1, ← Ahead.afterAttributes_cons (beq_iff_eq.mp hat)]
    exact hdone hall.2
  · rintro ⟨us, done⟩ hdone hat
    refine ⟨done.reverse, rfl, fun hall => ?_⟩
    rw [List.all_reverse] at hall
    have hstop : Ahead.afterAttributes us = us := Ahead.afterAttributes_eq hat
    exact hstop.symm.trans (hdone hall)

/-- What attributes are made of, and where the look ahead comes to behind them: to the same token if
the parentheses of each belong together. -/
theorem attributes_adds (ts : Ahead) : attributes.Adds (fun us => us = ts) fun _ vs gs =>
    (Shape.opt (Shape.one .attributeList)).Matches gs ∧
      (Green.attributesMatch gs → vs = ts.afterAttributes) := by
  rintro ts built rfl
  have hmakes : attributes.Makes (fun _ => True) (Shape.opt (Shape.one .attributeList)) :=
    attributes_makes
  have hlook : attributes.yields ⟨ts, built⟩ fun _ t => ∃ gs, t.built = gs.reverse ++ built ∧
      (Green.attributesMatch gs → t.ahead = ts.afterAttributes) := by
    show Parser.yields (if ts.isAt .atSign then _ else _) _ _
    cases hat : ts.isAt .atSign with
    | false => exact ⟨[], rfl, fun _ => (Ahead.afterAttributes_eq hat).symm⟩
    | true =>
      refine yields_mono attributeList_yields ?_
      rintro _ ⟨us, _⟩ ⟨list, rfl, hlist⟩
      refine ⟨[.node .attributeList list], rfl, fun hmatch => hlist ?_⟩
      rw [Green.attributesMatch] at hmatch
      exact (Bool.and_true _).symm.trans hmatch
  refine yields_mono (yields_and (hmakes ts built trivial) hlook) ?_
  rintro _ ⟨us, _⟩ ⟨⟨gs, rfl, hstrict, hshape⟩, gs', hbuilt, hmatch⟩
  -- both are about the parts that were added
  obtain rfl : gs = gs' := List.reverse_inj.mp (List.append_cancel_right hbuilt)
  exact ⟨gs, rfl, hstrict, hshape, hmatch⟩

end Yields

end SwiftTree.Grammar
