import SwiftTree.Proofs.Entries
import SwiftTree.Proofs.TypeSyntax

/-!
# Angle brackets

Whether an angle bracket behind a name opens generic arguments is decided by a scan that counts the
brackets in operators and knows no types (`Ahead.isGenericArguments`). Where it says so, the rules
of types follow. `Ahead.closing?` is the scan with the bracket that it stops at. Tokens keep what it
finds if it finds the same behind them, wherever brackets are open (`Ahead.Keeps`). Tokens in which
every bracket has its partner do so (`Ahead.isBalanced`).

Unexpected text and the arguments of attributes are taken without a look at the brackets in them. A
tree is whole if these are balanced, and if no type and no closing angle bracket is missing
(`Green.isWhole`).
-/

namespace SwiftTree

namespace Grammar.Ahead

/-! ## Balanced tokens -/

/-- How many angle brackets are open behind an operator, unless it closes the last one. -/
def AngleState.depth? : AngleState → Option Nat
  | .open depth => some depth
  | .closed _ => none
  | .invalid => none

/-- Only a state in which brackets are open has a depth. -/
theorem AngleState.eq_open {state : AngleState} {depth : Nat} (h : state.depth? = some depth) :
    state = .open depth := by
  cases state with
  | «open» _ =>
    cases h
    rfl
  | closed _ => cases h
  | invalid => cases h

/-- How many angle brackets are open behind tokens of certain kinds and texts, if none of them
closes the last one. -/
def openBehind (depth : Nat) (signs : List (Kind × Text)) : Option Nat :=
  signs.foldlM (fun depth x => if x.1.isOperator then (angles depth x.2).depth?
    else some depth) depth

/-- Whether all angle brackets in tokens are those of pairs. -/
def isBalanced (xs : Ahead) : Bool := openBehind 1 (xs.map fun x => (x.kind, x.text)) == some 1

theorem openBehind_append (depth : Nat) (xs ys : List (Kind × Text)) :
    openBehind depth (xs ++ ys) = (openBehind depth xs).bind fun depth => openBehind depth ys :=
  List.foldlM_append

/-- Tokens that are no operators have no brackets. -/
theorem openBehind_of_not_isOperator {xs : List (Kind × Text)}
    (h : ∀ x ∈ xs, x.1.isOperator = false)
    (depth : Nat) : openBehind depth xs = some depth := by
  induction xs with
  | nil => rfl
  | cons x xs ih =>
    rw [List.forall_mem_cons] at h
    rw [openBehind, List.foldlM_cons, h.1, if_neg Bool.false_ne_true]
    exact ih h.2

/-- A token that is no operator may stand before balanced ones. -/
theorem isBalanced_cons {x : Lexeme} (h : x.kind.isOperator = false) (xs : Ahead) :
    isBalanced (x :: xs) = isBalanced xs := by
  rw [isBalanced, List.map_cons, openBehind, List.foldlM_cons, h, if_neg Bool.false_ne_true]
  rfl

end Grammar.Ahead

/-! ## Whole trees -/

/-- Whether an operator has an angle bracket. -/
def Text.hasAngle (cs : Text) : Bool := cs.any fun c => c == '<' || c == '>'

/-- Whether rules take the tokens in a node of a kind without looking at them. -/
def Kind.hidesAngles (kind : Kind) : Bool := kind == .unexpected || kind == .attributeArguments

namespace Green

/-- Whether all angle brackets in a tree are those of pairs. -/
def isBalanced (g : Green) : Bool :=
  Grammar.Ahead.openBehind 1 (g.leaves.map fun l => (l.kind, l.textTrimmed)) == some 1

mutual

/-- Whether no type is missing in a tree, and its angle brackets are closed. -/
def isWhole : Green → Bool
  | .node kind cs =>
    kind != .missingType && (!kind.hidesAngles || isBalanced (.node kind cs)) && allWhole cs
  | .leaf l => l.isPresent || l.kind != .rightAngle

/-- Whether several trees are whole. -/
def allWhole : List Green → Bool
  | [] => true
  | g :: gs => g.isWhole && allWhole gs

end

/-- Several trees are whole if each of them is. -/
theorem allWhole_eq (gs : List Green) : allWhole gs = gs.all isWhole := by
  induction gs with
  | nil => rfl
  | cons g gs ih => rw [allWhole, ih, List.all_cons]

theorem isWhole_node (kind : Kind) (cs : List Green) : (node kind cs).isWhole
    = (kind != .missingType && (!kind.hidesAngles || (node kind cs).isBalanced) &&
      cs.all isWhole) := by
  rw [isWhole, allWhole_eq]

/-- A node is whole if its parts are, unless types or angle brackets are hidden in it. -/
theorem isWhole_of_isConstruct {kind : Kind} (hk : kind.isConstruct)
    (hne : kind ≠ .attributeArguments)
    (cs : List Green) : (node kind cs).isWhole = cs.all isWhole := by
  have hmissing : (kind != .missingType) = true := by
    rw [bne_iff_ne]
    rintro rfl
    cases hk
  have hhides : kind.hidesAngles = false := by
    rw [Kind.hidesAngles, Bool.or_eq_false_iff, beq_eq_false_iff_ne, beq_eq_false_iff_ne]
    refine ⟨?_, hne⟩
    rintro rfl
    cases hk
  rw [isWhole_node, hmissing, hhides]
  rfl

/-- The kinds and texts of leaves that are tokens. -/
theorem map_leavesOf_tokens (xs : Grammar.Ahead) :
    (leavesOf (xs.map fun x => token x.token)).map (fun l => (l.kind, l.textTrimmed))
      = xs.map fun x => (x.kind, x.text) := by
  induction xs with
  | nil => rfl
  | cons x xs ih =>
    have hx : (Leaf.present x.token.outline).textTrimmed = x.text := Token.text_outline x.token
    rw [List.map_cons, List.map_cons, leavesOf, List.map_append, ih]
    exact congrArg (fun text => (x.kind, text) :: _) hx

/-- A node of tokens that no rule has looked at is whole if these are balanced. -/
theorem isWhole_tokens {kind : Kind} (hkind : kind.hidesAngles) (xs : Grammar.Ahead)
    {gs : List Green}
    (hwhole : gs.all isWhole) (hgs : ∀ l ∈ leavesOf gs, l.kind.isOperator = false) :
    (node kind ((xs.map fun x => token x.token) ++ gs)).isWhole = xs.isBalanced := by
  have hmissing : (kind != .missingType) = true := by
    rw [bne_iff_ne]
    rintro rfl
    cases hkind
  have htokens : (xs.map fun x => token x.token).all isWhole := by
    rw [List.all_map, List.all_eq_true]
    exact fun _ _ => rfl
  have hbalanced :
    (node kind ((xs.map fun x => token x.token) ++ gs)).isBalanced = xs.isBalanced := by
    rw [isBalanced, leaves, leavesOf_append, List.map_append, map_leavesOf_tokens,
      Grammar.Ahead.openBehind_append, Grammar.Ahead.isBalanced]
    have hrest : (Grammar.Ahead.openBehind · ((leavesOf gs).map fun l => (l.kind, l.textTrimmed))) =
      some :=
      funext (Grammar.Ahead.openBehind_of_not_isOperator (List.forall_mem_map.mpr hgs))
    rw [hrest, Option.bind_fun_some]
  rw [isWhole_node, hmissing, hkind, hbalanced, List.all_append, htokens, hwhole]
  simp

end Green

namespace Grammar

/-! ## The bracket that the scan finds -/

namespace Ahead

/-- What stands behind an angle bracket. -/
structure Closing where
  /-- what is left of the operator with the bracket -/
  rest : Text
  /-- the trivia behind this operator -/
  trailing : Trivia
  /-- the tokens behind this operator -/
  ahead : Ahead

/-- The source behind the bracket. The trivia behind an operator belongs to its last character. -/
def Closing.source (c : Closing) : Text :=
  if c.rest = [] then c.ahead.source else c.rest ++ c.trailing.text ++ c.ahead.source

/-- Whether an expression can go on behind the bracket. -/
def Closing.goesOn (c : Closing) : Bool :=
  match c.rest with
  | [] => followsGenericArguments c.ahead
  | d :: _ => d == '?' || d == '!' || d == '.'

/-- What stands behind the bracket that closes the last of the brackets of which some are open, if
everything before it can belong to generic arguments. -/
def closing? (depth : Nat) : Ahead → Option Closing
  | [] => none
  | x :: ts =>
    if x.kind.isOperator then
      match angles depth x.text with
      | .open depth => closing? depth ts
      | .closed rest => some ⟨rest, x.token.trailing, ts⟩
      | .invalid => none
    else if genericTokens.contains x.kind then closing? depth ts
    else none

/-- The scan for what stands behind the bracket counts the brackets of an operator, and stops where
one closes the last that is open. -/
theorem closing?_of_isOperator {depth : Nat} {x : Lexeme} (hop : x.kind.isOperator) (ts : Ahead) :
    closing? depth (x :: ts) = match angles depth x.text with
      | .open depth => closing? depth ts
      | .closed rest => some ⟨rest, x.token.trailing, ts⟩
      | .invalid => none := by
  rw [closing?, if_pos hop]

/-- One step of the look ahead counts in the same way. -/
theorem genericClosing_step (depth : Nat) (x : Lexeme) (ts : Ahead) :
    genericClosing.step depth x ts = (if x.kind.isOperator then
        match angles depth x.text with
        | .open depth => .inl depth
        | .closed [] => .inr (followsGenericArguments ts)
        | .closed (c :: _) => .inr (c == '?' || c == '!' || c == '.')
        | .invalid => .inr false
      else if genericTokens.contains x.kind then .inl depth else .inr false) := rfl

/-- The scan says yes if it finds the bracket and an expression can go on behind it. -/
theorem answer_genericClosing (depth : Nat) (ts : Ahead) :
    genericClosing.answer depth ts = (ts.closing? depth).any Closing.goesOn := by
  induction ts generalizing depth with
  | nil => rfl
  | cons x ts ih =>
    rw [Scan.answer, Scan.run, genericClosing_step, closing?]
    by_cases hop : x.kind.isOperator
    · rw [if_pos hop, if_pos hop]
      rcases angles depth x.text with depth' | rest | _
      · exact ih depth'
      · cases rest <;> rfl
      · rfl
    · rw [if_neg hop, if_neg hop]
      cases genericTokens.contains x.kind with
      | true => exact ih depth
      | false => rfl

/-- Where the look ahead says that generic arguments come, there is a bracket that closes them, and
an expression can go on behind it. -/
theorem exists_closing {ts : Ahead} (h : ts.isGenericArguments) :
    ∃ found, ts.closing? 0 = some found ∧ found.goesOn := by
  rw [isGenericArguments, Bool.and_eq_true, answer_genericClosing, Option.any_eq_true] at h
  exact h.2

/-! ### Taking tokens -/

variable {x : Lexeme} {ts : Ahead} {depth : Nat} {found : Closing}

/-- Whether the next token is an operator with an angle bracket. -/
def isAngled (ts : Ahead) : Bool := ts.kind.isOperator && ts.text.hasAngle

theorem isAngled_of_isAt {k : Kind} (hk : k.isOperator = false) (h : ts.isAt k) :
    ts.isAngled = false := by
  rw [isAngled, beq_iff_eq.mp h, hk, Bool.false_and]

/-- A name has no angle brackets. -/
theorem isAngled_of_isName (h : ts.isName) : ts.isAngled = false := by
  have hkind : ∀ k : Kind,
    (k == .identifier || k == .underscore || k == .dollarIdentifier || k.isKeyword) →
      k.isOperator = false := by
    intro k
    cases k <;> decide
  rw [isAngled, hkind ts.kind h, Bool.false_and]

theorem isAngled_of_isWord {s : String} (h : ts.isWord s) : ts.isAngled = false :=
  isAngled_of_isAt rfl (Bool.and_elim_left h)

theorem isAngled_of_isSpelled {s : String} (hs : Text.hasAngle s.toList = false)
    (h : ts.isSpelled s) :
    ts.isAngled = false := by
  rw [isAngled, beq_iff_eq.mp h, hs, Bool.and_false]

/-- Characters that are no brackets leave the depth as it is. -/
theorem angles_of_not_hasAngle {cs : Text} (h : cs.hasAngle = false) :
    angles depth cs = .open depth ∨ angles depth cs = .invalid := by
  induction cs with
  | nil => exact .inl rfl
  | cons c cs ih =>
    rw [Text.hasAngle, List.any_cons, Bool.or_eq_false_iff, Bool.or_eq_false_iff] at h
    rw [angles, h.1.1, h.1.2, if_neg Bool.false_ne_true, if_neg Bool.false_ne_true]
    split
    · exact ih h.2
    · exact .inr rfl

/-- Behind a token without angle brackets the same bracket is found. -/
theorem closing?_tail (h : ts.isAngled = false) (hfound : ts.closing? depth = some found) :
    closing? depth ts.tail = some found := by
  cases ts with
  | nil => exact hfound
  | cons x ts =>
    change (x.kind.isOperator && x.text.hasAngle) = false at h
    rw [closing?] at hfound
    split at hfound
    · rename_i hop
      rw [hop, Bool.true_and] at h
      have hplain : angles depth x.text = .open depth ∨ _ := angles_of_not_hasAngle h
      rcases hplain with hangles | hangles
      · rwa [hangles] at hfound
      · rw [hangles] at hfound
        cases hfound
    · split at hfound
      · exact hfound
      · cases hfound

/-- Where the first character of an operator is taken, the scan goes on behind it. -/
theorem closing?_cut {c : Char} {cs : Text} {depth' : Nat} (head : SolidKind)
    (rest : Option SolidKind)
    (hop : x.kind.isOperator) (htext : x.token.text = c :: cs) (hrest : ∀ k ∈ rest, k.1.isOperator)
    (hangles : angles depth (c :: cs) = angles depth' cs) :
    closing? depth (x :: ts) = closing? depth' (splitHead head rest (x :: ts)).tail := by
  have hx : x.text = c :: cs := htext
  rw [closing?_of_isOperator hop, hx, hangles]
  cases cs with
  | nil =>
    rw [splitHead_single htext]
    rfl
  | cons d cs =>
    have hkind : (rest.getD ⟨x.kind, x.solid.2⟩).1.isOperator := by
      cases rest with
      | none => exact hop
      | some k => exact hrest k rfl
    simp only [splitHead, htext, List.tail_cons]
    refine Eq.symm (closing?_of_isOperator ?_ ts)
    exact hkind

/-- Where the bracket that is found is taken, what stands behind it is left. -/
theorem source_cut {c : Char} {cs : Text} (head : SolidKind) (rest : Option SolidKind)
    (hop : x.kind.isOperator) (htext : x.token.text = c :: cs)
    (hangles : angles depth (c :: cs) = .closed cs)
    (hfound : closing? depth (x :: ts) = some found) :
    source (splitHead head rest (x :: ts)).tail = found.source := by
  have hx : x.text = c :: cs := htext
  rw [closing?_of_isOperator hop, hx, hangles] at hfound
  obtain rfl := Option.some.inj hfound
  cases cs with
  | nil =>
    rw [splitHead_single htext]
    rfl
  | cons d cs =>
    simp only [splitHead, htext, List.tail_cons, source_cons]
    rfl

/-- What makes a type optional is an operator that starts with a mark. -/
theorem exists_of_optionalSuffix? {kind : Construct} (h : ts.optionalSuffix? = some kind) :
    ∃ x us c cs, ts = x :: us ∧ x.kind.isOperator ∧ x.token.text = c :: cs ∧
    (c = '?' ∨ c = '!') := by
  rw [optionalSuffix?] at h
  split at h
  · rename_i hmarks
    rw [Bool.and_eq_true, Bool.and_eq_true] at hmarks
    obtain ⟨⟨hop, -⟩, hall⟩ := hmarks
    rcases ts with _ | ⟨x, us⟩
    · cases hop
    obtain ⟨c, cs, htext⟩ := List.exists_cons_of_ne_nil x.solid.1
    change x.token.text.all _ = true at hall
    rw [htext, List.all_cons, Bool.and_eq_true, Bool.or_eq_true, beq_iff_eq, beq_iff_eq] at hall
    exact ⟨x, us, c, cs, rfl, hop, htext, hall.1⟩
  · cases h

/-- Cutting off a question or exclamation mark changes nothing that is found. -/
theorem closing?_splitHead_mark {kind : Construct} (h : ts.optionalSuffix? = some kind) :
    (ts.splitHead ⟨.postfixOperator, rfl⟩ none).isAngled = false ∧
      ∀ depth, closing? depth (ts.splitHead ⟨.postfixOperator, rfl⟩ none) = closing? depth ts := by
  obtain ⟨x, us, c, cs, rfl, hop, htext, hc⟩ := exists_of_optionalSuffix? h
  have hangled : Text.hasAngle [c] = false := by rcases hc with rfl | rfl <;> rfl
  -- the mark that is cut off has no angle bracket, so no depth changes
  have hangles (depth : Nat) (cs : Text) : angles depth (c :: cs) = angles depth cs := by
    rcases hc with rfl | rfl <;> rfl
  cases cs with
  | nil =>
    rw [splitHead_single htext]
    refine ⟨?_, fun _ => rfl⟩
    show (x.kind.isOperator && x.token.text.hasAngle) = false
    rw [htext, hangled, Bool.and_false]
  | cons d cs =>
    have hcut (depth : Nat) : closing? depth (x :: us) = _ :=
      closing?_cut ⟨.postfixOperator, rfl⟩ none hop htext nofun (hangles depth (d :: cs))
    simp only [splitHead, htext] at hcut ⊢
    refine ⟨hangled, fun depth => (closing?_of_isOperator ?_ _).trans ?_⟩
    · rfl
    · show (match angles depth [c] with
        | .open depth => closing? depth _
        | .closed rest => _
        | .invalid => none) = _
      rw [hangles]
      exact (hcut depth).symm

/-! ### Brackets that stay open -/

/-- With more brackets open before, more are open behind. -/
theorem angles_add {cs : Text} {depth depth' : Nat} (h : angles depth cs = .open depth')
    (more : Nat) :
    angles (depth + more) cs = .open (depth' + more) := by
  induction cs generalizing depth with
  | nil =>
    cases h
    rfl
  | cons c cs ih =>
    rw [angles] at h ⊢
    split at h
    · rename_i hopens
      rw [if_pos hopens, Nat.add_right_comm]
      exact ih h
    rename_i hopens
    rw [if_neg hopens]
    split at h
    · rename_i hcloses
      rw [if_pos hcloses]
      split at h
      · cases h
      · rw [if_neg (by omega), show depth + more - 1 = depth - 1 + more by omega]
        exact ih h
    rename_i hcloses
    rw [if_neg hcloses]
    split at h
    · rename_i hmark
      rw [if_pos hmark]
      exact ih h
    · cases h

/-- Behind tokens that close none of the brackets open before, the same one is found. -/
theorem closing?_append {xs rest : Ahead} {depth depth' : Nat}
    (h : openBehind depth (xs.map fun x => (x.kind, x.text)) = some depth') (more : Nat)
    (hfound : closing? (depth + more) (xs ++ rest) = some found) :
    closing? (depth' + more) rest = some found := by
  induction xs generalizing depth with
  | nil =>
    cases h
    exact hfound
  | cons x xs ih =>
    obtain ⟨between, hx, hxs⟩ := Option.bind_eq_some_iff.mp h
    change (if x.kind.isOperator then (angles depth x.text).depth? else some depth) =
      some between at hx
    rw [List.cons_append, closing?] at hfound
    split at hfound
    · rename_i hop
      rw [if_pos hop] at hx
      rw [angles_add (AngleState.eq_open hx) more] at hfound
      exact ih hxs hfound
    · rename_i hop
      rw [if_neg hop] at hx
      cases hx
      split at hfound
      · exact ih hxs hfound
      · cases hfound

/-- Whether, wherever brackets are open, the closing one that is found before some tokens is found
behind them. -/
def Keeps (ts us : Ahead) : Prop :=
  ∀ depth found, 0 < depth → ts.closing? depth = some found → us.closing? depth = some found

namespace Keeps

variable {us vs : Ahead}

theorem refl (ts : Ahead) : Keeps ts ts := fun _ _ _ hfound => hfound

theorem trans (h : Keeps ts us) (h' : Keeps us vs) : Keeps ts vs :=
  fun depth found hdepth hfound => h' depth found hdepth (h depth found hdepth hfound)

theorem tail (h : ts.isAngled = false) : Keeps ts ts.tail :=
  fun _ _ _ hfound => closing?_tail h hfound

/-- Balanced tokens may be dropped. -/
theorem drop {n : Nat} (h : isBalanced (ts.take n)) : Keeps ts (ts.drop n) := by
  intro depth found hdepth hfound
  obtain ⟨more, rfl⟩ := Nat.exists_eq_add_of_le hdepth
  rw [← List.take_append_drop n ts] at hfound
  exact closing?_append (beq_iff_eq.mp h) more hfound

end Keeps

end Ahead

end Grammar

end SwiftTree
