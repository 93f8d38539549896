import SwiftTree.Proofs.AngleBrackets
import SwiftTree.Proofs.Skipping
import SwiftTree.Proofs.Stability.Types

/-!
# Types among the tokens ahead

Which tokens are generic arguments can be said of the tokens alone (`Ahead.IsArguments`). A type has
to stand wherever one belongs. The rest of the grammar of types is as the rules have it: they go on
without a closing bracket, a name of an attribute or an arrow that is missing, and step over what is
in the way in a group that is closed. In tokens that are taken without looking at them the angle
brackets are balanced (`Ahead.Passes`).

Rules read such tokens and no others (`Parser.Reads`): what they add is whole if and only if the
tokens are the wanted ones, and then they are left behind.
-/

namespace SwiftTree.Grammar

/-! ## The tokens of types -/

/-- What there is as often as a test says so. -/
inductive WhileAhead (test : Ahead → Bool) (R : Ahead → Ahead → Prop) : Ahead → Ahead → Prop where
  | no {ts : Ahead} (h : test ts = false) : WhileAhead test R ts ts
  | yes {ts us vs : Ahead} (h : test ts) (hus : R ts us) (hvs : WhileAhead test R us vs) :
      WhileAhead test R ts vs

/-- Where the test fails, there is nothing. -/
theorem whileAhead_iff_of_not {test : Ahead → Bool} {R : Ahead → Ahead → Prop} {ts us : Ahead}
    (h : test ts = false) : WhileAhead test R ts us ↔ us = ts := by
  constructor
  · rintro (_ | ⟨hyes, -, -⟩)
    · rfl
    · exact absurd hyes (ne_true_of_eq_false h)
  · rintro rfl
    exact .no h

namespace Ahead

/-- What is left behind a token of a kind, if it comes. -/
def past (kind : Kind) (ts : Ahead) : Ahead := if ts.isAt kind then ts.tail else ts

/-- What is left behind the bracket that an operator starts with. -/
def pastHead (head : SolidKind) (ts : Ahead) : Ahead := (ts.splitHead head ts.restKind).tail

/-- What is left behind a mark that makes a type optional. -/
def pastMark (ts : Ahead) : Ahead := (ts.splitHead ⟨.postfixOperator, Eq.refl true⟩ none).tail

end Ahead

/-- What there is in a list with commas. Behind a comma the list may end. -/
inductive CommaList (ends : Ahead → Bool) (R : Ahead → Ahead → Prop) : Ahead → Ahead → Prop where
  | last {ts us : Ahead} (h : R ts us) (hus : (us.isAt .comma && !ends (us.past .comma)) = false) :
      CommaList ends R ts (us.past .comma)
  | more {ts us vs : Ahead} (h : R ts us) (hus : us.isAt .comma && !ends (us.past .comma))
      (hvs : CommaList ends R (us.past .comma) vs) : CommaList ends R ts vs

namespace Ahead

/-- What is left behind the names of a tuple element. -/
def pastLabels (ts : Ahead) : Ahead :=
  if ts.isLabel then ts.drop 2
  else if ts.isName && isLabel ts.tail then ts.drop 3
  else ts

/-- What is left behind the dots of a tuple element. -/
def pastDots (ts : Ahead) : Ahead := if ts.isOperator "..." then ts.tail else ts

/-- Tokens that are taken without a look at them. Their angle brackets have to be balanced. -/
structure Passes (n : Nat) (ts us : Ahead) : Prop where
  balanced : isBalanced (ts.take n)
  eq_drop : us = ts.drop n

theorem passes_zero {ts us : Ahead} : Passes 0 ts us ↔ us = ts := ⟨fun h => h.2, fun h => ⟨rfl, h⟩⟩

/-- How many tokens are in the way of the closing token of a group, if this one is still to come. -/
def lengthToCloser (closing : Kind) (barriers : KindSet) (ts : Ahead) : Nat :=
  if !ts.isAt closing && ts.closerAhead closing barriers then
    skipLength (isIn (.single closing)) 0 ts
  else 0

/-- The end of a group. -/
inductive Closes (closing : Kind) (barriers : KindSet) : Ahead → Ahead → Prop where
  | mk {ts us : Ahead} (h : Passes (ts.lengthToCloser closing barriers) ts us) :
      Closes closing barriers ts (us.past closing)

/-- Whether arguments touch the name of an attribute. -/
def startsArguments (ts : Ahead) : Bool := ts.isAt .leftParen && ts.adjacent

/-- The arguments of an attribute, if a parenthesis touches its name. -/
inductive AreAttributeArguments : Ahead → Ahead → Prop where
  | none {ts : Ahead} (h : ts.startsArguments = false) : AreAttributeArguments ts ts
  | some {ts us : Ahead} (h : ts.startsArguments)
      (hus : Passes (skipLength (isAt .rightParen) 0 ts.tail) ts.tail us) :
      AreAttributeArguments ts (us.past .rightParen)

/-- What is left behind a name, if there is one. -/
def pastName (ts : Ahead) : Ahead := if ts.isName then ts.tail else ts

/-- An attribute. -/
inductive IsAttribute : Ahead → Ahead → Prop where
  | mk {ts us : Ahead} (h : AreAttributeArguments (pastName ts.tail) us) : IsAttribute ts us

/-- The attributes before a type. -/
abbrev AreAttributes : Ahead → Ahead → Prop := WhileAhead (isAt .atSign) IsAttribute

/-- Marks that make a type optional. -/
abbrev AreMarks : Ahead → Ahead → Prop :=
  WhileAhead (fun ts => ts.optionalSuffix?.isSome) fun ts us => us = ts.pastMark

/-- What a function does besides giving a result. -/
abbrev AreEffects : Ahead → Ahead → Prop := WhileAhead isEffect fun ts us => us = ts.tail

/-- Whether a member of the type before starts here. -/
def startsMember (ts : Ahead) : Bool := ts.isAt .period && isName ts.tail

/-- Whether the elements of a tuple type end here, behind a comma. -/
def endsTuple (ts : Ahead) : Bool := ts.isAt .rightParen || ts.isAt .endOfFile

/-- Whether the tuple type before is that of the parameters of a function. -/
def startsResult (ts : Ahead) : Bool := ts.isEffect || ts.isAt .arrow

/-- The forms of types that are no compositions. -/
inductive TypeForm where
  | attributed | someOrAny | named | collection | tuple

/-- The form of the type that starts here, as far as the next tokens tell. -/
def typeForm? (ts : Ahead) : Option TypeForm :=
  if ts.isAt .atSign || ts.isAt .inoutKw then some .attributed
  else if ts.isSomeOrAny then some .someOrAny
  else if ts.isAt .identifier || ts.isAt .capitalSelfKw then some .named
  else if ts.isAt .leftBracket then some .collection
  else if ts.isAt .leftParen then some .tuple
  else none

mutual

/-- A type. -/
inductive IsType : Ahead → Ahead → Prop where
  | mk {ts us vs : Ahead} (h : IsPlainType ts us) (hvs : WhileAhead isComposition IsJoined us vs) :
      IsType ts vs

/-- A type behind `&`. -/
inductive IsJoined : Ahead → Ahead → Prop where
  | mk {ts us : Ahead} (h : IsPlainType ts.tail us) : IsJoined ts us

/-- A type that is no composition. -/
inductive IsPlainType : Ahead → Ahead → Prop where
  | attributed {ts us vs : Ahead} (h : ts.typeForm? = some .attributed)
      (hattributes : AreAttributes ts us) (htype : IsPlainType (us.past .inoutKw) vs) :
        IsPlainType ts vs
  | someOrAny {ts us : Ahead} (h : ts.typeForm? = some .someOrAny)
      (htype : IsPlainType ts.tail us) :
      IsPlainType ts us
  | named {ts us vs ws : Ahead} (h : ts.typeForm? = some .named)
      (harguments : AreArguments ts.tail us)
      (hmembers : WhileAhead startsMember IsMember us vs) (hmarks : AreMarks vs ws) :
        IsPlainType ts ws
  | collection {ts us vs ws xs : Ahead} (h : ts.typeForm? = some .collection)
      (htype : IsType ts.tail us)
      (hvalue : IsValue us vs)
      (hclose : Closes .rightBracket (.ofList [.rightParen, .rightBrace]) vs ws)
      (hmarks : AreMarks ws xs) : IsPlainType ts xs
  | tuple {ts us vs ws xs : Ahead} (h : ts.typeForm? = some .tuple)
      (helements : AreElements ts.tail us)
      (hclose : Closes .rightParen (.ofList [.leftBrace, .rightBrace, .rightBracket]) us vs)
      (hresult : IsResult vs ws) (hmarks : AreMarks ws xs) : IsPlainType ts xs

/-- The type of the values of a dictionary, if a colon comes. -/
inductive IsValue : Ahead → Ahead → Prop where
  | none {ts : Ahead} (h : ts.isAt .colon = false) : IsValue ts ts
  | some {ts us : Ahead} (h : ts.isAt .colon) (htype : IsType ts.tail us) : IsValue ts us

/-- The elements of a tuple type. -/
inductive AreElements : Ahead → Ahead → Prop where
  | none {ts : Ahead} (h : ts.isAt .rightParen) : AreElements ts ts
  | some {ts us : Ahead} (h : ts.isAt .rightParen = false)
      (hus : CommaList endsTuple IsElement ts us) :
      AreElements ts us

/-- An element of a tuple type. -/
inductive IsElement : Ahead → Ahead → Prop where
  | mk {ts us : Ahead} (h : IsType ts.pastLabels us) : IsElement ts us.pastDots

/-- The result of a function type, behind effects and an arrow, if any of them comes. -/
inductive IsResult : Ahead → Ahead → Prop where
  | none {ts : Ahead} (h : ts.startsResult = false) : IsResult ts ts
  | some {ts us vs : Ahead} (h : ts.startsResult) (heffects : AreEffects ts us)
      (htype : IsType (us.past .arrow) vs) : IsResult ts vs

/-- A member of a type. -/
inductive IsMember : Ahead → Ahead → Prop where
  | mk {ts us : Ahead} (h : AreArguments ts.tail.tail us) : IsMember ts us

/-- Generic arguments, if an angle bracket touches the name before them. -/
inductive AreArguments : Ahead → Ahead → Prop where
  | none {ts : Ahead} (h : ts.isAdjacentAngle = false) : AreArguments ts ts
  | some {ts us : Ahead} (h : ts.isAdjacentAngle) (hus : IsArguments ts us) : AreArguments ts us

/-- Generic arguments between angle brackets. -/
inductive IsArguments : Ahead → Ahead → Prop where
  | mk {ts us : Ahead} (h : CommaList (fun _ => false) IsType (ts.pastHead ⟨.leftAngle, rfl⟩) us)
      (hclose : us.isOperatorFrom '>') : IsArguments ts (us.pastHead ⟨.rightAngle, rfl⟩)

end

/-! ### The forms of types -/

variable {ts us : Ahead}

/-- Of the forms of types only the one with attributes starts with attributes or `inout`. -/
theorem isPlainType_attributed (h : ts.typeForm? = some .attributed) :
    (∃ vs, AreAttributes ts vs ∧ IsPlainType (vs.past .inoutKw) us) ↔ IsPlainType ts us := by
  constructor
  · rintro ⟨vs, hvs, hus⟩
    exact .attributed h hvs hus
  · rintro (⟨-, hvs, hus⟩ | ⟨h', -⟩ | ⟨h', -⟩ | ⟨h', -⟩ | ⟨h', -⟩)
    · exact ⟨_, hvs, hus⟩
    all_goals cases h.symm.trans h'

/-- Behind `some` and `any` stands another type. -/
theorem isPlainType_someOrAny (h : ts.typeForm? = some .someOrAny) :
    IsPlainType ts.tail us ↔ IsPlainType ts us := by
  constructor
  · exact .someOrAny h
  · rintro (⟨h', -⟩ | ⟨-, hus⟩ | ⟨h', -⟩ | ⟨h', -⟩ | ⟨h', -⟩)
    · cases h.symm.trans h'
    · exact hus
    all_goals cases h.symm.trans h'

/-- A name may have arguments, members and marks behind it. -/
theorem isPlainType_named (h : ts.typeForm? = some .named) :
    (∃ vs, AreArguments ts.tail vs ∧ ∃ ws, WhileAhead startsMember IsMember vs ws ∧
      AreMarks ws us) ↔ IsPlainType ts us := by
  constructor
  · rintro ⟨vs, hvs, ws, hws, hus⟩
    exact .named h hvs hws hus
  · rintro (⟨h', -⟩ | ⟨h', -⟩ | ⟨-, hvs, hws, hus⟩ | ⟨h', -⟩ | ⟨h', -⟩)
    · cases h.symm.trans h'
    · cases h.symm.trans h'
    · exact ⟨_, hvs, _, hws, hus⟩
    all_goals cases h.symm.trans h'

/-- Brackets hold a type or two, and may have marks behind them. -/
theorem isPlainType_collection (h : ts.typeForm? = some .collection) :
    (∃ xs, (∃ vs ws, IsType ts.tail vs ∧ IsValue vs ws ∧
      Closes .rightBracket (.ofList [.rightParen, .rightBrace]) ws xs) ∧ AreMarks xs us)
        ↔ IsPlainType ts us := by
  constructor
  · rintro ⟨xs, ⟨vs, ws, hvs, hws, hxs⟩, hus⟩
    exact .collection h hvs hws hxs hus
  · rintro (⟨h', -⟩ | ⟨h', -⟩ | ⟨h', -⟩ | ⟨-, hvs, hws, hxs, hus⟩ | ⟨h', -⟩)
    · cases h.symm.trans h'
    · cases h.symm.trans h'
    · cases h.symm.trans h'
    · exact ⟨_, ⟨_, _, hvs, hws, hxs⟩, hus⟩
    · cases h.symm.trans h'

/-- Parentheses hold the elements of a tuple. What is behind them may make a function of it, and
marks may follow. -/
theorem isPlainType_tuple (h : ts.typeForm? = some .tuple) :
    (∃ xs, (∃ vs ws, AreElements ts.tail vs ∧
      Closes .rightParen (.ofList [.leftBrace, .rightBrace, .rightBracket]) vs ws ∧
        IsResult ws xs) ∧ AreMarks xs us) ↔ IsPlainType ts us := by
  constructor
  · rintro ⟨xs, ⟨vs, ws, hvs, hws, hxs⟩, hus⟩
    exact .tuple h hvs hws hxs hus
  · rintro (⟨h', -⟩ | ⟨h', -⟩ | ⟨h', -⟩ | ⟨h', -⟩ | ⟨-, hvs, hws, hxs, hus⟩)
    · cases h.symm.trans h'
    · cases h.symm.trans h'
    · cases h.symm.trans h'
    · cases h.symm.trans h'
    · exact ⟨_, ⟨_, _, hvs, hws, hxs⟩, hus⟩

/-- Where no form is told, no type starts. -/
theorem not_isPlainType (h : ts.typeForm? = none) : ¬IsPlainType ts us := by
  rintro (⟨h', -⟩ | ⟨h', -⟩ | ⟨h', -⟩ | ⟨h', -⟩ | ⟨h', -⟩) <;> cases h.symm.trans h'

end Ahead

/-! ## Steps that read certain tokens -/

/-- Whether the trees of a rule with an answer are whole if and only if the tokens that it has taken
are the wanted ones. -/
structure State.Reads {α : Type} (R : Ahead → α → Ahead → Prop) (s : State Forest) (a : α)
    (t : State Forest) : Prop where
  before : t.built.all Green.isWhole → s.built.all Green.isWhole
  sound : t.built.all Green.isWhole → R s.ahead a t.ahead
  complete : s.built.all Green.isWhole → ∀ b us, R s.ahead b us →
    b = a ∧ us = t.ahead ∧ t.built.all Green.isWhole

namespace State.Reads

variable {α β : Type} {R R' : Ahead → α → Ahead → Prop} {S : α → Ahead → β → Ahead → Prop}
  {s t u : State Forest} {a : α} {b : β}

/-- Where nothing is done, nothing is taken, and no tree is added. -/
theorem refl (s : State Forest) (a : α) : Reads (fun ts b us => b = a ∧ us = ts) s a s where
  before h := h
  sound _ := ⟨rfl, rfl⟩
  complete h _ _ hR := ⟨hR.1, hR.2, h⟩

/-- What is read in one step and in the next is read in both: the trees of both are whole just if
those of each are. -/
theorem trans (h : Reads R s a t) (h' : Reads (S a) t b u) :
    Reads (fun ts b vs => ∃ a us, R ts a us ∧ S a us b vs) s b u where
  before hu := h.before (h'.before hu)
  sound hu := ⟨a, t.ahead, h.sound (h'.before hu), h'.sound hu⟩
  complete hs := by
    rintro c vs ⟨a', us, hR, hS⟩
    obtain ⟨rfl, rfl, ht⟩ := h.complete hs a' us hR
    exact h'.complete ht c vs hS

/-- The wanted tokens can be described in another way. -/
theorem congr (h : Reads R s a t) (hiff : ∀ b us, R s.ahead b us ↔ R' s.ahead b us) :
    Reads R' s a t where
  before := h.before
  sound ht := (hiff a t.ahead).mp (h.sound ht)
  complete hs b us hR := h.complete hs b us ((hiff b us).mpr hR)

/-- A whole tree is added where it belongs, and another one where there should be something else. -/
theorem add {Q : Ahead → Ahead → Prop} {g : Green} {us : Ahead}
    (h : ∀ vs, Q s.ahead vs ↔ vs = us ∧ g.isWhole) :
    Reads (fun ts _ vs => Q ts vs) s () ⟨us, g :: s.built⟩ where
  before ht := (Bool.and_eq_true _ _ |>.mp ht).2
  sound ht := (h us).mpr ⟨rfl, (Bool.and_eq_true _ _ |>.mp ht).1⟩
  complete hs _ vs hQ :=
    ⟨rfl, ((h vs).mp hQ).1, Bool.and_eq_true _ _ |>.mpr ⟨((h vs).mp hQ).2, hs⟩⟩

/-- A token is taken. -/
theorem take (s : State Forest) (kind : Option SolidKind) :
    Reads (fun ts _ us => us = ts.tail) s () (s.take kind) := by
  obtain ⟨_ | ⟨x, ts⟩, built⟩ := s
  · exact (refl _ ()).congr fun _ _ => by simp
  · exact add fun vs => (and_iff_left rfl).symm

/-- A node is made of what was added. -/
theorem node {kind : Kind} (hk : kind.isConstruct) (hne : kind ≠ .attributeArguments)
    (h : Reads R s.enter.2 a t) : Reads R s a (t.leave s.enter.1 (some kind)) := by
  have hgood : (t.leave s.enter.1 (some kind)).built.all Green.isWhole
      = (t.built.all Green.isWhole && s.built.all Green.isWhole) := by
    show ((Green.node kind ([] ++ t.built.reverse)).isWhole && s.built.all Green.isWhole) = _
    rw [List.nil_append, Green.isWhole_of_isConstruct hk hne, List.all_reverse]
  refine ⟨fun ht => ?_, fun ht => ?_, fun hs b us hR => ?_⟩
  · rw [hgood, Bool.and_eq_true] at ht
    exact ht.2
  · rw [hgood, Bool.and_eq_true] at ht
    exact h.sound ht.1
  · obtain ⟨rfl, rfl, ht⟩ := h.complete rfl b us hR
    exact ⟨rfl, rfl, by rw [hgood, ht, hs]; rfl⟩

/-- A node is made of what was added, of a kind that comes with it. -/
theorem nodeBy {R : Ahead → Construct × α → Ahead → Prop} {kind : Construct}
    (h : Reads R s.enter.2 (kind, a) t)
    (hne : ∀ ts us, R ts (kind, a) us → kind.1 ≠ .attributeArguments) :
    Reads (fun ts b us => ∃ kind, R ts (kind, b) us) s a (t.leave s.enter.1 (some kind.1)) := by
  have hparts (ht : (t.leave s.enter.1 (some kind.1)).built.all Green.isWhole) :
      t.built.all Green.isWhole ∧ s.built.all Green.isWhole := by
    have ht : ((Green.node kind.1 ([] ++ t.built.reverse)).isWhole &&
      s.built.all Green.isWhole) = true :=
      ht
    rw [Green.isWhole_node, List.nil_append, Bool.and_eq_true, Bool.and_eq_true] at ht
    exact ⟨List.all_reverse.symm.trans ht.1.2, ht.2⟩
  refine ⟨fun ht => (hparts ht).2, fun ht => ⟨kind, h.sound (hparts ht).1⟩, ?_⟩
  rintro hs b us ⟨kind', hR⟩
  obtain ⟨hkind, rfl, ht⟩ := h.complete rfl (kind', b) us hR
  cases hkind
  have hnode := (h.node kind.2 (hne _ _ hR)).complete hs _ _ hR
  exact ⟨rfl, rfl, hnode.2.2⟩

/-- A node is made of the newest tree and of what was added. -/
theorem enclose {kind : Kind} (hk : kind.isConstruct) (hne : kind ≠ .attributeArguments)
    (h : Reads R s.precede.2 a t) : Reads R s a (t.leave s.precede.1 (some kind)) := by
  obtain ⟨wrapped, before, hbuilt, hprecede⟩ := s.precede_eq
  rw [hprecede] at h ⊢
  have hgood : (t.leave ((wrapped, before) : List Green × Forest) (some kind)).built.all
    Green.isWhole
      = (t.built.all Green.isWhole && s.built.all Green.isWhole) := by
    show ((Green.node kind (wrapped ++ t.built.reverse)).isWhole && before.all Green.isWhole) = _
    rw [Green.isWhole_of_isConstruct hk hne, hbuilt, List.all_append, List.all_append,
      List.all_reverse, List.all_reverse, Bool.and_comm (wrapped.all _), Bool.and_assoc]
  refine ⟨fun ht => ?_, fun ht => ?_, fun hs b us hR => ?_⟩
  · rw [hgood, Bool.and_eq_true] at ht
    exact ht.2
  · rw [hgood, Bool.and_eq_true] at ht
    exact h.sound ht.1
  · obtain ⟨rfl, rfl, ht⟩ := h.complete rfl b us hR
    exact ⟨rfl, rfl, by rw [hgood, ht, hs]; rfl⟩

section

variable {Q : Ahead → Ahead → Prop} {R : Ahead → Bool → Ahead → Prop}
  (hQ : ∀ ts vs, Q ts vs ↔ R ts false vs ∨ ∃ us, R ts true us ∧ Q us vs)

include hQ

/-- The last round of a loop. -/
theorem stop (h : Reads R s false t) : Reads (fun ts (_ : Unit) us => Q ts us) s () t where
  before := h.before
  sound ht := (hQ _ _).mpr (.inl (h.sound ht))
  complete hs _ vs hvs := by
    rcases (hQ _ _).mp hvs with hR | ⟨us, hR, -⟩
    · exact ⟨rfl, (h.complete hs false vs hR).2⟩
    · cases (h.complete hs true us hR).1

/-- A round of a loop that goes on. -/
theorem again (h : Reads R s true t) (hrest : Reads (fun ts (_ : Unit) us => Q ts us) t () u) :
    Reads (fun ts (_ : Unit) us => Q ts us) s () u where
  before hu := h.before (hrest.before hu)
  sound hu := (hQ _ _).mpr (.inr ⟨t.ahead, h.sound (hrest.before hu), hrest.sound hu⟩)
  complete hs _ vs hvs := by
    rcases (hQ _ _).mp hvs with hR | ⟨us, hR, hvs⟩
    · cases (h.complete hs false vs hR).1
    · obtain ⟨-, rfl, ht⟩ := h.complete hs true us hR
      exact hrest.complete ht () vs hvs

end

/-- Tokens are taken as unexpected text. -/
theorem unexpected (n : Nat) (hs : s.ahead ≠ []) :
    Reads (fun ts _ us => Ahead.Passes (n + 1) ts us) s () (s.unexpected n) := by
  obtain ⟨ts, built⟩ := s
  obtain ⟨x, ts, rfl⟩ := List.exists_cons_of_ne_nil hs
  have hbuilt : State.unexpected n ⟨x :: ts, built⟩ = (⟨ts.drop n, .node .unexpected
      (((x :: ts.take n).map fun x => .token x.token) ++ []) :: built⟩ : State Forest) := by
    rw [State.unexpected_cons, List.append_nil, ← Forest.addUnexpected_eq]
    rfl
  rw [hbuilt]
  refine add fun vs => ?_
  rw [Green.isWhole_tokens rfl _ rfl (List.forall_mem_nil _)]
  exact ⟨fun h => ⟨h.2, h.1⟩, fun h => ⟨h.2, h.1⟩⟩

end State.Reads

/-- Whether a rule reads the wanted tokens and no others. -/
def Parser.Reads {α : Type} (env : Env Forest) (test : Ahead → Prop) (p : Parser α)
    (R : Ahead → α → Ahead → Prop) : Prop :=
  ∀ s a t, test s.ahead → p.run env s = some (a, t) → s.Reads R a t

namespace Parser.Reads

variable {env : Env Forest} {test : Ahead → Prop} {α β : Type} {R R' : Ahead → α → Ahead → Prop}
  {Q : Ahead → Ahead → Prop} {S : Ahead → β → Ahead → Prop}

theorem congr {p : Parser α} (h : p.Reads env test R)
    (hiff : ∀ ts a us, test ts → (R ts a us ↔ R' ts a us)) : p.Reads env test R' :=
  fun s a t hs hr => (h s a t hs hr).congr fun b us => hiff s.ahead b us hs

theorem weaken {test' : Ahead → Prop} {p : Parser α} (h : p.Reads env test R)
    (htest : ∀ ts, test' ts → test ts) : p.Reads env test' R :=
  fun s a t hs hr => h s a t (htest s.ahead hs) hr

/-- An answer alone takes nothing. -/
theorem pure (a : α) : (Pure.pure a : Parser α).Reads env test fun ts b us => b = a ∧ us = ts := by
  intro s b t _ hr
  cases hr
  exact .refl s a

/-- One rule behind another. -/
theorem seq {first : Parser α} {next : α → Parser β} {S : α → Ahead → β → Ahead → Prop}
    (h : first.Reads env test R) (hnext : ∀ a, (next a).Reads env (fun _ => True) (S a)) :
    (first >>= next).Reads env test fun ts b vs => ∃ a us, R ts a us ∧ S a us b vs := by
  intro s b u hs hr
  obtain ⟨a, t, hfirst, hr⟩ := exists_run_of_bind hr
  exact (h s a t hs hfirst).trans (hnext a t b u trivial hr)

/-- One rule behind another that has no answer. -/
theorem andThen {first : Parser Unit} {next : Unit → Parser β}
    (h : first.Reads env test fun ts _ us => Q ts us)
    (hnext : (next ()).Reads env (fun _ => True) S) :
    (first >>= next).Reads env test fun ts b vs => ∃ us, Q ts us ∧ S us b vs := by
  refine (seq (S := fun _ => S) h fun _ => hnext).congr fun ts b vs _ => ?_
  constructor
  · rintro ⟨_, us, hus⟩
    exact ⟨us, hus⟩
  · rintro ⟨us, hus⟩
    exact ⟨(), us, hus⟩

/-- One rule behind another that always leaves certain tokens. -/
theorem step {f : Ahead → Ahead} {first : Parser Unit} {next : Unit → Parser β}
    (h : first.Reads env test fun ts _ us => us = f ts)
    (hnext : (next ()).Reads env (fun _ => True) S) :
    (first >>= next).Reads env test fun ts b vs => S (f ts) b vs := by
  refine (h.andThen hnext).congr fun ts b vs _ => ?_
  constructor
  · rintro ⟨_, rfl, hvs⟩
    exact hvs
  · exact fun hvs => ⟨f ts, rfl, hvs⟩

/-- What follows a look may depend on what was seen. -/
theorem look {f : Ahead → α} {next : α → Parser β} {S : α → Ahead → β → Ahead → Prop}
    (h : ∀ a, (next a).Reads env (fun ts => test ts ∧ f ts = a) (S a)) :
    (Grammar.look f >>= next).Reads env test fun ts b us => S (f ts) ts b us := by
  intro s b t hs hr
  exact (h (f s.ahead) s b t ⟨hs, rfl⟩ hr).congr fun _ _ => .rfl

/-- Both branches read what is wanted, each where the test sends it. -/
theorem branch {f : Ahead → Bool} {p q : Parser α}
    (hp : p.Reads env (fun ts => test ts ∧ f ts = true) R)
    (hq : q.Reads env (fun ts => test ts ∧ f ts = false) R) :
    (Grammar.look f >>= fun b => if b then p else q).Reads env test R := by
  refine look (S := fun _ => R) ?_
  rintro (_ | _)
  · exact hq
  · exact hp

/-- Where nothing stands ahead that is asked for, nothing may be taken, and then this has to be what
is wanted. -/
theorem ifAhead {f : Ahead → Bool} {p : Parser Unit}
    (h : p.Reads env (fun ts => test ts ∧ f ts = true) fun ts _ us => Q ts us)
    (hno : ∀ ts us, test ts → f ts = false → (Q ts us ↔ us = ts)) :
    (Grammar.ifAhead f p).Reads env test fun ts _ us => Q ts us := by
  refine branch h ((pure ()).congr fun ts _ us hts => ?_)
  rw [hno ts us hts.1 hts.2]
  exact and_iff_right rfl

/-- A rule that a flag turns off takes nothing. -/
theorem onlyIf {b : Bool} {p : Parser Unit} (h : p.Reads env test fun ts _ us => Q ts us) :
    (Grammar.onlyIf b p).Reads env test fun ts _ us => if b then Q ts us else us = ts := by
  cases b with
  | false => exact (pure ()).congr fun ts _ us _ => and_iff_right rfl
  | true => exact h

/-! ### Tokens -/

/-- Any token is taken as it is. No type is missing in it, and its angle brackets are not asked
for. -/
theorem advance : Grammar.advance.Reads env test fun ts _ us => us = ts.tail := by
  intro s a t _ hr
  cases hr
  exact .take s none

/-- A token may be taken as one of another kind. -/
theorem advanceAs {k : Kind} {hk : k.isSolid} :
    (Grammar.advanceAs k hk).Reads env test fun ts _ us => us = ts.tail := by
  intro s a t _ hr
  cases hr
  exact .take s (some ⟨k, hk⟩)

/-- Several tokens are taken as they are. -/
theorem advanceBy (n : Nat) :
    (Grammar.advanceBy n).Reads env test fun ts _ us => us = ts.drop n := by
  induction n generalizing test with
  | zero => exact (pure ()).congr fun ts _ us _ => and_iff_right rfl
  | succ n ih =>
    refine (advance.step ih).congr fun ts _ us _ => ?_
    rw [List.drop_tail]

/-- A token of the kind is taken if it comes. -/
theorem eat {k : Kind} :
    (Grammar.eat k).Reads env test fun ts a us => a = ts.isAt k ∧ us = ts.past k := by
  refine branch ((advance.step (pure true)).congr fun ts a us hts => ?_)
    ((pure false).congr fun ts a us hts => ?_)
  · rw [Ahead.past, hts.2, if_pos rfl]
  · rw [Ahead.past, hts.2, if_neg Bool.false_ne_true]

/-- A token of a kind is taken if it comes, and the rule behind it knows whether it did. -/
theorem eatThen {k : Kind} {next : Bool → Parser β} {S : Bool → Ahead → β → Ahead → Prop}
    (hnext : ∀ a, (next a).Reads env (fun _ => True) (S a)) :
    (Grammar.eat k >>= next).Reads env test fun ts b us => S (ts.isAt k) (ts.past k) b us := by
  refine (eat.seq hnext).congr fun ts b us _ => ?_
  constructor
  · rintro ⟨_, _, ⟨rfl, rfl⟩, hvs⟩
    exact hvs
  · exact fun hvs => ⟨_, _, ⟨rfl, rfl⟩, hvs⟩

/-- The same, where the answer is not asked for. -/
theorem skip {k : Kind} : (Grammar.skip k).Reads env test fun ts _ us => us = ts.past k := by
  refine ifAhead (advance.congr fun ts _ us hts => ?_) fun ts us _ hts => ?_
  · rw [Ahead.past, hts.2, if_pos rfl]
  · rw [Ahead.past, hts, if_neg Bool.false_ne_true]

/-- A token is cut. -/
theorem splitHead {head : Kind} {rest : Option SolidKind} {hk : head.isSolid} :
    (Grammar.splitHead head rest hk).Reads env test fun ts _ us => us =
      ts.splitHead ⟨head, hk⟩ rest := by
  intro s a t _ hr
  cases hr
  exact ⟨fun h => h, fun _ => rfl, fun hs _ _ hus => ⟨rfl, hus, hs⟩⟩

/-- A missing token leaves what is ahead. All but angle brackets may be missing. -/
theorem missing {k : Kind} {hk : k.isSolid} (hne : k ≠ .rightAngle := by decide) :
    (Grammar.missing k hk).Reads env test fun ts _ us => us = ts := by
  intro s a t _ hr
  cases hr
  refine .add fun vs => (and_iff_left ?_).symm
  show (false || k != .rightAngle) = true
  rw [Bool.false_or, bne_iff_ne]
  exact hne

/-- A word is taken as the keyword with its spelling, if it comes. -/
theorem eatWord {k : Kind} {hk : k.isSolid} : (Grammar.eatWord k hk).Reads env test
    fun ts a us => a = ts.isKeywordWord k ∧ us = if a then ts.tail else ts := by
  refine branch ((advanceAs.step (pure true)).congr fun ts a us hts => ?_)
    ((pure false).congr fun ts a us hts => ?_)
  · rw [hts.2]
    exact and_congr_right fun ha => by rw [ha]; rfl
  · rw [hts.2]
    exact and_congr_right fun ha => by rw [ha]; rfl

/-- One of two steps to the same tokens is taken. -/
theorem orElse {f f' : Ahead → Bool} {g : Ahead → Ahead} {p q : Parser Bool}
    (hp : p.Reads env test fun ts b us => b = f ts ∧ us = if b then g ts else ts)
    (hq : q.Reads env (fun _ => True) fun ts b us => b = f' ts ∧ us = if b then g ts else ts) :
    (p >>= fun b => if b then Pure.pure true else q).Reads env test
      fun ts b us => b = (f ts || f' ts) ∧ us = if b then g ts else ts := by
  refine (hp.seq (S := fun a ts b us => if a then b = true ∧ us = ts
    else b = f' ts ∧ us = if b then g ts else ts) ?_).congr fun ts b us _ => ?_
  · rintro (_ | _)
    · exact hq
    · exact pure true
  · constructor
    · rintro ⟨a, ws, ⟨rfl, rfl⟩, h⟩
      cases hf : f ts with
      | false => rwa [hf] at h
      | true =>
        rw [hf] at h
        obtain ⟨rfl, rfl⟩ := h
        exact ⟨rfl, rfl⟩
    · rintro ⟨hb, hus⟩
      refine ⟨_, _, ⟨rfl, rfl⟩, ?_⟩
      cases hf : f ts with
      | false =>
        rw [hf] at hb
        exact ⟨hb, hus⟩
      | true =>
        rw [hf] at hb
        obtain rfl : b = true := hb
        exact ⟨rfl, hus⟩

/-- A token that does not come is missing. It is no type and no closing angle bracket, so the tree
may be whole without it. -/
theorem expect {k : Kind} {hk : k.isSolid} (hne : k ≠ .rightAngle := by decide) :
    (Grammar.expect k hk).Reads env test fun ts a us => a = ts.isAt k ∧ us = ts.past k := by
  refine eatThen (S := fun a ts b us => b = a ∧ us = ts) fun a => ?_
  cases a with
  | false =>
    refine ((missing hne).andThen (S := fun ts b us => b = false ∧ us = ts) (pure false)).congr
      fun ts b us _ => ?_
    constructor
    · rintro ⟨_, rfl, h⟩
      exact h
    · exact fun h => ⟨_, rfl, h⟩
  | true => exact pure true

/-- The same, where the answer is not asked for. -/
theorem require {k : Kind} {hk : k.isSolid} (hne : k ≠ .rightAngle := by decide) :
    (Grammar.require k hk).Reads env test fun ts _ us => us = ts.past k := by
  refine ((expect hne).seq fun _ => pure ()).congr fun ts _ us _ => ?_
  constructor
  · rintro ⟨_, _, ⟨-, rfl⟩, -, hus⟩
    exact hus
  · exact fun hus => ⟨_, _, ⟨rfl, rfl⟩, rfl, hus⟩

/-- Nothing is read where an angle bracket is missing. -/
theorem missingAngle {hk : Kind.isSolid .rightAngle} :
    (Grammar.missing .rightAngle hk).Reads env test fun _ _ _ => False := by
  intro s a t _ hr
  cases hr
  exact .add fun vs => ⟨False.elim, fun h => Bool.false_ne_true h.2⟩

/-- Nothing is read where something is put in the place of a type. -/
theorem placeholder {hk : Kind.isMissingNode .missingType} :
    (Grammar.placeholder .missingType hk).Reads env test fun _ _ _ => False := by
  intro s a t _ hr
  cases hr
  exact .add fun vs => ⟨False.elim, fun h => Bool.false_ne_true h.2⟩

/-- Tokens in the way of a closing token are taken without a look at them. -/
theorem skipToCloser {closing : Kind} {barriers : KindSet} :
    (Grammar.skipToCloser closing barriers).Reads env test fun ts _ us =>
      Ahead.Passes (ts.lengthToCloser closing barriers) ts us := by
  refine ifAhead (fun s a t hs hr => ?_) fun ts us _ hts => ?_
  · rw [run_skipUntil] at hr
    split at hr
    · rename_i hzero
      cases hr
      refine (State.Reads.refl s ()).congr fun _ us => ?_
      rw [Ahead.lengthToCloser, if_pos hs.2, hzero, Ahead.passes_zero]
      exact and_iff_right rfl
    · rename_i n hn
      cases hr
      refine (State.Reads.unexpected n ?_).congr fun _ us => ?_
      · intro hnil
        rw [hnil] at hn
        cases hn
      · rw [Ahead.lengthToCloser, if_pos hs.2, hn]
  · rw [Ahead.lengthToCloser, if_neg (ne_true_of_eq_false hts), Ahead.passes_zero]

/-- The closing token of a group ends it, if it comes. -/
theorem closerThen {closing : Kind} {hk : closing.isSolid} {barriers : KindSet} {next : Parser β}
    (hnext : next.Reads env (fun _ => True) S) (hne : closing ≠ .rightAngle := by decide) :
    (do Grammar.skipToCloser closing barriers; Grammar.require closing hk; next : Parser β).Reads
      env
      test fun ts b vs => ∃ us, Ahead.Closes closing barriers ts us ∧ S us b vs := by
  refine .congr (.andThen .skipToCloser (.step (.require hne) hnext)) fun ts b vs _ => ?_
  constructor
  · rintro ⟨_, hus, hvs⟩
    exact ⟨_, .mk hus, hvs⟩
  · rintro ⟨_, ⟨hus⟩, hvs⟩
    exact ⟨_, hus, hvs⟩

/-! ### Nodes -/

/-- A node reads what its parts read. It is whole just if these are, but for the arguments of
attributes. -/
theorem node {kind : Kind} {hk : kind.isConstruct} {body : Parser α} (h : body.Reads env test R)
    (hne : kind ≠ .attributeArguments := by decide) :
    (Grammar.node kind body hk).Reads env test R := by
  intro s a t hs hr
  obtain ⟨u, hbody, rfl⟩ := exists_of_run_node hr
  exact (h ⟨s.ahead, []⟩ a u hs hbody).node hk hne

/-- A rule that chooses the kind of its node reads what the rule for the parts reads. -/
theorem nodeBy {body : Parser (Construct × α)} {R : Ahead → Construct × α → Ahead → Prop}
    (h : body.Reads env test R) (hne : ∀ ts a us, R ts a us → a.1.1 ≠ .attributeArguments) :
    (Grammar.nodeBy body).Reads env test fun ts b us => ∃ kind, R ts (kind, b) us := by
  intro s b t hs hr
  change (Parser.mark _).run env s = _ at hr
  rw [run_mark] at hr
  split at hr
  · cases hr
  · rename_i hbody
    obtain ⟨⟨kind, b'⟩, v, hbody, hpure⟩ := exists_run_of_bind hbody
    cases hpure
    cases hr
    exact (h s.enter.2 _ _ hs hbody).nodeBy fun ts us hR => hne ts _ us hR

/-- A node around the newest tree is whole just if this tree and the other parts are. -/
theorem enclose {kind : Kind} {hk : kind.isConstruct} {body : Parser α} (h : body.Reads env test R)
    (hne : kind ≠ .attributeArguments := by decide) :
    (Grammar.enclose kind body hk).Reads env test R := by
  intro s a t hs hr
  change (Parser.enclose ⟨kind, hk⟩ body).run env s = _ at hr
  rw [run_enclose] at hr
  split at hr
  · cases hr
  · rename_i hbody
    cases hr
    exact (h s.precede.2 _ _ hs hbody).enclose hk hne

/-! ### Calls and loops -/

/-- A goal whose answer does not matter. -/
theorem visit {g : Goal}
    (h : ∀ s a t, env.call g s = some (a, t) → s.Reads (fun ts b us => b = false ∧ Q ts us) a t) :
    (Grammar.visit g).Reads env test fun ts _ us => Q ts us := by
  have hcall : (Grammar.call g).Reads env test fun ts b us => b = false ∧ Q ts us :=
    fun s a t _ hr => h s a t hr
  refine (hcall.seq fun _ => pure ()).congr fun ts _ us _ => ?_
  constructor
  · rintro ⟨_, _, ⟨-, hus⟩, -, rfl⟩
    exact hus
  · exact fun hus => ⟨_, _, ⟨rfl, hus⟩, rfl, rfl⟩

/-- A loop reads what its rounds do, one behind the other. -/
theorem repeatWhile {body : Parser Bool} {R : Ahead → Bool → Ahead → Prop}
    (h : body.Reads env (fun _ => True) R)
    (hQ : ∀ ts vs, Q ts vs ↔ R ts false vs ∨ ∃ us, R ts true us ∧ Q us vs) :
    (Grammar.repeatWhile body).Reads env test fun ts _ us => Q ts us := by
  suffices hiterate : ∀ n s a t, iterate (Parser.run env
      (do return if ← body then none else some ())) n s = some (a, t) →
        s.Reads (fun ts _ us => Q ts us) a t from
    fun s a t _ hr => hiterate env.rounds s a t hr
  intro n
  induction n with
  | zero =>
    intro s a t hr
    cases hr
  | succ n ih =>
    intro s a u hr
    rw [iterate] at hr
    split at hr
    · cases hr
    · rename_i hround
      cases hr
      obtain ⟨_ | _, t, hbody, hpure⟩ := exists_run_of_bind hround
      · cases hpure
        exact (h s _ _ trivial hbody).stop hQ
      · cases hpure
    · rename_i hround
      obtain ⟨_ | _, t, hbody, hpure⟩ := exists_run_of_bind hround
      · cases hpure
      · cases hpure
        exact (h s _ _ trivial hbody).again hQ (ih _ a u hr)

/-- A loop that looks ahead reads what its body reads, as often as the test says so. -/
theorem whileAhead {f : Ahead → Bool} {p : Parser Unit}
    (h : p.Reads env (fun ts => f ts = true) fun ts _ us => Q ts us) :
    (Grammar.whileAhead f p).Reads env test fun ts _ us => WhileAhead f Q ts us := by
  refine repeatWhile (R := fun ts b us => f ts = b ∧ if b then Q ts us else us = ts)
    (branch ?_ ?_) fun ts vs => ⟨?_, ?_⟩
  · refine ((h.weaken fun _ hts => hts.2).andThen (pure true)).congr fun ts b us hts => ?_
    constructor
    · rintro ⟨ws, hws, rfl, rfl⟩
      exact ⟨hts.2, hws⟩
    · rintro ⟨hb, hus⟩
      obtain rfl : b = true := hb.symm.trans hts.2
      exact ⟨us, hus, rfl, rfl⟩
  · refine (pure false).congr fun ts b us hts => ?_
    constructor
    · rintro ⟨rfl, rfl⟩
      exact ⟨hts.2, rfl⟩
    · rintro ⟨hb, hus⟩
      obtain rfl : b = false := hb.symm.trans hts.2
      exact ⟨rfl, hus⟩
  · rintro (⟨hno⟩ | ⟨hyes, hus, hvs⟩)
    · exact .inl ⟨hno, rfl⟩
    · exact .inr ⟨_, ⟨hyes, hus⟩, hvs⟩
  · rintro (⟨hno, rfl⟩ | ⟨us, ⟨hyes, hus⟩, hvs⟩)
    · exact .no hno
    · exact .yes hyes hus hvs

/-- A loop over tokens that are passed one way. -/
theorem repeatStep {f : Ahead → Bool} {g : Ahead → Ahead} {body : Parser Bool}
    (h : body.Reads env (fun _ => True) fun ts b us => b = f ts ∧ us = if b then g ts else ts) :
    (Grammar.repeatWhile body).Reads env test fun ts _ us => WhileAhead f
    (fun ts us => us = g ts) ts us := by
  refine repeatWhile h fun ts vs => ⟨?_, ?_⟩
  · rintro (⟨hno⟩ | ⟨hyes, rfl, hvs⟩)
    · exact .inl ⟨hno.symm, rfl⟩
    · exact .inr ⟨_, ⟨hyes.symm, rfl⟩, hvs⟩
  · rintro (⟨hno, rfl⟩ | ⟨us, ⟨hyes, rfl⟩, hvs⟩)
    · exact .no hno.symm
    · exact .yes hyes.symm rfl hvs

/-- A list with commas reads an element, and a further one behind each comma unless the list ends
there. -/
theorem commaList {kind : Kind} {hk : kind.isConstruct} {ends : Ahead → Bool} {body : Parser Unit}
    (h : body.Reads env (fun _ => True) fun ts _ us => Q ts us)
    (hne : kind ≠ .attributeArguments := by decide) :
    (Grammar.commaList kind ends body hk).Reads env test fun ts _ us => CommaList ends Q ts us := by
  refine repeatWhile (R := fun ts b us => ∃ ws, Q ts ws ∧ us = ws.past .comma ∧
    b = (ws.isAt .comma && !ends us)) ?_ fun ts vs => ⟨?_, ?_⟩
  · refine ((node (h.andThen eat) hne).seq (S := fun comma ts b us => b = (comma && !ends ts) ∧
      us = ts)
      fun comma => ?_).congr fun ts b us _ => ?_
    · exact look (S := fun ended ts b us => b = (comma && !ended) ∧ us = ts) fun ended => pure _
    · constructor
      · rintro ⟨_, _, ⟨ws, hws, rfl, rfl⟩, rfl, rfl⟩
        exact ⟨ws, hws, rfl, rfl⟩
      · rintro ⟨ws, hws, rfl, rfl⟩
        exact ⟨_, _, ⟨ws, hws, rfl, rfl⟩, rfl, rfl⟩
  · rintro (⟨hus, hends⟩ | ⟨hus, hends, hvs⟩)
    · exact .inl ⟨_, hus, rfl, hends.symm⟩
    · exact .inr ⟨_, ⟨_, hus, rfl, hends.symm⟩, hvs⟩
  · rintro (⟨ws, hws, rfl, hends⟩ | ⟨us, ⟨ws, hws, rfl, hends⟩, hvs⟩)
    · exact .last hws hends.symm
    · exact .more hws hends.symm hvs


end Parser.Reads

end SwiftTree.Grammar
