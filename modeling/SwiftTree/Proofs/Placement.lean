import SwiftTree.Proofs.Exposure
import SwiftTree.Proofs.Standing

/-!
# Where nodes are put

What rules see when they put a node somewhere, as a demand on the nodes of trees (`Placed`): headers
of statements and conditions of directives heed the mode that they are read in, a brace behind a
header opens its body, unexpected text does not stop inside a string literal, literals stop only
where they cannot go on, and the elements of lists are kept apart by commas (`Listed`).

`Parser.Fills` says of a rule that its nodes stand as demanded, together with what is known of the
nodes that it leaves. Most rules make ordinary nodes, of which nothing is demanded; they are `Calm`.
-/

namespace SwiftTree

open Grammar

/-! ## The demand -/

namespace Kind

/-- The mode in which the expressions and patterns of a node are read, if its kind tells it. -/
def partsMode? : Kind → Option Mode
  | .conditionElement | .catchItem | .forStmt | .switchStmt => some .header
  | .ifConfigClause => some { directive := true }
  | _ => .none

/-- What is read in the mode of a header or of a condition. -/
def isHeading (k : Kind) : Bool :=
  k.isExpression || k.isPattern || k == .whereClause || k == .optionalBindingCondition
    || k == .matchingPatternCondition

/-- The statements and clauses with a block behind a header. -/
def hasBody : Kind → Bool
  | .ifStmt | .guardStmt | .whileStmt | .forStmt | .catchClause => true
  | _ => false

/-- The nodes with a brace of their own at the start of a body. -/
def isBraced : Kind → Bool
  | .codeBlock | .switchStmt => true
  | _ => false

/-- The nodes for a part of a list and the comma behind it. -/
def isElement : Kind → Bool
  | .tupleElement | .arrayElement | .dictionaryElement | .labeledArgument | .conditionElement
  | .caseItem | .catchItem | .patternBinding | .genericArgument | .parameter | .closureCapture
  | .closureParam | .tupleTypeElement | .tuplePatternElement => true
  | _ => false

/-- The parts of lists in which there is a value. A parameter need not have a type. -/
def hasValue (k : Kind) : Bool := k.isElement && k != .parameter && k != .closureParam

/-- The nodes that are made of such parts. -/
def hasElements : Kind → Bool
  | .tupleElementList | .arrayElementList | .dictionaryElementList | .argumentList
  | .conditionElementList | .caseItemList | .catchItemList | .patternBindingList
  | .genericArgumentClause | .parameterClause | .closureCaptureClause | .closureParamList
  | .tupleType | .functionType | .tuplePattern => true
  | _ => false

/-- The elements of array and dictionary literals. -/
def isBracketList (k : Kind) : Bool := k == .arrayElementList || k == .dictionaryElementList

/-- The tokens that can go on with a string literal. -/
def isInLiteral : Kind → Bool
  | .stringSegment | .backslash | .leftParen | .rawStringDelimiter | .stringQuote
  | .multilineStringQuote | .singleQuote => true
  | _ => false

/-- The nodes of which nothing is demanded but what is said of their parts. -/
def isMadeOfParts (k : Kind) : Bool :=
  !k.isBraced && k != .unexpected && k != .stringLiteralExpr && k != .expressionSegment
    && !k.isElement && !k.hasElements

/-- The nodes of which nothing is demanded. -/
def isOrdinary (k : Kind) : Bool := k.isMadeOfParts && k.partsMode?.isNone && !k.hasBody

/-- What goes on with a literal is known for what it is. -/
theorem isSteady_of_isInLiteral {k : Kind} (h : k.isInLiteral) : k.isSteady ∧ k ≠ .endOfFile := by
  unfold isInLiteral at h
  split at h
  case h_8 => cases h
  all_goals exact ⟨rfl, by decide⟩

end Kind

/-- Whether no token is seen that goes on with a literal on the same line. -/
def Outlook.LeavesLiterals (next : Outlook) : Prop :=
  next.isOnLine → ∀ k : Kind, k.isInLiteral → next.isAt k = false

namespace Green

/-- Whether a tree starts with a token that is not the opening brace of a body. -/
def startsBeforeBrace (g : Green) : Bool :=
  (sightOf [g] none).any fun seen => seen.kind? != some .leftBrace

/-- Whether the brace of a body is there, or nothing of the body and no brace behind it. -/
def Braced (cs : List Green) (next : Outlook) : Prop :=
  (∃ t : Token.Outline, .leaf (.present t) ∈ cs ∧ t.kind = .leftBrace) ∨
    (next.isAt .leftBrace = false ∧ ∃ (front : List Green) (opener closer : Leaf) (inside : Kind),
      cs = front ++ [.leaf opener, .node inside [], .leaf closer] ∧
        opener.isPresent = false ∧ closer.isPresent = false)

/-- Whether the parts of a literal are where its quotes are: where a quote is missing, the literal
could not start or go on. -/
def Quoted (cs : List Green) (next : Outlook) : Prop :=
  ∃ (front : List Green) (opening : Leaf) (segments : List Green) (closing : Leaf)
      (back : List Green),
    cs = front ++ .leaf opening :: .node .stringSegmentList segments :: .leaf closing :: back ∧
    (opening.isPresent = false → front ≠ [] ∧ ∀ k : Kind, k.isStringQuote →
      (sightOf (.node .stringSegmentList segments :: .leaf closing :: back) next).isAt k = false) ∧
    (∀ t : Token.Outline, closing = .present t → t.leading.containsNewline = false ∧
      ∀ l : Leaf, .leaf l ∈ back → l.isPresent = false →
        next.isAt .rawStringDelimiter = false) ∧
    (closing.isPresent = false → next.isAt .stringSegment = false ∧ (next.isOnLine →
      next.isAt .backslash = false ∧ next.isAt closing.kind = false))

/-- Whether an interpolation starts on the line of its literal, and with its parenthesis if there is
one. -/
def Interpolated (cs : List Green) (next : Outlook) : Prop :=
  ∃ (backslash : Token.Outline) (paren : Leaf) (rest : List Green),
    cs = .leaf (.present backslash) :: .leaf paren :: rest ∧
    backslash.leading.containsNewline = false ∧
    (paren.isPresent = false → (sightOf rest next).isAt .leftParen = false)

/-- Whether a tree is a part of a list. -/
def isElement : Green → Bool := isAmong Kind.isElement Kind.never

/-- Whether a tree is a comma that was read. -/
def isComma : Green → Bool
  | .leaf (.present t) => t.kind == .comma
  | _ => false

/-- Whether a node ends with a comma. -/
def endsInComma (g : Green) : Bool := g.children.getLast?.any isComma

/-- Whether a part of a list ends with a comma if another one follows. -/
def Apart (cs : List Green) : Prop :=
  cs.Pairwise fun c d => c.isElement → d.isElement → c.endsInComma

/-- Whether something was written besides a comma, or a placeholder stands for it. -/
def isFilled (cs : List Green) : Bool :=
  cs.any fun c => c.isPlaceholder || c.hasPresent && !c.isComma

/-- Whether a colon behind the first expression tells what a bracket literal is. -/
def Told (dictionary : Bool) (cs : List Green) (next : Outlook) : Prop :=
  ∀ first rest, cs = first :: rest → ∃ key front, first.children = key :: front ∧
    (sightOf (front ++ rest) next).isAt .colon = dictionary

/-- What is known of lists and of their parts. -/
structure Listed (kind : Kind) (cs : List Green) (next : Outlook) : Prop where
  apart : kind.hasElements → Apart cs
  filled : kind.hasValue → isFilled cs
  told : kind.isBracketList → Told (kind == .dictionaryElementList) cs next

/-- What is known of a node where it stands. -/
structure Placed (kind : Kind) (cs : List Green) (next : Outlook) : Prop where
  /-- headers and conditions heed their modes -/
  heeds : ∀ mode ∈ kind.partsMode?, ∀ c ∈ cs, c.kind.isHeading → c.Heeds mode
  /-- what is skipped before the brace of a body does not start with it -/
  skipped : kind.hasBody → ∀ ds, .node .unexpected ds ∈ cs →
    (Green.node .unexpected ds).startsBeforeBrace
  braced : kind.isBraced → Braced cs next
  /-- unexpected text does not stop inside of a string literal -/
  unexpected : kind = .unexpected → next.LeavesLiterals
  quoted : kind = .stringLiteralExpr → Quoted cs next
  interpolated : kind = .expressionSegment → Interpolated cs next
  listed : Listed kind cs next

/-- Of a node that is no list and no part of one, nothing is demanded as such. -/
theorem listed_of_not {kind : Kind} (helement : kind.isElement = false)
    (hlist : kind.hasElements = false) (cs : List Green) (next : Outlook) :
    Listed kind cs next := by
  refine ⟨fun hk => ?_, fun hk => ?_, fun hk => ?_⟩
  · exact absurd hk (Bool.eq_false_iff.mp hlist)
  · rw [Kind.hasValue, helement] at hk
    cases hk
  · rw [Kind.isBracketList, Bool.or_eq_true, beq_iff_eq, beq_iff_eq] at hk
    rcases hk with rfl | rfl <;> cases hlist

/-- A node with parts as they should be. -/
theorem placed_of_parts {kind : Kind} {cs : List Green} {next : Outlook} (h : kind.isMadeOfParts)
    (heeds : ∀ mode ∈ kind.partsMode?, ∀ c ∈ cs, c.kind.isHeading → c.Heeds mode)
    (skipped : kind.hasBody → ∀ ds, .node .unexpected ds ∈ cs →
      (node .unexpected ds).startsBeforeBrace) : Placed kind cs next := by
  simp only [Kind.isMadeOfParts, Bool.and_eq_true, Bool.not_eq_true', bne_iff_ne] at h
  obtain ⟨⟨⟨⟨⟨hbraced, hunexpected⟩, hliteral⟩, hsegment⟩, helement⟩, hlist⟩ := h
  refine ⟨heeds, skipped, fun hk => ?_, fun hk => absurd hk hunexpected,
    fun hk => absurd hk hliteral, fun hk => absurd hk hsegment,
    listed_of_not helement hlist cs next⟩
  exact absurd hk (Bool.eq_false_iff.mp hbraced)

/-- A part of a list, of which else only the mode is demanded. -/
theorem placed_of_isElement {kind : Kind} {cs : List Green} {next : Outlook} (h : kind.isElement)
    (heeds : ∀ mode ∈ kind.partsMode?, ∀ c ∈ cs, c.kind.isHeading → c.Heeds mode)
    (filled : kind.hasValue → isFilled cs) : Placed kind cs next := by
  unfold Kind.isElement at h
  split at h
  case h_15 => cases h
  all_goals exact ⟨heeds, nofun, nofun, nofun, nofun, nofun, nofun, filled, nofun⟩

/-- Of a list it is only demanded how its parts stand in it. -/
theorem placed_of_hasElements {kind : Kind} {cs : List Green} {next : Outlook}
    (h : kind.hasElements) (apart : Apart cs)
    (told : kind.isBracketList → Told (kind == .dictionaryElementList) cs next) :
    Placed kind cs next := by
  unfold Kind.hasElements at h
  split at h
  case h_16 => cases h
  all_goals exact ⟨nofun, nofun, nofun, nofun, nofun, nofun, fun _ => apart, nofun, told⟩

/-- Nothing is demanded of ordinary nodes. -/
theorem placed_of_isOrdinary {kind : Kind} (h : kind.isOrdinary) (cs : List Green)
    (next : Outlook) :
    Placed kind cs next := by
  simp only [Kind.isOrdinary, Bool.and_eq_true, Option.isNone_iff_eq_none, Bool.not_eq_true'] at h
  refine placed_of_parts h.1.1 (fun mode hm => ?_) fun hk => ?_
  · rw [h.1.2] at hm
    cases hm
  · exact absurd hk (Bool.eq_false_iff.mp h.2)

end Green

open Green (Placed)

namespace Grammar

/-- What the tree of a goal promises: that it heeds the mode that it is read in. -/
def Goal.Promises : Goal → Green → Prop
  | sequence mode _, g | unary mode _, g | operand mode, g | casePattern mode, g => g.Heeds mode
  | pattern, g => ∀ mode, g.Heeds mode
  | _, _ => True

/-- The demand that nodes are where rules put them. -/
def placing : Demand := ⟨Placed, Goal.Promises⟩

/-- A token that cannot go on with a literal is seen not to. -/
theorem Ahead.leavesLiterals_of_kind {ts : Ahead} (h : ts.kind.isInLiteral = false) :
    ts.sight.LeavesLiterals := by
  intro _ k hk
  obtain ⟨hsteady, hend⟩ := Kind.isSteady_of_isInLiteral hk
  rw [isAt_sight hsteady hend, isAt]
  refine beq_false_of_ne ?_
  rintro rfl
  exact Bool.false_ne_true (h.symm.trans hk)

/-! ## Rules whose nodes stand as demanded -/

namespace Parser

/-- Whether all nodes among some trees have a property. -/
def Holding (holds : Green → Prop) (gs : List Green) : Prop :=
  ∀ kind cs, .node kind cs ∈ gs → holds (.node kind cs)

theorem Holding.any (gs : List Green) : Holding (fun _ => True) gs := fun _ _ _ => trivial

theorem Holding.nil {holds : Green → Prop} : Holding holds [] := fun _ _ h => nomatch h

theorem Holding.leaf {holds : Green → Prop} {l : Green.Leaf} {gs : List Green}
    (h : Holding holds gs) :
    Holding holds (.leaf l :: gs) :=
  fun kind cs hmem => (List.mem_cons.mp hmem).elim nofun (h kind cs)

/-- Nodes among trees have a property if the first tree does, in front of others that do. -/
theorem Holding.node {holds : Green → Prop} {kind : Kind} {cs gs : List Green}
    (hnode : holds (.node kind cs)) (h : Holding holds gs) :
    Holding holds (.node kind cs :: gs) := by
  intro k ds hmem
  rcases List.mem_cons.mp hmem with heq | hmem
  · rwa [heq]
  · exact h k ds hmem

/-- A property of all nodes is one of the nodes among trees of any kinds if leaves have it
anyway. -/
theorem Holding.forall_mem {holds : Green → Prop} {gs : List Green} (h : Holding holds gs)
    (hleaf : ∀ l : Green.Leaf, holds (.leaf l)) : ∀ g ∈ gs, holds g := by
  intro g hg
  cases g with
  | node kind cs => exact h kind cs hg
  | leaf l => exact hleaf l

/-- From tokens that pass the test, the nodes of a rule stand as demanded. The nodes that it leaves
have a property if those before have it, and its answer is as given. -/
def Fills {α : Type} (test : Ahead → Prop) (holds : Green → Prop) (given : α → Prop)
    (p : Parser α) : Prop :=
  ∀ s : State Forest, test s.ahead → Holding holds s.built →
    p.meets placing s fun a t => given a ∧ Holding holds t.built

/-- The nodes of a rule stand as demanded, from tokens that pass the test. -/
abbrev Calm {α : Type} (test : Ahead → Prop) (p : Parser α) : Prop :=
  p.Fills test (fun _ => True) fun _ => True

variable {α β : Type} {test : Ahead → Prop} {holds : Green → Prop}

namespace Fills

theorem mono {test' : Ahead → Prop} {given given' : α → Prop} {p : Parser α}
    (h : p.Fills test holds given) (ht : ∀ ts, test' ts → test ts) (hg : ∀ a, given a → given' a) :
    p.Fills test' holds given' :=
  fun s hs hbuilt => meets_mono (h s (ht _ hs) hbuilt) fun a _ hpost => ⟨hg a hpost.1, hpost.2⟩

theorem pure {given : α → Prop} {a : α} (h : given a) :
    (Pure.pure a : Parser α).Fills test holds given := fun _ _ hbuilt => ⟨h, hbuilt⟩

/-- Two rules one after the other leave nodes as demanded if each of them does. -/
theorem seq {first : Parser α} {next : α → Parser β} {given : β → Prop}
    (h : first.Fills test holds fun _ => True)
    (hnext : ∀ a, (next a).Fills (fun _ => True) holds given) :
    (first >>= next).Fills test holds given := by
  intro s hs hbuilt
  rw [meets_bind]
  exact meets_mono (h s hs hbuilt) fun a t ht => hnext a t trivial ht.2

/-- An answer that is known of what was answered before. -/
theorem returns {first : Parser α} {f : α → β} {given : α → Prop} {given' : β → Prop}
    (h : first.Fills test holds given) (hf : ∀ a, given a → given' (f a)) :
    (first >>= fun a => Pure.pure (f a)).Fills test holds given' := by
  intro s hs hbuilt
  rw [meets_bind]
  exact meets_mono (h s hs hbuilt) fun a t ht => ⟨hf a ht.1, ht.2⟩

theorem look {f : Ahead → β} {next : β → Parser α} {given : α → Prop}
    (h : ∀ b, (next b).Fills (fun ts => test ts ∧ f ts = b) holds given) :
    (Grammar.look f >>= next).Fills test holds given :=
  fun s hs hbuilt _ => h (f s.ahead) s ⟨hs, rfl⟩ hbuilt

theorem override {start : Nat} {diagnostic : Nat → Diagnostic} :
    (Grammar.override start diagnostic).Fills test holds fun _ => True := fun _ _ h => ⟨trivial, h⟩

/-- A choice that was made before leaves nodes as demanded if both rules do. -/
theorem ite {x : Bool} {p q : Parser α} {given : α → Prop} (hp : p.Fills test holds given)
    (hq : q.Fills test holds given) : (if x then p else q).Fills test holds given := by
  cases x
  · exact hq
  · exact hp

/-- Each branch may use what was seen ahead. -/
theorem branch {f : Ahead → Bool} {p q : Parser α} {given : α → Prop}
    (hp : p.Fills (fun ts => test ts ∧ f ts = true) holds given)
    (hq : q.Fills (fun ts => test ts ∧ f ts = false) holds given) :
    (Grammar.look f >>= fun x => if x then p else q).Fills test holds given := by
  refine look ?_
  rintro (_ | _)
  · exact hq
  · exact hp

/-- What a rule adds to a state. -/
theorem adds {p : Parser α} {given : α → Ahead → List Green → Prop} (h : p.Calm test)
    (h' : p.Adds test given) {s : State Forest} (hs : test s.ahead) :
    p.meets placing s fun a t =>
      ∃ gs, t.built = gs.reverse ++ s.built ∧ Green.StrictAll gs ∧ given a t.ahead gs :=
  meets_mono (meets_and_yields (h s hs (.any _)) (h' s.ahead s.built hs)) fun _ _ ht => ht.2

/-- What is known of the trees that a rule adds. -/
theorem of_makes {p : Parser α} {a : Shape} (h : p.Calm test) (h' : p.Makes test a)
    (hall : ∀ gs, Green.StrictAll gs → a.Matches gs → Holding holds gs) :
    p.Fills test holds fun _ => True := by
  intro s hs hbuilt
  refine meets_mono (adds h h' hs) fun x t ⟨gs, hgs, hstrict, hshape⟩ => ⟨trivial, ?_⟩
  rw [hgs]
  intro kind cs hmem
  rcases List.mem_append.mp hmem with hmem | hmem
  · exact hall gs hstrict hshape kind cs (List.mem_reverse.mp hmem)
  · exact hbuilt kind cs hmem

/-- What is known of the node that a rule adds. -/
theorem of_node {p : Parser α} {kinds : Kind → Bool} (h : p.Calm test)
    (h' : p.Makes test (.node kinds))
    (hall : ∀ g : Green, g.Strict → kinds g.kind → holds g) : p.Fills test holds fun _ => True := by
  refine of_makes h h' fun gs hstrict hgs kind cs hmem => ?_
  obtain ⟨k, ds, rfl, hk⟩ := hgs.exists_node
  rw [List.mem_singleton.mp hmem]
  exact hall _ hstrict.1 hk

/-! ### Steps -/

/-- Taking a token adds no node. -/
theorem take {kind : Option SolidKind} : (Parser.take kind).Fills test holds fun _ => True := by
  intro s _ hbuilt
  refine ⟨trivial, ?_⟩
  obtain ⟨_ | ⟨x, ts⟩, built⟩ := s
  · exact hbuilt
  · exact .leaf hbuilt

theorem advance : Grammar.advance.Fills test holds fun _ => True := take

theorem advanceAs {k : Kind} {hk : k.isSolid} :
    (Grammar.advanceAs k hk).Fills test holds fun _ => True := take

/-- Taking several tokens adds no nodes. -/
theorem advanceBy (n : Nat) : (Grammar.advanceBy n).Fills test holds fun _ => True := by
  induction n generalizing test with
  | zero => exact pure trivial
  | succ n ih => exact seq advance fun _ => ih

theorem splitHead {head : Kind} {rest : Option SolidKind} {hk : head.isSolid} :
    (Grammar.splitHead head rest hk).Fills test holds fun _ => True :=
  fun _ _ hbuilt => ⟨trivial, hbuilt⟩

theorem missingSpelled {k : Kind} {spelling : Text} {hk : k.isSolid} :
    (Grammar.missingSpelled k spelling hk).Fills test holds fun _ => True :=
  fun _ _ hbuilt => ⟨trivial, .leaf hbuilt⟩

theorem missing {k : Kind} {hk : k.isSolid} :
    (Grammar.missing k hk).Fills test holds fun _ => True := missingSpelled

theorem eat {k : Kind} : (Grammar.eat k).Fills test holds fun _ => True :=
  branch (seq advance fun _ => pure trivial) (pure trivial)

theorem eatWord {k : Kind} {hk : k.isSolid} :
    (Grammar.eatWord k hk).Fills test holds fun _ => True :=
  branch (seq advanceAs fun _ => pure trivial) (pure trivial)

theorem expect {k : Kind} {hk : k.isSolid} :
    (Grammar.expect k hk).Fills test holds fun _ => True :=
  seq eat fun _ => ite (pure trivial) (seq missing fun _ => pure trivial)

theorem require {k : Kind} {hk : k.isSolid} :
    (Grammar.require k hk).Fills test holds fun _ => True := seq expect fun _ => pure trivial

theorem ifAhead {f : Ahead → Bool} {p : Parser Unit}
    (h : p.Fills (fun ts => test ts ∧ f ts = true) holds fun _ => True) :
    (Grammar.ifAhead f p).Fills test holds fun _ => True := branch h (pure trivial)

theorem skip {k : Kind} : (Grammar.skip k).Fills test holds fun _ => True := ifAhead advance

theorem onlyIf {x : Bool} {p : Parser Unit} (h : p.Fills test holds fun _ => True) :
    (Grammar.onlyIf x p).Fills test holds fun _ => True := ite h (pure trivial)

/-! ### Nodes -/

/-- A node of a kind that is known of its parts, and of which this also says what is demanded. -/
theorem nodeAs {kind : Kind} {p : Parser α} {hk : kind.isConstruct} {parts : Green → Prop}
    {given : α → Prop} (h : p.Fills test parts given)
    (hplaced : ∀ cs next, Holding parts cs → Placed kind cs next)
    (hholds : ∀ cs, Holding parts cs → holds (.node kind cs)) :
    (Grammar.node kind p hk).Fills test holds given := by
  intro s hs hbuilt
  refine meets_node (meets_mono (h s.enter.2 hs .nil) fun a t ht _ => ?_)
  have hparts : Holding parts t.built.reverse :=
    fun k cs hmem => ht.2 k cs (List.mem_reverse.mp hmem)
  exact ⟨hplaced _ _ hparts, ht.1, .node (hholds _ hparts) hbuilt⟩

/-- A goal adds a tree of its shape that is as promised. -/
theorem callAs {goal : Goal} (h : ∀ g : Green, goal.shape.Matches [g] → goal.Promises g → holds g) :
    (Grammar.call goal).Fills test holds fun _ => True :=
  fun _ _ hbuilt _ _ g hgives hgoal _ => ⟨trivial, fun k cs hmem => by
    rcases List.mem_cons.mp hmem with rfl | hmem
    · exact h _ hgives.shape hgoal
    · exact hbuilt k cs hmem⟩

theorem visitAs {goal : Goal}
    (h : ∀ g : Green, goal.shape.Matches [g] → goal.Promises g → holds g) :
    (Grammar.visit goal).Fills test holds fun _ => True := seq (callAs h) fun _ => pure trivial

/-! ### Loops -/

/-- A loop leaves nodes as demanded if its body does. -/
theorem repeatWhile {p : Parser Bool} (h : p.Fills (fun _ => True) holds fun _ => True) :
    (Grammar.repeatWhile p).Fills test holds fun _ => True := by
  intro s _ hbuilt
  refine meets_repeatWhile (fun t => Holding holds t.built) hbuilt fun t ht => ?_
  refine meets_mono (h t trivial ht) fun again u hu => ?_
  cases again with
  | true => exact hu.2
  | false => exact ⟨trivial, hu.2⟩

theorem whileAhead {f : Ahead → Bool} {p : Parser Unit}
    (h : p.Fills (fun ts => f ts = true) holds fun _ => True) :
    (Grammar.whileAhead f p).Fills test holds fun _ => True :=
  repeatWhile (branch (seq (h.mono (fun _ hts => hts.2) fun _ ha => ha) fun _ => pure trivial)
    (pure trivial))

/-! ### Ordinary nodes -/

/-- An ordinary node. -/
theorem node {kind : Kind} {p : Parser α} {hk : kind.isConstruct} (hordinary : kind.isOrdinary)
    (h : p.Calm test) : (Grammar.node kind p hk).Calm test :=
  nodeAs h (fun cs next _ => Green.placed_of_isOrdinary hordinary cs next) fun _ _ => trivial

/-- A node of a kind that the rule inside answers. -/
theorem nodeBy {p : Parser (Construct × α)}
    (h : p.Fills test (fun _ => True) fun a => a.1.1.isOrdinary) :
    (Grammar.nodeBy p).Calm test := by
  intro s hs _
  refine meets_nodeBy (meets_mono (h s.enter.2 hs (.any _)) fun a t ht _ => ?_)
  exact ⟨Green.placed_of_isOrdinary ht.1 _ _, trivial, .any _⟩

/-- An ordinary node that may be given up. -/
theorem nodeIf {kind : Kind} {p : Parser Bool} {hk : kind.isConstruct}
    (hordinary : kind.isOrdinary) (h : p.Calm test) : (Grammar.nodeIf kind p hk).Calm test := by
  intro s hs _
  refine meets_nodeIf (meets_mono (h s.enter.2 hs (.any _)) fun found t _ _ => ?_)
  exact ⟨fun _ => Green.placed_of_isOrdinary hordinary _ _, fun _ => ⟨trivial, .any _⟩⟩

/-- An ordinary node around the newest tree. -/
theorem enclose {kind : Kind} {p : Parser α} {hk : kind.isConstruct}
    (hordinary : kind.isOrdinary) (h : p.Calm test) : (Grammar.enclose kind p hk).Calm test := by
  intro s hs _
  have hbody := meets_mono (h s.precede.2 hs (.any _)) fun a t _ (_ : s.Around t) =>
    And.intro (Green.placed_of_isOrdinary hordinary
      ((s.precede.1 : List Green × Forest).1 ++ t.built.reverse) t.ahead.sight)
      (And.intro trivial (Holding.any (t.leave s.precede.1 (some kind)).built))
  exact hbody

/-- A placeholder is an ordinary node without parts. -/
theorem placeholder {k : Kind} {hk : k.isMissingNode} : (Grammar.placeholder k hk).Calm test := by
  have hordinary : k.isOrdinary := by
    unfold Kind.isMissingNode at hk
    split at hk
    case h_4 => cases hk
    all_goals rfl
  exact fun s _ _ => ⟨Green.placed_of_isOrdinary hordinary _ _, trivial, .any _⟩

theorem visit {goal : Goal} : (Grammar.visit goal).Calm test := visitAs fun _ _ _ => trivial

end Fills

end Parser

end Grammar

end SwiftTree
