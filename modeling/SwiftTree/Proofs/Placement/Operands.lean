import SwiftTree.Proofs.Placement.Literals

/-!
# Operands heed their modes

A rule that is given a mode adds a node that heeds it (`Parser.AddsNode`), and what is attached
behind an operand leaves it so (`Parser.WrapsNode`). A closure is attached only where the mode
allows it, and the token that starts a suffix is seen on the line of the operand where the mode asks
for that.
-/

namespace SwiftTree

-- what holds of all kinds is computed kind by kind
set_option maxRecDepth 1000

open Grammar

open Green (Placed sightOf)

namespace Green

variable {mode : Mode} {kind : Kind} {g : Green} {gs : List Green} {next : Outlook}

/-- Whether the nodes of several trees outside of brackets, of which some are open, are as a mode
wants them. -/
def HeedAll (mode : Mode) (depth : Nat) (gs : List Green) : Prop :=
  ∀ e ∈ exposedFrom depth gs, (mode.noTrailingClosure → e.takesClosure = false) ∧
    (mode.directive → e.breaksLine = false)

/-- Nodes that heed a mode heed it outside of brackets, however many are open. -/
theorem heedAll_of_forall (h : ∀ g ∈ gs, g.Heeds mode) (depth : Nat) : HeedAll mode depth gs := by
  intro e he
  obtain ⟨g, hg, he⟩ := mem_of_mem_exposedFrom he
  exact ⟨fun hmode => (h g hg).closures hmode e he, fun hmode => (h g hg).lines hmode e he⟩

/-- What stands between brackets does not count. -/
theorem heedAll_brackets {opener closer : Leaf} {inside : Kind} {cs rest : List Green}
    (hopener : Ahead.depthAfter 0 opener.kind = 1) (hcloser : Ahead.depthAfter 1 closer.kind = 0)
    (h : HeedAll mode 0 rest) :
    HeedAll mode 0 (.leaf opener :: .node inside cs :: .leaf closer :: rest) := by
  intro e he
  simp only [exposedFrom, depthBehind, hopener, hcloser, exposed] at he
  exact h e he

/-- What starts on the line of what is before it does not start with a line break. -/
theorem not_opensLine_of_isOnLine (h : (sightOf gs next).isOnLine) :
    ((tokensOf gs).head?.any fun t => t.leading.containsNewline) = false := by
  rw [sightOf] at h
  cases htokens : tokensOf gs with
  | nil => rfl
  | cons t ts =>
    rw [htokens, Token.sightOf] at h
    by_cases hend : t.kind = .endOfFile
    · rw [Token.Outline.sight, if_pos hend] at h
      cases h
    · rwa [Token.Outline.isOnLine_sight hend, Bool.not_eq_true'] at h

/-- A node that joins something to an operand heeds a mode if what it joins does. -/
theorem Heeds.join {k : Kind} {cs : List Green} {seen : Outlook} (hg : (Green.node k cs).Heeds mode)
    (hgs : HeedAll mode 0 gs)
    (hclosures : mode.noTrailingClosure → (Green.node kind (.node k cs :: gs)).takesClosure = false)
    (hsight : sightOf gs next = seen) (hline : mode.directive → seen.isOnLine) :
    (Green.node kind (.node k cs :: gs)).Heeds mode := by
  subst hsight
  have hparts {e : Green} (he : e ∈ exposedFrom 0 (.node k cs :: gs)) :
      e ∈ (Green.node k cs).exposed ∨ e ∈ exposedFrom 0 gs := by
    rw [exposedFrom, List.mem_append] at he
    exact he
  refine ⟨fun hmode e he => ?_, fun hmode e he => ?_⟩
  · rcases mem_exposed_node he with rfl | ⟨-, he⟩
    · exact hclosures hmode
    · exact (hparts he).elim (hg.closures hmode e) fun he => (hgs e he).1 hmode
  · rcases mem_exposed_node he with rfl | ⟨-, he⟩
    · rw [breaksLine, not_opensLine_of_isOnLine (hline hmode), Bool.and_false]
    · exact (hparts he).elim (hg.lines hmode e) fun he => (hgs e he).2 hmode

/-- A node that is no call heeds a mode if all that it joins does. -/
theorem Heeds.joinAll {k : Kind} {cs : List Green} {seen : Outlook} (hcall : kind.isCall = false)
    (hg : (Green.node k cs).Heeds mode) (hgs : ∀ g ∈ gs, g.Heeds mode)
    (hsight : sightOf gs next = seen) (hline : mode.directive → seen.isOnLine) :
    (Green.node kind (.node k cs :: gs)).Heeds mode :=
  hg.join (heedAll_of_forall hgs 0) (fun _ => takesClosure_of_not_isCall hcall) hsight hline

end Green

namespace Grammar.Parser

/-! ## Rules that add a node, or wrap one -/

variable {α β : Type} {test : Ahead → Prop} {holds : Green → Prop}

/-- From tokens that pass the test, the rule adds a node with a property. -/
def AddsNode (test : Ahead → Prop) (holds : Green → Prop) (p : Parser α) : Prop :=
  ∀ ts built, test ts → p.meets placing ⟨ts, built⟩ fun _ t =>
    ∃ kind cs, t.built = .node kind cs :: built ∧ holds (.node kind cs)

/-- From tokens that pass the test, the rule makes a node with a property of the newest tree, a node
that has it. -/
def WrapsNode (test : Ahead → Prop) (holds : Green → Prop) (p : Parser α) : Prop :=
  ∀ ts kind cs built, test ts → holds (.node kind cs) →
    p.meets placing ⟨ts, .node kind cs :: built⟩ fun _ t =>
      ∃ k ds, t.built = .node k ds :: built ∧ holds (.node k ds)

namespace AddsNode

/-- What is known of the node may be weakened. -/
theorem mono {holds' : Green → Prop} {p : Parser α} (h : p.AddsNode test holds)
    (hholds : ∀ g, holds g → holds' g) : p.AddsNode test holds' := by
  intro ts built hts
  refine meets_mono (h ts built hts) ?_
  rintro _ t ⟨kind, cs, hbuilt, hnode⟩
  exact ⟨kind, cs, hbuilt, hholds _ hnode⟩

/-- Where the shape of what is added is one node, it is enough that all nodes of these kinds have
the property. -/
theorem of_makes {p : Parser α} {kinds : Kind → Bool} (h : p.Calm test)
    (h' : p.Makes test (.node kinds)) (hall : ∀ g : Green, g.Strict → kinds g.kind → holds g) :
    p.AddsNode test holds := by
  intro ts built hts
  refine meets_mono (h.adds h' hts) fun _ t ⟨gs, hgs, hstrict, hshape⟩ => ?_
  obtain ⟨kind, cs, rfl, hkind⟩ := hshape.exists_node
  exact ⟨kind, cs, hgs, hall _ hstrict.1 hkind⟩

/-- An ordinary node has a property that follows from what is known of its parts. -/
theorem node {kind : Kind} {p : Parser α} {hk : kind.isConstruct} {parts : Green → Prop}
    (hordinary : kind.isOrdinary) (h : p.Fills test parts fun _ => True)
    (hholds : ∀ cs, Holding parts cs → holds (.node kind cs)) :
    (Grammar.node kind p hk).AddsNode test holds := by
  intro ts built hts
  refine meets_node (meets_mono (h ⟨ts, []⟩ hts .nil) fun a t ht _ => ?_)
  refine ⟨Green.placed_of_isOrdinary hordinary _ _, kind, _, rfl, hholds _ fun k cs hmem => ?_⟩
  exact ht.2 k cs (List.mem_reverse.mp hmem)

/-- A goal that promises a property of its node adds one that has it. -/
theorem call {goal : Goal} {kinds : Kind → Bool} (hshape : goal.shape = .node kinds)
    (h : ∀ g : Green, goal.Promises g → holds g) : (Grammar.call goal).AddsNode test holds := by
  intro ts built _ a us g hgives hgoal _
  have hnode := hgives.shape
  rw [hshape] at hnode
  obtain ⟨kind, cs, hcons, -⟩ := hnode.exists_node
  obtain rfl := (List.cons.inj hcons).1
  exact ⟨kind, cs, rfl, h _ hgoal⟩

theorem thenPure {first : Parser α} {f : α → β} (h : first.AddsNode test holds) :
    (first >>= fun a => Pure.pure (f a)).AddsNode test holds := h

/-- A rule that adds a node with a property leaves nodes with this property. -/
theorem fills {p : Parser α} (h : p.AddsNode test holds) : p.Fills test holds fun _ => True := by
  intro s hs hbuilt
  refine meets_mono (h s.ahead s.built hs) ?_
  rintro _ ⟨_, _⟩ ⟨kind, cs, rfl, hholds⟩
  exact ⟨trivial, .node hholds hbuilt⟩

theorem look {f : Ahead → β} {next : β → Parser α}
    (h : ∀ b, (next b).AddsNode (fun ts => test ts ∧ f ts = b) holds) :
    (Grammar.look f >>= next).AddsNode test holds :=
  fun ts built hts _ => h (f ts) ts built ⟨hts, rfl⟩

theorem branch {f : Ahead → Bool} {p q : Parser α}
    (hp : p.AddsNode (fun ts => test ts ∧ f ts = true) holds)
    (hq : q.AddsNode (fun ts => test ts ∧ f ts = false) holds) :
    (Grammar.look f >>= fun b => if b then p else q).AddsNode test holds :=
  fun ts built hts => meets_branch (fun _ hf => hp ts built ⟨hts, hf⟩)
    fun _ hf => hq ts built ⟨hts, hf⟩

/-- A node with a property is added, and then wrapped in others that have it. -/
theorem wrap {first : Parser α} {next : α → Parser β} (h : first.AddsNode test holds)
    (hnext : ∀ a, (next a).WrapsNode (fun _ => True) holds) :
    (first >>= next).AddsNode test holds := by
  intro ts built hts
  rw [meets_bind]
  refine meets_mono (h ts built hts) ?_
  rintro a ⟨us, _⟩ ⟨kind, cs, rfl, hholds⟩
  exact hnext a us kind cs built trivial hholds

end AddsNode

namespace WrapsNode

theorem pure (a : α) : (Pure.pure a : Parser α).WrapsNode test holds :=
  fun _ kind cs _ _ hholds => ⟨kind, cs, rfl, hholds⟩

/-- Wrapping twice keeps the property. -/
theorem seq {first : Parser α} {next : α → Parser β} (h : first.WrapsNode test holds)
    (hnext : ∀ a, (next a).WrapsNode (fun _ => True) holds) :
    (first >>= next).WrapsNode test holds := by
  intro ts kind cs built hts hholds
  rw [meets_bind]
  refine meets_mono (h ts kind cs built hts hholds) ?_
  rintro a ⟨us, _⟩ ⟨k, ds, rfl, hholds'⟩
  exact hnext a us k ds built trivial hholds'

/-- A look also sees where lines start. -/
theorem look {f : Ahead → β} {next : β → Parser α}
    (h : ∀ b, (next b).WrapsNode (fun ts => (test ts ∧ f ts = b) ∧ ts.Led) holds) :
    (Grammar.look f >>= next).WrapsNode test holds :=
  fun ts kind cs built hts hholds hled => h (f ts) ts kind cs built ⟨⟨hts, rfl⟩, hled⟩ hholds

theorem ifAhead {f : Ahead → Bool} {p : Parser Unit}
    (h : p.WrapsNode (fun ts => test ts ∧ f ts = true) holds) :
    (Grammar.ifAhead f p).WrapsNode test holds :=
  fun ts kind cs built hts hholds => meets_branch (fun _ hf => h ts kind cs built ⟨hts, hf⟩ hholds)
    fun _ _ => ⟨kind, cs, rfl, hholds⟩

/-- A loop that wraps the newest tree keeps the property in every round. -/
theorem repeatUntil {p : Parser (Option α)} (h : p.WrapsNode (fun _ => True) holds) :
    (Grammar.repeatUntil p).WrapsNode test holds := by
  intro ts kind cs built _ hholds
  refine ⟨fun t => ∃ k ds, t.built = .node k ds :: built ∧ holds (.node k ds),
    ⟨kind, cs, rfl, hholds⟩, ?_⟩
  rintro ⟨us, _⟩ ⟨k, ds, rfl, hholds'⟩
  refine meets_mono (h us k ds built trivial hholds') ?_
  rintro (_ | a) t ht
  · exact ht
  · exact ht

theorem repeatWhile {p : Parser Bool} (h : p.WrapsNode (fun _ => True) holds) :
    (Grammar.repeatWhile p).WrapsNode test holds := repeatUntil (h.seq fun _ => .pure _)

/-- A node around the newest one, of which it is known what it starts with and what it adds. -/
theorem enclose {kind : Kind} {p : Parser α} {hk : kind.isConstruct}
    {given : α → Ahead → List Green → Prop} (hordinary : kind.isOrdinary) (h : p.Calm test)
    (h' : p.Adds test given)
    (hholds : ∀ ts a us k ds gs, test ts → holds (.node k ds) → Green.StrictAll gs → given a us gs →
      sightOf gs us.sight = ts.sight → holds (.node kind (.node k ds :: gs))) :
    (Grammar.enclose kind p hk).WrapsNode test holds := by
  intro ts k ds built hts hnode
  refine meets_enclose (meets_mono (h.adds (s := ⟨ts, []⟩) h' hts) ?_)
  rintro a t ⟨gs, hgs, hstrict, hgiven⟩ haround
  have hbuilt : t.built.reverse = gs := by simp [hgs]
  have hsight := haround.sight
  rw [hbuilt] at hsight ⊢
  exact ⟨Green.placed_of_isOrdinary hordinary _ _, kind, _, rfl,
    hholds ts a t.ahead k ds gs hts hnode hstrict hgiven hsight⟩

/-- A node around the newest one, of which it is known what it starts with. -/
theorem encloseAll {kind : Kind} {p : Parser α} {hk : kind.isConstruct}
    (hordinary : kind.isOrdinary) (h : p.Fills test holds fun _ => True)
    (hholds : ∀ (ts us : Ahead) k ds gs, test ts → holds (.node k ds) → Holding holds gs →
      sightOf gs us.sight = ts.sight → holds (.node kind (.node k ds :: gs))) :
    (Grammar.enclose kind p hk).WrapsNode test holds := by
  intro ts k ds built hts hnode
  refine meets_enclose (meets_mono (h ⟨ts, []⟩ hts .nil) fun a t ht haround => ?_)
  refine ⟨Green.placed_of_isOrdinary hordinary _ _, kind, _, rfl, ?_⟩
  refine hholds ts t.ahead k ds _ hts hnode (fun j cs hmem => ?_) haround.sight
  exact ht.2 j cs (List.mem_reverse.mp hmem)

end WrapsNode

end Grammar.Parser

namespace Grammar

open Grammar.Parser

variable {α : Type} {test : Ahead → Prop} {mode mode' : Mode}

/-! ## Nodes with parts that heed a mode -/

namespace Parser

/-- A node that joins nothing heeds a mode if its parts do. -/
theorem Fills.heeding {kind : Kind} {p : Parser α} {hk : kind.isConstruct}
    (hjoined : kind.isJoined = false) (hordinary : kind.isOrdinary)
    (h : p.Fills test (fun g => g.Heeds mode) fun _ => True) :
    (Grammar.node kind p hk).Fills test (fun g => g.Heeds mode) fun _ => True :=
  nodeAs h (fun cs next _ => Green.placed_of_isOrdinary hordinary cs next)
    fun _ hcs => .node hjoined (hcs.forall_mem .leaf)

theorem AddsNode.heeding {kind : Kind} {p : Parser α} {hk : kind.isConstruct}
    (hjoined : kind.isJoined = false) (hordinary : kind.isOrdinary)
    (h : p.Fills test (fun g => g.Heeds mode) fun _ => True) :
    (Grammar.node kind p hk).AddsNode test fun g => g.Heeds mode :=
  node hordinary h fun _ hcs => .node hjoined (hcs.forall_mem .leaf)

/-- Quiet nodes heed every mode. -/
theorem AddsNode.quiet {p : Parser α} {kinds : Kind → Bool} (h : p.Calm test)
    (h' : p.Makes test (.node kinds)) (hquiet : ∀ k, kinds k → k.isQuiet) :
    p.AddsNode test fun g => g.Heeds mode :=
  of_makes h h' fun _ hstrict hkind => Green.heeds_of_isQuiet hstrict (hquiet _ hkind)

theorem AddsNode.quietOne {kind : Kind} {p : Parser α} (hquiet : kind.isQuiet) (h : p.Calm test)
    (h' : p.Makes test (Shape.one kind)) :
    p.AddsNode test fun g => g.Heeds mode :=
  quiet h h' fun _ hk => by rwa [beq_iff_eq.mp hk]

/-- A placeholder heeds every mode: there is nothing in it. -/
theorem AddsNode.placeholder {k : Kind} {hk : k.isMissingNode} :
    (Grammar.placeholder k hk).AddsNode test fun g => g.Heeds mode := by
  have hkind : k.isOrdinary ∧ k.isJoined = false := by
    unfold Kind.isMissingNode at hk
    split at hk
    case h_4 => cases hk
    all_goals exact ⟨rfl, rfl⟩
  exact fun ts built _ => ⟨Green.placed_of_isOrdinary hkind.1 _ _, k, [], rfl,
    .node hkind.2 (List.forall_mem_nil _)⟩

theorem Fills.quiet {p : Parser α} {kinds : Kind → Bool} (h : p.Calm test)
    (h' : p.Makes test (.node kinds)) (hquiet : ∀ k, kinds k → k.isQuiet) :
    p.Fills test (fun g => g.Heeds mode) fun _ => True :=
  of_node h h' fun _ hstrict hkind => Green.heeds_of_isQuiet hstrict (hquiet _ hkind)

theorem Fills.quietOne {kind : Kind} {p : Parser α} (hquiet : kind.isQuiet) (h : p.Calm test)
    (h' : p.Makes test (Shape.one kind)) :
    p.Fills test (fun g => g.Heeds mode) fun _ => True :=
  quiet h h' fun _ hk => by rwa [beq_iff_eq.mp hk]

end Parser

/-! ## Names -/

theorem memberName_calm : memberName.Calm test := .branch .advance .missing

/-- Generic arguments join nothing to a name. -/
theorem specialize_heeds : specialize.WrapsNode test fun g => g.Heeds mode := by
  refine .ifAhead (.enclose rfl genericArgumentClause_calm
    (genericArgumentClause_makes fun ts hts => ?_)
    fun ts _ us k ds gs hts hname hstrict hgs _ => .node rfl ?_)
  · exact Ahead.isOperatorFrom_of_isGenericArguments hts.2
  · obtain ⟨kind, cs, rfl, hkind⟩ := hgs.exists_node
    obtain rfl := beq_iff_eq.mp hkind
    refine List.forall_mem_cons.mpr ⟨hname, List.forall_mem_singleton.mpr ?_⟩
    exact Green.heeds_of_isQuiet hstrict.1 rfl

theorem identifier_heeds : (identifier mode').AddsNode test fun g => g.Heeds mode :=
  .branch (.heeding rfl rfl (.heeding rfl rfl .advance))
    (.wrap (.heeding rfl rfl .advance) fun _ => specialize_heeds)

theorem implicitMember_heeds : implicitMember.AddsNode test fun g => g.Heeds mode := by
  refine .wrap (.heeding rfl rfl ?_) fun _ => specialize_heeds
  exact .seq .advance fun _ => .branch .advance .missing

/-! ## Operands between brackets -/

theorem tuple_calm : (tuple mode).Calm test := by
  refine .node rfl (.seq .advance fun _ => .seq (.list rfl rfl ?_) fun _ => .require)
  refine .ifAhead (.before (.commaList (.values rfl rfl ?_)) fun _ => skipToCloser_bare rfl)
  exact labeled_writes (.visit rfl)

/-- The value of an element is no part of a list itself. -/
theorem elementValue_bare {dictionary : Bool} :
    (elementValue dictionary mode).Bare test fun _ => True := by
  cases dictionary
  · exact .pure trivial
  · exact .seq .require fun _ => .visit

theorem elementValue_sees {dictionary : Bool} : (elementValue dictionary mode).Sees :=
  .onlyIf (.seq .require fun _ => .visit)

theorem isElement_elementKind (dictionary : Bool) : (elementKind dictionary).1.isElement
    ∧ (elementKind dictionary).1.partsMode? = none := by cases dictionary <;> exact ⟨rfl, rfl⟩

/-- What stands behind the first expression of the first element starts with the colon that tells
what the element is, if it does so at all. -/
theorem firstRest_lays (dictionary : Bool) : Lays
    (fun us => us.sight.isAt .colon = dictionary)
    (fun (x : Construct × Bool × Bool) us gs => x.1 = elementKind dictionary ∧ x.2.1 = dictionary ∧
      (sightOf gs us.sight).isAt .colon = dictionary ∧ (x.2.2 = true →
        ∃ value t, gs = value ++ [.leaf (.present t)] ∧ t.kind = .comma)) (do
      elementValue dictionary mode
      let comma ← eat .comma
      return (elementKind dictionary, dictionary, comma)) := by
  intro ts built hcolon
  rw [meets_bind]
  refine meets_mono (elementValue_sees ts built) ?_
  rintro _ ⟨us, _⟩ ⟨value, rfl, hvalue⟩
  refine meets_eat (by decide) (fun x vs hahead hx => ?_) fun _ => ?_
  · refine ⟨value ++ [.token x.token], by simp, rfl, rfl, ?_, fun _ => ⟨value, _, rfl, hx⟩⟩
    obtain rfl : us = x :: vs := hahead
    rw [Green.sightOf_append]
    exact (congrArg (Outlook.isAt .colon) hvalue).trans hcolon
  · refine ⟨value, rfl, rfl, rfl, ?_, nofun⟩
    exact (congrArg (Outlook.isAt .colon) hvalue).trans hcolon

/-- The colon behind its first expression tells what the first element is. It ends with a comma if
that is answered. -/
theorem firstElement_lays : (firstElement mode).Lays test fun x us gs => ∃ key front,
    gs = [.node (elementKind x.1).1 (key :: front)] ∧
      (sightOf front us.sight).isAt .colon = x.1 ∧
        (x.2 = true → (Green.node (elementKind x.1).1 (key :: front)).endsInComma) := by
  intro ts built _
  refine meets_nodeBy fun missing us key hgives _ _ _ => ?_
  have hkey : Green.isFilled [key] := Green.isFilled_of_gives hgives rfl
  have hcolon : us.sight.isAt .colon = us.isAt .colon := Ahead.isAt_sight rfl (by decide) us
  refine meets_mono (firstRest_lays (us.isAt .colon) us [key] hcolon) ?_
  rintro ⟨kind, dictionary, comma⟩ ⟨vs, _⟩ ⟨front, rfl, hkind, hdictionary, hsight, hcomma⟩ _
  obtain rfl : kind = _ := hkind
  obtain rfl : dictionary = _ := hdictionary
  rw [List.reverse_append, List.reverse_reverse]
  refine ⟨Green.placed_of_isElement (isElement_elementKind _).1 (fun m hm => ?_) fun _ => ?_,
    [_], rfl, key, front, rfl, hsight, fun hx => ?_⟩
  · rw [(isElement_elementKind _).2] at hm
    cases hm
  · rw [Green.isFilled_append, List.reverse_singleton, hkey, Bool.true_or]
  · obtain ⟨value, t, rfl, ht⟩ := hcomma hx
    exact Green.endsInComma_append (key :: value) ht

/-- What the elements behind the first one are made of. -/
theorem element_parts (dictionary : Bool) : (do
      expr mode
      elementValue dictionary mode).Parts (elementKind dictionary).1 :=
  .values (isElement_elementKind dictionary).1 (isElement_elementKind dictionary).2
    (.before (.visit rfl) fun _ => elementValue_bare)

/-- Behind an element without a comma there is no other one. -/
theorem moreElements_apart {dictionary comma : Bool} {first : Green} {a : α}
    (h : comma = true → first.endsInComma) : Lays test
      (fun x _ gs => x = a ∧ Green.Apart (first :: gs)) (do
        ifAhead (fun ts => comma && !ts.endsElements) (moreElements dictionary mode)
        skipToCloser .rightBracket bracketBarriers
        return a) := by
  have hskip : Bare (fun _ => True) (fun x => x = a) (do
      skipToCloser .rightBracket bracketBarriers
      return a) := .seq (skipToCloser_bare rfl) fun _ => .pure rfl
  cases comma with
  | true =>
    have hmore : (moreElements dictionary mode).Lists (fun _ => True) fun _ => True :=
      .commaList (element_parts dictionary)
    refine (Lists.before (.ifAhead hmore) fun _ => hskip).mono (fun _ h => h) fun _ _ _ hgs => ?_
    exact ⟨hgs.1, hgs.2.append_of_forall (List.forall_mem_singleton.mpr (h rfl))⟩
  | false =>
    have hmore : Bare test (fun _ => True) (ifAhead (fun ts => false && !ts.endsElements)
        (moreElements dictionary mode)) := .ifAhead fun _ _ hts => absurd hts.2 Bool.false_ne_true
    refine (hmore.seq fun _ => hskip).mono (fun _ h => h) fun _ _ _ hgs => ?_
    exact ⟨hgs.1, (Green.apart_singleton first).append_right hgs.2⟩

/-- The colon behind the first expression of a literal is still to be seen when its elements are
read. -/
theorem bracketElements_calm : (bracketElements mode).Calm test := by
  intro s hs _
  refine meets_nodeBy ?_
  rw [meets_bind]
  refine meets_mono (firstElement_lays s.ahead [] hs) ?_
  rintro ⟨dictionary, comma⟩ ⟨us, _⟩ ⟨_, rfl, key, front, rfl, hcolon, hcomma⟩
  have hsees : Sees (do
      ifAhead (fun ts => comma && !ts.endsElements) (moreElements dictionary mode)
      skipToCloser .rightBracket bracketBarriers
      return ((if dictionary then ⟨.dictionaryElementList, rfl⟩ else ⟨.arrayElementList, rfl⟩,
        dictionary) : Construct × Bool)) :=
    .seq (.ifAhead (.commaList (element_parts dictionary))) fun _ =>
      .seq (skipToCloser_sees rfl) fun _ => .pure _
  refine meets_mono (((moreElements_apart hcomma).and (hsees.lays us.sight)) us _ rfl) ?_
  rintro _ ⟨vs, _⟩ ⟨rest, rfl, ⟨rfl, hapart⟩, hsight⟩ _
  have hparts : (rest.reverse ++ ([Green.node (elementKind dictionary).1 (key :: front)].reverse
      ++ [])).reverse = .node (elementKind dictionary).1 (key :: front) :: rest := by simp
  rw [hparts]
  have htold (next : Outlook) (hnext : sightOf rest next = us.sight) : Green.Told dictionary
      (.node (elementKind dictionary).1 (key :: front) :: rest) next := by
    rintro first others hcons
    obtain ⟨rfl, rfl⟩ := List.cons.inj hcons
    refine ⟨key, front, rfl, ?_⟩
    rw [Green.sightOf_append, hnext]
    exact hcolon
  refine ⟨?_, trivial, .any _⟩
  cases dictionary with
  | true => exact Green.placed_of_hasElements rfl hapart fun _ => htold _ hsight
  | false => exact Green.placed_of_hasElements rfl hapart fun _ => htold _ hsight

/-- No elements stand as demanded. -/
theorem noElements_calm {kind : Kind} {hk : kind.isConstruct} (h : kind.hasElements) :
    (emptyNode kind hk).Calm test := fun _ _ _ =>
  meets_emptyNode (Green.placed_of_hasElements h .nil fun _ _ _ h => nomatch h) ⟨trivial, .any _⟩

theorem bracketLiteral_calm : (bracketLiteral mode).Calm test := by
  refine .nodeBy (.seq .advance fun _ => .branch ?_ (.branch ?_ ?_))
  · exact .seq (noElements_calm rfl) fun _ => .seq .advance fun _ => .pure rfl
  · refine .seq .advance fun _ => .seq (noElements_calm rfl) fun _ => .seq .advance fun _ => ?_
    exact .pure rfl
  · refine .seq bracketElements_calm fun dictionary => .seq .require fun _ => ?_
    exact .pure (by cases dictionary <;> rfl)

/-! ## Key paths and macros -/

theorem keyPathSubscript_calm : keyPathSubscript.Calm test :=
  .seq .advance fun _ => .seq (argumentList_calm rfl) fun _ => .require

theorem keyPathComponents_calm : keyPathComponents.Calm test := by
  refine .node rfl (.repeatWhile
    (.nodeIf rfl (.branch ?_ (.branch ?_ (.branch ?_ (.pure trivial))))))
  · refine .seq (.seq .advance fun _ => .branch keyPathSubscript_calm memberName_calm) fun _ => ?_
    exact .pure trivial
  · exact .seq .advance fun _ => .pure trivial
  · exact .seq keyPathSubscript_calm fun _ => .pure trivial

theorem keyPath_calm : keyPath.Calm test := by
  have hroot : keyPathRoot.Calm fun _ => True := by
    refine .look fun kind => ?_
    split
    · exact .pure trivial
    iterate 2
      exact .seq namedType_calm fun _ => .seq optionalSuffixes_calm fun _ => .pure trivial
    · exact .seq tuple_calm fun _ => .pure trivial
    · exact .seq .placeholder fun _ => .pure trivial
  refine .node rfl (.seq .advance fun _ => .seq hroot fun _ => .branch keyPathComponents_calm ?_)
  exact .branch .visit .placeholder

theorem poundExpr_calm : (poundExpr mode).Calm test := by
  have hpart : poundKeyPathPart.Calm fun _ => True :=
    .seq (.branch .advance .missing) fun _ => .branch (.seq .advance fun _ => .pure trivial)
      (.pure trivial)
  refine .nodeBy (.look fun _ => .look fun isObject => .seq .advance fun _ => .seq ?_ fun _ => ?_)
  · refine .ite (.seq .expect fun _ => .ite ?_ (.pure trivial)) (.ifAhead ?_)
    · exact .seq (.repeatWhile hpart) fun _ => .require
    · exact .seq .advance fun _ => .seq (argumentList_calm rfl) fun _ => .require
  · exact .pure (by cases isObject <;> rfl)

/-! ## Operands -/

/-- Behind `let` and `var` the mode is the same but for the names. -/
theorem valueBinding_heeds : (valueBinding mode).AddsNode test fun g => g.Heeds mode :=
  .heeding rfl rfl (.seq .advance fun _ => .visitAs fun _ _ hg => hg.congr rfl rfl)

/-- An operand without what is attached behind it heeds its mode. -/
theorem primary_heeds : (primary mode).AddsNode test fun g => g.Heeds mode := by
  have htype (test : Ahead → Prop) : typeExpr.AddsNode test fun g => g.Heeds mode :=
    .quietOne rfl (.node rfl type_calm) typeExpr_makes
  refine .look fun kind => .branch (.thenPure (htype _)) ?_
  split
  iterate 6 exact .thenPure identifier_heeds
  iterate 8 exact .thenPure (.heeding rfl rfl .advance)
  iterate 4
    refine .thenPure (.quietOne rfl (stringLiteral_calm fun ts hts => ?_) stringLiteral_makes)
    rw [Ahead.isAt, hts.1.2]
    exact (by decide)
  · exact .thenPure (.quietOne rfl tuple_calm (tuple_makes fun ts hts => beq_iff_eq.mpr hts.1.2))
  · refine .thenPure (.quiet bracketLiteral_calm (@bracketLiteral_makes _ _ Kind.isQuiet rfl rfl ?_)
      fun _ hk => hk)
    exact fun ts hts => beq_iff_eq.mpr hts.1.2
  · exact .thenPure (.quietOne rfl .visit .visit)
  · exact .thenPure (.quietOne rfl keyPath_calm
      (keyPath_makes fun ts hts => beq_iff_eq.mpr hts.1.2))
  · exact .thenPure implicitMember_heeds
  · refine .thenPure (.quiet poundExpr_calm (@poundExpr_makes _ _ Kind.isQuiet rfl rfl ?_)
      fun _ hk => hk)
    exact fun ts hts => beq_iff_eq.mpr hts.1.2
  · exact .thenPure (htype _)
  iterate 2 exact .thenPure (.heeding rfl rfl valueBinding_heeds.fills)
  · exact .branch (.thenPure (.heeding rfl rfl .advance)) (.thenPure .placeholder)

/-- A suffix that starts on the line of its operand if the mode asks for that. -/
theorem Ahead.isOnLine_of_suffix? {ts : Ahead} {suffix : Suffix} (hled : ts.Led)
    (h : ts.suffix? mode = some suffix) (hmode : mode.directive) : ts.sight.isOnLine := by
  have hkind := kind_of_suffix? h
  refine isOnLine_of_led hled ?_ ?_
  · rintro rfl
    cases suffix <;> cases hkind
  · rw [suffix?, hmode, Bool.true_and] at h
    split at h
    · cases h
    · rename_i hline
      exact Bool.eq_false_iff.mpr hline

/-- A closure is attached only where the mode allows it. -/
theorem Ahead.not_noTrailingClosure_of_suffix? {ts : Ahead} (h : ts.suffix? mode = some .closure) :
    mode.noTrailingClosure = false := by
  have hkind : ts.kind = .leftBrace := kind_of_suffix? h
  rw [suffix?, hkind] at h
  rw [← Bool.not_eq_true]
  intro hmode
  simp [hmode] at h

/-- Whether closures stand behind a call only where the mode allows them. -/
def MayClose (mode : Mode) (gs : List Green) : Prop :=
  gs = [] ∨ (mode.noTrailingClosure = false ∧ Shape.trailing.Matches gs)

/-- Closures are looked for only where the mode allows them. -/
theorem optionalTrailingClosures_adds :
    (optionalTrailingClosures mode).Adds test fun _ _ => MayClose mode := by
  refine .branch (fun ts built hts => ?_) (.answer fun _ _ => .inl rfl)
  have hmode : mode.noTrailingClosure = false := by
    have hmode := Bool.and_elim_right hts.2
    rwa [Bool.not_eq_true'] at hmode
  have hmakes : trailingClosures.Makes (fun _ => True) Shape.trailing := trailingClosures_makes
  refine yields_mono (hmakes ts built trivial) ?_
  rintro _ t ⟨gs, hgs, hstrict, hshape⟩
  exact ⟨gs, hgs, hstrict, .inr ⟨hmode, hshape⟩⟩

/-- Closures and their labels heed every mode themselves, whatever stands in their braces. -/
theorem MayClose.heeds {gs : List Green} (h : MayClose mode gs) (hstrict : Green.StrictAll gs) :
    ∀ g ∈ gs, g.Heeds mode := by
  rcases h with rfl | ⟨-, h⟩
  · exact List.forall_mem_nil _
  · exact Green.heeds_of_only hstrict h rfl

/-- Whether trees are arguments between brackets, with closures behind them only where the mode
allows them. -/
def IsAttached (mode : Mode) (opener closer : Kind) (gs : List Green) : Prop :=
  ∃ (l : Green.Leaf) (args : List Green) (l' : Green.Leaf) (rest : List Green),
    gs = .leaf l :: .node .argumentList args :: .leaf l' :: rest ∧ l.kind = opener ∧
      l'.kind = closer ∧ MayClose mode rest

/-- Arguments are attached to an operand as its mode wants it. -/
theorem IsAttached.join {kind opener closer k : Kind} {cs gs : List Green} {next seen : Outlook}
    (h : IsAttached mode opener closer gs)
    (hopener : Ahead.depthAfter 0 opener = 1 ∧ opener ≠ .closureExpr)
    (hcloser : Ahead.depthAfter 1 closer = 0 ∧ closer ≠ .closureExpr)
    (hg : (Green.node k cs).Heeds mode) (hstrict : Green.StrictAll gs)
    (hsight : sightOf gs next = seen) (hline : mode.directive → seen.isOnLine) :
    (Green.node kind (.node k cs :: gs)).Heeds mode := by
  obtain ⟨l, args, l', rest, rfl, rfl, rfl, hrest⟩ := h
  refine .join hg ?_ (fun hmode => ?_) hsight hline
  · exact Green.heedAll_brackets hopener.1 hcloser.1
      (Green.heedAll_of_forall (hrest.heeds hstrict.2.2.2) 0)
  · rcases hrest with rfl | ⟨hnot, -⟩
    · rw [Green.takesClosure, Bool.and_eq_false_iff]
      refine .inr (List.any_eq_false.mpr fun c hc => ?_)
      simp only [List.mem_cons, List.not_mem_nil, or_false] at hc
      rw [beq_iff_eq]
      rcases hc with rfl | rfl | rfl
      · exact hopener.2
      · exact (by decide : Kind.argumentList ≠ .closureExpr)
      · exact hcloser.2
    · exact absurd hmode (Bool.eq_false_iff.mp hnot)

/-- Arguments between brackets behind an operand. -/
theorem arguments_attached {opener closer : Kind} {barriers : KindSet} {hk : closer.isSolid}
    (h : ∀ ts, test ts → ts.isAt opener) (hopener : opener ≠ .endOfFile) :
    (do
      advance
      argumentList closer barriers mode.nested
      require closer hk
      optionalTrailingClosures mode).Adds test fun _ _ => IsAttached mode opener closer := by
  refine .before (Makes.advanceAt h hopener) fun _ => ?_
  refine .before argumentList_makes fun _ => .before Makes.require fun _ => ?_
  refine .mono optionalTrailingClosures_adds (fun _ h => h) ?_
  intro _ _ rest hrest closing hclosing args hargs opening hopening
  obtain ⟨t, rfl, ht⟩ := hopening.exists_token
  obtain ⟨k, cs, rfl, hk⟩ := hargs.exists_node
  obtain rfl := beq_iff_eq.mp hk
  obtain ⟨l, rfl, hl⟩ := hclosing.exists_leaf
  exact ⟨.present t, cs, l, rest, rfl, beq_iff_eq.mp ht, hl, hrest⟩

/-- A suffix stands on the line of its operand if the mode asks for that. -/
def Follows (mode : Mode) (k : Kind) (ts : Ahead) : Prop :=
  ts.isAt k ∧ (mode.directive → ts.sight.isOnLine)

/-- A call heeds the mode: its arguments are in brackets, its parenthesis was seen on the line, and
closures come only where they may. -/
theorem callSuffix_heeds (h : ∀ ts, test ts → Follows mode .leftParen ts) :
    (callSuffix mode).WrapsNode test fun g => g.Heeds mode := by
  refine .enclose rfl ?_ (arguments_attached (fun ts hts => (h ts hts).1) (by decide))
    fun ts _ us k ds gs hts hheeds hstrict hgs hsight => ?_
  · refine .seq .advance fun _ => .seq (argumentList_calm rfl) fun _ => .seq .require fun _ => ?_
    exact optionalTrailingClosures_calm
  · exact hgs.join ⟨rfl, by decide⟩ ⟨rfl, by decide⟩ hheeds hstrict hsight (h ts hts).2

/-- A subscript heeds the mode, for the same reasons as a call. -/
theorem subscriptSuffix_heeds (h : ∀ ts, test ts → Follows mode .leftBracket ts) :
    (subscriptSuffix mode).WrapsNode test fun g => g.Heeds mode := by
  refine .enclose rfl ?_ (arguments_attached (fun ts hts => (h ts hts).1) (by decide))
    fun ts _ us k ds gs hts hheeds hstrict hgs hsight => ?_
  · refine .seq .advance fun _ => .seq (argumentList_calm rfl) fun _ => .seq .require fun _ => ?_
    exact optionalTrailingClosures_calm
  · exact hgs.join ⟨rfl, by decide⟩ ⟨rfl, by decide⟩ hheeds hstrict hsight (h ts hts).2

/-- A member heeds the mode: its period was seen on the line. -/
theorem memberSuffix_heeds (h : ∀ ts, test ts → Follows mode .period ts) :
    memberSuffix.WrapsNode test fun g => g.Heeds mode := by
  refine .seq (.enclose rfl (.seq .advance fun _ => memberName_calm)
    (Makes.seq (.advanceAt (fun ts hts => (h ts hts).1) (by decide)) fun _ => memberName_makes)
    fun ts _ us k ds gs hts hheeds hstrict hgs hsight => ?_) fun _ => specialize_heeds
  exact .joinAll rfl hheeds (Green.heeds_of_only hstrict hgs rfl) hsight (h ts hts).2

/-- A postfix operator heeds the mode: it was seen on the line. -/
theorem operatorSuffix_heeds (h : ∀ ts, test ts → Follows mode .postfixOperator ts) :
    operatorSuffix.WrapsNode test fun g => g.Heeds mode := by
  refine .look fun kind => ?_
  by_cases hkind : kind.1.isOrdinary ∧ kind.1.isCall = false
  · refine .enclose hkind.1 .advance
      (Makes.advanceAt (fun ts hts => (h ts hts.1.1).1) (by decide))
      fun ts _ us k ds gs hts hheeds hstrict hgs hsight => ?_
    exact .joinAll hkind.2 hheeds (Green.heeds_of_only hstrict hgs rfl) hsight
      (h ts hts.1.1).2
  · intro ts k cs built hts
    refine absurd ?_ hkind
    rw [← hts.1.2]
    split
    · exact ⟨rfl, rfl⟩
    · split
      · exact ⟨rfl, rfl⟩
      · exact ⟨rfl, rfl⟩

/-- What is attached behind an operand leaves it as its mode wants it. -/
theorem suffixRule_heeds {suffix : Suffix} (h : ∀ ts, test ts →
    ts.suffix? mode = some suffix ∧ ts.Led) :
    (suffixRule mode suffix).WrapsNode test fun g => g.Heeds mode := by
  have hline (ts : Ahead) (hts : test ts) (hmode : mode.directive) : ts.sight.isOnLine :=
    Ahead.isOnLine_of_suffix? (h ts hts).2 (h ts hts).1 hmode
  have hkind (ts : Ahead) (hts : test ts) := Ahead.kind_of_suffix? (h ts hts).1
  cases suffix with
  | member => exact memberSuffix_heeds fun ts hts => ⟨beq_iff_eq.mpr (hkind ts hts), hline ts hts⟩
  | call => exact callSuffix_heeds fun ts hts => ⟨beq_iff_eq.mpr (hkind ts hts), hline ts hts⟩
  | subscript =>
    exact subscriptSuffix_heeds fun ts hts => ⟨beq_iff_eq.mpr (hkind ts hts), hline ts hts⟩
  | operator =>
    exact operatorSuffix_heeds fun ts hts => ⟨beq_iff_eq.mpr (hkind ts hts), hline ts hts⟩
  | closure =>
    refine .enclose rfl trailingClosures_calm trailingClosures_makes
      fun ts _ us k ds gs hts hheeds hstrict hgs hsight => ?_
    have hall : ∀ g ∈ gs, g.Heeds mode := Green.heeds_of_only hstrict hgs rfl
    refine hheeds.join (Green.heedAll_of_forall hall 0) (fun hmode => ?_) hsight (hline ts hts)
    exact absurd hmode (Bool.eq_false_iff.mp (Ahead.not_noTrailingClosure_of_suffix? (h ts hts).1))

/-- An operand with everything that is attached behind it heeds its mode. -/
theorem operandRule_heeds : (operandRule mode).AddsNode test fun g => g.Heeds mode := by
  refine .wrap primary_heeds fun missing => ?_
  cases missing with
  | true => exact .pure true
  | false =>
    refine .seq (.repeatWhile (.look fun suffix => ?_)) fun _ => .pure false
    cases suffix with
    | none => exact .pure false
    | some suffix =>
      exact .seq (suffixRule_heeds fun ts hts => ⟨hts.1.2, hts.2⟩) fun _ => .pure true

end Grammar

end SwiftTree
