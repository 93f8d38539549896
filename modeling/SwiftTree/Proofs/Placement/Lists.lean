import SwiftTree.Proofs.Conformance.Placeholders
import SwiftTree.Proofs.Placement

/-!
# Lists stand as demanded

A list is read as nodes that take the comma behind them, and goes on only behind a comma. So of the
parts of a list only the last one can be without a comma (`Parser.Lists.commaList`). What else
stands in the node of the list is no such part (`Parser.Bare`). A part has a value in it, or a
placeholder for one, as soon as one of its rules leaves that (`Parser.Writes`, `Parser.Parts`).

What tells the kind of a bracket literal was seen before the rest of its list was read. A rule that
shows what was seen (`Parser.Sees`) leaves it at the start of its trees, so it can be found in the
tree.

`Parser.Lays` is what these have in common: the nodes of a rule stand as demanded, and something is
known of the trees that it adds.
-/

namespace SwiftTree

open Grammar

open Green (Placed Apart sightOf)

namespace Green

variable {gs hs : List Green}

theorem isElement_leaf (l : Leaf) : (Green.leaf l).isElement = false := by cases l <;> rfl

theorem apart_of_forall (h : ∀ g ∈ gs, g.isElement = false) : Apart gs :=
  List.pairwise_of_forall_mem_list fun g hg _ _ helement =>
    absurd helement (Bool.eq_false_iff.mp (h g hg))

theorem Apart.append_left (h : Apart hs) (hgs : ∀ g ∈ gs, g.isElement = false) : Apart (gs ++ hs) :=
  List.pairwise_append.mpr ⟨apart_of_forall hgs, h, fun g hg _ _ helement =>
    absurd helement (Bool.eq_false_iff.mp (hgs g hg))⟩

theorem Apart.append_right (h : Apart gs) (hhs : ∀ g ∈ hs, g.isElement = false) :
    Apart (gs ++ hs) :=
  List.pairwise_append.mpr ⟨h, apart_of_forall hhs, fun _ _ g hg _ helement =>
    absurd helement (Bool.eq_false_iff.mp (hhs g hg))⟩

/-- Behind parts that end with commas, another one may stand. -/
theorem Apart.append_of_forall (h : Apart hs) (hgs : ∀ g ∈ gs, g.endsInComma) : Apart (gs ++ hs) :=
  List.pairwise_append.mpr
    ⟨List.pairwise_of_forall_mem_list fun g hg _ _ _ _ => hgs g hg, h, fun g hg _ _ _ _ => hgs g hg⟩

theorem apart_singleton (g : Green) : Apart [g] := List.pairwise_singleton _ g

theorem isFilled_append : isFilled (gs ++ hs) = (isFilled gs || isFilled hs) := List.any_append

/-- A tree with a token in it fills a place if it is no comma. -/
theorem isFilled_of_hasPresent {kind : Kind} {cs : List Green} (h : (node kind cs).hasPresent) :
    isFilled [node kind cs] := by
  simp [isFilled, isComma, h]

theorem endsInComma_append {kind : Kind} {t : Token.Outline} (cs : List Green)
    (ht : t.kind = .comma) : (node kind (cs ++ [.leaf (.present t)])).endsInComma := by
  rw [endsInComma, children, List.getLast?_append, List.getLast?_singleton]
  exact beq_iff_eq.mpr ht

end Green

/-- A goal adds a node, and no part of a list. -/
theorem Grammar.Goal.Gives.exists_node {goal : Goal} {start us : Ahead} {missing : Bool} {g : Green}
    (h : goal.Gives start missing us g) :
    ∃ kind cs, g = .node kind cs ∧ kind.isElement = false := by
  have honly : goal.shape.only (fun k => !k.isElement) Kind.never := by
    cases goal <;> dsimp only [Goal.shape] <;> decide +kernel
  have hwithin : g.isWithin (fun k => !k.isElement) Kind.never :=
    List.all_eq_true.mp (Shape.all_isWithin h.shape honly) g (List.mem_singleton_self g)
  have hnode := h.shape
  cases g with
  | node kind cs => exact ⟨kind, cs, rfl, (Bool.not_eq_true' _).mp hwithin⟩
  | leaf l =>
    cases l with
    | present t => cases hwithin
    | missing kind spelling => cases goal <;> cases hnode

/-- What a goal adds fills a place if the goal has a placeholder. -/
theorem Green.isFilled_of_gives {goal : Goal} {start us : Ahead} {missing : Bool} {g : Green}
    (h : goal.Gives start missing us g) (hgoal : goal.placeholder?.isSome) : isFilled [g] := by
  obtain ⟨kind, cs, rfl, -⟩ := h.exists_node
  rcases h.hasPresent_or hgoal with hpresent | hplaceholder
  · exact isFilled_of_hasPresent hpresent
  · rw [isFilled, List.any_cons, hplaceholder]
    rfl

namespace Grammar.Parser

variable {α β : Type} {test : Ahead → Prop}

/-- From tokens that pass the test, the nodes of a rule stand as demanded, and of the trees that it
adds something is known, given the answer and the tokens behind. -/
def Lays (test : Ahead → Prop) (given : α → Ahead → List Green → Prop) (p : Parser α) : Prop :=
  ∀ ts built, test ts → p.meets placing ⟨ts, built⟩ fun a t =>
    ∃ gs, t.built = gs.reverse ++ built ∧ given a t.ahead gs

namespace Lays

variable {given given' : α → Ahead → List Green → Prop}

/-- What a rule lays may be asked for less often, and less may be known of it. -/
theorem mono {test' : Ahead → Prop} {p : Parser α} (h : p.Lays test given)
    (ht : ∀ ts, test' ts → test ts) (hg : ∀ a us gs, given a us gs → given' a us gs) :
    p.Lays test' given' := by
  intro ts built hts
  refine meets_mono (h ts built (ht ts hts)) ?_
  rintro a t ⟨gs, hbuilt, hgiven⟩
  exact ⟨gs, hbuilt, hg a _ gs hgiven⟩

theorem calm {p : Parser α} (h : p.Lays test given) : p.Calm test :=
  fun s hs _ => meets_mono (h s.ahead s.built hs) fun _ _ _ => ⟨trivial, .any _⟩

/-- What a rule adds, if its nodes stand as demanded anyway. -/
theorem of_adds {p : Parser α} (h : p.Calm test) (h' : p.Adds test given) :
    p.Lays test fun a us gs => Green.StrictAll gs ∧ given a us gs := fun _ _ hts => h.adds h' hts

/-- A node that stands as demanded, with all its parts. -/
theorem node {kind : Kind} {p : Parser α} {hk : kind.isConstruct}
    (h : (Grammar.node kind p hk).Calm test) :
    (Grammar.node kind p hk).Lays test fun _ _ gs => ∃ cs, gs = [.node kind cs] := by
  intro ts built hts
  refine meets_mono (meets_around (h ⟨ts, built⟩ hts (.any _))) ?_
  rintro a t ⟨-, cs, hbuilt, -⟩
  exact ⟨[.node kind cs], hbuilt, cs, rfl⟩

theorem answer {a : α} (h : ∀ ts, test ts → given a ts []) :
    (Pure.pure a : Parser α).Lays test given := fun ts _ hts => ⟨[], rfl, h ts hts⟩

/-- One rule behind another. -/
theorem bind {first : Parser α} {next : α → Parser β} {behind : α → β → Ahead → List Green → Prop}
    {all : β → Ahead → List Green → Prop} (h : first.Lays test given)
    (hnext : ∀ a, (next a).Lays (fun us => ∃ gs, given a us gs) (behind a))
    (hall : ∀ a us gs b vs hs, given a us gs → behind a b vs hs → all b vs (gs ++ hs)) :
    (first >>= next).Lays test all := by
  intro ts built hts
  rw [meets_bind]
  refine meets_mono (h ts built hts) ?_
  rintro a ⟨us, _⟩ ⟨gs, rfl, hgiven⟩
  refine meets_mono (hnext a us _ ⟨gs, hgiven⟩) ?_
  rintro b t ⟨hs, hbuilt, hbehind⟩
  refine ⟨gs ++ hs, ?_, hall a us gs b _ hs hgiven hbehind⟩
  rw [hbuilt, List.reverse_append, List.append_assoc]

/-- What is known of a rule can be learnt bit by bit. -/
theorem and {p : Parser α} (h : p.Lays test given) (h' : p.Lays test given') :
    p.Lays test fun a us gs => given a us gs ∧ given' a us gs := by
  intro ts built hts
  refine meets_mono (meets_and (h ts built hts) (h' ts built hts)) ?_
  rintro a t ⟨⟨gs, hbuilt, hgiven⟩, gs', hbuilt', hgiven'⟩
  obtain rfl : gs = gs' := by simpa [hbuilt] using hbuilt'
  exact ⟨gs, hbuilt, hgiven, hgiven'⟩

theorem look {f : Ahead → β} {next : β → Parser α}
    (h : ∀ b, (next b).Lays (fun ts => test ts ∧ f ts = b) given) :
    (Grammar.look f >>= next).Lays test given :=
  fun ts built hts _ => h (f ts) ts built ⟨hts, rfl⟩

/-- Each branch may use what was seen ahead. -/
theorem branch {f : Ahead → Bool} {p q : Parser α}
    (hp : p.Lays (fun ts => test ts ∧ f ts = true) given)
    (hq : q.Lays (fun ts => test ts ∧ f ts = false) given) :
    (Grammar.look f >>= fun b => if b then p else q).Lays test given := by
  refine look ?_
  rintro (_ | _)
  · exact hq
  · exact hp

end Lays

/-! ## Rules that add no parts of lists -/

/-- The rule adds no part of a list, and its answer is as given. -/
def Bare (test : Ahead → Prop) (given : α → Prop) (p : Parser α) : Prop :=
  p.Lays test fun a _ gs => given a ∧ ∀ g ∈ gs, g.isElement = false

namespace Bare

variable {given : α → Prop}

/-- A rule adds no part of a list if the shape of what it adds has none. -/
theorem of_makes {p : Parser α} {a : Shape} (h : p.Calm test) (h' : p.Makes test a)
    (ha : a.only (fun k => !k.isElement) fun _ => true) : p.Bare test fun _ => True := by
  refine (Lays.of_adds h h').mono (fun _ h => h) fun _ _ gs ⟨_, hgs⟩ => ⟨trivial, fun g hg => ?_⟩
  have hwithin := List.all_eq_true.mp (Shape.all_isWithin hgs ha) g hg
  cases g with
  | node kind cs => exact (Bool.not_eq_true' _).mp hwithin
  | leaf l => exact Green.isElement_leaf l

/-- A node of another kind than a part of a list is none, whatever is in it. -/
theorem node {kind : Kind} {p : Parser α} {hk : kind.isConstruct} (hkind : kind.isElement = false)
    (h : (Grammar.node kind p hk).Calm test) :
    (Grammar.node kind p hk).Bare test fun _ => True := by
  refine (Lays.node h).mono (fun _ h => h) ?_
  rintro _ _ _ ⟨cs, rfl⟩
  exact ⟨trivial, List.forall_mem_singleton.mpr hkind⟩

theorem pure {a : α} (h : given a) : (Pure.pure a : Parser α).Bare test given :=
  Lays.answer fun _ _ => ⟨h, List.forall_mem_nil _⟩

theorem seq {first : Parser α} {next : α → Parser β} {given : β → Prop}
    (h : first.Bare test fun _ => True) (hnext : ∀ a, (next a).Bare (fun _ => True) given) :
    (first >>= next).Bare test given :=
  Lays.bind h (fun a => (hnext a).mono (fun _ _ => trivial) fun _ _ _ h => h)
    fun _ _ _ _ _ _ hgs hhs => ⟨hhs.1, List.forall_mem_append.mpr ⟨hgs.2, hhs.2⟩⟩

theorem branch {f : Ahead → Bool} {p q : Parser α}
    (hp : p.Bare (fun ts => test ts ∧ f ts = true) given)
    (hq : q.Bare (fun ts => test ts ∧ f ts = false) given) :
    (Grammar.look f >>= fun b => if b then p else q).Bare test given := Lays.branch hp hq

theorem ifAhead {f : Ahead → Bool} {p : Parser Unit}
    (h : p.Bare (fun ts => test ts ∧ f ts = true) fun _ => True) :
    (Grammar.ifAhead f p).Bare test fun _ => True := branch h (pure trivial)

/-- A choice that was made before adds no part of a list if neither rule does. -/
theorem ite {x : Bool} {p q : Parser α} (hp : p.Bare test given) (hq : q.Bare test given) :
    (if x then p else q).Bare test given := by
  cases x
  · exact hq
  · exact hp

/-- A tree that is added is no part of a list if it is a leaf. -/
theorem of_leaf {l : Green.Leaf} {built : Forest} : ∃ gs : List Green,
    (Green.leaf l :: built : Forest) = gs.reverse ++ built ∧ True ∧ ∀ g ∈ gs, g.isElement = false :=
  ⟨[.leaf l], rfl, trivial, List.forall_mem_singleton.mpr (Green.isElement_leaf l)⟩

/-- A token is no part of a list. -/
theorem take {kind : Option SolidKind} : (Parser.take kind).Bare test fun _ => True := by
  intro ts built _
  cases ts with
  | nil => exact ⟨[], rfl, trivial, List.forall_mem_nil _⟩
  | cons x us => exact of_leaf

theorem advance : Grammar.advance.Bare test fun _ => True := take

theorem advanceAs {k : Kind} {hk : k.isSolid} :
    (Grammar.advanceAs k hk).Bare test fun _ => True := take

theorem missing {k : Kind} {hk : k.isSolid} : (Grammar.missing k hk).Bare test fun _ => True :=
  fun _ _ _ => of_leaf

theorem eat {k : Kind} : (Grammar.eat k).Bare test fun _ => True :=
  branch (seq advance fun _ => pure trivial) (pure trivial)

theorem eatWord {k : Kind} {hk : k.isSolid} : (Grammar.eatWord k hk).Bare test fun _ => True :=
  branch (seq advanceAs fun _ => pure trivial) (pure trivial)

theorem skip {k : Kind} : (Grammar.skip k).Bare test fun _ => True := ifAhead advance

/-- Several tokens are no parts of a list. -/
theorem advanceBy (n : Nat) : (Grammar.advanceBy n).Bare test fun _ => True := by
  induction n generalizing test with
  | zero => exact pure trivial
  | succ n ih => exact seq advance fun _ => ih

theorem require {k : Kind} {hk : k.isSolid} : (Grammar.require k hk).Bare test fun _ => True :=
  seq (seq eat fun _ => ite (pure trivial) (seq missing fun _ => pure trivial)) fun _ =>
    pure trivial

/-- What a goal gives is no part of a list. -/
theorem visit {goal : Goal} : (Grammar.visit goal).Bare test fun _ => True := by
  intro ts built _ a us g hgives _ _
  obtain ⟨kind, cs, rfl, hkind⟩ := hgives.exists_node
  exact ⟨[.node kind cs], rfl, trivial, List.forall_mem_singleton.mpr hkind⟩

end Bare

/-! ## Rules that lay out lists -/

/-- The rule keeps the parts of lists apart, and its answer is as given. -/
def Lists (test : Ahead → Prop) (given : α → Prop) (p : Parser α) : Prop :=
  p.Lays test fun a _ gs => given a ∧ Apart gs

namespace Lists

variable {given : α → Prop}

/-- A list behind what is no part of it. -/
theorem behind {first : Parser α} {next : α → Parser β} {given : β → Prop}
    (h : first.Bare test fun _ => True) (hnext : ∀ a, (next a).Lists (fun _ => True) given) :
    (first >>= next).Lists test given :=
  Lays.bind h (fun a => (hnext a).mono (fun _ _ => trivial) fun _ _ _ h => h)
    fun _ _ _ _ _ _ hgs hhs => ⟨hhs.1, hhs.2.append_left hgs.2⟩

/-- A list before what is no part of it. -/
theorem before {first : Parser α} {next : α → Parser β} {given : β → Prop}
    (h : first.Lists test fun _ => True) (hnext : ∀ a, (next a).Bare (fun _ => True) given) :
    (first >>= next).Lists test given :=
  Lays.bind h (fun a => (hnext a).mono (fun _ _ => trivial) fun _ _ _ h => h)
    fun _ _ _ _ _ _ hgs hhs => ⟨hhs.1, hgs.2.append_right hhs.2⟩

theorem of_bare {p : Parser α} (h : p.Bare test given) : p.Lists test given :=
  h.mono (fun _ h => h) fun _ _ _ hgs => ⟨hgs.1, Green.apart_of_forall hgs.2⟩

/-- A choice that was made before keeps the parts apart if both rules do. -/
theorem ite {x : Bool} {p q : Parser α} (hp : p.Lists test given) (hq : q.Lists test given) :
    (if x then p else q).Lists test given := by
  cases x
  · exact hq
  · exact hp

theorem ifAhead {f : Ahead → Bool} {p : Parser Unit} (h : p.Lists (fun _ => True) fun _ => True) :
    (Grammar.ifAhead f p).Lists test fun _ => True :=
  Lays.branch (h.mono (fun _ _ => trivial) fun _ _ _ h => h) (of_bare (.pure trivial))

end Lists

/-! ## Rules that write a value -/

/-- The rule leaves something that was written, or a placeholder. -/
def Writes (test : Ahead → Prop) (p : Parser α) : Prop :=
  p.Lays test fun _ _ gs => Green.isFilled gs

namespace Writes

/-- What a rule writes is not undone by one that adds trees behind it. -/
theorem before {first : Parser α} {next : α → Parser β} (h : first.Writes test)
    (hnext : ∀ a, (next a).Bare (fun _ => True) fun _ => True) : (first >>= next).Writes test :=
  Lays.bind h (fun a => (hnext a).mono (fun _ _ => trivial) fun _ _ _ h => h)
    fun _ _ _ _ _ _ hgs _ => by rw [Green.isFilled_append, hgs, Bool.true_or]

theorem behind {first : Parser α} {next : α → Parser β} (h : first.Bare test fun _ => True)
    (hnext : ∀ a, (next a).Writes fun _ => True) : (first >>= next).Writes test :=
  Lays.bind h (fun a => (hnext a).mono (fun _ _ => trivial) fun _ _ _ h => h)
    fun _ _ _ _ _ _ _ hhs => by rw [Green.isFilled_append, hhs, Bool.or_true]

theorem branch {f : Ahead → Bool} {p q : Parser α}
    (hp : p.Writes fun ts => test ts ∧ f ts = true)
    (hq : q.Writes fun ts => test ts ∧ f ts = false) :
    (Grammar.look f >>= fun b => if b then p else q).Writes test := Lays.branch hp hq

/-- A goal with a placeholder leaves it where it takes nothing. -/
theorem visit {goal : Goal} (h : goal.placeholder?.isSome) : (Grammar.visit goal).Writes test :=
  fun _ _ _ _ _ g hgives _ _ => ⟨[g], rfl, Green.isFilled_of_gives hgives h⟩

/-- A node that has a token. -/
theorem node (kind : Kind) {p : Parser α} (h : p.Calm test) (h' : p.Makes test (Shape.one kind))
    (hkind : kind.shape.least Kind.never (fun _ => true) = 1) : p.Writes test := by
  refine (Lays.of_adds h h').mono (fun _ h => h) fun _ _ gs ⟨hstrict, hgs⟩ => ?_
  obtain ⟨k, cs, rfl, hk⟩ := hgs.exists_node
  obtain rfl := beq_iff_eq.mp hk
  refine Green.isFilled_of_hasPresent ?_
  have hcount : _ ≤ cs.countP (Green.isAmong Kind.never fun _ => true) :=
    Shape.least_le_countP hstrict.1.1.shape
  rw [hkind] at hcount
  obtain ⟨c, hc, htoken⟩ := List.countP_pos_iff.mp hcount
  cases c with
  | node kind ds => cases htoken
  | leaf l =>
    cases l with
    | present t => exact Green.hasPresentOf_of_mem hc
    | missing kind spelling => cases htoken

end Writes

/-! ## Parts of lists -/

/-- The rule leaves what makes up a part of a list, with or without a comma behind it. -/
def Parts (kind : Kind) (p : Parser Unit) : Prop :=
  ∀ ts : Ahead, p.meets placing ⟨ts, []⟩ fun _ t => ∀ comma next, (∀ c ∈ comma, c.isComma) →
    Placed kind (t.built.reverse ++ comma) next

namespace Parts

variable {kind : Kind} {p : Parser Unit}

/-- A part without a value. -/
theorem names (hkind : kind.isElement) (hvalue : kind.hasValue = false)
    (hmode : kind.partsMode? = none) (h : p.Calm fun _ => True) : p.Parts kind := by
  refine fun ts => meets_mono (h ⟨ts, []⟩ trivial (.any _)) fun _ t _ comma next _ => ?_
  refine Green.placed_of_isElement hkind (fun mode hm => ?_) fun hvalue' => ?_
  · rw [hmode] at hm
    cases hm
  · exact absurd hvalue' (Bool.eq_false_iff.mp hvalue)

/-- A part with a value. -/
theorem values (hkind : kind.isElement) (hmode : kind.partsMode? = none)
    (h : p.Writes fun _ => True) : p.Parts kind := by
  refine fun ts => meets_mono (h ts [] trivial) fun _ t ⟨gs, hgs, hfilled⟩ comma next _ => ?_
  refine Green.placed_of_isElement hkind (fun mode hm => ?_) fun _ => ?_
  · rw [hmode] at hm
    cases hm
  · rw [hgs, Green.isFilled_append, List.append_nil, List.reverse_reverse, hfilled, Bool.true_or]

/-- The node of a part ends with the comma that is answered. -/
theorem node {hk : kind.isConstruct} (h : p.Parts kind) :
    (Grammar.node kind (do p; Grammar.eat .comma) hk).Lays (fun _ => True) fun comma _ gs =>
      ∃ g : Green, gs = [g] ∧ (comma = true → g.endsInComma) := by
  intro ts built _
  refine meets_node ?_
  rw [meets_bind]
  refine meets_mono (h ts) fun _ t ht => meets_eat (by decide) (fun x vs _ hx _ => ?_) fun _ _ => ?_
  · rw [List.reverse_cons]
    refine ⟨ht _ _ (List.forall_mem_singleton.mpr (beq_iff_eq.mpr hx)), [_], rfl, _, rfl,
      fun _ => ?_⟩
    exact Green.endsInComma_append _ hx
  · have hplaced := ht [] t.ahead.sight (List.forall_mem_nil _)
    rw [List.append_nil] at hplaced
    exact ⟨hplaced, [_], rfl, _, rfl, nofun⟩

end Parts

/-- **A list goes on only behind a comma.** So of the parts that a list is made of, each but the
last one ends with its comma. -/
theorem Lists.commaList {kind : Kind} {ends : Ahead → Bool} {p : Parser Unit}
    {hk : kind.isConstruct}
    (h : p.Parts kind) : (Grammar.commaList kind ends p hk).Lists test fun _ => True := by
  intro ts built _
  -- all parts so far end with a comma while the list goes on
  let invariant (t : State Forest) : Prop :=
    ∃ gs : List Green, t.built = gs.reverse ++ built ∧ ∀ g ∈ gs, g.endsInComma
  refine meets_repeatWhile invariant ⟨[], rfl, List.forall_mem_nil _⟩ ?_
  rintro ⟨us, _⟩ ⟨gs, rfl, hgs⟩
  rw [meets_bind]
  refine meets_mono (h.node us (gs.reverse ++ built) trivial) ?_
  rintro comma ⟨vs, _⟩ ⟨_, rfl, g, rfl, hg⟩ _
  have hadded : [g].reverse ++ (gs.reverse ++ built) = (gs ++ [g]).reverse ++ built := by simp
  show if (comma && !ends vs) = true then _ else _
  split
  · rename_i hmore
    refine ⟨gs ++ [g], hadded, List.forall_mem_append.mpr ⟨hgs, List.forall_mem_singleton.mpr ?_⟩⟩
    exact hg (Bool.and_elim_left hmore)
  · exact ⟨gs ++ [g], hadded, trivial, (Green.apart_singleton g).append_of_forall hgs⟩

/-! ## Rules that show what was seen -/

/-- What was seen before the rule is what the trees start with that it adds, or what is seen behind
them. -/
def Sees (p : Parser α) : Prop :=
  ∀ ts built, p.meets placing ⟨ts, built⟩ fun _ t =>
    ∃ gs, t.built = gs.reverse ++ built ∧ sightOf gs t.ahead.sight = ts.sight

namespace Sees

theorem lays {p : Parser α} (h : p.Sees) (seen : Outlook) :
    p.Lays (fun ts => ts.sight = seen) fun _ us gs => sightOf gs us.sight = seen := by
  rintro ts built rfl
  exact h ts built

theorem pure (a : α) : (Pure.pure a : Parser α).Sees := fun _ _ => ⟨[], rfl, rfl⟩

/-- What the first rule leaves at the start stays there. If it leaves nothing, the second one shows
what was seen. -/
theorem seq {first : Parser α} {next : α → Parser β} (h : first.Sees) (hnext : ∀ a, (next a).Sees) :
    (first >>= next).Sees := by
  intro ts built
  rw [meets_bind]
  refine meets_mono (h ts built) ?_
  rintro a ⟨us, _⟩ ⟨gs, rfl, hgs⟩
  refine meets_mono (hnext a us _) ?_
  rintro b t ⟨hs, hbuilt, hhs⟩
  refine ⟨gs ++ hs, by rw [hbuilt, List.reverse_append, List.append_assoc], ?_⟩
  rw [Green.sightOf_append, hhs]
  exact hgs

theorem look {f : Ahead → β} {next : β → Parser α} (h : ∀ b, (next b).Sees) :
    (Grammar.look f >>= next).Sees := fun ts built _ => h (f ts) ts built

/-- A choice that was made before shows what was seen if both rules do. -/
theorem ite {x : Bool} {p q : Parser α} (hp : p.Sees) (hq : q.Sees) :
    (if x then p else q).Sees := by
  cases x
  · exact hq
  · exact hp

theorem ifAhead {f : Ahead → Bool} {p : Parser Unit} (h : p.Sees) : (Grammar.ifAhead f p).Sees :=
  look fun _ => ite h (pure ())

theorem onlyIf {x : Bool} {p : Parser Unit} (h : p.Sees) : (Grammar.onlyIf x p).Sees :=
  ite h (pure ())

theorem require {k : Kind} {hk : k.isSolid} : (Grammar.require k hk).Sees :=
  fun _ _ => meets_require fun l _ _ hsight _ => ⟨[.leaf l], rfl, hsight⟩

theorem visit {goal : Goal} : (Grammar.visit goal).Sees :=
  fun _ _ _ _ g _ _ hsight => ⟨[g], rfl, hsight⟩

/-- A node shows what was seen if its parts do. -/
theorem node {kind : Kind} {p : Parser α} {hk : kind.isConstruct}
    (h : (Grammar.node kind p hk).Calm fun _ => True) : (Grammar.node kind p hk).Sees := by
  intro ts built
  refine meets_mono (meets_around (h ⟨ts, built⟩ trivial (.any _))) ?_
  rintro a t ⟨-, cs, hbuilt, hsight⟩
  exact ⟨[.node kind cs], hbuilt, (Green.sightOf_node kind cs _).trans hsight⟩

/-- A loop shows what was seen: in the first round that leaves something, or behind the loop. -/
theorem repeatWhile {p : Parser Bool} (h : p.Sees) : (Grammar.repeatWhile p).Sees := by
  intro ts built
  let invariant (t : State Forest) : Prop :=
    ∃ gs : List Green, t.built = gs.reverse ++ built ∧ sightOf gs t.ahead.sight = ts.sight
  refine meets_repeatWhile invariant ⟨[], rfl, rfl⟩ ?_
  rintro ⟨us, _⟩ ⟨gs, rfl, hgs⟩
  refine meets_mono (h us _) ?_
  rintro again t ⟨hs, hbuilt, hhs⟩
  have hall : invariant t := by
    refine ⟨gs ++ hs, by rw [hbuilt, List.reverse_append, List.append_assoc], ?_⟩
    rw [Green.sightOf_append, hhs]
    exact hgs
  cases again with
  | true => exact hall
  | false => exact hall

theorem commaList {kind : Kind} {ends : Ahead → Bool} {p : Parser Unit} {hk : kind.isConstruct}
    (h : p.Parts kind) : (Grammar.commaList kind ends p hk).Sees :=
  repeatWhile (seq (node h.node.calm) fun _ => look fun _ => pure _)

end Sees

/-- Text that is skipped starts with the token that was seen. -/
theorem meets_unexpected {more : Nat} {ts : Ahead} {built : Forest}
    {post : Unit → State Forest → Prop}
    (h : (Grammar.unexpected more).meets placing ⟨ts, built⟩ post) :
    (Grammar.unexpected more).meets placing ⟨ts, built⟩ fun _ t =>
      ∃ gs, t.built = gs.reverse ++ built ∧ sightOf gs t.ahead.sight = ts.sight := by
  refine ⟨h.1, ?_⟩
  cases ts with
  | nil => exact ⟨[], rfl, rfl⟩
  | cons x ts =>
    rw [State.unexpected_eq]
    exact ⟨[.node .unexpected _], rfl, Green.sightOf_node _ _ _⟩

/-! ## Nodes of lists -/

namespace Fills

/-- A list. -/
theorem listAs {holds : Green → Prop} {kind : Kind} {p : Parser α} {hk : kind.isConstruct}
    (hkind : kind.hasElements) (hbracket : kind.isBracketList = false)
    (h : p.Lists test fun _ => True) (hholds : ∀ cs, holds (.node kind cs)) :
    (Grammar.node kind p hk).Fills test holds fun _ => True := by
  intro s hs hbuilt
  refine meets_node (meets_mono (h s.ahead [] hs) fun _ t ⟨gs, hgs, _, hapart⟩ _ => ?_)
  have hparts : t.built.reverse = gs := by simp [hgs]
  rw [hparts]
  refine ⟨Green.placed_of_hasElements hkind hapart fun hk => ?_, trivial, .node (hholds gs) hbuilt⟩
  exact absurd hk (Bool.eq_false_iff.mp hbracket)

theorem list {kind : Kind} {p : Parser α} {hk : kind.isConstruct} (hkind : kind.hasElements)
    (hbracket : kind.isBracketList = false) (h : p.Lists test fun _ => True) :
    (Grammar.node kind p hk).Calm test := listAs hkind hbracket h fun _ => trivial

/-- A list of a kind that the rule inside answers. -/
theorem listBy {p : Parser (Construct × α)}
    (h : p.Lists test fun a => a.1.1.hasElements ∧ a.1.1.isBracketList = false) :
    (Grammar.nodeBy p).Calm test := by
  intro s hs _
  refine meets_nodeBy (meets_mono (h s.ahead [] hs) fun a t ⟨gs, hgs, hkind, hapart⟩ _ => ?_)
  have hparts : t.built.reverse = gs := by simp [hgs]
  rw [hparts]
  refine ⟨Green.placed_of_hasElements hkind.1 hapart fun hk => ?_, trivial, .any _⟩
  exact absurd hk (Bool.eq_false_iff.mp hkind.2)

end Fills

end Grammar.Parser

end SwiftTree
