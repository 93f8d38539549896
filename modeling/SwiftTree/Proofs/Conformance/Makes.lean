import Mathlib.Data.Bool.Basic
import SwiftTree.Proofs.Conformance
import SwiftTree.Proofs.Progress.Moves

/-!
# Rules that make shapes

Rules are put together from others, and so are the shapes of what they add. `Parser.Makes` says of a
rule that from certain tokens it adds trees of a shape, each node of which is as it should be. What
rules add can be taken apart just as rules are written (`Makes.seq`, `Makes.branch`, `Makes.node`,
…). Where the answer of a rule, or what comes behind it, says more about what it adds, `Parser.Adds`
keeps it. A rule that only puts nodes around the newest tree `Wraps` it.
-/

namespace SwiftTree

namespace Shape.Matches

variable {a b : Shape} {kinds kinds' : Kind → Bool} {xs ys : List Green}

/-- A token of one of some kinds is one of more kinds. -/
theorem token_mono (h : ∀ k, kinds k → kinds' k) (hx : (Shape.token kinds).Matches xs) :
    (Shape.token kinds').Matches xs := by
  cases hx with
  | token hk => exact .token (h _ hk)

/-- A node of one of some kinds is one of more kinds. -/
theorem node_mono (h : ∀ k, kinds k → kinds' k) (hx : (Shape.node kinds).Matches xs) :
    (Shape.node kinds').Matches xs := by
  cases hx with
  | node hk => exact .node (h _ hk)

/-- What has the shape of a node is one node. -/
theorem exists_node (h : (Shape.node kinds).Matches xs) :
    ∃ kind cs, xs = [.node kind cs] ∧ kinds kind := by
  cases h with
  | node hk => exact ⟨_, _, rfl, hk⟩

/-- What has the shape of a token is one token that was read. -/
theorem exists_token (h : (Shape.token kinds).Matches xs) :
    ∃ t : Token.Outline, xs = [.leaf (.present t)] ∧ kinds t.kind := by
  cases h with
  | token hk => exact ⟨_, rfl, hk⟩

/-- What has the shape of a needed token is one leaf of this kind, be it read or missing. -/
theorem exists_leaf {k : Kind} (h : (Shape.needed k).Matches xs) :
    ∃ l : Green.Leaf, xs = [.leaf l] ∧ l.kind = k := by
  cases h with
  | left h =>
    obtain ⟨t, rfl, ht⟩ := h.exists_token
    exact ⟨_, rfl, beq_iff_eq.mp ht⟩
  | right h =>
    cases h with
    | missing hk => exact ⟨_, rfl, beq_iff_eq.mp hk⟩

/-- A token of a kind, read or missing, is one of every kind among which that one is. -/
theorem needed_among {k : Kind} (h : (Shape.needed k).Matches xs) (hk : kinds k) :
    (Shape.alt (.token kinds) (.missing kinds)).Matches xs := by
  cases h with
  | left h => exact .left (h.token_mono fun _ hj => by rwa [beq_iff_eq.mp hj])
  | right h =>
    cases h with
    | missing hj hs => exact .right (.missing (by rwa [beq_iff_eq.mp hj]) hs)

theorem once (h : a.Matches xs) : (Shape.many a).Matches xs := by
  simpa using Matches.more h .none

/-- Two sequences of parts of a shape are one sequence of them. -/
theorem append (hx : (Shape.many a).Matches xs) (hy : (Shape.many a).Matches ys) :
    (Shape.many a).Matches (xs ++ ys) := by
  generalize he : Shape.many a = s at hx
  induction hx with
  | none =>
    cases he
    exact hy
  | more hx _ _ ih =>
    cases he
    rw [List.append_assoc]
    exact .more hx (ih rfl)
  | _ => cases he

/-- Nothing before a shape is nothing. -/
theorem of_nothing_seq (h : (Shape.seq .nothing a).Matches xs) : a.Matches xs := by
  cases h with
  | seq hx hy =>
    cases hx
    exact hy

/-- Nothing behind a shape is nothing. -/
theorem of_seq_nothing (h : (Shape.seq a .nothing).Matches xs) : a.Matches xs := by
  cases h with
  | seq hx hy =>
    cases hy
    rwa [List.append_nil]

end Shape.Matches

/-- What has to be in a node without operators of its own for it to be one of some kinds. -/
def Kind.contents (kinds : Kind → Bool) (kind : Kind) : Shape :=
  bif kinds kind then kind.plainShape else .never

/-- Parts that fit one of several kinds have the shape that is known of the kind, and the kind is
one of these. -/
theorem Shape.Matches.of_contents {kinds : Kind → Bool} {kind : Kind} {xs : List Green}
    (h : (kind.contents kinds).Matches xs) : kind.plainShape.Matches xs ∧ kinds kind := by
  unfold Kind.contents at h
  cases hkind : kinds kind with
  | true =>
    rw [hkind] at h
    exact ⟨h, rfl⟩
  | false =>
    rw [hkind] at h
    exact absurd h not_matches_never

namespace Grammar

/-- Whether a token of one of some kinds stands here. The end of the text is no such token. -/
def Ahead.heads (kinds : Kind → Bool) (ts : Ahead) : Bool := !kinds .endOfFile && kinds ts.kind

/-- Where a token of one of some kinds stands, there is a token. -/
theorem Ahead.exists_of_heads {kinds : Kind → Bool} {ts : Ahead} (h : ts.heads kinds) :
    ∃ x us, ts = x :: us ∧ kinds x.kind := by
  rw [heads, Bool.and_eq_true, Bool.not_eq_true'] at h
  cases ts with
  | nil => exact absurd h.2 (Bool.eq_false_iff.mp h.1)
  | cons x us => exact ⟨x, us, rfl, h.2⟩

theorem Ahead.heads_of_kind {kinds : Kind → Bool} {k : Kind} {ts : Ahead} (h : ts.kind = k)
    (hk : !kinds .endOfFile && kinds k) : ts.heads kinds := by
  rwa [heads, h]

/-- A token other than the end of the text that stands here is one of its kind. -/
theorem Ahead.heads_of_isAt {k : Kind} (hk : k ≠ .endOfFile) {ts : Ahead} (h : ts.isAt k) :
    ts.heads (· == k) := by
  rw [heads, Bool.and_eq_true, Bool.not_eq_true']
  exact ⟨beq_false_of_ne hk.symm, h⟩

/-- A name can be taken as the keyword that it spells. -/
theorem Ahead.mayTake_of_isWord {s : String} {k : Kind} {hk : k.isSolid} {ts : Ahead}
    (hs : k.fixedText = some s) (hcontextual : k.isContextual) (h : ts.isWord s) :
    ts ≠ [] ∧ ts.MayTake (some ⟨k, hk⟩) := by
  refine ⟨ne_nil_of_isWord h, ?_⟩
  intro j hj x hx
  obtain rfl := Option.some.inj hj
  simp only [isWord, isAt, isSpelled, Bool.and_eq_true, beq_iff_eq] at h
  cases ts with
  | nil => cases hx
  | cons y us =>
    obtain rfl := Option.some.inj hx
    refine .inr (.inl ⟨h.1, hcontextual, ?_⟩)
    exact .of_some (by rw [hs, Option.map_some]; exact congrArg some h.2.symm)

/-- A word that is a keyword only here may be taken as this keyword. -/
theorem Ahead.mayTake_of_isKeywordWord {k : Kind} {hk : k.isSolid} {ts : Ahead}
    (hcontextual : k.isContextual) (h : ts.isKeywordWord k) :
    ts ≠ [] ∧ ts.MayTake (some ⟨k, hk⟩) := by
  rw [isKeywordWord, Option.any_eq_true] at h
  obtain ⟨s, hs, hword⟩ := h
  exact mayTake_of_isWord hs hcontextual hword

namespace Parser

/-- From tokens that pass the test, the rule adds trees that are as they should be, and of which
something is known, given the answer and the tokens behind. -/
def Adds {α : Type} (test : Ahead → Prop) (given : α → Ahead → List Green → Prop)
    (p : Parser α) : Prop :=
  ∀ ts built, test ts → p.yields ⟨ts, built⟩ fun a t =>
    ∃ gs, t.built = gs.reverse ++ built ∧ Green.StrictAll gs ∧ given a t.ahead gs

/-- From tokens that pass the test, the rule adds trees of a shape. -/
abbrev Makes {α : Type} (test : Ahead → Prop) (shape : Shape) (p : Parser α) : Prop :=
  p.Adds test fun _ _ => shape.Matches

/-- From tokens that pass the test, the rule makes the newest tree, a node of one of some kinds,
part of another such node, or leaves it as it is. -/
def Wraps {α : Type} (test : Ahead → Prop) (kinds : Kind → Bool) (p : Parser α) : Prop :=
  ∀ ts g built, test ts → g.Strict → (Shape.node kinds).Matches [g] →
    p.yields ⟨ts, g :: built⟩ fun _ t =>
      ∃ h : Green, t.built = h :: built ∧ h.Strict ∧ (Shape.node kinds).Matches [h]

variable {α β : Type} {test : Ahead → Prop}

theorem yields_node {kind : Kind} {body : Parser α} {hk : kind.isConstruct} {s : State Forest}
    {post : α → State Forest → Prop} : (node kind body hk).yields s post =
      body.yields s.enter.2 fun a t => post a (t.leave s.enter.1 (some kind)) := rfl

theorem yields_nodeBy {body : Parser (Construct × α)} {s : State Forest}
    {post : α → State Forest → Prop} : (nodeBy body).yields s post =
      body.yields s.enter.2 fun a t => post a.2 (t.leave s.enter.1 (some a.1.1)) := rfl

theorem yields_nodeIf {kind : Kind} {body : Parser Bool} {hk : kind.isConstruct} {s : State Forest}
    {post : Bool → State Forest → Prop} : (nodeIf kind body hk).yields s post =
      body.yields s.enter.2 fun found t => post found (t.leave s.enter.1
        ((if found then some ⟨kind, hk⟩ else none : Option Construct).map Subtype.val)) := rfl

/-- A node opens around the newest tree if that is one. -/
theorem yields_enclose {kind k : Kind} {body : Parser α} {hk : kind.isConstruct} {ts : Ahead}
    {cs : List Green} {built : Forest} {post : α → State Forest → Prop} :
    (Grammar.enclose kind body hk).yields ⟨ts, .node k cs :: built⟩ post =
      body.yields ⟨ts, []⟩ fun a t =>
        post a ⟨t.ahead, .node kind (.node k cs :: t.built.reverse) :: built⟩ := rfl

/-- Eating a word that is a keyword only here takes it as this keyword if it stands here, and does
nothing otherwise. -/
theorem yields_eatWord {k : Kind} {hk : k.isSolid} {s : State Forest}
    {post : Bool → State Forest → Prop} : (eatWord k hk).yields s post =
      if s.ahead.isKeywordWord k then
        s.ahead.MayTake (some ⟨k, hk⟩) ∧ post true (s.take (some ⟨k, hk⟩))
      else post false s := by
  show Parser.yields (if s.ahead.isKeywordWord k then _ else _) s _ = _
  split <;> rfl

namespace Adds

variable {given given' : α → Ahead → List Green → Prop}

/-- What a rule adds may be asked for less often, and less may be known of it. -/
theorem mono {test' : Ahead → Prop} {p : Parser α} (h : p.Adds test given)
    (ht : ∀ ts, test' ts → test ts) (hg : ∀ a us gs, given a us gs → given' a us gs) :
    p.Adds test' given' := by
  intro ts built hts
  refine yields_mono (h ts built (ht ts hts)) ?_
  rintro a t ⟨gs, hbuilt, hstrict, hgiven⟩
  exact ⟨gs, hbuilt, hstrict, hg a _ gs hgiven⟩

/-- What is known of what a rule adds can be learnt bit by bit. -/
theorem and {p : Parser α} (h : p.Adds test given) (h' : p.Adds test given') :
    p.Adds test fun a us gs => given a us gs ∧ given' a us gs := by
  intro ts built hts
  refine yields_mono (yields_and (h ts built hts) (h' ts built hts)) ?_
  rintro a t ⟨⟨gs, hbuilt, hstrict, hgiven⟩, gs', hbuilt', -, hgiven'⟩
  obtain rfl : gs = gs' := by simpa [hbuilt] using hbuilt'
  exact ⟨gs, hbuilt, hstrict, hgiven, hgiven'⟩

/-- A step that adds nothing. -/
theorem still {p : Parser α} (hp : ∀ ts built, test ts → p.yields ⟨ts, built⟩ fun a t =>
    t.built = built ∧ given a t.ahead []) : p.Adds test given := by
  intro ts built hts
  refine yields_mono (hp ts built hts) ?_
  rintro a t ⟨hbuilt, hgiven⟩
  exact ⟨[], hbuilt, trivial, hgiven⟩

theorem answer {a : α} (h : ∀ ts, test ts → given a ts []) :
    (Pure.pure a : Parser α).Adds test given := still fun ts _ hts => ⟨rfl, h ts hts⟩

/-- What is known of where a rule comes to can be learnt apart. -/
theorem standing {p : Parser α} {at' : α → Ahead → Prop} (h : p.Adds test given)
    (h' : ∀ ts built, test ts → p.yields ⟨ts, built⟩ fun a t => at' a t.ahead) :
    p.Adds test fun a us gs => given a us gs ∧ at' a us := by
  intro ts built hts
  refine yields_mono (yields_and (h ts built hts) (h' ts built hts)) ?_
  rintro a t ⟨⟨gs, hbuilt, hstrict, hgiven⟩, hat⟩
  exact ⟨gs, hbuilt, hstrict, hgiven, hat⟩

/-- One rule behind another, of which it is known what it does at each place. -/
theorem bindAt {first : Parser α} {next : α → Parser β}
    {behind : α → Ahead → β → Ahead → List Green → Prop} {all : β → Ahead → List Green → Prop}
    (h : first.Adds test given)
    (hnext : ∀ a us gs, given a us gs → (next a).Adds (fun ts => ts = us) (behind a us))
    (hall : ∀ a us gs b vs hs, given a us gs → behind a us b vs hs → all b vs (gs ++ hs)) :
    (first >>= next).Adds test all := by
  intro ts built hts
  rw [yields_bind]
  refine yields_mono (h ts built hts) ?_
  rintro a ⟨us, _⟩ ⟨gs, rfl, hstrict, hgiven⟩
  refine yields_mono (hnext a us gs hgiven us _ rfl) ?_
  rintro b t ⟨hs, hbuilt, hstrict', hbehind⟩
  refine ⟨gs ++ hs, ?_, Green.deepAll_append.mpr ⟨hstrict, hstrict'⟩,
    hall a us gs b _ hs hgiven hbehind⟩
  rw [hbuilt, List.reverse_append, List.append_assoc]

/-- One rule behind another. -/
theorem bind {first : Parser α} {next : α → Parser β} {behind : α → β → Ahead → List Green → Prop}
    {all : β → Ahead → List Green → Prop} (h : first.Adds test given)
    (hnext : ∀ a, (next a).Adds (fun us => ∃ gs, given a us gs) (behind a))
    (hall : ∀ a us gs b vs hs, given a us gs → behind a b vs hs → all b vs (gs ++ hs)) :
    (first >>= next).Adds test all :=
  bindAt h (fun a _ gs hgs => mono (hnext a) (fun _ hus => hus ▸ ⟨gs, hgs⟩) fun _ _ _ h => h) hall

/-- A rule that knows what stands before what it adds. -/
theorem onto {first : Parser α} {next : α → Parser β} {all : β → Ahead → List Green → Prop}
    (h : first.Adds test given) (hnext : ∀ a, (next a).Adds (fun _ => True) fun b us hs =>
      ∀ vs gs, given a vs gs → all b us (gs ++ hs)) : (first >>= next).Adds test all :=
  bind h (fun a => mono (hnext a) (fun _ _ => trivial) fun _ _ _ h => h)
    fun _ us gs _ _ _ hgs hall => hall us gs hgs

/-- A rule that knows the shape of what stands before what it adds, and where it starts. -/
theorem passing {first : Parser α} {next : α → Parser β} {test' : Ahead → Prop} {shape : α → Shape}
    {all : β → Ahead → List Green → Prop}
    (h : first.Adds test fun a us gs => test' us ∧ (shape a).Matches gs)
    (hnext : ∀ a, (next a).Adds test' fun b us hs =>
      ∀ gs, (shape a).Matches gs → all b us (gs ++ hs)) :
    (first >>= next).Adds test all :=
  bind h (fun a => mono (hnext a) (fun _ hus => hus.choose_spec.1) fun _ _ _ h => h)
    fun _ _ gs _ _ _ hgs hall => hall gs hgs.2

/-- A rule that knows the shape of what stands before what it adds. -/
theorem before {first : Parser α} {next : α → Parser β} {shape : α → Shape}
    {all : β → Ahead → List Green → Prop} (h : first.Adds test fun a _ => (shape a).Matches)
    (hnext : ∀ a, (next a).Adds (fun _ => True) fun b us hs =>
      ∀ gs, (shape a).Matches gs → all b us (gs ++ hs)) :
    (first >>= next).Adds test all :=
  passing (mono h (fun _ h => h) fun _ _ _ hgs => ⟨trivial, hgs⟩) hnext

/-- An answer behind what was added. -/
theorem returns {first : Parser α} {f : α → β} {all : β → Ahead → List Green → Prop}
    (h : first.Adds test given) (hall : ∀ a us gs, given a us gs → all (f a) us gs) :
    (first >>= fun a => Pure.pure (f a)).Adds test all := by
  intro ts built hts
  rw [yields_bind]
  refine yields_mono (h ts built hts) ?_
  rintro a t ⟨gs, hbuilt, hstrict, hgiven⟩
  exact ⟨gs, hbuilt, hstrict, hall a _ gs hgiven⟩

/-- A rule that depends on a look at the tokens ahead. -/
theorem look {f : Ahead → β} {next : β → Parser α}
    (h : ∀ b, (next b).Adds (fun ts => test ts ∧ f ts = b) given) :
    (Grammar.look f >>= next).Adds test given :=
  fun ts built hts => h (f ts) ts built ⟨hts, rfl⟩

/-- One of two rules, by a test of the tokens ahead. -/
theorem branch {f : Ahead → Bool} {p q : Parser α}
    (hp : p.Adds (fun ts => test ts ∧ f ts = true) given)
    (hq : q.Adds (fun ts => test ts ∧ f ts = false) given) :
    (Grammar.look f >>= fun b => if b then p else q).Adds test given := by
  refine look ?_
  rintro (_ | _)
  · exact hq
  · exact hp

/-- A node, whose kind the rule inside may know. -/
theorem nodeBy {p : Parser (Construct × α)}
    (h : p.Adds test fun a us gs =>
      Green.Exact a.1.1 gs ∧ given a.2 us [.node a.1.1 gs]) :
    (Grammar.nodeBy p).Adds test given := by
  intro ts built hts
  rw [yields_nodeBy]
  refine yields_mono (h ts [] hts) ?_
  rintro a ⟨us, _⟩ ⟨gs, rfl, hstrict, hexact, hgiven⟩
  refine ⟨[.node a.1.1 gs], ?_, ⟨⟨hexact, hstrict⟩, trivial⟩, hgiven⟩
  show Green.node a.1.1 ([] ++ (gs.reverse ++ []).reverse) :: built = _
  simp

/-- A rule within a node adds one node of this kind, if what it adds makes the node exact. -/
theorem node {kind : Kind} {p : Parser α} {hk : kind.isConstruct}
    (h : p.Adds test fun a us gs => Green.Exact kind gs ∧ given a us [.node kind gs]) :
    (Grammar.node kind p hk).Adds test given := by
  intro ts built hts
  rw [yields_node]
  refine yields_mono (h ts [] hts) ?_
  rintro a ⟨us, _⟩ ⟨gs, rfl, hstrict, hexact, hgiven⟩
  refine ⟨[.node kind gs], ?_, ⟨⟨hexact, hstrict⟩, trivial⟩, hgiven⟩
  show Green.node kind ([] ++ (gs.reverse ++ []).reverse) :: built = _
  simp

/-- A node that is made only if the rule inside says so. -/
theorem nodeIf {kind : Kind} {p : Parser Bool} {given : Bool → Ahead → List Green → Prop}
    {hk : kind.isConstruct}
    (h : p.Adds test fun found us gs =>
      if found then Green.Exact kind gs ∧ given true us [.node kind gs] else given false us gs) :
    (Grammar.nodeIf kind p hk).Adds test given := by
  intro ts built hts
  rw [yields_nodeIf]
  refine yields_mono (h ts [] hts) ?_
  rintro (_ | _) ⟨us, _⟩ ⟨gs, rfl, hstrict, hgiven⟩
  · refine ⟨gs, ?_, hstrict, hgiven⟩
    show gs.reverse ++ [] ++ [] ++ built = _
    simp
  · refine ⟨[.node kind gs], ?_, ⟨⟨hgiven.1, hstrict⟩, trivial⟩, hgiven.2⟩
    show Green.node kind ([] ++ (gs.reverse ++ []).reverse) :: built = _
    simp

/-- A node that is made of the newest tree, which is one, and of what a rule adds. -/
theorem enclose {kind : Kind} {p : Parser α} {hk : kind.isConstruct}
    (h : p.Adds test given) {ts : Ahead} {g : Green} {kinds : Kind → Bool} {built : Forest}
    (hts : test ts) (hg : (Shape.node kinds).Matches [g]) (hstrict : g.Strict)
    {post : α → State Forest → Prop}
    (hpost : ∀ a us gs, given a us gs → Green.StrictAll (g :: gs) →
      post a ⟨us, .node kind (g :: gs) :: built⟩) :
    (Grammar.enclose kind p hk).yields ⟨ts, g :: built⟩ post := by
  obtain ⟨k, cs, hcons, -⟩ := hg.exists_node
  obtain rfl := (List.cons.inj hcons).1
  rw [yields_enclose]
  refine yields_mono (h ts [] hts) ?_
  rintro a ⟨us, _⟩ ⟨gs, rfl, hstrict', hgiven⟩
  have hall := hpost a us gs hgiven ⟨hstrict, hstrict'⟩
  simpa using hall

/-- A goal adds the tree that it gives. -/
theorem call {g : Goal} : (Grammar.call g).Adds test fun missing ts gs =>
    ∃ t, gs = [t] ∧ g.Fits missing ts t := by
  intro ts built _ missing us t ht
  exact ⟨[t], rfl, ⟨ht.strict, trivial⟩, t, rfl, ht.toFits⟩

/-- At `if` a statement is an `if` statement. -/
theorem callIf (h : ∀ ts, test ts → ts.isAt .ifKw) : (Grammar.call .statement).Adds test
    fun _ _ => (Shape.one .ifStmt).Matches := by
  intro ts built hts missing us t ht
  exact ⟨[t], rfl, ⟨ht.strict, trivial⟩, ht.isIf rfl (h ts hts)⟩

/-- A loop. Where a round may start is up to its own test. -/
theorem repeatWhile {start : Ahead → Prop} {a : Shape} {body : Parser Bool}
    (h : body.Adds start fun more us gs => (Shape.many a).Matches gs ∧ (more = true → start us))
    (ht : ∀ ts, test ts → start ts) : (Grammar.repeatWhile body).Makes test (.many a) := by
  intro ts built hts
  refine ⟨fun t => start t.ahead ∧ ∃ gs, t.built = gs.reverse ++ built ∧
    Green.StrictAll gs ∧ (Shape.many a).Matches gs, ⟨ht ts hts, [], rfl, trivial, .none⟩, ?_⟩
  rintro ⟨us, _⟩ ⟨hus, gs, rfl, hstrict, hgs⟩
  rw [yields_bind]
  refine yields_mono (h us _ hus) ?_
  rintro more ⟨vs, _⟩ ⟨hs, rfl, hstrict', hhs, hmore⟩
  have hall : ∃ xs : List Green, hs.reverse ++ (gs.reverse ++ built) = xs.reverse ++ built ∧
      Green.StrictAll xs ∧ (Shape.many a).Matches xs := by
    refine ⟨gs ++ hs, ?_, Green.deepAll_append.mpr ⟨hstrict, hstrict'⟩, hgs.append hhs⟩
    rw [List.reverse_append, List.append_assoc]
  cases more with
  | true => exact ⟨hmore rfl, hall⟩
  | false => exact hall

end Adds

namespace Makes

variable {a b : Shape} {kinds kinds' : Kind → Bool}

theorem mono {test' : Ahead → Prop} {p : Parser α} (h : p.Makes test a)
    (ht : ∀ ts, test' ts → test ts) : p.Makes test' a := Adds.mono h ht fun _ _ _ h => h

theorem reshape {p : Parser α} (h : p.Makes test a) (hs : ∀ gs, a.Matches gs → b.Matches gs) :
    p.Makes test b := Adds.mono h (fun _ h => h) fun _ _ => hs

theorem left {p : Parser α} (h : p.Makes test a) : p.Makes test (.alt a b) :=
  h.reshape fun _ => .left

theorem right {p : Parser α} (h : p.Makes test b) : p.Makes test (.alt a b) :=
  h.reshape fun _ => .right

theorem once {p : Parser α} (h : p.Makes test a) : p.Makes test (.many a) :=
  h.reshape fun _ => .once

theorem among {p : Parser α} (h : p.Makes test (.node kinds)) (hs : ∀ k, kinds k → kinds' k) :
    p.Makes test (.node kinds') := h.reshape fun _ => .node_mono hs

theorem of_one {kind : Kind} {p : Parser α} (h : p.Makes test (Shape.one kind))
    (hkind : kinds kind) :
    p.Makes test (.node kinds) := h.among fun k hk => by rwa [beq_iff_eq.mp hk]

/-- No tokens pass the test. -/
theorem never {p : Parser α} (h : ∀ ts, ¬test ts) : p.Makes test a :=
  fun ts _ hts => absurd hts (h ts)

theorem pure (x : α) : (Pure.pure x : Parser α).Makes test .nothing :=
  Adds.answer fun _ _ => .nothing

/-- Nothing is one way to be optional. -/
theorem none (x : α) : (Pure.pure x : Parser α).Makes test (Shape.opt a) := (pure x).right

/-- One rule behind another, of which it is known what it adds and what it leaves. -/
theorem behind {first : Parser α} {next : α → Parser β} {given : α → Ahead → List Green → Prop}
    (rest : α → Shape) (h : first.Adds test given)
    (hnext : ∀ x, (next x).Makes (fun us => ∃ gs, given x us gs) (rest x))
    (hall : ∀ x us gs hs, given x us gs → (rest x).Matches hs → a.Matches (gs ++ hs)) :
    (first >>= next).Makes test a :=
  Adds.bind h hnext fun x us gs _ _ hs => hall x us gs hs

theorem seq {first : Parser α} {next : α → Parser β} (h : first.Makes test a)
    (hnext : ∀ x, (next x).Makes (fun _ => True) b) : (first >>= next).Makes test (.seq a b) :=
  behind (fun _ => b) h (fun x => (hnext x).mono fun _ _ => trivial) fun _ _ _ _ => .seq

/-- A rule behind one that tells by its answer what it has added. -/
theorem seqIf {first : Parser Bool} {next : Bool → Parser β} {b b' s : Shape}
    (h : first.Adds test fun x _ => Shape.Matches (if x then a else b))
    (htrue : (next true).Makes (fun _ => True) b') (hfalse : (next false).Makes (fun _ => True) s) :
    (first >>= next).Makes test (.alt (.seq a b') (.seq b s)) := by
  refine behind (fun x => if x then b' else s) h ?_ ?_
  · rintro (_ | _)
    · exact hfalse.mono fun _ _ => trivial
    · exact htrue.mono fun _ _ => trivial
  · rintro (_ | _) us gs hs hgs hhs
    · exact .right (.seq hgs hhs)
    · exact .left (.seq hgs hhs)

/-- A rule behind a step that adds nothing if it answers `false`. -/
theorem seqOr {first : Parser Bool} {next : Bool → Parser β} {b' : Shape}
    (h : first.Adds test fun x _ => Shape.Matches (if x then a else .nothing))
    (htrue : (next true).Makes (fun _ => True) b) (hfalse : (next false).Makes (fun _ => True) b') :
    (first >>= next).Makes test (.alt (.seq a b) b') := by
  refine (seqIf h htrue hfalse).reshape fun gs hgs => ?_
  cases hgs with
  | left hgs => exact .left hgs
  | right hgs => exact .right hgs.of_nothing_seq

/-- A step that adds something if it answers `true`, and otherwise another rule. -/
theorem orElse {first : Parser Bool} {p q : Parser β} {s : Shape}
    (h : first.Adds test fun x _ => Shape.Matches (if x then a else .nothing))
    (hp : p.Makes (fun _ => True) .nothing) (hq : q.Makes (fun _ => True) s)
    (ha : ∀ gs, a.Matches gs → s.Matches gs) :
    (first >>= fun x => if x then p else q).Makes test s := by
  refine (seqOr h hp hq).reshape fun gs hgs => ?_
  cases hgs with
  | left hgs => exact ha gs hgs.of_seq_nothing
  | right hgs => exact hgs

/-- Only the first of two rules adds something. -/
theorem thenNothing {first : Parser α} {next : α → Parser β} (h : first.Makes test a)
    (hnext : ∀ x, (next x).Makes (fun _ => True) .nothing) : (first >>= next).Makes test a :=
  (seq h hnext).reshape fun _ => Shape.Matches.of_seq_nothing

theorem thenPure {first : Parser α} {x : α → β} (h : first.Makes test a) :
    (first >>= fun y => Pure.pure (x y)).Makes test a := thenNothing h fun y => pure (x y)

theorem look {f : Ahead → β} {next : β → Parser α}
    (h : ∀ x, (next x).Makes (fun ts => test ts ∧ f ts = x) a) :
    (Grammar.look f >>= next).Makes test a := Adds.look h

theorem branch {f : Ahead → Bool} {p q : Parser α}
    (hp : p.Makes (fun ts => test ts ∧ f ts = true) a)
    (hq : q.Makes (fun ts => test ts ∧ f ts = false) a) :
    (Grammar.look f >>= fun x => if x then p else q).Makes test a := Adds.branch hp hq

/-- A rule that is followed under a test. -/
theorem ifAhead {f : Ahead → Bool} {p : Parser Unit}
    (h : p.Makes (fun ts => test ts ∧ f ts = true) a) :
    (Grammar.ifAhead f p).Makes test (Shape.opt a) := branch h.left (pure ()).right

/-- A rule that is followed under a condition. -/
theorem onlyIf {x : Bool} {p : Parser Unit} (h : p.Makes test a) :
    (Grammar.onlyIf x p).Makes test (if x then a else .nothing) := by
  cases x
  · exact pure ()
  · exact h

/-- A rule that a flag turns off adds what it would add, or nothing. -/
theorem onlyIf_opt {x : Bool} {p : Parser Unit} (h : p.Makes test a) :
    (Grammar.onlyIf x p).Makes test (Shape.opt a) := by
  cases x
  · exact none ()
  · exact h.left

/-- A rule within a node makes one of some kinds, if the parts that it adds fit a node of one of
these kinds. -/
theorem node {kind : Kind} {p : Parser α} {hk : kind.isConstruct}
    (h : p.Makes test (kind.contents kinds)) : (Grammar.node kind p hk).Makes test (.node kinds) :=
  Adds.node (Adds.mono h (fun _ h => h) fun _ _ _ hgs =>
    ⟨Green.exact_plain hgs.of_contents.1, .node hgs.of_contents.2⟩)

theorem emptyNode {kind : Kind} {hk : kind.isConstruct} (h : (kind.contents kinds).Matches []) :
    (Grammar.emptyNode kind hk).Makes test (.node kinds) := node (Adds.answer fun _ _ => h)

/-- An empty node reads nothing. -/
theorem emptyNode_keeps {kind : Kind} {hk : kind.isConstruct} (h : kind.plainShape.Matches []) :
    (Grammar.emptyNode kind hk).Adds test
      fun _ us gs => test us ∧ (Shape.one kind).Matches gs :=
  Adds.node (Adds.answer fun _ hts =>
    ⟨Green.exact_plain h, hts, .node (beq_self_eq_true kind)⟩)

/-! ### Steps -/

/-- The next token, of which the kind is known. -/
theorem advance (h : ∀ ts, test ts → ts.heads kinds) :
    Grammar.advance.Makes test (.token kinds) := by
  intro ts built hts
  obtain ⟨x, us, rfl, hkind⟩ := Ahead.exists_of_heads (h ts hts)
  exact ⟨Ahead.mayTake_none _, [Green.token x.token], rfl, ⟨trivial, trivial⟩, .token hkind⟩

theorem advanceAt {k : Kind} (h : ∀ ts, test ts → ts.isAt k) (hk : k ≠ .endOfFile) :
    Grammar.advance.Makes test (Shape.tok k) := advance fun ts hts => Ahead.heads_of_isAt hk
  (h ts hts)

/-- The next token, of which also is known what comes behind it. -/
theorem advancePast {test' : Ahead → Prop} (h : ∀ ts, test ts → ts.heads kinds)
    (ht : ∀ ts, test ts → test' ts.tail) :
    Grammar.advance.Adds test fun _ us gs => test' us ∧ (Shape.token kinds).Matches gs := by
  intro ts built hts
  obtain ⟨hmay, gs, hbuilt, hstrict, hgs⟩ := advance h ts built hts
  refine ⟨hmay, gs, hbuilt, hstrict, ?_, hgs⟩
  cases ts <;> exact ht _ hts

/-- A rule behind the next token sees what was behind it. -/
theorem advanceThen {test' : Ahead → Prop} {next : Unit → Parser α}
    (h : ∀ ts, test ts → ts.heads kinds) (hnext : (next ()).Makes test' b)
    (ht : ∀ ts, test ts → test' ts.tail) :
    (Grammar.advance >>= next).Makes test (.seq (.token kinds) b) :=
  Adds.passing (advancePast h ht) fun _ => Adds.mono hnext (fun _ h => h)
    fun _ _ _ hhs _ hgs => .seq hgs hhs

/-- Any tokens. -/
theorem advanceBy (n : Nat) :
    (Grammar.advanceBy n).Makes (fun _ => True) (.many (.token fun _ => true)) := by
  induction n with
  | zero => exact Adds.answer fun _ _ => .none
  | succ n ih =>
    intro ts built _
    cases ts with
    | nil => exact ⟨Ahead.mayTake_none _, ih [] built trivial⟩
    | cons x us =>
      refine ⟨Ahead.mayTake_none _, yields_mono (ih us (Green.token x.token :: built) trivial) ?_⟩
      rintro a t ⟨gs, hbuilt, hstrict, hgs⟩
      refine ⟨Green.token x.token :: gs, by simp [hbuilt], ⟨trivial, hstrict⟩, ?_⟩
      exact .more (.token rfl) hgs

/-- The next token, as a keyword that it spells. -/
theorem advanceAs {k : Kind} {hk : k.isSolid}
    (h : ∀ ts, test ts → ts ≠ [] ∧ ts.MayTake (some ⟨k, hk⟩)) (hkind : kinds k) :
    (Grammar.advanceAs k hk).Makes test (.token kinds) := by
  intro ts built hts
  obtain ⟨hne, hmay⟩ := h ts hts
  cases ts with
  | nil => exact absurd rfl hne
  | cons x us => exact ⟨hmay, [_], rfl, ⟨trivial, trivial⟩, .token hkind⟩

theorem missingSpelled {k : Kind} {spelling : Text} {hk : k.isSolid} (h : kinds k)
    (hs : k.Lacks spelling) : (Grammar.missingSpelled k spelling hk).Makes test (.missing kinds) :=
  fun _ _ _ => ⟨[Green.missing k spelling], rfl, ⟨trivial, trivial⟩, .missing h hs⟩

theorem missing {k : Kind} {hk : k.isSolid} (h : kinds k) :
    (Grammar.missing k hk).Makes test (.missing kinds) := missingSpelled h (.inr rfl)

/-- A placeholder is a node without parts. -/
theorem placeholder {k : Kind} {hk : k.isMissingNode} (h : (k.contents kinds).Matches []) :
    (Grammar.placeholder k hk).Makes test (.node kinds) :=
  fun _ _ _ => ⟨[.node k []], rfl, ⟨⟨Green.exact_plain h.of_contents.1, trivial⟩, trivial⟩,
    .node h.of_contents.2⟩

/-- Text that no rule wants, if there is any. -/
theorem unexpected (n : Nat) : (Grammar.unexpected n).Makes test Shape.skipped := by
  intro ts built _
  cases ts with
  | nil => exact ⟨[], rfl, trivial, .right .nothing⟩
  | cons x us =>
    have hall : ∀ xs : Ahead, (Shape.many (.token fun _ => true)).Matches
        (xs.map fun x => Green.token x.token) ∧
        Green.StrictAll (xs.map fun x => Green.token x.token) := by
      intro xs
      induction xs with
      | nil => exact ⟨.none, trivial⟩
      | cons x xs ih => exact ⟨.more (.token rfl) ih.1, trivial, ih.2⟩
    obtain ⟨hshape, hstrict⟩ := hall ((x :: us).take (n + 1))
    refine ⟨[.node .unexpected (((x :: us).take (n + 1)).map fun y : Lexeme => .token y.token)], ?_,
      ⟨⟨Green.exact_plain ?_, hstrict⟩, trivial⟩, .left (.node rfl)⟩
    · rw [State.unexpected_cons]
      show Green.node .unexpected ([] ++ (addAll _ ([] : Forest)).reverse) :: built = _
      rw [Forest.addAll_eq]
      simp
    · exact hshape

/-- What is noted is no part of a tree. -/
theorem override {start : Nat} {diagnostic : Nat → Diagnostic} :
    (Grammar.override start diagnostic).Makes test .nothing :=
  Adds.still fun _ _ _ => ⟨rfl, .nothing⟩

end Makes

namespace Adds

variable {a : Shape}

/-- A missing token, with its spelling. -/
theorem missingSpelled {k : Kind} {spelling : Text} {hk : k.isSolid} :
    (Grammar.missingSpelled k spelling hk).Adds test
      fun _ _ gs => gs = [.missing k spelling] :=
  fun _ _ _ => ⟨[Green.missing k spelling], rfl, ⟨trivial, trivial⟩, rfl⟩

/-- A rule that is followed under a test, and an answer that says so. -/
theorem followed {f : Ahead → Bool} {p : Parser Unit}
    (h : p.Makes (fun ts => test ts ∧ f ts = true) a) :
    (Grammar.look f >>= fun x => if x then (p >>= fun _ => Pure.pure true)
      else Pure.pure false).Adds
      test fun x _ => Shape.Matches (if x then a else .nothing) :=
  .branch (.returns h fun _ _ _ hgs => hgs) (.answer fun _ _ => .nothing)

/-- The next token, if it is of a kind. The answer says so. -/
theorem eat {k : Kind} (hk : k ≠ .endOfFile) :
    (Grammar.eat k).Adds test fun x _ => Shape.Matches (if x then Shape.tok k else .nothing) :=
  followed (Makes.advanceAt (fun _ hts => hts.2) hk)

/-- The next token, as a keyword, if it is the name that spells it. The answer says so. -/
theorem eatWord {k : Kind} {hk : k.isSolid} (h : k.isContextual) :
    (Grammar.eatWord k hk).Adds test
      fun x _ => Shape.Matches (if x then Shape.tok k else .nothing) :=
  followed (Makes.advanceAs (fun _ hts => Ahead.mayTake_of_isKeywordWord h hts.2)
    (beq_self_eq_true k))

/-- The next token if it is of a kind, and otherwise a missing one. The answer says which. -/
theorem expect {k : Kind} {hk : k.isSolid} : (Grammar.expect k hk).Adds test fun x _ =>
    Shape.Matches (if x then Shape.tok k else .missing (· == k)) := by
  have hmissing : (Grammar.missing k hk).Makes (fun _ => True) (.missing (· == k)) :=
    .missing (beq_self_eq_true k)
  refine .before (eat (Kind.ne_endOfFile_of_isSolid hk)) ?_
  rintro (_ | _)
  · refine .returns hmissing fun _ _ hs hhs gs hgs => ?_
    cases hgs
    exact hhs
  · refine .answer fun _ _ gs hgs => ?_
    rwa [List.append_nil]

end Adds

namespace Makes

variable {a : Shape} {kinds : Kind → Bool}

/-- The answer does not matter. -/
theorem opt_of_answer {p : Parser Bool}
    (h : p.Adds test fun x _ => Shape.Matches (if x then a else .nothing)) :
    p.Makes test (Shape.opt a) := by
  refine Adds.mono h (fun _ h => h) ?_
  rintro (_ | _) _ gs hgs
  · exact .right hgs
  · exact .left hgs

theorem eat_opt {k : Kind} (hk : k ≠ .endOfFile) :
    (Grammar.eat k).Makes test (Shape.opt (Shape.tok k)) := opt_of_answer (.eat hk)

theorem skip {k : Kind} (hk : k ≠ .endOfFile) :
    (Grammar.skip k).Makes test (Shape.opt (Shape.tok k)) :=
  ifAhead (advanceAt (fun _ hts => hts.2) hk)

theorem eatWord_opt {k : Kind} {hk : k.isSolid} (h : k.isContextual) :
    (Grammar.eatWord k hk).Makes test (Shape.opt (Shape.tok k)) := opt_of_answer (.eatWord h)

/-- A required token is there, or is missing. -/
theorem require {k : Kind} {hk : k.isSolid} :
    (Grammar.require k hk).Makes test (Shape.needed k) := by
  refine thenPure (Adds.mono .expect (fun _ h => h) ?_)
  rintro (_ | _) _ gs hgs
  · exact .right hgs
  · exact .left hgs

/-- A goal adds a tree of its shape. -/
theorem call {g : Goal} : (Grammar.call g).Makes test g.shape := by
  refine Adds.mono Adds.call (fun _ h => h) ?_
  rintro _ _ _ ⟨t, rfl, ht⟩
  exact ht.shape

theorem visit {g : Goal} : (Grammar.visit g).Makes test g.shape := thenPure call

theorem visitIf (h : ∀ ts, test ts → ts.isAt .ifKw) :
    (Grammar.visit .statement).Makes test (.one .ifStmt) := thenPure (Adds.callIf h)

/-! ### Loops -/

/-- A loop adds any number of what its body adds. -/
theorem repeatWhile {body : Parser Bool} (h : body.Makes (fun _ => True) (.many a)) :
    (Grammar.repeatWhile body).Makes test (.many a) :=
  Adds.repeatWhile (Adds.mono h (fun _ h => h) fun _ _ _ hgs => ⟨hgs, fun _ => trivial⟩)
    fun _ _ => trivial

/-- A loop that looks ahead may use what it has seen in its body. -/
theorem whileAhead {f : Ahead → Bool} {p : Parser Unit} (h : p.Makes (fun ts => f ts = true) a) :
    (Grammar.whileAhead f p).Makes test (.many a) := by
  refine repeatWhile (branch ?_ (Adds.answer fun _ _ => .none))
  exact thenPure (h.once.mono fun _ hts => hts.2)

/-- A list whose elements start where a test holds. -/
theorem commaListFrom {start : Ahead → Prop} {kind : Kind} {ends : Ahead → Bool} {p : Parser Unit}
    {hk : kind.isConstruct} (h : p.Makes start a) (hshape : kind.plainShape = Shape.element a)
    (hends : ∀ ts, ends ts = false → start ts)
    (ht : ∀ ts, test ts → start ts) :
    (Grammar.commaList kind ends p hk).Makes test (Shape.list kind) := by
  have hnode : (Grammar.node kind (do p; Grammar.eat .comma) hk).Makes start (Shape.one kind) := by
    refine node ?_
    rw [Kind.contents, beq_self_eq_true, hshape]
    exact seq h fun _ => eat_opt (by decide)
  refine Adds.repeatWhile (.before hnode fun comma => ?_) ht
  refine .look fun _ => .answer fun ts hts gs hgs => ?_
  rw [List.append_nil]
  refine ⟨hgs.once, fun hmore => ?_⟩
  rw [Bool.and_eq_true, Bool.not_eq_true', ← hts.2] at hmore
  exact hends ts hmore.2

theorem commaList {kind : Kind} {ends : Ahead → Bool} {p : Parser Unit} {hk : kind.isConstruct}
    (h : p.Makes (fun _ => True) a) (hshape : kind.plainShape = Shape.element a) :
    (Grammar.commaList kind ends p hk).Makes test (Shape.list kind) :=
  commaListFrom h hshape (fun _ _ => trivial) fun _ _ => trivial

end Makes

namespace Wraps

variable {a : Shape} {kinds : Kind → Bool}

theorem mono {test' : Ahead → Prop} {p : Parser α} (h : p.Wraps test kinds)
    (ht : ∀ ts, test' ts → test ts) : p.Wraps test' kinds :=
  fun ts g built hts => h ts g built (ht ts hts)

theorem pure (x : α) : (Pure.pure x : Parser α).Wraps test kinds :=
  fun _ g _ _ hstrict hg => ⟨g, rfl, hstrict, hg⟩

/-- Wrapping the newest tree twice wraps it: in between it is a node of one of the same kinds. -/
theorem seq {first : Parser α} {next : α → Parser β} (h : first.Wraps test kinds)
    (hnext : ∀ x, (next x).Wraps (fun _ => True) kinds) : (first >>= next).Wraps test kinds := by
  intro ts g built hts hstrict hg
  rw [yields_bind]
  refine yields_mono (h ts g built hts hstrict hg) ?_
  rintro x ⟨us, _⟩ ⟨g', rfl, hstrict', hg'⟩
  exact hnext x us g' built trivial hstrict' hg'

theorem look {f : Ahead → β} {next : β → Parser α}
    (h : ∀ x, (next x).Wraps (fun ts => test ts ∧ f ts = x) kinds) :
    (Grammar.look f >>= next).Wraps test kinds :=
  fun ts g built hts => h (f ts) ts g built ⟨hts, rfl⟩

/-- Each branch may use what was seen ahead. -/
theorem branch {f : Ahead → Bool} {p q : Parser α}
    (hp : p.Wraps (fun ts => test ts ∧ f ts = true) kinds)
    (hq : q.Wraps (fun ts => test ts ∧ f ts = false) kinds) :
    (Grammar.look f >>= fun x => if x then p else q).Wraps test kinds := by
  refine look ?_
  rintro (_ | _)
  · exact hq
  · exact hp

theorem ifAhead {f : Ahead → Bool} {p : Parser Unit}
    (h : p.Wraps (fun ts => test ts ∧ f ts = true) kinds) :
    (Grammar.ifAhead f p).Wraps test kinds := branch h (pure ())

/-- A loop wraps the newest tree again and again. -/
theorem repeatWhile {body : Parser Bool} (h : body.Wraps (fun _ => True) kinds) :
    (Grammar.repeatWhile body).Wraps test kinds := by
  intro ts g built _ hstrict hg
  refine ⟨fun t => ∃ g' : Green, t.built = g' :: built ∧ g'.Strict ∧
    (Shape.node kinds).Matches [g'], ⟨g, rfl, hstrict, hg⟩, ?_⟩
  rintro ⟨us, _⟩ ⟨g', rfl, hstrict', hg'⟩
  rw [yields_bind]
  refine yields_mono (h us g' built trivial hstrict' hg') ?_
  rintro (_ | _) t ht
  · exact ht
  · exact ht

theorem whileAhead {f : Ahead → Bool} {p : Parser Unit}
    (h : p.Wraps (fun ts => f ts = true) kinds) : (Grammar.whileAhead f p).Wraps test kinds :=
  repeatWhile (branch (seq (h.mono fun _ hts => hts.2) fun _ => pure true) (pure false))

/-- A node around the newest tree. -/
theorem enclose {kinds' : Kind → Bool} {kind : Kind} {p : Parser α} {hk : kind.isConstruct}
    (h : p.Makes test a) (hshape : kind.contents kinds = .seq (.node kinds') a)
    (hkinds : ∀ k, kinds k → kinds' k) : (Grammar.enclose kind p hk).Wraps test kinds := by
  intro ts g built hts hstrict hg
  refine Adds.enclose h hts hg hstrict fun _ us gs hgs hstrict' => ?_
  have hall : (kind.contents kinds).Matches (g :: gs) := by
    rw [hshape]
    exact .seq (hg.node_mono hkinds) hgs
  exact ⟨_, rfl, ⟨Green.exact_plain hall.of_contents.1, hstrict'⟩, .node hall.of_contents.2⟩

end Wraps

/-- A rule that wraps what another one has added. -/
theorem Makes.wrap {kinds : Kind → Bool} {first : Parser α} {next : α → Parser β}
    (h : first.Makes test (.node kinds)) (hnext : ∀ x, (next x).Wraps (fun _ => True) kinds) :
    (first >>= next).Makes test (.node kinds) := by
  intro ts built hts
  rw [yields_bind]
  refine yields_mono (h ts built hts) ?_
  rintro x ⟨us, _⟩ ⟨gs, rfl, hstrict, hgs⟩
  obtain ⟨k, cs, rfl, hk⟩ := hgs.exists_node
  refine yields_mono (hnext x us _ built trivial hstrict.1 (.node hk)) ?_
  rintro y t ⟨g, hbuilt, hstrict', hg⟩
  exact ⟨[g], hbuilt, ⟨hstrict', trivial⟩, hg⟩

end Parser

end Grammar

end SwiftTree
