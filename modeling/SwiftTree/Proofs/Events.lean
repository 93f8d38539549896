import SwiftTree.Grammar.Event
import SwiftTree.Proofs.Forest

/-!
# Events that describe trees

`Describes` says which lists of events describe which trees, with one constructor for each way in
which rules add to a list: tokens, missing tokens, nodes, nodes around the newest node, and nodes
that were given up. It also keeps track of where the newest node starts, which is where the next
node around it has to leave its mark.

`Describes.build` shows that building from such a list adds exactly those trees, whatever follows
the list and whatever was built before it. A node that is wrapped opens all the nodes around it at
once, although their events come later; so the induction also speaks of lists whose newest node has
a forward parent in the events behind the list.
-/

namespace SwiftTree

/-! ## What the steps of a builder do -/

namespace Builder

/-- A builder that has got to a position, with the text behind it, and has added trees. -/
def add (pos : Nat) (rest : Text) (gs : List Green) (b : Builder) : Builder :=
  { b with pos, rest, built := gs ++ b.built }

theorem add_add {pos pos' : Nat} {rest rest' : Text} {gs hs : List Green} {b : Builder} :
    (b.add pos rest gs).add pos' rest' hs = b.add pos' rest' (hs ++ gs) := by
  simp [add]

/-- A token that stands where the builder is, is added. -/
theorem token_add {b : Builder} {t : Token} {tail : Text} (hrest : b.rest = t.full ++ tail) :
    b.token t.leading.outline t.kind (b.pos + t.leading.byteLen)
        (b.pos + t.leading.byteLen + Text.byteLen t.text) t.trailing.outline
      = .ok (b.add (b.pos + t.byteLen) tail [.token t]) := by
  have hnext : b.pos + t.leading.byteLen + Text.byteLen t.text + t.trailing.byteLen
      = b.pos + t.byteLen := by
    rw [Token.byteLen]
    omega
  have hcut : Text.cutBytes (b.pos + t.byteLen - b.pos) b.rest = some (t.full, tail) := by
    rw [Nat.add_sub_cancel_left, hrest, ← Token.byteLen_full, Text.cutBytes_append]
  have hleaf : leaf ⟨t.leading.outline, t.kind, t.full, t.trailing.outline⟩ = .ok (.token t) :=
    if_pos t.hasRoom_outline
  simp only [Builder.token, Trivia.byteLen_outline, ne_eq, not_true_eq_false, if_false, hnext,
    hcut, hleaf]
  rfl

/-- Closing a node that was opened just before some trees were added. -/
theorem finishNode_add {b : Builder} {kind : Kind} {pos : Nat} {rest : Text} {gs : List Green} :
    ((b.startNode kind).add pos rest gs).finishNode
      = .ok (b.add pos rest [.node kind gs.reverse]) := by
  simp [startNode, add, finishNode]

theorem startNode_add {b : Builder} {kind : Kind} {pos : Nat} {rest : Text} :
    (b.add pos rest []).startNode kind = (b.startNode kind).add pos rest [] := by
  simp [startNode, add]

end Builder

namespace Green

theorem byteLenOf_append (gs hs : List Green) :
    byteLenOf (gs ++ hs) = byteLenOf gs + byteLenOf hs := by
  induction gs with
  | nil => simp [byteLenOf]
  | cons g gs ih => simp [byteLenOf, ih, Nat.add_assoc]

theorem byteLenOf_reverse (gs : List Green) : byteLenOf gs.reverse = byteLenOf gs := by
  induction gs with
  | nil => rfl
  | cons g gs ih =>
    simp [byteLenOf, byteLenOf_append, ih, Nat.add_comm]

@[simp] theorem byteLen_token (t : Token) : (token t).byteLen = t.byteLen := t.byteLen_outline

end Green

namespace Grammar.Event

/-! ## Following forward parents -/

/-- Events that a chain of forward parents skips stay as they are. -/
theorem follow_append {n : Nat} (es : List Event) {rest rest' : List Event} {kinds : List Kind}
    (h : follow n rest = some (kinds, rest')) :
    follow (es.length + n) (es ++ rest) = some (kinds, es ++ rest') := by
  induction es with
  | nil => rwa [List.length_nil, Nat.zero_add, List.nil_append]
  | cons e es ih =>
    rw [List.length_cons, Nat.add_right_comm, List.cons_append, follow, ih]
    rfl

/-- The chain ends at a start without a forward parent. -/
theorem follow_start {kind : Kind} (es : List Event) (h : kind ≠ .tombstone) :
    follow 0 (.start kind none :: es) = some ([kind], blank :: es) := by
  rw [follow, addKind, if_neg h]

/-- The chain goes on at a start with a forward parent. -/
theorem follow_start_parent {kind : Kind} {n : Nat} {es es' : List Event} {kinds : List Kind}
    (hk : kind ≠ .tombstone) (h : follow n es = some (kinds, es')) :
    follow 0 (.start kind (some (n + 1)) :: es) = some (kind :: kinds, blank :: es') := by
  simp only [follow, Nat.add_sub_cancel, h, Option.map_some, addKind, if_neg hk]

/-! ## Building step by step -/

theorem build_blank (es : List Event) (b : Builder) : build (blank :: es) b = build es b := by
  rw [blank, build, if_pos rfl]

/-- A start without a forward parent opens a node right there. -/
theorem build_start {kind : Kind} {es : List Event} {b : Builder} (h : kind ≠ .tombstone) :
    build (.start kind none :: es) b = build es (b.startNode kind) := by
  rw [build, if_neg h]
  rfl

/-- A start with forward parents opens the nodes that they lead to first, outermost first. They are
gone from the events that are left to build from. -/
theorem build_start_parent {kind : Kind} {n : Nat} {es es' : List Event} {kinds : List Kind}
    {b : Builder} (hk : kind ≠ .tombstone) (h : follow n es = some (kinds, es')) :
    build (.start kind (some (n + 1)) :: es) b = build es' ((openAll kinds b).startNode kind) := by
  have hp : parents (some (n + 1)) es = some (kinds, es') := by
    rwa [parents, Nat.add_sub_cancel]
  rw [build, if_neg hk]
  split
  · rename_i hn
    rw [hp] at hn
    cases hn
  · rename_i hs
    rw [hp] at hs
    cases hs
    rfl

theorem build_finish {kind : Kind} {es : List Event} {b : Builder} {pos : Nat} {rest : Text}
    {gs : List Green} :
    build (.finish :: es) ((b.startNode kind).add pos rest gs)
      = build es (b.add pos rest [.node kind gs.reverse]) := by
  rw [build, Builder.finishNode_add]

theorem build_token {t : Token} {es : List Event} {b : Builder} {tail : Text}
    (hrest : b.rest = t.full ++ tail) :
    build (.token t (b.pos + t.leading.byteLen) :: es) b
      = build es (b.add (b.pos + t.byteLen) tail [.token t]) := by
  rw [build, Builder.token_add hrest]

/-- A missing token takes no text: only the trees of the builder change. -/
theorem build_missing {kind : Kind} {spelling : Text} {es : List Event} {b : Builder} :
    build (.missing kind spelling :: es) b
      = build es (b.add b.pos b.rest [.missing kind spelling]) := by
  rw [build]
  rfl

theorem openAll_pos (kinds : List Kind) (b : Builder) : (openAll kinds b).pos = b.pos := by
  induction kinds with
  | nil => rfl
  | cons kind kinds ih => exact ih

theorem openAll_rest (kinds : List Kind) (b : Builder) : (openAll kinds b).rest = b.rest := by
  induction kinds with
  | nil => rfl
  | cons kind kinds ih => exact ih

/-- Opening nodes does not depend on the position. -/
theorem openAll_add (kinds : List Kind) (b : Builder) (gs : List Green) (p q : Nat) (r t : Text) :
    openAll kinds (b.add p r gs) = (openAll kinds (b.add q t gs)).add p r [] := by
  induction kinds with
  | nil =>
    show b.add p r gs = (b.add q t gs).add p r []
    rw [Builder.add_add]
    rfl
  | cons kind kinds ih =>
    show (openAll kinds (b.add p r gs)).startNode kind = _
    rw [ih, Builder.startNode_add]
    rfl

/-! ## What building adds -/

/-- Whether building from events at a byte position adds trees, given newest first, and nothing
else. -/
def Adds (pos : Nat) (es : List Event) (gs : List Green) : Prop :=
  ∀ (b : Builder) (rest : List Event) (tail : Text), b.pos = pos →
    b.rest = Green.textOf gs.reverse ++ tail →
    build (es ++ rest) b = build rest (b.add (pos + Green.byteLenOf gs) tail gs)

/-- Whether building from events adds trees, the newest of which starts behind `front` and goes into
nodes that open behind the events. These nodes open right before it. -/
def AddsInto (pos : Nat) (front : List Event) (kind : Kind) (back : List Event) (g : Green)
    (gs : List Green) : Prop :=
  ∀ (b : Builder) (n : Nat) (rest rest' : List Event) (kinds : List Kind) (tail : Text),
    b.pos = pos → b.rest = Green.textOf (g :: gs).reverse ++ tail →
    follow n rest = some (kinds, rest') →
    build (front ++ .start kind (some (back.length + n + 1)) :: (back ++ rest)) b
      = build rest'
          ((openAll kinds (b.add pos [] gs)).add (pos + Green.byteLenOf (g :: gs)) tail [g])

section Steps

variable {pos : Nat} {es inner front back : List Event} {g : Green} {gs hs : List Green}

/-- No events add no trees. -/
theorem Adds.nil : Adds pos [] [] := by
  rintro b rest tail rfl hrest
  have hb : b.add (b.pos + Green.byteLenOf []) tail [] = b := by
    obtain ⟨p, r, pending, built⟩ := b
    obtain rfl : r = tail := hrest
    rfl
  rw [hb]
  rfl

/-- One event that adds one tree. -/
theorem Adds.append (h : Adds pos es gs) {e : Event}
    (he : ∀ (b : Builder) (rest : List Event) (tail : Text), b.pos = pos + Green.byteLenOf gs →
      b.rest = g.text ++ tail →
      build (e :: rest) b = build rest (b.add (b.pos + g.byteLen) tail [g])) :
    Adds pos (es ++ [e]) (g :: gs) := by
  intro b rest tail hpos hrest
  rw [List.reverse_cons, Green.textOf_append, List.append_assoc] at hrest
  rw [List.append_assoc, h b _ _ hpos hrest, List.singleton_append,
    he _ _ tail rfl (by simp [Builder.add, Green.textOf]), Builder.add_add]
  simp only [Builder.add, Green.byteLenOf, Nat.add_assoc, Nat.add_comm g.byteLen]
  rfl

/-- The parts of a node that has just been opened, and its end. -/
theorem Adds.inside (h : Adds pos inner hs) {b : Builder} {kind : Kind} {rest : List Event}
    {tail : Text} (hpos : b.pos = pos) (hrest : b.rest = Green.textOf hs.reverse ++ tail) :
    build (inner ++ .finish :: rest) (b.startNode kind)
      = build rest (b.add (pos + Green.byteLenOf hs) tail [.node kind hs.reverse]) := by
  rw [h (b.startNode kind) _ tail hpos hrest, build_finish]

/-- Events of a node, with what is in it between its start and its finish, add the node to the trees
so far. -/
theorem Adds.node {kind : Kind} (hes : Adds pos es gs)
    (hinner : Adds (pos + Green.byteLenOf gs) inner hs) (hk : kind ≠ .tombstone) :
    Adds pos (es ++ .start kind none :: (inner ++ [.finish])) (.node kind hs.reverse :: gs) := by
  intro b rest tail hpos hrest
  have hrest' : b.rest = Green.textOf gs.reverse ++ (Green.textOf hs.reverse ++ tail) := by
    simpa [Green.textOf] using hrest
  rw [List.append_assoc, hes b _ _ hpos hrest', List.cons_append, build_start hk,
    List.append_assoc, List.singleton_append, hinner.inside rfl rfl, Builder.add_add]
  simp [Green.byteLenOf, Green.byteLen, Green.byteLenOf_reverse, Nat.add_assoc, Nat.add_comm]

/-- The node added last can still become a part of another node: what opens right before its start
is what goes around it. -/
theorem AddsInto.node {kind : Kind} (hes : Adds pos es gs)
    (hinner : Adds (pos + Green.byteLenOf gs) inner hs) (hk : kind ≠ .tombstone) :
    AddsInto pos es kind (inner ++ [.finish]) (.node kind hs.reverse) gs := by
  intro b n rest rest' kinds tail hpos hrest hfollow
  have hrest' : b.rest = Green.textOf gs.reverse ++ (Green.textOf hs.reverse ++ tail) := by
    simpa [Green.textOf] using hrest
  rw [hes b _ _ hpos hrest', build_start_parent hk (follow_append _ hfollow), List.append_assoc,
    List.singleton_append, hinner.inside (openAll_pos kinds _) (openAll_rest kinds _),
    openAll_add kinds b gs _ pos _ [], Builder.add_add]
  simp [Green.byteLenOf, Green.byteLen, Green.byteLenOf_reverse, Nat.add_assoc, Nat.add_comm]

/-- A node around the newest one is added as a later start that the earlier one points to. -/
theorem AddsInto.wrap {kind outer : Kind} (h : AddsInto pos front kind back g gs)
    (hinner : Adds (pos + Green.byteLenOf (g :: gs)) inner hs) (hk : outer ≠ .tombstone) :
    Adds pos (front ++ .start kind (some (back.length + 1)) :: back
      ++ .start outer none :: (inner ++ [.finish])) (.node outer (g :: hs.reverse) :: gs) := by
  intro b rest tail hpos hrest
  have hrest' : b.rest = Green.textOf (g :: gs).reverse ++ (Green.textOf hs.reverse ++ tail) := by
    simpa [Green.textOf] using hrest
  have hadd := h b 0 _ _ _ _ hpos hrest'
    (follow_start (inner ++ .finish :: rest) hk)
  simp only [List.append_assoc, List.cons_append, List.nil_append, Nat.add_zero] at hadd ⊢
  rw [hadd, build_blank, hinner _ _ tail rfl rfl, Builder.add_add]
  show build (.finish :: rest) (((b.add pos [] gs).startNode outer).add _ _ _) = _
  rw [build_finish, Builder.add_add]
  simp [Green.byteLenOf, Green.byteLen, Green.byteLenOf_reverse, Nat.add_assoc, Nat.add_comm,
    Nat.add_left_comm]

/-- A node around the newest one can itself become a part of a further node. -/
theorem AddsInto.wrapInto {kind outer : Kind} (h : AddsInto pos front kind back g gs)
    (hinner : Adds (pos + Green.byteLenOf (g :: gs)) inner hs) (hk : outer ≠ .tombstone) :
    AddsInto pos (front ++ .start kind (some (back.length + 1)) :: back) outer
      (inner ++ [.finish]) (.node outer (g :: hs.reverse)) gs := by
  intro b n rest rest' kinds tail hpos hrest hfollow
  have hrest' : b.rest = Green.textOf (g :: gs).reverse ++ (Green.textOf hs.reverse ++ tail) := by
    simpa [Green.textOf] using hrest
  have hadd := h b 0 _ _ _ _ hpos hrest'
    (follow_start_parent hk (follow_append (inner ++ [.finish]) hfollow))
  simp only [List.append_assoc, List.cons_append, List.nil_append, Nat.add_zero] at hadd ⊢
  have hinside := hinner
    ((openAll (outer :: kinds) (b.add pos [] gs)).add (pos + Green.byteLenOf (g :: gs))
      (Green.textOf hs.reverse ++ tail) [g]) (.finish :: rest') tail rfl rfl
  rw [hadd, build_blank, hinside, Builder.add_add]
  show build (.finish :: rest') (((openAll kinds (b.add pos [] gs)).startNode outer).add _ _ _) = _
  rw [build_finish]
  simp [Green.byteLenOf, Green.byteLen, Green.byteLenOf_reverse, Nat.add_assoc, Nat.add_comm,
    Nat.add_left_comm]

/-- The start of a node that was given up is blank: what was in the node stays where it is. -/
theorem Adds.abandon (hes : Adds pos es gs) (hinner : Adds (pos + Green.byteLenOf gs) inner hs) :
    Adds pos (es ++ blank :: inner) (hs ++ gs) := by
  intro b rest tail hpos hrest
  have hrest' : b.rest = Green.textOf gs.reverse ++ (Green.textOf hs.reverse ++ tail) := by
    simpa using hrest
  rw [List.append_assoc, hes b _ _ hpos hrest', List.cons_append, build_blank,
    hinner _ _ tail rfl rfl, Builder.add_add, Green.byteLenOf_append, Nat.add_assoc,
    Nat.add_comm (Green.byteLenOf gs)]

/-- The same where the newest tree goes into nodes that open later: the blank is in front of where
they do. -/
theorem AddsInto.abandon {kind : Kind} (hes : Adds pos es gs)
    (hinner : AddsInto (pos + Green.byteLenOf gs) front kind back g hs) :
    AddsInto pos (es ++ blank :: front) kind back g (hs ++ gs) := by
  intro b n rest rest' kinds tail hpos hrest hfollow
  have hrest' : b.rest
      = Green.textOf gs.reverse ++ (Green.textOf (g :: hs).reverse ++ tail) := by
    simpa [Green.textOf] using hrest
  rw [List.append_assoc, hes b _ _ hpos hrest', List.cons_append, build_blank,
    hinner _ n rest rest' kinds tail rfl rfl hfollow, Builder.add_add,
    openAll_add kinds b (hs ++ gs) _ pos _ [], Builder.add_add]
  simp [Green.byteLenOf, Green.byteLenOf_append, Nat.add_assoc, Nat.add_comm, Nat.add_left_comm]

end Steps

/-! ## Lists of events that describe trees -/

/-- Whether events, written from a byte position on, describe trees, newest first. When the newest
tree is a node, the last argument is the index of the start that opens it. -/
inductive Describes : Nat → List Event → List Green → Option Nat → Prop where
  | nil {pos : Nat} : Describes pos [] [] none
  | token {pos : Nat} {es : List Event} {gs : List Green} {newest : Option Nat} {t : Token}
      (before : Describes pos es gs newest) :
      Describes pos (es ++ [.token t (pos + Green.byteLenOf gs + t.leading.byteLen)])
        (.token t :: gs) none
  | missing {pos : Nat} {es : List Event} {gs : List Green} {newest : Option Nat} {kind : Kind}
      {spelling : Text} (before : Describes pos es gs newest) :
      Describes pos (es ++ [.missing kind spelling]) (.missing kind spelling :: gs) none
  | node {pos : Nat} {es inner : List Event} {gs hs : List Green} {newest last : Option Nat}
      {kind : Kind} (before : Describes pos es gs newest)
      (within : Describes (pos + Green.byteLenOf gs) inner hs last) (hk : kind ≠ .tombstone) :
      Describes pos (es ++ .start kind none :: (inner ++ [.finish])) (.node kind hs.reverse :: gs)
        (some es.length)
  /-- The newest node is wrapped: its start names the start of the new node as its forward
  parent. -/
  | wrap {pos : Nat} {front back inner : List Event} {g : Green} {gs hs : List Green}
      {last : Option Nat} {outer kind : Kind}
      (before : Describes pos (front ++ .start kind none :: back) (g :: gs) (some front.length))
      (within : Describes (pos + Green.byteLenOf (g :: gs)) inner hs last)
      (hk : outer ≠ .tombstone) :
      Describes pos
        (front ++ .start kind (some (back.length + 1)) :: back
          ++ .start outer none :: (inner ++ [.finish]))
        (.node outer (g :: hs.reverse) :: gs) (some (front.length + (back.length + 1)))
  /-- A node is given up after something was added to it. -/
  | abandon {pos : Nat} {es inner : List Event} {gs hs : List Green} {newest last : Option Nat}
      (before : Describes pos es gs newest)
      (within : Describes (pos + Green.byteLenOf gs) inner hs last) (added : inner ≠ []) :
      Describes pos (es ++ blank :: inner) (hs ++ gs) (last.map (es.length + 1 + ·))

namespace Describes

variable {pos : Nat} {es : List Event} {gs : List Green} {newest : Option Nat}

/-- No events describe no trees. -/
theorem eq_nil (h : Describes pos [] gs newest) : gs = [] := by
  generalize hes : ([] : List Event) = es at h
  cases h with
  | nil => rfl
  | _ => simp at hes

/-- Events that are not empty describe at least one tree, since each operation on markers adds one
or more trees to those so far. -/
theorem ne_nil (h : Describes pos es gs newest) (hes : es ≠ []) : gs ≠ [] := by
  induction h with
  | nil => exact absurd rfl hes
  | token => exact List.cons_ne_nil _ _
  | missing => exact List.cons_ne_nil _ _
  | node => exact List.cons_ne_nil _ _
  | wrap => exact List.cons_ne_nil _ _
  | abandon _ _ added _ ih => simp [ih added]

/-- The newest tree is a node exactly when the index of its start is known. The start has no forward
parent yet. -/
theorem newest_start (h : Describes pos es gs newest) :
    (newest = none ∧ ∀ kind cs before, gs ≠ .node kind cs :: before) ∨
      ∃ kind cs before front k back, gs = .node kind cs :: before ∧
        es = front ++ .start k none :: back ∧ newest = some front.length := by
  induction h with
  | nil => exact .inl ⟨rfl, by simp⟩
  | token => exact .inl ⟨rfl, by simp [Green.token]⟩
  | missing => exact .inl ⟨rfl, by simp [Green.missing]⟩
  | @node _ es inner gs hs _ _ kind =>
    exact .inr ⟨kind, hs.reverse, gs, es, kind, inner ++ [.finish], rfl, rfl, rfl⟩
  | @wrap _ front back inner g gs hs _ outer kind =>
    refine .inr ⟨outer, g :: hs.reverse, gs,
      front ++ .start kind (some (back.length + 1)) :: back, outer, inner ++ [.finish],
      rfl, rfl, ?_⟩
    rw [List.length_append, List.length_cons]
  | @abandon _ es inner gs hs _ last _ within added _ ih =>
    rcases ih with ⟨rfl, hgs⟩ | ⟨kind, cs, before, front, k, back, rfl, rfl, rfl⟩
    · refine .inl ⟨rfl, ?_⟩
      intro kind cs before h
      cases hs with
      | nil => exact within.ne_nil added rfl
      | cons g hs =>
        obtain ⟨rfl, -⟩ := List.cons.inj h
        exact hgs kind cs hs rfl
    · refine .inr ⟨kind, cs, before ++ gs, es ++ blank :: front, k, back, rfl, ?_, ?_⟩
      · simp
      · simp only [Option.map_some, List.length_append, List.length_cons]
        congr 1
        omega

/-- Building from events adds the trees that they describe. The second part is about the nodes that
the newest tree may still go into. -/
theorem adds_and_addsInto (h : Describes pos es gs newest) :
    Adds pos es gs ∧
      ∀ front back kind g before, es = front ++ .start kind none :: back → gs = g :: before →
        newest = some front.length → AddsInto pos front kind back g before := by
  induction h with
  | nil => exact ⟨.nil, by simp⟩
  | @token pos es gs newest t _ ih =>
    refine ⟨ih.1.append ?_, by simp⟩
    intro b rest tail hpos hrest
    rw [← hpos, build_token hrest, Green.byteLen_token]
  | @missing pos es gs newest kind spelling _ ih =>
    refine ⟨ih.1.append ?_, by simp⟩
    intro b rest tail hpos hrest
    rw [build_missing, show b.rest = tail from hrest]
    rfl
  | node before within hk ih_before ih_within =>
    refine ⟨ih_before.1.node ih_within.1 hk, ?_⟩
    intro front back kind g before hes hgs hnewest
    obtain ⟨rfl, hback⟩ := List.append_inj hes (Option.some.inj hnewest)
    cases hback
    cases hgs
    exact .node ih_before.1 ih_within.1 hk
  | wrap before within hk ih_before ih_within =>
    -- the node that is wrapped is the newest one, which the second part is about
    have into := ih_before.2 _ _ _ _ _ rfl rfl rfl
    refine ⟨into.wrap ih_within.1 hk, ?_⟩
    intro front back kind g before hes hgs hnewest
    obtain ⟨rfl, hback⟩ := List.append_inj hes (by simpa using Option.some.inj hnewest)
    cases hback
    cases hgs
    exact into.wrapInto ih_within.1 hk
  | @abandon pos es inner gs hs newest last before within added ih_before ih_within =>
    refine ⟨ih_before.1.abandon ih_within.1, ?_⟩
    intro front back kind g rest hes hgs hnewest
    rcases within.newest_start with ⟨rfl, -⟩ | ⟨k, cs, hs, front', k', back', rfl, rfl, rfl⟩
    · simp at hnewest
    · -- the newest tree is one of those inside, behind the start that was given up
      have hlen : (es ++ blank :: front').length = front.length := by
        have : es.length + 1 + front'.length = front.length := Option.some.inj hnewest
        rw [List.length_append, List.length_cons]
        omega
      have hes' : (es ++ blank :: front') ++ .start k' none :: back'
          = front ++ .start kind none :: back := by simpa using hes
      obtain ⟨rfl, hback⟩ := List.append_inj hes' hlen
      cases hback
      cases hgs
      exact .abandon ih_before.1 (ih_within.2 _ _ _ _ _ rfl rfl rfl)

end Describes

end Grammar.Event

end SwiftTree
