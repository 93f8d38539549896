import SwiftTree.Proofs.Missing
import SwiftTree.Proofs.Tiling

/-!
# Positions

A tree has no positions. On the way down from its root the lengths of what is passed are summed up,
and so every part has a place. The tree can be any: put together by hand, with missing tokens and
empty nodes anywhere. All that is asked of it is that the trivia of its tokens fits their text and
ends between characters (`Green.IsAligned`).

A step down goes from a range that cuts the text of a node out of a text to ranges that cut out the
texts of its parts (`Node.cuts_elements`). So the range of everything that is reached from the root
cuts its text out of that of the root (`Node.Reaches.cuts`). The trimmed range of a node runs over
the tokens below it, which stand behind each other (`Node.tiles_leaves`), and it cuts out what is
left of the text without the outermost trivia (`Node.exists_trimmed`).
-/

namespace SwiftTree

/-! ## Ranges of a text -/

namespace Span

/-- Whether a range lies in a text and divides no character. -/
structure IsWithin (s : Span) (text : Text) : Prop where
  start_le_stop : s.start ≤ s.stop
  stop_le : s.stop ≤ Text.byteLen text
  start_isBoundary : Text.IsBoundary s.start text
  stop_isBoundary : Text.IsBoundary s.stop text

/-- Whether a part stands in a text at a range. -/
def Cuts (s : Span) (part text : Text) : Prop :=
  ∃ a b, text = a ++ (part ++ b) ∧ s = .ofLen (Text.byteLen a) (Text.byteLen part)

variable {s : Span} {part text : Text}

/-- What a range cuts out of a text is what taking the slice of the text at this range gives. -/
theorem Cuts.slice? (h : s.Cuts part text) : text.slice? s.start s.stop = some part := by
  obtain ⟨a, b, rfl, rfl⟩ := h
  exact Text.slice?_append a part b

/-- A range that cuts something out of a text lies in the text and divides no character of it. -/
theorem Cuts.isWithin (h : s.Cuts part text) : s.IsWithin text := by
  obtain ⟨a, b, rfl, rfl⟩ := h
  refine ⟨Nat.le_add_right _ _, ?_, ⟨a, _, rfl, rfl⟩, ⟨a ++ part, b, ?_, ?_⟩⟩
  · simp only [ofLen, Text.byteLen_append]
    omega
  · rw [List.append_assoc]
  · rw [Text.byteLen_append]
    rfl

/-- What stands in a part of a text stands in the text. -/
theorem Cuts.inner (h : s.Cuts part text) {lead inner trail : Text}
    (hpart : part = lead ++ (inner ++ trail)) :
    (Span.ofLen (s.start + Text.byteLen lead) (Text.byteLen inner)).Cuts inner text := by
  obtain ⟨a, b, rfl, rfl⟩ := h
  refine ⟨a ++ lead, trail ++ b, ?_, ?_⟩
  · rw [hpart]
    simp only [List.append_assoc]
  · rw [Text.byteLen_append]
    rfl

/-- A part stands where the text in front of it ends. -/
theorem Cuts.empty (h : s.Cuts part text) : (Span.empty s.start).Cuts [] text :=
  h.inner (show part = [] ++ ([] ++ part) from rfl)

/-- Ranges that tile one part of a text, and others that tile the part behind it, tile both parts
together. -/
theorem Tiles.append {start mid stop : Nat} {ss us : List Span} (h : Tiles start ss mid)
    (h' : Tiles mid us stop) : Tiles start (ss ++ us) stop := by
  induction ss generalizing start with
  | nil =>
    obtain rfl : start = mid := h
    exact h'
  | cons s ss ih => exact ⟨h.1, h.2.1, ih h.2.2⟩

/-- One range tiles itself. -/
theorem tiles_ofLen (start len : Nat) : Tiles start [ofLen start len] (start + len) :=
  ⟨rfl, Nat.le_add_right _ _, rfl⟩

end Span

/-! ## Tokens whose trivia fits -/

/-- Between two boundaries of a text stands a part of it. -/
theorem Text.exists_of_isBoundary {cs : Text} {i j : Nat} (hi : IsBoundary i cs)
    (hj : IsBoundary j cs) (hij : i ≤ j) :
    ∃ a b c, cs = a ++ (b ++ c) ∧ byteLen a = i ∧ i + byteLen b = j := by
  obtain ⟨a, b, rfl, rfl⟩ := hi
  obtain ⟨c, d, heq, rfl⟩ := hj
  rcases List.append_eq_append_iff.mp heq with ⟨m, rfl, rfl⟩ | ⟨m, rfl, rfl⟩
  · exact ⟨a, m, d, rfl, rfl, (byteLen_append a m).symm⟩
  · cases m with
    | nil => exact ⟨c, [], b, by simp, by simp, by simp⟩
    | cons x m =>
      have hpos := byteLen_pos (List.cons_ne_nil x m)
      rw [byteLen_append] at hij
      omega

/-- Whether the trivia of a token fits its text and ends between characters. -/
structure Token.Outline.IsAligned (t : Outline) : Prop where
  hasRoom : t.hasRoom
  leading : Text.IsBoundary t.leading.byteLen t.full
  trailing : Text.IsBoundary (t.byteLen - t.trailing.byteLen) t.full

/-- The spelling of such a token stands between its trivia. -/
theorem Token.Outline.IsAligned.exists_eq {t : Outline} (h : t.IsAligned) : ∃ lead trail,
    t.full = lead ++ (t.text ++ trail) ∧ Text.byteLen lead = t.leading.byteLen ∧
      t.leading.byteLen + Text.byteLen t.text = t.byteLen - t.trailing.byteLen := by
  have hroom : t.leading.byteLen ≤ t.byteLen - t.trailing.byteLen := by
    have hfits := of_decide_eq_true h.hasRoom
    omega
  obtain ⟨lead, part, trail, hfull, hlead, hpart⟩ :=
    Text.exists_of_isBoundary h.leading h.trailing hroom
  have htext : t.text = part := by
    rw [text, ← hpart, hfull, ← hlead, Text.slice?_append]
    rfl
  rw [htext]
  exact ⟨lead, trail, hfull, hlead, hpart⟩

/-- The trivia of a token that was made from its pieces fits, since its text is made up of them. -/
theorem Token.isAligned_outline (t : Token) : t.outline.IsAligned := by
  have hfull : t.outline.full = t.leading.text ++ (t.text ++ t.trailing.text) := by
    rw [← List.append_assoc]
    rfl
  refine ⟨t.hasRoom_outline, ⟨t.leading.text, _, hfull, ?_⟩,
    ⟨t.leading.text ++ t.text, t.trailing.text, ?_, ?_⟩⟩
  · rw [Trivia.byteLen_text, t.byteLen_leading_outline]
  · rfl
  · rw [Text.byteLen_append, Trivia.byteLen_text, t.byteLen_outline, t.byteLen_trailing_outline,
      byteLen, Nat.add_sub_cancel]

/-- Whether the trivia of all tokens of a tree fits. -/
def Green.IsAligned (g : Green) : Prop := ∀ t, .present t ∈ g.leaves → t.IsAligned

/-- The leaves of a tree are among those of any trees that it is one of. -/
theorem Green.leaves_subset_leavesOf {g : Green} {gs : List Green} (h : g ∈ gs) :
    g.leaves ⊆ leavesOf gs := by
  induction gs with
  | nil => cases h
  | cons g' gs ih =>
    rcases List.mem_cons.mp h with rfl | h
    · exact List.subset_append_left _ _
    · exact List.subset_append_of_subset_right _ (ih h)

/-! ## What is reached from a root -/

namespace Element

/-- The tree at a part. -/
def green : Element → Green
  | node n => n.green
  | leaf l => .leaf l.green

/-- The node that the part is a part of. -/
def parent : Element → Option Node
  | node n => n.parent
  | leaf l => some l.parent

end Element

namespace Node

/-- The parts of a tree that are reached from its root by steps down. -/
inductive Reaches (root : Node) : Element → Prop where
  | root : Reaches root (.node root)
  | part {n : Node} {e : Element} (h : Reaches root (.node n)) (he : e ∈ n.elements) :
    Reaches root e

variable {root n : Node} {text : Text} {e : Element}

/-- A step down goes to ranges that cut out the texts of the parts. The parts of a node stand one
after the other, so this is a matter of adding up lengths. -/
theorem cuts_elements (h : n.range.Cuts n.text text) (he : e ∈ n.elements) :
    e.range.Cuts e.green.text text := by
  have hfrom : ∀ (gs : List Green) (index : Nat) (a b : Text), text = a ++ (Green.textOf gs ++ b) →
      e ∈ n.elementsFrom index (Text.byteLen a) gs → e.range.Cuts e.green.text text := by
    intro gs
    induction gs with
    | nil => exact nofun
    | cons g gs ih =>
      intro index a b htext he
      rw [Green.textOf] at htext
      rcases List.mem_cons.mp he with rfl | he
      · refine ⟨a, Green.textOf gs ++ b, ?_, ?_⟩
        · cases g <;> (rw [htext, List.append_assoc]; rfl)
        · cases g with
          | node kind cs => rw [Green.byteLen_text]; rfl
          | leaf l => rw [Green.byteLen_text]; rfl
      · refine ih (index + 1) (a ++ g.text) b (by rw [htext]; simp only [List.append_assoc]) ?_
        rwa [Text.byteLen_append, Green.byteLen_text]
  obtain ⟨a, b, htext, hrange⟩ := h
  have hoffset : n.offset = Text.byteLen a := congrArg Span.start hrange
  rw [elements, hoffset] at he
  exact hfrom n.children 0 a b htext he

/-- **The range of everything that is reached cuts its text out of the text of the root.** Each step
keeps this, be it up, down or to the side. -/
theorem Reaches.cuts (h : root.Reaches e) (hroot : root.offset = 0) :
    e.range.Cuts e.green.text root.text := by
  induction h with
  | root =>
    refine ⟨[], [], ?_, ?_⟩
    · rw [List.append_nil]
      rfl
    · show Span.ofLen root.offset root.green.byteLen = _
      rw [hroot, ← Green.byteLen_text]
      rfl
  | part _ he ih => exact cuts_elements ih he

/-- What is reached from a part that is reached is reached: the steps are made one behind the
other. -/
theorem Reaches.trans (h : root.Reaches (.node n)) (h' : n.Reaches e) : root.Reaches e := by
  induction h' with
  | root => exact h
  | part _ he ih => exact ih.part he

/-- A part of a node is one of the trees that it is made of, at some index and offset. -/
theorem exists_of_mem_elements (he : e ∈ n.elements) :
    ∃ index offset g, e = n.element index offset g := by
  have hfrom : ∀ (gs : List Green) (index offset : Nat), e ∈ n.elementsFrom index offset gs →
      ∃ index offset g, e = n.element index offset g := by
    intro gs
    induction gs with
    | nil => exact nofun
    | cons g gs ih =>
      intro index offset he
      rcases List.mem_cons.mp he with rfl | he
      · exact ⟨index, offset, g, rfl⟩
      · exact ih _ _ he
  exact hfrom n.children 0 n.offset he

/-- Going up again from what is reached, nothing else is reached. -/
theorem Reaches.parent {m : Node} (h : root.Reaches e) (hroot : root.way = [])
    (hm : e.parent = some m) : root.Reaches (.node m) := by
  cases h with
  | root =>
    rw [Element.parent, Node.parent, hroot] at hm
    cases hm
  | part h he =>
    obtain ⟨index, offset, g, rfl⟩ := exists_of_mem_elements he
    cases g <;> exact Option.some.inj hm ▸ h

/-- The parts of a node are the trees that it is made of. -/
theorem green_elements (n : Node) : n.elements.map Element.green = n.children := by
  have hfrom : ∀ (gs : List Green) (index offset : Nat),
      (n.elementsFrom index offset gs).map Element.green = gs := by
    intro gs
    induction gs with
    | nil => exact fun _ _ => rfl
    | cons g gs ih =>
      intro index offset
      rw [elementsFrom, List.map_cons, ih]
      cases g <;> rfl
  exact hfrom n.children 0 n.offset

/-- What is reached of a tree with fitting trivia has fitting trivia. -/
theorem Reaches.isAligned (h : root.Reaches e) (hroot : root.green.IsAligned) :
    e.green.IsAligned := by
  induction h with
  | root => exact hroot
  | @part n e _ he ih =>
    have hchild : e.green ∈ n.children := n.green_elements ▸ List.mem_map_of_mem he
    exact fun t ht => ih t (Green.leaves_subset_leavesOf hchild ht)

/-! ### What is below a node follows each other -/

/-- The ranges of the parts of a node tile its range. -/
theorem tiles_elements (n : Node) :
    Span.Tiles n.range.start (n.elements.map Element.range) n.range.stop := by
  have hfrom : ∀ (gs : List Green) (index offset : Nat),
      Span.Tiles offset ((n.elementsFrom index offset gs).map Element.range)
        (offset + Green.byteLenOf gs) := by
    intro gs
    induction gs with
    | nil => exact fun _ _ => rfl
    | cons g gs ih =>
      intro index offset
      have hrange : (n.element index offset g).range = .ofLen offset g.byteLen := by
        cases g <;> rfl
      rw [elementsFrom, List.map_cons, hrange, Green.byteLenOf, ← Nat.add_assoc]
      exact (Span.tiles_ofLen offset g.byteLen).append (ih (index + 1) (offset + g.byteLen))
  exact hfrom n.children 0 n.offset

mutual

theorem tiles_leavesIn (n : Node) (index offset : Nat) : (g : Green) →
    Span.Tiles offset ((n.leavesIn index offset g).map Leaf.range) (offset + g.byteLen)
  | .node _ cs => tiles_leavesFrom _ 0 offset cs
  | .leaf l => Span.tiles_ofLen offset l.byteLen

/-- The ranges of the leaves below several trees tile the range of these. The induction is on the
trees, together with that of `tiles_leavesIn` on a single one. -/
theorem tiles_leavesFrom (n : Node) (index offset : Nat) : (gs : List Green) →
    Span.Tiles offset ((n.leavesFrom index offset gs).map Leaf.range)
      (offset + Green.byteLenOf gs)
  | [] => rfl
  | g :: gs => by
    rw [leavesFrom, List.map_append, Green.byteLenOf, ← Nat.add_assoc]
    exact (tiles_leavesIn n index offset g).append (tiles_leavesFrom n (index + 1) _ gs)

end

/-- The ranges of the leaves below a node tile its range. -/
theorem tiles_leaves (n : Node) :
    Span.Tiles n.range.start (n.leaves.map Leaf.range) n.range.stop :=
  n.tiles_leavesFrom 0 n.offset n.children

end Node

namespace Green

mutual

theorem text_eq_leaves : (g : Green) → g.text = g.leaves.flatMap Leaf.source
  | .node _ cs => textOf_eq_leavesOf cs
  | .leaf l => (List.append_nil l.source).symm

/-- The text of several trees is the source of their leaves, one behind the other. -/
theorem textOf_eq_leavesOf : (gs : List Green) → textOf gs = (leavesOf gs).flatMap Leaf.source
  | [] => rfl
  | g :: gs => by
    rw [textOf, leavesOf, List.flatMap_append, text_eq_leaves g, textOf_eq_leavesOf gs]

end

end Green

namespace Leaf

/-- The source that leaves cover together. -/
def sourceOf (ls : List Leaf) : Text := (ls.map Leaf.green).flatMap Green.Leaf.source

/-- Missing tokens have no source. -/
theorem sourceOf_filter (ls : List Leaf) : sourceOf (ls.filter isPresent) = sourceOf ls := by
  induction ls with
  | nil => rfl
  | cons l ls ih =>
    obtain ⟨parent, index, offset, green⟩ := l
    cases green with
    | present t => exact congrArg (t.full ++ ·) ih
    | missing kind spelling => exact ih

/-- Missing tokens take no room. -/
theorem tiles_filter {start stop : Nat} {ls : List Leaf}
    (h : Span.Tiles start (ls.map range) stop) :
    Span.Tiles start ((ls.filter isPresent).map range) stop := by
  induction ls generalizing start with
  | nil => exact h
  | cons l ls ih =>
    obtain ⟨parent, index, offset, green⟩ := l
    obtain ⟨rfl, hle, hrest⟩ := h
    cases green with
    | present t => exact ⟨rfl, hle, ih hrest⟩
    | missing kind spelling => exact ih hrest

/-- The spelling of a token stands between its trivia. -/
theorem exists_spelling {l : Leaf} {t : Token.Outline} (hgreen : l.green = .present t)
    (h : t.IsAligned) : ∃ lead trail, t.full = lead ++ (t.text ++ trail) ∧
      l.trimmedRange = .ofLen (l.range.start + Text.byteLen lead) (Text.byteLen t.text) := by
  obtain ⟨lead, trail, hfull, hlead, hspelling⟩ := h.exists_eq
  refine ⟨lead, trail, hfull, ?_⟩
  rw [trimmedRange, hgreen]
  show (⟨l.offset + _, l.offset + _⟩ : Span) = .ofLen (l.offset + _) _
  rw [hlead, ← hspelling, Span.ofLen, Nat.add_assoc]

/-- The trimmed range of a token cuts its spelling out of every text that the token stands in. -/
theorem cuts_trimmedRange {l : Leaf} {t : Token.Outline} {text : Text}
    (hgreen : l.green = .present t) (h : t.IsAligned) (hl : l.range.Cuts l.green.source text) :
    l.trimmedRange.Cuts t.text text := by
  obtain ⟨lead, trail, hfull, hrange⟩ := exists_spelling hgreen h
  rw [hgreen] at hl
  exact hrange ▸ hl.inner hfull

/-- Tokens that stand behind each other cover what is between the first and the last spelling, and
the trivia outside. -/
theorem exists_trimmed {l : Leaf} {ls : List Leaf} {start stop : Nat}
    (h : ∀ k ∈ l :: ls, ∃ t, k.green = .present t ∧ t.IsAligned)
    (htiles : Span.Tiles start ((l :: ls).map range) stop) : ∃ lead inner trail,
      sourceOf (l :: ls) = lead ++ (inner ++ trail) ∧
        l.trimmedRange.start = start + Text.byteLen lead ∧
        ((l :: ls).getLastD l).trimmedRange.stop
          = start + Text.byteLen lead + Text.byteLen inner := by
  induction ls generalizing l start with
  | nil =>
    obtain ⟨t, hgreen, haligned⟩ := h l List.mem_cons_self
    obtain ⟨lead, trail, hfull, hrange⟩ := exists_spelling hgreen haligned
    obtain ⟨rfl, -, -⟩ := htiles
    refine ⟨lead, t.text, trail, ?_, by rw [hrange]; rfl, ?_⟩
    · rw [sourceOf, List.map_singleton, hgreen, List.flatMap_singleton]
      exact hfull
    · rw [List.getLastD_cons, List.getLastD_nil, hrange]
      rfl
  | cons k ks ih =>
    obtain ⟨t, hgreen, haligned⟩ := h l List.mem_cons_self
    obtain ⟨lead, trail, hfull, hrange⟩ := exists_spelling hgreen haligned
    obtain ⟨rfl, -, hrest⟩ := htiles
    -- the trivia behind the first token and before the next one is inside now
    obtain ⟨lead', inner, trail', hsource, -, hstop⟩ :=
      ih (fun k hk => h k (List.mem_cons_of_mem l hk)) hrest
    have hlen : l.range.stop = l.range.start + Text.byteLen t.full := by
      show l.offset + l.green.byteLen = _
      rw [hgreen]
      rfl
    refine ⟨lead, t.text ++ (trail ++ (lead' ++ inner)), trail', ?_, by rw [hrange]; rfl, ?_⟩
    · rw [sourceOf, List.map_cons, hgreen, List.flatMap_cons]
      show t.full ++ sourceOf (k :: ks) = _
      rw [hsource, hfull]
      simp only [List.append_assoc]
    · rw [List.getLastD_cons, List.getLastD_cons, ← List.getLastD_cons, hstop, hlen, hfull]
      simp only [Text.byteLen_append, Nat.add_assoc]

end Leaf

namespace Node

/-- The text of a node is that of the tokens below it. -/
theorem text_eq_sourceOf (n : Node) : n.text = Leaf.sourceOf n.presentLeaves := by
  rw [presentLeaves, Leaf.sourceOf_filter, Leaf.sourceOf, n.green_leaves, ← Green.text_eq_leaves]
  rfl

/-- The trimmed range of a node is that of its text without the outermost trivia. -/
theorem exists_trimmed {n : Node} (h : n.green.IsAligned) : ∃ lead inner trail,
    n.text = lead ++ (inner ++ trail) ∧
      n.trimmedRange = .ofLen (n.range.start + Text.byteLen lead) (Text.byteLen inner) := by
  have htiles := Leaf.tiles_filter n.tiles_leaves
  have haligned : ∀ l ∈ n.presentLeaves, ∃ t, l.green = .present t ∧ t.IsAligned := by
    intro l hl
    obtain ⟨hmem, hpresent⟩ := List.mem_filter.mp hl
    have hgreen : l.green ∈ n.green.leaves := n.green_leaves ▸ List.mem_map_of_mem hmem
    obtain ⟨parent, index, offset, green⟩ := l
    cases green with
    | present t => exact ⟨t, rfl, h t hgreen⟩
    | missing kind spelling => cases hpresent
  rw [n.text_eq_sourceOf, trimmedRange]
  change Span.Tiles n.range.start (n.presentLeaves.map Leaf.range) n.range.stop at htiles
  -- a node without tokens has no text, and its range is empty
  cases hleaves : n.presentLeaves with
  | nil => exact ⟨[], [], [], rfl, rfl⟩
  | cons l ls =>
    rw [hleaves] at htiles haligned
    obtain ⟨lead, inner, trail, hcover, hstart, hstop⟩ := Leaf.exists_trimmed haligned htiles
    refine ⟨lead, inner, trail, hcover, ?_⟩
    dsimp only
    rw [hstart, hstop]
    rfl

/-- The trimmed text of a node is cut out of its text, and its range cuts it out of every text that
the node stands in. -/
theorem cuts_trimmedRange {n : Node} {text : Text} (h : n.green.IsAligned)
    (hn : n.range.Cuts n.text text) :
    n.trimmedRange.Cuts n.textTrimmed text ∧ n.text.slice? (n.trimmedRange.start - n.offset)
      (n.trimmedRange.stop - n.offset) = some n.textTrimmed := by
  obtain ⟨lead, inner, trail, htext, hrange⟩ := exists_trimmed h
  have hslice : n.text.slice? (n.trimmedRange.start - n.offset) (n.trimmedRange.stop - n.offset)
      = some inner := by
    rw [hrange, htext]
    show Text.slice? (n.offset + _ - n.offset) (n.offset + _ + _ - n.offset) _ = _
    rw [Nat.add_assoc, Nat.add_sub_cancel_left, Nat.add_sub_cancel_left, Text.slice?_append]
  have htrimmed : n.textTrimmed = inner := by
    rw [textTrimmed, hslice]
    rfl
  rw [htrimmed]
  exact ⟨hrange ▸ hn.inner htext, hslice⟩

end Node

/-! ## What is reached is listed -/

namespace Node

/-- The node and everything below it, in the order in which the tree is listed. -/
def places (n : Node) : List Element := n.listing.map Prod.snd

mutual

/-- The nodes among what is listed for a tree are those that stand in it, in the same order. -/
theorem nodes_listingIn (n : Node) (depth index offset : Nat) : (g : Green) →
    ((n.listingIn depth index offset g).map Prod.snd).filterMap Element.node?
      = n.nodesIn index offset g
  | .node kind cs => by
    rw [listingIn, List.map_cons, nodesIn, ← nodes_listingFrom _ (depth + 1)]
    rfl
  | .leaf _ => rfl

/-- The nodes among what is listed for several trees are those that stand in them. -/
theorem nodes_listingFrom (n : Node) (depth index offset : Nat) : (gs : List Green) →
    ((n.listingFrom depth index offset gs).map Prod.snd).filterMap Element.node?
      = n.nodesFrom index offset gs
  | [] => rfl
  | g :: gs => by
    rw [listingFrom, List.map_append, List.filterMap_append, nodes_listingIn, nodes_listingFrom,
      nodesFrom]

end

/-- The nodes that are listed are the node and those below it. -/
theorem nodes_places (n : Node) : n.places.filterMap Element.node? = n.descendants := by
  rw [places, listing, List.map_cons, descendants, ← n.nodes_listingFrom 1]
  rfl

/-- A descendant of a node is listed with it. -/
theorem node_mem_places {n d : Node} (hd : d ∈ n.descendants) : .node d ∈ n.places := by
  rw [← n.nodes_places, List.mem_filterMap] at hd
  obtain ⟨e, he, hd⟩ := hd
  cases e with
  | node d' =>
    rw [← Option.some.inj hd]
    exact he
  | leaf l => cases hd

mutual

/-- The leaves among what is listed for a tree are those that stand in it, in the same order. -/
theorem leaves_listingIn (n : Node) (depth index offset : Nat) : (g : Green) →
    ((n.listingIn depth index offset g).map Prod.snd).filterMap Element.leaf?
      = n.leavesIn index offset g
  | .node kind cs => by
    rw [listingIn, List.map_cons, leavesIn, ← leaves_listingFrom _ (depth + 1)]
    rfl
  | .leaf _ => rfl

/-- The leaves among what is listed for several trees are those that stand in them. -/
theorem leaves_listingFrom (n : Node) (depth index offset : Nat) : (gs : List Green) →
    ((n.listingFrom depth index offset gs).map Prod.snd).filterMap Element.leaf?
      = n.leavesFrom index offset gs
  | [] => rfl
  | g :: gs => by
    rw [listingFrom, List.map_append, List.filterMap_append, leaves_listingIn, leaves_listingFrom,
      leavesFrom]

end

/-- The leaves that are listed are those below the node. -/
theorem leaves_places (n : Node) : n.places.filterMap Element.leaf? = n.leaves := by
  rw [places, listing, List.map_cons, leaves, ← n.leaves_listingFrom 1]
  rfl

variable {root m : Node} {e : Element}

mutual

/-- What is listed below something that is reached is reached. -/
theorem reaches_of_mem_listingIn {n : Node} {depth index offset : Nat} : {g : Green} →
    root.Reaches (n.element index offset g) →
      e ∈ (n.listingIn depth index offset g).map Prod.snd → root.Reaches e
  | .node kind cs, h, he => by
    rw [listingIn, List.map_cons, List.mem_cons] at he
    rcases he with rfl | he
    · exact h
    · exact reaches_of_mem_listingFrom (fun _ hpart => h.part hpart) he
  | .leaf l, h, he => List.mem_singleton.mp he ▸ h

/-- What is listed for several parts of a node that is reached is reached, as
`reaches_of_mem_listingIn` says of one of them. -/
theorem reaches_of_mem_listingFrom {n : Node} {depth index offset : Nat} : {gs : List Green} →
    (∀ part ∈ n.elementsFrom index offset gs, root.Reaches part) →
      e ∈ (n.listingFrom depth index offset gs).map Prod.snd → root.Reaches e
  | [], _, he => absurd he List.not_mem_nil
  | _ :: _, h, he => by
    rw [listingFrom, List.map_append, List.mem_append] at he
    exact he.elim (reaches_of_mem_listingIn (h _ List.mem_cons_self))
      (reaches_of_mem_listingFrom fun part hpart => h part (List.mem_cons_of_mem _ hpart))

end

/-- Parts are listed. -/
theorem elementsFrom_subset_listingFrom (n : Node) (depth index offset : Nat) : (gs : List Green) →
    n.elementsFrom index offset gs ⊆ (n.listingFrom depth index offset gs).map Prod.snd
  | [] => List.nil_subset _
  | g :: gs => by
    have hfirst : n.element index offset g ∈ (n.listingIn depth index offset g).map Prod.snd := by
      cases g <;> exact List.mem_cons_self
    rw [listingFrom, List.map_append]
    exact List.cons_subset.mpr ⟨List.mem_append_left _ hfirst,
      List.subset_append_of_subset_right _ (n.elementsFrom_subset_listingFrom depth _ _ gs)⟩

mutual

/-- The parts of what is listed are listed. -/
theorem elements_subset_listingIn {n : Node} {depth index offset : Nat} : {g : Green} →
    .node m ∈ (n.listingIn depth index offset g).map Prod.snd →
      m.elements ⊆ (n.listingIn depth index offset g).map Prod.snd
  | .node kind cs, hm => by
    rw [listingIn, List.map_cons] at hm ⊢
    refine List.subset_cons_of_subset _ ?_
    rcases List.mem_cons.mp hm with heq | hm
    · cases heq
      exact elementsFrom_subset_listingFrom _ (depth + 1) 0 offset cs
    · exact elements_subset_listingFrom hm
  | .leaf _, hm => nomatch List.mem_singleton.mp hm

/-- The parts of a node that is listed among several trees are listed there, too. -/
theorem elements_subset_listingFrom {n : Node} {depth index offset : Nat} : {gs : List Green} →
    .node m ∈ (n.listingFrom depth index offset gs).map Prod.snd →
      m.elements ⊆ (n.listingFrom depth index offset gs).map Prod.snd
  | [], hm => absurd hm List.not_mem_nil
  | _ :: _, hm => by
    rw [listingFrom, List.map_append] at hm ⊢
    rcases List.mem_append.mp hm with hm | hm
    · exact List.subset_append_of_subset_left _ (elements_subset_listingIn hm)
    · exact List.subset_append_of_subset_right _ (elements_subset_listingFrom hm)

end

/-- What is listed is what is reached. -/
theorem mem_places_iff : e ∈ root.places ↔ root.Reaches e := by
  rw [places, listing, List.map_cons]
  constructor
  · intro he
    rcases List.mem_cons.mp he with rfl | he
    · exact .root
    · exact reaches_of_mem_listingFrom (fun _ hpart => .part .root hpart) he
  · intro h
    induction h with
    | root => exact List.mem_cons_self
    | part _ he ih =>
      refine List.mem_cons_of_mem _ ?_
      rcases List.mem_cons.mp ih with heq | hm
      · cases heq
        exact elementsFrom_subset_listingFrom _ 1 0 _ _ he
      · exact elements_subset_listingFrom hm he

/-- The nodes that are reached are the descendants. -/
theorem mem_descendants_iff : m ∈ root.descendants ↔ root.Reaches (.node m) := by
  rw [← mem_places_iff]
  refine ⟨node_mem_places, fun hm => ?_⟩
  rw [← root.nodes_places]
  exact List.mem_filterMap.mpr ⟨_, hm, rfl⟩

/-- The leaves that are reached are the leaves. -/
theorem mem_leaves_iff {l : Leaf} : l ∈ root.leaves ↔ root.Reaches (.leaf l) := by
  rw [← mem_places_iff, ← root.leaves_places, List.mem_filterMap]
  constructor
  · rintro ⟨e, he, hl⟩
    cases e with
    | node d => cases hl
    | leaf k =>
      rw [← Option.some.inj hl]
      exact he
  · exact fun hl => ⟨_, hl, rfl⟩

end Node

/-! ## Positions tell the truth -/

/-- Whether the positions of a node are those of a text: its ranges cut its texts out of it, its
trimmed text is cut out of its own, its parts tile it, and it is empty if there is no token below
it. -/
structure Node.IsPlaced (n : Node) (source : Text) : Prop where
  text : source.slice? n.range.start n.range.stop = some n.text
  textTrimmed : source.slice? n.trimmedRange.start n.trimmedRange.stop = some n.textTrimmed
  ownTrimmed : n.text.slice? (n.trimmedRange.start - n.offset) (n.trimmedRange.stop - n.offset)
    = some n.textTrimmed
  elements : Span.Tiles n.range.start (n.elements.map Element.range) n.range.stop
  empty : n.presentLeaves = [] → n.range = .empty n.offset ∧ n.trimmedRange = .empty n.offset

/-- Whether the positions of a leaf are those of a text: the ranges of a token cut its texts out of
it, and its spelling is cut out of its own; a missing token is empty. -/
structure Leaf.IsPlaced (l : Leaf) (source : Text) : Prop where
  text : l.isPresent → source.slice? l.range.start l.range.stop = some l.green.text
  textTrimmed : l.isPresent →
    source.slice? l.trimmedRange.start l.trimmedRange.stop = some l.green.textTrimmed
  ownTrimmed : l.isPresent → l.green.text.slice? l.green.leading.byteLen
    (l.green.byteLen - l.green.trailing.byteLen) = some l.green.textTrimmed
  missing : l.isPresent = false → l.range = .empty l.offset ∧ l.trimmedRange = .empty l.offset

/-- Whether all positions in the tree of a root are those of its text: of all nodes and leaves that
are reached from the root, which are its descendants and its leaves; and whether the ranges of the
leaves tile the text. -/
structure Node.TellsPositions (root : Node) : Prop where
  nodes : ∀ n, root.Reaches (.node n) → n.IsPlaced root.text
  leaves : ∀ l, root.Reaches (.leaf l) → l.IsPlaced root.text
  within : ∀ e, root.Reaches e → e.range.IsWithin root.text
  tokens : Span.Tiles 0 (root.leaves.map Leaf.range) (Text.byteLen root.text)
  mem_leaves : ∀ l, l ∈ root.leaves ↔ root.Reaches (.leaf l)
  mem_descendants : ∀ n, n ∈ root.descendants ↔ root.Reaches (.node n)
  parent : ∀ e m, root.Reaches e → e.parent = some m → root.Reaches (.node m)

theorem Node.offset_ofGreen (g : Green) : (ofGreen g).offset = 0 := by
  cases g <;> rfl

theorem Node.text_ofGreen (g : Green) : (ofGreen g).text = g.text := by
  cases g with
  | node kind cs => rfl
  | leaf l => exact List.append_nil l.source

theorem Node.way_ofGreen (g : Green) : (ofGreen g).way = [] := by
  cases g <;> rfl

theorem Node.leaves_ofGreen (g : Green) : (ofGreen g).green.leaves = g.leaves := by
  cases g <;> rfl

/-- All positions of a node are those of a text, if the range of the node cuts its text out of the
text and the trivia below it fits. -/
theorem Node.isPlaced {n : Node} {text : Text} (hn : n.range.Cuts n.text text)
    (haligned : n.green.IsAligned) : n.IsPlaced text := by
  obtain ⟨htrimmed, hown⟩ := cuts_trimmedRange haligned hn
  refine ⟨hn.slice?, htrimmed.slice?, hown, n.tiles_elements, fun hnone => ⟨?_, ?_⟩⟩
  · have htext := n.text_eq_sourceOf
    rw [hnone] at htext
    have hlen : n.green.byteLen = 0 := by
      rw [← Green.byteLen_text]
      exact congrArg Text.byteLen htext
    rw [range, hlen]
    rfl
  · rw [trimmedRange, hnone]

/-- All positions of a token are those of a text, if its range cuts its source out of the text and
its trivia fits. -/
theorem Leaf.isPlaced {l : Leaf} {text : Text} (hl : l.range.Cuts l.green.source text)
    (haligned : (Green.leaf l.green).IsAligned) : l.IsPlaced text := by
  obtain ⟨parent, index, offset, green⟩ := l
  cases green with
  | missing kind spelling => exact ⟨nofun, nofun, nofun, fun _ => ⟨rfl, rfl⟩⟩
  | present t =>
    have ht : t.IsAligned := haligned t List.mem_cons_self
    refine ⟨fun _ => hl.slice?, fun _ => (cuts_trimmedRange rfl ht hl).slice?, fun _ => ?_, nofun⟩
    obtain ⟨lead, trail, hfull, hlead, hspelling⟩ := ht.exists_eq
    show Text.slice? t.leading.byteLen (t.byteLen - t.trailing.byteLen) t.full = some t.text
    rw [← hspelling, ← hlead, hfull, Text.slice?_append]

/-- **Positions tell the truth.** In every tree whose tokens have fitting trivia, whatever it is
made of, all that is reached from the root stands at its range in the text of the root. -/
theorem Green.tellsPositions (tree : Green) (h : tree.IsAligned) :
    (Node.ofGreen tree).TellsPositions := by
  have hroot := Node.offset_ofGreen tree
  have haligned : (Node.ofGreen tree).green.IsAligned := fun t ht =>
    h t (Node.leaves_ofGreen tree ▸ ht)
  refine ⟨fun n hn => Node.isPlaced (hn.cuts hroot) (hn.isAligned haligned),
    fun l hl => Leaf.isPlaced (hl.cuts hroot) (hl.isAligned haligned),
    fun e he => (he.cuts hroot).isWithin, ?_, fun _ => Node.mem_leaves_iff,
    fun _ => Node.mem_descendants_iff, fun _ _ he => he.parent (Node.way_ofGreen tree)⟩
  have htiles := (Node.ofGreen tree).tiles_leaves
  have hstop : (Node.ofGreen tree).range.stop = Text.byteLen (Node.ofGreen tree).text := by
    show (Node.ofGreen tree).offset + _ = _
    rw [hroot, Nat.zero_add, ← Green.byteLen_text]
    rfl
  rw [hstop] at htiles
  exact hroot ▸ htiles

/-- The theorem at a tree with an empty node, a missing token and a letter of two bytes. -/
theorem Green.tellsPositions_accented :
    let tree : Green := .node .tupleExpr [.node .attributeList [], .missing .leftParen ['('],
      .leaf (.present ⟨[(.whitespace, 1)], .identifier, [' ', 'é', '\n'], [(.newline, 1)]⟩)]
    tree.IsAligned ∧ (Node.ofGreen tree).TellsPositions ∧ (Node.ofGreen tree).trimmedRange =
      ⟨1, 3⟩ := by
  intro tree
  have haligned : tree.IsAligned := by
    intro t ht
    have hleaves : tree.leaves = [.missing .leftParen ['('],
      .present ⟨[(.whitespace, 1)], .identifier, [' ', 'é', '\n'], [(.newline, 1)]⟩] := rfl
    rw [hleaves, List.mem_cons, List.mem_singleton] at ht
    rcases ht with ht | ht
    · cases ht
    · cases ht
      exact ⟨rfl, ⟨[' '], ['é', '\n'], rfl, rfl⟩, ⟨[' ', 'é'], ['\n'], rfl, rfl⟩⟩
  exact ⟨haligned, tellsPositions tree haligned, rfl⟩

end SwiftTree
