import SwiftTree.Proofs.CStyleLoops
import SwiftTree.Proofs.Enclosing
import SwiftTree.Proofs.ListViews

/-!
# Looking up positions

A marker stands at a position of the text, and is looked up as the innermost node that starts there
(`Parse.nodeAt`), or as the token that covers it (`Node.leafAt`). The first lookup takes the last
one of the nodes that start at the position, in source order. This is the innermost one: only tokens
that are written out make a node start somewhere, and no two of them start at one position, so all
nodes that do have the same first token; hence they are above each other, and in source order a node
stands behind those that are above it (`Node.pairwise_descendants`).
-/

namespace SwiftTree

/-! ## Ranges that follow each other -/

namespace Span

variable {start stop pos : Nat} {ss : List Span}

/-- Ranges that follow each other cover every position between their ends. -/
theorem Tiles.exists_contains (h : Tiles start ss stop) (hstart : start ≤ pos)
    (hstop : pos < stop) :
    ∃ s ∈ ss, s.contains pos := by
  induction ss generalizing start with
  | nil =>
    obtain rfl : start = stop := h
    omega
  | cons s ss ih =>
    obtain ⟨rfl, -, hrest⟩ := h
    by_cases hpos : pos < s.stop
    · refine ⟨s, List.mem_cons_self, ?_⟩
      rw [contains, decide_eq_true hstart, decide_eq_true hpos]
      rfl
    · obtain ⟨u, hu, hcontains⟩ := ih hrest (Nat.le_of_not_lt hpos)
      exact ⟨u, List.mem_cons_of_mem s hu, hcontains⟩

/-- Ranges that tile a stretch of text lead from its start to its stop, and not back. -/
theorem Tiles.le (h : Tiles start ss stop) : start ≤ stop := by
  induction ss generalizing start with
  | nil => exact Nat.le_of_eq h
  | cons s ss ih =>
    obtain ⟨rfl, hle, hrest⟩ := h
    exact Nat.le_trans hle (ih hrest)

/-- No range that tiles a stretch starts before the stretch. -/
theorem Tiles.start_le {s : Span} (h : Tiles start ss stop) (hs : s ∈ ss) : start ≤ s.start := by
  induction ss generalizing start with
  | nil => cases hs
  | cons u ss ih =>
    obtain ⟨rfl, hle, hrest⟩ := h
    rcases List.mem_cons.mp hs with rfl | hs
    · exact Nat.le_refl _
    · exact Nat.le_trans hle (ih hrest hs)

/-- No range that tiles a stretch stops behind the stretch. -/
theorem Tiles.le_stop {s : Span} (h : Tiles start ss stop) (hs : s ∈ ss) : s.stop ≤ stop := by
  induction ss generalizing start with
  | nil => cases hs
  | cons u ss ih =>
    obtain ⟨rfl, hle, hrest⟩ := h
    rcases List.mem_cons.mp hs with rfl | hs
    · exact hrest.le
    · exact ih hrest hs

/-- Each range ends before those behind it start. -/
theorem Tiles.pairwise (h : Tiles start ss stop) : ss.Pairwise fun s u => s.stop ≤ u.start := by
  induction ss generalizing start with
  | nil => exact .nil
  | cons s ss ih =>
    obtain ⟨rfl, -, hrest⟩ := h
    exact .cons (fun u hu => hrest.start_le hu) (ih hrest)

end Span

/-! ## Nodes above each other -/

namespace Node

variable {n d : Node} {l : Leaf}

/-- A node stands above everything that is reached from it. -/
theorem mem_ancestors_of_reaches (h : n.Reaches (.node d)) : n ∈ d.ancestors := by
  refine descendants_induction List.mem_cons_self (fun p _ ih d hd => ?_)
    (mem_descendants_iff.mpr h)
  rw [ancestors_eq, (childNodes_spec hd).2]
  exact List.mem_cons_of_mem d ih

/-- The parent of a leaf stands between the leaf and every node that the leaf is reached from. -/
theorem reaches_parent (hl : l ∈ n.leaves) : n.Reaches (.node l.parent) ∧ l ∈ l.parent.leaves := by
  have hreaches := mem_leaves_iff.mp hl
  generalize he : Element.leaf l = e at hreaches
  cases hreaches with
  | root => cases he
  | @part m e h hmem =>
    obtain ⟨index, offset, g, rfl⟩ := exists_of_mem_elements hmem
    cases g with
    | node kind cs => cases he
    | leaf g =>
      obtain rfl := Element.leaf.inj he
      exact ⟨h, mem_leaves_iff.mpr (.part .root hmem)⟩

/-- The leaves below a node stand together among those below a node above it. -/
theorem leaves_within (h : n.Reaches (.node d)) : d.leaves <:+: n.leaves := by
  generalize he : Element.node d = e at h
  induction h generalizing d with
  | root =>
    obtain rfl := Element.node.inj he
    exact List.infix_refl _
  | @part m e _ hmem ih =>
    subst he
    have hfrom : ∀ (gs : List Green) (index offset : Nat),
      .node d ∈ m.elementsFrom index offset gs →
        d.leaves <:+: m.leavesFrom index offset gs := by
      intro gs
      induction gs with
      | nil => exact nofun
      | cons g gs ih =>
        intro index offset hd
        rw [leavesFrom]
        rcases List.mem_cons.mp hd with hd | hd
        · cases g with
          | leaf l => cases hd
          | node kind cs =>
            obtain rfl := Element.node.inj hd
            exact (List.prefix_append _ _).isInfix
        · exact (ih _ _ hd).trans (List.suffix_append _ _).isInfix
    exact (hfrom m.children 0 m.offset hmem).trans (ih rfl)

/-! ### Paths -/

/-- A node on a way is reached by going that way only in part, so its path is what is left of the
way's. -/
theorem path_suffix_of_mem_ofWay {way : List Frame} (h : d ∈ ofWay way) :
    d.path <:+ way.map Frame.index := by
  induction way with
  | nil => cases h
  | cons f way ih =>
    rcases List.mem_cons.mp h with rfl | h
    · exact List.suffix_cons _ _
    · exact (ih h).trans (List.suffix_cons _ _)

/-- The path of a node above another one is an end of the path of that one, for paths are written
from the node up. -/
theorem path_suffix_of_mem_ancestors (h : d ∈ n.ancestors) : d.path <:+ n.path := by
  rcases List.mem_cons.mp h with rfl | h
  · exact List.suffix_refl _
  · exact path_suffix_of_mem_ofWay h

/-- The path of a node in a part of another one goes on from the step to this part. -/
theorem path_suffix_of_mem_nodesIn {index offset : Nat} {g : Green}
    (h : d ∈ n.nodesIn index offset g) : index :: n.path <:+ d.path := by
  cases g with
  | leaf l => cases h
  | node kind cs =>
    have hreaches : Reaches ⟨kind, cs, offset, n.step index⟩ (.node d) := mem_descendants_iff.mp h
    exact path_suffix_of_mem_ancestors (mem_ancestors_of_reaches hreaches)

/-- The path of a node in several parts of another one goes on from the step to one of them. -/
theorem path_suffix_of_mem_nodesFrom {index offset : Nat} {gs : List Green}
    (h : d ∈ n.nodesFrom index offset gs) : ∃ i, index ≤ i ∧ i :: n.path <:+ d.path := by
  induction gs generalizing index offset with
  | nil => cases h
  | cons g gs ih =>
    rcases List.mem_append.mp h with h | h
    · exact ⟨index, Nat.le_refl _, path_suffix_of_mem_nodesIn h⟩
    · obtain ⟨i, hi, hsuffix⟩ := ih h
      exact ⟨i, Nat.le_of_succ_le hi, hsuffix⟩

mutual

/-- In the listing of the nodes of a part, none stands in front of a node that is above it. -/
theorem pairwise_nodesIn (n : Node) (index offset : Nat) : (g : Green) →
    (n.nodesIn index offset g).Pairwise fun a b => b ∉ a.ancestors
  | .node kind cs => by
    rw [nodesIn]
    refine .cons (fun d hd habove => ?_) (pairwise_nodesFrom _ 0 offset cs)
    -- what is above a node has no longer path
    obtain ⟨i, -, hsuffix⟩ := path_suffix_of_mem_nodesFrom hd
    have hlength := (hsuffix.trans (path_suffix_of_mem_ancestors habove)).length_le
    rw [List.length_cons] at hlength
    omega
  | .leaf _ => .nil

/-- The same for the nodes of several parts: the paths of those in different parts differ in the
step below the node. -/
theorem pairwise_nodesFrom (n : Node) (index offset : Nat) : (gs : List Green) →
    (n.nodesFrom index offset gs).Pairwise fun a b => b ∉ a.ancestors
  | [] => .nil
  | g :: gs => by
    rw [nodesFrom]
    refine List.pairwise_append.mpr ⟨pairwise_nodesIn n index offset g,
      pairwise_nodesFrom n (index + 1) _ gs, fun a ha d hd habove => ?_⟩
    -- the paths of both part at this node
    obtain ⟨i, hi, hsuffix⟩ := path_suffix_of_mem_nodesFrom hd
    have hsame := eq_of_suffix (hsuffix.trans (path_suffix_of_mem_ancestors habove))
      (path_suffix_of_mem_nodesIn ha)
    omega

end

/-- In source order a node stands behind those that are above it. So the first node that is found at
a position is the outermost one of those that start there. -/
theorem pairwise_descendants (n : Node) : n.descendants.Pairwise fun a b => b ∉ a.ancestors := by
  refine .cons (fun d hd habove => ?_) (n.pairwise_nodesFrom 0 n.offset n.children)
  obtain ⟨i, -, hsuffix⟩ := path_suffix_of_mem_nodesFrom hd
  have hlength := (hsuffix.trans (path_suffix_of_mem_ancestors habove)).length_le
  rw [List.length_cons] at hlength
  omega

/-- If all nodes that pass a test stand above one of them, then this is the last one of them. -/
theorem getLast?_filter_descendants {test : Node → Bool} {m : Node} (hm : m ∈ n.descendants)
    (htest : test m) (habove : ∀ d ∈ n.descendants, test d → d ∈ m.ancestors) :
    (n.descendants.filter test).getLast? = some m := by
  have hmem : m ∈ n.descendants.filter test := List.mem_filter.mpr ⟨hm, htest⟩
  obtain ⟨front, last, hlast⟩ := (List.eq_nil_or_concat _).resolve_left (List.ne_nil_of_mem hmem)
  rw [List.concat_eq_append] at hlast
  have hordered := (n.pairwise_descendants).filter test
  rw [hlast, List.pairwise_append] at hordered
  have hpassed := List.mem_filter.mp (show last ∈ n.descendants.filter test by rw [hlast]; simp)
  rw [hlast, List.mem_append, List.mem_singleton] at hmem
  rcases hmem with hmem | rfl
  · exact absurd (habove last hpassed.1 hpassed.2) (hordered.2.2 m hmem last List.mem_cons_self)
  · rw [hlast, List.getLast?_concat]

end Node

/-! ## The tokens of a text -/

namespace Entry

open Grammar

variable {e : Entry} {text : Text} {n : Node} {l k : Leaf} {pos : Nat}

/-- Every token in the tree of a text that was read has trivia that fits its text. -/
theorem exists_token (hl : l ∈ (Node.ofGreen (e.tree text)).presentLeaves) :
    ∃ t, l.green = .present t ∧ t.IsAligned := by
  obtain ⟨hmem, hpresent⟩ := List.mem_filter.mp hl
  obtain ⟨parent, index, offset, green⟩ := l
  cases green with
  | missing kind spelling => cases hpresent
  | present t =>
    refine ⟨t, rfl, e.isAligned_tree text t ?_⟩
    rw [← Node.leaves_ofGreen, ← Node.green_leaves]
    exact List.mem_map_of_mem hmem

/-- The spelling of a token stands between its trivia. -/
theorem le_trimmedRange (hl : l ∈ (Node.ofGreen (e.tree text)).presentLeaves) :
    l.range.start ≤ l.trimmedRange.start ∧ l.trimmedRange.start ≤ l.trimmedRange.stop ∧
      l.trimmedRange.stop ≤ l.range.stop := by
  obtain ⟨t, hgreen, haligned⟩ := exists_token hl
  obtain ⟨lead, trail, hfull, hrange⟩ := Leaf.exists_spelling hgreen haligned
  have hlength : l.range.stop = l.range.start + Text.byteLen t.full := by
    show l.offset + l.green.byteLen = _
    rw [hgreen]
    rfl
  rw [hfull, Text.byteLen_append, Text.byteLen_append] at hlength
  simp only [hrange, Span.ofLen]
  omega

/-- The tokens of a text, with their trivia, follow each other. -/
theorem tiles_presentLeaves (e : Entry) (text : Text) :
    Span.Tiles 0 ((Node.ofGreen (e.tree text)).presentLeaves.map Leaf.range)
    (Text.byteLen text) := by
  have htiles := Leaf.tiles_filter (Node.ofGreen (e.tree text)).tiles_leaves
  have hlength : (Node.ofGreen (e.tree text)).green.byteLen = Text.byteLen text := by
    rw [← Green.byteLen_text]
    exact congrArg Text.byteLen ((Node.text_ofGreen _).trans (e.text_tree text))
  rw [Node.range, hlength, Node.offset_ofGreen, Span.ofLen, Nat.zero_add] at htiles
  exact htiles

/-- A token before the end of the file is written out. -/
theorem written_of_mem_leavesFrom {r : Node} {index offset : Nat}
    (hl : l ∈ (r.leavesFrom index offset (e.parts text)).filter Leaf.isPresent) :
    ∃ t, l.green = .present t ∧ t.text ≠ [] := by
  obtain ⟨hmem, hpresent⟩ := List.mem_filter.mp hl
  obtain ⟨-, -, pieces, hpieces, htokens⟩ := e.parts_eq text
  obtain ⟨parent, index, offset, green⟩ := l
  cases green with
  | missing kind spelling => cases hpresent
  | present t =>
    have htoken : t ∈ Green.tokensOf (e.parts text) := by
      refine List.mem_filterMap.mpr ⟨.present t, ?_, rfl⟩
      rw [← Node.green_leavesFrom]
      exact List.mem_map_of_mem hmem
    rw [htokens] at htoken
    obtain ⟨p, hp, rfl⟩ := List.mem_map.mp htoken
    refine ⟨_, rfl, ?_⟩
    rw [Token.text_outline]
    refine hpieces.text_ne_nil (fun x hx => ?_) p hp
    obtain ⟨y, -, rfl⟩ := List.mem_map.mp hx
    exact y.solid.1

/-- The last token is the end of the file, which is empty and stands at the end of the text. Every
other token is written out. -/
theorem exists_presentLeaves_eq (e : Entry) (text : Text) : ∃ front last,
    (Node.ofGreen (e.tree text)).presentLeaves = front ++ [last] ∧ last.kind = .endOfFile ∧
      last.trimmedRange = .empty (Text.byteLen text) ∧ last.range.stop = Text.byteLen text ∧
      ∀ l ∈ front, l.kind ≠ .endOfFile ∧ l.trimmedRange.start < l.trimmedRange.stop := by
  obtain ⟨offset, hleaves⟩ := e.leaves_tree text
  have htiles := e.tiles_presentLeaves text
  have hall : (Node.ofGreen (e.tree text)).presentLeaves = List.filter Leaf.isPresent _ ++ [_] :=
    (congrArg (List.filter Leaf.isPresent) hleaves).trans (List.filter_append _ _)
  rw [hall, List.map_append] at htiles
  have hstop := htiles.stop_eq
  refine ⟨_, _, hall, kind_endOfFile text, ?_, hstop, fun l hl => ⟨?_, ?_⟩⟩
  · obtain ⟨leading, heof⟩ := exists_endOfFile_eq text
    have hlength : (endOfFile text).byteLen = (endOfFile text).leading.byteLen
        ∧ (endOfFile text).trailing.byteLen = 0 := by
      rw [heof]
      exact ⟨rfl, rfl⟩
    rw [← hstop]
    show Span.mk (offset + _) (offset + (_ - _))
      = .mk (offset + (endOfFile text).outline.byteLen) (offset + (endOfFile text).outline.byteLen)
    rw [Token.byteLen_leading_outline, Token.byteLen_trailing_outline, Token.byteLen_outline,
      hlength.1, hlength.2]
    rfl
  · exact Kind.ne_endOfFile_of_isSolid
      (Node.isSolid_of_mem_leavesFrom (e.parts_spec text).2 (List.mem_of_mem_filter hl))
  · obtain ⟨t, hgreen, hwritten⟩ := written_of_mem_leavesFrom hl
    have haligned := exists_token (l := l) (by rw [hall]; exact List.mem_append_left _ hl)
    obtain ⟨t', hgreen', haligned⟩ := haligned
    obtain rfl := Green.Leaf.present.inj (hgreen.symm.trans hgreen')
    obtain ⟨lead, trail, -, hrange⟩ := Leaf.exists_spelling hgreen haligned
    have hpos := Text.byteLen_pos hwritten
    simp only [hrange, Span.ofLen]
    omega

/-- The end of the file is empty, and stands at the end of the text. -/
theorem range_of_endOfFile (hl : l ∈ (Node.ofGreen (e.tree text)).presentLeaves)
    (hkind : l.kind = .endOfFile) :
    l.trimmedRange = .empty (Text.byteLen text) ∧ l.range.stop = Text.byteLen text := by
  obtain ⟨front, last, hall, -, hempty, hstop, hfront⟩ := e.exists_presentLeaves_eq text
  rw [hall, List.mem_append, List.mem_singleton] at hl
  rcases hl with hl | rfl
  · exact absurd hkind (hfront l hl).1
  · exact ⟨hempty, hstop⟩

/-- The spelling of a token is not empty, but for the end of the file. So no two tokens start at the
same position. -/
theorem start_lt_stop (hl : l ∈ (Node.ofGreen (e.tree text)).presentLeaves)
    (hkind : l.kind ≠ .endOfFile) :
    l.trimmedRange.start < l.trimmedRange.stop := by
  obtain ⟨front, last, hall, hlast, -, -, hfront⟩ := e.exists_presentLeaves_eq text
  rw [hall, List.mem_append, List.mem_singleton] at hl
  rcases hl with hl | rfl
  · exact (hfront l hl).2
  · exact absurd hlast hkind

/-- Each token starts and ends before those behind it start. -/
theorem pairwise_presentLeaves (e : Entry) (text : Text) :
    (Node.ofGreen (e.tree text)).presentLeaves.Pairwise fun k l =>
      k.trimmedRange.start < l.trimmedRange.start ∧ k.trimmedRange.stop ≤ l.trimmedRange.start := by
  have hranges : (Node.ofGreen (e.tree text)).presentLeaves.Pairwise fun k l =>
      k.trimmedRange.stop ≤ l.trimmedRange.start := by
    refine (List.pairwise_map.mp (e.tiles_presentLeaves text).pairwise).imp_of_mem fun hk hl h => ?_
    exact Nat.le_trans (le_trimmedRange hk).2.2 (Nat.le_trans h (le_trimmedRange hl).1)
  obtain ⟨front, last, hall, -, -, -, hfront⟩ := e.exists_presentLeaves_eq text
  rw [hall, List.pairwise_append] at hranges ⊢
  have hstarts {k l : Leaf} (hk : k ∈ front) (h : k.trimmedRange.stop ≤ l.trimmedRange.start) :
      k.trimmedRange.start < l.trimmedRange.start ∧ k.trimmedRange.stop ≤ l.trimmedRange.start :=
    ⟨Nat.lt_of_lt_of_le (hfront k hk).2 h, h⟩
  exact ⟨hranges.1.imp_of_mem fun hk _ h => hstarts hk h, List.pairwise_singleton _ _,
    fun k hk l hl => hstarts hk (hranges.2.2 k hk l hl)⟩

/-! ## Nodes that start at a position -/

/-- The tokens below a node stand together among those of the text. -/
theorem presentLeaves_within (hn : n ∈ (Node.ofGreen (e.tree text)).descendants) :
    n.presentLeaves <:+: (Node.ofGreen (e.tree text)).presentLeaves :=
  (Node.leaves_within (Node.mem_descendants_iff.mp hn)).filter _

/-- A node starts at a position, and is not empty, exactly if its first token is no end of the file
and starts there. -/
theorem startsAt_iff (hn : n ∈ (Node.ofGreen (e.tree text)).descendants) :
    n.trimmedRange.start = pos ∧ n.trimmedRange.isEmpty = false ↔
      ∃ l, n.presentLeaves.head? = some l ∧ l.kind ≠ .endOfFile ∧ l.trimmedRange.start = pos := by
  have hwithin := presentLeaves_within hn
  have hordered := (e.pairwise_presentLeaves text).sublist hwithin.sublist
  unfold Node.trimmedRange
  cases hleaves : n.presentLeaves with
  | nil => simp [Span.isEmpty, Span.empty]
  | cons first rest =>
    rw [hleaves] at hwithin hordered
    have hmem (l : Leaf) (hl : l ∈ first :: rest) := hwithin.subset hl
    have hbehind := (List.pairwise_cons.mp hordered).1
    have hfirst := le_trimmedRange (hmem first List.mem_cons_self)
    have hempty : Span.isEmpty ⟨first.trimmedRange.start,
      (rest.getLastD first).trimmedRange.stop⟩ = false
        ↔ first.kind ≠ .endOfFile := by
      rw [Span.isEmpty, beq_eq_false_iff_ne]
      show first.trimmedRange.start ≠ (rest.getLastD first).trimmedRange.stop ↔ _
      constructor
      · -- nothing stands behind the end of the file
        intro hne hkind
        obtain ⟨hrange, -⟩ := range_of_endOfFile (hmem first List.mem_cons_self) hkind
        cases rest with
        | nil =>
          rw [List.getLastD_nil, hrange] at hne
          exact hne rfl
        | cons k ks =>
          have hk := hmem k (List.mem_cons_of_mem _ List.mem_cons_self)
          have hstart := (hbehind k List.mem_cons_self).1
          have hlast := (e.tiles_presentLeaves text).le_stop (List.mem_map_of_mem hk)
          have hranges := le_trimmedRange hk
          have hend : first.trimmedRange.start = Text.byteLen text := congrArg Span.start hrange
          omega
      · intro hkind
        -- the range starts before the first token ends, and the last one ends no earlier
        have hwritten := start_lt_stop (hmem first List.mem_cons_self) hkind
        have hlast : rest.getLastD first ∈ first :: rest := List.getLastD_mem_cons
        rcases List.mem_cons.mp hlast with hlast | hlast
        · rw [hlast]
          omega
        · have hstop := (hbehind _ hlast).2
          have hranges := le_trimmedRange (hmem _ (List.mem_cons_of_mem _ hlast))
          omega
    show _ ∧ Span.isEmpty ⟨_, ((first :: rest).getLastD first).trimmedRange.stop⟩ = false ↔ _
    rw [List.getLastD_cons, hempty, List.head?_cons]
    constructor
    · rintro ⟨hstart, hkind⟩
      exact ⟨first, rfl, hkind, hstart⟩
    · rintro ⟨l, hl, hkind, hstart⟩
      obtain rfl := Option.some.inj hl
      exact ⟨hstart, hkind⟩

/-- The first token of a node is the first one of its parent, and stands below the node. -/
theorem head?_parent (hn : n ∈ (Node.ofGreen (e.tree text)).descendants)
    (hl : n.presentLeaves.head? = some l) : l ∈ (Node.ofGreen (e.tree text)).presentLeaves ∧
      l.parent ∈ (Node.ofGreen (e.tree text)).descendants ∧ n ∈ l.parent.ancestors ∧
      l.parent.presentLeaves.head? = some l := by
  have hwithin := presentLeaves_within hn
  have hmem := List.mem_of_mem_head? hl
  obtain ⟨hleaf, hpresent⟩ := List.mem_filter.mp hmem
  obtain ⟨hparent, hown⟩ := Node.reaches_parent hleaf
  refine ⟨hwithin.subset hmem,
    Node.mem_descendants_iff.mpr ((Node.mem_descendants_iff.mp hn).trans hparent),
    Node.mem_ancestors_of_reaches hparent, ?_⟩
  have howned : l ∈ l.parent.presentLeaves := List.mem_filter.mpr ⟨hown, hpresent⟩
  obtain ⟨before, behind, hsplit⟩ := (Node.leaves_within hparent).filter Leaf.isPresent
  change before ++ l.parent.presentLeaves ++ behind = n.presentLeaves at hsplit
  have hordered := (e.pairwise_presentLeaves text).sublist hwithin.sublist
  cases before with
  | nil =>
    obtain ⟨first, rest, hcons⟩ := List.exists_cons_of_ne_nil (List.ne_nil_of_mem howned)
    rw [← hsplit, hcons] at hl
    rw [hcons]
    exact hl
  | cons k before =>
    -- then the token would stand before itself
    rw [← hsplit] at hl hordered
    obtain rfl : k = l := Option.some.inj hl
    have hbehind := (List.pairwise_cons.mp hordered).1 k
      (List.mem_append_left _ (List.mem_append_right _ howned))
    exact absurd hbehind.1 (Nat.lt_irrefl _)

end Entry

/-! ## Tokens that cover a position -/

/-- If the first one of any two elements that passes rules out the second one, then at most one
passes. -/
theorem eq_of_pairwise {α : Type} {ls : List α} {x y : α} (holds : α → Prop)
    (h : ls.Pairwise fun x y => holds x → ¬holds y) (hx : x ∈ ls) (hy : y ∈ ls) (hxholds : holds x)
    (hyholds : holds y) : x = y := by
  have : Std.Symm fun x y => holds x → ¬holds y := ⟨fun _ _ h hy hx => h hx hy⟩
  by_contra hne
  exact h.forall hx hy hne hxholds hyholds

/-- If at most one element of a list passes a test, then this is the one that is found. -/
theorem find?_eq_some_iff {α : Type} {ls : List α} {test : α → Bool} {x : α}
    (h : ∀ x ∈ ls, ∀ y ∈ ls, test x → test y → x = y) :
    ls.find? test = some x ↔ x ∈ ls ∧ test x := by
  constructor
  · exact fun hfound => ⟨List.mem_of_find?_eq_some hfound, List.find?_some hfound⟩
  · rintro ⟨hmem, htest⟩
    obtain ⟨y, hy⟩ := Option.isSome_iff_exists.mp (List.find?_isSome.mpr ⟨x, hmem, htest⟩)
    rw [hy, h y (List.mem_of_find?_eq_some hy) x hmem (List.find?_some hy) htest]

theorem Span.contains_iff {s : Span} {pos : Nat} :
    s.contains pos ↔ s.start ≤ pos ∧ pos < s.stop := by
  rw [contains, Bool.and_eq_true, decide_eq_true_iff, decide_eq_true_iff]

namespace Leaf

/-- Whether a token covers a position, or is the end of the file and stands there. -/
def Covers (l : Leaf) (pos : Nat) : Prop :=
  l.trimmedRange.contains pos ∨ l.kind = .endOfFile ∧ l.trimmedRange.start = pos

/-- Whether a position is in the trivia before or behind a token. -/
def HasInTrivia (l : Leaf) (pos : Nat) : Prop :=
  l.range.start ≤ pos ∧ pos < l.trimmedRange.start ∨ l.trimmedRange.stop ≤ pos ∧ pos < l.range.stop

end Leaf

namespace Entry

variable {e : Entry} {text : Text} {l k : Leaf} {pos : Nat}

/-- Only the end of the file is empty. -/
theorem isEmpty_iff (hl : l ∈ (Node.ofGreen (e.tree text)).presentLeaves) :
    l.trimmedRange.isEmpty ↔ l.kind = .endOfFile := by
  rw [Span.isEmpty, beq_iff_eq]
  constructor
  · intro hempty
    by_contra hkind
    exact absurd hempty (Nat.ne_of_lt (start_lt_stop hl hkind))
  · intro hkind
    rw [(range_of_endOfFile hl hkind).1]
    rfl

/-- No two tokens cover one position. -/
theorem eq_of_covers (hk : k ∈ (Node.ofGreen (e.tree text)).presentLeaves)
    (hl : l ∈ (Node.ofGreen (e.tree text)).presentLeaves) (hkpos : k.Covers pos)
    (hlpos : l.Covers pos) :
    k = l := by
  refine eq_of_pairwise (Leaf.Covers · pos) ((e.pairwise_presentLeaves text).imp ?_) hk hl
    hkpos hlpos
  intro k l h hkpos hlpos
  rw [Leaf.Covers, Span.contains_iff] at hkpos hlpos
  omega

/-- No two tokens have one position among them and their trivia. -/
theorem eq_of_range_contains (hk : k ∈ (Node.ofGreen (e.tree text)).presentLeaves)
    (hl : l ∈ (Node.ofGreen (e.tree text)).presentLeaves) (hkpos : k.range.contains pos)
    (hlpos : l.range.contains pos) : k = l := by
  have hordered := List.pairwise_map.mp (e.tiles_presentLeaves text).pairwise
  refine eq_of_pairwise (fun l => l.range.contains pos) (hordered.imp ?_) hk hl hkpos hlpos
  intro k l h hkpos hlpos
  rw [Span.contains_iff] at hkpos hlpos
  omega

/-- What is looked up is the token that covers the position. -/
theorem covers_iff (hl : l ∈ (Node.ofGreen (e.tree text)).presentLeaves) :
    (l.trimmedRange.contains pos || (l.trimmedRange.isEmpty && l.trimmedRange.start == pos))
      ↔ l.Covers pos := by
  rw [Bool.or_eq_true, Bool.and_eq_true, isEmpty_iff hl, beq_iff_eq]
  rfl

/-- **The token at a position.** A token is found exactly if it covers the position: if its spelling
stands there, or if it is the end of the file and stands there. -/
theorem leafAt_eq_some_iff : (Node.ofGreen (e.tree text)).leafAt pos = some l ↔
    l ∈ (Node.ofGreen (e.tree text)).presentLeaves ∧ l.Covers pos := by
  rw [Node.leafAt, find?_eq_some_iff fun k hk l hl hkpos hlpos =>
    eq_of_covers hk hl ((covers_iff hk).mp hkpos) ((covers_iff hl).mp hlpos)]
  exact and_congr_right covers_iff

/-- A position that is covered is in the text, or at its end. -/
theorem le_of_covers (hk : k ∈ (Node.ofGreen (e.tree text)).presentLeaves) (h : k.Covers pos) :
    pos ≤ Text.byteLen text := by
  have hranges := le_trimmedRange hk
  have hend := (e.tiles_presentLeaves text).le_stop (List.mem_map_of_mem hk)
  rcases h with hcontains | ⟨-, hstart⟩
  · rw [Span.contains_iff] at hcontains
    omega
  · omega

/-- A position that is covered is not in the trivia of any token. -/
theorem not_hasInTrivia_of_covers (hk : k ∈ (Node.ofGreen (e.tree text)).presentLeaves)
    (hl : l ∈ (Node.ofGreen (e.tree text)).presentLeaves) (h : k.Covers pos) :
    ¬l.HasInTrivia pos := by
  intro htrivia
  rw [Leaf.HasInTrivia] at htrivia
  have hranges := le_trimmedRange hk
  have hlranges := le_trimmedRange hl
  rcases h with hcontains | ⟨hkind, hstart⟩
  · rw [Span.contains_iff] at hcontains
    have hkpos : k.range.contains pos := Span.contains_iff.mpr (by omega)
    have hlpos : l.range.contains pos := Span.contains_iff.mpr (by omega)
    obtain rfl := eq_of_range_contains hk hl hkpos hlpos
    omega
  · -- no token goes on behind the end of the text, where the end of the file stands
    have hend : k.trimmedRange.start = Text.byteLen text :=
      congrArg Span.start (range_of_endOfFile hk hkind).1
    have hlend := (e.tiles_presentLeaves text).le_stop (List.mem_map_of_mem hl)
    omega

/-- No token covers a position in trivia or behind the end of the text, and every other one is
covered. -/
theorem forall_not_covers_iff (e : Entry) (text : Text) (pos : Nat) :
    (∀ l ∈ (Node.ofGreen (e.tree text)).presentLeaves, ¬l.Covers pos) ↔
      (∃ l ∈ (Node.ofGreen (e.tree text)).presentLeaves, l.HasInTrivia pos) ∨
      Text.byteLen text < pos := by
  constructor
  · intro hnone
    rw [or_iff_not_imp_right, Nat.not_lt]
    intro hpos
    rcases Nat.lt_or_eq_of_le hpos with hpos | hpos
    · obtain ⟨s, hs, hcontains⟩ :=
        (e.tiles_presentLeaves text).exists_contains (Nat.zero_le pos) hpos
      obtain ⟨l, hl, rfl⟩ := List.mem_map.mp hs
      refine ⟨l, hl, ?_⟩
      have hnot := hnone l hl
      rw [Leaf.Covers, Span.contains_iff] at hnot
      rw [Span.contains_iff] at hcontains
      rw [Leaf.HasInTrivia]
      omega
    · -- the end of the file stands at the end of the text
      obtain ⟨front, last, hall, hkind, hrange, -⟩ := e.exists_presentLeaves_eq text
      refine absurd (.inr ⟨hkind, ?_⟩) (hnone last (by rw [hall]; simp))
      rw [hrange, hpos]
      rfl
  · rintro (⟨l, hl, htrivia⟩ | hpos) k hk hkpos
    · exact not_hasInTrivia_of_covers hk hl hkpos htrivia
    · exact absurd (le_of_covers hk hkpos) (Nat.not_le.mpr hpos)

/-- No token is found exactly at positions in the trivia of a token, and behind the end of the
text. -/
theorem leafAt_eq_none_iff : (Node.ofGreen (e.tree text)).leafAt pos = none ↔
    (∃ l ∈ (Node.ofGreen (e.tree text)).presentLeaves, l.HasInTrivia pos) ∨
    Text.byteLen text < pos := by
  rw [← forall_not_covers_iff, Node.leafAt, List.find?_eq_none]
  exact forall₂_congr fun l hl => not_congr (covers_iff hl)

/-! ## The innermost node -/

/-- All nodes that start at a token stand above the parent of the token, or are it. -/
theorem mem_ancestors_of_startsAt {n : Node} (hl : l ∈ (Node.ofGreen (e.tree text)).presentLeaves)
    (hstart : l.trimmedRange.start = pos) (hn : n ∈ (Node.ofGreen (e.tree text)).descendants)
    (h : n.trimmedRange.start = pos ∧ n.trimmedRange.isEmpty = false) : n ∈ l.parent.ancestors := by
  obtain ⟨k, hk, -, hkstart⟩ := (startsAt_iff hn).mp h
  obtain ⟨hmem, -, habove, -⟩ := head?_parent hn hk
  rwa [eq_of_trimmedRange_start_eq hl hmem (hstart.trans hkstart.symm)]

/-- The node that is looked up is the parent of the token that starts at the position, if it starts
with this token. -/
theorem startingAt_parent (hl : l ∈ (Node.ofGreen (e.tree text)).presentLeaves)
    (hkind : l.kind ≠ .endOfFile) (hstart : l.trimmedRange.start = pos)
    (hfirst : l.parent.presentLeaves.head? = some l) :
    (Node.ofGreen (e.tree text)).startingAt pos = some l.parent := by
  have hparent : l.parent ∈ (Node.ofGreen (e.tree text)).descendants :=
    Node.mem_descendants_iff.mpr (Node.reaches_parent (List.mem_of_mem_filter hl)).1
  have htest (d : Node) : (d.trimmedRange.start == pos && !d.trimmedRange.isEmpty) ↔
      d.trimmedRange.start = pos ∧ d.trimmedRange.isEmpty = false := by
    rw [Bool.and_eq_true, beq_iff_eq, Bool.not_eq_true']
  refine Node.getLast?_filter_descendants hparent ?_ fun d hd h => ?_
  · exact (htest _).mpr ((startsAt_iff hparent).mpr ⟨l, hfirst, hkind, hstart⟩)
  · exact mem_ancestors_of_startsAt hl hstart hd ((htest d).mp h)

/-- The node that starts at a position is the parent of the token there, if this token is the first
one of its parent. This is the innermost of all the nodes that start there. -/
theorem startingAt_eq_some_iff {n : Node} : (Node.ofGreen (e.tree text)).startingAt pos = some n ↔
    ∃ l ∈ (Node.ofGreen (e.tree text)).presentLeaves, l.kind ≠ .endOfFile ∧
      l.trimmedRange.start = pos ∧ l.parent.presentLeaves.head? = some l ∧ n = l.parent := by
  constructor
  · intro h
    obtain ⟨hn, htest⟩ := List.mem_filter.mp (List.mem_of_getLast? h)
    rw [Bool.and_eq_true, beq_iff_eq, Bool.not_eq_true'] at htest
    obtain ⟨l, hl, hkind, hstart⟩ := (startsAt_iff hn).mp htest
    obtain ⟨hmem, -, -, hfirst⟩ := head?_parent hn hl
    have hfound := startingAt_parent hmem hkind hstart hfirst
    exact ⟨l, hmem, hkind, hstart, hfirst, Option.some.inj (h.symm.trans hfound)⟩
  · rintro ⟨l, hl, hkind, hstart, hfirst, rfl⟩
    exact startingAt_parent hl hkind hstart hfirst

end Entry

/-- **A position is looked up as the innermost node, and the only token, that stands there.**
Whatever the text, the entry and the position: a node is found exactly if a token other than the end
of the file starts at the position, without its trivia, and is the first token of its parent. What
is found is this parent, and every other node that is not empty and starts there stands above it,
between it and the root.

The token that is found covers the position, or is the end of the file and stands there; it is the
only one. None is found exactly if the position is in the trivia of a token or behind the end of the
text. -/
theorem Parse.lookup_innermost (e : Entry) (text : Text) (pos : Nat) :
    let p := Parse.ofText e text
    (∀ n, p.nodeAt pos = some n ↔ ∃ l ∈ p.root.presentLeaves, l.kind ≠ .endOfFile ∧
      l.trimmedRange.start = pos ∧ l.parent.presentLeaves.head? = some l ∧ n = l.parent) ∧
    (∀ n, p.nodeAt pos = some n → ∀ d ∈ p.root.descendants, d.trimmedRange.start = pos →
      d.trimmedRange.isEmpty = false → d ∈ n.ancestors) ∧
    (∀ l, p.root.leafAt pos = some l ↔ l ∈ p.root.presentLeaves ∧
      (l.trimmedRange.contains pos ∨ l.kind = .endOfFile ∧ l.trimmedRange.start = pos)) ∧
    (p.root.leafAt pos = none ↔ (∃ l ∈ p.root.presentLeaves,
      l.range.start ≤ pos ∧ pos < l.trimmedRange.start ∨
        l.trimmedRange.stop ≤ pos ∧ pos < l.range.stop) ∨ Text.byteLen text < pos) := by
  refine ⟨fun _ => Entry.startingAt_eq_some_iff, fun n hn d hd hstart hwritten => ?_,
    fun _ => Entry.leafAt_eq_some_iff, Entry.leafAt_eq_none_iff⟩
  obtain ⟨l, hl, -, hpos, -, rfl⟩ := Entry.startingAt_eq_some_iff.mp hn
  exact Entry.mem_ancestors_of_startsAt hl hpos hd ⟨hstart, hwritten⟩

end SwiftTree
