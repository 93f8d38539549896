import Mathlib.Data.List.Nodup
import SwiftTree.Proofs.Accounting
import SwiftTree.Proofs.Carrying
import SwiftTree.Proofs.Positions
import SwiftTree.Proofs.Prospect

/-!
# Where the tokens of a tree come from

The tokens of a tree are the pieces of those of its text. Pieces make up the text of their token,
and a token that rules neither take as another one nor cut is its only piece. So such a token of a
tree is one of the tokens that the rules read, and what was ahead behind it is what stands behind it
in the tree (`Entry.exists_site`).

No piece is empty. So no two tokens of the source start at one position, and unexpected nodes, which
start with a token, are told apart by where these start (`Entry.eq_of_start_eq`).
-/

namespace SwiftTree

namespace Token

/-! ## Pieces and their tokens -/

/-- No piece of a token that is written out is empty. -/
theorem IsCut.text_ne_nil {t p : Token} {ps : List Token} (h : IsCut t ps) (ht : t.text ≠ [])
    (hp : p ∈ ps) : p.text ≠ [] := by
  induction h with
  | whole hk =>
    rw [List.mem_singleton.mp hp]
    exact ht
  | cut _ _ ha hb _ _ ih =>
    rcases List.mem_cons.mp hp with rfl | hp
    · exact ha
    · exact ih hb hp

/-- Pieces of tokens with texts have texts. -/
theorem Pieces.text_ne_nil {ts us : List Token} (h : Pieces ts us) (hts : ∀ t ∈ ts, t.text ≠ []) :
    ∀ p ∈ us, p.text ≠ [] := by
  induction h with
  | nil => exact hts
  | cons ht _ ih =>
    rw [List.forall_mem_cons] at hts
    intro p hp
    exact (List.mem_append.mp hp).elim (ht.text_ne_nil hts.1) (ih hts.2 p)

/-- A piece that rules neither take as another token nor cut is a token. -/
theorem IsCut.eq_of_isSteady {t p : Token} {us vs : List Token} (h : IsCut t (us ++ p :: vs))
    (hp : p.kind.isSteady) : us = [] ∧ vs = [] ∧ p = t := by
  generalize hps : us ++ p :: vs = ps at h
  induction h generalizing us with
  | @whole t k hk =>
    cases us with
    | nil =>
      obtain ⟨rfl, rfl⟩ := List.cons.inj hps
      refine ⟨rfl, rfl, ?_⟩
      rcases hk.eq_or_not_isSteady with hkind | ⟨-, hsteady⟩
      · rw [hkind]
      · exact absurd hp (Bool.eq_false_iff.mp hsteady)
    | cons u us =>
      have hlength := congrArg List.length hps
      simp at hlength
  | @cut t k a b ps hop _ _ _ hk _ ih =>
    have hnot := Bool.eq_false_iff.mp (Kind.not_isSteady_of_isOperator hop)
    cases us with
    | nil =>
      obtain ⟨rfl, rfl⟩ := List.cons.inj hps
      rcases hk.eq_or_not_isSteady with hkind | ⟨-, hsteady⟩
      · exact absurd (hkind ▸ hp) hnot
      · exact absurd hp (Bool.eq_false_iff.mp hsteady)
    | cons u us =>
      obtain ⟨-, -, rfl⟩ := ih (List.cons.inj hps).2
      exact absurd hp hnot

/-- Such a piece divides tokens as it divides pieces. -/
theorem Pieces.exists_of_isSteady {ts us vs : List Token} {p : Token}
    (h : Pieces ts (us ++ p :: vs))
    (hp : p.kind.isSteady) :
    ∃ front rest, ts = front ++ p :: rest ∧ Pieces front us ∧ Pieces rest vs := by
  obtain ⟨front, t, rest, us₁, ps, qs, vs₂, rfl, rfl, rfl, hfront, hcut, hrest⟩ := h.exists_isCut
  obtain ⟨rfl, rfl, rfl⟩ := hcut.eq_of_isSteady hp
  rw [List.append_nil]
  exact ⟨front, rest, rfl, hfront, hrest⟩

/-- Tokens that are written out start one behind the other, and so does a token behind them. -/
theorem pairwise_place {ts : List Token} (last : Token) (pos : Nat) (h : ∀ t ∈ ts, t.text ≠ []) :
    (place pos (ts ++ [last])).Pairwise fun p q => p.spelling.start < q.spelling.start := by
  induction ts generalizing pos with
  | nil => exact List.pairwise_singleton _ _
  | cons t ts ih =>
    rw [List.forall_mem_cons] at h
    refine List.pairwise_cons.mpr ⟨fun q hq => ?_, ih _ h.2⟩
    obtain ⟨before, -, -, hpos⟩ := exists_of_mem_place hq
    have hlength := Text.byteLen_pos h.1
    simp only [Placed.spelling, Span.ofLen, hpos, byteLen]
    omega

end Token

open Grammar

/-! ## Tokens that are read -/

/-- A token of a text that is not its end is one of those that rules read, where it stands. -/
theorem Grammar.Ahead.exists_of_stream_eq {text : Text} {front rest : List Token} {t : Token}
    (h : Token.stream text = front ++ t :: rest) (ht : t.kind ≠ .endOfFile) :
    ∃ xs x ys, Ahead.ofText text = xs ++ x :: ys ∧ x.token = t ∧
      x.start = Text.byteLen (Token.fullText front) + t.leading.byteLen ∧
      rest = ys.map Lexeme.token ++ [Entry.endOfFile text] := by
  have htokens : Token.stream text
      = (Ahead.ofText text).map Lexeme.token ++ [Entry.endOfFile text] := by
    obtain ⟨all, leading, hstream, -⟩ := Token.exists_stream_eq text
    rw [Ahead.ofText, Lexeme.tokens_ofTokens, Entry.endOfFile, hstream, List.dropLast_concat,
      List.getLastD_concat]
  rw [h] at htokens
  rcases List.eq_nil_or_concat rest with rfl | ⟨before, last, rfl⟩
  · obtain ⟨-, hlast⟩ := List.append_inj' htokens rfl
    rw [List.cons.inj hlast |>.1, Entry.kind_endOfFile] at ht
    exact absurd rfl ht
  · rw [List.concat_eq_append, ← List.cons_append, ← List.append_assoc] at htokens
    obtain ⟨hfront, hlast⟩ := List.append_inj' htokens rfl
    obtain ⟨xs, zs, hahead, rfl, hzs⟩ := List.map_eq_append_iff.mp hfront.symm
    obtain ⟨x, ys, rfl, rfl, rfl⟩ := List.map_eq_cons_iff.mp hzs
    refine ⟨xs, x, ys, hahead, rfl, ?_, by rw [List.concat_eq_append, hlast]⟩
    have hstands : Ahead.StandsAt 0 (Ahead.ofText text) := Ahead.standsAt_ofTokens _ 0 none _ _
    rw [hahead] at hstands
    rw [(Ahead.standsAt_append hstands).2.1, Nat.zero_add]
    rfl

namespace Node

/-! ## The tokens before a node -/

variable {root n : Node} {e : Element}

/-- A part of a node stands behind the parts before it. -/
theorem exists_holds_of_mem_elements (he : e ∈ n.elements) :
    ∃ index offset g gs, e = n.element index offset g ∧ n.Holds index offset (g :: gs) := by
  have hfrom : ∀ (gs : List Green) (index offset : Nat), n.Holds index offset gs →
      e ∈ n.elementsFrom index offset gs →
      ∃ index offset g gs, e = n.element index offset g ∧ n.Holds index offset (g :: gs) := by
    intro gs
    induction gs with
    | nil => exact nofun
    | cons g gs ih =>
      intro index offset h he
      rcases List.mem_cons.mp he with rfl | he
      · exact ⟨index, offset, g, gs, rfl, h⟩
      · exact ih _ _ h.tail he
  exact hfrom n.children 0 n.offset n.holds_children he

/-- What is reached of a regular tree is regular. -/
theorem Reaches.regular (h : root.Reaches e) (hroot : root.green.Regular) : e.green.Regular := by
  induction h with
  | root => exact hroot
  | @part n e _ he ih =>
    have hchild : e.green ∈ n.children := n.green_elements ▸ List.mem_map_of_mem he
    exact Green.regularAll_iff.mp ih.2.2 _ hchild

/-- The tokens of a tree are those before one of its nodes, those of the node, and those behind
it. -/
theorem Reaches.exists_before (h : root.Reaches (.node n)) (hway : root.way = []) :
    ∃ before, Green.tokensOf root.children
        = Green.tokensOf before ++ (Green.tokensOf n.children ++ Green.tokensOf n.behind) ∧
      root.offset + Green.byteLenOf before = n.offset := by
  generalize he : Element.node n = e at h
  induction h generalizing n with
  | root =>
    obtain rfl := Element.node.inj he
    refine ⟨[], ?_, rfl⟩
    rw [behind, hway]
    exact (List.append_nil _).symm
  | @part m e _ hmem ih =>
    subst he
    obtain ⟨before, htokens, hoffset⟩ := ih rfl
    obtain ⟨index, offset, g, gs, heq, front, back, hchildren, rfl, rfl⟩ :=
      exists_holds_of_mem_elements hmem
    cases g with
    | leaf l => cases heq
    | node kind cs =>
      obtain rfl := Element.node.inj heq
      refine ⟨before ++ front, ?_, ?_⟩
      · have hsplit : m.children = front ++ .node kind cs :: (gs ++ back) := by
          rw [hchildren]
          simp
        rw [htokens, behind_of_step hsplit, hsplit, ← List.singleton_append]
        simp only [Green.tokensOf_append, Green.tokensOf_node, List.append_assoc]
      · rw [Green.byteLenOf_append, ← Nat.add_assoc, hoffset]

end Node

namespace Entry

variable {e : Entry} {text : Text} {n : Node}

/-- A token that a node of a tree starts with, and that rules neither take as another one nor cut,
is one of the tokens that rules read. It stands where the tree has it, and what was ahead behind it
is what the tree has behind it. -/
theorem exists_site (hn : n ∈ (Node.ofGreen (e.tree text)).descendants) {word : Token.Outline}
    {cs : List Green} (hchildren : n.children = .leaf (.present word) :: cs)
    (hsteady : word.kind.isSteady) (hend : word.kind ≠ .endOfFile) :
    ∃ front x rest, Ahead.ofText text = front ++ x :: rest ∧ x.kind = word.kind ∧
      x.start = n.offset + word.leading.byteLen ∧
      Green.steadyKinds cs ++ Green.steadyKinds n.behind = Ahead.prospect rest := by
  obtain ⟨pieces, hpieces, htokens⟩ := e.exists_pieces text
  -- the tokens of the tree are the pieces of those of the text, and a steady one is whole
  obtain ⟨before, hall, hoffset⟩ :=
    (Node.mem_descendants_iff.mp hn).exists_before (Node.way_ofGreen _)
  have hroot : Green.tokensOf [e.tree text] =
    Green.tokensOf (Node.ofGreen (e.tree text)).children := by
    rw [e.tree_eq, Green.tokensOf_node]
    rfl
  rw [← hroot, htokens, hchildren] at hall
  obtain ⟨us, ps, rfl, hus, hps⟩ := List.map_eq_append_iff.mp hall
  obtain ⟨p, vs, rfl, rfl, hvs⟩ := List.map_eq_cons_iff.mp hps
  obtain ⟨front, rest, hstream, hfront, hrest⟩ := hpieces.exists_of_isSteady hsteady
  obtain ⟨xs, x, ys, hahead, rfl, hstart, rfl⟩ := Ahead.exists_of_stream_eq hstream hend
  refine ⟨xs, x, ys, hahead, rfl, ?_, ?_⟩
  · have hlength := (n.carries_leavesFrom 0 0 hus.symm).2
    rw [hfront.fullText_eq] at hlength
    rw [Node.offset_ofGreen, Nat.zero_add] at hoffset
    rw [hstart, ← hlength, hoffset, Token.byteLen_leading_outline]
  · have hkinds := hrest.steadyKinds_eq
    rw [hvs, List.map_append, Token.steadyKinds_append] at hkinds
    have hlast : Token.steadyKinds ([endOfFile text].map Token.outline) = [.endOfFile] :=
      steadyKinds_endOfFile text
    rw [hlast] at hkinds
    exact (Token.steadyKinds_append _ _).symm.trans hkinds

/-! ## Where tokens start -/

/-- Every node of a tree is regular, since the tree is. -/
theorem regular_of_mem_descendants (hn : n ∈ (Node.ofGreen (e.tree text)).descendants) :
    n.green.Regular := by
  refine (Node.mem_descendants_iff.mp hn).regular ⟨?_, ?_, e.regular_tree text⟩
  · rw [e.kind_root]
    cases e <;> exact nofun
  · rw [e.kind_root]
    cases e <;> exact nofun

/-- No two tokens of the source start at one position. -/
theorem eq_of_trimmedRange_start_eq {l k : Leaf}
    (hl : l ∈ (Node.ofGreen (e.tree text)).presentLeaves)
    (hk : k ∈ (Node.ofGreen (e.tree text)).presentLeaves)
    (h : l.trimmedRange.start = k.trimmedRange.start) : l = k := by
  obtain ⟨-, -, pieces, hpieces, htokens⟩ := e.parts_eq text
  have hwritten : ∀ p ∈ pieces, p.text ≠ [] := by
    refine hpieces.text_ne_nil fun t ht => ?_
    obtain ⟨x, -, rfl⟩ := List.mem_map.mp ht
    exact x.solid.1
  have hall : Green.tokensOf (Node.ofGreen (e.tree text)).children
      = (pieces ++ [endOfFile text]).map Token.outline := by
    rw [e.tree_eq, List.map_append, ← htokens]
    exact Green.tokensOf_append _ _
  have hcarries := ((Node.ofGreen (e.tree text)).carries_leavesFrom 0 0 hall).1
  have hstarts : (Node.ofGreen (e.tree text)).presentLeaves.map (fun l => l.trimmedRange.start)
      = (Token.place 0 (pieces ++ [endOfFile text])).map fun p => p.spelling.start := by
    rw [← List.forall₂_eq_eq_eq, List.forall₂_map_left_iff, List.forall₂_map_right_iff]
    rw [Node.presentLeaves, Node.leaves, Node.offset_ofGreen]
    exact hcarries.imp fun l p h => congrArg Span.start h.trimmedRange
  have hordered := List.pairwise_map.mpr (Token.pairwise_place (endOfFile text) 0 hwritten)
  rw [← hstarts] at hordered
  exact List.inj_on_of_nodup_map (hordered.imp Nat.ne_of_lt) hl hk h

/-- Unexpected text starts with a token of the source. -/
theorem exists_first (hn : n ∈ (Node.ofGreen (e.tree text)).descendants)
    (hkind : n.kind = .unexpected) :
    ∃ first ∈ (Node.ofGreen (e.tree text)).presentLeaves, first.parent = n ∧
      n.leaves.head? = some first ∧ n.trimmedRange.start = first.trimmedRange.start := by
  have hreach := Node.mem_descendants_iff.mp hn
  have hregular := regular_of_mem_descendants hn
  obtain ⟨t, gs, hchildren⟩ :=
    Green.exists_present_of_isPresent (hregular.2.1 hkind).1 (hregular.2.1 hkind).2
  have hfirst := Node.firstLeaf_of_present hchildren
  refine ⟨⟨n, 0, n.offset, .present t⟩, ?_, rfl, hfirst,
    Node.start_trimmedRange_of_present hchildren⟩
  have hmem := hreach.trans (Node.mem_leaves_iff.mp (List.mem_of_mem_head? hfirst))
  exact List.mem_filter.mpr ⟨Node.mem_leaves_iff.mpr hmem, rfl⟩

/-- **No two unexpected nodes start at one position.** Each starts with a token that was read, and
no two tokens start at one position; and no unexpected node is inside of another. -/
theorem eq_of_start_eq {m : Node} (hm : m ∈ (Node.ofGreen (e.tree text)).descendants)
    (hn : n ∈ (Node.ofGreen (e.tree text)).descendants) (hmkind : m.kind = .unexpected)
    (hnkind : n.kind = .unexpected) (h : m.trimmedRange.start = n.trimmedRange.start) : m = n := by
  obtain ⟨l, hl, rfl, -, hstart⟩ := exists_first hm hmkind
  obtain ⟨k, hk, rfl, -, hstart'⟩ := exists_first hn hnkind
  rw [eq_of_trimmedRange_start_eq hl hk (hstart.symm.trans (h.trans hstart'))]

end Entry

end SwiftTree
