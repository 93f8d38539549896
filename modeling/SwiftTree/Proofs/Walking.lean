import Mathlib.Data.List.Perm.Basic
import SwiftTree.Node.Walk
import SwiftTree.Proofs.Lookup
import SwiftTree.Proofs.TrailingClosures

/-!
# What a walk reports

A walk goes by single steps: down to the first part, on to the next sibling, up to the node above.
What it reports all in all is described without steps. The tour of a node (`Node.tour`) comes to the
node, tours its parts one after the other, and is done with the node. A walk from a node reports the
moments of its tour, in order, but for those of the nodes that are skipped (`Walk.Skipped`): the
nodes below one that was entered last when a subtree was left out, and the later siblings of one
that was left last, with all that is below these (`Walk.reports_tour`).
-/

namespace SwiftTree

namespace Walk.Event

/-- The node that a moment is about. -/
def node : Event → Node
  | enter n => n
  | leave n => n

/-- The node that a walk comes to. -/
def entered? : Event → Option Node
  | enter n => some n
  | leave _ => none

/-- The node that a walk is done with. -/
def left? : Event → Option Node
  | enter _ => none
  | leave n => some n

end Walk.Event

namespace Node

open Walk (Event)

variable {n m d a s : Node}

/-! ## Siblings -/

/-- The nodes behind this one with the same parent. -/
def laterSiblings (n : Node) : List Node :=
  match n.way with
  | [] => []
  | f :: way =>
    let parent : Node := ⟨f.kind, f.children, f.offset, way⟩
    (parent.elements.drop (f.index + 1)).filterMap Element.node?

/-- The next sibling is the first one of the nodes behind a node with the same parent. -/
theorem nextSibling_eq (n : Node) : n.nextSibling = n.laterSiblings.head? := by
  unfold nextSibling laterSiblings parent
  cases n.way <;> rfl

/-- Whether a node stands in front of another one that has the same parent. -/
def IsBefore (a b : Node) : Prop := ∃ i j path, i < j ∧ a.path = i :: path ∧ b.path = j :: path

/-- A node does not stand in front of another one that is above it, or is the same, as siblings have
the same parent. -/
theorem IsBefore.not_suffix (h : a.IsBefore s) : ¬s.path <:+ a.path := by
  obtain ⟨i, j, path, hlt, ha, hs⟩ := h
  rw [ha, hs]
  intro hsuffix
  have heq := hsuffix.eq_of_length rfl
  exact Nat.ne_of_gt hlt (List.cons.inj heq).1

/-- No node stands in front of itself. -/
theorem IsBefore.ne (h : a.IsBefore s) : s ≠ a := by
  rintro rfl
  exact h.not_suffix (List.suffix_refl _)

/-- Siblings are equally far from the root. -/
theorem IsBefore.length_way (h : a.IsBefore s) : s.way.length = a.way.length := by
  obtain ⟨i, j, path, -, ha, hs⟩ := h
  have hlength (n : Node) : n.path.length = n.way.length := List.length_map _
  rw [← hlength, ← hlength, ha, hs, List.length_cons, List.length_cons]

/-- Of two siblings only one stands in front of the other. -/
theorem IsBefore.asymm (h : a.IsBefore s) : ¬s.IsBefore a := by
  obtain ⟨i, j, path, hlt, ha, hs⟩ := h
  rintro ⟨i', j', path', hlt', hs', ha'⟩
  have h₁ := (List.cons.inj (hs.symm.trans hs')).1
  have h₂ := (List.cons.inj (ha.symm.trans ha')).1
  omega

/-- The path to a part of a node is the path to the node, and a step at the index of the part or
behind the first one. -/
theorem path_of_mem_elementsFrom {index offset : Nat} {gs : List Green}
    (h : d ∈ (n.elementsFrom index offset gs).filterMap Element.node?) :
    ∃ i, index ≤ i ∧ d.path = i :: n.path := by
  induction gs generalizing index offset with
  | nil => cases h
  | cons g gs ih =>
    have hlater (hd : d ∈ (n.elementsFrom (index + 1) (offset + g.byteLen) gs).filterMap
        Element.node?) : ∃ i, index ≤ i ∧ d.path = i :: n.path :=
      let ⟨i, hi, hpath⟩ := ih hd
      ⟨i, Nat.le_of_succ_le hi, hpath⟩
    cases g with
    | leaf l => exact hlater h
    | node kind cs =>
      rcases List.mem_cons.mp h with rfl | h
      · exact ⟨index, Nat.le_refl _, rfl⟩
      · exact hlater h

/-- Leaving out the first parts of a node leaves the parts from some index and offset on. -/
theorem exists_drop_elementsFrom (n : Node) (k index offset : Nat) (gs : List Green) :
    ∃ offset' gs', (n.elementsFrom index offset gs).drop k = n.elementsFrom
    (index + k) offset' gs' := by
  induction k generalizing index offset gs with
  | zero => exact ⟨offset, gs, rfl⟩
  | succ k ih =>
    cases gs with
    | nil => exact ⟨offset, [], rfl⟩
    | cons g gs =>
      obtain ⟨offset', gs', h⟩ := ih (index + 1) (offset + g.byteLen) gs
      exact ⟨offset', gs', by rw [elementsFrom, List.drop_succ_cons, h, Nat.add_right_comm]; rfl⟩

/-- What is behind a node with the same parent is a part of the parent, and stands behind the
node. -/
theorem laterSiblings_spec (h : s ∈ a.laterSiblings) :
    a.IsBefore s ∧ ∃ p, a.parent = some p ∧ s ∈ p.childNodes := by
  unfold laterSiblings at h
  split at h
  · cases h
  · rename_i f way hway
    obtain ⟨offset, gs, hdrop⟩ := exists_drop_elementsFrom ⟨f.kind, f.children, f.offset, way⟩
      (f.index + 1) 0 f.offset f.children
    refine ⟨?_, ⟨f.kind, f.children, f.offset, way⟩, by rw [parent, hway], ?_⟩
    · change s ∈ (List.drop _ (elementsFrom _ 0 _ _)).filterMap _ at h
      rw [hdrop] at h
      obtain ⟨j, hj, hpath⟩ := path_of_mem_elementsFrom h
      exact ⟨f.index, j, way.map Frame.index, by omega, by rw [path, hway]; rfl, hpath⟩
    · obtain ⟨e, he, hs⟩ := List.mem_filterMap.mp h
      exact List.mem_filterMap.mpr ⟨e, List.mem_of_mem_drop he, hs⟩

/-- The parts of a node stand in order. -/
theorem pairwise_isBefore (n : Node) : n.childNodes.Pairwise IsBefore := by
  have hfrom : ∀ (gs : List Green) (index offset : Nat),
      ((n.elementsFrom index offset gs).filterMap Element.node?).Pairwise IsBefore := by
    intro gs
    induction gs with
    | nil => exact fun _ _ => .nil
    | cons g gs ih =>
      intro index offset
      cases g with
      | leaf l => exact ih _ _
      | node kind cs =>
        refine .cons (fun d hd => ?_) (ih _ _)
        obtain ⟨j, hj, hpath⟩ := path_of_mem_elementsFrom hd
        exact ⟨index, j, n.path, hj, rfl, hpath⟩
  exact hfrom n.children 0 n.offset

/-- Behind a part of a node are the later parts. -/
theorem laterSiblings_eq {before behind : List Node} (h : n.childNodes = before ++ d :: behind) :
    d.laterSiblings = behind := by
  have hfrom : ∀ (gs : List Green) (index offset : Nat) (before : List Node),
      n.elements.drop index = n.elementsFrom index offset gs →
      (n.elementsFrom index offset gs).filterMap Element.node? = before ++ d :: behind →
      d.laterSiblings = behind := by
    intro gs
    induction gs with
    | nil =>
      intro _ _ before _ h
      cases before <;> cases h
    | cons g gs ih =>
      intro index offset before hdrop h
      have hnext : n.elements.drop (index + 1)
          = n.elementsFrom (index + 1) (offset + g.byteLen) gs := by
        rw [← List.drop_drop, hdrop]
        rfl
      cases g with
      | leaf l => exact ih _ _ before hnext h
      | node kind cs =>
        cases before with
        | nil =>
          obtain ⟨rfl, rfl⟩ := List.cons.inj h
          change (n.elements.drop (index + 1)).filterMap Element.node? = _
          rw [hnext]
        | cons b before => exact ih _ _ before hnext (List.cons.inj h).2
  exact hfrom n.children 0 n.offset before rfl h

/-! ## What is below a node -/

/-- What holds of a node whenever it holds of its parts holds of all nodes. -/
theorem induction_childNodes {motive : Node → Prop}
    (step : ∀ n : Node, (∀ d ∈ n.childNodes, motive d) → motive n) (n : Node) : motive n :=
  step n fun d hd =>
    have hsmaller : sizeOf d.green < sizeOf n.green := by
      have hpart := List.sizeOf_lt_of_mem (childNodes_spec hd).1
      change _ < sizeOf (Green.node n.kind n.children)
      rw [Green.node.sizeOf_spec]
      omega
    induction_childNodes step d
termination_by sizeOf n.green
decreasing_by exact hsmaller

theorem mem_descendants_self (n : Node) : n ∈ n.descendants := List.mem_cons_self

theorem mem_descendants_trans (hm : m ∈ n.descendants) (hd : d ∈ m.descendants) :
    d ∈ n.descendants :=
  mem_descendants_iff.mpr ((mem_descendants_iff.mp hm).trans (mem_descendants_iff.mp hd))

theorem mem_descendants_child (hd : d ∈ n.childNodes) : d ∈ n.descendants :=
  mem_descendants_of_mem_childNodes n.mem_descendants_self hd

/-- A part of a node is below whatever the node is below, and below nothing else but itself. -/
theorem mem_descendants_parent (hd : d ∈ n.childNodes) (ha : d ∈ a.descendants) (hne : d ≠ a) :
    n ∈ a.descendants := by
  obtain ⟨p, hp, hpart⟩ := exists_mem_childNodes ha hne
  have hsame := (childNodes_spec hd).2.symm.trans (childNodes_spec hpart).2
  exact Option.some.inj hsame ▸ hp

theorem length_way_child (hd : d ∈ n.childNodes) : d.way.length = n.way.length + 1 :=
  length_way_of_parent (childNodes_spec hd).2

theorem path_suffix_of_mem_descendants (hd : d ∈ n.descendants) : n.path <:+ d.path :=
  path_suffix_of_mem_ancestors (mem_ancestors_of_reaches (mem_descendants_iff.mp hd))

/-- What is below a node at the same depth is the node. -/
theorem eq_of_mem_descendants (hd : d ∈ n.descendants) (hlength : d.way.length ≤ n.way.length) :
    d = n := by
  by_contra hne
  obtain ⟨p, hp, hpart⟩ := exists_mem_childNodes hd hne
  have hle := length_way_le hp
  have hlonger := length_way_child hpart
  omega

/-- What is below one of two siblings is not below the other. -/
theorem IsBefore.not_mem_descendants (h : a.IsBefore s) (ha : d ∈ a.descendants) :
    d ∉ s.descendants := by
  intro hs
  obtain ⟨i, j, path, hlt, hpath, hpath'⟩ := h
  have ha := path_suffix_of_mem_descendants ha
  have hs := path_suffix_of_mem_descendants hs
  rw [hpath] at ha
  rw [hpath'] at hs
  exact Nat.ne_of_lt hlt (eq_of_suffix ha hs)

/-- A sibling of a part of a node is a part of the node. -/
theorem mem_childNodes_of_mem_laterSiblings (hs : s ∈ a.laterSiblings) (hpart : s ∈ n.childNodes)
    (ha : a ∈ m.descendants) (hlength : m.way.length ≤ n.way.length) : a ∈ n.childNodes := by
  obtain ⟨hbefore, p, hparent, hmem⟩ := laterSiblings_spec hs
  have hlonger := length_way_child hpart
  rw [hbefore.length_way] at hlonger
  obtain ⟨q, -, hq⟩ := exists_mem_childNodes ha (by rintro rfl; omega)
  have hsame : some q = some n := calc
    some q = a.parent := (childNodes_spec hq).2.symm
    _ = some p := hparent
    _ = s.parent := (childNodes_spec hmem).2.symm
    _ = some n := (childNodes_spec hpart).2
  exact Option.some.inj hsame ▸ hq

theorem nodup_descendants (n : Node) : n.descendants.Nodup :=
  n.pairwise_descendants.imp fun {a b} habove (heq : a = b) => habove (heq ▸ List.mem_cons_self)

/-- The range of what is below a node is within the range of the node. -/
theorem range_within (hd : d ∈ n.descendants) :
    n.range.start ≤ d.range.start ∧ d.range.stop ≤ n.range.stop := by
  induction n using induction_childNodes with
  | step n ih =>
    rw [descendants_eq] at hd
    rcases List.mem_cons.mp hd with rfl | hd
    · exact ⟨Nat.le_refl _, Nat.le_refl _⟩
    · obtain ⟨c, hc, hd⟩ := List.mem_flatMap.mp hd
      obtain ⟨e, he, hnode⟩ := List.mem_filterMap.mp hc
      have hrange : e.range = c.range := by
        cases e with
        | leaf l => cases hnode
        | node c' => exact Option.some.inj hnode ▸ rfl
      have hmem := hrange ▸ List.mem_map_of_mem (f := Element.range) he
      obtain ⟨hstart, hstop⟩ := ih c hc hd
      exact ⟨(n.tiles_elements.start_le hmem).trans hstart,
        hstop.trans (n.tiles_elements.le_stop hmem)⟩

/-- The ranges of the parts follow each other. -/
theorem pairwise_range_childNodes (n : Node) :
    n.childNodes.Pairwise fun a b => a.range.stop ≤ b.range.start := by
  have helements := List.pairwise_map.mp n.tiles_elements.pairwise
  refine List.Pairwise.filterMap _ (fun e f hle a ha b hb => ?_) helements
  cases e with
  | leaf l => cases ha
  | node a' =>
    cases f with
    | leaf l => cases hb
    | node b' =>
      obtain rfl := Option.some.inj ha
      obtain rfl := Option.some.inj hb
      exact hle

/-! ## The tour of a node -/

mutual

/-- The moments of the tour of a part of the node `n`. -/
def momentsIn (n : Node) (index offset : Nat) : Green → List Event
  | .node kind children =>
    let below : Node := ⟨kind, children, offset, n.step index⟩
    .enter below :: (momentsFrom below 0 offset children ++ [.leave below])
  | .leaf _ => []

/-- The moments of the tours of several parts of the node `n`. -/
def momentsFrom (n : Node) (index offset : Nat) : List Green → List Event
  | [] => []
  | g :: gs => momentsIn n index offset g ++ momentsFrom n (index + 1) (offset + g.byteLen) gs

end

/-- The moments of the tour of a node: it comes to the node, tours the parts, and is done with the
node. -/
def tour (n : Node) : List Event := .enter n :: (momentsFrom n 0 n.offset n.children ++ [.leave n])

/-- The tour of a node comes to the node, tours its parts in order, and is done with the node. -/
theorem tour_eq (n : Node) : n.tour = .enter n :: (n.childNodes.flatMap tour ++ [.leave n]) := by
  have hfrom : ∀ (gs : List Green) (index offset : Nat), n.momentsFrom index offset gs
      = ((n.elementsFrom index offset gs).filterMap Element.node?).flatMap tour := by
    intro gs
    induction gs with
    | nil => exact fun _ _ => rfl
    | cons g gs ih =>
      intro index offset
      rw [momentsFrom, ih]
      cases g <;> rfl
  exact congrArg (fun es => Event.enter n :: (es ++ [.leave n])) (hfrom n.children 0 n.offset)

/-- A tour comes to the nodes below its start, in source order. -/
theorem entered_tour (n : Node) : n.tour.filterMap Event.entered? = n.descendants := by
  induction n using induction_childNodes with
  | step n ih =>
    have hparts := List.flatMap_congr ih
    rw [tour_eq, descendants_eq, ← hparts, ← List.filterMap_flatMap]
    refine congrArg (n :: ·) ?_
    rw [List.filterMap_append]
    exact List.append_nil _

/-- A tour is done with the parts of a node, in order, before it is done with the node. -/
theorem left_tour_eq (n : Node) : n.tour.filterMap Event.left?
    = n.childNodes.flatMap (fun d => d.tour.filterMap Event.left?) ++ [n] := by
  rw [tour_eq, List.filterMap_cons_none rfl, List.filterMap_append, List.filterMap_flatMap]
  rfl

/-- A tour is done with each node below its start. -/
theorem left_tour_perm (n : Node) : (n.tour.filterMap Event.left?).Perm n.descendants := by
  induction n using induction_childNodes with
  | step n ih =>
    rw [left_tour_eq, descendants_eq]
    exact (List.perm_append_singleton _ _).trans
      (.cons n (List.Perm.flatMap (.refl _) ih))

/-- When a tour is done with a node, it was done with all nodes below it. -/
theorem pairwise_left_tour (n : Node) :
    (n.tour.filterMap Event.left?).Pairwise fun a b => b ∉ a.descendants := by
  induction n using induction_childNodes with
  | step n ih =>
    rw [left_tour_eq]
    refine List.pairwise_append.mpr ⟨List.pairwise_flatMap.mpr ⟨ih, ?_⟩, .cons nofun .nil, ?_⟩
    · refine n.pairwise_isBefore.imp fun {c d} hbefore a ha b hb hab => ?_
      have ha := (left_tour_perm c).mem_iff.mp ha
      have hb := (left_tour_perm d).mem_iff.mp hb
      exact hbefore.not_mem_descendants (mem_descendants_trans ha hab) hb
    · intro a ha b hb hab
      obtain rfl := List.mem_singleton.mp hb
      obtain ⟨d, hd, ha⟩ := List.mem_flatMap.mp ha
      have hlonger := length_way_child hd
      have hle := length_way_le (mem_descendants_trans ((left_tour_perm d).mem_iff.mp ha) hab)
      omega

/-- Of two nodes below another, the first one covers the second, or the source that it covers ends
before the second starts. -/
theorem pairwise_range_descendants (n : Node) : n.descendants.Pairwise fun a b =>
    b ∈ a.descendants ∨ a.range.stop ≤ b.range.start := by
  induction n using induction_childNodes with
  | step n ih =>
    rw [descendants_eq]
    refine .cons (fun b hb => .inl ?_) (List.pairwise_flatMap.mpr ⟨ih, ?_⟩)
    · rw [descendants_eq]
      exact List.mem_cons_of_mem n hb
    · refine n.pairwise_range_childNodes.imp fun {c d} hle a ha b hb => .inr ?_
      exact (range_within ha).2.trans (hle.trans (range_within hb).1)

end Node

namespace Walk

open Node

variable {skips : Event → Bool} {start d n : Node}

/-! ## Nesting -/

/-- The nodes that are entered and not yet left after some moments, the last one first. There is no
such list if a node is left that is not the last one that was entered. -/
def openAfter : List Node → List Event → Option (List Node)
  | ns, [] => some ns
  | ns, .enter n :: es => openAfter (n :: ns) es
  | [], .leave _ :: _ => none
  | n :: ns, .leave m :: es => if m = n then openAfter ns es else none

/-- What is open after some moments and then others is what is open after the others, from what was
open after the first ones. -/
theorem openAfter_append {ns ms : List Node} {es fs : List Event} (h : openAfter ns es = some ms) :
    openAfter ns (es ++ fs) = openAfter ms fs := by
  fun_induction openAfter ns es with
  | case1 => exact Option.some.inj h ▸ rfl
  | case2 ns n es ih => exact ih h
  | case3 => cases h
  | case4 n ns es ih =>
    rw [List.cons_append, openAfter, if_pos rfl]
    exact ih h
  | case5 => cases h

/-- If a tour leaves out some nodes, entering and leaving, it is still nested. -/
theorem openAfter_tour (test : Node → Bool) (n : Node) (ns : List Node) :
    openAfter ns (n.tour.filter fun e => test e.node) = some ns := by
  induction n using induction_childNodes generalizing ns with
  | step n ih =>
    have hparts : ∀ (cs : List Node) (ms : List Node), (∀ c ∈ cs, c ∈ n.childNodes) →
        openAfter ms ((cs.flatMap tour).filter fun e => test e.node) = some ms := by
      intro cs
      induction cs with
      | nil => exact fun _ _ => rfl
      | cons c cs ihs =>
        intro ms hcs
        rw [List.flatMap_cons, List.filter_append,
          openAfter_append (ih c (hcs c List.mem_cons_self) ms)]
        exact ihs ms fun b hb => hcs b (List.mem_cons_of_mem _ hb)
    have hparts := fun ms => hparts n.childNodes ms fun _ hc => hc
    rw [tour_eq]
    cases htest : test n with
    | false =>
      rw [List.filter_cons_of_neg (by simpa [Event.node] using htest), List.filter_append,
        openAfter_append (hparts ns),
        List.filter_cons_of_neg (by simpa [Event.node] using htest)]
      rfl
    | true =>
      have hkept (moment : Node → Event) (hmoment : (moment n).node = n) (es : List Event) :
          (moment n :: es).filter (fun e => test e.node)
            = moment n :: es.filter fun e => test e.node :=
        List.filter_cons_of_pos (by rw [hmoment]; exact htest)
      rw [hkept .enter rfl, List.filter_append, openAfter, openAfter_append (hparts (n :: ns)),
        hkept .leave rfl]
      exact if_pos rfl

/-! ## What is skipped -/

/-- Whether a node is skipped on a walk from `start` that leaves out a subtree after the events
`skips`: it is below a node that was entered last then, or below a later sibling of one that was
left last. -/
def Skipped (skips : Event → Bool) (start d : Node) : Prop :=
  ∃ a ∈ start.descendants, (skips (.enter a) ∧ d ∈ a.descendants ∧ d ≠ a) ∨
    (skips (.leave a) ∧ ∃ s ∈ a.laterSiblings, d ∈ s.descendants)

instance (d : Node) (ns : List Node) : Decidable (d ∈ ns) :=
  @List.instDecidableMemOfLawfulBEq Node instBEqOfDecidableEq inferInstance d ns

instance : Decidable (Skipped skips start d) :=
  inferInstanceAs (Decidable (∃ a ∈ start.descendants, _ ∨ _))

/-- A walk does not skip its start. -/
theorem not_skipped_start : ¬Skipped skips start start := by
  rintro ⟨a, ha, ⟨-, hbelow, hne⟩ | ⟨-, s, hs, hbelow⟩⟩
  · exact hne (eq_of_mem_descendants hbelow (length_way_le ha))
  · have hbefore := (laterSiblings_spec hs).1
    have hle := length_way_le hbelow
    rw [hbefore.length_way] at hle
    obtain rfl := eq_of_mem_descendants ha hle
    exact hbefore.not_mem_descendants a.mem_descendants_self hbelow

/-- With a node all that is below it is skipped. -/
theorem Skipped.below (h : Skipped skips start n) (hd : d ∈ n.descendants) :
    Skipped skips start d := by
  obtain ⟨a, ha, ⟨hskip, hbelow, hne⟩ | ⟨hskip, s, hs, hbelow⟩⟩ := h
  · refine ⟨a, ha, .inl ⟨hskip, mem_descendants_trans hbelow hd, ?_⟩⟩
    rintro rfl
    exact hne (eq_of_mem_descendants hbelow (length_way_le hd))
  · exact ⟨a, ha, .inr ⟨hskip, s, hs, mem_descendants_trans hbelow hd⟩⟩

/-- A part of a node is skipped with the node, after entering the node, or after leaving an earlier
part. -/
theorem skipped_part_iff (hn : n ∈ start.descendants) {before behind : List Node}
    (hparts : n.childNodes = before ++ d :: behind) : Skipped skips start d ↔
      Skipped skips start n ∨ skips (.enter n) ∨ ∃ b ∈ before, skips (.leave b) := by
  have hpart (b) (hb : b ∈ before ++ d :: behind) : b ∈ n.childNodes := hparts ▸ hb
  have hd : d ∈ n.childNodes := hpart d (List.mem_append_right _ List.mem_cons_self)
  constructor
  · rintro ⟨a, ha, ⟨hskip, hbelow, hne⟩ | ⟨hskip, s, hs, hbelow⟩⟩
    · -- what is above the part is the node itself or above it
      have habove := mem_descendants_parent hd hbelow hne
      by_cases heq : n = a
      · exact .inr (.inl (heq ▸ hskip))
      · exact .inl ⟨a, ha, .inl ⟨hskip, habove, heq⟩⟩
    · by_cases heq : d = s
      · subst heq
        have hbefore := (laterSiblings_spec hs).1
        have hmem := mem_childNodes_of_mem_laterSiblings hs hd ha (length_way_le hn)
        rw [hparts] at hmem
        rcases List.mem_append.mp hmem with hmem | hmem
        · exact .inr (.inr ⟨a, hmem, hskip⟩)
        · -- a sibling in front of the part is not the part, and not behind it
          rcases List.mem_cons.mp hmem with rfl | hmem
          · exact absurd rfl hbefore.ne
          · have hordered := (List.pairwise_append.mp (hparts ▸ n.pairwise_isBefore)).2.1
            exact absurd (List.rel_of_pairwise_cons hordered hmem) hbefore.asymm
      · exact .inl ⟨a, ha, .inr ⟨hskip, s, hs, mem_descendants_parent hd hbelow heq⟩⟩
  · rintro (hskipped | hskip | ⟨b, hb, hskip⟩)
    · exact hskipped.below (mem_descendants_child hd)
    · refine ⟨n, hn, .inl ⟨hskip, mem_descendants_child hd, ?_⟩⟩
      rintro rfl
      have hlonger := length_way_child hd
      omega
    · obtain ⟨front, middle, rfl⟩ := List.append_of_mem hb
      rw [List.append_assoc] at hparts
      have hlater := laterSiblings_eq hparts
      refine ⟨b, mem_descendants_of_mem_childNodes hn (hpart b (by simp)), .inr ⟨hskip, d, ?_,
        d.mem_descendants_self⟩⟩
      rw [hlater]
      exact List.mem_append_right _ List.mem_cons_self

/-! ## Steps -/

/-- A walk that reports the given events and then stops, however many are asked for. -/
def Reports (skips : Event → Bool) (w : Walk) (es : List Event) : Prop :=
  ∀ limit, events skips limit w = es.take limit

/-- The walk from `start` behind an event. -/
def after (skips : Event → Bool) (start : Node) (e : Event) : Walk :=
  let w : Walk := ⟨start, e.successor start⟩
  if skips e then w.skipSubtree else w

theorem reports_nil : Reports skips ⟨start, none⟩ []
  | 0 => rfl
  | _ + 1 => rfl

theorem Reports.cons {e : Event} {es : List Event} (h : Reports skips (after skips start e) es) :
    Reports skips ⟨start, some e⟩ (e :: es)
  | 0 => rfl
  | limit + 1 => congrArg (e :: ·) (h limit)

/-- The event at which the parts `cs` of a node are walked, or the node is left if there are
none. -/
def partsOrLeave (n : Node) (cs : List Node) : Event := cs.head?.elim (.leave n) .enter

/-- From coming to a node, a walk goes on to its first part, or is done with it if there is none. -/
theorem successor_enter (n : Node) :
    (Event.enter n).successor start = some (partsOrLeave n n.childNodes) := by
  simp only [Event.successor, partsOrLeave, firstChild]
  cases n.childNodes.head? <;> rfl

/-- From being done with a part, a walk goes on to the part behind it, or is done with the node
above if it was the last one. -/
theorem successor_leave (start : Node) {before behind : List Node}
    (hstart : d.way.length ≠ start.way.length)
    (hparts : n.childNodes = before ++ d :: behind) :
    (Event.leave d).successor start = some (partsOrLeave n behind) := by
  have hne : (d == start) = false := beq_eq_false_iff_ne.mpr fun heq => hstart (heq ▸ rfl)
  have hparent : d.parent = some n :=
    (childNodes_spec (hparts ▸ List.mem_append_right _ List.mem_cons_self)).2
  simp only [Event.successor, partsOrLeave, hne, nextSibling_eq, laterSiblings_eq hparts, hparent]
  cases behind <;> rfl

/-- A walk ends where it is done with the node that it started from. -/
theorem successor_leave_start : (Event.leave start).successor start = none := by
  simp only [Event.successor, beq_self_eq_true]
  rfl

/-- Leaving out a subtree where the parts of a node are walked leads to the end of the node. -/
theorem skipSubtree_parts {cs : List Node} (hcs : ∀ c ∈ cs, c ∈ n.childNodes) :
    skipSubtree ⟨start, some (partsOrLeave n cs)⟩ = ⟨start, some (.leave n)⟩ := by
  cases cs with
  | nil => rfl
  | cons c cs =>
    have hparent := (childNodes_spec (hcs c List.mem_cons_self)).2
    exact congrArg (fun p => (⟨start, p.map Event.leave⟩ : Walk)) hparent

/-! ## A walk reports its tour -/

/-- The moments of a tour that a walk from `start` reports. -/
def kept (skips : Event → Bool) (start : Node) (es : List Event) : List Event :=
  es.filter fun e => !decide (Skipped skips start e.node)

theorem mem_kept_iff {e : Event} {es : List Event} :
    e ∈ kept skips start es ↔ e ∈ es ∧ ¬Skipped skips start e.node := by
  rw [kept, List.mem_filter, Bool.not_eq_true', decide_eq_false_iff_not]

/-- Every moment of a tour is about the node that is toured or about one below it. -/
theorem node_mem_descendants {e : Event} (he : e ∈ n.tour) : e.node ∈ n.descendants := by
  cases e with
  | enter d => exact entered_tour n ▸ List.mem_filterMap.mpr ⟨_, he, rfl⟩
  | leave d => exact (left_tour_perm n).mem_iff.mp (List.mem_filterMap.mpr ⟨_, he, rfl⟩)

/-- Of the tour of a node that is skipped, nothing is reported. -/
theorem kept_tour_of_skipped (h : Skipped skips start n) : kept skips start n.tour = [] := by
  refine List.eq_nil_iff_forall_not_mem.mpr fun e he => ?_
  obtain ⟨he, hkept⟩ := mem_kept_iff.mp he
  exact hkept (h.below (node_mem_descendants he))

/-- Of the tour of any other node, the walk reports coming to it, what it reports of its parts, and
being done with it. -/
theorem kept_tour (h : ¬Skipped skips start n) : kept skips start n.tour
    = .enter n :: (n.childNodes.flatMap (fun d => kept skips start d.tour) ++ [.leave n]) := by
  have hkept (moment : Node → Event) (hmoment : (moment n).node = n) (es : List Event) :
      kept skips start (moment n :: es) = moment n :: kept skips start es :=
    List.filter_cons_of_pos (by rw [hmoment, decide_eq_false h]; rfl)
  rw [tour_eq, hkept .enter rfl, kept, List.filter_append, List.filter_flatMap]
  exact congrArg (fun es => Event.enter n :: (_ ++ es)) (hkept .leave rfl [])

/-- Parts that are skipped report nothing. -/
theorem kept_parts_of_skipped {cs : List Node} (h : ∀ c ∈ cs, Skipped skips start c) :
    cs.flatMap (fun d => kept skips start d.tour) = [] :=
  List.flatMap_eq_nil_iff.mpr fun c hc => kept_tour_of_skipped (h c hc)

/-- If its parts are left out, a node reports nothing of them. -/
theorem kept_parts_of_enter (hn : n ∈ start.descendants) (h : skips (.enter n) = true) :
    n.childNodes.flatMap (fun d => kept skips start d.tour) = [] := by
  refine kept_parts_of_skipped fun c hc => ?_
  obtain ⟨before, behind, hparts⟩ := List.append_of_mem hc
  exact (skipped_part_iff hn hparts).mpr (.inr (.inl h))

/-- If what is behind a part is left out, nothing of it is reported. -/
theorem kept_parts_of_leave {c : Node} (hn : n ∈ start.descendants) {before behind : List Node}
    (hparts : n.childNodes = before ++ c :: behind) (h : skips (.leave c) = true) :
    behind.flatMap (fun d => kept skips start d.tour) = [] := by
  refine kept_parts_of_skipped fun b hb => ?_
  obtain ⟨front, back, rfl⟩ := List.append_of_mem hb
  have hlater : n.childNodes = (before ++ c :: front) ++ b :: back := by simpa using hparts
  exact (skipped_part_iff hn hlater).mpr (.inr (.inr ⟨c, by simp, h⟩))

/-- A part is not skipped if its node is not and nothing was left out up to it. -/
theorem not_skipped_part {c : Node} (hn : n ∈ start.descendants) (hkept : ¬Skipped skips start n)
    {before behind : List Node} (hparts : n.childNodes = before ++ c :: behind)
    (henter : skips (.enter n) = false) (hbefore : ∀ b ∈ before, skips (.leave b) = false) :
    ¬Skipped skips start c := by
  rw [skipped_part_iff hn hparts]
  rintro (h | h | ⟨b, hb, h⟩)
  · exact hkept h
  · exact Bool.false_ne_true (henter.symm.trans h)
  · exact Bool.false_ne_true ((hbefore b hb).symm.trans h)

/-- A walk that comes to a node reports what is kept of the tour of the node, and then what it
reports behind leaving the node. -/
theorem reports_enter (hn : n ∈ start.descendants) (hkept : ¬Skipped skips start n)
    {rest : List Event} (hrest : Reports skips (after skips start (.leave n)) rest) :
    Reports skips ⟨start, some (.enter n)⟩ (kept skips start n.tour ++ rest) := by
  induction n using induction_childNodes generalizing rest with
  | step n ih =>
    have hleave : Reports skips ⟨start, some (.leave n)⟩ (.leave n :: rest) := hrest.cons
    -- from any part on, if nothing was left out up to it
    have hparts : ∀ behind before : List Node, n.childNodes = before ++ behind →
        skips (.enter n) = false → (∀ b ∈ before, skips (.leave b) = false) →
        Reports skips ⟨start, some (partsOrLeave n behind)⟩
          (behind.flatMap (fun d => kept skips start d.tour) ++ .leave n :: rest) := by
      intro behind
      induction behind with
      | nil => exact fun _ _ _ _ => hleave
      | cons c behind ihs =>
        intro before hparts henter hbefore
        have hpart (b) (hb : b ∈ before ++ c :: behind) : b ∈ n.childNodes := hparts ▸ hb
        have hc := hpart c (List.mem_append_right _ List.mem_cons_self)
        have hckept := not_skipped_part hn hkept hparts henter hbefore
        have hlonger := length_way_child hc
        have hle := length_way_le hn
        rw [List.flatMap_cons, List.append_assoc]
        refine ih c hc (mem_descendants_of_mem_childNodes hn hc) hckept ?_
        unfold after
        rw [successor_leave start (by omega) hparts]
        cases hskip : skips (.leave c) with
        | true =>
          rw [if_pos rfl, skipSubtree_parts fun b hb =>
            hpart b (List.mem_append_right _ (List.mem_cons_of_mem _ hb)),
            kept_parts_of_leave hn hparts hskip]
          exact hleave
        | false =>
          have hparts' : n.childNodes = (before ++ [c]) ++ behind := by simpa using hparts
          refine ihs _ hparts' henter fun b hb => ?_
          rcases List.mem_append.mp hb with hb | hb
          · exact hbefore b hb
          · exact List.mem_singleton.mp hb ▸ hskip
    rw [kept_tour hkept, List.cons_append, List.append_assoc]
    refine .cons ?_
    unfold after
    rw [successor_enter]
    cases hskip : skips (.enter n) with
    | true =>
      rw [if_pos rfl, skipSubtree_parts fun _ hc => hc, kept_parts_of_enter hn hskip]
      exact hleave
    | false => exact hparts n.childNodes [] rfl hskip nofun

/-- Where no subtree is left out nothing is skipped. -/
theorem kept_of_never (es : List Event) : kept (fun _ => false) start es = es := by
  refine List.filter_eq_self.mpr fun e _ => ?_
  rw [Bool.not_eq_true', decide_eq_false_iff_not]
  rintro ⟨a, -, ⟨hskip, -⟩ | ⟨hskip, -⟩⟩ <;> exact Bool.false_ne_true hskip

/-- What is kept of the tour of the start is what the walk reports. -/
theorem reports_new (skips : Event → Bool) (start : Node) :
    Reports skips (.new start) (kept skips start start.tour) := by
  have hafter : after skips start (.leave start) = ⟨start, none⟩ := by
    unfold after
    rw [successor_leave_start]
    exact ite_self _
  have hreports : Reports skips (.new start) (kept skips start start.tour ++ []) :=
    reports_enter start.mem_descendants_self not_skipped_start (hafter ▸ reports_nil)
  rwa [List.append_nil] at hreports

/-- **A walk reports its tour but for what is skipped.** For every node that a walk starts from, and
every choice of the events after which a subtree is left out,
- the walk ends, and what it reports, in order, are the moments of the tour of its start that are
  about nodes that are not skipped; that is the whole tour if nothing is left out;
- it begins with coming to the start and ends with being done with it, and no node is left while one
  that was entered later is open;
- the tour comes once to each node of the subtree, each before those below it and before those
  behind it in the source, and is done once with each, after all that are below it. -/
theorem reports_tour (skips : Event → Bool) (start : Node) :
    ((∀ limit, events skips limit (.new start) = (kept skips start start.tour).take limit) ∧
      ∀ limit, events (fun _ => false) limit (.new start) = start.tour.take limit) ∧
    ((kept skips start start.tour).head? = some (.enter start) ∧
      (kept skips start start.tour).getLast? = some (.leave start) ∧
      openAfter [] (kept skips start start.tour) = some []) ∧
    (start.tour.filterMap Event.entered? = start.descendants ∧ start.descendants.Nodup ∧
      start.descendants.Pairwise (fun a b => b ∈ a.descendants ∨ a.range.stop ≤ b.range.start)) ∧
    (start.tour.filterMap Event.left?).Perm start.descendants ∧
    (start.tour.filterMap Event.left?).Pairwise fun a b => b ∉ a.descendants := by
  have hnever := reports_new (fun _ => false) start
  rw [kept_of_never] at hnever
  have hnested := openAfter_tour (fun d => !decide (Skipped skips start d)) start []
  refine ⟨⟨reports_new skips start, hnever⟩, ⟨?_, ?_, hnested⟩,
    ⟨entered_tour start, nodup_descendants start, pairwise_range_descendants start⟩,
    left_tour_perm start, pairwise_left_tour start⟩
  · rw [kept_tour not_skipped_start]
    rfl
  · rw [kept_tour not_skipped_start, ← List.cons_append, List.getLast?_append]
    rfl

end Walk
end SwiftTree
