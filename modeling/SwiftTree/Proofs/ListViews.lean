import SwiftTree.Proofs.Evaluation
import SwiftTree.Proofs.Positions
import SwiftTree.Proofs.TotalViews

/-!
# Lists that views find

A list in a tree is in three steps: a node, the parts that it holds, and in these the nodes that are
listed. The conditions of a statement hold one condition each, and a key path holds a list of
components. What is listed can hold arbitrary expressions, with further lists of the same sort below
them.

The bindings of conditions and the components of a key path are looked for at any depth. Of those
that are found, the ones two steps below the node are the list of the node itself, in order
(`Node.filter_grandparent`). The others are in lists further down, since the shapes of nodes put
them nowhere else (`Kind.Lists`). So the view is the list of the node exactly if no list further
down has anything in it (`Entry.lists_read`); and there are texts where one has
(`Entry.lists_mixed`).
-/

namespace SwiftTree

open Grammar

namespace Node

variable {n m d : Node}

/-- Whether the node is the one two steps up from another one. -/
def isGrandparentOf (n d : Node) : Bool := decide (d.parent.bind parent = some n)

/-- Below a node are its parts, and what is below them. -/
theorem descendants_eq (n : Node) : n.descendants = n :: n.childNodes.flatMap descendants := by
  have hfrom : ∀ (gs : List Green) (index offset : Nat), n.nodesFrom index offset gs
      = ((n.elementsFrom index offset gs).filterMap Element.node?).flatMap descendants := by
    intro gs
    induction gs with
    | nil => exact fun _ _ => rfl
    | cons g gs ih =>
      intro index offset
      rw [nodesFrom, ih]
      cases g <;> rfl
  exact congrArg (n :: ·) (hfrom n.children 0 n.offset)

/-- The parts of a descendant are descendants. -/
theorem mem_descendants_of_mem_childNodes (hn : n ∈ m.descendants) (hd : d ∈ n.childNodes) :
    d ∈ m.descendants := by
  obtain ⟨e, he, hnode⟩ := List.mem_filterMap.mp hd
  cases e with
  | leaf l => cases hnode
  | node d' =>
    cases hnode
    exact mem_descendants_iff.mpr ((mem_descendants_iff.mp hn).part he)

/-- What holds of a node and goes on from a node to its parts holds of all nodes below. -/
@[elab_as_elim]
theorem descendants_induction {motive : Node → Prop} (hstart : motive n)
    (hparts : ∀ p ∈ n.descendants, motive p → ∀ d ∈ p.childNodes, motive d)
    (hd : d ∈ n.descendants) : motive d := by
  have hreaches := mem_descendants_iff.mp hd
  generalize he : Element.node d = e at hreaches
  induction hreaches generalizing d with
  | root => exact Element.node.inj he ▸ hstart
  | @part p _ hp hpart ih =>
    subst he
    have hp := mem_descendants_iff.mpr hp
    exact hparts p hp (ih hp rfl) d (List.mem_filterMap.mpr ⟨_, hpart, rfl⟩)

/-- What is below a node but is not the node is a part of something below it. -/
theorem exists_mem_childNodes (hd : d ∈ n.descendants) (hne : d ≠ n) :
    ∃ p ∈ n.descendants, d ∈ p.childNodes := by
  have hreaches := mem_descendants_iff.mp hd
  generalize he : Element.node d = e at hreaches
  cases hreaches with
  | root => exact absurd (Element.node.inj he) hne
  | @part p _ hp hpart =>
    subst he
    exact ⟨p, mem_descendants_iff.mpr hp, List.mem_filterMap.mpr ⟨_, hpart, rfl⟩⟩

/-- The way to a node is one step longer than the way to its parent. -/
theorem length_way_of_parent (h : d.parent = some n) : d.way.length = n.way.length + 1 := by
  unfold parent at h
  split at h
  · cases h
  · rename_i f way hway
    cases h
    rw [hway, List.length_cons]

/-- The way to what is below a node is no shorter than the way to the node. -/
theorem length_way_le (hd : d ∈ n.descendants) : n.way.length ≤ d.way.length := by
  refine descendants_induction (Nat.le_refl _) (fun p _ ih d hd => ?_) hd
  rw [length_way_of_parent (childNodes_spec hd).2]
  exact Nat.le_succ_of_le ih

/-- The way to a node is two steps longer than the way to the node two steps up, so no node is
reached like this from two levels. -/
theorem length_way_of_isGrandparentOf (h : n.isGrandparentOf d) :
    d.way.length = n.way.length + 2 := by
  obtain ⟨p, hp, hn⟩ := Option.bind_eq_some_iff.mp (of_decide_eq_true h)
  rw [length_way_of_parent hp, length_way_of_parent hn]

/-- The parts of the parts of a node are two steps below it. -/
theorem isGrandparentOf_of_mem_childNodes (hm : m ∈ n.childNodes) (hd : d ∈ m.childNodes) :
    n.isGrandparentOf d := by
  refine decide_eq_true ?_
  rw [(childNodes_spec hd).2]
  exact (childNodes_spec hm).2

/-- What is below a node and has the node two steps up are the parts of its parts, in order. -/
theorem filter_isGrandparentOf (n : Node) :
    n.descendants.filter n.isGrandparentOf = n.childNodes.flatMap childNodes := by
  have helsewhere {d : Node} (h : d.way.length ≠ n.way.length + 2) : ¬n.isGrandparentOf d :=
    fun hd => h (length_way_of_isGrandparentOf hd)
  rw [descendants_eq, List.filter_cons_of_neg (helsewhere (by omega)), List.filter_flatMap]
  refine List.flatMap_congr fun m hm => ?_
  have hlength := length_way_of_parent (childNodes_spec hm).2
  rw [descendants_eq, List.filter_cons_of_neg (helsewhere (by omega)), List.filter_flatMap]
  -- of what is below a part of a part, only that is two steps below the node
  have hpart : ∀ d ∈ m.childNodes, d.descendants.filter n.isGrandparentOf = [d] := by
    intro d hd
    have hlonger := length_way_of_parent (childNodes_spec hd).2
    rw [descendants_eq, List.filter_cons_of_pos (isGrandparentOf_of_mem_childNodes hm hd),
      List.filter_eq_nil_iff.mpr]
    intro b hb
    obtain ⟨c, hc, hb⟩ := List.mem_flatMap.mp hb
    have hlongest := length_way_of_parent (childNodes_spec hc).2
    have hle := length_way_le hb
    exact helsewhere (by omega)
  rw [List.flatMap_congr hpart, List.flatMap_singleton']

/-- The views of what has a node two steps up are those of the parts of its parts, in order. -/
theorem filter_descendantViews {form : Kind → Bool} (n : Node) :
    (n.descendantViews : List (View form)).filter (fun v => n.isGrandparentOf v.node)
      = n.grandchildViews := by
  have hview (d : Node) : (d.view? : Option (View form)).filter (fun v => n.isGrandparentOf v.node)
      = if n.isGrandparentOf d then d.view? else none := by
    unfold view?
    split
    · rw [Option.filter_some]
    · rw [Option.filter_none, ite_self]
  rw [descendantViews, List.filter_filterMap, List.filterMap_congr fun d _ => hview d,
    ← List.filterMap_filter, filter_isGrandparentOf, List.filterMap_flatMap]
  rfl

end Node

/-! ## Where lists can be -/

namespace Shape

/-- Whether a node of a kind can be among trees of a shape. -/
def canHold (part : Kind) : Shape → Bool
  | .nothing | .token _ | .missing _ => false
  | .node kinds => kinds part
  | .seq a b | .alt a b => a.canHold part || b.canHold part
  | .many a => a.canHold part

/-- A node of a kind can only be among trees of a shape that has room for the kind. -/
theorem canHold_of_mem {a : Shape} {gs cs : List Green} {part : Kind} (h : a.Matches gs)
    (hpart : .node part cs ∈ gs) : a.canHold part := by
  induction h with
  | nothing | none => cases hpart
  | token | missing => cases List.mem_singleton.mp hpart
  | node hkind =>
    cases List.mem_singleton.mp hpart
    exact hkind
  | seq _ _ ihx ihy =>
    rw [canHold, Bool.or_eq_true]
    exact (List.mem_append.mp hpart).imp ihx ihy
  | left _ ih => exact Bool.or_eq_true_iff.mpr (.inl (ih hpart))
  | right _ ih => exact Bool.or_eq_true_iff.mpr (.inr (ih hpart))
  | more _ _ ihx ihy => exact (List.mem_append.mp hpart).elim ihx ihy

end Shape

/-- Whether nodes of a kind are in no nodes but those of another one. -/
def Kind.isOnlyIn (part whole : Kind) : Bool :=
  all.all fun k => k == whole || !k.exactShape.canHold part

/-- Three kinds of nodes that a list is made of: what holds the parts, the parts, and what is
listed. -/
structure Kind.Lists (outer middle inner : Kind) : Prop where
  inner_isOnlyIn : inner.isOnlyIn middle
  middle_isOnlyIn : middle.isOnlyIn outer
  inner_ne : inner ≠ outer
  middle_ne : middle ≠ outer

/-- If nodes of a kind are in no nodes but those of another one, the parent of a node of the kind is
of that one. This is computed from the shapes of all kinds. -/
theorem Node.kind_of_isOnlyIn {n d : Node} {part whole : Kind} (h : part.isOnlyIn whole)
    (hn : n.green.Strict) (hd : d ∈ n.childNodes) (hkind : d.kind = part) : n.kind = whole := by
  have hor := List.all_eq_true.mp h n.kind n.kind.mem_all
  rcases Bool.or_eq_true_iff.mp hor with hwhole | hnone
  · exact beq_iff_eq.mp hwhole
  · have hshape : n.kind.exactShape.Matches n.children := hn.1.exactShape
    have hhold := Shape.canHold_of_mem hshape (childNodes_spec hd).1
    rw [hkind] at hhold
    rw [hhold] at hnone
    cases hnone

namespace View

variable {outer middle inner : Kind}

/-- What the parts of a node list, in order. -/
def listed (middle : Kind) (v : Of outer) : List (Of inner) :=
  (v.node.childViews : List (Of middle)).flatMap fun part => part.node.childViews

/-- What is found below a node that lists something, if it is looked for at any depth: the list of
the node, in order, and nothing else exactly if nothing is listed further down. -/
structure Finds (v : Of outer) (middle : Kind) (found : List (Of inner)) : Prop where
  own : found.filter (fun part => v.node.isGrandparentOf part.node) = v.listed middle
  eq_listed_iff : found = v.listed middle ↔
    ∀ w : Of outer, w.node ∈ v.node.descendants → w ≠ v →
      (w.listed middle : List (Of inner)) = []

variable {v : Of outer} {b : Of inner}

/-- The views below a node are views of its descendants, and no others. -/
theorem mem_descendantViews {form : Kind → Bool} {n : Node} {b : View form} :
    b ∈ n.descendantViews ↔ b.node ∈ n.descendants := by
  rw [Node.descendantViews, List.mem_filterMap]
  constructor
  · rintro ⟨d, hd, hb⟩
    unfold Node.view? at hb
    split at hb
    · cases hb
      exact hd
    · cases hb
  · exact fun hb => ⟨b.node, hb, dif_pos b.isForm⟩

/-- What is listed are the parts of the parts. -/
theorem listed_eq (h : Kind.Lists outer middle inner) (hv : v.node.green.Strict) :
    (v.listed middle : List (Of inner)) = v.node.grandchildViews := by
  rw [listed, Node.childViews, List.filterMap_eq_flatMap_toList, List.flatMap_assoc,
    Node.grandchildViews]
  refine List.flatMap_congr fun m hm => ?_
  by_cases hkind : (m.kind == middle) = true
  · rw [Node.view?, dif_pos hkind, Option.toList_some, List.flatMap_singleton]
  · rw [Node.view?, dif_neg hkind]
    refine (List.eq_nil_iff_forall_not_mem.mpr fun b hb => hkind ?_).symm
    have hstrict := Node.strict_of_mem_childNodes hv hm
    exact beq_iff_eq.mpr (Node.kind_of_isOnlyIn h.inner_isOnlyIn hstrict
      (Node.node_of_mem_childViews hb) (beq_iff_eq.mp b.isForm))

/-- What is listed has the node two steps up. -/
theorem isGrandparentOf_of_mem_listed (hb : b ∈ v.listed middle) :
    v.node.isGrandparentOf b.node := by
  obtain ⟨part, hpart, hb⟩ := List.mem_flatMap.mp hb
  exact Node.isGrandparentOf_of_mem_childNodes (Node.node_of_mem_childViews hpart)
    (Node.node_of_mem_childViews hb)

/-- What is listed somewhere below a node is below it. -/
theorem mem_descendants_of_mem_listed {w : Of outer} {n : Node} (hw : w.node ∈ n.descendants)
    (hb : b ∈ w.listed middle) : b.node ∈ n.descendants := by
  obtain ⟨part, hpart, hb⟩ := List.mem_flatMap.mp hb
  exact Node.mem_descendants_of_mem_childNodes
    (Node.mem_descendants_of_mem_childNodes hw (Node.node_of_mem_childViews hpart))
    (Node.node_of_mem_childViews hb)

/-- Everything of its kind below a node is listed by the node or by one below it. -/
theorem exists_mem_listed (h : Kind.Lists outer middle inner) (hv : v.node.green.Strict)
    (hb : b.node ∈ v.node.descendants) :
    ∃ w : Of outer, w.node ∈ v.node.descendants ∧ b ∈ w.listed middle := by
  have hbkind := beq_iff_eq.mp b.isForm
  have hvkind := beq_iff_eq.mp v.isForm
  have hbne : b.node ≠ v.node := fun heq => h.inner_ne (hbkind.symm.trans (heq ▸ hvkind))
  obtain ⟨p, hp, hbp⟩ := Node.exists_mem_childNodes hb hbne
  have hpkind := Node.kind_of_isOnlyIn h.inner_isOnlyIn (Node.deep_of_mem_descendants hv hp)
    hbp hbkind
  have hpne : p ≠ v.node := fun heq => h.middle_ne (hpkind.symm.trans (heq ▸ hvkind))
  obtain ⟨q, hq, hpq⟩ := Node.exists_mem_childNodes hp hpne
  have hqstrict := Node.deep_of_mem_descendants hv hq
  have hqkind := Node.kind_of_isOnlyIn h.middle_isOnlyIn hqstrict hpq hpkind
  let w : Of outer := ⟨q, beq_iff_eq.mpr hqkind⟩
  refine ⟨w, hq, ?_⟩
  have hgrand : b ∈ q.grandchildViews :=
    List.mem_flatMap.mpr ⟨p, hpq, List.mem_filterMap.mpr ⟨b.node, hbp, dif_pos b.isForm⟩⟩
  exact listed_eq (v := w) h hqstrict ▸ hgrand

/-- What is found at any depth is what is listed there. -/
theorem finds_descendantViews (h : Kind.Lists outer middle inner) (hv : v.node.green.Strict) :
    v.Finds middle (v.node.descendantViews : List (Of inner)) := by
  have hown : (v.node.descendantViews : List (Of inner)).filter
      (fun part => v.node.isGrandparentOf part.node) = v.listed middle :=
    (Node.filter_descendantViews v.node).trans (listed_eq h hv).symm
  have heq_of_isGrandparentOf {w : Of outer} {d : Node} (hw : w.node.isGrandparentOf d)
      (hd : v.node.isGrandparentOf d) : w = v := by
    have hnode := (of_decide_eq_true hw).symm.trans (of_decide_eq_true hd)
    cases w
    cases v
    cases Option.some.inj hnode
    rfl
  refine ⟨hown, fun heq w hw hne => ?_, fun hnone => ?_⟩
  · refine List.eq_nil_iff_forall_not_mem.mpr fun b hb => hne ?_
    have hfound := mem_descendantViews.mpr (mem_descendants_of_mem_listed hw hb)
    rw [heq] at hfound
    exact heq_of_isGrandparentOf (isGrandparentOf_of_mem_listed hb)
      (isGrandparentOf_of_mem_listed hfound)
  · rw [← hown, eq_comm, List.filter_eq_self]
    intro b hb
    obtain ⟨w, hw, hlisted⟩ := exists_mem_listed h hv (mem_descendantViews.mp hb)
    by_cases hself : w = v
    · exact hself ▸ isGrandparentOf_of_mem_listed hlisted
    · rw [hnone w hw hself] at hlisted
      cases hlisted

end View

/-- The conditions of a statement hold bindings of optionals, and nothing else does. -/
theorem Kind.lists_conditionElementList :
    Lists .conditionElementList .conditionElement .optionalBindingCondition :=
  ⟨by decide +kernel, by decide +kernel, by decide, by decide⟩

/-- The list in a key path holds components, and nothing else does. -/
theorem Kind.lists_keyPathExpr : Lists .keyPathExpr .keyPathComponentList .keyPathComponent :=
  ⟨by decide +kernel, by decide +kernel, by decide, by decide⟩

namespace Entry

/-- **Lists.** In the tree of every text, of the bindings that the view of conditions finds those
two steps below the conditions are the bindings among the conditions, in order; and they are all
that is found exactly if no conditions further down have any. The same holds of the components of a
key path. -/
theorem lists_read (e : Entry) (text : Text) :
    (∀ v : View.ConditionList, v.node ∈ (Node.ofGreen (e.tree text)).descendants →
      v.Finds .conditionElement v.bindings) ∧
    (∀ v : View.KeyPath, v.node ∈ (Node.ofGreen (e.tree text)).descendants →
      v.Finds .keyPathComponentList v.components) :=
  ⟨fun _ hv => View.finds_descendantViews Kind.lists_conditionElementList
      (strict_of_mem_descendants hv),
    fun _ hv => View.finds_descendantViews Kind.lists_keyPathExpr (strict_of_mem_descendants hv)⟩

/-- The theorem at `if let a{}`, where the view finds the one binding. -/
theorem lists_read_binding :
    ∃ v : View.ConditionList,
      v.node ∈ (Node.ofGreen (sourceFile.tree "if let a\x7b\x7d".toList)).descendants ∧
        v.bindings.length = 1 ∧ v.bindings = v.listed .conditionElement := by
  obtain ⟨v, hv, hlength, hdeeper⟩ : ∃ v ∈ ((Node.ofGreen
      (sourceFile.tree "if let a\x7b\x7d".toList)).descendantViews : List View.ConditionList),
        (View.ConditionList.bindings v).length = 1 ∧
          ∀ w ∈ (v.node.descendantViews : List View.ConditionList), w ≠ v →
            (w.listed .conditionElement : List View.OptionalBinding) = [] :=
    of_decide_eq_true (of_tree? (n := 20) (p := fun tree =>
      ∃ v ∈ ((Node.ofGreen tree).descendantViews : List View.ConditionList),
        (View.ConditionList.bindings v).length = 1 ∧
          ∀ w ∈ (v.node.descendantViews : List View.ConditionList), w ≠ v →
            (w.listed .conditionElement : List View.OptionalBinding) = []) (by decide +kernel))
  have hmem := View.mem_descendantViews.mp hv
  exact ⟨v, hmem, hlength, ((lists_read .sourceFile _).1 v hmem).eq_listed_iff.mpr fun w hw =>
    hdeeper w (View.mem_descendantViews.mpr hw)⟩

/-- In `if f({if let a{}}){}` and a key path behind it, the view of the outer conditions finds the
binding of the inner ones, and the view of the outer key path finds the component of the inner
one. -/
theorem lists_mixed :
    let tree := sourceFile.tree "if f(\x7bif let a\x7b\x7d\x7d)\x7b\x7d\n\\.[\\.a]".toList
    (∃ v : View.ConditionList, v.node ∈ (Node.ofGreen tree).descendants ∧
      (v.listed .conditionElement : List View.OptionalBinding) = [] ∧ v.bindings.length = 1) ∧
    ∃ v : View.KeyPath, v.node ∈ (Node.ofGreen tree).descendants ∧
      (v.listed .keyPathComponentList : List View.KeyPathComponent).length = 1 ∧
        v.components.length = 2 := by
  obtain ⟨⟨v, hv, hbindings⟩, w, hw, hcomponents⟩ := of_decide_eq_true (@of_tree? sourceFile 40
    "if f(\x7bif let a\x7b\x7d\x7d)\x7b\x7d\n\\.[\\.a]".toList (fun tree =>
      (∃ v ∈ ((Node.ofGreen tree).descendantViews : List View.ConditionList),
        (v.listed .conditionElement : List View.OptionalBinding) = [] ∧
          (View.ConditionList.bindings v).length = 1) ∧
      ∃ v ∈ ((Node.ofGreen tree).descendantViews : List View.KeyPath),
        (v.listed .keyPathComponentList : List View.KeyPathComponent).length = 1 ∧
          (View.KeyPath.components v).length = 2) (by decide +kernel))
  exact ⟨⟨v, View.mem_descendantViews.mp hv, hbindings⟩, w, View.mem_descendantViews.mp hw,
    hcomponents⟩

end Entry

end SwiftTree
