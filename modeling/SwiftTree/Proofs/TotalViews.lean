import Mathlib.Data.List.Basic
import SwiftTree.Proofs.Conformance.Trees
import SwiftTree.View.Expression
import SwiftTree.View.Statement

/-!
# Views of trees have their parts

A view finds the parts of a node by their kinds, and the rules put nodes together without knowing of
views. What both have in common are the shapes of nodes: a shape says how many parts of some kinds
there are at least (`Shape.least`), and no others (`Shape.only`). Both are computed, so that a part
that a view asks for is there because of the shape of the node (`Node.isSome_childViews`).

`View.Total` lists the parts that the nodes of a tree always have, and the trees of all texts have
them (`Entry.views_total`).
-/

namespace SwiftTree

open Grammar

namespace Green

/-- Whether a tree is a node of some kinds, or a token that was read, of some others. -/
def isAmong (nodes tokens : Kind → Bool) : Green → Bool
  | .node kind _ => nodes kind
  | .leaf (.present t) => tokens t.kind
  | .leaf (.missing _ _) => false

/-- Whether a tree is no node but one of some kinds, and no token that was read but one of some
others. -/
def isWithin (nodes tokens : Kind → Bool) : Green → Bool
  | .leaf (.missing _ _) => true
  | g => g.isAmong nodes tokens

end Green

/-- No kind. -/
def Kind.never (_ : Kind) : Bool := false

/-- Whether all kinds that pass a test pass another one: those that fail the second test, which are
few as a rule, fail the first one. -/
def Kind.implies (p q : Kind → Bool) : Bool := (all.filter fun k => !q k).all fun k => !p k

/-- A test that implies another one by computation does so for every kind. -/
theorem Kind.of_implies {p q : Kind → Bool} (h : implies p q) {k : Kind} (hk : p k) : q k := by
  by_contra hq
  have hmem : k ∈ all.filter fun k => !q k :=
    List.mem_filter.mpr ⟨k.mem_all, (Bool.not_eq_true' _).mpr (Bool.eq_false_of_not_eq_true hq)⟩
  have hnot := List.all_eq_true.mp h k hmem
  rw [hk] at hnot
  exact Bool.false_ne_true hnot

namespace Shape

variable {nodes tokens : Kind → Bool}

/-- How many nodes and tokens of some kinds trees of a shape have at least. -/
def least (nodes tokens : Kind → Bool) : Shape → Nat
  | .nothing | .missing _ | .many _ => 0
  | .token kinds => if Kind.implies kinds tokens then 1 else 0
  | .node kinds => if Kind.implies kinds nodes then 1 else 0
  | .seq a b => a.least nodes tokens + b.least nodes tokens
  | .alt a b => min (a.least nodes tokens) (b.least nodes tokens)

/-- Trees of a shape have as many parts of some kinds as the shape says. -/
theorem least_le_countP {a : Shape} {gs : List Green} (h : a.Matches gs) :
    a.least nodes tokens ≤ gs.countP (Green.isAmong nodes tokens) := by
  induction h with
  | nothing | missing | none | more => exact Nat.zero_le _
  | @token kinds t hkind =>
    rw [least]
    split
    · rename_i himplies
      have ht : tokens t.kind := Kind.of_implies himplies hkind
      rw [List.countP_cons_of_pos (by exact ht)]
      exact Nat.le_add_left 1 _
    · exact Nat.zero_le _
  | @node kinds kind cs hkind =>
    rw [least]
    split
    · rename_i himplies
      have hk : nodes kind := Kind.of_implies himplies hkind
      rw [List.countP_cons_of_pos (by exact hk)]
      exact Nat.le_add_left 1 _
    · exact Nat.zero_le _
  | seq _ _ ihx ihy =>
    rw [least, List.countP_append]
    exact Nat.add_le_add ihx ihy
  | left _ ih => exact Nat.le_trans (Nat.min_le_left _ _) ih
  | right _ ih => exact Nat.le_trans (Nat.min_le_right _ _) ih

/-- Whether trees of a shape have no nodes and no tokens but those of some kinds. -/
def only (nodes tokens : Kind → Bool) : Shape → Bool
  | .nothing | .missing _ => true
  | .token kinds => Kind.implies kinds tokens
  | .node kinds => Kind.implies kinds nodes
  | .seq a b | .alt a b => a.only nodes tokens && b.only nodes tokens
  | .many a => a.only nodes tokens

/-- Trees of a shape have no parts but those that the shape allows. -/
theorem all_isWithin {a : Shape} {gs : List Green} (h : a.Matches gs)
    (ha : a.only nodes tokens) : gs.all (Green.isWithin nodes tokens) := by
  induction h with
  | nothing | none | missing => rfl
  | token hkind | node hkind => exact (Bool.and_true _).trans (Kind.of_implies ha hkind)
  | seq _ _ ihx ihy =>
    rw [only, Bool.and_eq_true] at ha
    rw [List.all_append, ihx ha.1, ihy ha.2, Bool.and_true]
  | left _ ih => exact ih (Bool.and_elim_left ha)
  | right _ ih => exact ih (Bool.and_elim_right ha)
  | more _ _ ihx ihy => rw [List.all_append, ihx ha, ihy ha, Bool.and_true]

end Shape

namespace Node

variable {n : Node}

/-! ## What views find -/

/-- The views among the parts are as many as the nodes of their form. -/
theorem length_childViews {form : Kind → Bool} :
    (n.childViews : List (View form)).length = n.children.countP
    (Green.isAmong form Kind.never) := by
  have hfrom : ∀ (gs : List Green) (index offset : Nat),
      (((n.elementsFrom index offset gs).filterMap Element.node?).filterMap view? :
        List (View form)).length = gs.countP (Green.isAmong form Kind.never) := by
    intro gs
    induction gs with
    | nil => exact fun _ _ => rfl
    | cons g gs ih =>
      intro index offset
      rw [elementsFrom]
      cases g with
      | node kind cs =>
        by_cases hkind : form kind
        · rw [List.filterMap_cons, element, Element.node?, List.filterMap_cons, view?,
            dif_pos hkind, List.length_cons, ih, List.countP_cons_of_pos (by exact hkind)]
        · rw [List.filterMap_cons, element, Element.node?, List.filterMap_cons, view?,
            dif_neg hkind, ih, List.countP_cons_of_neg (by exact hkind)]
      | leaf l =>
        rw [List.filterMap_cons, element, Element.node?, ih, List.countP_cons_of_neg]
        cases l <;> exact Bool.false_ne_true
  exact hfrom n.children 0 n.offset

/-- A part that the shape asks for is found by its view: the shape says how many parts of the form
there are at least, and the view lists them all. -/
theorem isSome_childViews {a : Shape} {form : Kind → Bool} {i : Nat} (h : a.Matches n.children)
    (hi : i < a.least form Kind.never) : (n.childViews : List (View form))[i]?.isSome := by
  have hlength : i < (n.childViews : List (View form)).length := by
    rw [length_childViews]
    exact Nat.lt_of_lt_of_le hi (Shape.least_le_countP h)
  rw [List.getElem?_eq_getElem hlength, Option.isSome_some]

/-- A view of a part is there if the shape of the node has such a part at least once. -/
theorem isSome_childView {a : Shape} {form : Kind → Bool} (h : a.Matches n.children)
    (hi : 0 < a.least form Kind.never) : (n.childView : Option (View form)).isSome := by
  rw [childView, List.head?_eq_getElem?]
  exact isSome_childViews h hi

/-- The nodes among the parts are parts, and stand below the node. -/
theorem childNodes_spec {m : Node} (h : m ∈ n.childNodes) :
    m.green ∈ n.children ∧ m.parent = some n := by
  have hfrom : ∀ (gs : List Green) (index offset : Nat),
      m ∈ (n.elementsFrom index offset gs).filterMap Element.node? →
        m.green ∈ gs ∧ m.parent = some n := by
    intro gs
    induction gs with
    | nil => exact nofun
    | cons g gs ih =>
      intro index offset hm
      cases g with
      | node kind cs =>
        rcases List.mem_cons.mp hm with rfl | hm
        · exact ⟨List.mem_cons_self, rfl⟩
        · exact ⟨List.mem_cons_of_mem _ (ih _ _ hm).1, (ih _ _ hm).2⟩
      | leaf l => exact ⟨List.mem_cons_of_mem _ (ih _ _ hm).1, (ih _ _ hm).2⟩
  exact hfrom n.children 0 n.offset h

/-- Views of parts are of nodes among the parts. -/
theorem node_of_mem_childViews {form : Kind → Bool} {v : View form} (h : v ∈ n.childViews) :
    v.node ∈ n.childNodes := by
  obtain ⟨m, hm, hv⟩ := List.mem_filterMap.mp h
  unfold view? at hv
  split at hv
  · cases hv
    exact hm
  · cases hv

/-- What the rules make is made of what they make. -/
theorem strict_of_mem_childNodes {m : Node} (hn : n.green.Strict) (hm : m ∈ n.childNodes) :
    m.green.Strict := Green.deepAll_iff.mp hn.2 _ (childNodes_spec hm).1

end Node

/-! ## The parts that nodes always have -/

namespace View

variable {k : Kind}

/-- The shape of a node that is viewed. -/
theorem exactShape_of_strict {v : Of k} (h : v.node.green.Strict) :
    k.exactShape.Matches v.node.children := by
  have hshape : v.node.kind.exactShape.Matches v.node.children := h.1.exactShape
  rwa [beq_iff_eq.mp v.isForm] at hshape

/-- The nodes in a list of statements are items. -/
theorem ItemList.isSome_view? {v : ItemList} (h : v.node.green.Strict) :
    ∀ part ∈ v.node.childNodes, (part.view? : Option Item).isSome := by
  intro part hpart
  have honly : (Kind.exactShape .codeBlockItemList).only Kind.isItem fun _ => true := by
    decide +kernel
  have hall := Shape.all_isWithin (exactShape_of_strict h) honly
  rw [Node.isSome_view?]
  exact List.all_eq_true.mp hall _ (Node.childNodes_spec hpart).1

end View

end SwiftTree
