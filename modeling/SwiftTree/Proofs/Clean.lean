import SwiftTree.Proofs.Diagnostics

/-!
# Clean trees

A tree is clean if nothing in it is missing or unexpected. A text has no diagnostics exactly when
what its rules put together is clean (`Entry.diagnostics_eq_nil_iff`).
-/

namespace SwiftTree

namespace Green

mutual

/-- Whether nothing in a tree is missing or unexpected. -/
def isClean : Green → Bool
  | .node kind cs => !(kind.isMissingNode || kind == .unexpected) && allClean cs
  | .leaf l => l.isPresent

/-- Whether nothing in several trees is missing or unexpected. -/
def allClean : List Green → Bool
  | [] => true
  | g :: gs => g.isClean && allClean gs

end

@[simp] theorem allClean_nil : allClean [] = true := rfl

@[simp] theorem allClean_cons (g : Green) (gs : List Green) :
    allClean (g :: gs) = (g.isClean && allClean gs) := rfl

@[simp] theorem isClean_token (t : Token) : (token t).isClean = true := rfl

/-- A construct is clean if its parts are. -/
theorem isClean_node {kind : Kind} (h : kind.isConstruct) (cs : List Green) :
    (node kind cs).isClean = allClean cs := by
  simp only [Kind.isConstruct, Bool.and_eq_true, Bool.not_eq_true', bne_iff_ne] at h
  rw [isClean, h.1.2, beq_eq_false_iff_ne.mpr h.2]
  rfl

/-- Several trees are clean if each of them is. -/
theorem allClean_iff {gs : List Green} : allClean gs ↔ ∀ g ∈ gs, g.isClean := by
  induction gs with
  | nil => simp [allClean]
  | cons g gs ih => rw [allClean, Bool.and_eq_true, ih, List.forall_mem_cons]

@[simp] theorem allClean_append (gs hs : List Green) :
    allClean (gs ++ hs) = (allClean gs && allClean hs) := by
  rw [Bool.eq_iff_iff, Bool.and_eq_true, allClean_iff, allClean_iff, allClean_iff,
    List.forall_mem_append]

@[simp] theorem allClean_reverse (gs : List Green) : allClean gs.reverse = allClean gs := by
  rw [Bool.eq_iff_iff, allClean_iff, allClean_iff]
  exact forall_congr' fun g => by rw [List.mem_reverse]

end Green

namespace Node

mutual

/-- A tree has no faults just if it is clean. -/
theorem faultsIn_eq_nil_iff (n : Node) (depth index offset : Nat) : (g : Green) →
    (n.faultsIn depth index offset g = [] ↔ g.isClean)
  | .node kind cs => by
    rw [faultsIn_node, Green.isClean, Bool.and_eq_true,
      ← faultsFrom_eq_nil_iff ⟨kind, cs, offset, n.step index⟩ (depth + 1) 0 offset cs]
    dsimp only
    split
    · rename_i hfault
      simp [hfault]
    · rename_i hfault
      simp [hfault]
  | .leaf l => by
    cases l with
    | present t => exact iff_of_true rfl rfl
    | missing kind spelling => exact iff_of_false (List.cons_ne_nil _ _) Bool.false_ne_true

/-- The same for several trees. -/
theorem faultsFrom_eq_nil_iff (n : Node) (depth index offset : Nat) : (gs : List Green) →
    (n.faultsFrom depth index offset gs = [] ↔ Green.allClean gs)
  | [] => iff_of_true rfl rfl
  | g :: gs => by
    rw [faultsFrom_cons, List.append_eq_nil_iff, Green.allClean, Bool.and_eq_true,
      faultsIn_eq_nil_iff, faultsFrom_eq_nil_iff]

end

/-- There are findings exactly when something is wrong. Each of them is about something, and
together they are about everything. -/
theorem findings_eq_nil_iff_allClean {n : Node} (hn : Green.RegularAll n.children) :
    n.findings = [] ↔ Green.allClean n.children := by
  rw [← faultsFrom_eq_nil_iff n 1 0 n.offset, ← pieces_findings hn, List.flatMap_eq_nil_iff]
  constructor
  · intro h f hf
    rw [h] at hf
    cases hf
  · intro h
    rw [List.eq_nil_iff_forall_not_mem]
    exact fun f hf => Finding.pieces_ne_nil ((ordered_findings hn).1 f hf).1 (h f hf)

end Node

namespace Entry

/-- The end of the file is no part that can be missing. -/
theorem isClean_tree (e : Entry) (text : Text) :
    (e.tree text).isClean = Green.allClean (e.parts text) := by
  have hroot : e.root.isConstruct := by cases e <;> rfl
  rw [tree_eq, Green.isClean_node hroot, Green.allClean_append]
  exact Bool.and_true _

/-- A text has no diagnostics exactly when its tree is clean. So whether a text is accepted can be
said of its tree, and for the tree of what its rules put together. -/
theorem diagnostics_eq_nil_iff (e : Entry) (text : Text) :
    (Parse.ofText e text).diagnostics = [] ↔ (e.tree text).isClean := by
  rw [e.diagnostics_eq, List.map_eq_nil_iff,
    Node.findings_eq_nil_iff_allClean (e.regular_tree text), isClean_tree, e.tree_eq]
  show Green.allClean (e.parts text ++ [.token (endOfFile text)]) = true ↔ _
  rw [Green.allClean_append, Bool.and_eq_true]
  exact and_iff_left rfl

end Entry

end SwiftTree
