import SwiftTree.Node.Listing

/-!
# What is missing in a tree

The missing tokens and the placeholders of a tree, in source order (`Node.missing`). They are the
leaves that were not read and the nodes with the kind of a placeholder, and no two of them are the
same place of the tree. With the unexpected nodes they are all that is wrong with a tree
(`Node.faults`).
-/

namespace SwiftTree

namespace Node

mutual

/-- The missing tokens and the placeholders in a part of the node `n`. -/
def missingIn (n : Node) (index offset : Nat) : Green → List Element
  | .node kind children =>
    let below : Node := ⟨kind, children, offset, n.step index⟩
    let inside := missingFrom below 0 offset children
    if kind.isMissingNode then .node below :: inside else inside
  | .leaf l => if l.isPresent then [] else [.leaf ⟨n, index, offset, l⟩]

/-- The missing tokens and the placeholders in several parts of the node `n`. -/
def missingFrom (n : Node) (index offset : Nat) : List Green → List Element
  | [] => []
  | g :: gs => missingIn n index offset g ++ missingFrom n (index + 1) (offset + g.byteLen) gs

end

/-- The missing tokens and the placeholders of a tree, in source order. -/
def missing (n : Node) : List Element :=
  let inside := missingFrom n 0 n.offset n.children
  if n.kind.isMissingNode then .node n :: inside else inside

end Node

/-- The missing tokens and the placeholders in a part. -/
def Element.missing : Element → List Element
  | node n => n.missing
  | leaf l => if l.isPresent then [] else [leaf l]

namespace Node

/-! ## What is missing, as leaves and nodes -/

mutual

theorem green_leavesIn (n : Node) (index offset : Nat) : (g : Green) →
    (n.leavesIn index offset g).map Leaf.green = g.leaves
  | .node _ cs => green_leavesFrom _ 0 offset cs
  | .leaf _ => rfl

/-- The leaves that are listed below several parts are the leaves of the trees there, in the same
order. -/
theorem green_leavesFrom (n : Node) (index offset : Nat) : (gs : List Green) →
    (n.leavesFrom index offset gs).map Leaf.green = Green.leavesOf gs
  | [] => rfl
  | g :: gs => by
    rw [leavesFrom, Green.leavesOf, List.map_append, green_leavesIn, green_leavesFrom]

end

/-- The leaves below a node are those of its tree. -/
theorem green_leaves (n : Node) : n.leaves.map Leaf.green = n.green.leaves :=
  green_leavesFrom n 0 n.offset n.children

mutual

/-- The leaves among what is missing in a part are those of its leaves that were not read. -/
theorem leaves_missingIn (n : Node) (index offset : Nat) : (g : Green) →
    (n.missingIn index offset g).filterMap Element.leaf?
      = (n.leavesIn index offset g).filter fun l => !l.isPresent
  | .node kind cs => by
    rw [missingIn, leavesIn, ← leaves_missingFrom]
    split <;> rfl
  | .leaf (.present _) => rfl
  | .leaf (.missing _ _) => rfl

/-- The leaves among what is missing in several parts are those of their leaves that were not
read. -/
theorem leaves_missingFrom (n : Node) (index offset : Nat) : (gs : List Green) →
    (n.missingFrom index offset gs).filterMap Element.leaf?
      = (n.leavesFrom index offset gs).filter fun l => !l.isPresent
  | [] => rfl
  | g :: gs => by
    rw [missingFrom, leavesFrom, List.filterMap_append, List.filter_append, leaves_missingIn,
      leaves_missingFrom]

end

mutual

/-- The nodes among what is missing in a part are those of its nodes that stand for something that
was not found. -/
theorem nodes_missingIn (n : Node) (index offset : Nat) : (g : Green) →
    (n.missingIn index offset g).filterMap Element.node?
      = (n.nodesIn index offset g).filter fun d => d.kind.isMissingNode
  | .node kind cs => by
    rw [missingIn, nodesIn, List.filter_cons]
    dsimp only
    rw [← nodes_missingFrom]
    split <;> rfl
  | .leaf (.present _) => rfl
  | .leaf (.missing _ _) => rfl

/-- The nodes among what is missing in several parts are those that stand for something that was not
found. -/
theorem nodes_missingFrom (n : Node) (index offset : Nat) : (gs : List Green) →
    (n.missingFrom index offset gs).filterMap Element.node?
      = (n.nodesFrom index offset gs).filter fun d => d.kind.isMissingNode
  | [] => rfl
  | g :: gs => by
    rw [missingFrom, nodesFrom, List.filterMap_append, List.filter_append, nodes_missingIn,
      nodes_missingFrom]

end

/-- The missing tokens are the leaves that were not read. -/
theorem leaves_missing (n : Node) :
    n.missing.filterMap Element.leaf? = n.leaves.filter fun l => !l.isPresent := by
  rw [missing, leaves, ← leaves_missingFrom]
  split <;> rfl

/-- The placeholders are the nodes with the kind of one. -/
theorem nodes_missing (n : Node) :
    n.missing.filterMap Element.node? = n.descendants.filter fun d => d.kind.isMissingNode := by
  rw [missing, descendants, List.filter_cons, ← nodes_missingFrom]
  split <;> rfl

/-- Nothing is missing exactly when every leaf was read and no node is a placeholder. -/
theorem missing_eq_nil_iff (n : Node) : n.missing = [] ↔
    (∀ l ∈ n.leaves, l.isPresent) ∧ ∀ d ∈ n.descendants, d.kind.isMissingNode = false := by
  have hleaves := n.leaves_missing
  have hnodes := n.nodes_missing
  constructor
  · intro h
    rw [h, List.filterMap_nil, eq_comm, List.filter_eq_nil_iff] at hleaves hnodes
    refine ⟨fun l hl => ?_, fun d hd => Bool.eq_false_iff.mpr (hnodes d hd)⟩
    simpa using hleaves l hl
  · rintro ⟨hpresent, hnone⟩
    rw [List.eq_nil_iff_forall_not_mem]
    rintro (d | l) he
    · have hd : d ∈ n.missing.filterMap Element.node? := List.mem_filterMap.mpr ⟨_, he, rfl⟩
      rw [hnodes, List.mem_filter] at hd
      rw [hnone d hd.1] at hd
      cases hd.2
    · have hl : l ∈ n.missing.filterMap Element.leaf? := List.mem_filterMap.mpr ⟨_, he, rfl⟩
      rw [hleaves, List.mem_filter] at hl
      rw [hpresent l hl.1] at hl
      cases hl.2

/-- A construct without a token of the source, but with leaves, lacks something. -/
theorem missing_ne_nil {n : Node} (hnone : n.green.hasPresent = false)
    (hleaves : n.green.leaves ≠ []) : n.missing ≠ [] := by
  intro hmissing
  have hall : ∀ l ∈ n.leaves, l.isPresent = false := by
    rw [Green.hasPresent_eq_any, ← green_leaves, List.any_map, List.any_eq_false] at hnone
    exact fun l hl => Bool.eq_false_iff.mpr (hnone l hl)
  have hnil := n.leaves_missing
  rw [hmissing, List.filterMap_nil, List.filter_eq_self.mpr (by simpa using hall)] at hnil
  rw [← green_leaves, ← hnil] at hleaves
  exact hleaves rfl

/-! ## Everything that is wrong with a tree -/

end Node

namespace Element

/-- Whether something is wrong with a part: a token is missing, or it is a placeholder, or
unexpected. -/
def isFault : Element → Bool
  | node n => n.kind.isMissingNode || n.kind == .unexpected
  | leaf l => !l.isPresent

/-- Whether a part is an unexpected node. -/
def isUnexpected : Element → Bool
  | node n => n.kind == .unexpected
  | leaf _ => false

end Element

namespace Node

/-- What is wrong in a part of the node `n`, in the order in which it is listed. -/
def faultsIn (n : Node) (depth index offset : Nat) (g : Green) : List Element :=
  ((n.listingIn depth index offset g).map Prod.snd).filter Element.isFault

/-- What is wrong in several parts of the node `n`. -/
def faultsFrom (n : Node) (depth index offset : Nat) (gs : List Green) : List Element :=
  ((n.listingFrom depth index offset gs).map Prod.snd).filter Element.isFault

/-- The missing tokens, the placeholders and the unexpected nodes of a tree, in the order in which
the tree is listed. -/
def faults (n : Node) : List Element := (n.listing.map Prod.snd).filter Element.isFault

/-- What is wrong in a node below another one: the node itself, if it is a placeholder or
unexpected, and what is wrong in its parts. -/
theorem faultsIn_node (n : Node) (depth index offset : Nat) (kind : Kind) (cs : List Green) :
    n.faultsIn depth index offset (.node kind cs)
      = let below : Node := ⟨kind, cs, offset, n.step index⟩
        let inside := below.faultsFrom (depth + 1) 0 offset cs
        if kind.isMissingNode || kind == .unexpected then .node below :: inside else inside := by
  rw [faultsIn, listingIn, List.map_cons, List.filter_cons]
  rfl

/-- What is wrong in several parts is what is wrong in the first one, and what is wrong in the
others. -/
theorem faultsFrom_cons (n : Node) (depth index offset : Nat) (g : Green) (gs : List Green) :
    n.faultsFrom depth index offset (g :: gs)
      = n.faultsIn depth index offset g
        ++ n.faultsFrom depth (index + 1) (offset + g.byteLen) gs := by
  rw [faultsFrom, listingFrom, List.map_append, List.filter_append]
  rfl

/-- What is wrong in a tree is what is wrong in its root and in the parts of the root. -/
theorem faults_eq (n : Node) : n.faults
    = let inside := n.faultsFrom 1 0 n.offset n.children
      if n.kind.isMissingNode || n.kind == .unexpected then .node n :: inside else inside := by
  rw [faults, listing, List.map_cons, List.filter_cons]
  rfl

/-- A node that is unexpected is not missing. -/
theorem filter_fault (n : Node) (es : List Element) :
    (if n.kind.isMissingNode || n.kind == .unexpected then .node n :: es else es).filter
        (fun e => !e.isUnexpected)
      = if n.kind.isMissingNode then .node n :: es.filter fun e => !e.isUnexpected
        else es.filter fun e => !e.isUnexpected := by
  by_cases hk : n.kind = .unexpected
  · simp [Element.isUnexpected, hk, Kind.isMissingNode]
  · by_cases hmissing : n.kind.isMissingNode
    · simp [Element.isUnexpected, hk, hmissing]
    · simp [hk, hmissing]

mutual

/-- What is missing is what is wrong, the unexpected nodes apart. -/
theorem missingIn_eq (n : Node) (depth index offset : Nat) : (g : Green) →
    n.missingIn index offset g
      = (n.faultsIn depth index offset g).filter fun e => !e.isUnexpected
  | .node kind cs => by
    rw [missingIn, faultsIn_node]
    dsimp only
    rw [missingFrom_eq _ (depth + 1) 0 offset cs]
    exact (filter_fault ⟨kind, cs, offset, n.step index⟩ _).symm
  | .leaf (.present _) => rfl
  | .leaf (.missing _ _) => rfl

/-- What is missing in several parts is what is wrong there, but for the unexpected nodes. -/
theorem missingFrom_eq (n : Node) (depth index offset : Nat) : (gs : List Green) →
    n.missingFrom index offset gs
      = (n.faultsFrom depth index offset gs).filter fun e => !e.isUnexpected
  | [] => rfl
  | g :: gs => by
    rw [missingFrom, faultsFrom_cons, List.filter_append, ← missingIn_eq, ← missingFrom_eq]

end

/-- What is missing in a tree is what is wrong with it, but for the unexpected nodes. -/
theorem missing_eq (n : Node) : n.missing = n.faults.filter fun e => !e.isUnexpected := by
  rw [missing, faults_eq]
  dsimp only
  rw [missingFrom_eq n 1, filter_fault]

/-- The leaves among what is wrong are those that were not read. -/
theorem leaves_faults (n : Node) :
    n.faults.filterMap Element.leaf? = n.leaves.filter fun l => !l.isPresent := by
  have hleaf (e : Element) : (if !e.isUnexpected then e.leaf? else none) = e.leaf? := by
    cases e with
    | node d => exact ite_self none
    | leaf l => rfl
  rw [← leaves_missing, missing_eq, List.filterMap_filter, funext hleaf]

/-! ## Everything that is missing is another place -/

end Node

/-- The indices of the steps from the root to a part, the last one first. -/
def Element.path : Element → List Nat
  | node n => n.path
  | leaf l => l.index :: l.parent.path

namespace Node

mutual

/-- What is missing in a part is at the part or below it. -/
theorem suffix_path_of_mem_missingIn {n : Node} {e : Element} {index offset : Nat} :
    {g : Green} → e ∈ n.missingIn index offset g → index :: n.path <:+ e.path
  | .node kind cs, he => by
    rw [missingIn] at he
    have hinside (he : e ∈ missingFrom ⟨kind, cs, offset, n.step index⟩ 0 offset cs) :
        index :: n.path <:+ e.path := by
      obtain ⟨i, -, hi⟩ := suffix_path_of_mem_missingFrom he
      exact (List.suffix_cons i _).trans hi
    split at he
    · rcases List.mem_cons.mp he with rfl | he
      · exact List.suffix_rfl
      · exact hinside he
    · exact hinside he
  | .leaf (.present _), he => absurd he List.not_mem_nil
  | .leaf (.missing _ _), he => by
    obtain rfl := List.mem_singleton.mp he
    exact List.suffix_rfl

/-- The way to what is missing in several parts of a node goes through one of these parts. -/
theorem suffix_path_of_mem_missingFrom {n : Node} {e : Element} {index offset : Nat} :
    {gs : List Green} → e ∈ n.missingFrom index offset gs →
      ∃ i, index ≤ i ∧ i :: n.path <:+ e.path
  | [], he => absurd he List.not_mem_nil
  | _ :: _, he => by
    rcases List.mem_append.mp he with he | he
    · exact ⟨index, Nat.le_refl _, suffix_path_of_mem_missingIn he⟩
    · obtain ⟨i, hi, hsuffix⟩ := suffix_path_of_mem_missingFrom he
      exact ⟨i, Nat.le_of_succ_le hi, hsuffix⟩

end

/-- Two steps from one node on one way are the same step. -/
theorem eq_of_suffix {i j : Nat} {path way : List Nat} (hi : i :: path <:+ way)
    (hj : j :: path <:+ way) : i = j := by
  have h : i :: path <:+ j :: path := List.suffix_of_suffix_length_le hi hj (Nat.le_refl _)
  exact (List.cons.inj (h.eq_of_length rfl)).1

/-- A node is not missing below itself. -/
theorem not_mem_missingFrom (n : Node) (index offset : Nat) (gs : List Green) :
    .node n ∉ n.missingFrom index offset gs := by
  intro hn
  obtain ⟨i, -, hi⟩ := suffix_path_of_mem_missingFrom hn
  have hlength := hi.length_le
  rw [List.length_cons] at hlength
  exact Nat.not_succ_le_self _ hlength

mutual

/-- No two missing places of a part are the same: their ways from the root differ. -/
theorem nodup_missingIn (n : Node) (index offset : Nat) : (g : Green) →
    (n.missingIn index offset g).Nodup
  | .node kind cs => by
    have hinside := nodup_missingFrom ⟨kind, cs, offset, n.step index⟩ 0 offset cs
    rw [missingIn]
    split
    · exact List.nodup_cons.mpr ⟨not_mem_missingFrom _ _ _ _, hinside⟩
    · exact hinside
  | .leaf (.present _) => List.nodup_nil
  | .leaf (.missing _ _) => List.pairwise_singleton _ _

/-- No two missing places of several parts are the same, since the ways to those of different parts
differ in the step below the node. -/
theorem nodup_missingFrom (n : Node) (index offset : Nat) : (gs : List Green) →
    (n.missingFrom index offset gs).Nodup
  | [] => List.nodup_nil
  | g :: gs => by
    rw [missingFrom, List.nodup_append]
    refine ⟨nodup_missingIn n index offset g, nodup_missingFrom n _ _ gs, ?_⟩
    rintro e he _ he' rfl
    obtain ⟨i, hi, hsuffix⟩ := suffix_path_of_mem_missingFrom he'
    rw [eq_of_suffix (suffix_path_of_mem_missingIn he) hsuffix] at hi
    exact Nat.not_succ_le_self _ hi

end

/-- No token and no placeholder is missing twice. -/
theorem nodup_missing (n : Node) : n.missing.Nodup := by
  have hinside := n.nodup_missingFrom 0 n.offset n.children
  rw [missing]
  split
  · exact List.nodup_cons.mpr ⟨not_mem_missingFrom _ _ _ _, hinside⟩
  · exact hinside

end Node

end SwiftTree
