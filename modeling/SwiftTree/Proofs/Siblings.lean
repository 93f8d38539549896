import SwiftTree.Proofs.Walking

/-!
# Moving from node to node

A node is the node itself and the way to it, so it can be left for its parent, its parts and its
siblings without asking for the root. Each of these moves builds the node it leads to anew. What
holds the moves together is where a node stands among the parts of its parent
(`Node.childNodes_eq_siblings`): in front of it are the earlier siblings, behind it the later ones.
So the next sibling of a node has the node in front of it (`Node.nextSibling_eq_some_iff`), and a
path leads to one node only (`Node.eq_of_path_eq`).

Nodes are compared by where they stand and by what is below them. For the latter it is enough to ask
whether it is stored at one address (`Storage.identical`), even though trees that are equal may
share an address: nodes at different places differ in the index of a step (`Storage.onePlace_iff`).
-/

namespace SwiftTree

namespace Node

variable {root n d x y : Node}

/-! ## Siblings -/

/-- The nodes in front of this one with the same parent. -/
def earlierSiblings (n : Node) : List Node :=
  match n.way with
  | [] => []
  | f :: way =>
    let parent : Node := ⟨f.kind, f.children, f.offset, way⟩
    (parent.elements.take f.index).filterMap Element.node?

/-- The previous sibling is the last one of the nodes in front of a node with the same parent. -/
theorem prevSibling_eq (n : Node) : n.prevSibling = n.earlierSiblings.getLast? := by
  unfold prevSibling earlierSiblings parent
  cases n.way <;> rfl

/-- The last step to a node among the parts of another one says which of the parts it is. -/
theorem exists_step (hd : d ∈ n.childNodes) : ∃ i, d.way = n.step i ∧
    n.elements[i]? = some (.node d) ∧ n.children[i]? = some d.green := by
  have hfrom : ∀ (gs : List Green) (index offset : Nat),
      d ∈ (n.elementsFrom index offset gs).filterMap Element.node? → ∃ i,
      d.way = n.step (index + i) ∧
        (n.elementsFrom index offset gs)[i]? = some (.node d) ∧ gs[i]? = some d.green := by
    intro gs
    induction gs with
    | nil => exact nofun
    | cons g gs ih =>
      intro index offset hd
      have hlater (h : d ∈ (n.elementsFrom (index + 1) (offset + g.byteLen) gs).filterMap
        Element.node?) :
          ∃ i, d.way = n.step (index + i) ∧
            (n.elementsFrom index offset (g :: gs))[i]? = some (.node d) ∧
            (g :: gs)[i]? = some d.green := by
        obtain ⟨i, hway, helement, hgreen⟩ := ih _ _ h
        exact ⟨i + 1, by rw [hway, Nat.add_right_comm, Nat.add_assoc], helement, hgreen⟩
      cases g with
      | leaf l => exact hlater hd
      | node kind cs =>
        rcases List.mem_cons.mp hd with rfl | hd
        · exact ⟨0, rfl, rfl, rfl⟩
        · exact hlater hd
  obtain ⟨i, hway, hpart⟩ := hfrom n.children 0 n.offset hd
  exact ⟨i, by rwa [Nat.zero_add] at hway, hpart⟩

/-- The parts of a node are one of them, with its siblings on both sides. So whatever is asked of
siblings can be asked of the parts of the parent. -/
theorem childNodes_eq_siblings (hd : d ∈ n.childNodes) :
    n.childNodes = d.earlierSiblings ++ d :: d.laterSiblings := by
  obtain ⟨i, hway, helement, -⟩ := exists_step hd
  obtain ⟨hlt, hget⟩ := List.getElem?_eq_some_iff.mp helement
  have helements : n.elements = n.elements.take i ++ .node d :: n.elements.drop (i + 1) := by
    rw [← hget, ← List.drop_eq_getElem_cons hlt, List.take_append_drop]
  unfold earlierSiblings laterSiblings
  rw [hway, childNodes]
  conv_lhs => rw [helements, List.filterMap_append]
  rfl

/-- The nodes in front of a part of a node are the parts before it. A part is known among the others
by its index. -/
theorem earlierSiblings_eq {before behind : List Node} (h : n.childNodes = before ++ d :: behind) :
    d.earlierSiblings = before := by
  have hall := childNodes_eq_siblings (h ▸ List.mem_append_right _ List.mem_cons_self)
  rw [laterSiblings_eq h, h] at hall
  exact (List.append_cancel_right hall).symm

/-! ## Places of a tree -/

/-- Whether two nodes are parts of one node, the second right behind the first, somewhere below a
root. -/
def Adjacent (root x y : Node) : Prop :=
  ∃ p ∈ root.descendants, ∃ before behind, p.childNodes = before ++ x :: y :: behind

/-- Two nodes that stand next to each other below a root are below the root both. -/
theorem Adjacent.mem_descendants (h : Adjacent root x y) :
    x ∈ root.descendants ∧ y ∈ root.descendants := by
  obtain ⟨p, hp, before, behind, hparts⟩ := h
  exact ⟨mem_descendants_of_mem_childNodes hp (by simp [hparts]),
    mem_descendants_of_mem_childNodes hp (by simp [hparts])⟩

/-- The path to a part of a node is the path to the node and one step more. -/
theorem exists_path_eq (hd : d ∈ n.childNodes) : ∃ i, d.path = i :: n.path ∧
    n.elements[i]? = some (.node d) ∧ n.children[i]? = some d.green := by
  obtain ⟨i, hway, hpart⟩ := exists_step hd
  exact ⟨i, by rw [path, hway]; rfl, hpart⟩

section

variable (hroot : root.way = [])
include hroot

/-- Everything but the root is a part of something. -/
theorem exists_mem_childNodes_of_way (hd : d ∈ root.descendants) (h : d.way ≠ []) :
    ∃ p ∈ root.descendants, d ∈ p.childNodes :=
  exists_mem_childNodes hd fun heq => h (heq ▸ hroot)

/-- From a node the next sibling is the part of the parent that stands right behind the node. -/
theorem nextSibling_eq_some_iff_adjacent (hx : x ∈ root.descendants) :
    x.nextSibling = some y ↔ Adjacent root x y := by
  constructor
  · intro h
    have hway : x.way ≠ [] := fun hway => by
      rw [nextSibling, hway] at h
      cases h
    obtain ⟨p, hp, hpart⟩ := exists_mem_childNodes_of_way hroot hx hway
    rw [nextSibling_eq] at h
    obtain ⟨behind, hlater⟩ := List.head?_eq_some_iff.mp h
    exact ⟨p, hp, x.earlierSiblings, behind, hlater ▸ childNodes_eq_siblings hpart⟩
  · rintro ⟨p, -, before, behind, hparts⟩
    rw [nextSibling_eq, laterSiblings_eq hparts]
    rfl

/-- From a node the previous sibling is the part of the parent that stands right in front of the
node. -/
theorem prevSibling_eq_some_iff_adjacent (hy : y ∈ root.descendants) :
    y.prevSibling = some x ↔ Adjacent root x y := by
  constructor
  · intro h
    have hway : y.way ≠ [] := fun hway => by
      rw [prevSibling, hway] at h
      cases h
    obtain ⟨p, hp, hpart⟩ := exists_mem_childNodes_of_way hroot hy hway
    rw [prevSibling_eq] at h
    obtain ⟨before, hearlier⟩ := List.getLast?_eq_some_iff.mp h
    have hparts := childNodes_eq_siblings hpart
    rw [hearlier, List.append_assoc] at hparts
    exact ⟨p, hp, before, y.laterSiblings, hparts⟩
  · rintro ⟨p, -, before, behind, hparts⟩
    have hparts' : p.childNodes = (before ++ [x]) ++ y :: behind := by
      rw [hparts, List.append_assoc]; rfl
    rw [prevSibling_eq, earlierSiblings_eq hparts', List.getLast?_concat]

/-- One node is the next sibling of another one exactly if this is the previous sibling of it. -/
theorem nextSibling_eq_some_iff (hx : x ∈ root.descendants) (hy : y ∈ root.descendants) :
    x.nextSibling = some y ↔ y.prevSibling = some x :=
  (nextSibling_eq_some_iff_adjacent hroot hx).trans (prevSibling_eq_some_iff_adjacent hroot hy).symm

/-- **A path leads to one node.** At each step of a path only one part is at the index that the step
names. -/
theorem eq_of_path_eq (hx : x ∈ root.descendants) (hy : y ∈ root.descendants)
    (h : x.path = y.path) :
    x = y := by
  have hpath {n : Node} : n.path = [] ↔ n.way = [] := List.map_eq_nil_iff
  refine descendants_induction (motive := fun x => ∀ y ∈ root.descendants, x.path = y.path → x = y)
    (fun y hy h => ?_) (fun p _ ih x hx y hy h => ?_) hx y hy h
  · have hway : y.way = [] := hpath.mp (h ▸ hpath.mpr hroot)
    exact (eq_of_mem_descendants hy (by simp [hway])).symm
  · obtain ⟨i, hstep, helement, -⟩ := exists_path_eq hx
    have hway : y.way ≠ [] := fun hway => by
      rw [← hpath, ← h, hstep] at hway
      cases hway
    obtain ⟨q, hq, hpart⟩ := exists_mem_childNodes_of_way hroot hy hway
    obtain ⟨j, hstep', helement', -⟩ := exists_path_eq hpart
    obtain ⟨rfl, habove⟩ := List.cons.inj (hstep.symm.trans (h.trans hstep'))
    -- the nodes above are one node, and the last steps from it take the same part
    obtain rfl := ih q hq habove
    exact Element.node.inj (Option.some.inj (helement.symm.trans helement'))

/-- The last node above another one is the root. -/
theorem getLast?_ancestors (hd : d ∈ root.descendants) : d.ancestors.getLast? = some root := by
  refine descendants_induction ?_ (fun p _ ih d hd => ?_) hd
  · rw [ancestors, hroot]
    rfl
  · rw [ancestors_eq, (childNodes_spec hd).2]
    change (d :: p.ancestors).getLast? = _
    rw [ancestors, List.getLast?_cons_cons, ← ancestors, ih]

/-- Nodes are equal exactly if one path leads to them from one root. -/
theorem beq_iff {root' : Node} (hroot' : root'.way = []) (hx : x ∈ root.descendants)
    (hy : y ∈ root'.descendants) : x == y ↔ root = root' ∧ x.path = y.path := by
  rw [beq_iff_eq]
  constructor
  · rintro rfl
    have hlast := (getLast?_ancestors hroot hx).symm.trans (getLast?_ancestors hroot' hy)
    exact ⟨Option.some.inj hlast, rfl⟩
  · rintro ⟨rfl, hpath⟩
    exact eq_of_path_eq hroot hx hy hpath

end

/-- The nodes above another one are at the ends of its path. -/
theorem path_ancestors (n : Node) : n.ancestors.map path = n.path.tails := by
  obtain ⟨kind, children, offset, way⟩ := n
  induction way generalizing kind children offset with
  | nil => rfl
  | cons f way ih =>
    exact congrArg ((f :: way).map Frame.index :: ·) (ih f.kind f.children f.offset)

/-- The nodes among the parts of a node are numbered by their places among all parts. -/
theorem place_childNodes (n : Node) : n.childNodes.map (fun d => (d.green, d.path))
    = (n.children.zipIdx.filter fun part => part.1.isNode).map
      fun part => (part.1, part.2 :: n.path) := by
  have hfrom : ∀ (gs : List Green) (index offset : Nat),
      ((n.elementsFrom index offset gs).filterMap Element.node?).map (fun d => (d.green, d.path))
        = ((gs.zipIdx index).filter fun part => part.1.isNode).map
          fun part => (part.1, part.2 :: n.path) := by
    intro gs
    induction gs with
    | nil => exact fun _ _ => rfl
    | cons g gs ih =>
      intro index offset
      cases g with
      | leaf l => exact ih _ _
      | node kind cs => exact congrArg (_ :: ·) (ih _ _)
  exact hfrom n.children 0 n.offset

/-! ## Following links -/

/-- The nodes that are come to by following a link again and again, at most `limit` of them. -/
def follow (link : Node → Option Node) : Nat → Option Node → List Node
  | 0, _ => []
  | _ + 1, none => []
  | limit + 1, some n => n :: follow link limit (link n)

@[simp] theorem follow_none (link : Node → Option Node) (limit : Nat) :
    follow link limit none = [] := by
  cases limit <;> rfl

/-- From the first part on, next siblings are the parts in order. -/
theorem follow_nextSibling (n : Node) (limit : Nat) :
    follow nextSibling limit n.firstChild = n.childNodes.take limit := by
  have hfrom : ∀ (limit : Nat) (before behind : List Node), n.childNodes = before ++ behind →
      follow nextSibling limit behind.head? = behind.take limit := by
    intro limit
    induction limit with
    | zero => exact fun _ _ _ => rfl
    | succ limit ih =>
      intro before behind hparts
      cases behind with
      | nil => rfl
      | cons d behind =>
        have hnext : d.nextSibling = behind.head? := by rw [nextSibling_eq, laterSiblings_eq hparts]
        rw [List.head?_cons, follow, hnext, ih (before ++ [d]) behind (by simpa using hparts)]
        rfl
  exact hfrom limit [] n.childNodes rfl

/-- From a node on, parents are the nodes above it in order. -/
theorem follow_parent (n : Node) (limit : Nat) :
    follow parent limit (some n) = n.ancestors.take limit := by
  induction limit generalizing n with
  | zero => rfl
  | succ limit ih =>
    rw [ancestors_eq, List.take_succ_cons, follow]
    cases n.parent with
    | none => simp
    | some p => exact congrArg (n :: ·) (ih p)

/-! ## Moves -/

/-- A move from one node of a tree to another. -/
inductive Move where
  /-- to the node above -/
  | parent
  /-- to the first node among the parts -/
  | firstChild
  /-- to the next node with the same parent -/
  | nextSibling
  /-- to the node before this one with the same parent -/
  | prevSibling
  /-- to one of the nodes among the parts -/
  | child (i : Nat)
  /-- to the innermost node below that starts at a position -/
  | startingAt (pos : Nat)
  /-- to the node that holds the token below that covers a position -/
  | leafAt (pos : Nat)

/-- Where a move leads from a node. -/
def Move.target (n : Node) : Move → Option Node
  | parent => n.parent
  | firstChild => n.firstChild
  | nextSibling => n.nextSibling
  | prevSibling => n.prevSibling
  | child i => n.childNodes[i]?
  | startingAt pos => n.startingAt pos
  | leafAt pos => (n.leafAt pos).map Leaf.parent

/-- Where moves lead one after the other. -/
def navigate (n : Node) : List Move → Option Node
  | [] => some n
  | move :: moves => (move.target n).bind (navigate · moves)

/-- Moves that are made one after the other can be made in two goes. -/
theorem navigate_append (n : Node) (front back : List Move) :
    n.navigate (front ++ back) = (n.navigate front).bind (navigate · back) := by
  induction front generalizing n with
  | nil => rfl
  | cons move front ih =>
    rw [List.cons_append, navigate, navigate, Option.bind_assoc]
    exact congrArg _ (funext ih)

/-- A move does not leave the tree. -/
theorem mem_descendants_of_target (hroot : root.way = []) (hn : n ∈ root.descendants) {move : Move}
    (h : move.target n = some d) : d ∈ root.descendants := by
  cases move with
  | parent =>
    exact mem_descendants_iff.mpr ((mem_descendants_iff.mp hn).parent hroot h)
  | firstChild => exact mem_descendants_of_mem_childNodes hn (List.mem_of_mem_head? h)
  | nextSibling => exact ((nextSibling_eq_some_iff_adjacent hroot hn).mp h).mem_descendants.2
  | prevSibling => exact ((prevSibling_eq_some_iff_adjacent hroot hn).mp h).mem_descendants.1
  | child i => exact mem_descendants_of_mem_childNodes hn (List.mem_of_getElem? h)
  | startingAt pos =>
    exact mem_descendants_trans hn (List.mem_of_mem_filter (List.mem_of_getLast? h))
  | leafAt pos =>
    obtain ⟨l, hl, rfl⟩ := Option.map_eq_some_iff.mp h
    have hleaf := List.mem_of_mem_filter (List.mem_of_find?_eq_some hl)
    exact mem_descendants_trans hn (mem_descendants_iff.mpr (reaches_parent hleaf).1)

/-- No moves lead out of a tree: wherever they lead from one of its nodes is one of its nodes. By
induction on the moves. -/
theorem mem_descendants_of_navigate (hroot : root.way = []) (hn : n ∈ root.descendants)
    {moves : List Move} (h : n.navigate moves = some d) : d ∈ root.descendants := by
  induction moves generalizing n with
  | nil => exact Option.some.inj h ▸ hn
  | cons move moves ih =>
    obtain ⟨m, hm, hrest⟩ := Option.bind_eq_some_iff.mp h
    exact ih (mem_descendants_of_target hroot hn hm) hrest

/-- From the root moves lead to the nodes of the tree and nowhere else. -/
theorem mem_descendants_iff_navigate (hroot : root.way = []) :
    d ∈ root.descendants ↔ ∃ moves, root.navigate moves = some d := by
  constructor
  · intro hd
    refine descendants_induction ⟨[], rfl⟩ (fun p _ ⟨moves, hmoves⟩ d hd => ?_) hd
    obtain ⟨i, hi⟩ := List.getElem?_of_mem hd
    refine ⟨moves ++ [.child i], ?_⟩
    rw [navigate_append, hmoves, Option.bind_some, navigate, Move.target, hi]
    rfl
  · rintro ⟨moves, h⟩
    exact mem_descendants_of_navigate hroot root.mem_descendants_self h

end Node

/-! ## Where trees are stored -/

/-- Inner nodes as they are stored: at each address the kind and the parts of a node, and for each
of the parts that is an inner node the address where it is stored. Equal nodes may share an address
or not. -/
structure Storage (α : Type) where
  /-- what the node at an address is -/
  kind : α → Kind
  /-- the parts of the node at an address -/
  children : α → List Green
  /-- where a part of the node at an address is stored -/
  part : α → Nat → α
  /-- what is stored for a part is the part -/
  part_spec : ∀ a i k cs, (children a)[i]? = some (.node k cs) →
    kind (part a i) = k ∧ children (part a i) = cs

namespace Storage

variable {α : Type} {m : Storage α} {a b : α} {x y n : Node}

/-- The root of the tree at an address. -/
def root (m : Storage α) (a : α) : Node := ⟨m.kind a, m.children a, 0, []⟩

/-- Where the node is stored to which a path leads from the root at an address. -/
def address (m : Storage α) (a : α) : List Nat → α
  | [] => a
  | i :: path => m.part (m.address a path) i

/-- Whether what is below two nodes, of the trees at two addresses, is stored at one address. -/
def identical [DecidableEq α] (m : Storage α) (a b : α) (x y : Node) : Bool :=
  m.address a x.path == m.address b y.path

/-- Storage in which equal trees share one address. -/
def shared : Storage Green where
  kind := Green.kind
  children := Green.children
  part g i := (g.children[i]?).getD g
  part_spec g i k cs h := by
    rw [h]
    exact ⟨rfl, rfl⟩

/-- At the address of a node the node is stored. -/
theorem stored (hn : n ∈ (m.root a).descendants) :
    m.kind (m.address a n.path) = n.kind ∧ m.children (m.address a n.path) = n.children := by
  refine Node.descendants_induction ⟨rfl, rfl⟩ (fun p _ ⟨_, hchildren⟩ d hd => ?_) hn
  obtain ⟨i, hpath, -, hgreen⟩ := Node.exists_path_eq hd
  rw [hpath, address]
  exact m.part_spec _ i d.kind d.children (hchildren ▸ hgreen)

variable [DecidableEq α]

/-- What is found to be one place has one path, in trees at one address. -/
theorem eq_of_onePlace (h : Node.onePlace (m.identical a b) x.ancestors y.ancestors) :
    a = b ∧ x.path = y.path := by
  obtain ⟨kind, children, offset, way⟩ := x
  obtain ⟨kind', children', offset', way'⟩ := y
  induction way generalizing kind children offset kind' children' offset' way' with
  | nil =>
    obtain ⟨-, -, hsame, habove⟩ := Node.onePlace_cons_iff.mp h
    cases way' with
    | nil => exact ⟨beq_iff_eq.mp hsame, rfl⟩
    | cons f' way' => cases habove
  | cons f way ih =>
    obtain ⟨-, hindex, -, habove⟩ := Node.onePlace_cons_iff.mp h
    cases way' with
    | nil => cases habove
    | cons f' way' =>
      obtain ⟨hroots, hpath⟩ := ih _ _ _ _ _ _ _ habove
      exact ⟨hroots, List.cons_eq_cons.mpr ⟨hindex, hpath⟩⟩

/-- Two nodes are found to be one place exactly if one path leads to them from one root. This holds
for any way in which equal parts share their storage. -/
theorem onePlace_iff (hx : x ∈ (m.root a).descendants) (hy : y ∈ (m.root b).descendants) :
    Node.onePlace (m.identical a b) x.ancestors y.ancestors ↔ a = b ∧ x.path = y.path := by
  refine ⟨eq_of_onePlace, ?_⟩
  rintro ⟨rfl, hpath⟩
  obtain rfl := Node.eq_of_path_eq rfl hx hy hpath
  exact Node.onePlace_refl (fun n => beq_self_eq_true (m.address a n.path)) x.ancestors

end Storage

namespace Node

/-- A leaf that was come to from a node knows this node as its parent. -/
theorem parent_of_mem_childLeaves {n : Node} {l : Leaf} (h : l ∈ n.childLeaves) : l.parent = n := by
  obtain ⟨e, he, hl⟩ := List.mem_filterMap.mp h
  obtain ⟨index, offset, g, rfl⟩ := exists_of_mem_elements he
  cases g with
  | node kind cs => cases hl
  | leaf g => exact Option.some.inj hl ▸ rfl

/-- **Moves in a tree agree with each other.** In every tree,
- at every node, next siblings from the first part on are the nodes among the parts, in order and no
  more, and these are the parts that are inner nodes; the node is the parent of all its parts;
  parents from the node on are the nodes above it, which stand at the ends of its path, and the last
  one is the root;
- one node is the next sibling of another one exactly if this is the previous sibling of it;
- moves from the root lead to the nodes of the tree and to nothing else.

Wherever trees are stored, and whichever moves lead to two nodes from the roots of two of them,
- what is below a node is stored at the address that is compared;
- the nodes are found to be one place exactly if they have one path, from a root at one address; and
  compared by what they are, exactly if they have one path, from equal roots. -/
theorem navigation_consistent (tree : Green) :
    (∀ n ∈ (ofGreen tree).descendants,
      ((∀ limit, follow nextSibling limit n.firstChild = n.childNodes.take limit) ∧
        n.childNodes.map (fun d => (d.green, d.path))
          = (n.children.zipIdx.filter fun part => part.1.isNode).map
            fun part => (part.1, part.2 :: n.path)) ∧
      ((∀ d ∈ n.childNodes, d.parent = some n) ∧ ∀ l ∈ n.childLeaves, l.parent = n) ∧
      (∀ limit, follow parent limit (some n) = n.ancestors.take limit) ∧
      n.ancestors.map path = n.path.tails ∧ n.ancestors.getLast? = some (ofGreen tree)) ∧
    (∀ x ∈ (ofGreen tree).descendants, ∀ y ∈ (ofGreen tree).descendants,
      x.nextSibling = some y ↔ y.prevSibling = some x) ∧
    (∀ n, n ∈ (ofGreen tree).descendants ↔ ∃ moves, (ofGreen tree).navigate moves = some n) ∧
    ∀ (α : Type) [DecidableEq α] (m : Storage α) (a b : α) (moves moves' : List Move) (x y : Node),
      (m.root a).navigate moves = some x → (m.root b).navigate moves' = some y →
      (m.kind (m.address a x.path) = x.kind ∧ m.children (m.address a x.path) = x.children) ∧
      (onePlace (m.identical a b) x.ancestors y.ancestors ↔ a = b ∧ x.path = y.path) ∧
      (x == y ↔ m.root a = m.root b ∧ x.path = y.path) := by
  have hroot := way_ofGreen tree
  refine ⟨fun n hn => ⟨⟨n.follow_nextSibling, n.place_childNodes⟩,
      ⟨fun d hd => (childNodes_spec hd).2, fun l hl => parent_of_mem_childLeaves hl⟩,
      n.follow_parent, n.path_ancestors, getLast?_ancestors hroot hn⟩,
    fun x hx y hy => nextSibling_eq_some_iff hroot hx hy,
    fun n => mem_descendants_iff_navigate hroot, ?_⟩
  intro α _ m a b moves moves' x y hmoves hmoves'
  have hx : x ∈ (m.root a).descendants := (mem_descendants_iff_navigate rfl).mpr ⟨moves, hmoves⟩
  have hy : y ∈ (m.root b).descendants := (mem_descendants_iff_navigate rfl).mpr ⟨moves', hmoves'⟩
  exact ⟨m.stored hx, m.onePlace_iff hx hy, beq_iff rfl rfl hx hy⟩

/-- Two parts that are equal, empty and stored at one address are told apart, and each is found to
be one place with itself when it is come to in another way. -/
theorem navigation_consistent_equal_parts :
    let tree : Green := .node .codeBlock [.node .codeBlockItemList [], .node .codeBlockItemList []]
    let root := Storage.shared.root tree
    ∃ x y z, root.navigate [.firstChild] = some x ∧ root.navigate [.firstChild, .nextSibling] =
      some y ∧
      root.navigate [.child 1, .prevSibling] = some z ∧
      (x.green = y.green ∧ x.range = y.range ∧ Storage.shared.identical tree tree x y) ∧
      ¬onePlace (Storage.shared.identical tree tree) x.ancestors y.ancestors ∧
      onePlace (Storage.shared.identical tree tree) x.ancestors z.ancestors ∧ x == z := by
  intro tree root
  let part (i : Nat) : Node := ⟨.codeBlockItemList, [], 0, [⟨.codeBlock, tree.children, 0, i⟩]⟩
  have hcompare := (navigation_consistent tree).2.2.2 Green Storage.shared tree tree
  obtain ⟨-, hfirst, -⟩ :=
    hcompare [.firstChild] [.firstChild, .nextSibling] (part 0) (part 1) rfl rfl
  obtain ⟨-, hback, heq⟩ :=
    hcompare [.firstChild] [.child 1, .prevSibling] (part 0) (part 0) rfl rfl
  refine ⟨part 0, part 1, part 0, rfl, rfl, rfl, ⟨rfl, rfl, beq_iff_eq.mpr rfl⟩, fun h => ?_,
    hback.mpr ⟨rfl, rfl⟩, heq.mpr ⟨rfl, rfl⟩⟩
  exact absurd (hfirst.mp h).2 (by decide)

end Node

end SwiftTree
