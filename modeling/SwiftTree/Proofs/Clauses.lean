import SwiftTree.Proofs.Accounting
import SwiftTree.Proofs.Conformance.Trees

/-!
# The clauses of C-style loops in a tree

In a tree, the clauses of a C-style loop are unexpected text that is the second part of the loop,
right behind its word (`Node.clauses?`). What the place of unexpected text says of it
(`Node.unexpectedDiagnostic`) depends on just that. So the unexpected nodes that are reported as
clauses are those of the loops of the tree, in the same order (`Node.clauses_descendants`).

For this the module also says how a node stands below the one above it (`Node.StandsBelow`).
-/

namespace SwiftTree

namespace Node

/-! ## Where a node stands in the node above it -/

/-- What is true of the way to a node below another one: its last step is taken from a node, to the
part that the node is. -/
def StandsBelow (above d : Node) : Prop :=
  ∃ index gs, d.way = above.step index ∧ above.Holds index d.offset (d.green :: gs)

mutual

/-- A node below another one stands below that one, or below a node further down. -/
theorem exists_standsBelow_of_mem_nodesIn {n d : Node} {index offset : Nat} {hs : List Green} :
    {g : Green} → n.Holds index offset (g :: hs) → d ∈ n.nodesIn index offset g →
      ∃ above, (above = n ∨ above ∈ n.nodesIn index offset g) ∧ above.StandsBelow d
  | .node kind cs, h, hd => by
    rw [nodesIn, List.mem_cons] at hd
    rcases hd with rfl | hd
    · exact ⟨n, .inl rfl, index, hs, rfl, h⟩
    · obtain ⟨above, habove, hbelow⟩ := exists_standsBelow_of_mem_nodesFrom (holds_children _) hd
      refine ⟨above, .inr ?_, hbelow⟩
      rw [nodesIn, List.mem_cons]
      exact habove
  | .leaf _, _, hd => absurd hd List.not_mem_nil

/-- A node below another one stands below some node on the way, by one step. -/
theorem exists_standsBelow_of_mem_nodesFrom {n d : Node} {index offset : Nat} :
    {gs : List Green} → n.Holds index offset gs → d ∈ n.nodesFrom index offset gs →
      ∃ above, (above = n ∨ above ∈ n.nodesFrom index offset gs) ∧ above.StandsBelow d
  | [], _, hd => absurd hd List.not_mem_nil
  | g :: gs, h, hd => by
    rcases List.mem_append.mp hd with hd | hd
    · obtain ⟨above, habove, hbelow⟩ := exists_standsBelow_of_mem_nodesIn h hd
      exact ⟨above, habove.imp_right (List.mem_append_left _), hbelow⟩
    · obtain ⟨above, habove, hbelow⟩ := exists_standsBelow_of_mem_nodesFrom h.tail hd
      exact ⟨above, habove.imp_right (List.mem_append_right _), hbelow⟩

end

/-- Every node of a tree but the root stands below a node of the tree. -/
theorem exists_standsBelow {n d : Node} (hd : d ∈ n.nodesFrom 0 n.offset n.children) :
    ∃ above ∈ n.descendants, above.StandsBelow d := by
  obtain ⟨above, habove, hbelow⟩ := exists_standsBelow_of_mem_nodesFrom n.holds_children hd
  exact ⟨above, List.mem_cons.mpr habove, hbelow⟩

/-- The node that a node stands below is its parent. -/
theorem parent_eq_of_standsBelow {above d : Node} (h : above.StandsBelow d) :
    d.parent = some above := by
  obtain ⟨index, gs, hway, -⟩ := h
  rw [parent, hway]
  rfl

/-! ## The clauses of a C-style loop -/

/-- Only the clauses of a C-style loop are reported as such. -/
theorem isCStyleClauses_of_cause {n : Node}
    (h : n.unexpectedDiagnostic.cause = .removedCStyleFor) : n.isCStyleClauses := by
  unfold unexpectedDiagnostic at h
  dsimp only at h
  split at h
  · cases h
  · split at h
    · assumption
    · unfold unexpectedCause at h
      simp only [Diagnostic.error] at h
      split_ifs at h

/-- The node above the clauses of a C-style loop is the loop, and they are its second part. -/
theorem loop_of_isCStyleClauses {above n : Node} (h : above.StandsBelow n)
    (hn : n.isCStyleClauses) :
    above.kind = .forStmt ∧ ∃ t gs hs, above.children = .leaf (.present t) :: gs ∧
      above.Holds 1 n.offset hs := by
  obtain ⟨index, hs, hway, hholds⟩ := h
  unfold isCStyleClauses at hn
  split at hn
  · rename_i t gs offset way hframe
    rw [hway] at hframe
    obtain ⟨hframe, -⟩ := List.cons.inj hframe
    rw [Frame.mk.injEq] at hframe
    obtain ⟨hkind, hchildren, -, rfl⟩ := hframe
    exact ⟨hkind, t, gs, _, hchildren, hholds⟩
  · cases hn

/-- The diagnostic of the clauses of a C-style loop is located at the word in front of them. -/
theorem range_unexpectedDiagnostic {above n : Node} (h : above.StandsBelow n)
    (hn : n.isCStyleClauses) : n.unexpectedDiagnostic.range
      = (above.firstLeaf.map Leaf.trimmedRange).getD n.trimmedRange := by
  rw [unexpectedDiagnostic, parent_eq_of_standsBelow h]
  dsimp only
  rw [if_pos hn]
  rfl

/-- A loop starts with its word. -/
theorem exists_word {n : Node} (hn : n.green.Proper) (hkind : n.kind = .forStmt) :
    ∃ t gs, n.children = .leaf (.present t) :: gs ∧ t.kind = .forKw := by
  have hshape : n.kind.shape.Matches n.children := hn.1.shape
  rw [hkind] at hshape
  generalize hcs : n.children = cs at hshape
  cases hshape with
  | seq hword _ =>
    obtain ⟨t, rfl, ht⟩ := hword.exists_token
    exact ⟨t, _, rfl, beq_iff_eq.mp ht⟩

/-- The diagnostic of the clauses of a C-style loop is located at the word of the loop, which ends
where they start. -/
theorem exists_word_of_isCStyleClauses {above n : Node} (h : above.StandsBelow n)
    (habove : above.green.Proper) (hn : n.isCStyleClauses) :
    above.kind = .forStmt ∧ ∃ word, above.firstLeaf = some word ∧ word.isPresent ∧
      word.kind = .forKw ∧ n.unexpectedDiagnostic.range = word.trimmedRange ∧
        word.range.stop = n.range.start := by
  obtain ⟨hkind, t, gs, hs, hchildren, hholds⟩ := loop_of_isCStyleClauses h hn
  have hfirst := firstLeaf_of_present hchildren
  obtain ⟨word, _, hword, hwordKind⟩ := exists_word habove hkind
  obtain rfl : t = word := by simpa using (List.cons.inj (hchildren.symm.trans hword)).1
  refine ⟨hkind, _, hfirst, rfl, hwordKind, ?_, hholds.second hchildren⟩
  rw [range_unexpectedDiagnostic h hn, hfirst]
  rfl

variable {above n c : Node}

/-- Unexpected text is reported at its tokens, and quoted, unless it holds the clauses of a C-style
loop. -/
theorem unexpectedDiagnostic_eq (h : above.StandsBelow n) (hn : ¬n.isCStyleClauses) :
    n.unexpectedDiagnostic
      = .error (n.unexpectedCause above (String.ofList n.textTrimmed)) n.trimmedRange := by
  rw [unexpectedDiagnostic, parent_eq_of_standsBelow h]
  dsimp only
  rw [if_neg hn]

/-- Clauses of a C-style loop are reported as such, and all of their text is highlighted, with the
trivia inside and behind but not before it. -/
theorem cause_of_isCStyleClauses (h : above.StandsBelow n) (hn : n.isCStyleClauses) :
    n.unexpectedDiagnostic.cause = .removedCStyleFor ∧
      n.unexpectedDiagnostic.highlight = some ⟨n.trimmedRange.start, n.range.stop⟩ := by
  rw [unexpectedDiagnostic, parent_eq_of_standsBelow h]
  dsimp only
  rw [if_pos hn]
  exact ⟨rfl, rfl⟩

/-! ## Loops and their clauses -/

/-- The clauses of a C-style loop: unexpected text that is the second part of a loop. -/
def clauses? (n : Node) : Option Node :=
  match n.elements with
  | _ :: .node c :: _ => if n.kind = .forStmt ∧ c.kind = .unexpected then some c else none
  | _ => none

/-- Whether the node is a C-style loop: it has clauses. -/
def isCStyleLoop (n : Node) : Bool := n.clauses?.isSome

/-- Clauses are unexpected text behind the first part of a loop. -/
theorem clauses?_eq_some (h : n.clauses? = some c) :
    n.kind = .forStmt ∧ ∃ g cs gs, n.children = g :: .node .unexpected cs :: gs ∧
      c = ⟨.unexpected, cs, n.offset + g.byteLen, n.step 1⟩ := by
  obtain ⟨kind, children, offset, way⟩ := n
  rcases children with _ | ⟨g, _ | ⟨⟨k, cs⟩ | l, gs⟩⟩
  · cases h
  · cases h
  · dsimp only [clauses?, elements, elementsFrom, element] at h
    split at h
    · rename_i hkind
      obtain ⟨rfl, rfl⟩ := hkind
      exact ⟨rfl, g, cs, gs, rfl, (Option.some.inj h).symm⟩
    · cases h
  · cases h

/-- The clauses of a loop stand behind its word, and so they are reported as such. -/
theorem of_clauses? (hn : n.green.Proper) (h : n.clauses? = some c) :
    c.kind = .unexpected ∧ c.isCStyleClauses ∧ n.StandsBelow c ∧ .node c ∈ n.elements := by
  obtain ⟨hkind, g, cs, gs, hchildren, rfl⟩ := clauses?_eq_some h
  obtain ⟨t, hs, hword, -⟩ := exists_word hn hkind
  obtain ⟨kind, children, offset, way⟩ := n
  obtain rfl : children = g :: .node .unexpected cs :: gs := hchildren
  obtain rfl : kind = .forStmt := hkind
  obtain ⟨rfl, -⟩ := List.cons.inj hword
  have hholds := (holds_children ⟨.forStmt,
    .leaf (.present t) :: .node .unexpected cs :: gs, offset, way⟩).tail
  exact ⟨rfl, rfl, ⟨1, gs, rfl, hholds⟩, List.mem_cons_of_mem _ List.mem_cons_self⟩

/-- Whether the node is unexpected text that is reported as the clauses of a loop. -/
def isLoopClauses (n : Node) : Bool := n.kind == .unexpected && n.isCStyleClauses

/-- Only second parts are clauses. -/
theorem not_isLoopClauses {kind : Kind} {cs : List Green} {index offset : Nat} (h : index ≠ 1) :
    isLoopClauses ⟨kind, cs, offset, n.step index⟩ = false := by
  refine Bool.eq_false_iff.mpr fun hclauses => h ?_
  exact (exists_of_isCStyleClauses (Bool.and_elim_right hclauses)).1

/-- The first of some parts of a node, if it is clauses. -/
def clausesAt (n : Node) (index offset : Nat) (gs : List Green) : List Node :=
  ((n.elementsFrom index offset gs).head?.bind Element.node?).toList.filter isLoopClauses

/-- Only the second part of a node can be clauses. -/
theorem clausesAt_of_ne {index offset : Nat} {gs : List Green} (h : index ≠ 1) :
    n.clausesAt index offset gs = [] := by
  cases gs with
  | nil => rfl
  | cons g gs =>
    cases g with
    | node kind cs =>
      refine List.filter_eq_nil_iff.mpr fun c hc => ?_
      rw [List.mem_singleton.mp hc, not_isLoopClauses h]
      exact Bool.false_ne_true
    | leaf l => rfl

/-- The clauses of a node are its second part, in front of which there are no nodes. -/
theorem clausesAt_second {g : Green} {gs : List Green} (hn : n.green.Proper)
    (hchildren : n.children = g :: gs) :
    n.clausesAt 1 (n.offset + g.byteLen) gs = n.clauses?.toList ∧
      (n.clauses?.isSome → ∀ offset, n.nodesIn 0 offset g = []) := by
  obtain ⟨kind, children, offset, way⟩ := n
  obtain rfl : children = g :: gs := hchildren
  rcases gs with _ | ⟨⟨k, cs⟩ | l, gs⟩
  · exact ⟨rfl, nofun⟩
  · have hnode : clauses? ⟨kind, g :: .node k cs :: gs, offset, way⟩
        = if kind = .forStmt ∧ k = .unexpected then some _ else none := rfl
    rw [hnode]
    split
    · rename_i hkind
      obtain ⟨rfl, rfl⟩ := hkind
      obtain ⟨t, hs, hword, -⟩ := exists_word hn rfl
      obtain ⟨rfl, -⟩ := List.cons.inj hword
      exact ⟨rfl, fun _ _ => rfl⟩
    · rename_i hkind
      refine ⟨List.filter_eq_nil_iff.mpr fun c hc hclauses => hkind ?_, nofun⟩
      obtain rfl := List.mem_singleton.mp hc
      have hbelow := (holds_children ⟨kind, g :: .node k cs :: gs, offset, way⟩).tail
      rw [isLoopClauses, Bool.and_eq_true, beq_iff_eq] at hclauses
      exact ⟨(loop_of_isCStyleClauses ⟨1, gs, rfl, hbelow⟩ hclauses.2).1, hclauses.1⟩
  · exact ⟨rfl, nofun⟩

/-- The clauses below a node are its own, and those below its parts. -/
theorem clauses_join {g : Green} {gs : List Green} (hn : n.green.Proper)
    (hchildren : n.children = g :: gs)
    (hfirst : (n.nodesIn 0 n.offset g).filter isLoopClauses
      = n.clausesAt 0 n.offset [g] ++ (n.nodesIn 0 n.offset g).filterMap clauses?)
    (hrest : (n.nodesFrom 1 (n.offset + g.byteLen) gs).filter isLoopClauses
      = n.clausesAt 1 (n.offset + g.byteLen) gs
        ++ (n.nodesFrom 1 (n.offset + g.byteLen) gs).filterMap clauses?) :
    n.descendants.filter isLoopClauses
      = [n].filter isLoopClauses ++ n.descendants.filterMap clauses? := by
  obtain ⟨hsecond, hleaf⟩ := clausesAt_second hn hchildren
  have hall : n.descendants
      = [n] ++ (n.nodesIn 0 n.offset g ++ n.nodesFrom 1 (n.offset + g.byteLen) gs) := by
    rw [descendants, hchildren]
    rfl
  rw [clausesAt_of_ne Nat.zero_ne_one, List.nil_append] at hfirst
  rw [hall, List.filter_append, List.filter_append, hfirst, hrest, hsecond, List.filterMap_append,
    List.filterMap_append]
  refine congrArg ([n].filter isLoopClauses ++ ·) ?_
  cases hclauses : n.clauses? with
  | none => simp [hclauses]
  | some c => simp [hclauses, hleaf (by rw [hclauses]; rfl) n.offset]

mutual

/-- The clauses among the nodes of a part are those of its loops, and perhaps the part itself. -/
theorem clauses_nodesIn {n : Node} {index offset : Nat} : {g : Green} → g.Proper →
    (n.nodesIn index offset g).filter isLoopClauses
      = n.clausesAt index offset [g] ++ (n.nodesIn index offset g).filterMap clauses?
  | .leaf _, _ => rfl
  | .node _ [], _ => (List.append_nil _).symm
  | .node kind (g :: gs), h =>
    clauses_join (n := ⟨kind, g :: gs, offset, n.step index⟩) h rfl (clauses_nodesIn h.2.1)
      (clauses_nodesFrom Nat.one_ne_zero h.2.2)

/-- Among the nodes of some parts, clauses are those of the node itself, if the second part is
there, and those of the loops below. -/
theorem clauses_nodesFrom {n : Node} {index offset : Nat} (hindex : index ≠ 0) : {gs : List Green} →
    Green.ProperAll gs →
    (n.nodesFrom index offset gs).filter isLoopClauses
      = n.clausesAt index offset gs ++ (n.nodesFrom index offset gs).filterMap clauses?
  | [], _ => rfl
  | g :: gs, h => by
    have hrest : (n.nodesFrom (index + 1) (offset + g.byteLen) gs).filter isLoopClauses
        = n.clausesAt (index + 1) (offset + g.byteLen) gs
          ++ (n.nodesFrom (index + 1) (offset + g.byteLen) gs).filterMap clauses? :=
      clauses_nodesFrom (Nat.succ_ne_zero index) h.2
    rw [clausesAt_of_ne (mt Nat.succ.inj hindex), List.nil_append] at hrest
    rw [nodesFrom, List.filter_append, List.filterMap_append, clauses_nodesIn h.1, hrest,
      List.append_assoc]
    rfl

end

/-- **Clauses are those of the loops.** The unexpected nodes of a tree that are reported as clauses
are the clauses of its loops, one by one and in source order. Both lists are put together along the
tree, and a loop is where the two meet. -/
theorem clauses_descendants (hn : n.green.Proper) (hroot : n.isLoopClauses = false) :
    n.descendants.filter isLoopClauses = n.descendants.filterMap clauses? := by
  obtain ⟨kind, children, offset, way⟩ := n
  cases children with
  | nil => exact List.filter_cons_of_neg (Bool.eq_false_iff.mp hroot)
  | cons g gs =>
    have hall := clauses_join hn rfl (clauses_nodesIn hn.2.1)
      (clauses_nodesFrom Nat.one_ne_zero hn.2.2)
    rwa [List.filter_cons_of_neg (Bool.eq_false_iff.mp hroot)] at hall

/-! ## What is reported of a loop -/

/-- Leaves of unexpected text were read. -/
theorem isPresent_of_mem_leaves (hn : n.green.Regular) (hkind : n.kind = .unexpected) {l : Leaf}
    (hl : l ∈ n.leaves) : l.isPresent := by
  have hgreen : l.green ∈ Green.leavesOf n.children := by
    have hmem := List.mem_map_of_mem (f := Leaf.green) hl
    rwa [n.green_leaves] at hmem
  have hfrom : ∀ gs : List Green, (∀ g ∈ gs, g.IsPresent) → ∀ l ∈ Green.leavesOf gs,
    l.isPresent := by
    intro gs hgs
    induction gs with
    | nil => exact nofun
    | cons g gs ih =>
      rw [List.forall_mem_cons] at hgs
      obtain ⟨⟨t, rfl⟩, hrest⟩ := hgs
      intro l hl
      rcases List.mem_cons.mp hl with rfl | hl
      · rfl
      · exact ih hrest l hl
  exact hfrom n.children (hn.2.1 hkind).2 l.green hgreen

/-- The clauses of a C-style loop are reported at the word in front of them. -/
theorem unexpectedDiagnostic_of_isCStyleClauses {above : Node} (h : above.StandsBelow n)
    (hn : n.isCStyleClauses) {word : Leaf} (hword : above.firstLeaf = some word) :
    n.unexpectedDiagnostic = { Diagnostic.error .removedCStyleFor word.trimmedRange with
      highlight := some ⟨n.trimmedRange.start, n.range.stop⟩ } := by
  rw [unexpectedDiagnostic, parent_eq_of_standsBelow h]
  dsimp only
  rw [if_pos hn, hword]
  rfl

/-- Other unexpected text is quoted. -/
theorem unexpectedDiagnostic_eq_quotation {above : Node} (h : above.StandsBelow n)
    (hn : ¬n.isCStyleClauses) : n.unexpectedDiagnostic = n.quotation := by
  rw [unexpectedDiagnostic_eq h hn, quotation, parent_eq_of_standsBelow h]

end Node

end SwiftTree
