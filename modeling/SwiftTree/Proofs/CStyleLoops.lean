import SwiftTree.Proofs.Diagnostics

/-!
# C-style loops are reported once

A loop that keeps the clauses of a C-style loop is reported at its word, and its clauses are not
reported as unexpected text. The rules note this while they read (`Entry.overrides`), and the pass
over the tree looks up by position what they have noted.

Each C-style loop of a tree has one note, in the same order (`Entry.forall₂_handsOn`): what the
rules have noted can be read off the tree, where the clauses of a loop are its second part. Each
note is found for the clauses of its own loop and for nothing else (`Entry.diagnosticBy_overrides`).
Which loops these are was decided by the look ahead (`Entry.isCStyleLoop_eq`).
-/

namespace SwiftTree

open Grammar

/-- Ranges that follow each other end with the last of them. -/
theorem Span.Tiles.stop_eq {start stop : Nat} {ss : List Span} {s : Span}
    (h : Span.Tiles start (ss ++ [s]) stop) : s.stop = stop := by
  induction ss generalizing start with
  | nil => exact h.2.2
  | cons _ _ ih => exact ih h.2.2

namespace Node

/-- What a C-style loop hands on: in the place of its clauses, which start with their first token,
it is reported at its word, with the clauses up to the end of their last token. -/
def HandsOn (loop : Node) (o : Override) : Prop :=
  ∃ word clauses first last, loop.firstLeaf = some word ∧ word.isPresent ∧ word.kind = .forKw ∧
    loop.clauses? = some clauses ∧ clauses.leaves.head? = some first ∧ first.isPresent ∧
    clauses.leaves.getLast? = some last ∧ last.isPresent ∧
    o = ⟨first.trimmedRange.start, { Diagnostic.error .removedCStyleFor word.trimmedRange with
      highlight := some ⟨first.trimmedRange.start, last.range.stop⟩ }⟩

variable {n : Node}

/-- A loop is a C-style loop if unexpected text comes behind its first part. -/
theorem isCStyleLoop_eq (hkind : n.kind = .forStmt) {g : Green} {gs : List Green}
    (hchildren : n.children = g :: gs) : n.isCStyleLoop = Green.startUnexpected gs := by
  obtain ⟨kind, children, offset, way⟩ := n
  obtain rfl : children = g :: gs := hchildren
  obtain rfl : kind = .forStmt := hkind
  rcases gs with _ | ⟨⟨k, cs⟩ | l, gs⟩
  · rfl
  · by_cases hk : k = .unexpected
    · subst hk
      rfl
    · have hnone : clauses? ⟨.forStmt, g :: .node k cs :: gs, offset, way⟩ = none :=
        if_neg fun h => hk h.2
      rw [isCStyleLoop, hnone]
      unfold Green.startUnexpected
      split
      · rename_i heq
        cases heq
        exact absurd rfl hk
      · rfl
  · rfl

/-- A node ends with its last leaf. -/
theorem stop_of_getLast? {l : Leaf} (h : n.leaves.getLast? = some l) :
    l.range.stop = n.range.stop := by
  obtain ⟨front, hleaves⟩ := List.getLast?_eq_some_iff.mp h
  have htiles := n.tiles_leaves
  rw [hleaves, List.map_append] at htiles
  exact htiles.stop_eq

end Node

namespace Entry

variable {e : Entry} {text : Text} {n c loop : Node}

/-- A C-style loop hands on the diagnostic of its clauses, under the position where these start. -/
theorem handsOn (hloop : loop ∈ (Node.ofGreen (e.tree text)).descendants)
    (h : loop.clauses? = some c) : loop.HandsOn c.standIn := by
  have hproper := proper_of_mem_descendants hloop
  obtain ⟨hkind, hclauses, hbelow, helement⟩ := Node.of_clauses? hproper h
  have hc := Node.mem_descendants_iff.mpr ((Node.mem_descendants_iff.mp hloop).part helement)
  obtain ⟨-, word, hword, hpresent, hwordKind, -⟩ :=
    Node.exists_word_of_isCStyleClauses hbelow hproper hclauses
  obtain ⟨first, hfirst, -, hhead, hstart⟩ := exists_first hc hkind
  have hne : c.leaves ≠ [] := List.ne_nil_of_mem (List.mem_of_mem_head? hhead)
  obtain ⟨last, hlast⟩ : ∃ last, c.leaves.getLast? = some last :=
    Option.isSome_iff_exists.mp (List.getLast?_isSome.mpr hne)
  have hregular := regular_of_mem_descendants hc
  refine ⟨word, c, first, last, hword, hpresent, hwordKind, h, hhead,
    Node.isPresent_of_mem_leaves hregular hkind (List.mem_of_mem_head? hhead), hlast,
    Node.isPresent_of_mem_leaves hregular hkind (List.mem_of_mem_getLast? hlast), ?_⟩
  rw [Node.standIn, Node.unexpectedDiagnostic_of_isCStyleClauses hbelow hclauses hword, hstart,
    Node.stop_of_getLast? hlast]

/-- A loop tells whether clauses are found behind its word: the tree has unexpected text in second
place just if the look ahead, from the token behind the word on, says so. The word is found among
the tokens of the text by its position. -/
theorem isCStyleLoop_eq (hn : loop ∈ (Node.ofGreen (e.tree text)).descendants)
    (hkind : loop.kind = .forStmt) : ∃ word front x rest, loop.firstLeaf = some word ∧
      Ahead.ofText text = front ++ x :: rest ∧ x.kind = .forKw ∧
      x.start = word.trimmedRange.start ∧ loop.isCStyleLoop = Ahead.isCStyleLoop rest := by
  obtain ⟨t, gs, hchildren, ht⟩ := Node.exists_word (proper_of_mem_descendants hn) hkind
  obtain ⟨front, x, rest, hahead, hx, hstart, hbehind⟩ :=
    exists_site hn hchildren (ht ▸ rfl) (ht ▸ nofun)
  refine ⟨_, front, x, rest, Node.firstLeaf_of_present hchildren, hahead, hx.trans ht, hstart, ?_⟩
  have htells := e.tellsClauses hn hkind rest
  rw [hchildren, List.tail_cons] at htells
  rw [Node.isCStyleLoop_eq hkind hchildren, htells hbehind]

/-- A loop has a block. -/
theorem exists_block (hn : loop ∈ (Node.ofGreen (e.tree text)).descendants)
    (hkind : loop.kind = .forStmt) : ∃ block ∈ loop.childNodes, block.kind = .codeBlock := by
  have hshape : loop.kind.shape.Matches loop.children := (proper_of_mem_descendants hn).1.shape
  rw [hkind] at hshape
  have hblock : (loop.childView : Option (View (· == .codeBlock))).isSome :=
    Node.isSome_childView hshape (by decide)
  obtain ⟨v, hv⟩ := Option.isSome_iff_exists.mp hblock
  obtain ⟨block, hmem, hview⟩ := List.mem_filterMap.mp (List.mem_of_mem_head? hv)
  have hform : (block.view? : Option (View (· == .codeBlock))).isSome =
    (block.kind == .codeBlock) :=
    Node.isSome_view? block
  refine ⟨block, hmem, beq_iff_eq.mp ?_⟩
  rw [← hform, hview]
  rfl

/-- Every unexpected node has its diagnostic. -/
theorem filter_isUnexpected_diagnostics (e : Entry) (text : Text) :
    let root := Node.ofGreen (e.tree text)
    (Parse.ofText e text).diagnostics.filter (fun d => d.cause.isUnexpected)
      = (root.descendants.filter fun n => n.kind == .unexpected).map Node.unexpectedDiagnostic := by
  intro root
  have hroot : root.kind ≠ .unexpected := by
    rw [show root.kind = e.root from e.kind_root text]
    cases e <;> exact nofun
  rw [e.diagnostics_eq, Finding.filter_isUnexpected,
    Node.unexpected_findings hroot (e.regular_tree text)]

/-- The diagnostics of C-style loops are the ones that these hand on. -/
theorem filter_removed_diagnostics (e : Entry) (text : Text) :
    (Parse.ofText e text).diagnostics.filter (fun d => d.cause == .removedCStyleFor)
      = (e.overrides text).map Override.diagnostic := by
  have hremoved (d : Diagnostic) : (d.cause == .removedCStyleFor)
      = ((d.cause == .removedCStyleFor) && d.cause.isUnexpected) := by
    cases d.cause <;> rfl
  have hclauses : ∀ n ∈ (Node.ofGreen (e.tree text)).descendants,
      ((n.unexpectedDiagnostic.cause == .removedCStyleFor) && n.kind == .unexpected)
        = n.isLoopClauses := by
    intro n hn
    by_cases hkind : n.kind = .unexpected
    · obtain ⟨above, -, hbelow⟩ := exists_standsBelow_of_unexpected hn hkind
      rw [Node.isLoopClauses, Bool.and_comm]
      refine congrArg (n.kind == .unexpected && ·) (Bool.eq_iff_iff.mpr ⟨fun h => ?_, fun h => ?_⟩)
      · exact Node.isCStyleClauses_of_cause (beq_iff_eq.mp h)
      · exact beq_iff_eq.mpr (Node.cause_of_isCStyleClauses hbelow h).1
    · rw [Node.isLoopClauses, beq_false_of_ne hkind, Bool.and_false, Bool.false_and]
  rw [funext hremoved, ← List.filter_filter, filter_isUnexpected_diagnostics, List.filter_map,
    List.filter_filter, overrides_eq, List.map_map,
    ← Node.clauses_descendants (proper_of_mem_descendants List.mem_cons_self)
    (e.isLoopClauses_root text)]
  exact congrArg _ (List.filter_congr hclauses)

/-- Every C-style loop of a tree has been noted once, in source order, with the diagnostic that it
hands on. What is noted while reading has no tree to refer to, so this compares positions: of the
word, of the token behind it, and of the end of the clauses. -/
theorem forall₂_handsOn (e : Entry) (text : Text) : List.Forall₂ Node.HandsOn
    ((Node.ofGreen (e.tree text)).descendants.filter Node.isCStyleLoop) (e.overrides text) := by
  have hfrom : ∀ ns : List Node, (∀ n ∈ ns, n ∈ (Node.ofGreen (e.tree text)).descendants) →
      List.Forall₂ Node.HandsOn (ns.filter Node.isCStyleLoop)
        ((ns.filterMap Node.clauses?).map Node.standIn) := by
    intro ns hns
    induction ns with
    | nil => exact .nil
    | cons n ns ih =>
      rw [List.forall_mem_cons] at hns
      cases h : n.clauses? with
      | none =>
        rw [List.filter_cons_of_neg (by simp [Node.isCStyleLoop, h]), List.filterMap_cons_none h]
        exact ih hns.2
      | some c =>
        rw [List.filter_cons_of_pos (by simp [Node.isCStyleLoop, h]), List.filterMap_cons_some h]
        exact .cons (handsOn hns.1 h) (ih hns.2)
  rw [e.overrides_eq]
  exact hfrom _ fun _ hn => hn

end Entry

/-- **C-style loops are reported once.** While a text is read, one diagnostic is noted for each loop
of the tree whose second part is unexpected text, in the same order: at the word of the loop, with
the clauses up to the end of their last token. These are all the diagnostics about C-style loops.
Looked up by the position under which they were noted, and by that alone, they are found for the
clauses and for no other unexpected text: every unexpected node has one diagnostic, the clauses of a
loop that of their loop, and all others one that quotes them. Every loop has a block, and its second
part is unexpected text exactly if the clauses of a C-style loop were found ahead, behind the word
of the loop. -/
theorem Parse.cStyleLoops_reported (e : Entry) (text : Text) :
    let p := Parse.ofText e text
    let overrides := e.overrides text
    let loops := p.root.descendants.filter Node.isCStyleLoop
    let unexpected := p.root.descendants.filter fun n => n.kind == .unexpected
    (List.Forall₂ Node.HandsOn loops overrides ∧
      p.diagnostics.filter (fun d => d.cause == .removedCStyleFor)
        = overrides.map Override.diagnostic ∧
      p.diagnostics.filter (fun d => d.cause.isUnexpected)
        = unexpected.map (Node.diagnosticBy overrides) ∧
      ∀ n ∈ unexpected,
        (∀ loop ∈ loops, loop.clauses? = some n →
          ∃ o ∈ overrides, loop.HandsOn o ∧ n.diagnosticBy overrides = o.diagnostic) ∧
        ((∀ loop ∈ loops, loop.clauses? ≠ some n) → n.diagnosticBy overrides = n.quotation)) ∧
    ∀ loop ∈ p.root.descendants, loop.kind = .forStmt →
      (∃ block ∈ loop.childNodes, block.kind = .codeBlock) ∧
      ∃ word front x rest, loop.firstLeaf = some word ∧ Ahead.ofText text = front ++ x :: rest ∧
        x.kind = .forKw ∧ x.start = word.trimmedRange.start ∧
        loop.isCStyleLoop = Ahead.isCStyleLoop rest := by
  intro p overrides loops unexpected
  have hunexpected {n : Node} (hn : n ∈ unexpected) :
      n ∈ p.root.descendants ∧ n.kind = .unexpected :=
    ⟨(List.mem_filter.mp hn).1, beq_iff_eq.mp (List.mem_filter.mp hn).2⟩
  have hlookup {n : Node} (hn : n ∈ unexpected) :
      n.diagnosticBy overrides = n.unexpectedDiagnostic :=
    Entry.diagnosticBy_overrides (hunexpected hn).1 (hunexpected hn).2
  refine ⟨⟨e.forall₂_handsOn text, e.filter_removed_diagnostics text, ?_,
    fun n hn => ⟨fun loop hloop h => ?_, fun h => ?_⟩⟩,
    fun loop hloop hkind => ⟨Entry.exists_block hloop hkind, Entry.isCStyleLoop_eq hloop hkind⟩⟩
  · refine (e.filter_isUnexpected_diagnostics text).trans (List.map_congr_left fun n hn => ?_)
    exact (hlookup hn).symm
  · have hmem := (List.mem_filter.mp hloop).1
    exact ⟨_, Entry.mem_overrides.mpr ⟨loop, hmem, n, h, rfl⟩, Entry.handsOn hmem h, hlookup hn⟩
  · obtain ⟨hmem, hkind⟩ := hunexpected hn
    -- were the text taken for clauses, its loop would be among those with an override
    obtain ⟨above, -, hbelow⟩ := Entry.exists_standsBelow_of_unexpected hmem hkind
    rw [hlookup hn]
    refine Node.unexpectedDiagnostic_eq_quotation hbelow fun hclauses => ?_
    obtain ⟨loop, hloop, hclauses?⟩ := Entry.exists_loop hmem hkind hclauses
    refine h loop (List.mem_filter.mpr ⟨hloop, ?_⟩) hclauses?
    rw [Node.isCStyleLoop, hclauses?]
    rfl

end SwiftTree
