import SwiftTree.Proofs.Overrides
import SwiftTree.Proofs.TokenSites

/-!
# The diagnostics of a text

The diagnostics of a text are found in one pass over its tree, which asks for every unexpected node
whether something was noted for the position where it starts. Nothing but a position says which
unexpected text is meant; nodes are not there yet when it is noted. Whether that is enough is a
matter of the whole tree, for all unexpected nodes are looked up. It is, since no two of them start
at one position (`Entry.diagnosticBy_overrides`).

So the diagnostics of a text are those of the findings of its tree (`Entry.diagnostics_eq`), and
findings are what the other results about diagnostics speak of. The first of these is that the
findings account for everything that is wrong with the tree.
-/

namespace SwiftTree

namespace Entry

variable {e : Entry} {text : Text} {n : Node}

/-- The root of a tree is no clauses of a loop. -/
theorem isLoopClauses_root (e : Entry) (text : Text) :
    (Node.ofGreen (e.tree text)).isLoopClauses = false := by
  rw [Node.isLoopClauses, e.kind_root]
  cases e <;> rfl

/-- Unexpected text stands below a node. -/
theorem exists_standsBelow_of_unexpected (hn : n ∈ (Node.ofGreen (e.tree text)).descendants)
    (hkind : n.kind = .unexpected) :
    ∃ above ∈ (Node.ofGreen (e.tree text)).descendants, above.StandsBelow n := by
  rcases List.mem_cons.mp hn with rfl | hn
  · rw [e.kind_root] at hkind
    cases e <;> cases hkind
  · exact Node.exists_standsBelow hn

/-- Unexpected text that is reported as clauses is clauses. -/
theorem exists_loop (hn : n ∈ (Node.ofGreen (e.tree text)).descendants)
    (hkind : n.kind = .unexpected)
    (hclauses : n.isCStyleClauses) :
    ∃ loop ∈ (Node.ofGreen (e.tree text)).descendants, loop.clauses? = some n := by
  have hmem : n ∈ (Node.ofGreen (e.tree text)).descendants.filter Node.isLoopClauses := by
    refine List.mem_filter.mpr ⟨hn, ?_⟩
    rw [Node.isLoopClauses, hkind, hclauses]
    rfl
  rw [Node.clauses_descendants (proper_of_mem_descendants List.mem_cons_self)
    (e.isLoopClauses_root text)] at hmem
  exact List.mem_filterMap.mp hmem

/-- What is noted stands in for the clauses of a loop of the tree. -/
theorem mem_overrides {o : Override} : o ∈ e.overrides text ↔
    ∃ loop ∈ (Node.ofGreen (e.tree text)).descendants, ∃ c,
    loop.clauses? = some c ∧ o = c.standIn := by
  rw [overrides_eq]
  constructor
  · intro ho
    obtain ⟨c, hc, rfl⟩ := List.mem_map.mp ho
    obtain ⟨loop, hloop, h⟩ := List.mem_filterMap.mp hc
    exact ⟨loop, hloop, c, h, rfl⟩
  · rintro ⟨loop, hloop, c, h, rfl⟩
    exact List.mem_map.mpr ⟨c, List.mem_filterMap.mpr ⟨loop, hloop, h⟩, rfl⟩

/-- **Looking up by position is enough.** The diagnostics that stand in for others are found where
they belong, although nothing but a position says where that is: no two unexpected nodes start at
one position. -/
theorem diagnosticBy_overrides (hn : n ∈ (Node.ofGreen (e.tree text)).descendants)
    (hkind : n.kind = .unexpected) :
    n.diagnosticBy (e.overrides text) = n.unexpectedDiagnostic := by
  -- only the clauses themselves start where clauses start
  have hown : ∀ o ∈ e.overrides text, o.start = n.trimmedRange.start →
      n.isCStyleClauses ∧ o.diagnostic = n.unexpectedDiagnostic := by
    intro o ho hstart
    obtain ⟨loop, hloop, c, h, rfl⟩ := mem_overrides.mp ho
    obtain ⟨hckind, hclauses, -, helement⟩ := Node.of_clauses? (proper_of_mem_descendants hloop) h
    have hc := Node.mem_descendants_iff.mpr ((Node.mem_descendants_iff.mp hloop).part helement)
    obtain rfl := eq_of_start_eq hc hn hckind hkind hstart
    exact ⟨hclauses, rfl⟩
  unfold Node.diagnosticBy
  split
  · rename_i o hfind
    have hstart := List.find?_some hfind
    exact (hown o (List.mem_of_find?_eq_some hfind) (beq_iff_eq.mp hstart)).2
  · rename_i hfind
    obtain ⟨above, -, hbelow⟩ := exists_standsBelow_of_unexpected hn hkind
    refine (Node.unexpectedDiagnostic_eq_quotation hbelow fun hclauses => ?_).symm
    obtain ⟨loop, hloop, h⟩ := exists_loop hn hkind hclauses
    exact List.find?_eq_none.mp hfind _ (mem_overrides.mpr ⟨loop, hloop, n, h, rfl⟩)
      (beq_self_eq_true _)

/-! ## Findings are reported -/

/-- In the pass over the tree of a text, the place of unexpected text decides what is said of it. -/
theorem report_eq (e : Entry) (text : Text) :
    (Node.ofGreen (e.tree text)).report (Node.diagnosticBy (e.overrides text))
      = (Node.ofGreen (e.tree text)).report Node.unexpectedDiagnostic :=
  Node.report_congr fun _ hn hkind => diagnosticBy_overrides hn hkind

/-- The pass over the tree of a text finds the diagnostics of the findings, one behind the other. -/
theorem found_eq (e : Entry) (text : Text) :
    ((Node.ofGreen (e.tree text)).report (Node.diagnosticBy (e.overrides text))).found.reverse
      = (Node.ofGreen (e.tree text)).findings.map Finding.diagnostic := by
  rw [e.report_eq, Node.found_eq]

/-- The diagnostics of a text are those of the findings of its tree. Sorting them changes nothing,
since they are found in source order, and looking up what was noted chooses what the tree itself
would tell. -/
theorem diagnostics_eq (e : Entry) (text : Text) : (Parse.ofText e text).diagnostics
    = (Node.ofGreen (e.tree text)).findings.map Finding.diagnostic := by
  show Diagnostic.sort ((Node.ofGreen (e.tree text)).report
    (Node.diagnosticBy (e.overrides text))).found.reverse = _
  rw [e.found_eq, Node.sort_findings (e.regular_tree text)]

end Entry

/-- **No error is lost and none is invented.** A parse has no diagnostics exactly when its tree has
no missing token, no placeholder and no unexpected node. The diagnostics about unexpected text are
those of the unexpected nodes, in source order. And the diagnostics are those of findings that are
what they say and that together account for every missing token and every placeholder, for each of
them once. -/
theorem Parse.diagnostics_account (e : Entry) (text : Text) :
    let p := Parse.ofText e text
    (p.diagnostics = [] ↔ (∀ l ∈ p.root.leaves, l.isPresent) ∧
      ∀ n ∈ p.root.descendants, n.kind.isMissingNode = false ∧ n.kind ≠ .unexpected) ∧
    p.diagnostics.filter (fun d => d.cause.isUnexpected)
      = (p.root.descendants.filter fun n => n.kind == .unexpected).map Node.unexpectedDiagnostic ∧
    ∃ findings : List Finding,
      p.diagnostics = findings.map Finding.diagnostic ∧ (∀ f ∈ findings, f.Fits) ∧
        (findings.flatMap Finding.covers).Nodup ∧
        (findings.flatMap Finding.covers).filterMap Element.leaf?
          = p.root.leaves.filter (fun l => !l.isPresent) ∧
        (findings.flatMap Finding.covers).filterMap Element.node?
          = p.root.descendants.filter fun n => n.kind.isMissingNode := by
  intro p
  have hn : Green.RegularAll p.root.children := e.regular_tree text
  have hroot : p.root.kind = e.root := by
    show (Node.ofGreen (e.tree text)).kind = _
    rw [e.tree_eq]
    rfl
  have hkind : p.root.kind.isMissingNode = false := by
    rw [hroot]
    cases e <;> rfl
  have hkind' : p.root.kind ≠ .unexpected := by
    rw [hroot]
    cases e <;> exact nofun
  have hdiagnostics : p.diagnostics = p.root.findings.map Finding.diagnostic :=
    e.diagnostics_eq text
  have hcovers := Node.covers_findings hkind hn
  have hunexpected := Node.unexpected_findings hkind' hn
  have hleaves := p.root.leaves_missing
  have hnodes := p.root.nodes_missing
  refine ⟨?_, ?_, p.root.findings, hdiagnostics, fun f hf => ((Node.ordered_findings hn).1 f hf).1,
    ?_, ?_, ?_⟩
  · rw [hdiagnostics, List.map_eq_nil_iff, Node.findings_eq_nil_iff hn, hcovers, hunexpected,
      Node.missing_eq_nil_iff, List.filter_eq_nil_iff]
    constructor
    · rintro ⟨⟨hpresent, hmissing⟩, hnone⟩
      exact ⟨hpresent, fun n hn => ⟨hmissing n hn, mt beq_iff_eq.mpr (hnone n hn)⟩⟩
    · rintro ⟨hpresent, hnodes⟩
      exact ⟨⟨hpresent, fun n hn => (hnodes n hn).1⟩, fun n hn => mt beq_iff_eq.mp (hnodes n hn).2⟩
  · rw [hdiagnostics, Finding.filter_isUnexpected, hunexpected]
  · rw [hcovers]
    exact p.root.nodup_missing
  · rw [hcovers, hleaves]
  · rw [hcovers, hnodes]

end SwiftTree
