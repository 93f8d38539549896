import SwiftTree.Proofs.Diagnostics

/-!
# Diagnostics are found in source order

A report goes through a tree once, and holds missing items back until a token follows them. Some of
its findings are located in front of trivia, others behind it, and the clauses of a C-style loop
even at the word before them. All the same the positions never decrease, so sorting the diagnostics
changes nothing: they stand in the order in which the tree lists what is wrong with it.
-/

namespace SwiftTree

namespace Node

/-- Unexpected text of a finding is below the root. -/
theorem mem_nodesFrom_of_finding {n d : Node} (hk : n.kind ≠ .unexpected)
    (hn : Green.RegularAll n.children) (hd : .unexpected d ∈ n.findings) :
    d ∈ n.nodesFrom 0 n.offset n.children := by
  have hmem : d ∈ n.findings.filterMap Finding.unexpected? := List.mem_filterMap.mpr ⟨_, hd, rfl⟩
  rw [unexpected_findings hk hn, List.mem_filter, beq_iff_eq] at hmem
  obtain ⟨hd, hkind⟩ := hmem
  rcases List.mem_cons.mp hd with rfl | hd
  · exact absurd hkind hk
  · exact hd

end Node

/-- **Diagnostics are produced in source order.** A report finds them with positions that never
decrease, so sorting them changes nothing. They are the diagnostics of findings, each of which is
about something, and what these are about, one behind the other, is everything that is wrong with
the tree, in the order in which the tree is listed. So it is with C-style loops, where the
diagnostic about the clauses is located at the word `for`, which ends where they start. -/
theorem Parse.diagnostics_sourceOrder (e : Entry) (text : Text) :
    let p := Parse.ofText e text
    let report := p.root.report (Node.diagnosticBy (e.overrides text))
    (report.found.reverse.Pairwise fun a b => a.offset ≤ b.offset) ∧
    p.diagnostics = report.found.reverse ∧
    ∃ findings : List Finding,
      p.diagnostics = findings.map Finding.diagnostic ∧ (∀ f ∈ findings, f.Fits ∧ f.pieces ≠ []) ∧
      findings.flatMap Finding.pieces = (p.root.listing.map Prod.snd).filter Element.isFault ∧
      ∀ n, .unexpected n ∈ findings → n.unexpectedDiagnostic.cause = .removedCStyleFor →
        ∃ loop ∈ p.root.descendants, loop.kind = .forStmt ∧ n.parent = some loop ∧
          ∃ word, loop.firstLeaf = some word ∧ word.isPresent ∧ word.kind = .forKw ∧
            n.unexpectedDiagnostic.range = word.trimmedRange ∧ word.range.stop = n.range.start := by
  intro p report
  have hn : Green.RegularAll p.root.children := e.regular_tree text
  have hfound : report.found.reverse = p.root.findings.map Finding.diagnostic := e.found_eq text
  have hdiagnostics : p.diagnostics = p.root.findings.map Finding.diagnostic :=
    e.diagnostics_eq text
  have hordered := Node.ordered_findings hn
  refine ⟨?_, hdiagnostics.trans hfound.symm, p.root.findings, hdiagnostics, fun f hf => ?_,
    e.pieces_findings text, fun n hmem hcause => ?_⟩
  · rw [hfound, List.pairwise_map]
    exact hordered.2
  · exact ⟨(hordered.1 f hf).1, Finding.pieces_ne_nil (hordered.1 f hf).1⟩
  · have hroot : p.root.kind ≠ .unexpected := by
      rw [show p.root.kind = e.root from e.kind_root text]
      cases e <;> exact nofun
    have hd := Node.mem_nodesFrom_of_finding hroot hn hmem
    obtain ⟨loop, hloop, hbelow⟩ := Node.exists_standsBelow hd
    obtain ⟨hkind, hword⟩ := Node.exists_word_of_isCStyleClauses hbelow
      (Entry.proper_of_mem_descendants hloop) (Node.isCStyleClauses_of_cause hcause)
    exact ⟨loop, hloop, hkind, Node.parent_eq_of_standsBelow hbelow, hword⟩

end SwiftTree
