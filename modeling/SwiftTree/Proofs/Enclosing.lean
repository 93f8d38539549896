import SwiftTree.Proofs.Evaluation
import SwiftTree.Proofs.Locations

/-!
# The construct that something is missing in

A report looks for the name of a construct from the missing part on upwards, the part itself
included (`Element.context`). That names the construct around the part (`Element.enclosing?`) as
long as the part has no name of its own: missing tokens, placeholders and missing blocks have none
(`Element.context_eq_enclosing?`). A parameter clause that is missing as a whole has one, so it is
said to be missing in itself (`Parse.parameterClause_inItself`).
-/

namespace SwiftTree

namespace Node

/-- Above a node are its parent and what is above that. -/
theorem ancestors_eq (n : Node) : n.ancestors = n :: (n.parent.map ancestors).getD [] := by
  unfold ancestors parent
  cases n.way <;> rfl

/-- What stands for something that was not found has no name, unless it is a parameter clause. -/
theorem constructName?_of_missingItem {n : Node} (h : n.missingItem?.isSome)
    (hk : n.kind ≠ .parameterClause) : n.constructName? = none := by
  unfold missingItem? at h
  unfold constructName?
  split at h
  case h_5 hclause => exact absurd hclause hk
  case h_6 => cases h
  all_goals
    rename_i hkind
    rw [hkind]
    rfl

end Node

namespace Element

/-- The nodes around a part: its parent and what is above that. -/
def around (part : Element) : List Node := (part.parent.map Node.ancestors).getD []

/-- The name of the nearest construct that a part is inside of. -/
def enclosing? (part : Element) : Option String := part.around.findSome? Node.constructName?

/-- Something that is missing is reported in the construct around it, unless it is a parameter
clause. The search for a name starts at the part itself; it only matters if this part has a name. -/
theorem context_eq_enclosing? {part : Element} (h : part.IsLacking)
    (hk : part.kind ≠ .parameterClause) : part.context = part.enclosing? := by
  cases part with
  | leaf l => rfl
  | node n =>
    rw [context, Node.context, n.ancestors_eq, List.findSome?_cons,
      Node.constructName?_of_missingItem h hk]
    rfl

end Element

/-- **What is missing is missing in what is around it.** The diagnostics are those of findings,
which are about everything that is wrong with the tree. Those that say what was expected are about
parts that are missing, and the construct that one names is the nearest construct with a name around
each of its parts that is no parameter clause: the search for it starts above the part. -/
theorem Parse.expected_enclosing (e : Entry) (text : Text) :
    let p := Parse.ofText e text
    ∃ findings : List Finding, p.diagnostics = findings.map Finding.diagnostic ∧
      findings.flatMap Finding.pieces = p.root.places.filter Element.isFault ∧
      ∀ f ∈ findings, ∀ items context, f.diagnostic.cause = .expected items context →
        f.parts ≠ [] ∧ ∀ part ∈ f.parts, part ∈ p.root.places ∧ part.IsLacking ∧
          (part.kind ≠ .parameterClause → context = part.enclosing?) := by
  intro p
  have hn : Green.RegularAll p.root.children := e.regular_tree text
  refine ⟨p.root.findings, e.diagnostics_eq text, e.pieces_findings text, ?_⟩
  intro f hf items context hcause
  have hfits : f.Fits := ((Node.ordered_findings hn).1 f hf).1
  have hmissing : f.unexpected? = none := by
    have hexpected := f.isUnexpected_diagnostic
    rw [hcause] at hexpected
    exact Option.isNone_iff_eq_none.mp (Option.isSome_eq_false_iff.mp hexpected.symm)
  refine ⟨Finding.parts_ne_nil hmissing, fun part hpart => ?_⟩
  have hlacking := Finding.isLacking_of_mem_parts hfits hpart
  refine ⟨Node.parts_mem_places hf hpart, hlacking, fun hkind => ?_⟩
  rw [← Finding.context_of_mem_parts hfits hpart hcause]
  exact Element.context_eq_enclosing? hlacking hkind

/-- A parameter clause that is missing as a whole is said to be missing in a parameter clause,
though what is around it is a function. -/
theorem Parse.parameterClause_inItself :
    let p := Parse.ofText .statement ['f', 'u', 'n', 'c', ' ', 'f']
    ∃ n ∈ p.root.descendants, n.isMissing ∧ (Element.node n).enclosing? = some "function" ∧
      p.diagnostics = [(Finding.expected ⟨.node n, []⟩).diagnostic] ∧
      p.diagnostics.map Diagnostic.cause
        = [.expected "parameter clause" (some "parameter clause")] := by
  intro p
  have hdiagnostics : p.diagnostics = p.root.findings.map Finding.diagnostic :=
    Entry.diagnostics_eq .statement _
  rw [hdiagnostics]
  exact of_decide_eq_true (Entry.of_tree? (n := 20) (p := fun tree =>
    ∃ n ∈ (Node.ofGreen tree).descendants, n.isMissing ∧
      (Element.node n).enclosing? = some "function" ∧
      (Node.ofGreen tree).findings.map Finding.diagnostic
        = [(Finding.expected ⟨.node n, []⟩).diagnostic] ∧
      ((Node.ofGreen tree).findings.map Finding.diagnostic).map Diagnostic.cause
        = [.expected "parameter clause" (some "parameter clause")]) (by decide +kernel))

end SwiftTree
