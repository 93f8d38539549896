import SwiftTree.Proofs.Clean
import SwiftTree.Proofs.Headers

/-!
# The condition of a directive ends with its line

Behind an operand a condition goes on only on the same line: no operator and nothing that is
attached joins the operand over a line break (`Entry.condition_joins_onLine`). Where an operand is
still awaited, the rules do not look at lines, and take it from the next one.
-/

namespace SwiftTree

open Grammar

open Green (breaksLine)

/-- The condition of a clause heeds the mode of directives. -/
theorem Green.Placed.avoids_breaksLine {cs : List Green} {next : Outlook} {c : Green}
    (h : Green.Placed .ifConfigClause cs next) (hc : c ∈ cs) (hkind : c.kind.isExpression) :
    c.Avoids breaksLine := by
  refine (h.heeds { directive := true } rfl c hc ?_).lines rfl
  rw [Kind.isHeading, hkind]
  rfl

namespace Entry

/-- Outside of brackets, key paths and string literals, nothing in the condition of a directive
joins an operand over a line break. Nor does it in a text that is read as the condition of a
directive. -/
theorem condition_joins_onLine (e : Entry) (text : Text) :
    (∀ n ∈ (Node.ofGreen (e.tree text)).descendants, n.kind = .ifConfigClause →
      ∀ c ∈ n.children, c.kind.isExpression → c.Avoids breaksLine) ∧
    ∀ mode, e = .expression mode → mode.directive →
      ∀ c ∈ (Node.ofGreen (e.tree text)).children, c.Avoids breaksLine := by
  refine ⟨fun n hn hclause c hc hkind => ?_, ?_⟩
  · have hstands := stands_of_mem_descendants placing_met hn
    obtain ⟨kind, cs, offset, way⟩ := n
    obtain rfl := hclause
    exact hstands.1.avoids_breaksLine hc hkind
  · rintro mode rfl hmode c hc
    exact (heeds_parts mode text c hc).lines hmode

/-- The theorem at a condition with a member on the next line, in a clause and on its own. -/
theorem condition_joins_onLine_member :
    (∃ n ∈ (Node.ofGreen (statement.tree
        ['#', 'i', 'f', ' ', 'a', '\n', '.', 'b', '\n', '#', 'e', 'n', 'd', 'i', 'f'])).descendants,
      ∃ c ∈ n.children, c.kind.isExpression ∧ c.Avoids breaksLine) ∧
    ∀ c ∈ (Node.ofGreen ((expression { directive := true }).tree
      ['a', '\n', '.', 'b'])).children, c.Avoids breaksLine := by
  refine ⟨?_, (condition_joins_onLine (.expression { directive := true }) _).2 _ rfl rfl⟩
  have hclause : ∃ n ∈ (Node.ofGreen (statement.tree
      ['#', 'i', 'f', ' ', 'a', '\n', '.', 'b', '\n', '#', 'e', 'n', 'd', 'i', 'f'])).descendants,
      n.kind = .ifConfigClause ∧ ∃ c ∈ n.children, c.kind.isExpression :=
    of_decide_eq_true (of_tree? (n := 20) (p := fun tree => ∃ n ∈ (Node.ofGreen tree).descendants,
      n.kind = .ifConfigClause ∧ ∃ c ∈ n.children, c.kind.isExpression) (by decide +kernel))
  obtain ⟨n, hn, hkind, c, hc, hexpression⟩ := hclause
  exact ⟨n, hn, c, hc, hexpression,
    (condition_joins_onLine .statement _).1 n hn hkind c hc hexpression⟩

/-- A condition that is absent is taken from the next line, and not reported: in `#if`, a line break
and `foo`, the condition is `foo`. -/
theorem condition_opensLine :
    let text : Text :=
      ['#', 'i', 'f', '\n', 'f', 'o', 'o', '\n', '#', 'e', 'n', 'd', 'i', 'f']
    (Parse.ofText .statement text).diagnostics = [] ∧
      ∃ n ∈ (Node.ofGreen (statement.tree text)).descendants, n.kind = .ifConfigClause ∧
        ∃ c ∈ n.children, c.kind = .identifierExpr ∧ ∃ t ∈ Green.tokensOf [c],
          t.kind = .identifier ∧ t.leading.containsNewline := by
  intro text
  refine ⟨?_, ?_⟩
  · exact (diagnostics_eq_nil_iff _ _).mpr
      (of_tree? (n := 20) (p := Green.isClean) (by decide +kernel))
  · exact of_decide_eq_true (of_tree? (n := 20)
      (p := fun tree => ∃ n ∈ (Node.ofGreen tree).descendants, n.kind = .ifConfigClause ∧
        ∃ c ∈ n.children, c.kind = .identifierExpr ∧ ∃ t ∈ Green.tokensOf [c],
          t.kind = .identifier ∧ t.leading.containsNewline) (by decide +kernel))

end Entry

end SwiftTree
