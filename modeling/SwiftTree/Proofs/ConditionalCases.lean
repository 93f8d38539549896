import SwiftTree.Proofs.Clean
import SwiftTree.Proofs.Evaluation

/-!
# Conditional compilation in a case of a `switch`

Statements can stand between `#if` and `#endif` on their own (`Text.conditional`), and in a case of
a `switch` (`Text.inCase`). In a case, the block may also hold further cases, and which of the two
it holds is told by looking for `case` and `default` outside of braces (`Ahead.isCaseBlock`). Both
words have other uses there.
-/

namespace SwiftTree

/-- A text in a conditional compilation block. -/
def Text.conditional (s : Text) : Text := "#if A\n".toList ++ (s ++ "\n#endif".toList)

/-- A text in a case of a `switch`. -/
def Text.inCase (s : Text) : Text := "switch x \x7b\ncase 1:\n".toList ++ (s ++ "\n\x7d".toList)

/-- A pattern in the condition of a statement is taken for a case: `if case 1 = x { }` is accepted
in a conditional compilation block, but not if the block stands in a case. -/
theorem Parse.conditional_pattern_rejected :
    let s : Text := "if case 1 = x \x7b\x7d".toList
    (ofText .sourceFile s.conditional).diagnostics = [] ∧
      (ofText .sourceFile s.conditional.inCase).diagnostics ≠ [] := by
  intro s
  have hclean : (Entry.sourceFile.tree s.conditional).isClean :=
    Entry.of_tree? (n := 20) (by decide +kernel)
  have hrejected : (!(Entry.sourceFile.tree s.conditional.inCase).isClean) = true :=
    Entry.of_tree? (n := 40) (p := fun tree => !tree.isClean) (by decide +kernel)
  refine ⟨(Entry.diagnostics_eq_nil_iff _ _).mpr hclean, fun hnone => ?_⟩
  rw [(Entry.diagnostics_eq_nil_iff _ _).mp hnone] at hrejected
  cases hrejected

end SwiftTree
