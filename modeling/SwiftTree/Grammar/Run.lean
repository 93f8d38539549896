import SwiftTree.Grammar.Assembly
import SwiftTree.Grammar.Statement

/-!
# Reaching goals

`Goal.rule` says which rule stands for which goal, and `Goal.run` ties the rules together. Calls are
counted down, since a rule may call itself; so are the rounds of loops. `callLimit` grants enough of
both for the number of characters that there are to read.
-/

namespace SwiftTree.Grammar

/-- A rule without an answer, as one that ends in no missing operand. -/
def complete (rule : Parser Unit) : Parser Bool := do
  rule
  return false

/-- The rule that stands for a goal. -/
def Goal.rule : Goal → Parser Bool
  | sequence mode power => sequenceRule mode power
  | unary mode power => unaryRule mode power
  | operand mode => operandRule mode
  | closure => complete closureRule
  | type => complete typeRule
  | plainType => complete plainTypeRule
  | pattern => complete patternRule
  | casePattern mode => complete (casePatternRule mode)
  | statement => complete statementRule
  | statements body => complete (statementsRule body)
  | switchCases inDirective => complete (switchCasesRule inDirective)

/-- Reaches a goal with at most `n` calls inside each other. -/
def Goal.run {σ : Type} [Assembly σ] : Nat → Goal → State σ → Option (Bool × State σ)
  | 0, _, _ => none
  | n + 1, g, s => g.rule.run ⟨run n, n⟩ s

/-- What rules can rely on with `n` calls. -/
def Env.ofLimit {σ : Type} [Assembly σ] (n : Nat) : Env σ := ⟨Goal.run n, n⟩

/-- Calls for a text of `n` bytes. -/
def callLimit (n : Nat) : Nat := 16 * (n + 2)

end SwiftTree.Grammar
