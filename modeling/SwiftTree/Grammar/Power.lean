import SwiftTree.Grammar.Parser

/-!
# How strongly operators bind

Every infix operator has a binding power on each side (`Power`). Between two operators an operand
goes to the one with the higher power on that side. Operators of one level group to the left when
the right power is the higher one, and to the right when the left power is.
-/

namespace SwiftTree.Grammar

/-- The strengths with which an operator holds its operands. -/
structure Power where
  /-- on the left operand -/
  left : Nat
  /-- on the right operand -/
  right : Nat
deriving DecidableEq, Repr

namespace Power

/-- Operators of a level that group to the left. -/
def leftGrouping (level : Nat) : Power := ⟨level * 2, level * 2 + 1⟩

/-- Operators of a level that group to the right. -/
def rightGrouping (level : Nat) : Power := ⟨level * 2 + 1, level * 2⟩

/-- The power of assignment. -/
def assignment : Power := rightGrouping 1

/-- The least power that leaves an assignment out. -/
def aboveAssignment : Nat := assignment.left + 1

/-- The levels of the operators that are known by their spelling. -/
def table : List (List String × Power) :=
  [(["||"], leftGrouping 5),
   (["&&"], leftGrouping 6),
   (["==", "!=", "<", "<=", ">", ">=", "===", "!==", "~="], leftGrouping 7),
   (["??"], rightGrouping 8),
   (["...", "..<"], leftGrouping 10),
   (["+", "-", "&+", "&-", "|", "^"], leftGrouping 11),
   (["*", "/", "%", "&*", "&"], leftGrouping 12),
   (["<<", ">>", "&<<", "&>>"], leftGrouping 13)]

/-- The power of a binary operator. An operator that is not in the table assigns when it ends in
`=`, and otherwise groups to the left between the ternary operator and disjunction. -/
def ofOperator (text : Text) : Power :=
  match table.find? fun (spellings, _) => spellings.any fun s => s.toList == text with
  | some (_, power) => power
  | none => if text.getLast? == some '=' then assignment else leftGrouping 4

end Power

/-- The ways to go on behind an operand. -/
inductive Infix where
  | binary | ternary | cast | test | arrow
deriving DecidableEq, Repr

/-- The node that an operator makes of its operands. -/
def Infix.kind : Infix → Construct
  | binary => ⟨.binaryExpr, rfl⟩
  | ternary => ⟨.ternaryExpr, rfl⟩
  | cast => ⟨.castExpr, rfl⟩
  | test => ⟨.isExpr, rfl⟩
  | arrow => ⟨.arrowExpr, rfl⟩

namespace Ahead

/-- `async` before the arrow of a function type. -/
def isAsyncArrow (ts : Ahead) : Bool :=
  ts.isWord "async"
    && (isAt .arrow ts.tail || isAt .throwsKw ts.tail || isAt .rethrowsKw ts.tail)

/-- The infix operator here, and how strongly it binds. -/
def infixOperator (mode : Mode) (ts : Ahead) : Option (Infix × Power) :=
  if mode.directive && ts.atLineStart then none
  else
    match ts.kind with
    | .equal => some (.binary, .assignment)
    | .binaryOperator => some (.binary, .ofOperator ts.text)
    | .arrow | .throwsKw | .rethrowsKw => some (.arrow, .rightGrouping 2)
    | .identifier => if ts.isAsyncArrow then some (.arrow, .rightGrouping 2) else none
    | .infixQuestionMark => some (.ternary, .rightGrouping 3)
    | .asKw => some (.cast, .leftGrouping 9)
    | .isKw => some (.test, .leftGrouping 9)
    | _ => none

end Ahead

end SwiftTree.Grammar
