import SwiftTree.Grammar.Operand

/-!
# Expressions

`sequenceRule` reads operands with operators between them and groups them by the powers of the
operators. A missing operand ends every sequence around it, so that one gap in the source is
reported once.
-/

namespace SwiftTree.Grammar

namespace Ahead

/-- `await` as a keyword before an operand on the same line, and not as a name that something is
attached to. -/
def isAwait (ts : Ahead) : Bool :=
  ts.isWord "await" && startsExpr ts.tail && !atLineStart ts.tail
    && !(adjacent ts.tail
      && (isAt .period ts.tail || isAt .leftBrace ts.tail || isAt .leftParen ts.tail))

/-- `_move` as a keyword before a name on the same line. -/
def isMove (ts : Ahead) : Bool :=
  ts.isWord "_move" && !atLineStart ts.tail
    && (isAt .identifier ts.tail || isAt .selfKw ts.tail || isAt .dollarIdentifier ts.tail)

end Ahead

/-- An operand with what stands before it. The answer says whether it ends in a missing operand. -/
def unaryRule (mode : Mode) (power : Nat) : Parser Bool := do
  if ← look fun ts => ts.isAt .prefixOperator && !ts.isOperatorRef then
    node .prefixExpr do
      advance
      call (.unary mode power)
  else if ← isAt .tryKw then
    node .tryExpr do
      advance
      ifAhead (fun ts => ts.isAt .postfixOperator && ts.adjacent) advance
      call (.sequence mode power)
  else if ← look Ahead.isAwait then
    node .awaitExpr do
      advanceAs .awaitKw
      call (.sequence mode power)
  else if ← look Ahead.isMove then
    node .moveExpr do
      advanceAs .moveKw
      call (.unary mode power)
  else
    call (.operand mode)

/-- An infix operator and its right operand. The answer says whether that ends in a missing
operand. -/
def rightSide (mode : Mode) (op : Infix) (power : Nat) : Parser Bool := do
  match op with
  | .binary =>
    advance
    call (.sequence mode power)
  | .ternary =>
    advance
    expr mode
    require .colon
    call (.sequence mode power)
  | .cast =>
    advance
    ifAhead (fun ts => ts.isAt .postfixOperator && (ts.isSpelled "?" || ts.isSpelled "!")) advance
    type
    return false
  | .test =>
    advance
    type
    return false
  | .arrow =>
    effectSpecifiers
    require .arrow
    call (.sequence mode power)

/-- Operands joined by operators that bind their left operand at least as strongly as `power`. The
answer says whether the last operand is missing. -/
def sequenceRule (mode : Mode) (power : Nat) : Parser Bool := do
  if ← call (.unary mode power) then
    return true
  else
    repeatUntil do
      match ← look (Ahead.infixOperator mode) with
      | none => return some false
      | some (op, p) =>
        if p.left < power then
          return some false
        else
          let missing ← enclose op.kind (rightSide mode op p.right) op.kind.isConstruct
          return if missing then some true else none

end SwiftTree.Grammar
