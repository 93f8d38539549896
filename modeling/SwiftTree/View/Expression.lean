import SwiftTree.View.Block

/-!
# Views of expressions
-/

namespace SwiftTree.View

/-- Two operands and an operator between them. -/
abbrev BinaryExpression : Type := Of .binaryExpr

/-- A condition and two choices. -/
abbrev TernaryExpression : Type := Of .ternaryExpr

/-- An operand behind its operator. -/
abbrev PrefixExpression : Type := Of .prefixExpr

/-- An operand before its operator. -/
abbrev PostfixExpression : Type := Of .postfixExpr

/-- A `try` and what it covers. -/
abbrev TryExpression : Type := Of .tryExpr

/-- A name. -/
abbrev IdentifierExpression : Type := Of .identifierExpr

/-- A string literal. -/
abbrev StringLiteral : Type := Of .stringLiteralExpr

/-- An array literal. -/
abbrev ArrayLiteral : Type := Of .arrayExpr

/-- A dictionary literal. -/
abbrev DictionaryLiteral : Type := Of .dictionaryExpr

/-- A closure. -/
abbrev Closure : Type := Of .closureExpr

/-- The captures, parameters and result of a closure. -/
abbrev ClosureSignature : Type := Of .closureSignature

/-- A function call. -/
abbrev FunctionCall : Type := Of .functionCallExpr

/-- An argument of a call. -/
abbrev LabeledArgument : Type := Of .labeledArgument

/-- A member of a value. -/
abbrev MemberAccess : Type := Of .memberAccessExpr

/-- A key path. -/
abbrev KeyPath : Type := Of .keyPathExpr

/-- A component of a key path. -/
abbrev KeyPathComponent : Type := Of .keyPathComponent

/-- The operand before the operator. -/
def BinaryExpression.left (v : BinaryExpression) : Option Expression := v.node.childView

/-- The operator. -/
def BinaryExpression.operator (v : BinaryExpression) : Option Leaf := v.node.childLeaves.head?

/-- The operand behind the operator. -/
def BinaryExpression.right (v : BinaryExpression) : Option Expression := v.node.childViews[1]?

/-- What decides. -/
def TernaryExpression.condition (v : TernaryExpression) : Option Expression := v.node.childView

/-- The value if it holds. -/
def TernaryExpression.thenBranch (v : TernaryExpression) : Option Expression :=
  v.node.childViews[1]?

/-- The value otherwise. -/
def TernaryExpression.elseBranch (v : TernaryExpression) : Option Expression :=
  v.node.childViews[2]?

/-- The operator. -/
def PrefixExpression.operator (v : PrefixExpression) : Option Leaf := v.node.childLeaves.head?

/-- The operand. -/
def PrefixExpression.operand (v : PrefixExpression) : Option Expression := v.node.childView

/-- The operator. -/
def PostfixExpression.operator (v : PostfixExpression) : Option Leaf := v.node.childLeaves.head?

/-- The operand. -/
def PostfixExpression.operand (v : PostfixExpression) : Option Expression := v.node.childView

/-- What is covered. -/
def TryExpression.operand (v : TryExpression) : Option Expression := v.node.childView

/-- The name. -/
def IdentifierExpression.name (v : IdentifierExpression) : Option Leaf :=
  v.node.childToken fun _ => true

/-- How many number signs stand before the quote of a raw literal. -/
def StringLiteral.delimiterLen (v : StringLiteral) : Nat :=
  match v.node.childToken (· == .rawStringDelimiter) with
  | some l => Text.byteLen l.green.textTrimmed
  | none => 0

/-- Whether the literal is in triple quotes. -/
def StringLiteral.isMultiline (v : StringLiteral) : Bool :=
  v.node.hasToken .multilineStringQuote

/-- The interpolations, in order. -/
def StringLiteral.interpolations (v : StringLiteral) : List Node :=
  (v.node.childNodes.filter (·.kind == .stringSegmentList)).flatMap fun list =>
    list.childNodes.filter (·.kind == .expressionSegment)

/-- The elements, in order. -/
def ArrayLiteral.elements (v : ArrayLiteral) : List Expression :=
  (v.node.grandchildViews : List (Of .arrayElement)).filterMap fun e => e.node.childView

/-- The keys and values, in order. -/
def DictionaryLiteral.entries (v : DictionaryLiteral) :
    List (Option Expression × Option Expression) :=
  (v.node.grandchildViews : List (Of .dictionaryElement)).map fun e =>
    (e.node.childView, e.node.childViews[1]?)

/-- The captures, parameters and result, if they are given. -/
def Closure.signature (v : Closure) : Option ClosureSignature := v.node.childView

/-- What the closure does. -/
def Closure.statements (v : Closure) : Option ItemList := v.node.childView

/-- What is called. -/
def FunctionCall.callee (v : FunctionCall) : Option Expression := v.node.childView

/-- The arguments in parentheses, in order. -/
def FunctionCall.arguments (v : FunctionCall) : List LabeledArgument := v.node.grandchildViews

/-- The first closure among the parts of the call. -/
def FunctionCall.trailingClosure (v : FunctionCall) : Option Closure := v.node.childView

/-- The label, if there is a colon. -/
def LabeledArgument.label (v : LabeledArgument) : Option Leaf :=
  if v.node.hasToken .colon then v.node.childToken (· != .colon) else none

/-- The value. -/
def LabeledArgument.value (v : LabeledArgument) : Option Expression := v.node.childView

/-- What the member belongs to. -/
def MemberAccess.base (v : MemberAccess) : Option Expression := v.node.childView

/-- The last token of the source among the parts. -/
def MemberAccess.name (v : MemberAccess) : Option Leaf :=
  (v.node.childLeaves.filter Leaf.isPresent).getLast?

/-- What the path starts from. -/
def KeyPath.root (v : KeyPath) : Option Node :=
  v.node.childNodes.find? (·.kind != .keyPathComponentList)

/-- The components below the path, at any depth. -/
def KeyPath.components (v : KeyPath) : List KeyPathComponent := v.node.descendantViews

end SwiftTree.View
