import SwiftTree.View.Declaration

/-!
# Views of statements
-/

namespace SwiftTree.View

/-- An `if` statement. -/
abbrev IfStatement : Type := Of .ifStmt

/-- The conditions of a statement. -/
abbrev ConditionList : Type := Of .conditionElementList

/-- A condition that binds the value of an optional. -/
abbrev OptionalBinding : Type := Of .optionalBindingCondition

/-- A `switch` statement. -/
abbrev SwitchStatement : Type := Of .switchStmt

/-- A case of a `switch`. -/
abbrev SwitchCase : Type := Of .switchCase

/-- A conditional compilation block. -/
abbrev IfConfig : Type := Of .ifConfigDecl

/-- A clause of a conditional compilation block. -/
abbrev IfConfigClause : Type := Of .ifConfigClause

/-- A `do` statement. -/
abbrev DoStatement : Type := Of .doStmt

/-- A `catch` clause. -/
abbrev CatchClause : Type := Of .catchClause

/-- A `for` statement. -/
abbrev ForStatement : Type := Of .forStmt

/-- A `return` statement. -/
abbrev ReturnStatement : Type := Of .returnStmt

/-- What follows the `else` of an `if` statement. -/
inductive ElseBranch where
  /-- statements in braces -/
  | block (block : CodeBlock)
  /-- a further `if` statement -/
  | chained (statement : IfStatement)

/-- The conditions. -/
def IfStatement.conditions (v : IfStatement) : Option ConditionList := v.node.childView

/-- What is done if they hold. -/
def IfStatement.body (v : IfStatement) : Option CodeBlock := v.node.childView

/-- What is done otherwise, if there is an `else`. -/
def IfStatement.elseBranch (v : IfStatement) : Option ElseBranch :=
  if v.node.hasToken .elseKw then
    match (v.node.childViews : List CodeBlock)[1]? with
    | some block => some (.block block)
    | none => v.node.childView.map .chained
  else none

/-- The bindings of optionals below the conditions, at any depth. -/
def ConditionList.bindings (v : ConditionList) : List OptionalBinding := v.node.descendantViews

/-- What is bound. -/
def OptionalBinding.pattern (v : OptionalBinding) : Option Pattern := v.node.childView

/-- The optional, unless it has the name that is bound. -/
def OptionalBinding.initializer (v : OptionalBinding) : Option InitializerClause :=
  v.node.childView

/-- The value that the cases are tried on. -/
def SwitchStatement.subject (v : SwitchStatement) : Option Expression := v.node.childView

/-- The cases, in order. -/
def SwitchStatement.cases (v : SwitchStatement) : List SwitchCase := v.node.grandchildViews

/-- The conditional compilation blocks between the cases. -/
def SwitchStatement.ifConfigs (v : SwitchStatement) : List IfConfig := v.node.grandchildViews

/-- The clauses, in order. -/
def IfConfig.clauses (v : IfConfig) : List IfConfigClause := v.node.childViews

/-- The directive that opens the clause. -/
def IfConfigClause.directive (v : IfConfigClause) : Option Leaf :=
  v.node.childToken fun k => k == .poundIf || k == .poundElseif || k == .poundElse

/-- What is tried. -/
def DoStatement.body (v : DoStatement) : Option CodeBlock := v.node.childView

/-- What is done about errors, in order. -/
def DoStatement.catchClauses (v : DoStatement) : List CatchClause := v.node.childViews

/-- What each element is bound to. -/
def ForStatement.pattern (v : ForStatement) : Option Pattern := v.node.childView

/-- The elements. -/
def ForStatement.sequence (v : ForStatement) : Option Expression := v.node.childView

/-- What is done with each. -/
def ForStatement.body (v : ForStatement) : Option CodeBlock := v.node.childView

/-- The result, if there is one. -/
def ReturnStatement.result (v : ReturnStatement) : Option Expression := v.node.childView

end SwiftTree.View
