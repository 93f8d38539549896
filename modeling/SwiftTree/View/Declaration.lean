import SwiftTree.View.Block

/-!
# Views of declarations
-/

namespace SwiftTree.View

/-- A `let` or `var` declaration. -/
abbrev VariableDeclaration : Type := Of .variableDecl

/-- A pattern with what is bound to it. -/
abbrev PatternBinding : Type := Of .patternBinding

/-- A colon and a type. -/
abbrev TypeClause : Type := Of .typeClause

/-- An equals sign and a value. -/
abbrev InitializerClause : Type := Of .initializerClause

/-- A function declaration. -/
abbrev FunctionDeclaration : Type := Of .functionDecl

/-- The parameters and the result of a function. -/
abbrev FunctionSignature : Type := Of .functionSignature

/-- A parameter of a function. -/
abbrev Parameter : Type := Of .parameter

/-- A pattern that is a name. -/
abbrev IdentifierPattern : Type := Of .identifierPattern

/-- Whether the variables can be changed. -/
def VariableDeclaration.isMutable (v : VariableDeclaration) : Bool := v.node.hasToken .varKw

/-- The bindings, in order. -/
def VariableDeclaration.bindings (v : VariableDeclaration) : List PatternBinding :=
  v.node.grandchildViews

/-- What is bound. -/
def PatternBinding.pattern (v : PatternBinding) : Option Pattern := v.node.childView

/-- Its type, if one is given. -/
def PatternBinding.typeClause (v : PatternBinding) : Option TypeClause := v.node.childView

/-- Its value, if one is given. -/
def PatternBinding.initializer (v : PatternBinding) : Option InitializerClause := v.node.childView

/-- The type. -/
def TypeClause.type (v : TypeClause) : Option TypeTerm := v.node.childView

/-- The value. -/
def InitializerClause.value (v : InitializerClause) : Option Expression := v.node.childView

/-- The name of the function, which can be an operator. -/
def FunctionDeclaration.name (v : FunctionDeclaration) : Option Leaf :=
  v.node.childToken fun k => k == .identifier || k.isOperator

/-- The parameters and the result. -/
def FunctionDeclaration.signature (v : FunctionDeclaration) : Option FunctionSignature :=
  v.node.childView

/-- What the function does. -/
def FunctionDeclaration.body (v : FunctionDeclaration) : Option CodeBlock := v.node.childView

/-- The parameters, in order. -/
def FunctionSignature.parameters (v : FunctionSignature) : List Parameter :=
  (v.node.childNodes.filter (·.kind == .parameterClause)).flatMap Node.childViews

/-- The type of the result, if one is given. -/
def FunctionSignature.returnType (v : FunctionSignature) : Option TypeTerm :=
  (v.node.childNodes.find? (·.kind == .returnClause)).bind Node.childView

/-- The name. -/
def IdentifierPattern.name (v : IdentifierPattern) : Option Leaf :=
  v.node.childToken fun k => k == .identifier || k.isKeyword

end SwiftTree.View
