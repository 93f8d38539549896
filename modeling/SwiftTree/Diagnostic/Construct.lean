import SwiftTree.Diagnostic

/-!
# Names of constructs

Diagnostics name the construct that they are in (`Node.context`) and what is missing in it.
-/

namespace SwiftTree

/-- The name of a macro expansion. -/
def macroName (n : Node) : String :=
  match n.firstLeaf with
  | some l =>
    if l.green.textTrimmed == "#keyPath".toList then "'#keyPath' expression"
    else "macro expansion"
  | none => "macro expansion"

/-- The name of a kind of construct, if it has one. -/
def Kind.constructName? : Kind → Option String
  | .ifStmt => some "'if' statement"
  | .guardStmt => some "'guard' statement"
  | .switchStmt => some "'switch' statement"
  | .switchCase => some "switch case"
  | .doStmt => some "'do' statement"
  | .catchClause => some "'catch' clause"
  | .forStmt => some "'for' statement"
  | .whileStmt => some "'while' statement"
  | .repeatStmt => some "'repeat' statement"
  | .throwStmt => some "'throw' statement"
  | .deferStmt => some "'defer' statement"
  | .matchingPatternCondition => some "pattern matching"
  | .ifConfigClause => some "conditional compilation clause"
  | .ifConfigDecl => some "conditional compilation block"
  | .variableDecl => some "variable"
  | .functionDecl => some "function"
  | .parameterClause => some "parameter clause"
  | .attribute => some "attribute"
  | .expressionPattern => some "pattern"
  | .tuplePattern => some "tuple pattern"
  | .arrayExpr => some "array"
  | .arrayElement => some "array element"
  | .dictionaryExpr => some "dictionary"
  | .dictionaryElement => some "dictionary element"
  | .tupleExpr => some "tuple"
  | .closureExpr => some "closure"
  | .closureSignature => some "closure signature"
  | .closureCaptureClause => some "closure capture clause"
  | .functionCallExpr => some "function call"
  | .subscriptExpr => some "subscript"
  | .memberAccessExpr => some "member access"
  | .keyPathExpr => some "key path"
  | .stringLiteralExpr => some "string literal"
  | .objectLiteralExpr => some "object literal"
  | .genericArgumentClause => some "generic argument clause"
  | .arrayType => some "array type"
  | .dictionaryType => some "dictionary type"
  | .tupleType => some "tuple type"
  | .functionType => some "function type"
  | _ => none

namespace Node

/-- The name of the construct that a node is, if it has one. -/
def constructName? (n : Node) : Option String :=
  if n.kind = .macroExpansionExpr then some (macroName n) else n.kind.constructName?

/-- The name of the nearest construct around a node, itself included. -/
def context (n : Node) : Option String := n.ancestors.findSome? constructName?

/-- What a placeholder stands for, or a construct that is missing as a whole. -/
def missingItem? (n : Node) : Option String :=
  let parent := n.parent.map (·.kind)
  match n.kind with
  | .missingExpr =>
    if [Kind.arrayElement, .dictionaryElement, .tupleElement, .labeledArgument].any
        (some · == parent) then some "value"
    else some "expression"
  | .missingType => if parent == some .keyPathExpr then some "root" else some "type"
  | .missingPattern => some "pattern"
  | .codeBlock => if n.isMissing then some "code block" else none
  | .parameterClause => if n.isMissing then some "parameter clause" else none
  | _ => none

end Node

/-- What a missing token stands for. -/
def missingTokenItem (kind : Kind) (spelling : Text) : String :=
  if kind = .identifier then "identifier"
  else if kind = .integerLiteral then "integer literal"
  else if spelling.isEmpty then "token"
  else quoteSource (String.ofList spelling)

/-- Several items in one phrase. -/
def joinItems : List String → String
  | [] => ""
  | [item] => item
  | items => ", ".intercalate items.dropLast ++ " and " ++ items.getLastD ""

end SwiftTree
