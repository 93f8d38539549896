import SwiftTree.Kind

/-!
# Categories of nodes

The kinds of nodes that can stand in one and the same place: statements, patterns, expressions and
types. A placeholder belongs to the category of what was not found. An item of a list of statements
is a statement, an expression, or unexpected text.
-/

namespace SwiftTree.Kind

/-- The kinds of statements. Declarations are among them. -/
def isStatement : Kind → Bool
  | .ifStmt | .guardStmt | .switchStmt | .doStmt | .forStmt | .whileStmt | .repeatStmt
  | .returnStmt | .breakStmt | .continueStmt | .throwStmt | .deferStmt | .fallthroughStmt
  | .labeledStmt | .ifConfigDecl | .variableDecl | .functionDecl => true
  | _ => false

/-- The kinds of patterns. -/
def isPattern : Kind → Bool
  | .identifierPattern | .wildcardPattern | .tuplePattern | .valueBindingPattern
  | .expressionPattern | .isTypePattern | .missingPattern => true
  | _ => false

/-- The kinds of expressions. -/
def isExpression : Kind → Bool
  | .binaryExpr | .ternaryExpr | .arrowExpr | .castExpr | .isExpr | .prefixExpr | .postfixExpr
  | .forceUnwrapExpr | .optionalChainingExpr | .tryExpr | .awaitExpr | .moveExpr
  | .identifierExpr | .discardExpr | .booleanLiteralExpr | .nilLiteralExpr | .integerLiteralExpr
  | .floatLiteralExpr | .stringLiteralExpr | .regexLiteralExpr | .tupleExpr | .arrayExpr
  | .dictionaryExpr | .closureExpr | .functionCallExpr | .subscriptExpr | .memberAccessExpr
  | .implicitMemberExpr | .specializeExpr | .keyPathExpr | .macroExpansionExpr
  | .objectLiteralExpr | .editorPlaceholderExpr | .operatorRefExpr | .typeExpr | .patternExpr
  | .missingExpr => true
  | _ => false

/-- The kinds of types. -/
def isType : Kind → Bool
  | .simpleType | .memberType | .optionalType | .implicitlyUnwrappedType | .arrayType
  | .dictionaryType | .tupleType | .functionType | .attributedType | .someOrAnyType
  | .compositionType | .missingType => true
  | _ => false

/-- The kinds of what a list of statements holds. -/
def isItem (k : Kind) : Bool := k == .unexpected || k.isStatement || k.isExpression

end SwiftTree.Kind
