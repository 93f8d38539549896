import SwiftTree.Green
import SwiftTree.Kind.Category
import SwiftTree.Kind.Spelling

/-!
# The shapes of nodes

What a node of a kind can be made of, on well-formed source and on any other. A `Shape` describes a
list of trees: tokens that were read, missing tokens, nodes of certain kinds, one shape behind
another, alternatives, and repetitions. `Kind.shape` is the grammar of trees, with one shape for
each kind of node.

A shape only looks at the kinds of the children, and at the spelling of missing tokens. What is said
of every node of a tree is put together by `Green.Deep`.
-/

namespace SwiftTree

/-- What a list of trees can be. -/
inductive Shape where
  /-- no tree -/
  | nothing
  /-- a token that was read -/
  | token (kinds : Kind → Bool)
  /-- a missing token -/
  | missing (kinds : Kind → Bool)
  /-- an inner node -/
  | node (kinds : Kind → Bool)
  /-- one shape behind another -/
  | seq (first second : Shape)
  /-- one of two shapes -/
  | alt (first second : Shape)
  /-- a shape any number of times -/
  | many (element : Shape)

/-- Whether a missing token of a kind can have a spelling. It is spelled as all tokens of its kind
are; only the length of a raw delimiter is not in its kind. -/
def Kind.Lacks (kind : Kind) (spelling : Text) : Prop :=
  kind = .rawStringDelimiter ∨ spelling = (kind.fixedText.getD "").toList

namespace Shape

/-- Whether trees have a shape. -/
inductive Matches : Shape → List Green → Prop where
  | nothing : Matches .nothing []
  | token {kinds : Kind → Bool} {t : Token.Outline} (h : kinds t.kind) :
      Matches (.token kinds) [.leaf (.present t)]
  | missing {kinds : Kind → Bool} {kind : Kind} {spelling : Text} (h : kinds kind)
      (hs : kind.Lacks spelling) : Matches (.missing kinds) [.missing kind spelling]
  | node {kinds : Kind → Bool} {kind : Kind} {cs : List Green} (h : kinds kind) :
      Matches (.node kinds) [.node kind cs]
  | seq {a b : Shape} {xs ys : List Green} (hx : a.Matches xs) (hy : b.Matches ys) :
      Matches (.seq a b) (xs ++ ys)
  | left {a b : Shape} {xs : List Green} (h : a.Matches xs) : Matches (.alt a b) xs
  | right {a b : Shape} {xs : List Green} (h : b.Matches xs) : Matches (.alt a b) xs
  | none {a : Shape} : Matches (.many a) []
  | more {a : Shape} {xs ys : List Green} (hx : a.Matches xs) (hy : (many a).Matches ys) :
      Matches (.many a) (xs ++ ys)

/-! ## Common shapes -/

/-- A token of a kind. -/
def tok (k : Kind) : Shape := .token (· == k)

/-- A token of a kind, read or missing. -/
def needed (k : Kind) : Shape := .alt (tok k) (.missing (· == k))

/-- A node of a kind. -/
def one (k : Kind) : Shape := .node (· == k)

/-- A shape, or nothing. -/
def opt (a : Shape) : Shape := .alt a .nothing

/-- Nodes of a kind. -/
def list (k : Kind) : Shape := .many (one k)

/-- A part of a list, and the comma behind it. -/
def element (a : Shape) : Shape := .seq a (opt (tok .comma))

/-- Names and keywords. -/
def isName (k : Kind) : Bool :=
  k == .identifier || k == .underscore || k == .dollarIdentifier || k.isKeyword

/-- A name or a keyword. -/
def word : Shape := .token isName

/-- A token of some kinds, or a missing name. -/
def nameAmong (kinds : Kind → Bool) : Shape := .alt (.token kinds) (.missing (· == .identifier))

/-- A label and its colon. -/
def label : Shape := .seq word (tok .colon)

def expr : Shape := .node Kind.isExpression

def type : Shape := .node Kind.isType

def pattern : Shape := .node Kind.isPattern

/-- Text that no rule wanted, if there is any. -/
def skipped : Shape := opt (one .unexpected)

/-- A statement, a declaration or an expression. -/
def statement : Shape := .node fun k => k.isStatement || k.isExpression

/-- The block of a control flow statement, with what stands before its brace. -/
def body : Shape := .seq skipped (one .codeBlock)

/-- A list between brackets, with what stands before the closing one. -/
def elements (k : Kind) : Shape := opt (.seq (list k) skipped)

/-- Arguments between brackets. -/
def arguments (opener closer : Kind) : Shape :=
  .seq (tok opener) (.seq (one .argumentList) (needed closer))

/-- Closures behind a call. -/
def trailing : Shape := .seq (one .closureExpr) (list .additionalTrailingClosure)

/-- The name of a member. -/
def member : Shape :=
  nameAmong fun k => isName k || k == .integerLiteral || k == .editorPlaceholder

/-- The names before the type of a tuple element. -/
def typeLabels : Shape := .alt label (opt (.seq word label))

/-- The names of a parameter. -/
def parameterNames : Shape :=
  .alt (.seq word (opt word)) (opt (.missing (· == .identifier)))

/-- An element of a bracket literal. -/
def bracketElement (dictionary : Bool) : Shape :=
  element (.seq expr (if dictionary then .seq (needed .colon) expr else .nothing))

/-- The elements of a bracket literal. -/
def bracketElements (k : Kind) : Shape :=
  opt (.seq (one k) (.seq (opt (list k)) skipped))

/-- The word of a modifier. -/
def modifierWord : Shape :=
  .token fun k => k == .asyncKw || k == .weakKw || k == .unownedKw || k == .identifier

/-- The detail of a modifier. -/
def modifierDetail : Shape :=
  .seq (tok .leftParen) (.seq (tok .identifier) (tok .rightParen))

/-- `weak`, or `unowned` with its detail. -/
def captureSpecifier : Shape :=
  .alt (tok .weakKw) (.seq (opt (tok .unownedKw)) (opt
    (.seq (tok .leftParen) (.seq (opt (tok .identifier)) (needed .rightParen)))))

/-- The pattern of a loop. -/
def forPattern : Shape := .alt (.seq (tok .caseKw) pattern) pattern

/-- The pattern and the sequence of a loop. -/
def forHeader : Shape :=
  .seq (opt (tok .tryKw)) <| .seq (opt (tok .awaitKw)) <| .seq forPattern <|
    .seq (opt (one .typeClause)) <| .seq (needed .inKw) <| .seq expr (opt (one .whereClause))

/-- A component of a key path behind its dot. -/
def keyPathMember : Shape := .alt (arguments .leftBracket .rightBracket) member

/-- The dotted name in the parentheses of `#keyPath`. -/
def poundKeyPath : Shape :=
  .alt
    (.seq (tok .leftParen) <| .seq
      (.many (.seq (nameAmong fun k => k == .identifier || k == .selfKw) (opt (tok .period)))) <|
      needed .rightParen)
    (.missing (· == .leftParen))

end Shape

open Shape in
/-- What a node of a kind is made of. -/
def Kind.shape : Kind → Shape
  -- roots, blocks, and what no rule wanted
  | .sourceFile => .seq (one .codeBlockItemList) (tok .endOfFile)
  | .sourceFragment => .seq statement (.seq skipped (tok .endOfFile))
  | .codeBlockItemList =>
    .many (.alt (tok .semicolon) (.alt statement skipped))
  | .codeBlock =>
    .alt (.seq (tok .leftBrace) <| .seq (one .codeBlockItemList) (needed .rightBrace))
      (.seq (.missing (· == .leftBrace)) <|
        .seq (one .codeBlockItemList) (.missing (· == .rightBrace)))
  | .unexpected => .many (.token fun _ => true)
  -- statements
  | .ifStmt =>
    .seq (tok .ifKw) <| .seq (one .conditionElementList) <| .seq body <|
      opt (.seq (tok .elseKw) (.alt statement body))
  | .guardStmt =>
    .seq (tok .guardKw) <| .seq (one .conditionElementList) <| .seq (needed .elseKw) body
  | .doStmt => .seq (tok .doKw) <| .seq body (list .catchClause)
  | .catchClause => .seq (tok .catchKw) <| .seq (opt (one .catchItemList)) body
  | .catchItemList => list .catchItem
  | .catchItem => element (.seq pattern (opt (one .whereClause)))
  | .forStmt => .seq (tok .forKw) (.alt body (.seq forHeader body))
  | .whileStmt => .seq (tok .whileKw) <| .seq (one .conditionElementList) body
  | .repeatStmt => .seq (tok .repeatKw) <| .seq body <| .seq (needed .whileKw) expr
  | .returnStmt => .seq (needed .returnKw) (opt expr)
  | .breakStmt => .seq (tok .breakKw) (opt (tok .identifier))
  | .continueStmt => .seq (tok .continueKw) (opt (tok .identifier))
  | .throwStmt => .seq (tok .throwKw) expr
  | .deferStmt => .seq (tok .deferKw) body
  | .fallthroughStmt => tok .fallthroughKw
  | .labeledStmt => .seq label statement
  | .switchStmt =>
    .seq (tok .switchKw) <| .seq expr <|
      .alt (.seq (tok .leftBrace) <| .seq (one .switchCaseList) (needed .rightBrace))
        (.seq (.missing (· == .leftBrace)) <|
          .seq (one .switchCaseList) (.missing (· == .rightBrace)))
  | .switchCaseList =>
    .many (.alt (.node fun k => k == .switchCase || k == .ifConfigDecl) skipped)
  | .switchCase =>
    .seq (opt (one .attributeList)) <|
      .seq (.node fun k => k == .switchCaseLabel || k == .switchDefaultLabel)
        (one .codeBlockItemList)
  | .switchCaseLabel => .seq (tok .caseKw) <| .seq (one .caseItemList) (needed .colon)
  | .switchDefaultLabel => .seq (needed .defaultKw) (needed .colon)
  | .caseItemList => list .caseItem
  | .caseItem => element (.seq pattern (opt (one .whereClause)))
  | .whereClause => .seq (tok .whereKw) expr
  | .conditionElementList => list .conditionElement
  | .conditionElement =>
    element (.node fun k =>
      k.isExpression || k == .optionalBindingCondition || k == .matchingPatternCondition)
  | .optionalBindingCondition =>
    .seq (.token fun k => k == .letKw || k == .varKw) <| .seq pattern <|
      .seq (opt (one .typeClause)) (opt (one .initializerClause))
  | .matchingPatternCondition =>
    .seq (tok .caseKw) <| .seq pattern <| .seq (opt (one .typeClause)) <|
      .seq (needed .equal) expr
  | .ifConfigDecl =>
    .seq (one .ifConfigClause) <| .seq (list .ifConfigClause) (needed .poundEndif)
  | .ifConfigClause =>
    .seq (.token fun k => k == .poundIf || k == .poundElseif || k == .poundElse) <|
      .seq (opt expr) (.node fun k => k == .codeBlockItemList || k == .switchCaseList)
  -- declarations
  | .variableDecl =>
    .seq (opt (one .attributeList)) <| .seq (list .declModifier) <|
      .seq (.alt (tok .letKw) (needed .varKw)) (one .patternBindingList)
  | .functionDecl =>
    .seq (opt (one .attributeList)) <| .seq (list .declModifier) <| .seq (tok .funcKw) <|
      .seq (nameAmong fun k => k == .identifier || k.isOperator) <|
        .seq (one .functionSignature) (opt (one .codeBlock))
  | .declModifier => .seq modifierWord (opt modifierDetail)
  | .patternBindingList => list .patternBinding
  | .patternBinding =>
    element (.seq pattern <| .seq (opt (one .typeClause)) <|
      .seq (opt (one .initializerClause)) (opt (one .codeBlock)))
  | .typeClause => .seq (needed .colon) type
  | .initializerClause => .seq (needed .equal) expr
  | .functionSignature =>
    .seq (one .parameterClause) <| .seq (opt (one .effectSpecifiers)) (opt (one .returnClause))
  | .parameterClause =>
    .alt (.seq (tok .leftParen) <| .seq (elements .parameter) (needed .rightParen))
      (.seq (.missing (· == .leftParen)) (.missing (· == .rightParen)))
  | .parameter =>
    element (.seq (opt (one .attributeList)) <| .seq parameterNames <|
      .seq (opt (.seq (needed .colon) type)) <| .seq (opt (.token Kind.isOperator)) <|
        opt (one .defaultArgument))
  | .defaultArgument => .seq (tok .equal) expr
  | .effectSpecifiers =>
    .many (.token fun k => k == .asyncKw || k == .throwsKw || k == .rethrowsKw)
  | .returnClause => .seq (needed .arrow) type
  | .attributeList => list .attribute
  | .attribute =>
    .seq (tok .atSign) <| .seq (nameAmong isName) (opt (one .attributeArguments))
  | .attributeArguments =>
    .seq (tok .leftParen) <| .seq (.many (.token fun _ => true)) (needed .rightParen)
  -- patterns
  | .identifierPattern => .token fun k => k == .identifier || k == .selfKw
  | .wildcardPattern => tok .underscore
  | .tuplePattern =>
    .seq (tok .leftParen) <| .seq (elements .tuplePatternElement) (needed .rightParen)
  | .tuplePatternElement => element (.seq (opt label) pattern)
  | .valueBindingPattern => .seq (.token fun k => k == .letKw || k == .varKw) pattern
  | .expressionPattern => expr
  | .isTypePattern => .seq (tok .isKw) type
  -- operators
  | .binaryExpr =>
    .seq expr <| .seq (.token fun k => k == .equal || k == .binaryOperator) expr
  | .ternaryExpr =>
    .seq expr <| .seq (tok .infixQuestionMark) <| .seq expr <| .seq (needed .colon) expr
  | .arrowExpr => .seq expr <| .seq (opt (one .effectSpecifiers)) <| .seq (needed .arrow) expr
  | .castExpr => .seq expr <| .seq (tok .asKw) <| .seq (opt (tok .postfixOperator)) type
  | .isExpr => .seq expr <| .seq (tok .isKw) type
  | .prefixExpr => .seq (tok .prefixOperator) expr
  | .tryExpr => .seq (tok .tryKw) <| .seq (opt (tok .postfixOperator)) expr
  | .awaitExpr => .seq (tok .awaitKw) expr
  | .moveExpr => .seq (tok .moveKw) expr
  | .postfixExpr | .forceUnwrapExpr | .optionalChainingExpr => .seq expr (tok .postfixOperator)
  -- operands
  | .identifierExpr =>
    .token fun k => k == .identifier || k == .dollarIdentifier || k == .selfKw
      || k == .capitalSelfKw || k == .superKw || k == .initKw
  | .discardExpr => tok .underscore
  | .booleanLiteralExpr => .token fun k => k == .trueKw || k == .falseKw
  | .nilLiteralExpr => tok .nilKw
  | .integerLiteralExpr => tok .integerLiteral
  | .floatLiteralExpr => tok .floatLiteral
  | .regexLiteralExpr => tok .regexLiteral
  | .editorPlaceholderExpr => tok .editorPlaceholder
  | .operatorRefExpr => .token Kind.isOperator
  | .stringLiteralExpr =>
    .seq (opt (tok .rawStringDelimiter)) <|
      .seq (.alt (.token Kind.isStringQuote) (.missing Kind.isStringQuote)) <|
        .seq (one .stringSegmentList) <|
          .alt (.seq (.token Kind.isStringQuote) (opt (needed .rawStringDelimiter)))
            (.seq (.missing Kind.isStringQuote) (opt (.missing (· == .rawStringDelimiter))))
  | .stringSegmentList => .many (.alt (tok .stringSegment) (one .expressionSegment))
  | .expressionSegment =>
    .seq (tok .backslash) <| .seq (needed .leftParen) <|
      .seq (one .argumentList) (needed .rightParen)
  | .tupleExpr => .seq (tok .leftParen) <| .seq (one .tupleElementList) (needed .rightParen)
  | .tupleElementList => elements .tupleElement
  | .tupleElement => element (.seq (opt label) expr)
  | .arrayExpr => .seq (tok .leftBracket) <| .seq (one .arrayElementList) (needed .rightBracket)
  | .arrayElementList => bracketElements .arrayElement
  | .arrayElement => bracketElement false
  | .dictionaryExpr =>
    .seq (tok .leftBracket) <| .seq (opt (tok .colon)) <|
      .seq (one .dictionaryElementList) (needed .rightBracket)
  | .dictionaryElementList => bracketElements .dictionaryElement
  | .dictionaryElement => bracketElement true
  | .closureExpr =>
    .seq (needed .leftBrace) <| .seq (opt (one .closureSignature)) <|
      .seq (one .codeBlockItemList) (needed .rightBrace)
  | .closureSignature =>
    .seq (opt (one .attributeList)) <| .seq (opt (one .closureCaptureClause)) <|
      .seq (.alt (one .parameterClause) (opt (one .closureParamList))) <|
        .seq (opt (one .effectSpecifiers)) <| .seq (opt (one .returnClause)) (needed .inKw)
  | .closureCaptureClause =>
    .seq (tok .leftBracket) <| .seq (elements .closureCapture) (needed .rightBracket)
  | .closureCapture =>
    element (.seq (opt captureSpecifier) <| .seq (opt (.seq word (tok .equal))) expr)
  | .closureParamList => list .closureParam
  | .closureParam => element word
  | .functionCallExpr =>
    .seq expr <| .alt
      (.seq (tok .leftParen) <| .seq (one .argumentList) <| .seq (needed .rightParen) <|
        opt trailing)
      trailing
  | .subscriptExpr =>
    .seq expr <| .seq (tok .leftBracket) <| .seq (one .argumentList) <|
      .seq (needed .rightBracket) (opt trailing)
  | .argumentList => elements .labeledArgument
  | .labeledArgument => element (.seq (opt label) expr)
  | .additionalTrailingClosure => .seq label (one .closureExpr)
  | .memberAccessExpr => .seq expr <| .seq (tok .period) member
  | .implicitMemberExpr => .seq (tok .period) member
  | .specializeExpr => .seq expr (one .genericArgumentClause)
  | .genericArgumentClause =>
    .seq (tok .leftAngle) <| .seq (list .genericArgument) (needed .rightAngle)
  | .genericArgument => element type
  | .keyPathExpr =>
    .seq (tok .backslash) <| .seq (opt (.node fun k => k.isType || k == .tupleExpr)) <|
      .node fun k => k.isExpression || k == .keyPathComponentList
  | .keyPathComponentList => list .keyPathComponent
  | .keyPathComponent =>
    .alt (.seq (tok .period) keyPathMember) <|
      .alt (tok .postfixOperator) (arguments .leftBracket .rightBracket)
  | .macroExpansionExpr | .objectLiteralExpr =>
    .seq (tok .poundIdentifier) <| .alt poundKeyPath (opt (arguments .leftParen .rightParen))
  | .typeExpr => type
  | .patternExpr => pattern
  -- types
  | .simpleType =>
    .seq (.token fun k => k == .identifier || k == .capitalSelfKw)
      (opt (one .genericArgumentClause))
  | .memberType =>
    .seq type <| .seq (tok .period) <| .seq word (opt (one .genericArgumentClause))
  | .optionalType | .implicitlyUnwrappedType => .seq type (.token Kind.isOperator)
  | .arrayType =>
    .seq (tok .leftBracket) <| .seq type <| .seq skipped (needed .rightBracket)
  | .dictionaryType =>
    .seq (tok .leftBracket) <| .seq type <| .seq (tok .colon) <| .seq type <|
      .seq skipped (needed .rightBracket)
  | .tupleType =>
    .seq (tok .leftParen) <| .seq (opt (list .tupleTypeElement)) <| .seq skipped <|
      needed .rightParen
  | .tupleTypeElement =>
    element (.seq typeLabels <| .seq type (opt (.token Kind.isOperator)))
  | .functionType =>
    .seq (tok .leftParen) <| .seq (opt (list .tupleTypeElement)) <| .seq skipped <|
      .seq (needed .rightParen) <| .seq (opt (one .effectSpecifiers)) <|
        .seq (needed .arrow) type
  | .attributedType => .seq (opt (one .attributeList)) <| .seq (opt (tok .inoutKw)) type
  | .someOrAnyType => .seq (.token fun k => k == .someKw || k == .anyKw) type
  | .compositionType => .seq type (.many (.seq (tok .binaryOperator) type))
  -- placeholders, and what is no node
  | _ => .nothing

/-! ## Every node of a tree -/

namespace Green

mutual

/-- Whether something holds of the kind and the children of every node of a tree. -/
def Deep (p : Kind → List Green → Prop) : Green → Prop
  | .node kind cs => p kind cs ∧ DeepAll p cs
  | .leaf _ => True

/-- Whether something holds of the kind and the children of every node of several trees. -/
def DeepAll (p : Kind → List Green → Prop) : List Green → Prop
  | [] => True
  | g :: gs => g.Deep p ∧ DeepAll p gs

end

variable {p : Kind → List Green → Prop}

/-- Something holds of every node of several trees if it does in each of them. -/
theorem deepAll_iff {gs : List Green} : DeepAll p gs ↔ ∀ g ∈ gs, g.Deep p := by
  induction gs with
  | nil => simp [DeepAll]
  | cons g gs ih => rw [DeepAll, ih, List.forall_mem_cons]

theorem deepAll_append {gs hs : List Green} :
    DeepAll p (gs ++ hs) ↔ DeepAll p gs ∧ DeepAll p hs := by
  simp only [deepAll_iff, List.forall_mem_append]

mutual

/-- What holds of every node can be weakened. -/
theorem Deep.imp {q : Kind → List Green → Prop} (h : ∀ kind cs, p kind cs → q kind cs) :
    {g : Green} → g.Deep p → g.Deep q
  | .node kind cs, hg => ⟨h kind cs hg.1, DeepAll.imp h hg.2⟩
  | .leaf _, _ => trivial

theorem DeepAll.imp {q : Kind → List Green → Prop} (h : ∀ kind cs, p kind cs → q kind cs) :
    {gs : List Green} → DeepAll p gs → DeepAll q gs
  | [], _ => trivial
  | _ :: _, hgs => ⟨hgs.1.imp h, DeepAll.imp h hgs.2⟩

end

end Green

end SwiftTree
