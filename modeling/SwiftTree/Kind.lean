/-!
# Kinds of tokens and tree nodes

One enumeration names every token and every node of a tree. Its order is part of the interface
(`Kind.ordinal`): tokens come first, and among them the keywords stand together, so that
`Kind.isToken` and `Kind.isKeyword` are comparisons of ordinals. `Kind.all` lists the kinds in that
order and `Kind.name` gives the spelling under which a kind is printed.
-/

namespace SwiftTree

/-- What a token or a node is. -/
inductive Kind where
  -- punctuation
  | leftParen | rightParen | leftBracket | rightBracket | leftBrace | rightBrace | leftAngle
  | rightAngle | comma | colon | semicolon | period | equal | arrow | atSign | pound | backslash
  | infixQuestionMark
  -- reserved words
  | letKw | varKw | funcKw | ifKw | elseKw | guardKw | switchKw | caseKw | defaultKw | doKw
  | catchKw | forKw | inKw | whileKw | repeatKw | returnKw | breakKw | continueKw | throwKw
  | throwsKw | rethrowsKw | deferKw | fallthroughKw | whereKw | asKw | isKw | tryKw | trueKw
  | falseKw | nilKw | selfKw | capitalSelfKw | superKw | initKw | inoutKw
  -- words that are keywords only where the grammar asks for one
  | asyncKw | awaitKw | moveKw | anyKw | someKw | weakKw | unownedKw
  -- `#` words
  | poundIf | poundElseif | poundElse | poundEndif | poundIdentifier
  -- names, literals and operators
  | identifier | dollarIdentifier | underscore | editorPlaceholder | integerLiteral
  | floatLiteral | regexLiteral | binaryOperator | prefixOperator | postfixOperator
  -- parts of a string literal
  | rawStringDelimiter | stringQuote | multilineStringQuote | singleQuote | stringSegment
  -- the remaining tokens
  | unknown | endOfFile
  -- roots and blocks
  | sourceFile | sourceFragment | codeBlock | codeBlockItemList
  -- statements and their parts
  | ifStmt | guardStmt | switchStmt | switchCaseList | switchCase | switchCaseLabel
  | switchDefaultLabel | caseItemList | caseItem | whereClause | doStmt | catchClause
  | catchItemList | catchItem | forStmt | whileStmt | repeatStmt | returnStmt | breakStmt
  | continueStmt | throwStmt | deferStmt | fallthroughStmt | labeledStmt | conditionElementList
  | conditionElement | optionalBindingCondition | matchingPatternCondition
  -- conditional compilation
  | ifConfigDecl | ifConfigClause
  -- declarations and their parts
  | variableDecl | declModifier | patternBindingList | patternBinding | typeClause
  | initializerClause | functionDecl | functionSignature | parameterClause | parameter
  | defaultArgument | effectSpecifiers | returnClause | attributeList | attribute
  | attributeArguments
  -- patterns
  | identifierPattern | wildcardPattern | tuplePattern | tuplePatternElement
  | valueBindingPattern | expressionPattern | isTypePattern | missingPattern
  -- expressions and their parts
  | binaryExpr | ternaryExpr | arrowExpr | castExpr | isExpr | prefixExpr | postfixExpr
  | forceUnwrapExpr | optionalChainingExpr | tryExpr | awaitExpr | moveExpr | identifierExpr
  | discardExpr | booleanLiteralExpr | nilLiteralExpr | integerLiteralExpr | floatLiteralExpr
  | stringLiteralExpr | stringSegmentList | expressionSegment | regexLiteralExpr | tupleExpr
  | tupleElementList | tupleElement | arrayExpr | arrayElementList | arrayElement
  | dictionaryExpr | dictionaryElementList | dictionaryElement | closureExpr | closureSignature
  | closureCaptureClause | closureCapture | closureParamList | closureParam | functionCallExpr
  | subscriptExpr | argumentList | labeledArgument | additionalTrailingClosure | memberAccessExpr
  | implicitMemberExpr | specializeExpr | genericArgumentClause | genericArgument | keyPathExpr
  | keyPathComponentList | keyPathComponent | macroExpansionExpr | objectLiteralExpr
  | editorPlaceholderExpr | operatorRefExpr | typeExpr | patternExpr | missingExpr
  -- types
  | simpleType | memberType | optionalType | implicitlyUnwrappedType | arrayType | dictionaryType
  | tupleType | tupleTypeElement | functionType | attributedType | someOrAnyType
  | compositionType | missingType
  -- text that no rule wanted, and a kind that no tree holds
  | unexpected | tombstone
deriving DecidableEq, Repr, Inhabited

namespace Kind

/-- Every kind, in the order of the enumeration. -/
def all : List Kind := [
  .leftParen, .rightParen, .leftBracket, .rightBracket, .leftBrace, .rightBrace, .leftAngle,
  .rightAngle, .comma, .colon, .semicolon, .period, .equal, .arrow, .atSign, .pound, .backslash,
  .infixQuestionMark, .letKw, .varKw, .funcKw, .ifKw, .elseKw, .guardKw, .switchKw, .caseKw,
  .defaultKw, .doKw, .catchKw, .forKw, .inKw, .whileKw, .repeatKw, .returnKw, .breakKw,
  .continueKw, .throwKw, .throwsKw, .rethrowsKw, .deferKw, .fallthroughKw, .whereKw, .asKw,
  .isKw, .tryKw, .trueKw, .falseKw, .nilKw, .selfKw, .capitalSelfKw, .superKw, .initKw, .inoutKw,
  .asyncKw, .awaitKw, .moveKw, .anyKw, .someKw, .weakKw, .unownedKw, .poundIf, .poundElseif,
  .poundElse, .poundEndif, .poundIdentifier, .identifier, .dollarIdentifier, .underscore,
  .editorPlaceholder, .integerLiteral, .floatLiteral, .regexLiteral, .binaryOperator,
  .prefixOperator, .postfixOperator, .rawStringDelimiter, .stringQuote, .multilineStringQuote,
  .singleQuote, .stringSegment, .unknown, .endOfFile, .sourceFile, .sourceFragment, .codeBlock,
  .codeBlockItemList, .ifStmt, .guardStmt, .switchStmt, .switchCaseList, .switchCase,
  .switchCaseLabel, .switchDefaultLabel, .caseItemList, .caseItem, .whereClause, .doStmt,
  .catchClause, .catchItemList, .catchItem, .forStmt, .whileStmt, .repeatStmt, .returnStmt,
  .breakStmt, .continueStmt, .throwStmt, .deferStmt, .fallthroughStmt, .labeledStmt,
  .conditionElementList, .conditionElement, .optionalBindingCondition, .matchingPatternCondition,
  .ifConfigDecl, .ifConfigClause, .variableDecl, .declModifier, .patternBindingList,
  .patternBinding, .typeClause, .initializerClause, .functionDecl, .functionSignature,
  .parameterClause, .parameter, .defaultArgument, .effectSpecifiers, .returnClause,
  .attributeList, .attribute, .attributeArguments, .identifierPattern, .wildcardPattern,
  .tuplePattern, .tuplePatternElement, .valueBindingPattern, .expressionPattern, .isTypePattern,
  .missingPattern, .binaryExpr, .ternaryExpr, .arrowExpr, .castExpr, .isExpr, .prefixExpr,
  .postfixExpr, .forceUnwrapExpr, .optionalChainingExpr, .tryExpr, .awaitExpr, .moveExpr,
  .identifierExpr, .discardExpr, .booleanLiteralExpr, .nilLiteralExpr, .integerLiteralExpr,
  .floatLiteralExpr, .stringLiteralExpr, .stringSegmentList, .expressionSegment,
  .regexLiteralExpr, .tupleExpr, .tupleElementList, .tupleElement, .arrayExpr, .arrayElementList,
  .arrayElement, .dictionaryExpr, .dictionaryElementList, .dictionaryElement, .closureExpr,
  .closureSignature, .closureCaptureClause, .closureCapture, .closureParamList, .closureParam,
  .functionCallExpr, .subscriptExpr, .argumentList, .labeledArgument, .additionalTrailingClosure,
  .memberAccessExpr, .implicitMemberExpr, .specializeExpr, .genericArgumentClause,
  .genericArgument, .keyPathExpr, .keyPathComponentList, .keyPathComponent, .macroExpansionExpr,
  .objectLiteralExpr, .editorPlaceholderExpr, .operatorRefExpr, .typeExpr, .patternExpr,
  .missingExpr, .simpleType, .memberType, .optionalType, .implicitlyUnwrappedType, .arrayType,
  .dictionaryType, .tupleType, .tupleTypeElement, .functionType, .attributedType, .someOrAnyType,
  .compositionType, .missingType, .unexpected, .tombstone]

/-- The place of a kind in the enumeration. -/
def ordinal (k : Kind) : Nat := k.ctorIdx

/-- How many kinds there are. -/
def count : Nat := 212

theorem mem_all (k : Kind) : k ∈ all := List.mem_of_getElem? (i := k.ordinal) (by cases k <;> rfl)

theorem ordinal_lt (k : Kind) : k.ordinal < count := by
  cases k <;> decide

/-- Kinds are told apart by their ordinals. -/
theorem eq_of_ordinal_eq {k l : Kind} (h : k.ordinal = l.ordinal) : k = l := by
  rw [← ofNat_ctorIdx k, ← ofNat_ctorIdx l]
  exact congrArg Kind.ofNat h

/-- The name under which a kind is printed. -/
def name : Kind → String
  | .leftParen => "LEFT_PAREN"
  | .rightParen => "RIGHT_PAREN"
  | .leftBracket => "LEFT_BRACKET"
  | .rightBracket => "RIGHT_BRACKET"
  | .leftBrace => "LEFT_BRACE"
  | .rightBrace => "RIGHT_BRACE"
  | .leftAngle => "LEFT_ANGLE"
  | .rightAngle => "RIGHT_ANGLE"
  | .comma => "COMMA"
  | .colon => "COLON"
  | .semicolon => "SEMICOLON"
  | .period => "PERIOD"
  | .equal => "EQ"
  | .arrow => "ARROW"
  | .atSign => "AT"
  | .pound => "POUND"
  | .backslash => "BACKSLASH"
  | .infixQuestionMark => "INFIX_QUESTION_MARK"
  | .letKw => "LET_KW"
  | .varKw => "VAR_KW"
  | .funcKw => "FUNC_KW"
  | .ifKw => "IF_KW"
  | .elseKw => "ELSE_KW"
  | .guardKw => "GUARD_KW"
  | .switchKw => "SWITCH_KW"
  | .caseKw => "CASE_KW"
  | .defaultKw => "DEFAULT_KW"
  | .doKw => "DO_KW"
  | .catchKw => "CATCH_KW"
  | .forKw => "FOR_KW"
  | .inKw => "IN_KW"
  | .whileKw => "WHILE_KW"
  | .repeatKw => "REPEAT_KW"
  | .returnKw => "RETURN_KW"
  | .breakKw => "BREAK_KW"
  | .continueKw => "CONTINUE_KW"
  | .throwKw => "THROW_KW"
  | .throwsKw => "THROWS_KW"
  | .rethrowsKw => "RETHROWS_KW"
  | .deferKw => "DEFER_KW"
  | .fallthroughKw => "FALLTHROUGH_KW"
  | .whereKw => "WHERE_KW"
  | .asKw => "AS_KW"
  | .isKw => "IS_KW"
  | .tryKw => "TRY_KW"
  | .trueKw => "TRUE_KW"
  | .falseKw => "FALSE_KW"
  | .nilKw => "NIL_KW"
  | .selfKw => "SELF_KW"
  | .capitalSelfKw => "CAPITAL_SELF_KW"
  | .superKw => "SUPER_KW"
  | .initKw => "INIT_KW"
  | .inoutKw => "INOUT_KW"
  | .asyncKw => "ASYNC_KW"
  | .awaitKw => "AWAIT_KW"
  | .moveKw => "MOVE_KW"
  | .anyKw => "ANY_KW"
  | .someKw => "SOME_KW"
  | .weakKw => "WEAK_KW"
  | .unownedKw => "UNOWNED_KW"
  | .poundIf => "POUND_IF"
  | .poundElseif => "POUND_ELSEIF"
  | .poundElse => "POUND_ELSE"
  | .poundEndif => "POUND_ENDIF"
  | .poundIdentifier => "POUND_IDENTIFIER"
  | .identifier => "IDENTIFIER"
  | .dollarIdentifier => "DOLLAR_IDENTIFIER"
  | .underscore => "UNDERSCORE"
  | .editorPlaceholder => "EDITOR_PLACEHOLDER"
  | .integerLiteral => "INTEGER_LITERAL"
  | .floatLiteral => "FLOAT_LITERAL"
  | .regexLiteral => "REGEX_LITERAL"
  | .binaryOperator => "BINARY_OPERATOR"
  | .prefixOperator => "PREFIX_OPERATOR"
  | .postfixOperator => "POSTFIX_OPERATOR"
  | .rawStringDelimiter => "RAW_STRING_DELIMITER"
  | .stringQuote => "STRING_QUOTE"
  | .multilineStringQuote => "MULTILINE_STRING_QUOTE"
  | .singleQuote => "SINGLE_QUOTE"
  | .stringSegment => "STRING_SEGMENT"
  | .unknown => "UNKNOWN"
  | .endOfFile => "EOF"
  | .sourceFile => "SOURCE_FILE"
  | .sourceFragment => "SOURCE_FRAGMENT"
  | .codeBlock => "CODE_BLOCK"
  | .codeBlockItemList => "CODE_BLOCK_ITEM_LIST"
  | .ifStmt => "IF_STMT"
  | .guardStmt => "GUARD_STMT"
  | .switchStmt => "SWITCH_STMT"
  | .switchCaseList => "SWITCH_CASE_LIST"
  | .switchCase => "SWITCH_CASE"
  | .switchCaseLabel => "SWITCH_CASE_LABEL"
  | .switchDefaultLabel => "SWITCH_DEFAULT_LABEL"
  | .caseItemList => "CASE_ITEM_LIST"
  | .caseItem => "CASE_ITEM"
  | .whereClause => "WHERE_CLAUSE"
  | .doStmt => "DO_STMT"
  | .catchClause => "CATCH_CLAUSE"
  | .catchItemList => "CATCH_ITEM_LIST"
  | .catchItem => "CATCH_ITEM"
  | .forStmt => "FOR_STMT"
  | .whileStmt => "WHILE_STMT"
  | .repeatStmt => "REPEAT_STMT"
  | .returnStmt => "RETURN_STMT"
  | .breakStmt => "BREAK_STMT"
  | .continueStmt => "CONTINUE_STMT"
  | .throwStmt => "THROW_STMT"
  | .deferStmt => "DEFER_STMT"
  | .fallthroughStmt => "FALLTHROUGH_STMT"
  | .labeledStmt => "LABELED_STMT"
  | .conditionElementList => "CONDITION_ELEMENT_LIST"
  | .conditionElement => "CONDITION_ELEMENT"
  | .optionalBindingCondition => "OPTIONAL_BINDING_CONDITION"
  | .matchingPatternCondition => "MATCHING_PATTERN_CONDITION"
  | .ifConfigDecl => "IF_CONFIG_DECL"
  | .ifConfigClause => "IF_CONFIG_CLAUSE"
  | .variableDecl => "VARIABLE_DECL"
  | .declModifier => "DECL_MODIFIER"
  | .patternBindingList => "PATTERN_BINDING_LIST"
  | .patternBinding => "PATTERN_BINDING"
  | .typeClause => "TYPE_ANNOTATION"
  | .initializerClause => "INITIALIZER_CLAUSE"
  | .functionDecl => "FUNCTION_DECL"
  | .functionSignature => "FUNCTION_SIGNATURE"
  | .parameterClause => "PARAMETER_CLAUSE"
  | .parameter => "PARAMETER"
  | .defaultArgument => "DEFAULT_ARGUMENT"
  | .effectSpecifiers => "EFFECT_SPECIFIERS"
  | .returnClause => "RETURN_CLAUSE"
  | .attributeList => "ATTRIBUTE_LIST"
  | .attribute => "ATTRIBUTE"
  | .attributeArguments => "ATTRIBUTE_ARGUMENTS"
  | .identifierPattern => "IDENTIFIER_PATTERN"
  | .wildcardPattern => "WILDCARD_PATTERN"
  | .tuplePattern => "TUPLE_PATTERN"
  | .tuplePatternElement => "TUPLE_PATTERN_ELEMENT"
  | .valueBindingPattern => "VALUE_BINDING_PATTERN"
  | .expressionPattern => "EXPRESSION_PATTERN"
  | .isTypePattern => "IS_TYPE_PATTERN"
  | .missingPattern => "MISSING_PATTERN"
  | .binaryExpr => "BINARY_EXPR"
  | .ternaryExpr => "TERNARY_EXPR"
  | .arrowExpr => "ARROW_EXPR"
  | .castExpr => "CAST_EXPR"
  | .isExpr => "IS_EXPR"
  | .prefixExpr => "PREFIX_EXPR"
  | .postfixExpr => "POSTFIX_EXPR"
  | .forceUnwrapExpr => "FORCE_UNWRAP_EXPR"
  | .optionalChainingExpr => "OPTIONAL_CHAINING_EXPR"
  | .tryExpr => "TRY_EXPR"
  | .awaitExpr => "AWAIT_EXPR"
  | .moveExpr => "MOVE_EXPR"
  | .identifierExpr => "IDENTIFIER_EXPR"
  | .discardExpr => "DISCARD_EXPR"
  | .booleanLiteralExpr => "BOOLEAN_LITERAL_EXPR"
  | .nilLiteralExpr => "NIL_LITERAL_EXPR"
  | .integerLiteralExpr => "INTEGER_LITERAL_EXPR"
  | .floatLiteralExpr => "FLOAT_LITERAL_EXPR"
  | .stringLiteralExpr => "STRING_LITERAL_EXPR"
  | .stringSegmentList => "STRING_SEGMENT_LIST"
  | .expressionSegment => "EXPRESSION_SEGMENT"
  | .regexLiteralExpr => "REGEX_LITERAL_EXPR"
  | .tupleExpr => "TUPLE_EXPR"
  | .tupleElementList => "TUPLE_ELEMENT_LIST"
  | .tupleElement => "TUPLE_ELEMENT"
  | .arrayExpr => "ARRAY_EXPR"
  | .arrayElementList => "ARRAY_ELEMENT_LIST"
  | .arrayElement => "ARRAY_ELEMENT"
  | .dictionaryExpr => "DICTIONARY_EXPR"
  | .dictionaryElementList => "DICTIONARY_ELEMENT_LIST"
  | .dictionaryElement => "DICTIONARY_ELEMENT"
  | .closureExpr => "CLOSURE_EXPR"
  | .closureSignature => "CLOSURE_SIGNATURE"
  | .closureCaptureClause => "CLOSURE_CAPTURE_CLAUSE"
  | .closureCapture => "CLOSURE_CAPTURE"
  | .closureParamList => "CLOSURE_PARAM_LIST"
  | .closureParam => "CLOSURE_PARAM"
  | .functionCallExpr => "FUNCTION_CALL_EXPR"
  | .subscriptExpr => "SUBSCRIPT_EXPR"
  | .argumentList => "ARGUMENT_LIST"
  | .labeledArgument => "LABELED_ARGUMENT"
  | .additionalTrailingClosure => "ADDITIONAL_TRAILING_CLOSURE"
  | .memberAccessExpr => "MEMBER_ACCESS_EXPR"
  | .implicitMemberExpr => "IMPLICIT_MEMBER_EXPR"
  | .specializeExpr => "SPECIALIZE_EXPR"
  | .genericArgumentClause => "GENERIC_ARGUMENT_CLAUSE"
  | .genericArgument => "GENERIC_ARGUMENT"
  | .keyPathExpr => "KEY_PATH_EXPR"
  | .keyPathComponentList => "KEY_PATH_COMPONENT_LIST"
  | .keyPathComponent => "KEY_PATH_COMPONENT"
  | .macroExpansionExpr => "MACRO_EXPANSION_EXPR"
  | .objectLiteralExpr => "OBJECT_LITERAL_EXPR"
  | .editorPlaceholderExpr => "EDITOR_PLACEHOLDER_EXPR"
  | .operatorRefExpr => "OPERATOR_REF_EXPR"
  | .typeExpr => "TYPE_EXPR"
  | .patternExpr => "PATTERN_EXPR"
  | .missingExpr => "MISSING_EXPR"
  | .simpleType => "SIMPLE_TYPE"
  | .memberType => "MEMBER_TYPE"
  | .optionalType => "OPTIONAL_TYPE"
  | .implicitlyUnwrappedType => "IMPLICITLY_UNWRAPPED_TYPE"
  | .arrayType => "ARRAY_TYPE"
  | .dictionaryType => "DICTIONARY_TYPE"
  | .tupleType => "TUPLE_TYPE"
  | .tupleTypeElement => "TUPLE_TYPE_ELEMENT"
  | .functionType => "FUNCTION_TYPE"
  | .attributedType => "ATTRIBUTED_TYPE"
  | .someOrAnyType => "SOME_OR_ANY_TYPE"
  | .compositionType => "COMPOSITION_TYPE"
  | .missingType => "MISSING_TYPE"
  | .unexpected => "UNEXPECTED"
  | .tombstone => "TOMBSTONE"

/-- The kind with a given printed name. -/
def ofName? (s : String) : Option Kind := all.find? fun k => k.name == s

/-- Reserved words and the words that a rule can turn into keywords. -/
def isKeyword (k : Kind) : Bool :=
  Kind.ordinal .letKw ≤ k.ordinal && k.ordinal ≤ Kind.ordinal .unownedKw

/-- Kinds of tokens, as opposed to kinds of inner nodes. -/
def isToken (k : Kind) : Bool := k.ordinal ≤ Kind.ordinal .endOfFile

/-- Kinds of the tokens that a text consists of: all tokens but the end of the file. -/
def isSolid (k : Kind) : Bool := k.ordinal < Kind.ordinal .endOfFile

/-- Kinds of inner nodes. The last kind of the enumeration is none of them: no tree holds it. -/
def isNode (k : Kind) : Bool := !k.isToken && k != .tombstone

/-- Nodes that stand for a required element that was not found. -/
def isMissingNode : Kind → Bool
  | .missingExpr | .missingPattern | .missingType => true
  | _ => false

/-- Kinds of the nodes that rules make of what they read: neither placeholders nor unexpected
text. -/
def isConstruct (k : Kind) : Bool := k.isNode && !k.isMissingNode && k != .unexpected

/-- Every token but the end of the file is a token. -/
theorem isToken_of_isSolid {k : Kind} (h : k.isSolid) : k.isToken := by
  simp only [isSolid, decide_eq_true_eq] at h
  simp only [isToken, decide_eq_true_eq]
  exact Nat.le_of_lt h

/-- The end of the file is no such token. -/
theorem ne_endOfFile_of_isSolid {k : Kind} (h : k.isSolid) : k ≠ .endOfFile := by
  rintro rfl
  exact absurd h (by decide)

/-- The kind of a node that is not decided yet is none. -/
theorem ne_tombstone_of_isNode {k : Kind} (h : k.isNode) : k ≠ .tombstone := by
  rintro rfl
  exact absurd h (by decide)

/-- What rules make is a node. -/
theorem isNode_of_isConstruct {k : Kind} (h : k.isConstruct) : k.isNode := by
  simp only [isConstruct, Bool.and_eq_true] at h
  exact h.1.1

/-- A placeholder is a node. -/
theorem isNode_of_isMissingNode {k : Kind} (h : k.isMissingNode) : k.isNode := by
  unfold isMissingNode at h
  split at h
  · rfl
  · rfl
  · rfl
  · cases h

/-- The three kinds that an operator has by its place between its neighbours. -/
def isOperator : Kind → Bool
  | .binaryOperator | .prefixOperator | .postfixOperator => true
  | _ => false

/-- The quotes that open and close a string literal. -/
def isStringQuote : Kind → Bool
  | .stringQuote | .multilineStringQuote | .singleQuote => true
  | _ => false

/-- Whether a token of the kind is written out, and is no part that only a string literal has. -/
def standsAlone (k : Kind) : Bool :=
  k.isSolid && !k.isStringQuote && k != .rawStringDelimiter && k != .stringSegment

/-- What stands alone is a token other than the end of the file. -/
theorem isSolid_of_standsAlone {k : Kind} (h : k.standsAlone) : k.isSolid := by
  simp only [standsAlone, Bool.and_eq_true] at h
  exact h.1.1.1

/-- The opening counterpart of a token that ends a delimited construct. A quote is its own. -/
def openingDelimiter : Kind → Option Kind
  | .rightParen => some .leftParen
  | .rightBracket => some .leftBracket
  | .rightBrace => some .leftBrace
  | .rightAngle => some .leftAngle
  | .stringQuote => some .stringQuote
  | .multilineStringQuote => some .multilineStringQuote
  | .singleQuote => some .singleQuote
  | _ => none

end Kind

/-- A kind of token that a text consists of. -/
abbrev SolidKind := {k : Kind // k.isSolid}

/-- A kind of node that a rule makes of what it reads. -/
abbrev Construct := {k : Kind // k.isConstruct}

theorem Construct.isConstruct (k : Construct) : k.1.isConstruct := k.2

/-- A kind of node that stands for what was not found. -/
abbrev Placeholder := {k : Kind // k.isMissingNode}

end SwiftTree
