import SwiftTree.Grammar.Closure

/-!
# Operands

An operand is a name, a literal, a bracketed expression, a closure, a key path or a macro, with the
calls, subscripts, members and operators that are attached behind it.
-/

namespace SwiftTree.Grammar

/-! ### Names -/

/-- The name of a member: a name, a keyword, or the index of a tuple element. -/
def memberName : Parser Unit := do
  if ← look fun ts => ts.isName || ts.isAt .integerLiteral || ts.isAt .editorPlaceholder then
    advance
  else
    missing .identifier

/-- Generic arguments behind the name that was read. -/
def specialize : Parser Unit :=
  ifAhead Ahead.isGenericArguments do
    enclose .specializeExpr genericArgumentClause

/-- Whether a name binds, rather than start a member access, a call or a generic type. -/
def Ahead.isBindingName (ts : Ahead) : Bool :=
  ts.isAt .identifier
    && !(adjacent ts.tail && (isAt .period ts.tail || isAt .leftParen ts.tail
      || (text ts.tail).head? == some '<'))

/-- A name. -/
def identifier (mode : Mode) : Parser Unit := do
  if ← look fun ts => mode.bindingPattern && ts.isBindingName then
    node .patternExpr (tokenNode .identifierPattern)
  else
    tokenNode .identifierExpr
    specialize

/-- A member of a type that the context gives. -/
def implicitMember : Parser Unit := do
  node .implicitMemberExpr do
    advance
    memberName
  specialize

/-- A type in the place of an expression. -/
def typeExpr : Parser Unit := node .typeExpr type

/-! ### String literals -/

/-- An interpolation, with arguments that may have labels. -/
def interpolation : Parser Unit :=
  node .expressionSegment do
    advance
    require .leftParen
    argumentList .rightParen .empty .plain
    require .rightParen

/-- The segments and interpolations of a string literal. -/
def stringSegments : Parser Unit :=
  node .stringSegmentList do
    repeatWhile do
      if ← isAt .stringSegment then
        advance
        return true
      else if ← look fun ts => ts.isAt .backslash && !ts.atLineStart then
        interpolation
        return true
      else
        return false

/-- The length of the raw delimiter here, if there is one. -/
def Ahead.pounds (ts : Ahead) : Nat := if ts.isAt .rawStringDelimiter then ts.text.length else 0

/-- The quote here. -/
def Ahead.quote? (ts : Ahead) : Option SolidKind :=
  match ts.kind with
  | .stringQuote => some ⟨.stringQuote, rfl⟩
  | .multilineStringQuote => some ⟨.multilineStringQuote, rfl⟩
  | .singleQuote => some ⟨.singleQuote, rfl⟩
  | _ => none

/-- The opening quote of a string literal, and its kind. -/
def openingQuote : Parser SolidKind := do
  match ← look Ahead.quote? with
  | some quote =>
    advance
    return quote
  | none =>
    missing .stringQuote
    return ⟨.stringQuote, rfl⟩

/-- The closing quote of a string literal. One that is not closed gets a missing quote, and a
missing delimiter of the same length as the opening one. -/
def closingQuote (pounds : Nat) (quote : SolidKind) : Parser Unit := do
  if ← look fun ts => ts.isAt quote && !ts.atLineStart then
    advance
    onlyIf (pounds > 0) (require .rawStringDelimiter)
  else
    missing quote quote.2
    onlyIf (pounds > 0) (missingSpelled .rawStringDelimiter (List.replicate pounds '#'))

/-- A string literal. -/
def stringLiteral : Parser Unit :=
  node .stringLiteralExpr do
    let pounds ← look Ahead.pounds
    skip .rawStringDelimiter
    let quote ← openingQuote
    stringSegments
    closingQuote pounds quote

/-! ### Tuples, arrays and dictionaries -/

/-- Whether a list of elements in brackets ends here. -/
def Ahead.endsElements (ts : Ahead) : Bool :=
  ts.isAt .rightBracket || ts.isAt .rightParen || ts.isAt .rightBrace || ts.isAt .endOfFile

/-- Expressions between parentheses. -/
def tuple (mode : Mode) : Parser Unit :=
  node .tupleExpr do
    advance
    node .tupleElementList do
      unlessAt .rightParen do
        commaList .tupleElement Ahead.endsElements do
          label
          expr mode
        skipToCloser .rightParen parenBarriers
    require .rightParen

/-- What follows the first expression of an element of a bracket literal. -/
def elementValue (dictionary : Bool) (mode : Mode) : Parser Unit :=
  onlyIf dictionary do
    require .colon
    expr mode

/-- The kind of an element of a bracket literal. -/
def elementKind (dictionary : Bool) : Construct :=
  if dictionary then ⟨.dictionaryElement, rfl⟩ else ⟨.arrayElement, rfl⟩

/-- The first element of a bracket literal. It tells whether the literal is a dictionary, and
whether another element follows. -/
def firstElement (mode : Mode) : Parser (Bool × Bool) :=
  nodeBy do
    expr mode
    let dictionary ← isAt .colon
    elementValue dictionary mode
    let comma ← eat .comma
    return (elementKind dictionary, dictionary, comma)

/-- The elements of a bracket literal behind the first one. -/
def moreElements (dictionary : Bool) (mode : Mode) : Parser Unit :=
  commaList (elementKind dictionary) Ahead.endsElements (do
    expr mode
    elementValue dictionary mode) (elementKind dictionary).2

/-- The elements of a bracket literal that is not empty. The answer says whether it is a
dictionary. -/
def bracketElements (mode : Mode) : Parser Bool :=
  nodeBy do
    let (dictionary, comma) ← firstElement mode
    ifAhead (fun ts => comma && !ts.endsElements) (moreElements dictionary mode)
    skipToCloser .rightBracket bracketBarriers
    return (if dictionary then ⟨.dictionaryElementList, rfl⟩ else ⟨.arrayElementList, rfl⟩,
      dictionary)

/-- An array or dictionary literal. A colon behind the first element makes it a dictionary. -/
def bracketLiteral (mode : Mode) : Parser Unit :=
  nodeBy do
    advance
    if ← isAt .rightBracket then
      emptyNode .arrayElementList
      advance
      return (⟨.arrayExpr, rfl⟩, ())
    else if ← look fun ts => ts.isAt .colon && Ahead.isAt .rightBracket ts.tail then
      advance
      emptyNode .dictionaryElementList
      advance
      return (⟨.dictionaryExpr, rfl⟩, ())
    else
      let dictionary ← bracketElements mode
      require .rightBracket
      return (if dictionary then ⟨.dictionaryExpr, rfl⟩ else ⟨.arrayExpr, rfl⟩, ())

/-! ### Key paths and macros -/

/-- Arguments between brackets in a key path. -/
def keyPathSubscript : Parser Unit := do
  advance
  argumentList .rightBracket bracketBarriers .plain
  require .rightBracket

/-- A member in a key path. -/
def keyPathMember : Parser Unit := do
  advance
  if ← isAt .leftBracket then keyPathSubscript else memberName

/-- A component of a key path. The answer says whether there is one. -/
def keyPathComponent : Parser Bool :=
  nodeIf .keyPathComponent do
    if ← isAt .period then
      keyPathMember
      return true
    else if ← look fun ts =>
        ts.isAt .postfixOperator && (ts.isSpelled "?" || ts.isSpelled "!") then
      advance
      return true
    else if ← look fun ts => ts.isAt .leftBracket && ts.adjacent then
      keyPathSubscript
      return true
    else
      return false

/-- The components of a key path. -/
def keyPathComponents : Parser Unit :=
  node .keyPathComponentList (repeatWhile keyPathComponent)

/-- The root of a key path. The answer says whether it is a name. -/
def keyPathRoot : Parser Bool := do
  match ← look Ahead.kind with
  | .period => return false
  | .identifier | .capitalSelfKw =>
    namedType
    optionalSuffixes
    return true
  | .leftParen =>
    tuple .plain
    return false
  | _ =>
    placeholder .missingType
    return false

/-- A name that something is attached to, behind a root without components. -/
def Ahead.isAttachedName (ts : Ahead) : Bool :=
  ts.isAt .identifier && adjacent ts.tail
    && (isAt .leftBracket ts.tail || isAt .leftParen ts.tail || isAt .period ts.tail)

/-- A key path. When nothing usable follows its root, the path itself is missing. -/
def keyPath : Parser Unit :=
  node .keyPathExpr do
    advance
    let named ← keyPathRoot
    if ← isAt .period then keyPathComponents
    else if ← look fun ts => named && ts.isAttachedName then visit (.operand .plain)
    else placeholder .missingExpr

/-- A name in the parentheses of `#keyPath`. -/
def poundKeyPathName : Parser Unit := do
  if ← look fun ts => ts.isAt .identifier || ts.isAt .selfKw then advance
  else missing .identifier

/-- A name in the parentheses of `#keyPath`, and the dot behind it. The answer says whether there is
a dot. -/
def poundKeyPathPart : Parser Bool := do
  poundKeyPathName
  if ← look fun ts => ts.isAt .period && !ts.atLineStart then
    advance
    return true
  else
    return false

/-- The dotted name in the parentheses of `#keyPath`. -/
def poundKeyPath : Parser Unit := do
  if ← expect .leftParen then
    repeatWhile poundKeyPathPart
    require .rightParen
  else
    pure ()

/-- Macros that stand for a value of a known type. -/
def objectLiterals : List String := ["#colorLiteral", "#imageLiteral", "#fileLiteral"]

/-- The arguments of a macro, where a parenthesis on the same line opens them. -/
def poundArguments (mode : Mode) : Parser Unit :=
  ifAhead (fun ts => ts.isAt .leftParen && !ts.atLineStart) do
    advance
    argumentList .rightParen parenBarriers mode.nested
    require .rightParen

/-- What follows the name of a macro. -/
def poundRest (isKeyPath : Bool) (mode : Mode) : Parser Unit :=
  if isKeyPath then poundKeyPath else poundArguments mode

/-- A macro and its arguments. -/
def poundExpr (mode : Mode) : Parser Unit :=
  nodeBy do
    let isKeyPath ← look (Ahead.isSpelled "#keyPath")
    let isObject ← look fun ts => objectLiterals.any ts.isSpelled
    advance
    poundRest isKeyPath mode
    return (if isObject then ⟨.objectLiteralExpr, rfl⟩ else ⟨.macroExpansionExpr, rfl⟩, ())

/-! ### Operands -/

/-- An operand without what is attached behind it. The answer says whether it is missing. -/
def primary (mode : Mode) : Parser Bool := do
  let kind ← look Ahead.kind
  if ← look Ahead.isSomeOrAny then
    typeExpr
    return false
  else
    match kind with
    | .identifier | .dollarIdentifier | .selfKw | .capitalSelfKw | .superKw | .initKw =>
      identifier mode
      return false
    | .underscore =>
      tokenNode .discardExpr
      return false
    | .trueKw | .falseKw =>
      tokenNode .booleanLiteralExpr
      return false
    | .nilKw =>
      tokenNode .nilLiteralExpr
      return false
    | .integerLiteral =>
      tokenNode .integerLiteralExpr
      return false
    | .floatLiteral =>
      tokenNode .floatLiteralExpr
      return false
    | .regexLiteral =>
      tokenNode .regexLiteralExpr
      return false
    | .editorPlaceholder =>
      tokenNode .editorPlaceholderExpr
      return false
    | .rawStringDelimiter | .stringQuote | .multilineStringQuote | .singleQuote =>
      stringLiteral
      return false
    | .leftParen =>
      tuple mode.nested
      return false
    | .leftBracket =>
      bracketLiteral mode.nested
      return false
    | .leftBrace =>
      visit .closure
      return false
    | .backslash =>
      keyPath
      return false
    | .period =>
      implicitMember
      return false
    | .poundIdentifier =>
      poundExpr mode
      return false
    | .atSign =>
      typeExpr
      return false
    | .letKw | .varKw =>
      node .patternExpr (valueBinding mode)
      return false
    | _ =>
      if ← look Ahead.isOperatorRef then
        tokenNode .operatorRefExpr
        return false
      else
        placeholder .missingExpr
        return true

/-- A call with the operand that was read. -/
def callSuffix (mode : Mode) : Parser Unit :=
  enclose .functionCallExpr do
    advance
    argumentList .rightParen parenBarriers mode.nested
    require .rightParen
    optionalTrailingClosures mode

/-- A subscript of the operand that was read. -/
def subscriptSuffix (mode : Mode) : Parser Unit :=
  enclose .subscriptExpr do
    advance
    argumentList .rightBracket bracketBarriers mode.nested
    require .rightBracket
    optionalTrailingClosures mode

/-- A member of the operand that was read. -/
def memberSuffix : Parser Unit := do
  enclose .memberAccessExpr do
    advance
    memberName
  specialize

/-- A postfix operator behind the operand that was read. -/
def operatorSuffix : Parser Unit := do
  let kind : Construct ← look fun ts =>
    if ts.isSpelled "!" then ⟨.forceUnwrapExpr, rfl⟩
    else if ts.isSpelled "?" then ⟨.optionalChainingExpr, rfl⟩
    else ⟨.postfixExpr, rfl⟩
  enclose kind advance kind.isConstruct

/-- The ways to go on behind an operand without an operator between. -/
inductive Suffix where
  | member | call | subscript | operator | closure
deriving DecidableEq, Repr

/-- What is attached here behind an operand. -/
def Ahead.suffix? (mode : Mode) (ts : Ahead) : Option Suffix :=
  if mode.directive && ts.atLineStart then none
  else
    match ts.kind with
    | .period => some .member
    | .leftParen => if ts.atLineStart then none else some .call
    | .leftBracket => if ts.atLineStart then none else some .subscript
    | .postfixOperator => some .operator
    | .leftBrace => if ts.atLineStart || mode.noTrailingClosure then none else some .closure
    | _ => none

/-- What is attached behind the operand that was read. -/
def suffixRule (mode : Mode) : Suffix → Parser Unit
  | .member => memberSuffix
  | .call => callSuffix mode
  | .subscript => subscriptSuffix mode
  | .operator => operatorSuffix
  | .closure => enclose .functionCallExpr trailingClosures

/-- An operand with everything that is attached behind it. The answer says whether it is missing. -/
def operandRule (mode : Mode) : Parser Bool := do
  if ← primary mode then
    return true
  else
    repeatWhile do
      match ← look (Ahead.suffix? mode) with
      | none => return false
      | some suffix =>
        suffixRule mode suffix
        return true
    return false

end SwiftTree.Grammar
