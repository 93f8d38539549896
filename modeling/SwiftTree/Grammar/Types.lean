import SwiftTree.Grammar.Recovery

/-!
# Attributes and types

Types are names with generic arguments and members, collections, tuples, functions, and what may
stand before and behind them. The scanner takes the angle brackets and question marks of types for
operators, several of which it may have read as one; the rules here cut them apart.
-/

namespace SwiftTree.Grammar

/-! ### Attributes -/

/-- The arguments of an attribute, which are kept as they are. -/
def attributeArguments : Parser Unit :=
  node .attributeArguments do
    advance
    advanceBy (← look (Ahead.skipLength (Ahead.isAt .rightParen) 0))
    require .rightParen

/-- The name of an attribute. -/
def attributeName : Parser Unit := do
  if ← look Ahead.isName then advance else missing .identifier

/-- An attribute: `@` and a name, and arguments when a parenthesis touches it. -/
def singleAttribute : Parser Unit :=
  node .attribute do
    advance
    attributeName
    ifAhead (fun ts => ts.isAt .leftParen && ts.adjacent) attributeArguments

/-- The attributes here. -/
def attributeList : Parser Unit :=
  node .attributeList do
    whileAhead (Ahead.isAt .atSign) singleAttribute

/-- The attributes here, if there are any. -/
def attributes : Parser Unit := ifAt .atSign attributeList

namespace Ahead

/-! ### Looking at types -/

/-- Tokens that start a type. -/
def typeFirst : KindSet := .ofList
  [.identifier, .capitalSelfKw, .leftParen, .leftBracket, .atSign, .inoutKw]

/-- `some` or `any` before a type on the same line. -/
def isSomeOrAny (ts : Ahead) : Bool :=
  (ts.isWord "some" || ts.isWord "any") && isIn typeFirst ts.tail && !atLineStart ts.tail

/-- The operator of a composition. -/
def isComposition (ts : Ahead) : Bool := ts.isAt .binaryOperator && ts.isSpelled "&"

/-- An opening angle bracket that touches the name before it. -/
def isAdjacentAngle (ts : Ahead) : Bool := ts.isOperatorFrom '<' && ts.adjacent

/-- `async`, `throws` or `rethrows`. -/
def isEffect (ts : Ahead) : Bool := ts.isWord "async" || ts.isAt .throwsKw || ts.isAt .rethrowsKw

/-- The kind of optional type that the next token makes of the type before it: it touches the type
and consists of question and exclamation marks, of which the first one counts. -/
def optionalSuffix? (ts : Ahead) : Option Construct :=
  if ts.kind.isOperator && ts.adjacent && ts.text.all (fun c => c == '?' || c == '!') then
    match ts.text.head? with
    | some '?' => some ⟨.optionalType, rfl⟩
    | some '!' => some ⟨.implicitlyUnwrappedType, rfl⟩
    | _ => none
  else none

end Ahead

/-! ### Types -/

/-- A type. -/
def type : Parser Unit := visit .type

/-- Takes the first character of an operator as a token of its own. -/
def takeHead (head : Kind) (h : head.isSolid := by exact Eq.refl true) : Parser Unit := do
  let marks ← look fun ts => ts.text.tail.all fun c => c == '?' || c == '!'
  splitHead head (if marks then some ⟨.postfixOperator, rfl⟩ else none) h
  advanceAs head h

/-- Generic arguments between angle brackets. The next token starts with the opening one. -/
def genericArgumentClause : Parser Unit :=
  node .genericArgumentClause do
    takeHead .leftAngle
    commaList .genericArgument (fun _ => false) type
    if ← look (Ahead.isOperatorFrom '>') then takeHead .rightAngle else missing .rightAngle

/-- Generic arguments, if an angle bracket touches the name before it. -/
def genericArguments : Parser Unit := ifAhead Ahead.isAdjacentAngle genericArgumentClause

/-- A named type with its generic arguments. -/
def namedType : Parser Unit :=
  node .simpleType do
    advance
    genericArguments

/-- Member types of the type that was read. -/
def memberTypes : Parser Unit :=
  whileAhead (fun ts => ts.isAt .period && Ahead.isName ts.tail) do
    enclose .memberType do
      advance
      advance
      genericArguments

/-- Question and exclamation marks behind the type that was read. -/
def optionalSuffixes : Parser Unit :=
  repeatWhile do
    match ← look Ahead.optionalSuffix? with
    | none => return false
    | some kind =>
      splitHead .postfixOperator none
      enclose kind advance kind.isConstruct
      return true

/-- An array or dictionary type. -/
def collectionType : Parser Unit :=
  nodeBy do
    advance
    type
    let dictionary ← eat .colon
    onlyIf dictionary type
    skipToCloser .rightBracket (.ofList [.rightParen, .rightBrace])
    require .rightBracket
    return (if dictionary then ⟨.dictionaryType, rfl⟩ else ⟨.arrayType, rfl⟩, ())

/-- `async`, `throws` or `rethrows`. The answer says whether one of them comes. -/
def effect : Parser Bool := do
  if ← eatWord .asyncKw then return true
  else if ← eat .throwsKw then return true
  else eat .rethrowsKw

/-- `async`, `throws` and `rethrows`, if any of them comes. -/
def effectSpecifiers : Parser Unit :=
  ifAhead Ahead.isEffect do
    node .effectSpecifiers (repeatWhile effect)

/-- The names before the type of a tuple element. -/
def tupleTypeLabels : Parser Unit := do
  if ← look Ahead.isLabel then advanceBy 2
  else ifAhead (fun ts => ts.isName && Ahead.isLabel ts.tail) (advanceBy 3)

/-- A tuple type, or a function type when an arrow follows. -/
def tupleOrFunctionType : Parser Unit :=
  nodeBy do
    advance
    unlessAt .rightParen do
      commaList .tupleTypeElement (fun ts => ts.isAt .rightParen || ts.isAt .endOfFile) do
        tupleTypeLabels
        type
        ifAhead (Ahead.isOperator "...") advance
    skipToCloser .rightParen (.ofList [.leftBrace, .rightBrace, .rightBracket])
    require .rightParen
    if ← look fun ts => ts.isEffect || ts.isAt .arrow then
      effectSpecifiers
      require .arrow
      type
      return (⟨.functionType, rfl⟩, ())
    else
      return (⟨.tupleType, rfl⟩, ())

/-- The word `some` or `any`, as a keyword. -/
def someOrAny : Parser Unit := do
  if ← look (Ahead.isWord "some") then advanceAs .someKw else advanceAs .anyKw

/-- A type that is no composition. -/
def plainTypeRule : Parser Unit := do
  if ← look fun ts => ts.isAt .atSign || ts.isAt .inoutKw then
    node .attributedType do
      attributes
      skip .inoutKw
      visit .plainType
  else if ← look Ahead.isSomeOrAny then
    node .someOrAnyType do
      someOrAny
      visit .plainType
  else if ← look fun ts => ts.isAt .identifier || ts.isAt .capitalSelfKw then
    namedType
    memberTypes
    optionalSuffixes
  else if ← isAt .leftBracket then
    collectionType
    optionalSuffixes
  else if ← isAt .leftParen then
    tupleOrFunctionType
    optionalSuffixes
  else
    placeholder .missingType

/-- A type. -/
def typeRule : Parser Unit := do
  visit .plainType
  ifAhead Ahead.isComposition do
    enclose .compositionType do
      whileAhead Ahead.isComposition do
        advance
        visit .plainType

/-- The type behind a colon. -/
def typeClause : Parser Unit :=
  node .typeClause do
    require .colon
    type

/-- The type behind an arrow. -/
def returnClause : Parser Unit :=
  node .returnClause do
    require .arrow
    type

/-! ### Generic arguments or a comparison -/

namespace Ahead

/-- Tokens that generic arguments consist of, angle brackets apart. -/
def genericTokens : KindSet := .ofList
  [.identifier, .capitalSelfKw, .comma, .colon, .period, .leftParen, .rightParen, .leftBracket,
   .rightBracket, .arrow, .atSign, .throwsKw, .inoutKw, .underscore, .integerLiteral]

/-- Tokens that can follow generic arguments in an expression. -/
def genericFollow : KindSet := .ofList
  [.leftParen, .period, .rightParen, .rightBracket, .comma, .colon, .semicolon, .rightBrace,
   .leftBrace, .endOfFile]

/-- Whether an expression can go on here behind generic arguments. -/
def followsGenericArguments (ts : Ahead) : Bool :=
  ts.isIn genericFollow || ts.atLineStart || ts.isAt .postfixOperator
    || (ts.isAt .binaryOperator && (ts.isSpelled "==" || ts.isSpelled "!="))

/-- What an operator says about the angle brackets of which `depth` are open. -/
inductive AngleState where
  /-- this many are open behind the operator -/
  | open (depth : Nat)
  /-- the last one is closed, and this is left of the operator -/
  | closed (rest : Text)
  /-- this is no part of generic arguments -/
  | invalid
deriving DecidableEq, Repr

/-- Counts the angle brackets in an operator. -/
def angles (depth : Nat) : Text → AngleState
  | [] => .open depth
  | c :: cs =>
    if c == '<' then angles (depth + 1) cs
    else if c == '>' then if depth ≤ 1 then .closed cs else angles (depth - 1) cs
    else if c == '?' || c == '!' || c == '&' || c == '.' then angles depth cs
    else .invalid

/-- Looks whether the tokens up to the closing of all angle brackets, of which some are open, can be
generic arguments. -/
def genericClosing : Scan Nat Bool where
  step depth x ts :=
    if x.kind.isOperator then
      match angles depth x.text with
      | .open depth => .inl depth
      | .closed [] => .inr (followsGenericArguments ts)
      | .closed (c :: _) => .inr (c == '?' || c == '!' || c == '.')
      | .invalid => .inr false
    else if genericTokens.contains x.kind then .inl depth
    else .inr false
  atEnd _ := false

/-- Whether an angle bracket behind a name opens generic arguments, as in `Array<Int>()`, and does
not compare, as in `a<b`. -/
def isGenericArguments (ts : Ahead) : Bool := ts.isAdjacentAngle && genericClosing.answer 0 ts

end Ahead

end SwiftTree.Grammar
