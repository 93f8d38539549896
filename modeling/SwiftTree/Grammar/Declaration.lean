import SwiftTree.Grammar.Pattern

/-!
# Declarations

Variables and functions, with the attributes and modifiers before them, and the parameter clauses
that functions and closures share.
-/

namespace SwiftTree.Grammar

/-- Statements between braces. Without the opening brace the whole block is missing. -/
def codeBlock : Parser Unit :=
  node .codeBlock do
    if ← eat .leftBrace then
      visit (.statements { braced := true })
      require .rightBrace
    else
      missing .leftBrace
      emptyNode .codeBlockItemList
      missing .rightBrace

/-- The value behind an equals sign. -/
def initializer (mode : Mode) : Parser Unit :=
  node .initializerClause do
    require .equal
    expr mode

/-! ### Parameters -/

/-- The names of a parameter. A function demands one, a closure does not. -/
def parameterNames (typed : Bool) : Parser Unit := do
  if ← look Ahead.isName then
    advance
    ifAhead Ahead.isName advance
  else if typed then
    missing .identifier
  else
    pure ()

/-- The type of a parameter. A function demands one, a closure does not. -/
def parameterType (typed : Bool) : Parser Unit :=
  ifAhead (fun ts => typed || ts.isAt .colon) do
    require .colon
    type

/-- A parameter. -/
def parameter (typed : Bool) : Parser Unit := do
  attributes
  parameterNames typed
  parameterType typed
  ifAhead (Ahead.isOperator "...") advance
  ifAt .equal do
    node .defaultArgument do
      advance
      expr .plain

/-- Parameters between parentheses. Without the opening one the whole clause is missing. -/
def parameterClause (typed : Bool) : Parser Unit :=
  node .parameterClause do
    if ← eat .leftParen then
      unlessAt .rightParen do
        commaList .parameter (fun ts => ts.isAt .rightParen || ts.isAt .endOfFile)
          (parameter typed)
        skipToCloser .rightParen (.ofList [.leftBrace, .rightBrace, .inKw])
      require .rightParen
    else
      missing .leftParen
      missing .rightParen

/-! ### Variables and functions -/

/-- A pattern with its type, its value and its accessors. -/
def patternBinding : Parser Unit := do
  visit .pattern
  ifAt .colon typeClause
  ifAt .equal (initializer .plain)
  ifAhead (fun ts => ts.isAt .leftBrace && !ts.atLineStart) codeBlock

/-- The keyword of a variable. -/
def variableKeyword : Parser Unit := do
  if ← eat .letKw then pure () else require .varKw

/-- What follows the modifiers of a variable. -/
def variableParts : Parser Unit := do
  variableKeyword
  node .patternBindingList do
    commaList .patternBinding (fun _ => false) patternBinding

/-- The name of a function, which may be an operator. -/
def functionName : Parser Unit := do
  if ← look fun ts => ts.isAt .identifier || ts.kind.isOperator then advance
  else missing .identifier

/-- What follows the modifiers of a function. -/
def functionParts : Parser Unit := do
  advance
  functionName
  node .functionSignature do
    parameterClause true
    effectSpecifiers
    ifAt .arrow returnClause
  ifAt .leftBrace codeBlock

/-- The word of a modifier. Some become keywords. -/
def modifierWord : Parser Unit := do
  if ← eatWord .asyncKw then pure ()
  else if ← eatWord .weakKw then pure ()
  else if ← eatWord .unownedKw then pure ()
  else advance

/-- A modifier, with its detail. -/
def modifier : Parser Unit :=
  node .declModifier do
    let length ← look fun ts => ts.modifierLength?.getD 1
    modifierWord
    advanceBy (length - 1)

/-- What follows the modifiers of a declaration. The answer says what is declared. -/
def declParts : Parser Construct := do
  if ← isAt .funcKw then
    functionParts
    return ⟨.functionDecl, rfl⟩
  else
    variableParts
    return ⟨.variableDecl, rfl⟩

/-- A declaration with its attributes and modifiers. -/
def decl : Parser Unit :=
  nodeBy do
    attributes
    whileAhead (fun ts => ts.modifierLength?.isSome) modifier
    return (← declParts, ())

end SwiftTree.Grammar
