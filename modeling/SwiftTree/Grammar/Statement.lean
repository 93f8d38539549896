import SwiftTree.Grammar.Expression

/-!
# Statements

Statement lists, control flow, `switch`, and conditional compilation, whose clauses hold statements
or the cases of a `switch`.
-/

namespace SwiftTree.Grammar

/-! ### Where lists end -/

/-- Directives that end a clause of a conditional compilation block. -/
def clauseEnd : KindSet := .ofList [.poundElseif, .poundElse, .poundEndif]

namespace Ahead

/-- Whether a case of a `switch` starts here. -/
def startsCase (ts : Ahead) : Bool :=
  ts.isAt .caseKw || ts.isAt .defaultKw
    || (ts.isAt .atSign
      && (isAt .caseKw ts.afterAttributes || isAt .defaultKw ts.afterAttributes))

/-- What is open while looking for the cases of a conditional compilation block. -/
structure BlockState where
  /-- blocks in the block -/
  nested : Nat
  /-- braces -/
  braces : Nat

/-- Looks whether cases come, outside of braces, before the end of a conditional compilation
block. -/
def blockCases : Scan BlockState Bool where
  step s x _ :=
    match x.kind with
    | .poundIf => .inl { s with nested := s.nested + 1 }
    | .poundEndif => if s.nested == 0 then .inr false else .inl { s with nested := s.nested - 1 }
    | .leftBrace => .inl { s with braces := s.braces + 1 }
    | .rightBrace => if s.braces == 0 then .inr false else .inl { s with braces := s.braces - 1 }
    | .caseKw | .defaultKw => if s.braces == 0 then .inr true else .inl s
    | _ => .inl s
  atEnd _ := false

/-- Whether a conditional compilation block here holds cases, and so belongs to a list of cases and
not to the statements of the case before it. -/
def isCaseBlock (ts : Ahead) : Bool := ts.isAt .poundIf && blockCases.answer ⟨0, 0⟩ ts.tail

/-- Whether a list of statements ends here. -/
def endsBody (body : Body) (ts : Ahead) : Bool :=
  ts.isAt .endOfFile || (body.braced && ts.isAt .rightBrace)
    || (body.directive && ts.isIn clauseEnd)
    || (body.inCase && (ts.startsCase || ts.isCaseBlock))

/-- What is known while looking for a brace. -/
structure LineState where
  /-- how many parentheses and brackets are open -/
  depth : Nat
  /-- whether nothing was passed yet -/
  first : Bool

/-- Looks for an opening brace on this line, outside of parentheses and brackets. -/
def lineBrace : Scan LineState Bool where
  step s x _ :=
    if x.kind == .rightBrace || (!s.first && x.atLineStart) then .inr false
    else
      match x.kind with
      | .leftBrace => if s.depth == 0 then .inr true else .inl ⟨s.depth, false⟩
      | .leftParen | .leftBracket => .inl ⟨s.depth + 1, false⟩
      | .rightParen | .rightBracket => .inl ⟨s.depth - 1, false⟩
      | _ => .inl ⟨s.depth, false⟩
  atEnd _ := false

/-- Whether an opening brace comes on this line outside of parentheses and brackets. -/
def braceOnLine (ts : Ahead) : Bool := lineBrace.answer ⟨0, true⟩ ts

/-- Looks for the clauses of a C-style loop, with some parentheses and brackets open: a semicolon
comes before `in` and before the body. -/
def loopClauses : Scan Nat Bool where
  step depth x _ :=
    match x.kind with
    | .rightBrace => .inr false
    | .leftBrace | .inKw => if depth == 0 then .inr false else .inl depth
    | .semicolon => if depth == 0 then .inr true else .inl depth
    | .leftParen | .leftBracket => .inl (depth + 1)
    | .rightParen | .rightBracket => .inl (depth - 1)
    | _ => .inl depth
  atEnd _ := false

/-- Whether the clauses of a C-style loop stand here. -/
def isCStyleLoop (ts : Ahead) : Bool := loopClauses.answer 0 ts

end Ahead

/-! ### Statement lists and bodies -/

/-- A semicolon, a statement, or text that cannot start one. -/
def item (body : Body) : Parser Unit := do
  if ← eat .semicolon then
    pure ()
  else if ← look Ahead.startsItem then
    visit .statement
  else
    skipStatement fun ts => ts.endsBody body || (ts.atLineStart && ts.startsItem)

/-- Statements up to the end of a body. -/
def statementsRule (body : Body) : Parser Unit :=
  node .codeBlockItemList do
    whileAhead (fun ts => !ts.endsBody body) (item body)

/-- The block of a control flow statement. What stands between the header and an opening brace on
the same line is kept as unexpected text. -/
def bodyBlock : Parser Unit := do
  ifAhead (fun ts => !ts.isAt .leftBrace && ts.braceOnLine)
    (skipUntil (.single .leftBrace))
  codeBlock

/-! ### Conditions -/

/-- A condition: an expression, a binding of an optional value, or a pattern to match. -/
def condition : Parser Unit := do
  if ← look fun ts => ts.isAt .letKw || ts.isAt .varKw then
    node .optionalBindingCondition do
      advance
      visit .pattern
      ifAt .colon typeClause
      ifAt .equal (initializer .header)
  else if ← isAt .caseKw then
    node .matchingPatternCondition do
      advance
      visit (.casePattern .header)
      ifAt .colon typeClause
      require .equal
      expr .header
  else
    expr .header

/-- The conditions of a statement. -/
def conditionList : Parser Unit :=
  node .conditionElementList do
    commaList .conditionElement (fun _ => false) condition

/-- A condition on a pattern. -/
def whereClause (mode : Mode) : Parser Unit :=
  ifAt .whereKw do
    node .whereClause do
      advance
      expr mode

/-! ### Control flow -/

/-- An `if` statement. -/
def ifStatement : Parser Unit :=
  node .ifStmt do
    advance
    conditionList
    bodyBlock
    if ← eat .elseKw then
      if ← isAt .ifKw then visit .statement else bodyBlock
    else
      pure ()

/-- A `guard` statement. -/
def guardStatement : Parser Unit :=
  node .guardStmt do
    advance
    conditionList
    require .elseKw
    bodyBlock

/-- A `catch` clause. -/
def catchClause : Parser Unit :=
  node .catchClause do
    advance
    unlessAt .leftBrace do
      node .catchItemList do
        commaList .catchItem (fun _ => false) do
          visit (.casePattern .header)
          whereClause .header
    bodyBlock

/-- A `do` statement. -/
def doStatement : Parser Unit :=
  node .doStmt do
    advance
    bodyBlock
    whileAhead (Ahead.isAt .catchKw) catchClause

/-- The pattern of a loop. -/
def forPattern : Parser Unit := do
  if ← eat .caseKw then visit (.casePattern .header) else visit .pattern

/-- The pattern and the sequence of a loop. -/
def forHeader : Parser Unit := do
  skip .tryKw
  let _ ← eatWord .awaitKw
  forPattern
  ifAt .colon typeClause
  require .inKw
  expr .header
  whereClause .header

/-- Keeps the clauses of a C-style loop as unexpected text. What is reported is that such loops were
removed, at the word of the loop, and not that the text does not belong there. -/
def removedCStyleFor (word : Span) : Parser Unit := do
  let first ← look fun ts => ts.range.start
  if ← skippedUntil (.single .leftBrace) then
    override first fun consumed =>
      { Diagnostic.error .removedCStyleFor word with highlight := some ⟨first, consumed⟩ }

/-- A loop over a sequence, or a C-style loop, whose clauses are no part of the language any
more. -/
def forStatement : Parser Unit :=
  node .forStmt do
    let word ← look Ahead.range
    advance
    if ← look Ahead.isCStyleLoop then
      removedCStyleFor word
      codeBlock
    else
      forHeader
      bodyBlock

/-- A `while` statement. -/
def whileStatement : Parser Unit :=
  node .whileStmt do
    advance
    conditionList
    bodyBlock

/-- A `repeat` statement. -/
def repeatStatement : Parser Unit :=
  node .repeatStmt do
    advance
    bodyBlock
    require .whileKw
    expr .plain

/-- A `return` statement. It has a value when the next token can start one. -/
def returnStatement : Parser Unit :=
  node .returnStmt do
    require .returnKw
    ifAhead Ahead.startsExpr (expr .plain)

/-- A jump, with a label on the same line. -/
def jumpStatement (kind : Kind) (h : kind.isConstruct := by exact Eq.refl true) : Parser Unit :=
  node kind (h := h) do
    advance
    ifAhead (fun ts => ts.isAt .identifier && !ts.atLineStart) advance

/-! ### `switch` -/

/-- A `case` label or the `default` label of a `switch`. -/
def caseLabel : Parser Unit :=
  nodeBy do
    if ← eat .caseKw then
      node .caseItemList do
        commaList .caseItem (fun _ => false) do
          visit (.casePattern .plain)
          whereClause .plain
      require .colon
      return (⟨.switchCaseLabel, rfl⟩, ())
    else
      require .defaultKw
      require .colon
      return (⟨.switchDefaultLabel, rfl⟩, ())

/-- A case of a `switch`. -/
def switchCase : Parser Unit :=
  node .switchCase do
    attributes
    caseLabel
    visit (.statements { braced := true, directive := true, inCase := true })

/-- A clause of a conditional compilation block. -/
def ifConfigClause (content : Goal) : Parser Unit :=
  node .ifConfigClause do
    let unconditional ← isAt .poundElse
    advance
    onlyIf (!unconditional) (expr { directive := true })
    visit content

/-- A conditional compilation block. -/
def ifConfig (content : Goal) : Parser Unit :=
  node .ifConfigDecl do
    ifConfigClause content
    whileAhead (fun ts => ts.isAt .poundElseif || ts.isAt .poundElse) (ifConfigClause content)
    require .poundEndif

/-- A case of a `switch`, a conditional compilation block with cases, or text that is none. -/
def caseItem : Parser Unit := do
  if ← look Ahead.startsCase then
    switchCase
  else if ← isAt .poundIf then
    ifConfig (.switchCases true)
  else
    skipStatement fun ts => ts.isAt .rightBrace || ts.isAt .poundIf || ts.isIn clauseEnd
      || ts.startsCase

/-- Whether the cases of a `switch`, or of a conditional compilation clause in one, end here. -/
def Ahead.endsCases (inDirective : Bool) (ts : Ahead) : Bool :=
  ts.isAt .endOfFile || ts.isAt .rightBrace || (inDirective && ts.isIn clauseEnd)

/-- The cases of a `switch`, or of a conditional compilation clause in one. -/
def switchCasesRule (inDirective : Bool) : Parser Unit :=
  node .switchCaseList do
    whileAhead (fun ts => !ts.endsCases inDirective) caseItem

/-- A `switch` statement. -/
def switchStatement : Parser Unit :=
  node .switchStmt do
    advance
    expr .header
    if ← expect .leftBrace then
      visit (.switchCases false)
      require .rightBrace
    else
      emptyNode .switchCaseList
      missing .rightBrace

/-! ### Any statement -/

/-- Keywords of the statements that can have a label. -/
def labeledKeywords : KindSet := .ofList [.forKw, .whileKw, .repeatKw, .doKw, .ifKw, .switchKw]

/-- A label, its colon, and a statement that can have one. -/
def Ahead.isLabeledStatement (ts : Ahead) : Bool :=
  ts.isAt .identifier && isAt .colon (ts.drop 1) && isIn labeledKeywords (ts.drop 2)

/-- A statement, a declaration or an expression. -/
def statementRule : Parser Unit := do
  match ← look Ahead.kind with
  | .ifKw => ifStatement
  | .guardKw => guardStatement
  | .switchKw => switchStatement
  | .doKw => doStatement
  | .forKw => forStatement
  | .whileKw => whileStatement
  | .repeatKw => repeatStatement
  | .returnKw => returnStatement
  | .breakKw => jumpStatement .breakStmt
  | .continueKw => jumpStatement .continueStmt
  | .throwKw =>
    node .throwStmt do
      advance
      expr .plain
  | .deferKw =>
    node .deferStmt do
      advance
      bodyBlock
  | .fallthroughKw => tokenNode .fallthroughStmt
  | .poundIf => ifConfig (.statements { braced := true, directive := true })
  | .letKw | .varKw | .funcKw => decl
  | _ =>
    if ← look fun ts => (ts.isAt .atSign || ts.isAt .identifier) && ts.startsDecl then
      decl
    else if ← look Ahead.isLabeledStatement then
      node .labeledStmt do
        advanceBy 2
        visit .statement
    else
      expr .plain

end SwiftTree.Grammar
