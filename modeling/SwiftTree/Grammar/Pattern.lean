import SwiftTree.Grammar.Power
import SwiftTree.Grammar.Types

/-!
# Patterns

Patterns of declarations and loops are names, wildcards and tuples of them. Patterns behind `case`
and `catch` are bindings, type checks, or expressions; behind `let` and `var` their bare names bind.
-/

namespace SwiftTree.Grammar

/-- An expression. -/
def expr (mode : Mode) : Parser Unit := visit (.sequence mode 0)

/-- A node with a single token. -/
def tokenNode (kind : Kind) (h : kind.isConstruct := by exact Eq.refl true) : Parser Unit :=
  node kind advance h

/-- A label and its colon, if they come. -/
def label : Parser Unit := ifAhead Ahead.isLabel (advanceBy 2)

/-- Patterns between parentheses. -/
def tuplePattern : Parser Unit :=
  node .tuplePattern do
    advance
    unlessAt .rightParen do
      commaList .tuplePatternElement (fun ts => ts.isAt .rightParen || ts.isAt .endOfFile) do
        label
        visit .pattern
      skipToCloser .rightParen (.ofList [.leftBrace, .rightBrace, .rightBracket])
    require .rightParen

/-- A pattern of a declaration, an optional binding or a loop. -/
def patternRule : Parser Unit := do
  match ← look Ahead.kind with
  | .identifier | .selfKw => tokenNode .identifierPattern
  | .underscore => tokenNode .wildcardPattern
  | .leftParen => tuplePattern
  | .letKw | .varKw =>
    node .valueBindingPattern do
      advance
      visit .pattern
  | _ => placeholder .missingPattern

namespace Ahead

/-- Tokens behind which a lone name or `_` is a whole pattern. -/
def patternEnd : KindSet := .ofList
  [.colon, .comma, .equal, .whereKw, .inKw, .leftBrace, .rightParen, .endOfFile]

/-- A token that is a whole pattern. -/
def isLone (k : Kind) (ts : Ahead) : Bool := ts.isAt k && isIn patternEnd ts.tail

end Ahead

/-- `let` or `var`, and a pattern whose bare names bind. -/
def valueBinding (mode : Mode) : Parser Unit :=
  node .valueBindingPattern do
    advance
    visit (.casePattern mode.binding)

/-- A pattern behind `case` or `catch`. -/
def casePatternRule (mode : Mode) : Parser Unit := do
  if ← look fun ts => ts.isAt .letKw || ts.isAt .varKw then
    valueBinding mode
  else if ← isAt .isKw then
    node .isTypePattern do
      advance
      type
  else if ← look (Ahead.isLone .underscore) then
    tokenNode .wildcardPattern
  else if ← look fun ts => mode.bindingPattern && ts.isLone .identifier then
    tokenNode .identifierPattern
  else
    node .expressionPattern do
      visit (.sequence mode Power.aboveAssignment)

end SwiftTree.Grammar
