import SwiftTree.Grammar.Declaration

/-!
# Closures and arguments

A closure may start with a signature: attributes, captures, parameters, effects and a result, up to
`in`. Whether it does is told by looking for that `in` over the tokens that a signature is made of.

Argument lists stand between parentheses and brackets; closures may follow them.
-/

namespace SwiftTree.Grammar

namespace Ahead

/-- Tokens that a closure signature consists of, brackets and operators apart. -/
def signatureTokens : KindSet := .ofList
  [.identifier, .underscore, .comma, .colon, .atSign, .arrow, .throwsKw, .rethrowsKw, .period,
   .inoutKw, .capitalSelfKw]

/-- What is known while looking for the `in` of a signature. -/
structure SignatureState where
  /-- how many brackets are open -/
  depth : Nat
  /-- whether nothing was passed yet -/
  first : Bool

/-- Looks for the `in` of a signature. An `in` right at the start ends no signature. -/
def signatureEnd : Scan SignatureState Bool where
  step s x _ :=
    match x.kind with
    | .leftBrace | .rightBrace => .inr false
    | .leftParen | .leftBracket => .inl ⟨s.depth + 1, false⟩
    | .rightParen | .rightBracket =>
      if s.depth == 0 then .inr false else .inl ⟨s.depth - 1, false⟩
    | k =>
      if s.depth > 0 then .inl ⟨s.depth, false⟩
      else if k == .inKw then .inr !s.first
      else if signatureTokens.contains k
          || (k.isOperator && x.text.all ("?!&<>".toList.contains ·)) then
        .inl ⟨s.depth, false⟩
      else .inr false
  atEnd _ := false

/-- Whether a closure signature starts here. -/
def isSignature (ts : Ahead) : Bool := signatureEnd.answer ⟨0, true⟩ ts

/-- `weak` or `unowned` before a captured name. -/
def isCaptureSpecifier (ts : Ahead) : Bool :=
  (ts.isWord "weak" && isName ts.tail)
    || (ts.isWord "unowned" && (isName ts.tail || isAt .leftParen ts.tail))

end Ahead

/-! ### Signatures -/

/-- `weak`, or `unowned` with its detail. -/
def captureSpecifier : Parser Unit := do
  if ← eatWord .weakKw then
    pure ()
  else
    let _ ← eatWord .unownedKw
    ifAhead (fun ts => ts.isAt .leftParen && ts.adjacent) do
      advance
      skip .identifier
      require .rightParen

/-- Captures between brackets. -/
def captureClause : Parser Unit :=
  node .closureCaptureClause do
    advance
    unlessAt .rightBracket do
      commaList .closureCapture (fun ts => ts.isAt .rightBracket || ts.isAt .endOfFile) do
        ifAhead Ahead.isCaptureSpecifier captureSpecifier
        ifAhead (fun ts => ts.isName && Ahead.isAt .equal ts.tail) (advanceBy 2)
        expr .plain
      skipToCloser .rightBracket (.ofList [.rightParen, .rightBrace, .inKw])
    require .rightBracket

/-- The parameters of a closure, if there are any: in parentheses, or names only. -/
def closureParameters : Parser Unit := do
  if ← isAt .leftParen then
    parameterClause false
  else
    ifAhead (fun ts => ts.isName && !ts.isAt .inKw && !ts.isEffect) do
      node .closureParamList do
        commaList .closureParam (fun ts => !ts.isName || ts.isAt .inKw) advance

/-- A closure signature. -/
def closureSignature : Parser Unit :=
  node .closureSignature do
    attributes
    ifAt .leftBracket captureClause
    closureParameters
    effectSpecifiers
    ifAt .arrow returnClause
    require .inKw

/-- What follows the opening brace of a closure. -/
def closureParts : Parser Unit := do
  ifAhead Ahead.isSignature closureSignature
  visit (.statements { braced := true })
  require .rightBrace

/-- A closure. -/
def closureRule : Parser Unit :=
  node .closureExpr do
    require .leftBrace
    closureParts

/-! ### Arguments -/

/-- Arguments up to `closer`, which is left to the rule around. An opening token right before the
end of the file still gets one argument, without a value. -/
def argumentList (closer : Kind) (barriers : KindSet) (mode : Mode) : Parser Unit :=
  node .argumentList do
    unlessAt closer do
      commaList .labeledArgument
          (fun ts => ts.isAt closer || ts.isAt .endOfFile || ts.isIn barriers) do
        label
        expr mode
      skipToCloser closer barriers

/-- Closing tokens that end a list in parentheses. -/
def parenBarriers : KindSet := .ofList [.rightBracket, .rightBrace]

/-- Closing tokens that end a list in brackets. -/
def bracketBarriers : KindSet := .ofList [.rightParen, .rightBrace]

/-- A closure behind a call, and the labeled ones behind it. -/
def trailingClosures : Parser Unit := do
  visit .closure
  whileAhead (fun ts => ts.isLabel && ts.kindAt 2 == .leftBrace && !ts.atLineStart) do
    node .additionalTrailingClosure do
      advanceBy 2
      visit .closure

/-- Trailing closures, where a brace on the same line opens one. -/
def optionalTrailingClosures (mode : Mode) : Parser Unit :=
  ifAhead (fun ts => ts.isAt .leftBrace && !ts.atLineStart && !mode.noTrailingClosure)
    trailingClosures

end SwiftTree.Grammar
