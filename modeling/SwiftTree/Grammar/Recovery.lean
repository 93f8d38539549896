import SwiftTree.Grammar.Parser

/-!
# Getting back on track

Text that no rule wants is kept in an `unexpected` node where it stands. Bracketed groups are
skipped whole: tokens are only looked at outside of the brackets that were opened while skipping.

What is skipped is decided by a look ahead (`Ahead.skipLength`), and the rules then take that many
tokens.
-/

namespace SwiftTree.Grammar

/-- Tokens that open a bracketed group. -/
def openers : KindSet := .ofList [.leftParen, .leftBracket, .leftBrace]

/-- Tokens that close a bracketed group. -/
def closers : KindSet := .ofList [.rightParen, .rightBracket, .rightBrace]

namespace Ahead

/-- How many groups are open behind a token. -/
def depthAfter (depth : Nat) (k : Kind) : Nat :=
  if openers.contains k then depth + 1 else if closers.contains k then depth - 1 else depth

/-- Looks for the first place outside of all groups, of which some are open, where `stop` holds. -/
def outside (stop : Ahead → Bool) : Scan Nat Unit where
  step depth x ts :=
    if depth == 0 && stop (x :: ts) then .inr () else .inl (depthAfter depth x.kind)
  atEnd _ := ()

/-- The number of tokens, with `depth` groups open, before the first place outside of all groups
where `stop` holds. -/
def skipLength (stop : Ahead → Bool) (depth : Nat) (ts : Ahead) : Nat :=
  ts.length - ((outside stop).stop depth ts).length

/-- The number of tokens to skip behind the first one, which is skipped in any case. -/
def skipLengthBehind (stop : Ahead → Bool) : Ahead → Nat
  | [] => 0
  | x :: ts => skipLength stop (depthAfter 0 x.kind) ts

/-- Looks whether `closer` comes, outside of groups, before any of the `barriers`. Closing tokens of
other kinds are stepped over. -/
def closer (closer : Kind) (barriers : KindSet) : Scan Nat Bool where
  step depth x _ :=
    if depth == 0 && x.kind == closer then .inr true
    else if depth == 0 && barriers.contains x.kind then .inr false
    else .inl (depthAfter depth x.kind)
  atEnd _ := false

/-- Whether `closer` comes, outside of groups, before any of the `barriers`. -/
def closerAhead (closer : Kind) (barriers : KindSet) (ts : Ahead) : Bool :=
  (Ahead.closer closer barriers).answer 0 ts

end Ahead

/-- Skips what comes before a token of the set, and answers whether anything does. -/
def skippedUntil (stop : KindSet) : Parser Bool := do
  match ← look (Ahead.skipLength (Ahead.isIn stop) 0) with
  | 0 => return false
  | n + 1 =>
    unexpected n
    return true

/-- Skips what comes before a token of the set, if anything does. -/
def skipUntil (stop : KindSet) : Parser Unit := do
  let _ ← skippedUntil stop

/-- In a bracketed list, skips what comes before the closing token, when there still is one to come.
Otherwise everything is left to the rules around the list. -/
def skipToCloser (closer : Kind) (barriers : KindSet) : Parser Unit :=
  ifAhead (fun ts => !ts.isAt closer && ts.closerAhead closer barriers)
    (skipUntil (.single closer))

/-- Skips the next token or group, and then everything up to a place where `boundary` holds. -/
def skipStatement (boundary : Ahead → Bool) : Parser Unit := do
  unexpected (← look (Ahead.skipLengthBehind boundary))

end SwiftTree.Grammar
