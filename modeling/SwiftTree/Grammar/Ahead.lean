import SwiftTree.Kind.Set
import SwiftTree.Kind.Spelling
import SwiftTree.Node
import SwiftTree.Token.Stream

/-!
# What the grammar sees

The grammar decides by the tokens that are still to be read (`Ahead`). Of each it sees the kind, the
spelling, whether it opens a line and whether it touches the token before it; what the trivia around
it says, and where it stands, play no part.

The end of the file is the empty list. It reads as a token of kind `endOfFile` without spelling;
whether it opens a line is known to the tokens before it (`Lexeme.endOpensLine`). All other tokens
are written out, which each of them carries along as a proof (`Lexeme.solid`); so a look ahead ends
with the list at the latest, and each token that is taken leaves less to be read.

The second half of the module holds the tests that several rules share: which tokens can start an
expression, what counts as a name, and what lies behind attributes and modifiers.
-/

namespace SwiftTree.Grammar

/-- A token as the grammar sees it. -/
structure Lexeme where
  /-- the token -/
  token : Token
  /-- where its spelling starts -/
  start : Nat
  /-- whether it is the first token or a line break leads it -/
  atLineStart : Bool
  /-- whether nothing separates it from the token before it -/
  adjacent : Bool
  /-- whether the end of its file opens a line -/
  endOpensLine : Bool
  /-- it is not the end of the file -/
  solid : token.IsSolid
deriving DecidableEq, Repr

namespace Lexeme

/-- What the token is. -/
def kind (x : Lexeme) : Kind := x.token.kind

/-- How the token is spelled. -/
def text (x : Lexeme) : Text := x.token.text

/-- The tokens of a list that starts at a position, behind the token `prev`, as the grammar sees
them. The end of the file follows them, which opens a line or does not. -/
def ofTokens (endOpensLine : Bool) (pos : Nat) (prev : Option Token) :
    (ts : List Token) → (∀ t ∈ ts, t.IsSolid) → List Lexeme
  | [], _ => []
  | t :: ts, h =>
    ⟨t, pos + t.leading.byteLen, t.opensLine prev, t.touches prev, endOpensLine,
        h t List.mem_cons_self⟩
      :: ofTokens endOpensLine (pos + t.byteLen) t ts fun u hu => h u (List.mem_cons_of_mem t hu)

end Lexeme

/-- The tokens that are still to be read, without the end of the file. -/
abbrev Ahead := List Lexeme

/-- A look ahead from token to token, without a limit. -/
structure Scan (σ α : Type) where
  /-- what is known behind a token, or the answer when the scan stops before it -/
  step : σ → Lexeme → Ahead → σ ⊕ α
  /-- the answer when the scan stops at the end of the file -/
  atEnd : σ → α

namespace Scan

variable {σ α : Type}

/-- Where a scan stops, and its answer. -/
def run (scan : Scan σ α) (s : σ) : Ahead → Ahead × α
  | [] => ([], scan.atEnd s)
  | x :: ts =>
    match scan.step s x ts with
    | .inl s => run scan s ts
    | .inr a => (x :: ts, a)

/-- Where a scan stops. -/
def stop (scan : Scan σ α) (s : σ) (ts : Ahead) : Ahead := (scan.run s ts).1

/-- The answer of a scan. -/
def answer (scan : Scan σ α) (s : σ) (ts : Ahead) : α := (scan.run s ts).2

/-- A scan stops at the end of the file at the latest. -/
theorem stop_suffix (scan : Scan σ α) (s : σ) (ts : Ahead) : scan.stop s ts <:+ ts := by
  induction ts generalizing s with
  | nil => exact List.suffix_refl []
  | cons x ts ih =>
    rw [stop, run]
    split
    · exact (ih _).trans (List.suffix_cons x ts)
    · exact List.suffix_refl _

end Scan

namespace Ahead

/-- The kind of the next token. -/
def kind : Ahead → Kind
  | [] => .endOfFile
  | x :: _ => x.kind

/-- The spelling of the next token. -/
def text : Ahead → Text
  | [] => []
  | x :: _ => x.text

/-- Where the next token stands, without its trivia. No rule asks for this at the end of the
file. -/
def range : Ahead → Span
  | [] => .empty 0
  | x :: _ => .ofLen x.start (Text.byteLen x.text)

/-- Whether the next token opens a line. -/
def atLineStart : Ahead → Bool
  | [] => false
  | x :: _ => x.atLineStart

/-- Whether the next token touches the one before it. -/
def adjacent : Ahead → Bool
  | [] => false
  | x :: _ => x.adjacent

/-- The kind of the token `n` places on. -/
def kindAt (ts : Ahead) (n : Nat) : Kind := kind (ts.drop n)

/-- Whether the next token is of a kind. -/
def isAt (k : Kind) (ts : Ahead) : Bool := ts.kind == k

/-- Whether the kind of the next token is in a set. -/
def isIn (ks : KindSet) (ts : Ahead) : Bool := ks.contains ts.kind

/-- Whether the next token has a spelling. -/
def isSpelled (s : String) (ts : Ahead) : Bool := ts.text == s.toList

/-- Whether the next token is the name with a spelling. -/
def isWord (s : String) (ts : Ahead) : Bool := ts.isAt .identifier && ts.isSpelled s

/-- Whether the next token is the operator with a spelling. -/
def isOperator (s : String) (ts : Ahead) : Bool := ts.kind.isOperator && ts.isSpelled s

/-- Whether the next token is an operator that starts with a character. -/
def isOperatorFrom (c : Char) (ts : Ahead) : Bool :=
  ts.kind.isOperator && ts.text.head? == some c

/-! ### Cutting a token in two -/

/-- Cuts the next token behind its first character. The trivia stays on the outer sides. What is
left of the token keeps its kind, unless another one is given. A token of one character stays as it
is. -/
def splitHead (head : SolidKind) (rest : Option SolidKind) : Ahead → Ahead
  | [] => []
  | x :: ts =>
    match x.token.text with
    | c :: d :: cs =>
      let kind := rest.getD ⟨x.kind, x.solid.2⟩
      ⟨⟨x.token.leading, head, [c], []⟩, x.start, x.atLineStart, x.adjacent, x.endOpensLine,
          ⟨List.cons_ne_nil _ _, head.2⟩⟩
        :: ⟨⟨[], kind, d :: cs, x.token.trailing⟩, x.start + c.utf8Size, false, true,
          x.endOpensLine, ⟨List.cons_ne_nil _ _, kind.2⟩⟩
        :: ts
    | _ => x :: ts

/-- Either nothing is cut, or a token becomes two that stand for it. -/
theorem splitHead_eq (head : SolidKind) (rest : Option SolidKind) (ts : Ahead) :
    ts.splitHead head rest = ts ∨
      ∃ x us y z c d cs, ts = x :: us ∧ ts.splitHead head rest = y :: z :: us ∧
        x.token.text = c :: d :: cs ∧
        y.token = ⟨x.token.leading, head, [c], []⟩ ∧ y.start = x.start ∧
        z.token = ⟨[], z.kind, d :: cs, x.token.trailing⟩ ∧ z.start = x.start + c.utf8Size := by
  rcases ts with _ | ⟨x, us⟩
  · exact .inl rfl
  · rcases e : x.token.text with _ | ⟨c, _ | ⟨d, cs⟩⟩
    · exact absurd e x.solid.1
    · left
      simp only [splitHead, e]
    · right
      simp only [splitHead, e]
      exact ⟨x, us, _, _, c, d, cs, rfl, rfl, e, rfl, rfl, rfl, rfl⟩

/-! ### Names and labels -/

/-- Names and keywords, which can be argument labels and member names. -/
def isName (ts : Ahead) : Bool :=
  ts.isAt .identifier || ts.isAt .underscore || ts.isAt .dollarIdentifier || ts.kind.isKeyword

/-- A label and its colon. -/
def isLabel (ts : Ahead) : Bool := ts.isName && isAt .colon ts.tail

/-! ### Where expressions and statements start -/

/-- Tokens that start an expression. -/
def exprFirst : KindSet := .ofList
  [.identifier, .dollarIdentifier, .underscore, .selfKw, .capitalSelfKw, .superKw, .initKw,
   .trueKw, .falseKw, .nilKw, .tryKw, .integerLiteral, .floatLiteral, .regexLiteral,
   .rawStringDelimiter, .stringQuote, .multilineStringQuote, .singleQuote, .leftParen,
   .leftBracket, .leftBrace, .backslash, .period, .prefixOperator, .poundIdentifier,
   .editorPlaceholder, .atSign]

/-- Keywords that start a statement or a declaration. -/
def statementKeywords : KindSet := .ofList
  [.letKw, .varKw, .funcKw, .ifKw, .guardKw, .switchKw, .doKw, .forKw, .whileKw, .repeatKw,
   .returnKw, .breakKw, .continueKw, .throwKw, .deferKw, .fallthroughKw, .poundIf]

/-- Tokens behind an operator that stands for a function, as in `reduce(0, +)`. -/
def operatorRefFollow : KindSet := .ofList [.rightParen, .comma, .rightBracket]

/-- An operator that stands for a function. -/
def isOperatorRef (ts : Ahead) : Bool := ts.kind.isOperator && isIn operatorRefFollow ts.tail

/-- Whether an expression starts here. -/
def startsExpr (ts : Ahead) : Bool := ts.isIn exprFirst || ts.isOperatorRef

/-- Whether a statement, a declaration or an expression starts here. -/
def startsStatement (ts : Ahead) : Bool := ts.isIn statementKeywords || ts.startsExpr

/-! ### Attributes and modifiers -/

/-- Looks for the end of a group of parentheses, of which some are open. -/
def parens : Scan Nat Unit where
  step depth x _ :=
    let depth := if x.kind = .leftParen then depth + 1
      else if x.kind = .rightParen then depth - 1 else depth
    if depth = 0 then .inr () else .inl depth
  atEnd _ := ()

/-- What follows the group of parentheses here. -/
def afterParens (ts : Ahead) : Ahead := (parens.stop 0 ts).tail

theorem afterParens_suffix (ts : Ahead) : ts.afterParens <:+ ts :=
  (List.tail_suffix _).trans (parens.stop_suffix 0 ts)

/-- What follows the name and the arguments of an attribute. -/
def afterAttribute (ts : Ahead) : Ahead :=
  let ts : Ahead := if ts.isName then ts.tail else ts
  if ts.isAt .leftParen && ts.adjacent then ts.afterParens else ts

theorem afterAttribute_suffix (ts : Ahead) : ts.afterAttribute <:+ ts := by
  have step (us : Ahead) :
      (if us.isAt .leftParen && us.adjacent then us.afterParens else us) <:+ us := by
    split
    · exact afterParens_suffix us
    · exact List.suffix_refl us
  refine (step _).trans ?_
  split
  · exact List.tail_suffix ts
  · exact List.suffix_refl ts

/-- What follows the attributes here. -/
def afterAttributes (ts : Ahead) : Ahead :=
  match ts with
  | [] => []
  | x :: ts => if x.kind == .atSign then afterAttributes (afterAttribute ts) else x :: ts
termination_by ts.length
decreasing_by exact Nat.lt_succ_of_le (afterAttribute_suffix ts).length_le

/-- Names that are modifiers before `let`, `var` and `func`. -/
def modifiers : List String :=
  ["async", "class", "convenience", "dynamic", "fileprivate", "final", "indirect", "internal",
   "lazy", "mutating", "nonisolated", "nonmutating", "open", "optional", "override", "private",
   "public", "required", "static", "unowned", "weak"]

/-- Whether what stands `n` tokens on opens a line, the end of the file included. -/
def opensLineAt (n : Nat) (ts : Ahead) : Bool :=
  match ts.drop n with
  | [] => ts.head?.any Lexeme.endOpensLine
  | x :: _ => x.atLineStart

/-- How many tokens the modifier here has: its name, or its name with a detail in parentheses. It
shares its line with what follows. -/
def modifierLength? (ts : Ahead) : Option Nat :=
  if ts.isAt .identifier && modifiers.any ts.isSpelled then
    let detailed := isAt .leftParen (ts.drop 1) && adjacent (ts.drop 1)
      && isAt .identifier (ts.drop 2) && isAt .rightParen (ts.drop 3)
    let length := if detailed then 4 else 1
    if ts.opensLineAt length then none else some length
  else none

/-- What follows the modifiers here. -/
def afterModifiers (ts : Ahead) : Ahead :=
  match ts with
  | [] => []
  | x :: ts =>
    match modifierLength? (x :: ts) with
    | some length => afterModifiers (ts.drop (length - 1))
    | none => x :: ts
termination_by ts.length
decreasing_by simp only [List.length_drop, List.length_cons]; omega

/-- Whether attributes and modifiers lead to `let`, `var` or `func`. -/
def startsDecl (ts : Ahead) : Bool :=
  let ts := ts.afterAttributes.afterModifiers
  ts.isAt .letKw || ts.isAt .varKw || ts.isAt .funcKw

/-- Whether an item of a statement list starts here. An attribute starts one only before a
declaration. -/
def startsItem (ts : Ahead) : Bool :=
  ts.startsStatement && (!ts.isAt .atSign || ts.startsDecl)

end Ahead

end SwiftTree.Grammar
