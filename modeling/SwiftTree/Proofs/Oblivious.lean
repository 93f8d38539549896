import SwiftTree.Grammar.Run

/-!
# Rules that see no trivia

The grammar sees kinds and spellings, where lines start and which tokens touch each other, and
nothing else. So the tokens ahead can be stripped of their trivia and their positions
(`Ahead.bare`), and no rule sees the difference (`Parser.Oblivious`): every look that it takes has
the same answer.

The lemmas of looks are simp lemmas. A look is rewritten from the inside: what it reads of the
stripped tokens is what it reads of the tokens. A rule is oblivious if its parts are and its looks
read no trivia.
-/

namespace SwiftTree

/-- A token without the trivia around it. -/
def Token.bare (t : Token) : Token := ⟨[], t.kind, t.text, []⟩

namespace Grammar

/-- A token as the grammar sees it, without trivia and without a position. -/
def Lexeme.bare (x : Lexeme) : Lexeme :=
  ⟨x.token.bare, 0, x.atLineStart, x.adjacent, x.endOpensLine, x.solid⟩

namespace Lexeme

variable (x : Lexeme)

@[simp] theorem kind_bare : x.bare.kind = x.kind := rfl

@[simp] theorem text_bare : x.bare.text = x.text := rfl

end Lexeme

namespace Ahead

/-- The tokens ahead without trivia and positions. -/
def bare (ts : Ahead) : Ahead := ts.map Lexeme.bare

@[simp] theorem bare_nil : bare [] = [] := rfl

@[simp] theorem bare_cons (x : Lexeme) (ts : Ahead) : bare (x :: ts) = x.bare :: bare ts := rfl

variable (ts : Ahead)

@[simp] theorem length_bare : ts.bare.length = ts.length := List.length_map _

@[simp] theorem tail_bare : ts.bare.tail = bare ts.tail := List.map_tail.symm

@[simp] theorem drop_bare (n : Nat) : ts.bare.drop n = bare (ts.drop n) := List.map_drop.symm

@[simp] theorem bare_bare : ts.bare.bare = ts.bare := by
  rw [bare, bare, List.map_map]
  rfl

/-! ## What is read of the next tokens -/

@[simp] theorem kind_bare : ts.bare.kind = ts.kind := by cases ts <;> rfl

@[simp] theorem text_bare : ts.bare.text = ts.text := by cases ts <;> rfl

@[simp] theorem atLineStart_bare : ts.bare.atLineStart = ts.atLineStart := by cases ts <;> rfl

@[simp] theorem adjacent_bare : ts.bare.adjacent = ts.adjacent := by cases ts <;> rfl

@[simp] theorem kindAt_bare (n : Nat) : ts.bare.kindAt n = ts.kindAt n := by simp [kindAt]

@[simp] theorem isAt_bare (k : Kind) : ts.bare.isAt k = ts.isAt k := by simp [isAt]

@[simp] theorem isIn_bare (ks : KindSet) : ts.bare.isIn ks = ts.isIn ks := by simp [isIn]

@[simp] theorem isSpelled_bare (s : String) : ts.bare.isSpelled s = ts.isSpelled s := by
  simp [isSpelled]

@[simp] theorem isWord_bare (s : String) : ts.bare.isWord s = ts.isWord s := by simp [isWord]

@[simp] theorem isOperator_bare (s : String) : ts.bare.isOperator s = ts.isOperator s := by
  simp [isOperator]

@[simp] theorem isOperatorFrom_bare (c : Char) :
    ts.bare.isOperatorFrom c = ts.isOperatorFrom c := by
  simp [isOperatorFrom]

@[simp] theorem isKeywordWord_bare (k : Kind) : ts.bare.isKeywordWord k = ts.isKeywordWord k := by
  simp [isKeywordWord]

@[simp] theorem isName_bare : ts.bare.isName = ts.isName := by simp [isName]

@[simp] theorem isLabel_bare : ts.bare.isLabel = ts.isLabel := by simp [isLabel]

@[simp] theorem isOperatorRef_bare : ts.bare.isOperatorRef = ts.isOperatorRef := by
  simp [isOperatorRef]

@[simp] theorem startsExpr_bare : ts.bare.startsExpr = ts.startsExpr := by simp [startsExpr]

@[simp] theorem startsStatement_bare : ts.bare.startsStatement = ts.startsStatement := by
  simp [startsStatement]

/-- Cutting a token in two does not depend on its trivia. -/
theorem splitHead_bare (head : SolidKind) (rest : Option SolidKind) :
    (ts.bare.splitHead head rest).bare = (ts.splitHead head rest).bare := by
  cases ts with
  | nil => rfl
  | cons x ts =>
    have htext : x.bare.token.text = x.token.text := rfl
    rw [bare_cons, splitHead, splitHead, htext]
    split
    · simp only [bare_cons, bare_bare]
      rfl
    · simp only [bare_cons, bare_bare]
      rfl

end Ahead

/-! ## Looks without a limit -/

namespace Scan

variable {σ α : Type} {scan : Scan σ α}

/-- Whether no step of a scan depends on trivia. -/
def Oblivious (scan : Scan σ α) : Prop :=
  ∀ s x (ts : Ahead), scan.step s x.bare ts.bare = scan.step s x ts

/-- A scan that sees no trivia stops at the same place of the stripped tokens, with the same
answer. -/
theorem Oblivious.run (h : scan.Oblivious) (s : σ) (ts : Ahead) :
    scan.run s ts.bare = ((scan.run s ts).1.bare, (scan.run s ts).2) := by
  induction ts generalizing s with
  | nil => rfl
  | cons x ts ih =>
    rw [Ahead.bare_cons, Scan.run, h s x ts, Scan.run]
    split
    · exact ih _
    · rfl

/-- The place where a scan stops does not depend on trivia. -/
theorem Oblivious.stop (h : scan.Oblivious) (s : σ) (ts : Ahead) :
    scan.stop s ts.bare = (scan.stop s ts).bare := by
  rw [Scan.stop, h.run]
  rfl

/-- The answer of a scan does not depend on trivia. -/
theorem Oblivious.answer (h : scan.Oblivious) (s : σ) (ts : Ahead) :
    scan.answer s ts.bare = scan.answer s ts := by
  rw [Scan.answer, h.run]
  rfl

end Scan

namespace Ahead

variable (ts : Ahead)

@[simp] theorem afterParens_bare : ts.bare.afterParens = ts.afterParens.bare := by
  have h : parens.Oblivious := fun _ _ _ => rfl
  rw [afterParens, afterParens, h.stop, tail_bare]

@[simp] theorem afterAttribute_bare : ts.bare.afterAttribute = ts.afterAttribute.bare := by
  simp only [afterAttribute, isName_bare, tail_bare]
  split <;> simp only [isAt_bare, adjacent_bare, afterParens_bare] <;> split <;> rfl

@[simp] theorem afterAttributes_bare : ts.bare.afterAttributes = ts.afterAttributes.bare := by
  fun_induction afterAttributes ts with
  | case1 => rw [bare_nil, afterAttributes]
  | case2 x ts h ih => rw [bare_cons, afterAttributes, if_pos (by exact h), afterAttribute_bare, ih]
  | case3 x ts h => rw [bare_cons, afterAttributes, if_neg (by exact h)]

@[simp] theorem opensLineAt_bare (n : Nat) : ts.bare.opensLineAt n = ts.opensLineAt n := by
  rw [opensLineAt, opensLineAt, drop_bare]
  cases ts.drop n with
  | nil => cases ts <;> rfl
  | cons x us => rfl

@[simp] theorem modifierLength?_bare : ts.bare.modifierLength? = ts.modifierLength? := by
  have hspelled : ts.bare.isSpelled = ts.isSpelled := funext ts.isSpelled_bare
  simp only [modifierLength?, isAt_bare, hspelled, drop_bare, adjacent_bare, opensLineAt_bare]

@[simp] theorem afterModifiers_bare : ts.bare.afterModifiers = ts.afterModifiers.bare := by
  fun_induction afterModifiers ts with
  | case1 => rw [bare_nil, afterModifiers]
  | case2 x ts length h ih =>
    have hbare := modifierLength?_bare (x :: ts)
    rw [bare_cons] at hbare ⊢
    rw [afterModifiers, hbare, h]
    simp only [drop_bare, ih]
  | case3 x ts h =>
    have hbare := modifierLength?_bare (x :: ts)
    rw [bare_cons] at hbare ⊢
    rw [afterModifiers, hbare, h]

@[simp] theorem startsDecl_bare : ts.bare.startsDecl = ts.startsDecl := by simp [startsDecl]

@[simp] theorem startsItem_bare : ts.bare.startsItem = ts.startsItem := by simp [startsItem]

end Ahead

/-! ## Rules -/

/-- Whether no look that a rule takes depends on trivia. -/
def Parser.Oblivious : {α : Type} → Parser α → Prop
  | _, .pure _ => True
  | _, .bind first next => first.Oblivious ∧ ∀ a, (next a).Oblivious
  | _, .look f => ∀ ts : Ahead, f ts.bare = f ts
  | _, .take _ => True
  | _, .splitHead _ _ => True
  | _, .missing _ _ => True
  | _, .placeholder _ => True
  | _, .unexpected _ => True
  | _, .override _ _ => True
  | _, .mark body => body.Oblivious
  | _, .enclose _ body => body.Oblivious
  | _, .call _ => True
  | _, .repeatUntil body => body.Oblivious

namespace Parser.Oblivious

variable {α β : Type}

theorem pure (a : α) : (Pure.pure a : Parser α).Oblivious := trivial

theorem bind {first : Parser α} {next : α → Parser β} (h : first.Oblivious)
    (hnext : ∀ a, (next a).Oblivious) : (first >>= next).Oblivious := ⟨h, hnext⟩

/-- A rule behind a look. -/
theorem look {f : Ahead → α} {next : α → Parser β} (hf : ∀ ts : Ahead, f ts.bare = f ts)
    (hnext : ∀ a, (next a).Oblivious) : (Grammar.look f >>= next).Oblivious :=
  ⟨hf, hnext⟩

/-! ### Conditions -/

/-- A choice that was made before sees no trivia if neither rule does. -/
theorem ite {c : Prop} [Decidable c] {p q : Parser α} (hp : p.Oblivious) (hq : q.Oblivious) :
    (if c then p else q).Oblivious := by
  split
  · exact hp
  · exact hq

theorem branch {f : Ahead → Bool} {p q : Parser α} (hf : ∀ ts : Ahead, f ts.bare = f ts)
    (hp : p.Oblivious) (hq : q.Oblivious) :
    (Grammar.look f >>= fun b => if b then p else q).Oblivious := look hf fun _ => ite hp hq

theorem onlyIf {b : Bool} {p : Parser Unit} (h : p.Oblivious) : (Grammar.onlyIf b p).Oblivious :=
  ite h (pure ())

theorem ifAhead {f : Ahead → Bool} {p : Parser Unit} (hf : ∀ ts : Ahead, f ts.bare = f ts)
    (h : p.Oblivious) : (Grammar.ifAhead f p).Oblivious :=
  branch hf h (pure ())

theorem ifAt {k : Kind} {p : Parser Unit} (h : p.Oblivious) : (Grammar.ifAt k p).Oblivious :=
  ifAhead (by simp) h

theorem unlessAt {k : Kind} {p : Parser Unit} (h : p.Oblivious) :
    (Grammar.unlessAt k p).Oblivious :=
  ifAhead (by simp) h

/-! ### Tokens -/

theorem advance : Grammar.advance.Oblivious := trivial

theorem advanceAs {k : Kind} {hk : k.isSolid} : (Grammar.advanceAs k hk).Oblivious := trivial

/-- Taking several tokens looks at none of them. -/
theorem advanceBy (n : Nat) : (Grammar.advanceBy n).Oblivious := by
  induction n with
  | zero => exact pure ()
  | succ n ih => exact bind advance fun _ => ih

theorem splitHead {k : Kind} {rest : Option SolidKind} {hk : k.isSolid} :
    (Grammar.splitHead k rest hk).Oblivious := trivial

theorem eat {k : Kind} : (Grammar.eat k).Oblivious :=
  branch (by simp) (bind advance fun _ => pure true) (pure false)

theorem skip {k : Kind} : (Grammar.skip k).Oblivious := ifAt advance

theorem eatWord {k : Kind} {hk : k.isSolid} : (Grammar.eatWord k hk).Oblivious :=
  branch (by simp) (bind advanceAs fun _ => pure true) (pure false)

theorem missingSpelled {k : Kind} {spelling : Text} {hk : k.isSolid} :
    (Grammar.missingSpelled k spelling hk).Oblivious := trivial

theorem missing {k : Kind} {hk : k.isSolid} : (Grammar.missing k hk).Oblivious := trivial

theorem expect {k : Kind} {hk : k.isSolid} : (Grammar.expect k hk).Oblivious :=
  bind eat fun _ => ite (pure true) (bind missing fun _ => pure false)

theorem require {k : Kind} {hk : k.isSolid} : (Grammar.require k hk).Oblivious :=
  bind expect fun _ => pure ()

theorem placeholder {k : Kind} {hk : k.isMissingNode} :
    (Grammar.placeholder k hk).Oblivious := trivial

theorem unexpected {more : Nat} : (Grammar.unexpected more).Oblivious := trivial

/-! ### Nodes, calls and loops -/

theorem nodeBy {p : Parser (Construct × α)} (h : p.Oblivious) : (Grammar.nodeBy p).Oblivious :=
  bind h fun _ => pure _

theorem node {kind : Kind} {p : Parser α} {hk : kind.isConstruct} (h : p.Oblivious) :
    (Grammar.node kind p hk).Oblivious := bind h fun _ => pure _

theorem nodeIf {kind : Kind} {p : Parser Bool} {hk : kind.isConstruct} (h : p.Oblivious) :
    (Grammar.nodeIf kind p hk).Oblivious := bind h fun _ => pure _

theorem emptyNode {kind : Kind} {hk : kind.isConstruct} : (Grammar.emptyNode kind hk).Oblivious :=
  node (pure ())

theorem enclose {kind : Kind} {p : Parser α} {hk : kind.isConstruct} (h : p.Oblivious) :
    (Grammar.enclose kind p hk).Oblivious := h

theorem call (g : Goal) : (Grammar.call g).Oblivious := trivial

theorem visit (g : Goal) : (Grammar.visit g).Oblivious := bind (call g) fun _ => pure ()

theorem repeatUntil {p : Parser (Option α)} (h : p.Oblivious) :
    (Grammar.repeatUntil p).Oblivious := h

theorem repeatWhile {p : Parser Bool} (h : p.Oblivious) : (Grammar.repeatWhile p).Oblivious :=
  repeatUntil (bind h fun _ => pure _)

theorem whileAhead {f : Ahead → Bool} {p : Parser Unit} (hf : ∀ ts : Ahead, f ts.bare = f ts)
    (h : p.Oblivious) : (Grammar.whileAhead f p).Oblivious :=
  repeatWhile (branch hf (bind h fun _ => pure true) (pure false))

theorem commaList {kind : Kind} {ends : Ahead → Bool} {p : Parser Unit} {hk : kind.isConstruct}
    (hends : ∀ ts : Ahead, ends ts.bare = ends ts) (h : p.Oblivious) :
    (Grammar.commaList kind ends p hk).Oblivious :=
  repeatWhile (bind (node (bind h fun _ => eat)) fun _ => look hends fun _ => pure _)

theorem complete {p : Parser Unit} (h : p.Oblivious) : (Grammar.complete p).Oblivious :=
  bind h fun _ => pure false

end Parser.Oblivious

end Grammar

end SwiftTree
