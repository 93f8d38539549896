import SwiftTree.Grammar.Statement
import SwiftTree.Proofs.Progress.Moves

/-!
# A brace in the place of the end

The same tokens can stand at the end of a file and before a brace that closes the block they are in
(`Ahead.Braced`). What looks ahead sees little of the difference. `Ahead.Blind` says that a look
sees nothing of it as long as tokens are left, and `Ahead.Sealed` that it sees nothing of it even
then.

A look without a limit is blind since a closing brace stops it, or counts for nothing in it, just as
the end of the file does (`Scan.sealed_answer`). The exceptions are two looks that ask for more than
a kind behind a name or a parenthesis; so the last token before the end must be none of these
(`Ahead.loose`).
-/

namespace SwiftTree.Grammar

/-- Whether two tokens are the same to the grammar. -/
structure Lexeme.Alike (x y : Lexeme) : Prop where
  kind : x.kind = y.kind
  text : x.text = y.text
  atLineStart : x.atLineStart = y.atLineStart
  adjacent : x.adjacent = y.adjacent

/-- Whether a token is a closing brace that stands on a line of its own. -/
structure Lexeme.ClosesBlock (x : Lexeme) : Prop where
  kind : x.kind = .rightBrace
  atLineStart : x.atLineStart = true
  adjacent : x.adjacent = false

namespace Ahead

/-- Tokens behind which the end of the file can be told from a brace. A lone name is a pattern
before the end, and a modifier is one before the brace of the line. -/
def loose : KindSet := .ofList [.identifier, .underscore, .rightParen]

/-- Whether a list of tokens is another one with a closing brace in the place of the end. -/
inductive Braced : Ahead → Ahead → Prop where
  | nil {b : Lexeme} (h : b.ClosesBlock) : Braced [] [b]
  | cons {x y : Lexeme} {ts us : Ahead} (h : x.Alike y)
      (hlast : ts = [] → loose.contains x.kind = false)
      (hts : Braced ts us) : Braced (x :: ts) (y :: us)

/-- Whether a look has the same answer at tokens that pass a test and at these with a brace
behind. -/
def Agrees {α : Type} (P : Ahead → Prop) (f : Ahead → α) : Prop :=
  ∀ ⦃ts us⦄, Braced ts us → P ts → f ts = f us

/-- Whether a look cannot see what stands behind the tokens. -/
abbrev Blind {α : Type} (f : Ahead → α) : Prop := Agrees (· ≠ []) f

/-- Whether a look cannot tell a brace from the end. -/
abbrev Sealed {α : Type} (f : Ahead → α) : Prop := Agrees (fun _ => True) f

/-! ## Where tokens lead -/

namespace Braced

variable {ts us : Ahead}

/-- The brace is the only token that there is in addition. -/
theorem length_eq (h : Braced ts us) : us.length = ts.length + 1 := by
  induction h with
  | nil => rfl
  | cons _ _ _ ih => rw [List.length_cons, ih, List.length_cons]

/-- Behind the first token, the brace still stands in the place of the end. -/
theorem tail (h : Braced ts us) (hne : ts ≠ []) : Braced ts.tail us.tail := by
  cases h with
  | nil => exact absurd rfl hne
  | cons _ _ hts => exact hts

/-- As long as tokens are left, the brace stands in the place of the end. -/
theorem drop (h : Braced ts us) {n : Nat} (hne : ts.drop n ≠ []) :
    Braced (ts.drop n) (us.drop n) := by
  induction n generalizing ts us with
  | zero => exact h
  | succ n ih =>
    cases h with
    | nil => exact absurd List.drop_nil hne
    | cons _ _ hts => exact ih hts hne

/-- Something stands behind a name or a closing parenthesis. -/
theorem drop_succ_ne_nil (h : Braced ts us) {n : Nat} (hloose : loose.contains (kind (ts.drop n))) :
    ts.drop (n + 1) ≠ [] := by
  induction n generalizing ts us with
  | zero =>
    cases h with
    | nil => cases hloose
    | cons _ hlast _ =>
      intro hnil
      exact Bool.false_ne_true ((hlast hnil).symm.trans hloose)
  | succ n ih =>
    cases h with
    | nil =>
      rw [List.drop_nil] at hloose
      cases hloose
    | cons _ _ hts => exact ih hts hloose

/-- A token that is cut leaves none that shows the end behind it, if what is left of it is of its
own kind or of a kind that does not. -/
theorem splitHead (h : Braced ts us) {head : SolidKind} {rest : Option SolidKind}
    (hrest : ∀ k ∈ rest, loose.contains k.1 = false) (hne : ts ≠ []) :
    Braced (ts.splitHead head rest) (us.splitHead head rest) := by
  cases h with
  | nil => exact absurd rfl hne
  | @cons x y ts us halike hlast hts =>
    have htext : x.token.text = y.token.text := halike.text
    rw [Ahead.splitHead, Ahead.splitHead, ← htext]
    split
    · have hkind : (rest.getD ⟨x.kind, x.solid.2⟩).1 = (rest.getD ⟨y.kind, y.solid.2⟩).1 := by
        cases rest with
        | none => exact halike.kind
        | some k => rfl
      refine .cons ⟨rfl, rfl, halike.atLineStart, halike.adjacent⟩ (absurd · (List.cons_ne_nil _ _))
        (.cons ⟨hkind, rfl, rfl, rfl⟩ (fun hnil => ?_) hts)
      cases rest with
      | none => exact hlast hnil
      | some k => exact hrest k rfl
    · exact .cons halike hlast hts

end Braced

/-- Whether both lists are used up, or the second one is the first with a brace behind. -/
def Tailed (ts us : Ahead) : Prop := Braced ts us ∨ ts = [] ∧ us = []

namespace Tailed

variable {ts us : Ahead}

/-- Behind the first token, or behind the end, the two lists are related as before. -/
theorem tail (h : Tailed ts us) : Tailed ts.tail us.tail := by
  rcases h with h | ⟨rfl, rfl⟩
  · cases h with
    | nil => exact .inr ⟨rfl, rfl⟩
    | cons _ _ hts => exact .inl hts
  · exact .inr ⟨rfl, rfl⟩

/-- Behind any number of tokens, the two lists are related as before. -/
theorem drop (h : Tailed ts us) (n : Nat) : Tailed (ts.drop n) (us.drop n) := by
  induction n generalizing ts us with
  | zero => exact h
  | succ n ih =>
    rw [← List.drop_tail, ← List.drop_tail]
    exact ih h.tail

end Tailed

/-! ## Looks that see no difference -/

namespace Agrees

variable {α β : Type} {P : Ahead → Prop}

theorem mono {Q : Ahead → Prop} {f : Ahead → α} (h : Agrees P f) (ht : ∀ ts, Q ts → P ts) :
    Agrees Q f := fun _ _ hb hts => h hb (ht _ hts)

/-- What cannot tell a brace from the end is blind. -/
theorem any {f : Ahead → α} (h : Sealed f) : Agrees P f := h.mono fun _ _ => trivial

theorem map (g : α → β) {f : Ahead → α} (h : Agrees P f) : Agrees P fun ts => g (f ts) :=
  fun _ _ hb hts => congrArg g (h hb hts)

theorem const (a : α) : Agrees P fun _ => a := fun _ _ _ _ => rfl

variable {f g : Ahead → Bool}

theorem not (h : Agrees P f) : Agrees P fun ts => !f ts := h.map _

theorem or (hf : Agrees P f) (hg : Agrees P g) : Agrees P fun ts => f ts || g ts :=
  fun _ _ hb hts => congr (congrArg _ (hf hb hts)) (hg hb hts)

/-- The second look only matters where the first one answers yes. -/
theorem and (hf : Agrees P f) (hg : Agrees (fun ts => P ts ∧ f ts = true) g) :
    Agrees P fun ts => f ts && g ts := by
  intro ts us hb hts
  dsimp only
  rw [← hf hb hts]
  cases hyes : f ts with
  | false => rfl
  | true => exact hg hb ⟨hts, hyes⟩

/-- What is looked at on a condition only matters where the condition holds. -/
theorem ite {c : Ahead → Bool} {p q : Ahead → α} (hc : Agrees P c)
    (hp : Agrees (fun ts => P ts ∧ c ts = true) p) (hq : Agrees P q) :
    Agrees P fun ts => if c ts then p ts else q ts := by
  intro ts us hb hts
  dsimp only
  rw [← hc hb hts]
  split
  · rename_i hyes
    exact hp hb ⟨hts, hyes⟩
  · exact hq hb hts

/-! ### The next token -/

/-- As long as tokens are left, the next one is the same, and so is its kind. -/
theorem kind (h : ∀ ts, P ts → ts ≠ []) : Agrees P Ahead.kind := by
  intro ts us hb hts
  cases hb with
  | nil => exact absurd rfl (h _ hts)
  | cons halike => exact halike.kind

/-- As long as tokens are left, the next one has the same text. -/
theorem text (h : ∀ ts, P ts → ts ≠ []) : Agrees P Ahead.text := by
  intro ts us hb hts
  cases hb with
  | nil => exact absurd rfl (h _ hts)
  | cons halike => exact halike.text

/-- As long as tokens are left, the next one opens a line in both lists or in none. -/
theorem atLineStart (h : ∀ ts, P ts → ts ≠ []) : Agrees P Ahead.atLineStart := by
  intro ts us hb hts
  cases hb with
  | nil => exact absurd rfl (h _ hts)
  | cons halike => exact halike.atLineStart

/-- A brace on a line of its own is not adjacent to what is before it, and neither is the end. -/
theorem adjacent : Agrees P Ahead.adjacent := by
  intro ts us hb hts
  cases hb with
  | nil hbrace => exact hbrace.adjacent.symm
  | cons halike => exact halike.adjacent

/-- What is asked of the kind is the same of a brace as of the end. -/
theorem ofKind (p : Kind → α) (h : p .endOfFile = p .rightBrace) :
    Agrees P fun ts => p ts.kind := by
  intro ts us hb hts
  cases hb with
  | nil hbrace => exact h.trans (congrArg p hbrace.kind.symm)
  | cons halike => exact congrArg p halike.kind

theorem isAt (k : Kind) (h : (Kind.endOfFile == k) = (Kind.rightBrace == k)) :
    Agrees P (Ahead.isAt k) := ofKind (· == k) h

/-- As long as there are tokens, their kind can be asked for. -/
theorem isAtAny {k : Kind} : Blind (Ahead.isAt k) := (kind fun _ => id).map (· == k)

theorem isInAny {ks : KindSet} : Blind (Ahead.isIn ks) := (kind fun _ => id).map ks.contains

theorem isIn (ks : KindSet) (h : ks.contains .endOfFile = ks.contains .rightBrace) :
    Agrees P (Ahead.isIn ks) := ofKind ks.contains h

/-- A brace is no name, and neither is the end. -/
theorem isName : Agrees P Ahead.isName :=
  ofKind (fun k => k == .identifier || k == .underscore || k == .dollarIdentifier ||
    k.isKeyword) rfl

theorem isOperatorKind : Agrees P fun ts => ts.kind.isOperator := ofKind Kind.isOperator rfl

end Agrees

/-! ### The tokens behind -/

namespace Sealed

variable {α : Type} {P : Ahead → Prop} {f : Ahead → α}

/-- What cannot tell a brace from the end has the same answer where both are reached. -/
theorem tailed (h : Sealed f) {ts us : Ahead} (hts : Tailed ts us) : f ts = f us := by
  rcases hts with hts | ⟨rfl, rfl⟩
  · exact h hts trivial
  · rfl

theorem drop (h : Sealed f) (n : Nat) : Agrees P fun ts => f (ts.drop n) :=
  fun _ _ hb _ => h.tailed (Tailed.drop (.inl hb) n)

theorem tail (h : Sealed f) : Agrees P fun ts => f ts.tail :=
  fun _ _ hb _ => h.tailed (Tailed.tail (.inl hb))

end Sealed


/-! ## Looks at words and names -/

section Looks

variable {P : Ahead → Prop}

namespace Agrees

theorem isSpelled {s : String} (h : ∀ ts, P ts → ts ≠ []) : Agrees P (Ahead.isSpelled s) :=
  (text h).map (· == s.toList)

theorem isWord {s : String} : Agrees P (Ahead.isWord s) :=
  (isAt _ rfl).and (isSpelled fun _ h => ne_nil_of_isAt (by decide) h.2)

/-- A word before the end is the same word before a brace. -/
theorem isKeywordWord {k : Kind} : Agrees P (Ahead.isKeywordWord k) := by
  rcases e : k.fixedText with _ | s
  · intro _ _ _ _
    rw [Ahead.isKeywordWord, Ahead.isKeywordWord, e]
    rfl
  · intro ts us hb hts
    rw [Ahead.isKeywordWord, Ahead.isKeywordWord, e]
    exact isWord hb hts

theorem isOperator {s : String} : Agrees P (Ahead.isOperator s) :=
  isOperatorKind.and (isSpelled fun _ h => ne_nil_of_isOperator h.2)

theorem isOperatorFrom {c : Char} : Agrees P (Ahead.isOperatorFrom c) :=
  isOperatorKind.and ((text fun _ h => ne_nil_of_isOperator h.2).map fun cs => cs.head? == some c)

theorem isLabel : Agrees P Ahead.isLabel := isName.and (Sealed.tail (isAt _ rfl))

/-! ### Where expressions and statements start -/

theorem isOperatorRef : Agrees P Ahead.isOperatorRef :=
  isOperatorKind.and (Sealed.tail (isIn _ rfl))

theorem startsExpr : Agrees P Ahead.startsExpr := (isIn exprFirst rfl).or isOperatorRef

theorem startsStatement : Agrees P Ahead.startsStatement :=
  (isIn statementKeywords rfl).or startsExpr

end Agrees

/-! ## Attributes and modifiers -/

/-- A group of parentheses that is not closed goes on to the end, with a brace behind or without. -/
theorem Braced.stop_parens {ts us : Ahead} (h : Braced ts us) (depth : Nat) :
    Tailed (parens.stop depth ts) (parens.stop depth us) := by
  induction h generalizing depth with
  | @nil b hb =>
    have hstep : parens.step depth b [] = if depth = 0 then .inr () else .inl depth := by
      simp only [parens, hb.kind, reduceCtorEq, if_false]
    rw [Scan.stop, Scan.stop, Scan.run, Scan.run, hstep]
    split
    · rename_i hstop
      split at hstop
      · cases hstop
      · exact .inr ⟨rfl, rfl⟩
    · exact .inl (.nil hb)
  | @cons x y ts us halike hlast hts ih =>
    have hstep : parens.step depth x ts = parens.step depth y us := by
      simp only [parens, halike.kind]
    rw [Scan.stop, Scan.stop, Scan.run, Scan.run, hstep]
    split
    · exact ih _
    · exact .inl (.cons halike hlast hts)

/-- The look past an attribute comes to the same place. Its arguments may lack their end; then both
lists are used up. -/
theorem Braced.afterAttribute {ts us : Ahead} (h : Braced ts us) :
    Tailed ts.afterAttribute us.afterAttribute := by
  have hopens : Sealed fun ts => ts.isAt .leftParen && ts.adjacent :=
    (Agrees.isAt _ rfl).and .adjacent
  have hgroup {ts us : Ahead} (h : Tailed ts us) :
      Tailed (if ts.isAt .leftParen && ts.adjacent then ts.afterParens else ts)
        (if us.isAt .leftParen && us.adjacent then us.afterParens else us) := by
    rcases h with h | ⟨rfl, rfl⟩
    · have hsame : (ts.isAt .leftParen && ts.adjacent) = (us.isAt .leftParen && us.adjacent) :=
        hopens h trivial
      rw [hsame]
      split
      · exact (h.stop_parens 0).tail
      · exact .inl h
    · exact .inr ⟨rfl, rfl⟩
  refine hgroup ?_
  rw [Agrees.isName (P := fun _ => True) h trivial]
  split
  · exact Tailed.tail (.inl h)
  · exact .inl h

/-- The look past all attributes comes to the same place. -/
theorem Braced.afterAttributes {ts us : Ahead} (h : Braced ts us) :
    Tailed ts.afterAttributes us.afterAttributes := by
  fun_induction Ahead.afterAttributes ts generalizing us with
  | case1 =>
    cases h with
    | @nil b hb =>
      rw [Ahead.afterAttributes, hb.kind]
      exact .inl (.nil hb)
  | case2 x ts hat ih =>
    cases h with
    | @cons _ y _ us halike hlast hts =>
      rw [Ahead.afterAttributes, ← halike.kind, if_pos hat]
      rcases hts.afterAttribute with hafter | ⟨hnil, hnil'⟩
      · exact ih hafter
      · rw [hnil, hnil', Ahead.afterAttributes]
        exact .inr ⟨rfl, rfl⟩
  | case3 x ts hat =>
    cases h with
    | @cons _ y _ us halike hlast hts =>
      rw [Ahead.afterAttributes, ← halike.kind, if_neg hat]
      exact .inl (.cons halike hlast hts)

/-- What opens a line behind a name or a parenthesis does so in both lists. -/
theorem Braced.opensLineAt_succ {ts us : Ahead} (h : Braced ts us) {n : Nat}
    (hloose : loose.contains (Ahead.kind (ts.drop n))) :
    ts.opensLineAt (n + 1) = us.opensLineAt (n + 1) := by
  have hne := h.drop_succ_ne_nil hloose
  have hrest := h.drop hne
  rw [Ahead.opensLineAt, Ahead.opensLineAt]
  generalize ts.drop (n + 1) = vs at hne hrest
  generalize us.drop (n + 1) = ws at hrest
  cases hrest with
  | nil => exact absurd rfl hne
  | cons halike => exact halike.atLineStart

/-- Whether the tokens are the name of a modifier and its detail in parentheses. -/
def isDetailed (ts : Ahead) : Bool :=
  isAt .leftParen (ts.drop 1) && adjacent (ts.drop 1)
    && isAt .identifier (ts.drop 2) && isAt .rightParen (ts.drop 3)

namespace Agrees

/-- A modifier has the same length. It is not the last token before the end, since this is not
loose. -/
theorem modifierLength? : Agrees P Ahead.modifierLength? := by
  have hword : Sealed fun ts => ts.isAt .identifier && modifiers.any ts.isSpelled :=
    (isAt _ rfl).and fun ts us hb hts =>
      congrArg (fun cs : Text => modifiers.any fun s => cs == s.toList)
        (text (P := (· ≠ [])) (fun _ => id) hb (ne_nil_of_isAt (by decide) hts.2))
  have hdetailed : Sealed isDetailed :=
    (((Sealed.drop (isAt _ rfl) 1).and (Sealed.drop adjacent 1)).and
      (Sealed.drop (isAt _ rfl) 2)).and
      (Sealed.drop (isAt _ rfl) 3)
  -- a modifier does not end the block, so what is behind it is in both lists
  have hline {ts us : Ahead} (hb : Braced ts us) (hat : ts.isAt .identifier) :
      ts.opensLineAt (if ts.isDetailed then 4 else 1)
        = us.opensLineAt (if ts.isDetailed then 4 else 1) := by
    split
    · rename_i hdetail
      have hclosing : Ahead.isAt .rightParen (ts.drop 3) := (Bool.and_eq_true _ _ |>.mp hdetail).2
      refine hb.opensLineAt_succ (n := 3) ?_
      rw [beq_iff_eq.mp hclosing]
      rfl
    · refine hb.opensLineAt_succ (n := 0) ?_
      rw [List.drop_zero, beq_iff_eq.mp hat]
      rfl
  intro ts us hb _
  have hsame : (ts.isAt .identifier && modifiers.any ts.isSpelled)
      = (us.isAt .identifier && modifiers.any us.isSpelled) := hword hb trivial
  show (if (ts.isAt .identifier && modifiers.any ts.isSpelled) = true then
      if ts.opensLineAt (if ts.isDetailed then 4 else 1) then none
      else some (if ts.isDetailed then 4 else 1) else none)
    = if (us.isAt .identifier && modifiers.any us.isSpelled) = true then
      if us.opensLineAt (if us.isDetailed then 4 else 1) then none
      else some (if us.isDetailed then 4 else 1) else none
  rw [← hsame, ← hdetailed hb trivial]
  split
  · rename_i hmodifier
    rw [hline hb (Bool.and_eq_true _ _ |>.mp hmodifier).1]
  · rfl

end Agrees

/-- The look past all modifiers comes to the same place. -/
theorem Braced.afterModifiers {ts us : Ahead} (h : Braced ts us) :
    Tailed ts.afterModifiers us.afterModifiers := by
  fun_induction Ahead.afterModifiers ts generalizing us with
  | case1 =>
    cases h with
    | @nil b hb =>
      have hnone : Ahead.modifierLength? [b] = none :=
        (Agrees.modifierLength? (P := fun _ => True) (.nil hb) trivial).symm
      rw [Ahead.afterModifiers, hnone]
      exact .inl (.nil hb)
  | case2 x ts length hsome ih =>
    have hsame := Agrees.modifierLength? (P := fun _ => True) h trivial
    cases h with
    | @cons _ y _ us halike hlast hts =>
      rw [Ahead.afterModifiers, ← hsame, hsome]
      -- the modifier may be all that is left, but for the brace
      rcases Tailed.drop (.inl hts) (length - 1) with hdrop | ⟨hnil, hnil'⟩
      · exact ih hdrop
      · dsimp only
        rw [hnil, hnil', Ahead.afterModifiers]
        exact .inr ⟨rfl, rfl⟩
  | case3 x ts hnone =>
    have hsame := Agrees.modifierLength? (P := fun _ => True) h trivial
    cases h with
    | @cons _ y _ us halike hlast hts =>
      rw [Ahead.afterModifiers, ← hsame, hnone]
      exact .inl (.cons halike hlast hts)

namespace Agrees

/-- A declaration starts before the end just if it does before a brace. -/
theorem startsDecl : Agrees P Ahead.startsDecl := by
  intro ts us hb _
  have hkind : Sealed fun ts => ts.isAt .letKw || ts.isAt .varKw || ts.isAt .funcKw :=
    ((isAt _ rfl).or (isAt _ rfl)).or (isAt _ rfl)
  rcases hb.afterAttributes with h | ⟨hnil, hnil'⟩
  · exact Sealed.tailed hkind h.afterModifiers
  · rw [Ahead.startsDecl, Ahead.startsDecl, hnil, hnil']

theorem startsItem : Agrees P Ahead.startsItem :=
  startsStatement.and ((isAt _ rfl).not.or startsDecl)

end Agrees

/-! ## Scans -/

/-- **Scans are sealed.** A scan cannot tell a brace from the end if a brace stops it with the
answer that it has at the end, or counts for nothing, and if its steps see no difference. With this
no scan of the grammar has to be followed through the tokens again. -/
theorem Scan.sealed_answer {σ α : Type} {scan : Scan σ α} (s : σ)
    (hstep : ∀ s {x y ts us}, x.Alike y → Braced ts us → scan.step s x ts = scan.step s y us)
    (hend : ∀ s {b : Lexeme}, b.ClosesBlock → scan.answer s [b] = scan.atEnd s) :
    Sealed (scan.answer s) := by
  rintro ts us hb -
  induction hb generalizing s with
  | nil hb => exact (hend s hb).symm
  | cons halike hlast hts ih =>
    rw [Scan.answer, Scan.answer, Scan.run, Scan.run, hstep s halike hts]
    split
    · exact ih _
    · rfl

/-- A scan that stops before the end stops at the same token if a brace stands behind. -/
theorem Braced.stop {σ α : Type} {scan : Scan σ α} {s : σ} {ts us : Ahead} (h : Braced ts us)
    (hstep : ∀ s {x y ts us}, x.Alike y → Braced (x :: ts) (y :: us) →
      scan.step s x ts = scan.step s y us)
    (hstop : scan.stop s ts ≠ []) : Braced (scan.stop s ts) (scan.stop s us) := by
  induction h generalizing s with
  | nil => exact absurd rfl hstop
  | cons halike hlast hts ih =>
    have hsame := hstep s halike (.cons halike hlast hts)
    rw [Scan.stop, Scan.run, hsame] at hstop
    rw [Scan.stop, Scan.stop, Scan.run, Scan.run, hsame]
    split
    · rename_i hgo
      rw [hgo] at hstop
      exact ih hstop
    · exact .cons halike hlast hts

end Looks

end Ahead

end SwiftTree.Grammar
