import SwiftTree.Proofs.Counting
import SwiftTree.Proofs.Scopes

/-!
# Parentheses and delimiters in a scan

An interpolation ends where its first parenthesis is closed. So tokens of code do nothing to the
scopes that they are in but count the parentheses of an interpolation (`Scope.shift`), as long as
they do not end it (`Scope.Keeps`). What they open themselves, on top of that, has as many open
parentheses as they leave open (`Scope.scan_append_opened`). If they leave none open, only literals
can be open behind them, and these are given up in front of what no literal goes on with
(`Scope.scan_append_of_closed`).

The delimiters of literals and of interpolations open and close scopes. Where one of them has to
come, and the scan goes on, it does come; and a literal is given up just where none of its tokens
comes.
-/

namespace SwiftTree

open Grammar

namespace Scope

open Token

/-- What is open behind tokens of code, as far as their parentheses go. -/
def shift (ts : List Token.Outline) : List Scope → List Scope
  | .interpolation parens :: ss => .interpolation (parensBehind parens ts) :: ss
  | ss => ss

/-- Whether tokens do not end the interpolation that they are in, of which some more parentheses are
open. -/
def Keeps (more : Nat) (ts : List Token.Outline) : List Scope → Prop
  | .interpolation parens :: _ => staysOpen (parens + more) ts
  | _ => True

/-- How many parentheses are open in interpolations, with the first ones of these. -/
def parens : List Scope → Nat
  | [] => 0
  | .interpolation n :: ss => n + 1 + parens ss
  | _ :: ss => parens ss

variable {ss : List Scope} {t : Token.Outline} {ts us : List Token.Outline}

/-- The parentheses of some tokens, and then those of others, are counted one after the other. -/
theorem shift_append (ts us : List Token.Outline) (ss : List Scope) :
    shift (ts ++ us) ss = shift us (shift ts ss) := by
  unfold shift
  split
  · rw [parensBehind_append]
  · rename_i hne
    split
    · exact absurd rfl (hne _ _)
    · rfl

/-- Tokens keep the interpolation that they are in if their first part does, and their second part
does with what is open there. -/
theorem keeps_append : Keeps 0 (ts ++ us) ss ↔ Keeps 0 ts ss ∧ Keeps 0 us (shift ts ss) := by
  cases ss with
  | nil => simp [Keeps, shift]
  | cons s ss =>
    cases s with
    | interpolation n => exact staysOpen_append
    | _ => simp [Keeps, shift]

/-- Counting parentheses does not lead into a literal. -/
theorem isCode_shift (h : isCode ss) (ts : List Token.Outline) : isCode (shift ts ss) := by
  unfold shift
  split
  · rfl
  · exact h

@[simp] theorem shift_nil (ss : List Scope) : shift [] ss = ss := by
  unfold shift
  split <;> rfl

/-- Where parentheses do not end the interpolation around them, they are counted. -/
theorem count_eq_shift (h : Keeps 0 [t] ss) : count t.kind ss = shift [t] ss := by
  cases ss with
  | nil => rfl
  | cons s ss =>
    cases s with
    | interpolation n =>
      simp only [Keeps, staysOpen, Nat.add_zero, Bool.and_true] at h
      simp only [count, shift, parensBehind, Kind.parensBehind]
      split
      · rfl
      · split
        · rename_i hright
          rw [hright] at h
          cases n with
          | zero => cases h
          | succ n => rfl
        · rfl
    | _ => rfl

/-! ## Scans of any tokens -/

/-- How many parentheses are open is the sum over the scopes. -/
theorem parens_append (ss rs : List Scope) : parens (ss ++ rs) = parens ss + parens rs := by
  induction ss with
  | nil => rw [List.nil_append, parens, Nat.zero_add]
  | cons s ss ih => cases s <;> simp only [List.cons_append, parens, ih, Nat.add_assoc]

theorem parensBehind_of_ne {k : Kind} (hleft : k ≠ .leftParen) (hright : k ≠ .rightParen)
    (n : Nat) :
    k.parensBehind n = n := by
  rw [Kind.parensBehind, if_neg hleft, if_neg hright]

/-- A token of code opens a literal, or parentheses are counted. -/
theorem takeCode_cases {rs : List Scope} (h : takeCode t ss = some rs) :
    (∃ s, rs = s :: ss ∧ parens [s] = 0 ∧ t.kind ≠ .leftParen ∧ t.kind ≠ .rightParen) ∨
      rs = count t.kind ss := by
  have hne {k : Kind} (hk : k.isStringPart) : k ≠ .leftParen ∧ k ≠ .rightParen := by
    constructor <;> rintro rfl <;> cases hk
  unfold takeCode at h
  split at h
  · rename_i hquote
    refine .inl ⟨_, (Option.some.inj h).symm, rfl, hne ?_⟩
    rw [Kind.isStringPart, hquote]
    rfl
  · split at h
    · rename_i hpounds
      split at h
      · refine .inl ⟨_, (Option.some.inj h).symm, rfl, hne ?_⟩
        rw [hpounds]
        rfl
      · cases h
    · split at h
      · cases h
      · exact .inr (Option.some.inj h).symm

/-- A token that goes on with a literal opens an interpolation if it is a parenthesis. -/
theorem takeInside_cases {s : Scope} {rs : List Scope} (h : takeInside t (s :: ss) = some rs) :
    t.kind ≠ .rightParen ∧ parens [s] = 0 ∧
      ∃ opened, rs = opened ++ ss ∧ parens opened = t.kind.parensBehind 0 := by
  have hinside := isInLiteral_of_takeInside h
  have hright : t.kind ≠ .rightParen := by
    intro hk
    rw [hk] at hinside
    cases hinside
  have hquote {k : Kind} (hk : k.isStringQuote) : k.parensBehind 0 = 0 := by
    refine parensBehind_of_ne ?_ ?_ 0 <;> rintro rfl <;> cases hk
  refine ⟨hright, ?_⟩
  cases s with
  | interpolation n => cases h
  | escape =>
    rw [takeInside] at h
    split at h
    · rename_i hk
      rw [hk]
      exact ⟨rfl, [.interpolation 0], (Option.some.inj h).symm, rfl⟩
    · cases h
  | opening n =>
    rw [takeInside] at h
    split at h
    · rename_i hk
      exact ⟨rfl, [.literal _], (Option.some.inj h).symm, (hquote hk).symm⟩
    · cases h
  | closing d =>
    rw [takeInside] at h
    split at h
    · rename_i hk
      rw [hk.1]
      exact ⟨rfl, [], (Option.some.inj h).symm, rfl⟩
    · cases h
  | literal d =>
    refine ⟨rfl, ?_⟩
    rw [takeInside] at h
    split at h
    · rename_i hk
      rw [hk, hquote d.quoted]
      obtain rfl := Option.some.inj h
      split
      · exact ⟨[], rfl, rfl⟩
      · exact ⟨[.closing d], rfl, rfl⟩
    · split at h
      · rename_i hk
        rw [hk]
        exact ⟨[.escape, .literal d], (Option.some.inj h).symm, rfl⟩
      · split at h
        · rename_i hk
          rw [hk]
          exact ⟨[.literal d], (Option.some.inj h).symm, rfl⟩
        · cases h

/-- What is given up in front of a token is no interpolation, and nothing that code stands in. -/
theorem settle_append (hss : isCode ss) (rs : List Scope) (t : Token.Outline) :
    ∃ rs', settle t (rs ++ ss) = rs' ++ ss ∧ parens rs' = parens rs := by
  cases rs with
  | nil => exact ⟨[], settle_of_isCode hss, rfl⟩
  | cons r rs =>
    cases r with
    | literal d =>
      rw [List.cons_append, settle]
      split
      · exact ⟨rs, rfl, rfl⟩
      · exact ⟨.literal d :: rs, rfl, rfl⟩
    | _ => exact ⟨_, rfl, rfl⟩

/-- Parentheses are counted in the innermost of the interpolations that are open. -/
theorem exists_count_eq (k : Kind) (m : Nat) (rs ss : List Scope) :
    ∃ rs', count k (.interpolation m :: (rs ++ ss)) = rs' ++ ss ∧
      ∀ n, n + parens rs' = k.parensBehind (n + parens (.interpolation m :: rs)) := by
  have hparens (m : Nat) : parens (.interpolation m :: rs) = m + 1 + parens rs := rfl
  by_cases hleft : k = .leftParen
  · subst hleft
    refine ⟨.interpolation (m + 1) :: rs, rfl, fun n => ?_⟩
    rw [Kind.parensBehind, if_pos rfl, hparens, hparens]
    omega
  by_cases hright : k = .rightParen
  · subst hright
    have hcount (n : Nat) : Kind.rightParen.parensBehind n = n - 1 := rfl
    cases m with
    | zero => exact ⟨rs, rfl, fun n => by rw [hcount, hparens]; omega⟩
    | succ m =>
      exact ⟨.interpolation m :: rs, rfl, fun n => by rw [hcount, hparens, hparens]; omega⟩
  · exact ⟨.interpolation m :: rs, count_of_ne hleft hright,
      fun n => (parensBehind_of_ne hleft hright _).symm⟩

/-- What a token does where scopes are open that were opened since some code. -/
theorem take_opened {r : Scope} {rs qs : List Scope} (h : take t (r :: (rs ++ ss)) = some qs) :
    ∃ rs', qs = rs' ++ ss ∧ ∀ n, n + parens rs' = t.kind.parensBehind (n + parens (r :: rs)) := by
  have hparens : parens (r :: rs) = parens [r] + parens rs := parens_append [r] rs
  cases hcode : isCode (r :: (rs ++ ss)) with
  | false =>
    rw [take, hcode, if_neg Bool.false_ne_true] at h
    split at h
    · cases h
    · obtain ⟨hright, hr, opened, rfl, hopened⟩ := takeInside_cases h
      refine ⟨opened ++ rs, (List.append_assoc ..).symm, fun n => ?_⟩
      rw [parens_append, hopened, hparens, hr]
      unfold Kind.parensBehind
      rw [if_neg hright, if_neg hright]
      split <;> omega
  | true =>
    rw [take_of_isCode hcode] at h
    rcases takeCode_cases h with ⟨s, rfl, hs, hleft, hright⟩ | rfl
    · refine ⟨s :: r :: rs, rfl, fun n => ?_⟩
      rw [parensBehind_of_ne hleft hright, ← List.singleton_append, parens_append, hs, Nat.zero_add]
    · cases r with
      | interpolation m => exact exists_count_eq t.kind m rs ss
      | _ => cases hcode

/-- What a token does to the scopes that were opened since some code, and to that code. -/
theorem read_append (hss : isCode ss) {rs qs : List Scope} (h : read (rs ++ ss) t = some qs)
    (hkeeps : Keeps (parens rs) [t] ss) : ∃ rs' ts, qs = rs' ++ shift ts ss ∧
      ∀ n, parensBehind n ts + parens rs' = t.kind.parensBehind (n + parens rs) := by
  obtain ⟨rs', hsettle, hparens⟩ := settle_append hss rs t
  rw [Scope.read, hsettle] at h
  rw [← hparens] at hkeeps ⊢
  cases rs' with
  | nil =>
    rw [List.nil_append, take_of_isCode hss] at h
    rcases takeCode_cases h with ⟨s, rfl, hs, hleft, hright⟩ | rfl
    · refine ⟨[s], [], by rw [shift_nil]; rfl, fun n => ?_⟩
      rw [hs, parensBehind_of_ne hleft hright]
      rfl
    · exact ⟨[], [t], count_eq_shift hkeeps, fun n => rfl⟩
  | cons r rs' =>
    obtain ⟨qs', rfl, hqs'⟩ := take_opened h
    exact ⟨qs', [], by rw [shift_nil], hqs'⟩

/-- If tokens do not end an interpolation, neither does the first of them, nor do those behind
it. -/
theorem keeps_cons {more : Nat} (h : Keeps more (t :: ts) ss) : Keeps more [t] ss ∧
    ∀ us more', (∀ n, parensBehind n us + more' = t.kind.parensBehind (n + more)) →
      Keeps more' ts (shift us ss) := by
  cases ss with
  | nil => exact ⟨trivial, fun _ _ _ => trivial⟩
  | cons s ss =>
    cases s with
    | interpolation n =>
      rw [Keeps, staysOpen, Bool.and_eq_true] at h
      refine ⟨by rw [Keeps, staysOpen, h.1]; rfl, fun us more' hcount => ?_⟩
      rw [shift, Keeps, hcount]
      exact h.2
    | _ => exact ⟨trivial, fun _ _ _ => trivial⟩

/-- What tokens do to the scopes that were opened since some code, and to that code. The parentheses
among them are counted where they belong: those of the scopes in the scopes, and the others by the
code. -/
theorem scan_append_opened (hss : isCode ss) {rs qs : List Scope} (h : scan (rs ++ ss) ts = some qs)
    (hkeeps : Keeps (parens rs) ts ss) : ∃ rs' us, qs = rs' ++ shift us ss ∧
      ∀ n, parensBehind n us + parens rs' = parensBehind (n + parens rs) ts := by
  induction ts generalizing ss rs with
  | nil => exact ⟨rs, [], by rw [shift_nil]; exact (Option.some.inj h).symm, fun n => rfl⟩
  | cons t ts ih =>
    rw [scan_cons] at h
    obtain ⟨ps, hread, hscan⟩ := Option.bind_eq_some_iff.mp h
    obtain ⟨hfirst, hrest⟩ := keeps_cons hkeeps
    obtain ⟨rs₁, us₁, rfl, hcount⟩ := read_append hss hread hfirst
    obtain ⟨rs', us, rfl, hcount'⟩ := ih (isCode_shift hss us₁) hscan (hrest us₁ _ hcount)
    refine ⟨rs', us₁ ++ us, by rw [shift_append], fun n => ?_⟩
    rw [parensBehind_append, hcount', hcount]
    rfl

/-- Tokens that leave none of their parentheses open leave no interpolation open that was not. -/
theorem scan_closed (hss : isCode ss) {qs : List Scope} (h : scan ss ts = some qs)
    (hkeeps : Keeps 0 ts ss) (hclosed : parensBehind 0 ts = 0) :
    ∃ rs, qs = rs ++ shift ts ss ∧ parens rs = 0 := by
  have happend : scan ([] ++ ss) ts = some qs := h
  obtain ⟨rs, us, rfl, hcount⟩ := scan_append_opened hss happend hkeeps
  have hzero : parens rs = 0 := by
    have hcount := hcount 0
    rw [parens, Nat.add_zero, hclosed] at hcount
    omega
  refine ⟨rs, ?_, hzero⟩
  unfold shift
  split
  · rename_i n ss
    have hcount := hcount n
    rw [hzero] at hcount
    rw [show parensBehind n us = parensBehind n ts from hcount]
  · rfl

/-- In front of what no literal goes on with, only code can be open, or literals that are given up
now. -/
theorem read_append_of_closed (hss : isCode ss) {rs : List Scope} (hrs : parens rs = 0)
    (ht : t.leading.containsNewline = true ∨ t.kind.isInLiteral = false)
    (h : (read (rs ++ ss) t).isSome) : read (rs ++ ss) t = read ss t := by
  have hnone {r : Scope} {rs : List Scope} (hr : parens (r :: rs) = 0) :
      take t (r :: (rs ++ ss)) = none := by
    refine take_eq_none ?_ ht
    cases r with
    | interpolation n =>
      rw [parens] at hr
      omega
    | _ => rfl
  cases rs with
  | nil => rfl
  | cons r rs =>
    have hnot : settle t (r :: (rs ++ ss)) ≠ r :: (rs ++ ss) := by
      intro hsettle
      rw [List.cons_append, Scope.read, hsettle, hnone hrs] at h
      cases h
    cases r with
    | literal d =>
      rw [settle] at hnot
      split at hnot
      · rename_i hends
        rw [List.cons_append, Scope.read, settle, if_pos hends] at h ⊢
        cases rs with
        | nil => exact (read_of_isCode hss).symm ▸ take_of_isCode hss
        | cons r rs =>
          have hrest : parens (r :: rs) = 0 := hrs
          rw [List.cons_append, hnone hrest] at h
          cases h
      · exact absurd rfl hnot
    | _ => exact absurd rfl hnot

/-- Tokens that leave none of their parentheses open, in front of what no literal goes on with. They
may stand in code as if they were not there, but for the parentheses that they close. -/
theorem scan_append_of_closed (hss : isCode ss) (hkeeps : Keeps 0 ts ss)
    (hclosed : parensBehind 0 ts = 0)
    (ht : t.leading.containsNewline = true ∨ t.kind.isInLiteral = false)
    (h : (scan ss (ts ++ t :: us)).isSome) :
    scan ss (ts ++ t :: us) = scan (shift ts ss) (t :: us) := by
  rw [scan_append] at h ⊢
  cases hscan : scan ss ts with
  | none =>
    rw [hscan] at h
    cases h
  | some qs =>
    obtain ⟨rs, rfl, hrs⟩ := scan_closed hss hscan hkeeps hclosed
    rw [hscan, Option.bind_some, scan_cons] at h
    rw [Option.bind_some, scan_cons, scan_cons,
      read_append_of_closed (isCode_shift hss ts) hrs ht (Option.isSome_of_isSome_bind h)]

/-- A token of code that is no part of a literal only matters as a parenthesis. -/
theorem scan_cons_of_isCode (hss : isCode ss) (hkeeps : Keeps 0 [t] ss)
    (ht : t.kind.isStringPart = false) : scan ss (t :: us) = scan (shift [t] ss) us := by
  rw [scan_cons, read_of_isCode hss, takeCode_of_not_isStringPart ht, count_eq_shift hkeeps]
  rfl

end Scope

/-! ## What comes next -/

namespace Token

variable {us : List Outline} {next : Outlook}

/-- Whether tokens are left of which this is seen. -/
def Show (us : List Outline) (next : Outlook) : Prop := us ≠ [] ∧ sightOf us none = next

/-- What is seen of tokens behind some trees is the sight of the trees before what is seen behind
them. -/
theorem Show.append (h : Show us next) (gs : List Green) :
    Show (Green.tokensOf gs ++ us) (Green.sightOf gs next) := by
  refine ⟨List.append_ne_nil_of_right_ne_nil _ h.1, ?_⟩
  rw [sightOf_append, h.2]
  rfl

/-- If a token is seen, it is the first one that is left. -/
theorem Show.exists_cons (h : Show us next) : ∃ t ts, us = t :: ts ∧ t.sight = next := by
  obtain ⟨t, ts, rfl⟩ := List.exists_cons_of_ne_nil h.1
  exact ⟨t, ts, rfl, h.2⟩

end Token

namespace Outlook.LeavesLiterals

/-- What is seen not to go on with a literal opens a line, or is of no kind that literals go on
with. -/
theorem cases {t : Token.Outline} (h : Outlook.LeavesLiterals t.sight) :
    t.leading.containsNewline = true ∨ t.kind.isInLiteral = false := by
  cases hinside : t.kind.isInLiteral with
  | false => exact .inr rfl
  | true =>
    obtain ⟨hsteady, hend⟩ := Kind.isSteady_of_isInLiteral hinside
    refine .inl ?_
    by_contra hline
    rw [Bool.not_eq_true] at hline
    have hnone := h (by rw [Token.Outline.isOnLine_sight hend, hline]; rfl) t.kind hinside
    rw [Token.Outline.isAt_sight hsteady hend, beq_self_eq_true] at hnone
    cases hnone

end Outlook.LeavesLiterals

/-! ## Delimiters -/

namespace Scope

variable {ss : List Scope} {t : Token.Outline} {ts us : List Token.Outline} {d : Delimiter}
  {n : Nat} {next : Outlook}

/-- Tokens with as many parentheses of either sort, and never more closing ones, leave the scopes as
they were. -/
theorem shift_of_neutral (h : Token.Neutral ts) (ss : List Scope) : shift ts ss = ss := by
  unfold shift
  split
  · rw [h]
  · rfl

/-- A quote in code opens a literal without number signs. -/
theorem scan_quote (hss : isCode ss) (ht : t.kind.isStringQuote) :
    scan ss (t :: us) = scan (.literal ⟨0, t.kind, ht⟩ :: ss) us := by
  rw [scan_cons, read_of_isCode hss, takeCode, dif_pos ht]
  rfl

/-- In code, `#`s open a literal. -/
theorem scan_pounds (hss : isCode ss) (ht : t.kind = .rawStringDelimiter)
    (h : (scan ss (t :: us)).isSome) : t.text ≠ [] ∧
      t.text = List.replicate t.text.length '#' ∧
        scan ss (t :: us) = scan (.opening t.text.length :: ss) us := by
  have hquote : ¬t.kind.isStringQuote := by
    rw [ht]
    exact Bool.false_ne_true
  rw [scan_cons, read_of_isCode hss, takeCode, dif_neg hquote, if_pos ht] at h ⊢
  split at h
  · rename_i htext
    exact ⟨htext.1, htext.2, by rw [if_pos htext]; rfl⟩
  · cases h

/-- A literal that is not kept is given up. -/
theorem settle_of_ne (h : settle t (.literal d :: ss) ≠ .literal d :: ss) :
    settle t (.literal d :: ss) = ss := by
  rw [settle] at h ⊢
  split at h
  · rename_i hends
    exact if_pos hends
  · exact absurd rfl h

/-- What goes on with a literal stands on its line. -/
theorem scan_inside {s : Scope} (hcode : isCode (s :: ss) = false)
    (hsettle : settle t (s :: ss) = s :: ss) (h : (scan (s :: ss) (t :: us)).isSome) :
    scan (s :: ss) (t :: us) = (takeInside t (s :: ss)).bind fun ss' => scan ss' us := by
  rw [scan_cons, Scope.read, hsettle, take, hcode, if_neg Bool.false_ne_true] at h ⊢
  split at h
  · cases h
  · rename_i hline
    rw [if_neg hline]

/-- Behind the `#`s in front of a literal comes its quote. -/
theorem scan_openingQuote (h : (scan (.opening n :: ss) (t :: us)).isSome) :
    ∃ ht : t.kind.isStringQuote,
      scan (.opening n :: ss) (t :: us) = scan (.literal ⟨n, t.kind, ht⟩ :: ss) us := by
  have hinside := scan_inside rfl rfl h
  rw [hinside, takeInside] at h ⊢
  split at h
  · rename_i ht
    exact ⟨ht, by rw [dif_pos ht]; rfl⟩
  · cases h

/-- Behind the quote of a literal come its `#`s. -/
theorem scan_closingPounds (h : (scan (.closing d :: ss) (t :: us)).isSome) :
    t.kind = .rawStringDelimiter ∧ t.text = d.poundsText ∧
      scan (.closing d :: ss) (t :: us) = scan ss us := by
  have hinside := scan_inside rfl rfl h
  rw [hinside, takeInside] at h ⊢
  split at h
  · rename_i ht
    exact ⟨ht.1, ht.2, by rw [if_pos ht]; rfl⟩
  · cases h

/-- Behind the backslash of an interpolation comes its parenthesis. -/
theorem scan_paren (h : (scan (.escape :: ss) (t :: us)).isSome) :
    t.kind = .leftParen ∧ scan (.escape :: ss) (t :: us) = scan (.interpolation 0 :: ss) us := by
  have hinside := scan_inside rfl rfl h
  rw [hinside, takeInside] at h ⊢
  split at h
  · rename_i ht
    exact ⟨ht, by rw [if_pos ht]; rfl⟩
  · cases h

/-- A literal goes on with what stands on its line. -/
theorem read_literal (hline : t.leading.containsNewline = false) (hend : t.kind ≠ .endOfFile) :
    read (.literal d :: ss) t = takeInside t (.literal d :: ss) := by
  have hsettle : settle t (.literal d :: ss) = .literal d :: ss := by
    rw [settle, if_neg]
    rintro (hkind | ⟨-, hnewline⟩)
    · exact hend hkind
    · exact Bool.false_ne_true (hline.symm.trans hnewline)
  rw [Scope.read, hsettle, take_of_not_isCode rfl hline]

/-- The quote of a literal that is on its line closes it. If the literal has number signs, its
closing delimiter has to come next. -/
theorem scan_closingQuote (hline : t.leading.containsNewline = false) (ht : t.kind = d.quote) :
    scan (.literal d :: ss) (t :: us) = scan
    (if d.pounds = 0 then ss else .closing d :: ss) us := by
  have hend : t.kind ≠ .endOfFile := by
    have hquote := d.quoted
    rw [← ht] at hquote
    intro hkind
    rw [hkind] at hquote
    cases hquote
  rw [scan_cons, read_literal hline hend, takeInside, if_pos ht]
  rfl

/-- A backslash on the line of a literal starts an interpolation. -/
theorem scan_backslash (hline : t.leading.containsNewline = false) (ht : t.kind = .backslash) :
    scan (.literal d :: ss) (t :: us) = scan (.escape :: .literal d :: ss) us := by
  rw [scan_cons, read_literal hline (by rw [ht]; exact nofun), takeInside_backslash ht]
  rfl

/-- The parenthesis that closes the first one ends an interpolation. -/
theorem scan_closingParen (ht : t.kind = .rightParen) :
    scan (.interpolation 0 :: ss) (t :: us) = scan ss us := by
  have hpart : t.kind.isStringPart = false := by rw [ht]; rfl
  rw [scan_cons, read_of_isCode rfl, takeCode_of_not_isStringPart hpart, ht]
  rfl

/-- A segment in a literal that goes on is on its line, and leaves it open. -/
theorem scan_segment (hss : isCode ss) (ht : t.kind = .stringSegment)
    (h : (scan (.literal d :: ss) (t :: us)).isSome) :
    scan (.literal d :: ss) (t :: us) = scan (.literal d :: ss) us := by
  have hcode : takeCode t ss = none := by
    rw [takeCode, dif_neg, if_neg, if_pos ht]
    · rw [ht]
      decide
    · rw [ht]
      exact Bool.false_ne_true
  by_cases hgoes : settle t (.literal d :: ss) = .literal d :: ss
  · rw [scan_inside rfl hgoes h, takeInside_segment ht]
    rfl
  · rw [scan_cons, Scope.read, settle_of_ne hgoes, take_of_isCode hss, hcode] at h
    cases h

/-- A literal is given up where none of its tokens comes next. -/
theorem scan_unclosed (hss : isCode ss) (hus : Token.Show us next)
    (hsegment : next.isAt .stringSegment = false)
    (hline : next.isOnLine → next.isAt .backslash = false ∧ next.isAt d.quote = false)
    (h : (scan (.literal d :: ss) us).isSome) : scan (.literal d :: ss) us = scan ss us := by
  obtain ⟨t, us, rfl, rfl⟩ := hus.exists_cons
  by_cases hgoes : settle t (.literal d :: ss) = .literal d :: ss
  · -- the literal would have to go on
    exfalso
    rw [scan_cons, Scope.read, hgoes, take, show isCode (.literal d :: ss) = false from rfl,
      if_neg Bool.false_ne_true] at h
    split at h
    · cases h
    rename_i hnewline
    rw [Bool.not_eq_true] at hnewline
    obtain ⟨ss', htake⟩ := Option.isSome_iff_exists.mp (Option.isSome_of_isSome_bind h)
    obtain ⟨-, hend⟩ := Kind.isSteady_of_isInLiteral (isInLiteral_of_takeInside htake)
    have hnone {k : Kind} (hk : k.isInLiteral) (hat : t.sight.isAt k = false) : t.kind ≠ k := by
      obtain ⟨hsteady, hend⟩ := Kind.isSteady_of_isInLiteral hk
      rw [Token.Outline.isAt_sight hsteady hend] at hat
      exact ne_of_beq_false hat
    have honline : t.sight.isOnLine := by
      rw [Token.Outline.isOnLine_sight hend, hnewline]
      rfl
    obtain ⟨hbackslash, hquote⟩ := hline honline
    rw [takeInside, if_neg (hnone (Kind.isInLiteral_of_isStringQuote d.quoted) hquote),
      if_neg (hnone rfl hbackslash), if_neg (hnone rfl hsegment)] at htake
    cases htake
  · rw [scan_cons, Scope.read, settle_of_ne hgoes, scan_cons, read_of_isCode hss,
      take_of_isCode hss]

end Scope

end SwiftTree
