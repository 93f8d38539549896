import SwiftTree.Proofs.Literals
import SwiftTree.Proofs.Placement

/-!
# Literals as a scan

Which string literals a token stands in can be told by a scan from left to right. It keeps what is
open (`Scope`): literals, the interpolations in them, and the tokens in between of which only one
can come next. `Scope.read` takes a token if it can come where it does. Before that, a literal is
given up whose text or line ends.

The scan takes all the tokens of a text, and nothing is open behind them (`Token.scan_stream`). This
is so because its scopes are the modes of the tokenizer. It is also so for the pieces of the tokens
(`Token.Pieces.scan_eq`), for only tokens that do not matter to it are ever cut, or taken as other
ones.
-/

namespace SwiftTree

open Grammar

/-- What a scan of tokens is in the middle of. -/
inductive Scope where
  /-- the `#`s in front of the quote of a literal -/
  | opening (pounds : Nat)
  /-- a literal -/
  | literal (d : Delimiter)
  /-- the quote at the end of a literal, in front of its `#`s -/
  | closing (d : Delimiter)
  /-- the backslash of an interpolation -/
  | escape
  /-- an interpolation, of whose parentheses `parens` are open behind the first one -/
  | interpolation (parens : Nat)
deriving DecidableEq, Repr

namespace Kind

/-- The tokens that only string literals have. -/
def isStringPart (k : Kind) : Bool :=
  k.isStringQuote || k == .rawStringDelimiter || k == .stringSegment

/-- A quote is one of the tokens that can go on with a literal. -/
theorem isInLiteral_of_isStringQuote {k : Kind} (h : k.isStringQuote) : k.isInLiteral := by
  unfold isStringQuote at h
  split at h
  case h_4 => cases h
  all_goals rfl

/-- A token that stands alone is no part of a literal. -/
theorem not_isStringPart_of_standsAlone {k : Kind} (h : k.standsAlone) :
    k.isStringPart = false := by
  simp only [standsAlone, Bool.and_eq_true, Bool.not_eq_true', bne_iff_ne] at h
  obtain ⟨⟨⟨-, hquote⟩, hpounds⟩, hsegment⟩ := h
  rw [isStringPart, hquote, beq_false_of_ne hpounds, beq_false_of_ne hsegment]
  rfl

/-- The kinds of tokens that only come in code, and do not matter to a scan there. -/
def isIdle (k : Kind) : Bool := k.standsAlone && !k.isInLiteral && k != .rightParen

/-- What is cut, or taken as something else, comes in code and does not matter to a scan there. This
is computed for all kinds. -/
theorem isIdle_of_not_isSteady {k : Kind} (h : k.isSteady = false) : k.isIdle := by
  have himplies : implies (fun k => !k.isSteady) isIdle := by decide +kernel
  refine of_implies himplies ?_
  rw [h]
  rfl

/-- The end of the file is not one of the tokens that a scan takes no notice of. -/
theorem ne_endOfFile_of_isIdle {k : Kind} (h : k.isIdle) : k ≠ .endOfFile := by
  rintro rfl
  cases h

end Kind

namespace Scope

/-- Whether code can come next, and not only what goes on with a literal. -/
def isCode : List Scope → Bool
  | [] | .interpolation _ :: _ => true
  | _ => false

/-- What is open in front of a token: a literal is given up where the text or its line ends. -/
def settle (t : Token.Outline) : List Scope → List Scope
  | .literal d :: ss =>
    if t.kind = .endOfFile ∨ d.isMultiline = false ∧ t.leading.containsNewline then ss
    else .literal d :: ss
  | ss => ss

/-- What is open behind a token of code. Parentheses are counted in interpolations, and the one that
matches their first ends them. -/
def count (k : Kind) : List Scope → List Scope
  | .interpolation parens :: ss =>
    if k = .leftParen then .interpolation (parens + 1) :: ss
    else if k = .rightParen then
      match parens with
      | 0 => ss
      | parens + 1 => .interpolation parens :: ss
    else .interpolation parens :: ss
  | ss => ss

/-- What is open behind a token that comes in code. -/
def takeCode (t : Token.Outline) (ss : List Scope) : Option (List Scope) :=
  if h : t.kind.isStringQuote then some (.literal ⟨0, t.kind, h⟩ :: ss)
  else if t.kind = .rawStringDelimiter then
    if t.text ≠ [] ∧ t.text = List.replicate t.text.length '#' then
      some (.opening t.text.length :: ss)
    else none
  else if t.kind = .stringSegment then none
  else some (count t.kind ss)

/-- What is open behind a token that goes on with a literal. -/
def takeInside (t : Token.Outline) : List Scope → Option (List Scope)
  | .opening pounds :: ss =>
    if h : t.kind.isStringQuote then some (.literal ⟨pounds, t.kind, h⟩ :: ss) else none
  | .literal d :: ss =>
    if t.kind = d.quote then some (if d.pounds = 0 then ss else .closing d :: ss)
    else if t.kind = .backslash then some (.escape :: .literal d :: ss)
    else if t.kind = .stringSegment then some (.literal d :: ss)
    else none
  | .closing d :: ss =>
    if t.kind = .rawStringDelimiter ∧ t.text = d.poundsText then some ss else none
  | .escape :: ss => if t.kind = .leftParen then some (.interpolation 0 :: ss) else none
  | _ => none

/-- What is open behind a token. A literal goes on only on its line, for line breaks in a literal
are part of its segments. -/
def take (t : Token.Outline) (ss : List Scope) : Option (List Scope) :=
  if isCode ss then takeCode t ss
  else if t.leading.containsNewline then none
  else takeInside t ss

/-- What is open behind a token, in front of which a literal may be given up. -/
def read (ss : List Scope) (t : Token.Outline) : Option (List Scope) := take t (settle t ss)

/-- What is open behind several tokens. -/
def scan (ss : List Scope) (ts : List Token.Outline) : Option (List Scope) := ts.foldlM read ss

variable {ss : List Scope} {t : Token.Outline} {ts us : List Token.Outline}

theorem scan_cons (ss : List Scope) (t : Token.Outline) (ts : List Token.Outline) :
    scan ss (t :: ts) = (read ss t).bind fun ss' => scan ss' ts := List.foldlM_cons

theorem scan_append (ss : List Scope) (ts us : List Token.Outline) :
    scan ss (ts ++ us) = (scan ss ts).bind fun ss' => scan ss' us := List.foldlM_append

theorem scan_singleton (ss : List Scope) (t : Token.Outline) : scan ss [t] = read ss t := by
  rw [scan_cons]
  exact Option.bind_fun_some _

/-- Where code can come, no literal has to be given up. -/
theorem settle_of_isCode (h : isCode ss) : settle t ss = ss := by
  unfold settle
  split
  · cases h
  · rfl

theorem take_of_isCode (h : isCode ss) : take t ss = takeCode t ss := if_pos h

theorem read_of_isCode (h : isCode ss) : read ss t = takeCode t ss := by
  rw [read, settle_of_isCode h, take_of_isCode h]

theorem take_of_not_isCode (h : isCode ss = false) (hline : t.leading.containsNewline = false) :
    take t ss = takeInside t ss := by
  rw [take, h, if_neg Bool.false_ne_true, hline, if_neg Bool.false_ne_true]

/-- Only some tokens go on with a literal. -/
theorem isInLiteral_of_takeInside {ss' : List Scope} (h : takeInside t ss = some ss') :
    t.kind.isInLiteral := by
  unfold takeInside at h
  split at h
  · split at h
    · rename_i hk
      exact Kind.isInLiteral_of_isStringQuote hk
    · cases h
  · rename_i d _
    split at h
    · rename_i hk
      rw [hk]
      exact Kind.isInLiteral_of_isStringQuote d.quoted
    · split at h
      · rename_i hk
        rw [hk]
        rfl
      · split at h
        · rename_i hk
          rw [hk]
          rfl
        · cases h
  · split at h
    · rename_i hk
      rw [hk.1]
      rfl
    · cases h
  · split at h
    · rename_i hk
      rw [hk]
      rfl
    · cases h
  · cases h

/-- A segment leaves the literal open. -/
theorem takeInside_segment {d : Delimiter} (h : t.kind = .stringSegment) :
    takeInside t (.literal d :: ss) = some (.literal d :: ss) := by
  have hquote : t.kind ≠ d.quote := by
    intro hk
    have hquoted := d.quoted
    rw [← hk, h] at hquoted
    cases hquoted
  rw [takeInside, if_neg hquote, h, if_neg nofun, if_pos rfl]

/-- A backslash in a literal is followed by what starts an interpolation. -/
theorem takeInside_backslash {d : Delimiter} (h : t.kind = .backslash) :
    takeInside t (.literal d :: ss) = some (.escape :: .literal d :: ss) := by
  have hquote : t.kind ≠ d.quote := by
    intro hk
    have hquoted := d.quoted
    rw [← hk, h] at hquoted
    cases hquoted
  rw [takeInside, if_neg hquote, if_pos h]

/-- A token that no literal goes on with only comes in code. -/
theorem take_eq_none (h : isCode ss = false)
    (ht : t.leading.containsNewline = true ∨ t.kind.isInLiteral = false) : take t ss = none := by
  rw [take, h, if_neg Bool.false_ne_true]
  split
  · rfl
  · rename_i hline
    have hkind := ht.resolve_left hline
    cases hinside : takeInside t ss with
    | none => rfl
    | some ss' =>
      rw [isInLiteral_of_takeInside hinside] at hkind
      cases hkind

/-- In code, only quotes, `#`s, segments and parentheses matter. -/
theorem takeCode_of_not_isStringPart (h : t.kind.isStringPart = false) :
    takeCode t ss = some (count t.kind ss) := by
  simp only [Kind.isStringPart, Bool.or_eq_false_iff, beq_eq_false_iff_ne] at h
  rw [takeCode, dif_neg (Bool.eq_false_iff.mp h.1.1), if_neg h.1.2, if_neg h.2]

/-- Only parentheses are counted. -/
theorem count_of_ne {k : Kind} (hleft : k ≠ .leftParen) (hright : k ≠ .rightParen) :
    count k ss = ss := by
  unfold count
  split
  · rw [if_neg hleft, if_neg hright]
  · rfl

/-- A token that only comes in code, and does not matter there. -/
theorem read_of_isIdle (h : t.kind.isIdle) :
    read ss t = if isCode (settle t ss) then some (settle t ss) else none := by
  simp only [Kind.isIdle, Bool.and_eq_true, Bool.not_eq_true', bne_iff_ne] at h
  obtain ⟨⟨halone, hinside⟩, hright⟩ := h
  have hleft : t.kind ≠ .leftParen := by
    intro hk
    rw [hk] at hinside
    cases hinside
  cases hcode : isCode (settle t ss) with
  | false => exact take_eq_none hcode (.inr hinside)
  | true =>
    rw [read, take, if_pos hcode,
      takeCode_of_not_isStringPart (Kind.not_isStringPart_of_standsAlone halone),
      count_of_ne hleft hright]
    rfl

/-- What leads such a token tells all that it does. -/
theorem read_eq_of_isIdle {t u : Token.Outline} (hleading : t.leading = u.leading)
    (ht : t.kind.isIdle) (hu : u.kind.isIdle) : read ss t = read ss u := by
  have hsettle : settle t ss = settle u ss := by
    unfold settle
    rw [hleading]
    simp only [Kind.ne_endOfFile_of_isIdle ht, Kind.ne_endOfFile_of_isIdle hu]
  rw [read_of_isIdle ht, read_of_isIdle hu, hsettle]

end Scope

/-! ## Pieces of tokens -/

namespace Token

open Scope

/-- The pieces of a token do to the scopes what the token does. Only operators are cut, and a scan
of scopes does not look at them. -/
theorem IsCut.scan_eq {t : Token} {ps : List Token} (h : IsCut t ps) (ss : List Scope) :
    scan ss (ps.map outline) = read ss t.outline := by
  induction h generalizing ss with
  | @whole t k hk =>
    refine (scan_singleton ss _).trans ?_
    rcases hk.eq_or_not_isSteady with rfl | ⟨ht, hk⟩
    · rfl
    · exact read_eq_of_isIdle (u := t.outline) rfl (Kind.isIdle_of_not_isSteady hk)
        (Kind.isIdle_of_not_isSteady ht)
  | @cut t k a b ps hop _ _ _ hk _ ih =>
    have ht : t.kind.isIdle := Kind.isIdle_of_not_isSteady (by simp [Kind.isSteady, hop])
    have hk : k.isIdle := by
      rcases hk.eq_or_not_isSteady with rfl | ⟨-, hk⟩
      · exact ht
      · exact Kind.isIdle_of_not_isSteady hk
    -- the first piece does what the token does, and the others then do nothing
    have hfirst : read ss (outline ⟨t.leading, k, a, []⟩) = read ss t.outline :=
      read_eq_of_isIdle rfl hk ht
    have hread : read ss t.outline
        = if isCode (settle t.outline ss) then some (settle t.outline ss) else none :=
      read_of_isIdle ht
    rw [List.map_cons, scan_cons, hfirst, hread]
    split
    · rename_i hcode
      have hidle : (outline ⟨[], t.kind, b, t.trailing⟩).kind.isIdle := ht
      have hothers : read (settle t.outline ss) (outline ⟨[], t.kind, b, t.trailing⟩)
          = some (settle t.outline ss) := by
        rw [read_of_isIdle hidle, settle_of_isCode hcode, if_pos hcode]
      rw [Option.bind_some, ih, hothers]
    · rfl

/-- Cutting tokens changes nothing about the literals that they stand in, and neither does taking
them as others. -/
theorem Pieces.scan_eq {ts us : List Token} (h : Pieces ts us) (ss : List Scope) :
    scan ss (us.map outline) = scan ss (ts.map outline) := by
  induction h generalizing ss with
  | nil => rfl
  | cons ht _ ih =>
    rw [List.map_append, scan_append, ht.scan_eq, List.map_cons, scan_cons]
    exact congrArg _ (funext ih)

end Token

/-! ## The modes of the tokenizer -/

namespace Tokenizer

open Text Token Scope

/-- What a mode is to a scan. The first parenthesis of an interpolation has to come. -/
def Mode.scope : Mode → Scope
  | .string d _ => .literal d
  | .interpolation 0 => .escape
  | .interpolation (parens + 1) => .interpolation parens

/-- The scopes that a tokenizer is in the middle of. -/
def scopes (s : Tokenizer) : List Scope := s.modes.map Mode.scope

/-- Whether a token can come next: in a literal there is no trivia, and elsewhere it is what comes
next. -/
structure Comes (s : Tokenizer) (t : Token) : Prop where
  inside : s.inString → t.leading = [] ∧ t.kind ≠ .endOfFile
  outside : s.inString = false → t.leading = s.skipTrivia.leading ∧
    (s.skipTrivia.rest = [] → t.kind = .endOfFile)

/-- Whether a token that was not recognised can stand in the place of one of the tokens and all that
follow it. -/
def Replaceable (ts : List Token) (opener : Nat) : Prop :=
  ∀ first, ts[opener]? = some first → ∀ t : Token, t.leading = first.leading → t.kind = .unknown →
    scan [] ((ts.take opener ++ [t]).map outline) = some []

/-- What holds of a tokenizer at every step, as far as a scan goes. -/
structure Scoped (s : Tokenizer) : Prop where
  /-- trivia is only read right before a token -/
  bare : s.leading = []
  /-- the tokens so far lead to the scopes, up to what the next token gives up -/
  reached : ∃ ss, scan [] (s.tokens.reverse.map outline) = some ss ∧
    ∀ t, s.Comes t → settle t.outline ss = s.scopes
  /-- a token can stand where the outermost literal was opened -/
  replaceable : ∀ opener ∈ outermost s.modes, Replaceable s.tokens.reverse opener

variable {s : Tokenizer} {d : Delimiter} {opener : Nat} {ms : List Mode}

theorem scoped_start (text : Text) : (start text).Scoped :=
  ⟨rfl, ⟨[], rfl, fun _ _ => rfl⟩, nofun⟩

/-- Where a literal can stand, code can come. -/
theorem isCode_of_open (h : Open ms) : isCode (ms.map Mode.scope) := by
  cases ms with
  | nil => rfl
  | cons m ms =>
    obtain ⟨parens, rfl⟩ := h m rfl
    rfl

/-- Parentheses are counted as the tokenizer counts them. -/
theorem scope_modesBehind (h : Open ms) (k : Kind) :
    (modesBehind k ms).map Mode.scope = count k (ms.map Mode.scope) := by
  cases ms with
  | nil => rfl
  | cons m ms =>
    obtain ⟨parens, rfl⟩ := h m rfl
    unfold modesBehind
    simp only [List.map_cons, Mode.scope, count]
    split
    · rfl
    · split
      · cases parens with
        | zero => rfl
        | succ parens =>
          rw [if_neg (by omega)]
          rfl
      · rfl

/-- Nothing is given up of what a tokenizer is in the middle of. -/
theorem settle_scopes {t : Token} (ht : s.Comes t) : settle t.outline s.scopes = s.scopes := by
  unfold scopes
  cases hmodes : s.modes with
  | nil => rfl
  | cons m ms =>
    cases m with
    | string d opener =>
      obtain ⟨hleading, hkind⟩ := ht.inside (by rw [inString, hmodes])
      have hline : t.outline.leading.containsNewline = false := by
        rw [outline, hleading]
        rfl
      rw [List.map_cons, Mode.scope, settle, if_neg]
      rintro (hend | ⟨-, hnewline⟩)
      · exact hkind hend
      · rw [hline] at hnewline
        cases hnewline
    | interpolation parens => cases parens <;> rfl

/-- Where a literal is opened stays where it is when tokens are added. -/
theorem Scoped.replaceable_append (h : s.Scoped) (hintact : s.Intact) (us : List Token)
    (hopener : opener ∈ outermost s.modes) : Replaceable (s.tokens.reverse ++ us) opener := by
  obtain ⟨d, hd⟩ := exists_string_of_outermost hopener
  obtain ⟨first, hfirst, -⟩ := hintact.opened d opener hd
  obtain ⟨hlt, -⟩ := List.getElem?_eq_some_iff.mp hfirst
  have hreplaceable := h.replaceable opener hopener
  intro first' hfirst'
  rw [List.getElem?_append_left hlt] at hfirst'
  rw [List.take_append_of_le_length (Nat.le_of_lt hlt)]
  exact hreplaceable first' hfirst'

/-- A token that comes next leads on from the scopes. -/
theorem Scoped.scan_concat (h : s.Scoped) {t : Token} (ht : s.Comes t) :
    scan [] ((s.tokens.reverse ++ [t]).map outline) = take t.outline s.scopes := by
  obtain ⟨ss, hss, hsettle⟩ := h.reached
  rw [List.map_append, scan_append, hss, Option.bind_some, List.map_singleton, scan_singleton,
    Scope.read, hsettle t ht]

/-- Tokens that are made keep the invariant if they lead to the scopes. -/
theorem Scoped.advance (h : s.Scoped) {s' : Tokenizer} {t : Token} (us : List Token)
    (htokens : s'.tokens.reverse = s.tokens.reverse ++ t :: us) (hbare : s'.leading = [])
    (ht : s.Comes t)
    (hscan : (take t.outline s.scopes).bind (fun ss => scan ss (us.map outline)) = some s'.scopes)
    (hreplaceable : ∀ opener ∈ outermost s'.modes,
      Replaceable (s.tokens.reverse ++ t :: us) opener) : s'.Scoped := by
  refine ⟨hbare, ⟨s'.scopes, ?_, fun _ => settle_scopes⟩, ?_⟩
  · rw [htokens, ← List.singleton_append, ← List.append_assoc, List.map_append, scan_append,
      h.scan_concat ht]
    exact hscan
  · rw [htokens]
    exact hreplaceable

/-- In a literal, what comes next is led by no trivia. -/
theorem comes_of_string {t : Token} (hmodes : s.modes = .string d opener :: ms)
    (hleading : t.leading = []) (hkind : t.kind ≠ .endOfFile) : s.Comes t := by
  have hin : s.inString := by rw [inString, hmodes]
  refine ⟨fun _ => ⟨hleading, hkind⟩, fun hout => ?_⟩
  rw [hin] at hout
  cases hout

/-- In front of code, what comes next is led by the trivia that is read first. -/
theorem comes_of_outside {t : Token} (hout : s.inString = false)
    (hleading : t.leading = s.skipTrivia.leading) (hrest : s.skipTrivia.rest ≠ []) : s.Comes t := by
  refine ⟨fun hin => ?_, fun _ => ⟨hleading, fun hnil => absurd hnil hrest⟩⟩
  rw [hout] at hin
  cases hin

/-- A token that no trivia leads goes on with a literal. -/
theorem take_of_leading_nil {t : Token} {ss : List Scope} (h : isCode ss = false)
    (ht : t.leading = []) : take t.outline ss = takeInside t.outline ss := by
  refine take_of_not_isCode h ?_
  rw [outline, ht]
  rfl

/-- A quote is not the end of the file. -/
theorem ne_endOfFile_of_isStringQuote {k : Kind} (h : k.isStringQuote) : k ≠ .endOfFile := by
  rintro rfl
  cases h

/-- The `#`s and the quote of a literal open it where code can come. -/
theorem scan_opening {ss : List Scope} {pounds : List Token} {quote first : Token}
    {behind : List Token} (hss : isCode ss) (hpounds : d.ArePounds pounds)
    (hquote : d.IsQuote quote)
    (heq : pounds ++ [quote] = first :: behind) (hbehind : ∀ t ∈ behind, t.leading = []) :
    (take first.outline ss).bind (fun ss' => scan ss' (behind.map outline))
      = some (.literal d :: ss) := by
  obtain ⟨n, quoteKind, quoted⟩ := d
  have hkind : quote.outline.kind = quoteKind := hquote.kind
  have hisQuote : quote.outline.kind.isStringQuote := by rw [hkind]; exact quoted
  rw [take, if_pos hss, takeCode]
  rw [Delimiter.ArePounds] at hpounds
  split at hpounds
  · rename_i hzero
    subst hzero hpounds
    obtain ⟨rfl, rfl⟩ := List.cons.inj heq
    rw [dif_pos hisQuote]
    subst hkind
    rfl
  · rename_i hpos
    obtain ⟨t, rfl, ht, htext⟩ := hpounds
    rw [List.singleton_append] at heq
    obtain ⟨rfl, rfl⟩ := List.cons.inj heq
    have htkind : t.outline.kind = .rawStringDelimiter := ht
    -- the scope of the `#`s remembers how many there are, and the quote takes them over
    have hlength : t.outline.text.length = n := by
      rw [text_outline, htext, Delimiter.length_poundsText]
    have hnot : ¬t.outline.kind.isStringQuote := by
      rw [htkind]
      exact Bool.false_ne_true
    have hspelled : t.outline.text ≠ [] ∧
      t.outline.text = List.replicate t.outline.text.length '#' := by
      refine ⟨fun hnil => ?_, ?_⟩
      · rw [hnil] at hlength
        exact hpos hlength.symm
      · rw [hlength, text_outline, htext]
        rfl
    have hleading : quote.leading = [] := hbehind quote (List.mem_singleton_self _)
    rw [dif_neg hnot, if_pos htkind, if_pos hspelled, Option.bind_some, List.map_singleton,
      scan_singleton, Scope.read, settle, take_of_leading_nil rfl hleading, takeInside,
      dif_pos hisQuote]
    · subst hkind
      simp only [hlength]
    · rintro _ _ ⟨⟩

/-- The quote of a literal and its `#`s close it. -/
theorem scan_closing {ss : List Scope} {pounds : List Token} {quote : Token}
    (hpounds : d.ArePounds pounds) (hquote : d.IsQuote quote) (hleading : quote.leading = [])
    (hbehind : ∀ t ∈ pounds, t.leading = []) :
    (take quote.outline (.literal d :: ss)).bind (fun ss' => scan ss' (pounds.map outline))
      = some ss := by
  have hkind : quote.outline.kind = d.quote := hquote.kind
  rw [take_of_leading_nil rfl hleading, takeInside, if_pos hkind, Option.bind_some]
  rw [Delimiter.ArePounds] at hpounds
  split at hpounds
  · rename_i hzero
    rw [if_pos hzero, hpounds]
    rfl
  · rename_i hpos
    obtain ⟨t, rfl, ht, htext⟩ := hpounds
    have htkind : t.outline.kind = .rawStringDelimiter := ht
    have htleading : t.leading = [] := hbehind t (List.mem_singleton_self _)
    rw [if_neg hpos, List.map_singleton, scan_singleton, Scope.read, settle,
      take_of_leading_nil rfl htleading, takeInside, if_pos]
    · exact ⟨htkind, (text_outline t).trans htext⟩
    · rintro _ _ ⟨⟩

/-- Closing a literal keeps the invariant: the scan leaves the literal with its quote, and with the
number signs behind it if it has any. -/
theorem Scoped.closeString (h : s.Scoped) (hintact : s.Intact)
    (hmodes : s.modes = .string d opener :: ms) (hcloser : startsWith s.rest d.closer) :
    (s.closeString d ms).Scoped := by
  obtain ⟨quote, pounds, rest, hquote, hpounds, ⟨hleading, hbehind⟩, hclose⟩ :=
    exists_closeString_eq hmodes hcloser
  have hscopes : s.scopes = .literal d :: ms.map Mode.scope := by rw [scopes, hmodes]; rfl
  have hbare : quote.leading = [] := hleading.trans h.bare
  have hcomes : s.Comes quote := by
    refine comes_of_string hmodes hbare ?_
    rw [hquote.kind]
    exact ne_endOfFile_of_isStringQuote d.quoted
  rw [hclose]
  refine h.advance pounds ?_ rfl hcomes ?_ ?_
  · rw [List.reverse_append, List.reverse_cons, hpounds.reverse, List.append_assoc]
    rfl
  · rw [hscopes, scan_closing hpounds hquote hbare hbehind]
    rfl
  · intro opener' hopener
    refine h.replaceable_append hintact _ ?_
    rw [hmodes]
    exact outermost_cons_of_mem hopener

/-- A segment keeps the invariant, however long it is. -/
theorem Scoped.segment (h : s.Scoped) (hintact : s.Intact)
    (hmodes : s.modes = .string d opener :: ms) (n : Nat) : (s.emit .stringSegment n).Scoped := by
  have hscopes : s.scopes = .literal d :: ms.map Mode.scope := by rw [scopes, hmodes]; rfl
  rw [emit_of_string hmodes]
  refine h.advance [] List.reverse_cons rfl (comes_of_string hmodes h.bare nofun) ?_ ?_
  · rw [hscopes, take_of_leading_nil rfl h.bare, takeInside_segment rfl]
    exact congrArg some hscopes.symm
  · exact fun opener' => h.replaceable_append hintact _

/-- The start of an interpolation keeps the invariant: the scan waits for its first parenthesis, as
the tokenizer does. -/
theorem Scoped.interpolation (h : s.Scoped) (hintact : s.Intact)
    (hmodes : s.modes = .string d opener :: ms) (n : Nat) :
    ({ s with modes := .interpolation 0 :: s.modes }.emit .backslash n).Scoped := by
  have hscopes : s.scopes = .literal d :: ms.map Mode.scope := by rw [scopes, hmodes]; rfl
  obtain ⟨trailing, rest, -, hemit⟩ :=
    exists_emit_eq { s with modes := .interpolation 0 :: s.modes } .backslash n
  rw [hemit]
  refine h.advance [] List.reverse_cons rfl (comes_of_string hmodes h.bare nofun) ?_ ?_
  · rw [hscopes, take_of_leading_nil rfl h.bare, takeInside_backslash rfl, ← hscopes]
    rfl
  · intro opener' hopener
    rw [outermost_interpolation] at hopener
    exact h.replaceable_append hintact _ hopener

/-- A literal without an end is left behind: the text ends, or its line does. The scan gives it up
with the token that comes next. -/
theorem Scoped.leave (h : s.Scoped) (hsound : s.Sound)
    (hmodes : s.modes = .string d opener :: ms) (hends : d.contentEnds s.rest) :
    { s with modes := ms }.Scoped := by
  have hwithin := hsound.within
  rw [hmodes] at hwithin
  have hopen := open_of_within hwithin
  obtain ⟨ss, hss, hsettle⟩ := h.reached
  -- in the literal, nothing was given up yet
  have hscopes : ss = .literal d :: ms.map Mode.scope := by
    have hnext := hsettle ⟨[], .unknown, [], []⟩ (comes_of_string hmodes rfl nofun)
    rw [scopes, hmodes, settle.eq_def] at hnext
    split at hnext
    · rw [if_neg] at hnext
      · exact hnext
      · rintro (hend | ⟨-, hline⟩)
        · cases hend
        · cases hline
    · exact hnext
  refine ⟨h.bare, ⟨ss, hss, fun t ht => ?_⟩, fun opener' hopener => ?_⟩
  · obtain ⟨hleading, hend⟩ := ht.outside (inString_of_open hopen)
    rw [hscopes, settle, if_pos]
    · rfl
    · refine (ends_of_contentEnds (s := { s with modes := ms }) hends).imp hend fun hline => ?_
      rw [← hleading, ← Trivia.containsNewline_outline] at hline
      exact hline
  · refine h.replaceable opener' ?_
    rw [hmodes]
    exact outermost_cons_of_mem hopener

/-- A collapse puts one unknown token where the outermost literal was opened, and nothing is open
behind that. -/
theorem Scoped.collapse (h : s.Scoped) {s' : Tokenizer} (hintact : s'.Intact)
    (hmodes : s'.modes = s.modes) (htokens : s'.tokens = s.tokens) (hne : s'.modes ≠ []) :
    s'.collapse.Scoped := by
  obtain ⟨opener, first, hfind, hfirst, -⟩ := hintact.exists_outermost hne
  unfold Tokenizer.collapse
  simp only [hfind, hfirst]
  refine ⟨rfl, ⟨[], ?_, fun _ _ => rfl⟩, nofun⟩
  rw [hmodes] at hfind
  rw [htokens] at hfirst ⊢
  rw [List.reverse_cons, List.reverse_reverse]
  exact h.replaceable opener hfind first hfirst _ rfl rfl

/-- A step in a literal keeps the invariant. -/
theorem Scoped.stringPart (h : s.Scoped) (hintact : s.Intact) (hsound : s.Sound)
    (hmodes : s.modes = .string d opener :: ms) : (s.stringPart d ms).Scoped := by
  unfold Tokenizer.stringPart
  split
  · rename_i hcloser
    exact h.closeString hintact hmodes hcloser
  · split
    · exact h.interpolation hintact hmodes _
    · split
      · exact h.collapse hintact rfl rfl (by rw [hmodes]; exact List.cons_ne_nil _ _)
      · split
        · rename_i hends
          exact h.leave hsound hmodes hends
        · exact h.segment hintact hmodes _

/-- Opening a literal keeps the invariant. The scan takes the number signs and the quote, and
remembers how many signs there were. -/
theorem Scoped.openString (h : s.Scoped) (hintact : s.Intact) (hopen : Open s.modes)
    (hd : Delimiter.ofText? s.skipTrivia.rest = some d) : (s.skipTrivia.openString d).Scoped := by
  obtain ⟨pounds, quote, rest, hpounds, hquote, ⟨first, hfirst, hleading, hbehind⟩, hopened⟩ :=
    exists_openString_eq hd
  obtain ⟨behind, heq⟩ := List.head?_eq_some_iff.mp hfirst
  rw [heq, List.tail_cons] at hbehind
  have hcomes {t : Token} (ht : t.leading = first.leading) : s.Comes t := by
    refine comes_of_outside (inString_of_open hopen) (ht.trans hleading) fun hnil => ?_
    rw [hnil] at hd
    cases hd
  have hmodes : (s.skipTrivia.openString d).modes = .string d s.tokens.length :: s.modes := by
    rw [hopened]
    rfl
  have htokens : (s.skipTrivia.openString d).tokens.reverse =
    s.tokens.reverse ++ first :: behind := by
    rw [hopened, ← heq, List.reverse_cons, List.reverse_append, hpounds.reverse, List.append_assoc]
    rfl
  refine h.advance behind htokens (by rw [hopened]) (hcomes rfl) ?_ ?_
  · have hscan := scan_opening (isCode_of_open hopen) hpounds hquote heq hbehind
    refine hscan.trans ?_
    rw [scopes, hmodes]
    rfl
  · intro opener hopener
    rw [hmodes, outermost_cons] at hopener
    cases houter : outermost s.modes with
    | some opener' =>
      rw [houter] at hopener
      obtain rfl := Option.some.inj hopener
      exact h.replaceable_append hintact _ houter
    | none =>
      -- the literal is the outermost one, and nothing is open in front of it
      rw [houter] at hopener
      obtain rfl : s.tokens.length = opener := Option.some.inj hopener
      have hnone : s.modes = [] := hintact.modes_eq_nil_of_outermost houter
      intro first' hfirst' t ht hkind
      rw [← List.length_reverse, List.getElem?_append_right (Nat.le_refl _),
        Nat.sub_self] at hfirst'
      obtain rfl : first = first' := Option.some.inj hfirst'
      have hunknown : t.outline.kind = .unknown := hkind
      rw [← List.length_reverse, List.take_left, h.scan_concat (hcomes ht), scopes, hnone]
      exact takeCode_of_not_isStringPart (by rw [hunknown]; rfl)

/-- The first parenthesis of an interpolation is led by nothing. -/
theorem Scoped.leading_of_paren (h : s.Scoped) (hrest : s.rest.head? = some '(') :
    s.skipTrivia.leading = [] := by
  obtain ⟨cs, hcs⟩ := List.head?_eq_some_iff.mp hrest
  rw [skipTrivia, hcs, scan_paren, h.bare]
  rfl

/-- An ordinary token leads from the modes before it to those behind it. -/
theorem Scoped.take_plain (h : s.Scoped) (hsound : s.Sound)
    (hstring : ∀ d opener ms, s.modes ≠ .string d opener :: ms) {c : Char} {cs : Text}
    (hrest : s.skipTrivia.rest = c :: cs) {t : Token} (hleading : t.leading = s.skipTrivia.leading)
    (hkind : t.kind = (Token.plain s.tokens.head? s.skipTrivia.leading c cs).1) :
    take t.outline s.scopes = some ((modesBehind t.kind s.modes).map Mode.scope) := by
  have halone : t.outline.kind.standsAlone := by
    rw [outline, hkind]
    exact Token.plain_standsAlone s.tokens.head? s.skipTrivia.leading c cs
  by_cases hfirst : s.modes.head? = some (.interpolation 0)
  · -- only a parenthesis comes here
    obtain ⟨ms, hms⟩ := List.head?_eq_some_iff.mp hfirst
    have hparen := head?_skipTrivia_of_paren (hsound.entered hfirst)
    rw [hrest] at hparen
    obtain rfl := Option.some.inj hparen
    have hleft : t.outline.kind = .leftParen := hkind
    rw [scopes, hms, show t.kind = .leftParen from hleft, List.map_cons, Mode.scope,
      take_of_leading_nil rfl (hleading.trans (h.leading_of_paren (hsound.entered hfirst))),
      takeInside, if_pos hleft]
    rfl
  · have hopen : Open s.modes := by
      intro m hm
      cases m with
      | string d opener =>
        obtain ⟨ms, hms⟩ := List.head?_eq_some_iff.mp hm
        exact absurd hms (hstring d opener ms)
      | interpolation parens =>
        cases parens with
        | zero => exact absurd hm hfirst
        | succ parens => exact ⟨parens, rfl⟩
    rw [scopes, scope_modesBehind hopen, take, if_pos (isCode_of_open hopen)]
    exact takeCode_of_not_isStringPart (Kind.not_isStringPart_of_standsAlone halone)

/-- An ordinary token keeps the invariant: it counts parentheses in an interpolation, and does
nothing else to the scopes. -/
theorem Scoped.plain (h : s.Scoped) (hintact : s.Intact) (hsound : s.Sound)
    (hstring : ∀ d opener ms, s.modes ≠ .string d opener :: ms) {c : Char} {cs : Text}
    (hrest : s.skipTrivia.rest = c :: cs) {kind : Kind} {more : Nat}
    (hplain : Token.plain s.tokens.head? s.skipTrivia.leading c cs = (kind, more)) :
    ({ s.skipTrivia with modes := modesBehind kind s.modes }.emit kind (more + 1)).Scoped := by
  obtain ⟨trailing, rest, -, hemit⟩ :=
    exists_emit_eq { s.skipTrivia with modes := modesBehind kind s.modes } kind (more + 1)
  have hout : s.inString = false := by
    unfold inString
    split
    · rename_i d opener ms hmodes
      exact absurd hmodes (hstring d opener ms)
    · rfl
  rw [hemit]
  refine h.advance [] List.reverse_cons rfl
    (comes_of_outside hout rfl (by rw [hrest]; exact List.cons_ne_nil _ _)) ?_ ?_
  · rw [h.take_plain hsound hstring hrest rfl (by rw [hplain])]
    rfl
  · exact fun opener hopener => h.replaceable_append hintact _ (outermost_modesBehind hopener)

/-- A step outside of literals keeps the invariant. -/
theorem Scoped.normalPart (h : s.Scoped) (hintact : s.Intact) (hsound : s.Sound)
    (hstring : ∀ d opener ms, s.modes ≠ .string d opener :: ms) {c : Char} {cs : Text}
    (hrest : s.skipTrivia.rest = c :: cs) : (s.skipTrivia.normalPart c cs).Scoped := by
  unfold Tokenizer.normalPart
  split
  · rename_i d hd
    refine h.openString hintact (hsound.open hstring ?_) (by rw [hrest]; exact hd)
    intro hparen
    have hskip := head?_skipTrivia_of_paren hparen
    rw [hrest] at hskip
    obtain rfl := Option.some.inj hskip
    cases hd
  · exact h.plain hintact hsound hstring hrest rfl

/-- A step keeps the invariant. -/
theorem Scoped.step (h : s.Scoped) (hintact : s.Intact) (hsound : s.Sound) {t : Tokenizer}
    (hstep : s.step = .inl t) : t.Scoped := by
  unfold Tokenizer.step at hstep
  split at hstep
  · rename_i hmodes
    obtain rfl := Sum.inl.inj hstep
    exact h.stringPart hintact hsound hmodes
  · rename_i hstring
    dsimp only at hstep
    split at hstep
    · split at hstep
      · rename_i hinterpolation
        obtain rfl := Sum.inl.inj hstep
        refine h.collapse hintact.skipTrivia rfl rfl ?_
        intro hnil
        rw [hnil] at hinterpolation
        cases hinterpolation
      · cases hstep
    · rename_i hrest
      obtain rfl := Sum.inl.inj hstep
      exact h.normalPart hintact hsound hstring hrest

/-- At the end of the text, nothing is open. -/
theorem Scoped.complete (h : s.Scoped) {ts : List Token} (hstep : s.step = .inr ts) :
    scan [] (ts.map outline) = some [] := by
  unfold Tokenizer.step at hstep
  split at hstep
  · cases hstep
  · rename_i hstring
    dsimp only at hstep
    split at hstep
    · rename_i hrest
      split at hstep
      · cases hstep
      · rename_i hany
        obtain rfl := Sum.inr.inj hstep
        have hmodes := modes_eq_nil hstring hany
        have hcomes : s.Comes ⟨s.skipTrivia.leading, .endOfFile, [], []⟩ := by
          refine ⟨fun hin => ?_, fun _ => ⟨rfl, fun _ => rfl⟩⟩
          rw [inString, hmodes] at hin
          cases hin
        rw [emit_of_rest_eq_nil hrest, List.reverse_cons]
        refine (h.scan_concat hcomes).trans ?_
        rw [scopes, hmodes]
        rfl
    · cases hstep

/-- However a tokenizer gets to the end of its text, a scan takes its tokens. -/
theorem Scoped.run {s : Tokenizer} (h : s.Scoped) (hintact : s.Intact) (hsound : s.Sound) :
    scan [] (s.run.map outline) = some [] := by
  fun_induction Tokenizer.run s with
  | case1 s t hstep _ ih =>
    exact ih (h.step hintact hsound hstep) (hintact.step hstep).1 (hsound.step hintact hstep)
  | case2 s ts hstep => exact h.complete hstep

end Tokenizer

/-- **A scan takes the tokens of every text**, and nothing is open behind them. So a literal is
entered and left as the tokenizer did, whatever rules make of the tokens. -/
theorem Token.scan_stream (text : Text) : Scope.scan [] ((stream text).map outline) = some [] :=
  (Tokenizer.scoped_start text).run (Tokenizer.intact_start text) (Tokenizer.sound_start text)

end SwiftTree
