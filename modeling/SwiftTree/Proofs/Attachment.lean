import SwiftTree.Proofs.Evaluation
import SwiftTree.Proofs.Scopes
import SwiftTree.Proofs.TokenEnds
import SwiftTree.Proofs.TriviaPieces

/-!
# Where trivia is attached

Between two tokens there is one way to divide the trivia: what is on the line of the first one is
behind it, and the rest, from the line break on, leads the second one. In the content of a literal
there is none. So it can be told from the trivia that leads a token alone whether the token opens a
line (`Token.stream_attached`).

The tokens that a tokenizer has made have their trivia attached so at every step (`Tokenizer.Neat`).
What keeps it so is that trivia behind a token stops at a line break or where no trivia is left, and
that a literal that is given up ends there too.
-/

namespace SwiftTree

namespace Token

open Scope Text

/-- How trivia is attached to a token that stands in a text behind others. -/
structure Attached (text : Text) (front : List Token) (t : Token) : Prop where
  /-- the trivia behind the token is on its line -/
  line : t.trailing.containsNewline = false
  /-- the trivia that leads the token starts on the line before -/
  leads : front ≠ [] → t.leading.LeadsLine
  /-- there is no trivia in a literal -/
  content : ∀ ss, scan [] ((front ++ [t]).map outline) = some ss → isCode ss = false →
    t.trailing = []
  /-- the pieces are what the text has there -/
  fits : ∀ behind, text = fullText front ++ (t.full ++ behind) →
    t.leading.Fits (fullText front) (t.text ++ (t.trailing.text ++ behind)) ∧
      t.trailing.Fits (fullText front ++ (t.leading.text ++ t.text)) behind

/-- Whether trivia is attached so to all tokens of a list that starts with the last one. -/
def AllAttached (text : Text) : List Token → Prop
  | [] => True
  | t :: ts => Attached text ts.reverse t ∧ AllAttached text ts

/-- What is known of how trivia is attached to the tokens so far is known of the first ones of
them. -/
theorem AllAttached.of_suffix {text : Text} {ts us : List Token} (h : AllAttached text us)
    (hsuffix : ts <:+ us) : AllAttached text ts := by
  induction us with
  | nil => exact List.suffix_nil.mp hsuffix ▸ h
  | cons u us ih =>
    rcases List.suffix_cons_iff.mp hsuffix with rfl | hsuffix
    · exact h
    · exact ih h.2 hsuffix

/-- In what is attached to a token, only what is behind it depends on the trivia there. -/
theorem Attached.replace {text : Text} {front : List Token} {t u : Token}
    (h : Attached text front t)
    {behind : Text} (htext : text = fullText front ++ (t.full ++ behind))
    (hleading : u.leading = t.leading) (hline : u.trailing.containsNewline = false)
    (hcontent : ∀ ss, scan [] ((front ++ [u]).map outline) = some ss → isCode ss = false →
      u.trailing = [])
    (htrailing : ∀ behind, text = fullText front ++ (u.full ++ behind) →
      u.trailing.Fits (fullText front ++ (u.leading.text ++ u.text)) behind) :
      Attached text front u := by
  refine ⟨hline, fun hfront => hleading ▸ h.leads hfront, hcontent, fun behind' htext' =>
    ⟨?_, htrailing behind' htext'⟩⟩
  have hfits := (h.fits behind htext).1
  have hsame : t.text ++ (t.trailing.text ++ behind) = u.text ++ (u.trailing.text ++ behind') := by
    have hall := List.append_cancel_left (htext.symm.trans htext')
    simp only [full, hleading, List.append_assoc] at hall
    exact List.append_cancel_left hall
  rw [hleading, ← hsame]
  exact hfits

end Token

namespace Tokenizer

open Token Scope Text

variable {s : Tokenizer} {d : Delimiter} {opener : Nat} {ms : List Mode}

/-- What holds of a tokenizer at every step, as far as trivia goes. -/
structure Neat (s : Tokenizer) : Prop where
  /-- the tokens so far have their trivia attached -/
  attached : AllAttached s.text s.tokens
  /-- outside of a literal, what comes next is on a new line, or directly behind a token -/
  next : s.inString = false → s.tokens ≠ [] → (Trivia.scan .leading s.rest).1.LeadsLine

/-- What holds of a tokenizer right before it makes a token. -/
structure Ready (s : Tokenizer) : Prop where
  tiles : s.covered = s.text
  attached : AllAttached s.text s.tokens
  leads : s.tokens ≠ [] → s.leading.LeadsLine
  fits : s.leading.Fits (fullText s.tokens.reverse) s.rest

theorem neat_start (text : Text) : (start text).Neat := ⟨trivial, fun _ h => absurd rfl h⟩

/-- Outside of a literal a token is made behind the trivia that leads it. -/
theorem Neat.ready (h : s.Neat) (hintact : s.Intact) (hscoped : s.Scoped)
    (hout : s.inString = false) :
    s.skipTrivia.Ready := by
  have hleading : s.skipTrivia.leading = (Trivia.scan .leading s.rest).1 := by
    rw [skipTrivia, hscoped.bare]
    rfl
  refine ⟨hintact.skipTrivia.tiles, h.attached, fun hne => ?_, ?_⟩
  · rw [hleading]
    exact h.next hout hne
  · rw [hleading]
    refine Trivia.scan_fits .leading s.rest ?_
    change Trivia.Seam (fullText s.tokens.reverse) s.rest
    by_cases hnil : s.tokens = []
    · rw [hnil]
      exact fun c hc => by cases hc
    · exact Trivia.seam_of_leadsLine (h.next hout hnil)

/-- In a literal nothing leads a token. -/
theorem Neat.ready_inside (h : s.Neat) (hintact : s.Intact) (hscoped : s.Scoped) : s.Ready :=
  ⟨hintact.tiles, h.attached, fun _ => by rw [hscoped.bare]; exact Trivia.leadsLine_nil,
    by rw [hscoped.bare]; exact trivial⟩

/-- What a token needs to have its trivia attached. -/
theorem Ready.attach (h : s.Ready) (kind : Kind) (n : Nat) {trailing : Trivia}
    (hline : trailing.containsNewline = false)
    (hcontent : ∀ ss,
      scan [] ((s.tokens.reverse ++ [(⟨s.leading, kind, s.rest.take n, trailing⟩ : Token)]).map
      outline) = some ss → isCode ss = false → trailing = [])
    (hfits : ∀ behind, s.rest.drop n = trailing.text ++ behind →
      trailing.Fits (fullText s.tokens.reverse ++ (s.leading.text ++ s.rest.take n)) behind) :
    Attached s.text s.tokens.reverse ⟨s.leading, kind, s.rest.take n, trailing⟩ := by
  refine ⟨hline, fun hne => h.leads fun hnil => hne (by rw [hnil]; rfl), hcontent,
    fun behind htext => ?_⟩
  have hrest : s.rest = s.rest.take n ++ (trailing.text ++ behind) := by
    rw [← h.tiles, covered] at htext
    have hall := List.append_cancel_left htext
    simp only [full, List.append_assoc] at hall
    exact List.append_cancel_left hall
  refine ⟨?_, hfits behind ?_⟩
  · change s.leading.Fits _ (s.rest.take n ++ (trailing.text ++ behind))
    rw [← hrest]
    exact h.fits
  · exact List.append_cancel_left ((List.take_append_drop n s.rest).trans hrest)

/-- A token behind which no trivia is read. -/
theorem Ready.attach_bare (h : s.Ready) (kind : Kind) (n : Nat) :
    Attached s.text s.tokens.reverse ⟨s.leading, kind, s.rest.take n, []⟩ :=
  h.attach kind n rfl (fun _ _ _ => rfl) fun _ _ => trivial

/-- In a literal one token can be made after the other. -/
theorem Ready.emit_inside (h : s.Ready) (hin : s.inString) (kind : Kind) (n : Nat) :
    (s.emit kind n).Ready := by
  have htiles := (s.covered_emit kind n).trans h.tiles
  rw [emit, if_pos hin] at htiles ⊢
  exact ⟨htiles, ⟨h.attach_bare kind n, h.attached⟩, fun _ => Trivia.leadsLine_nil, trivial⟩

/-- Outside of a literal a token keeps the trivia behind it, up to the end of the line. -/
theorem Ready.emit_outside (h : s.Ready) (hout : s.inString = false) (kind : Kind) {n : Nat}
    {word : Text} (htake : s.rest.take n = word) (hne : word ≠ []) (hsharp : word.Sharp)
    (hcontent : ∀ trailing : Trivia, trailing = (Trivia.scan .trailing (s.rest.drop n)).1 → ∀ ss,
      scan [] ((s.tokens.reverse ++ [(⟨s.leading, kind, s.rest.take n, trailing⟩ : Token)]).map
        outline)
        = some ss → isCode ss = false → trailing = []) : (s.emit kind n).Neat := by
  have hin : ¬s.inString := Bool.eq_false_iff.mp hout
  rw [emit, if_neg hin]
  refine ⟨⟨h.attach kind n (Trivia.containsNewline_scan_trailing _) (hcontent _ rfl)
    fun behind hdrop => ?_, h.attached⟩, fun _ _ => Trivia.leadsLine_behind _⟩
  have hscan := Trivia.scan_text .trailing (s.rest.drop n)
  have hbehind : (Trivia.scan .trailing (s.rest.drop n)).2 = behind :=
    List.append_cancel_left (hscan.trans hdrop)
  rw [← hbehind]
  refine Trivia.scan_fits .trailing _ fun c hc _ _ hblank => ?_
  rw [htake, ← List.append_assoc] at hc
  have hlast := (hsharp.append hne _).isInlineBlank c hc
  rw [hblank] at hlast
  cases hlast

/-! ## The parts of a step -/

/-- It does not matter to what is ready what a tokenizer is in the middle of. -/
theorem Ready.recast (h : s.Ready) (ms : List Mode) : { s with modes := ms }.Ready :=
  ⟨h.tiles, h.attached, h.leads, h.fits⟩

theorem inString_of_modes (h : s.modes = .string d opener :: ms) : s.inString := by
  rw [inString, h]

/-- Behind the end of a literal a scan is where it was before the literal. -/
theorem Scoped.scan_closed (h : s.Scoped) (hmodes : s.modes = .string d opener :: ms)
    {quote : Token}
    {pounds : List Token} (hquote : d.IsQuote quote) (hpounds : d.ArePounds pounds)
    (hleading : quote.leading = []) (hbehind : ∀ t ∈ pounds, t.leading = []) :
    scan [] ((s.tokens.reverse ++ quote :: pounds).map outline) = some (ms.map Mode.scope) := by
  have hcomes : s.Comes quote := by
    refine comes_of_string hmodes hleading ?_
    rw [hquote.kind]
    exact ne_endOfFile_of_isStringQuote d.quoted
  have hscopes : s.scopes = .literal d :: ms.map Mode.scope := by rw [scopes, hmodes]; rfl
  rw [← List.singleton_append, ← List.append_assoc, List.map_append, scan_append,
    h.scan_concat hcomes, hscopes]
  exact scan_closing hpounds hquote hleading hbehind

/-- Closing a literal keeps the invariant. Behind it, code comes again, so trivia may stand
there. -/
theorem Neat.closeString (h : s.Neat) (hintact : s.Intact) (hscoped : s.Scoped) (hsound : s.Sound)
    (hmodes : s.modes = .string d opener :: ms) (hcloser : startsWith s.rest d.closer) :
    (s.closeString d ms).Neat := by
  have hwithin := hsound.within
  rw [hmodes] at hwithin
  have hopen := open_of_within hwithin
  have hready := h.ready_inside hintact hscoped
  obtain ⟨hquote, hpounds⟩ := Delimiter.take_of_startsWith_closer hcloser
  -- behind the closing delimiter code comes again, so trivia can stand there
  have hcode {ss : List Scope} (hss : some (ms.map Mode.scope) = some ss)
    (hno : isCode ss = false) :
      False := by
    rw [← Option.some.inj hss, isCode_of_open hopen] at hno
    cases hno
  unfold Tokenizer.closeString
  split
  · rename_i hzero
    refine (hready.recast ms).emit_outside (inString_of_open hopen) d.quote hquote
      d.quoteText_ne_nil d.quoteText_dense.sharp fun trailing _ ss hscan hno => ?_
    have hclosed := hscoped.scan_closed hmodes (⟨rfl, hquote⟩ :
      d.IsQuote ⟨s.leading, d.quote, s.rest.take d.quoteText.length, trailing⟩)
      (Delimiter.arePounds_nil hzero) hscoped.bare (List.forall_mem_nil _)
    exact (hcode (hclosed.symm.trans hscan) hno).elim
  · rename_i hsome
    have hemit := hready.emit_inside (inString_of_modes hmodes) d.quote d.quoteText.length
    rw [emit_of_string hmodes] at hemit ⊢
    refine (hemit.recast ms).emit_outside (inString_of_open hopen) .rawStringDelimiter hpounds ?_
      d.poundsText_dense.sharp fun trailing _ ss hscan hno => ?_
    · intro hnil
      rw [← d.length_poundsText, hnil] at hsome
      exact hsome rfl
    · have hclosed := hscoped.scan_closed hmodes (⟨rfl, hquote⟩ :
        d.IsQuote ⟨s.leading, d.quote, s.rest.take d.quoteText.length, []⟩)
        (Delimiter.arePounds_singleton hsome (rfl : (⟨[], .rawStringDelimiter,
          (s.rest.drop d.quoteText.length).take d.pounds, trailing⟩ : Token).kind = _) hpounds)
        hscoped.bare (List.forall_mem_singleton.mpr rfl)
      rw [← List.singleton_append, ← List.append_assoc, ← List.reverse_cons] at hclosed
      exact (hcode (hclosed.symm.trans hscan) hno).elim

/-- Behind the backslash of an interpolation there is only its parenthesis. -/
theorem Neat.interpolation (h : s.Neat) (hintact : s.Intact) (hscoped : s.Scoped)
    (hat : d.atInterpolation s.rest) :
    ({ s with modes := .interpolation 0 :: s.modes }.emit .backslash d.escape.length).Neat := by
  obtain ⟨behind, hrest⟩ := exists_eq_of_atInterpolation hat
  have htake : s.rest.take d.escape.length = d.escape := by rw [hrest, List.take_left]
  have hsharp : d.escape.Sharp := (d.poundsText_dense.cons rfl).sharp
  refine ((h.ready_inside hintact hscoped).recast (.interpolation 0 :: s.modes)).emit_outside rfl
    .backslash htake (List.cons_ne_nil _ _) hsharp fun trailing htrailing _ _ _ => ?_
  change trailing = (Trivia.scan .trailing (s.rest.drop d.escape.length)).1 at htrailing
  rw [htrailing, hrest, List.drop_left, scan_paren]

/-- A literal is given up where a line break comes next, or nothing. -/
theorem Neat.leave (h : s.Neat) (hends : d.contentEnds s.rest) : { s with modes := ms }.Neat := by
  refine ⟨h.attached, fun _ _ => Trivia.leadsLine_of_isLineBreak fun c hc => ?_⟩
  obtain ⟨cs, hrest⟩ := List.head?_eq_some_iff.mp hc
  change s.rest = c :: cs at hrest
  rw [hrest, Delimiter.contentEnds, Bool.and_eq_true] at hends
  exact hends.2

/-- The trivia behind a text that is cut before the blanks at its end fits there. -/
theorem fits_behind_blanks {c : Char} (hc : isBlank c = false) (before cs : Text) :
    (Trivia.scan .trailing (splitTrailingBlanks cs).2).1.Fits
      (before ++ c :: (splitTrailingBlanks cs).1)
      (Trivia.scan .trailing (splitTrailingBlanks cs).2).2 := by
  refine Trivia.scan_fits .trailing _ fun d hd _ _ hblank => ?_
  have hsharp := (splitTrailingBlanks_sharp cs).cons hc
  have hlast := (hsharp.append (List.cons_ne_nil _ _) _).isInlineBlank d hd
  rw [hblank] at hlast
  cases hlast

/-- A collapse puts one token in the place of another one, and of all behind it. -/
theorem Neat.collapse (h : s.Neat) (hscoped : s.Scoped) {s' : Tokenizer} (hintact : s'.Intact)
    (htext : s'.text = s.text) (hmodes : s'.modes = s.modes) (htokens : s'.tokens = s.tokens)
    (hne : s'.modes ≠ []) : s'.collapse.Neat := by
  obtain ⟨opener, first, behind, c, cs, hfind, hfirst, hsplit, ⟨hc, hcut⟩, hcollapse⟩ :=
    hintact.exists_collapse_eq hne
  rw [hcollapse]
  generalize hbefore : s'.tokens.reverse.take opener = before at hsplit hcut
  have hattached : AllAttached s'.text (first :: before.reverse) := by
    have hall := h.attached
    rw [← htext, ← htokens] at hall
    refine hall.of_suffix ⟨behind.reverse, ?_⟩
    rw [← List.reverse_reverse s'.tokens, hsplit, List.reverse_append, List.reverse_cons,
      List.append_assoc]
    rfl
  have hfull : s'.text = fullText before.reverse.reverse ++
      (first.full ++ (fullText behind ++ (s'.leading.text ++ s'.rest))) := by
    rw [← hintact.tiles, covered, hsplit, List.reverse_reverse]
    simp only [fullText_append, fullText_cons, List.append_assoc]
  refine ⟨⟨hattached.1.replace hfull rfl (Trivia.containsNewline_scan_trailing _) ?_ ?_,
    hattached.2⟩, fun _ _ => Trivia.leadsLine_behind _⟩
  · intro ss hscan hno
    rw [hmodes] at hfind
    rw [htokens] at hfirst
    rw [List.reverse_reverse, ← hbefore, htokens] at hscan
    -- the token stands where code can come, so it may have trivia behind it
    have hnone := hscoped.replaceable opener hfind first hfirst ⟨first.leading, .unknown,
      c :: (splitTrailingBlanks cs).1, (Trivia.scan .trailing (splitTrailingBlanks cs).2).1⟩ rfl rfl
    obtain rfl := Option.some.inj (hnone.symm.trans hscan)
    cases hno
  · intro rest hrest
    have hblanks := splitTrailingBlanks_append cs
    have hscan := Trivia.scan_text .trailing (splitTrailingBlanks cs).2
    have hsame : (fullText before ++ first.leading.text) ++ c :: cs =
        (fullText before ++ first.leading.text) ++ c :: ((splitTrailingBlanks cs).1 ++
          ((Trivia.scan .trailing (splitTrailingBlanks cs).2).1.text ++ rest)) := by
      rw [← hcut, hrest, List.reverse_reverse]
      simp only [full, List.append_assoc, List.cons_append]
    have hcs := (List.cons.inj (List.append_cancel_left hsame)).2
    have hbehind : (Trivia.scan .trailing (splitTrailingBlanks cs).2).2 = rest :=
      List.append_cancel_left (hscan.trans (List.append_cancel_left (hblanks.trans hcs)))
    rw [← hbehind, ← List.append_assoc]
    exact fits_behind_blanks hc _ cs

/-- A step in a literal keeps the invariant: no trivia is read in the content of a literal. -/
theorem Neat.stringPart (h : s.Neat) (hintact : s.Intact) (hscoped : s.Scoped) (hsound : s.Sound)
    (hmodes : s.modes = .string d opener :: ms) : (s.stringPart d ms).Neat := by
  unfold Tokenizer.stringPart
  split
  · rename_i hcloser
    exact h.closeString hintact hscoped hsound hmodes hcloser
  · split
    · rename_i hat
      exact h.interpolation hintact hscoped hat
    · split
      · exact h.collapse hscoped hintact rfl rfl rfl (by rw [hmodes]; exact List.cons_ne_nil _ _)
      · split
        · rename_i hends
          exact h.leave hends
        · have hin := inString_of_modes hmodes
          refine ⟨((h.ready_inside hintact hscoped).emit_inside hin _ _).attached, fun hout => ?_⟩
          exact absurd hin (Bool.eq_false_iff.mp hout)

/-- A literal is opened by tokens behind which its content is. -/
theorem Neat.openString (h : s.skipTrivia.Ready) (d : Delimiter) :
    (s.skipTrivia.openString d).Neat := by
  have hin : { s.skipTrivia with modes := .string d s.tokens.length :: s.modes }.inString := rfl
  have hopened := h.recast (.string d s.tokens.length :: s.modes)
  unfold Tokenizer.openString
  dsimp only
  split
  · exact ⟨(hopened.emit_inside hin _ _).attached, nofun⟩
  · exact ⟨((hopened.emit_inside hin _ _).emit_inside hin _ _).attached, nofun⟩

/-- Where neither a literal goes on nor the parenthesis of an interpolation has to come, there is
code. -/
theorem isCode_of_modes (hout : s.inString = false)
    (hhead : s.modes.head? ≠ some (.interpolation 0)) :
    isCode s.scopes := by
  unfold scopes
  cases hmodes : s.modes with
  | nil => rfl
  | cons m ms =>
    cases m with
    | string d opener => exact absurd (inString_of_modes hmodes) (Bool.eq_false_iff.mp hout)
    | interpolation parens =>
      cases parens with
      | zero => exact absurd (by rw [hmodes]; rfl) hhead
      | succ parens => rfl

/-- An ordinary token keeps the invariant: the trivia behind it ends at a line break, or where there
is no trivia. -/
theorem Neat.plain (h : s.skipTrivia.Ready) (hscoped : s.Scoped) (hsound : s.Sound)
    (hstring : ∀ d opener ms, s.modes ≠ .string d opener :: ms) (hout : s.inString = false)
    {c : Char}
    {cs : Text} (hrest : s.skipTrivia.rest = c :: cs) {kind : Kind} {more : Nat}
    (hplain : Token.plain s.tokens.head? s.skipTrivia.leading c cs = (kind, more)) :
    ({ s.skipTrivia with modes := modesBehind kind s.modes }.emit kind (more + 1)).Neat := by
  have hready := h.recast (modesBehind kind s.modes)
  cases hin : { s.skipTrivia with modes := modesBehind kind s.modes }.inString with
  | true =>
    refine ⟨(hready.emit_inside hin kind (more + 1)).attached, fun hout => ?_⟩
    exact absurd hin (Bool.eq_false_iff.mp hout)
  | false =>
    have htake : s.skipTrivia.rest.take (more + 1) = c :: cs.take more := by rw [hrest]; rfl
    have hsharp := plain_sharp s.tokens.head? s.skipTrivia.leading
      (Trivia.not_isBlank_behind hrest) cs
    rw [hplain] at hsharp
    refine hready.emit_outside hin kind htake (List.cons_ne_nil _ _) hsharp
      fun trailing _ ss hscan hno => ?_
    -- the token leads to the modes behind it
    have hcomes : s.Comes ⟨s.skipTrivia.leading, kind, s.skipTrivia.rest.take (more + 1),
      trailing⟩ :=
      comes_of_outside hout rfl (by rw [hrest]; exact List.cons_ne_nil _ _)
    have hreached := (hscoped.scan_concat hcomes).symm.trans hscan
    rw [hscoped.take_plain hsound hstring hrest rfl (by rw [hplain])] at hreached
    have hcode := isCode_of_modes hin
      (within_modesBehind hsound.within (hsound.leftParen_of_plain hrest hplain)).2
    rw [← Option.some.inj hreached] at hno
    exact absurd hcode (Bool.eq_false_iff.mp hno)

/-- A step outside of literals keeps the invariant. -/
theorem Neat.normalPart (h : s.Neat) (hintact : s.Intact) (hscoped : s.Scoped) (hsound : s.Sound)
    (hstring : ∀ d opener ms, s.modes ≠ .string d opener :: ms) {c : Char} {cs : Text}
    (hrest : s.skipTrivia.rest = c :: cs) : (s.skipTrivia.normalPart c cs).Neat := by
  have hout : s.inString = false := by
    unfold inString
    split
    · rename_i d opener ms hmodes
      exact absurd hmodes (hstring d opener ms)
    · rfl
  have hready := h.ready hintact hscoped hout
  unfold Tokenizer.normalPart
  split
  · exact Neat.openString hready _
  · exact Neat.plain hready hscoped hsound hstring hout hrest rfl

/-! ## Steps and runs -/

/-- A step leaves the trivia attached. -/
theorem Neat.step (h : s.Neat) (hintact : s.Intact) (hscoped : s.Scoped) (hsound : s.Sound)
    {t : Tokenizer} (hstep : s.step = .inl t) : t.Neat := by
  unfold Tokenizer.step at hstep
  split at hstep
  · rename_i hmodes
    obtain rfl := Sum.inl.inj hstep
    exact h.stringPart hintact hscoped hsound hmodes
  · rename_i hstring
    dsimp only at hstep
    split at hstep
    · split at hstep
      · rename_i hinterpolation
        obtain rfl := Sum.inl.inj hstep
        refine h.collapse hscoped hintact.skipTrivia rfl rfl rfl ?_
        intro hnil
        rw [hnil] at hinterpolation
        cases hinterpolation
      · cases hstep
    · rename_i hrest
      obtain rfl := Sum.inl.inj hstep
      exact h.normalPart hintact hscoped hsound hstring hrest

/-- The end of the file is led by the trivia at the end of the text. -/
theorem Neat.complete (h : s.Neat) (hintact : s.Intact) (hscoped : s.Scoped) {ts : List Token}
    (hstep : s.step = .inr ts) : AllAttached s.text ts.reverse := by
  unfold Tokenizer.step at hstep
  split at hstep
  · cases hstep
  · rename_i hstring
    dsimp only at hstep
    split at hstep
    · rename_i hrest
      split at hstep
      · cases hstep
      · rename_i hany
        obtain rfl := Sum.inr.inj hstep
        have hout : s.inString = false := by rw [inString, modes_eq_nil hstring hany]
        have hready := h.ready hintact hscoped hout
        rw [emit_of_rest_eq_nil hrest, List.reverse_reverse]
        exact ⟨hready.attach_bare .endOfFile 0, hready.attached⟩
    · cases hstep

/-- However a tokenizer gets to the end of its text, its tokens have their trivia attached. -/
theorem Neat.run {s : Tokenizer} (h : s.Neat) (hintact : s.Intact) (hscoped : s.Scoped)
    (hsound : s.Sound) : AllAttached s.text s.run.reverse := by
  fun_induction Tokenizer.run s with
  | case1 s t hstep _ ih =>
    obtain ⟨hnext, htext⟩ := hintact.step hstep
    rw [← htext]
    exact ih (h.step hintact hscoped hsound hstep) hnext (hscoped.step hintact hsound hstep)
      (hsound.step hintact hstep)
  | case2 s ts hstep => exact h.complete hintact hscoped hstep

end Tokenizer

namespace Scope

variable {ss ss' : List Scope} {t : Token.Outline}

/-- A segment of a literal comes in the literal, and so does what is behind it. -/
theorem not_isCode_of_segment (h : read ss t = some ss') (ht : t.kind = .stringSegment) :
    isCode ss = false ∧ isCode ss' = false := by
  have hquote : ¬Kind.stringSegment.isStringQuote := Bool.false_ne_true
  have hnone {rs : List Scope} (hcode : isCode rs) : takeCode t rs = none := by
    rw [takeCode, ht, dif_neg hquote,
      if_neg (by decide : ¬Kind.stringSegment = .rawStringDelimiter), if_pos rfl]
  rw [read] at h
  -- code takes no segment
  cases hcode : isCode (settle t ss) with
  | true =>
    rw [take_of_isCode hcode, hnone hcode] at h
    cases h
  | false =>
    refine ⟨Bool.eq_false_iff.mpr fun hss => ?_, ?_⟩
    · rw [settle_of_isCode hss, hss] at hcode
      cases hcode
    · generalize settle t ss = rs at h hcode
      rw [take, hcode, if_neg Bool.false_ne_true] at h
      split at h
      · cases h
      · unfold takeInside at h
        split at h
        · rw [ht, dif_neg hquote] at h
          cases h
        · rename_i d rs
          have hinside : takeInside t (.literal d :: rs) = some ss' := h
          rw [takeInside_segment ht] at hinside
          obtain rfl := Option.some.inj hinside
          rfl
        · rename_i d rs
          have hno : ¬(Kind.stringSegment = .rawStringDelimiter ∧ t.text = d.poundsText) :=
            fun hk => absurd hk.1 (by decide)
          rw [ht, if_neg hno] at h
          cases h
        · rw [ht, if_neg (by decide : ¬Kind.stringSegment = .leftParen)] at h
          cases h
        · cases h

end Scope

namespace Token

open Scope

/-- A token of a text has its trivia attached to it. -/
theorem attached_of_stream {text : Text} {front back : List Token} {t : Token}
    (h : stream text = front ++ t :: back) : Attached text front t := by
  have hrun := (Tokenizer.neat_start text).run (Tokenizer.intact_start text)
    (Tokenizer.scoped_start text) (Tokenizer.sound_start text)
  change AllAttached text (stream text).reverse at hrun
  rw [h, List.reverse_append, List.reverse_cons, List.append_assoc] at hrun
  have hhere : AllAttached text (t :: front.reverse) := hrun.of_suffix (List.suffix_append _ _)
  have hattached := hhere.1
  rwa [List.reverse_reverse] at hattached

/-- There is one way in which the trivia of a text is attached to its tokens. Behind a token is only
what is on its line, so that a token that is not the first opens a line just if any trivia leads it.
In a literal no trivia is attached. And each piece of trivia is what the text has there. -/
theorem stream_attached {text : Text} {front back : List Token} {t : Token}
    (h : stream text = front ++ t :: back) :
    t.trailing.containsNewline = false ∧
      (front ≠ [] → t.leading.LeadsLine ∧ opensLine front.getLast? t = !t.leading.isEmpty) ∧
      ((∃ ss, scan [] ((front ++ [t]).map outline) = some ss ∧
        (isCode ss = false → t.trailing = [])) ∧
        (t.kind = .stringSegment ∨ back.head?.map Token.kind = some .stringSegment →
          t.trailing = [])) ∧
      t.leading.Fits (fullText front) (t.text ++ (t.trailing.text ++ fullText back)) ∧
      t.trailing.Fits (fullText front ++ (t.leading.text ++ t.text)) (fullText back) := by
  have hattached := attached_of_stream h
  have htext : text = fullText front ++ (t.full ++ fullText back) := by
    rw [← fullText_stream text, h, fullText_append, fullText_cons]
  refine ⟨hattached.line, fun hfront => ?_, ?_, hattached.fits _ htext⟩
  · have hleads := hattached.leads hfront
    refine ⟨hleads, ?_⟩
    have hprev : front.getLast?.isNone = false := by
      rw [List.getLast?_eq_some_getLast hfront, Option.isNone_some]
    rw [opensLine, hprev, Bool.false_or, Trivia.LeadsLine.containsNewline hleads]
  · -- what may stand behind a token is told by the scopes that the tokens so far leave
    have hscan := scan_stream text
    rw [h, ← List.singleton_append, ← List.append_assoc, List.map_append, scan_append] at hscan
    obtain ⟨ss, hss, hback⟩ := Option.bind_eq_some_iff.mp hscan
    refine ⟨⟨ss, hss, hattached.content ss hss⟩, ?_⟩
    rintro (hkind | hnext)
    · rw [List.map_append, scan_append] at hss
      obtain ⟨rs, -, hread⟩ := Option.bind_eq_some_iff.mp hss
      rw [List.map_singleton, scan_singleton] at hread
      refine hattached.content ss ?_ (not_isCode_of_segment hread hkind).2
      rw [List.map_append, scan_append]
      exact hss
    · cases back with
      | nil => cases hnext
      | cons u back =>
        rw [List.map_cons, scan_cons] at hback
        obtain ⟨rs, hread, -⟩ := Option.bind_eq_some_iff.mp hback
        exact hattached.content ss hss
          (not_isCode_of_segment hread (Option.some.inj hnext)).1

/-- The parenthesis that closes the interpolation in a literal, which is on the line behind a
comment. -/
theorem stream_attached_closing :
    let text : Text := "a // b\n\"\\(c )d\"".toList
    let front : List Token := [
      ⟨[], .identifier, ['a'], [⟨.whitespace, [' ']⟩, ⟨.lineComment, "// b".toList⟩]⟩,
      ⟨[⟨.newline, ['\n']⟩], .stringQuote, ['"'], []⟩, ⟨[], .backslash, ['\\'], []⟩,
      ⟨[], .leftParen, ['('], []⟩, ⟨[], .identifier, ['c'], [⟨.whitespace, [' ']⟩]⟩]
    let t : Token := ⟨[], .rightParen, [')'], []⟩
    let back : List Token := [⟨[], .stringSegment, ['d'], []⟩, ⟨[], .stringQuote, ['"'], []⟩,
      ⟨[], .endOfFile, [], []⟩]
    stream text = front ++ t :: back ∧ front ≠ [] ∧ opensLine front.getLast? t = false ∧
      t.trailing = [] := by
  intro text front t back
  have h : stream text = front ++ t :: back :=
    stream_eq_of_stream? (n := 20) (by decide +kernel)
  obtain ⟨-, hline, ⟨-, hsegment⟩, -⟩ := stream_attached h
  exact ⟨h, List.cons_ne_nil _ _, (hline (List.cons_ne_nil _ _)).2, hsegment (.inr rfl)⟩

end Token

end SwiftTree
