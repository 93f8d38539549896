import Mathlib.Data.List.Chain
import SwiftTree.Token.Stream

/-!
# String literals among the tokens

The tokens of a text are items (`Token.Items`): tokens that stand alone, and string literals. A
literal is told by its delimiter. It has an opening, parts, and an end that may be absent when the
line or the text ends; an interpolation among its parts is made of items again, and ends with the
parenthesis that matches its first one.

The relations say of a list of tokens that it begins with something, and what is left behind that.

What a tokenizer has read so far is not yet a list of items, for it may be in the middle of several
literals. So what holds of it at every step (`Tokenizer.Sound`) is about the tokens to come:
whatever finishes its modes (`Tokenizer.Awaits`) makes a list of items of the tokens so far. A
collapse forgets the outermost literal, and for this a single token can stand where that literal was
opened.
-/

namespace SwiftTree

/-- Whether a token is the quote of a literal. -/
structure Delimiter.IsQuote (d : Delimiter) (t : Token) : Prop where
  kind : t.kind = d.quote
  text : t.text = d.quoteText

/-- Whether tokens are the `#`s on one side of a literal: one token, or none for no `#`. -/
def Delimiter.ArePounds (d : Delimiter) (ts : List Token) : Prop :=
  if d.pounds = 0 then ts = []
  else ∃ t, ts = [t] ∧ t.kind = .rawStringDelimiter ∧ t.text = d.poundsText

theorem Delimiter.arePounds_nil {d : Delimiter} (h : d.pounds = 0) : d.ArePounds [] := by
  rw [ArePounds, if_pos h]

/-- One token with the number signs of a delimiter is what stands on one side of its quote. -/
theorem Delimiter.arePounds_singleton {d : Delimiter} {t : Token} (h : d.pounds ≠ 0)
    (hkind : t.kind = .rawStringDelimiter) (htext : t.text = d.poundsText) : d.ArePounds [t] := by
  rw [ArePounds, if_neg h]
  exact ⟨t, rfl, hkind, htext⟩

/-- There is at most one token of number signs, so their order does not matter. The tokenizer keeps
its tokens newest first. -/
theorem Delimiter.ArePounds.reverse {d : Delimiter} {ts : List Token} (h : d.ArePounds ts) :
    ts.reverse = ts := by
  rw [ArePounds] at h
  split at h
  · rw [h, List.reverse_nil]
  · obtain ⟨t, rfl, -⟩ := h
    rfl

/-- Whether a token is the backslash of an interpolation, with as many `#`s as the literal has. -/
structure Delimiter.IsEscape (d : Delimiter) (t : Token) : Prop where
  kind : t.kind = .backslash
  text : t.text = d.escape

namespace Token

/-- Whether a token is no part that only a literal has, and is spelled as its kind prescribes. -/
structure IsPlain (t : Token) : Prop where
  alone : t.kind.standsAlone
  spelled : t.kind.Spells t.text

mutual

/-- Items, and what is left behind them. -/
inductive Items : List Token → List Token → Prop where
  | done {ts : List Token} : Items ts ts
  | token {t : Token} {ts us : List Token} : t.IsPlain → Items ts us → Items (t :: ts) us
  | literal {ts us vs : List Token} : Literal ts us → Items us vs → Items ts vs

/-- A string literal, and what is left behind it. -/
inductive Literal : List Token → List Token → Prop where
  | opened {d : Delimiter} {pounds : List Token} {quote : Token} {ts us : List Token} :
      d.ArePounds pounds → d.IsQuote quote → Parts d true ts us → Literal (pounds ++ quote :: ts) us

/-- The parts of a literal with its end, and what is left behind them. A segment can come first if
`fresh` says so: none stands behind another. Without an end, the text ends, or a line ends that the
literal may not leave. -/
inductive Parts : Delimiter → Bool → List Token → List Token → Prop where
  | closed {d : Delimiter} {fresh : Bool} {quote : Token} {pounds ts : List Token} :
      d.IsQuote quote → d.ArePounds pounds → Parts d fresh (quote :: (pounds ++ ts)) ts
  | unclosed {d : Delimiter} {fresh : Bool} {t : Token} {ts : List Token} :
      t.kind = .endOfFile ∨ (d.isMultiline = false ∧ t.leading.containsNewline) →
      Parts d fresh (t :: ts) (t :: ts)
  | segment {d : Delimiter} {t : Token} {ts us : List Token} :
      t.kind = .stringSegment → Parts d false ts us → Parts d true (t :: ts) us
  | interpolation {d : Delimiter} {fresh : Bool} {t : Token} {ts us vs : List Token} :
      d.IsEscape t → Inside 0 ts us → Parts d true us vs → Parts d fresh (t :: ts) vs

/-- What is left of an interpolation, of whose parentheses `parens` are open, and what is left
behind it. Before the first parenthesis, only that can come. -/
inductive Inside : Nat → List Token → List Token → Prop where
  | left {parens : Nat} {t : Token} {ts us : List Token} :
      t.kind = .leftParen → t.IsPlain → Inside (parens + 1) ts us → Inside parens (t :: ts) us
  | right {parens : Nat} {t : Token} {ts us : List Token} :
      t.kind = .rightParen → t.IsPlain → Inside (parens + 1) ts us →
        Inside (parens + 2) (t :: ts) us
  | last {t : Token} {ts : List Token} :
      t.kind = .rightParen → t.IsPlain → Inside 1 (t :: ts) ts
  | token {parens : Nat} {t : Token} {ts us : List Token} :
      t.kind ≠ .leftParen → t.kind ≠ .rightParen → t.IsPlain → Inside (parens + 1) ts us →
      Inside (parens + 1) (t :: ts) us
  | literal {parens : Nat} {ts us vs : List Token} :
      Literal ts us → Inside (parens + 1) us vs → Inside (parens + 1) ts vs

end

/-- Whether tokens are items, and then the end of the file. -/
def Itemized (ts : List Token) : Prop := ∃ leading, Items ts [⟨leading, .endOfFile, [], []⟩]

/-- Where a segment could come, anything else can. -/
theorem Parts.fresh {d : Delimiter} {fresh : Bool} {ts us : List Token} (h : Parts d fresh ts us) :
    Parts d true ts us := by
  cases h with
  | closed hquote hpounds => exact .closed hquote hpounds
  | unclosed hend => exact .unclosed hend
  | segment hkind h => exact .segment hkind h
  | interpolation hescape hinside h => exact .interpolation hescape hinside h

end Token

namespace Tokenizer

open Text Token

/-! ## What is to come -/

/-- Which mode stands directly in which. -/
inductive Mode.Within : Mode → Mode → Prop where
  | string {d : Delimiter} {opener parens : Nat} :
      Within (.string d opener) (.interpolation (parens + 1))
  | interpolation {parens : Nat} {d : Delimiter} {opener : Nat} :
      Within (.interpolation parens) (.string d opener)

/-- Whether tokens finish the modes, and are items from there on. -/
def Finishes : Bool → List Mode → List Token → Prop
  | _, [], ts => Itemized ts
  | fresh, .string d _ :: ms, ts => ∃ us, Parts d fresh ts us ∧ Finishes true ms us
  | _, .interpolation parens :: ms, ts => ∃ us, Inside parens ts us ∧ Finishes true ms us

/-- What finishes the modes where no segment may come next finishes them where one may. -/
theorem Finishes.fresh {fresh : Bool} {ms : List Mode} {ts : List Token}
    (h : Finishes fresh ms ts) : Finishes true ms ts := by
  match ms, h with
  | [], h => exact h
  | .string d opener :: ms, ⟨us, hparts, h⟩ => exact ⟨us, hparts.fresh, h⟩
  | .interpolation parens :: ms, h => exact h

/-- Where literals can stand: not directly in another, and not before the first parenthesis of an
interpolation. -/
def Open (ms : List Mode) : Prop :=
  ∀ m ∈ ms.head?, ∃ parens, m = .interpolation (parens + 1)

/-- Where a literal can stand, the first parenthesis of an interpolation is not awaited. -/
theorem Open.ne_entered {ms : List Mode} (h : Open ms) : ms.head? ≠ some (.interpolation 0) := by
  intro hhead
  obtain ⟨parens, hparens⟩ := h _ hhead
  cases hparens

/-- Around a literal, literals can stand. -/
theorem open_of_within {d : Delimiter} {opener : Nat} {ms : List Mode}
    (h : (Mode.string d opener :: ms).IsChain Mode.Within) : Open ms := by
  intro m hm
  cases (List.isChain_cons.mp h).1 m hm with
  | string => exact ⟨_, rfl⟩

/-- A literal may come wherever one can stand: what finishes the modes behind it finishes them
before it. -/
theorem Finishes.literal {fresh : Bool} {ms : List Mode} {ts us : List Token} (hms : Open ms)
    (hliteral : Literal ts us) (h : Finishes true ms us) : Finishes fresh ms ts := by
  match ms, hms, h with
  | [], _, ⟨leading, h⟩ => exact ⟨leading, .literal hliteral h⟩
  | m :: ms, hms, h =>
    obtain ⟨parens, rfl⟩ := hms m rfl
    obtain ⟨vs, hinside, h⟩ := h
    exact ⟨vs, .literal hliteral hinside, h⟩

/-- A token that stands alone finishes what it leaves the modes behind it to finish. -/
theorem Finishes.token {fresh fresh' : Bool} {ms : List Mode} {t : Token} {ts : List Token}
    (hstring : ∀ d opener ms', ms ≠ .string d opener :: ms')
    (hfirst : ms.head? = some (.interpolation 0) → t.kind = .leftParen) (ht : t.IsPlain)
    (h : Finishes fresh (modesBehind t.kind ms) ts) : Finishes fresh' ms (t :: ts) := by
  match ms with
  | [] =>
    obtain ⟨leading, h⟩ := h
    exact ⟨leading, .token ht h⟩
  | .string d opener :: ms => exact absurd rfl (hstring d opener ms)
  | .interpolation parens :: ms =>
    rw [modesBehind] at h
    split at h
    · rename_i hleft
      obtain ⟨us, hinside, h⟩ := h
      exact ⟨us, .left hleft ht hinside, h⟩
    · rename_i hleft
      obtain ⟨parens, rfl⟩ : ∃ n, parens = n + 1 := by
        cases parens with
        | zero => exact absurd (hfirst rfl) hleft
        | succ n => exact ⟨n, rfl⟩
      split at h
      · rename_i hright
        split at h
        · obtain rfl : parens = 0 := by omega
          exact ⟨ts, .last hright ht, h.fresh⟩
        · obtain ⟨n, rfl⟩ : ∃ n, parens = n + 1 := ⟨parens - 1, by omega⟩
          obtain ⟨us, hinside, h⟩ := h
          exact ⟨us, .right hright ht hinside, h⟩
      · rename_i hright
        obtain ⟨us, hinside, h⟩ := h
        exact ⟨us, .token hleft hright ht hinside, h⟩

/-! ## The outermost literal -/

/-- The number of tokens before the opening of the outermost literal. -/
def outermost (ms : List Mode) : Option Nat := ms.reverse.findSome? Mode.opener?

theorem outermost_cons (m : Mode) (ms : List Mode) :
    outermost (m :: ms) = (outermost ms).or m.opener? := by
  rw [outermost, List.reverse_cons, List.findSome?_append, ← outermost, List.findSome?_singleton]

/-- Adding a mode to a stack changes which literal is the outermost one only if there was none. -/
theorem outermost_cons_of_mem {m : Mode} {ms : List Mode} {opener : Nat}
    (h : opener ∈ outermost ms) : opener ∈ outermost (m :: ms) := by
  rw [outermost_cons, Option.mem_def.mp h]
  rfl

@[simp] theorem outermost_interpolation (parens : Nat) (ms : List Mode) :
    outermost (.interpolation parens :: ms) = outermost ms := by
  rw [outermost_cons]
  exact Option.or_none

/-- The modes behind a token that closes an interpolation are fewer, so the outermost literal was it
before. -/
theorem outermost_modesBehind {kind : Kind} {ms : List Mode} {opener : Nat}
    (h : opener ∈ outermost (modesBehind kind ms)) : opener ∈ outermost ms := by
  unfold modesBehind at h
  split at h
  · rename_i parens ms
    rw [outermost_interpolation]
    repeat' split at h
    all_goals simpa using h
  · exact h

/-- The outermost literal is one of the modes, and this mode remembers where it was opened. -/
theorem exists_string_of_outermost {ms : List Mode} {opener : Nat} (h : opener ∈ outermost ms) :
    ∃ d, .string d opener ∈ ms := by
  obtain ⟨m, hm, hopener⟩ := List.exists_of_findSome?_eq_some h
  cases m with
  | string d opener' =>
    obtain rfl := Option.some.inj hopener
    exact ⟨d, List.mem_reverse.mp hm⟩
  | interpolation parens => cases hopener

/-! ## The tokens of a delimiter -/

variable {s : Tokenizer}

/-- In a literal there is no trivia behind a token. -/
theorem emit_of_string {d : Delimiter} {opener : Nat} {ms : List Mode}
    (h : s.modes = .string d opener :: ms) (kind : Kind) (n : Nat) :
    s.emit kind n = { s with
      rest := s.rest.drop n
      leading := []
      tokens := ⟨s.leading, kind, s.rest.take n, []⟩ :: s.tokens } := by
  have hin : s.inString := by rw [inString, h]
  rw [emit, if_pos hin]

/-- A literal is opened by its `#`s and its quote, and the first of them keeps the trivia before.
There is none between them. -/
theorem exists_openString_eq {d : Delimiter} (hd : Delimiter.ofText? s.rest = some d) :
    ∃ pounds quote rest, d.ArePounds pounds ∧ d.IsQuote quote ∧
      (∃ first, (pounds ++ [quote]).head? = some first ∧ first.leading = s.leading ∧
        ∀ t ∈ (pounds ++ [quote]).tail, t.leading = []) ∧
      s.openString d = { s with
        rest := rest
        leading := []
        modes := .string d s.tokens.length :: s.modes
        tokens := quote :: (pounds ++ s.tokens) } := by
  have hopener := d.opener_append_drop hd
  rw [Delimiter.opener, List.append_assoc] at hopener
  generalize s.rest.drop _ = r at hopener
  unfold openString
  dsimp only
  split
  · rename_i hpounds
    have hnone : d.poundsText = [] := by rw [Delimiter.poundsText, hpounds]; rfl
    rw [hnone, List.nil_append] at hopener
    refine ⟨[], ⟨s.leading, d.quote, s.rest.take d.quoteText.length, []⟩, _,
      Delimiter.arePounds_nil hpounds, ⟨rfl, ?_⟩, ⟨_, rfl, rfl, List.forall_mem_nil _⟩,
      emit_of_string rfl _ _⟩
    rw [← hopener, List.take_left]
  · rename_i hpounds
    rw [emit_of_string (s := { s with modes := .string d s.tokens.length :: s.modes }) rfl,
      emit_of_string rfl]
    refine ⟨[⟨s.leading, .rawStringDelimiter, s.rest.take d.pounds, []⟩],
      ⟨[], d.quote, (s.rest.drop d.pounds).take d.quoteText.length, []⟩, _,
      Delimiter.arePounds_singleton hpounds rfl ?_, ⟨rfl, ?_⟩,
      ⟨_, rfl, rfl, List.forall_mem_singleton.mpr rfl⟩, rfl⟩
    · rw [← hopener, List.take_left' d.length_poundsText]
    · rw [← hopener, List.drop_left' d.length_poundsText, List.take_left]

/-- A literal is closed by its quote and its `#`s, without trivia between them. -/
theorem exists_closeString_eq {d : Delimiter} {opener : Nat} {ms : List Mode}
    (hmodes : s.modes = .string d opener :: ms) (hcloser : startsWith s.rest d.closer) :
    ∃ quote pounds rest, d.IsQuote quote ∧ d.ArePounds pounds ∧
      (quote.leading = s.leading ∧ ∀ t ∈ pounds, t.leading = []) ∧ s.closeString d ms = { s with
        rest := rest
        leading := []
        modes := ms
        tokens := pounds ++ quote :: s.tokens } := by
  obtain ⟨hquote, hpounds⟩ := Delimiter.take_of_startsWith_closer hcloser
  unfold closeString
  split
  · rename_i hzero
    obtain ⟨trailing, rest, -, hemit⟩ :=
      exists_emit_eq { s with modes := ms } d.quote d.quoteText.length
    exact ⟨_, [], rest, ⟨rfl, hquote⟩, Delimiter.arePounds_nil hzero,
      ⟨rfl, List.forall_mem_nil _⟩, hemit⟩
  · rename_i hsome
    rw [emit_of_string hmodes]
    obtain ⟨trailing, rest, -, hemit⟩ := exists_emit_eq
      { s with
        rest := s.rest.drop d.quoteText.length
        leading := []
        modes := ms
        tokens := ⟨s.leading, d.quote, s.rest.take d.quoteText.length, []⟩ :: s.tokens }
      .rawStringDelimiter d.pounds
    exact ⟨_, [_], rest, ⟨rfl, hquote⟩, Delimiter.arePounds_singleton hsome rfl hpounds,
      ⟨rfl, List.forall_mem_singleton.mpr rfl⟩, hemit⟩

/-! ## The invariant -/

/-- Whether a segment can come next. -/
def segmentAhead (s : Tokenizer) : Bool :=
  match s.modes with
  | .string d _ :: _ => 0 < d.segmentLength s.rest
  | _ => true

/-- Whether tokens can come next: they finish the modes, and outside of a literal the first of them
comes behind the trivia that is next. -/
structure Awaits (s : Tokenizer) (ts : List Token) : Prop where
  finishes : Finishes s.segmentAhead s.modes ts
  leads : s.inString = false → ∃ t us, ts = t :: us ∧ t.leading = s.skipTrivia.leading ∧
    (s.skipTrivia.rest = [] → t.kind = .endOfFile)

/-- What holds of a tokenizer at every step, as far as literals go. -/
structure Sound (s : Tokenizer) : Prop where
  /-- literals stand in interpolations, and interpolations in literals -/
  within : s.modes.IsChain Mode.Within
  /-- an interpolation starts with a parenthesis -/
  entered : s.modes.head? = some (.interpolation 0) → s.rest.head? = some '('
  /-- what can come next makes items of the tokens so far -/
  finished : ∀ ts, s.Awaits ts → Itemized (s.tokens.reverse ++ ts)
  /-- a token can stand where the outermost literal was opened -/
  replaceable : ∀ opener ∈ outermost s.modes, ∀ first, s.tokens.reverse[opener]? = some first →
    ∀ t ts, t.leading = first.leading → t.IsPlain → Itemized ts →
      Itemized (s.tokens.reverse.take opener ++ t :: ts)

theorem sound_start (text : Text) : (start text).Sound :=
  ⟨.nil, nofun, fun _ h => h.finishes, nofun⟩

/-- A parenthesis is no trivia. -/
theorem scan_paren (side : Trivia.Side) (cs : Text) :
    Trivia.scan side ('(' :: cs) = ([], '(' :: cs) := by
  rw [Trivia.scan]
  rfl

/-- A parenthesis at the front of the text is behind no trivia. -/
theorem head?_skipTrivia_of_paren (h : s.rest.head? = some '(') :
    s.skipTrivia.rest.head? = some '(' := by
  obtain ⟨cs, hcs⟩ := List.head?_eq_some_iff.mp h
  rw [skipTrivia, hcs, scan_paren]
  rfl

/-- Tokens that are made do not change what can stand for a literal that is open already. -/
theorem Sound.replaceable_append (h : s.Sound) (hintact : s.Intact) {us : List Token} {opener : Nat}
    (hopener : opener ∈ outermost s.modes) {first : Token}
    (hfirst : (s.tokens.reverse ++ us)[opener]? = some first) {t : Token} {ts : List Token}
    (hleading : t.leading = first.leading) (ht : t.IsPlain) (hts : Itemized ts) :
    Itemized ((s.tokens.reverse ++ us).take opener ++ t :: ts) := by
  obtain ⟨d, hd⟩ := exists_string_of_outermost hopener
  obtain ⟨first', hfirst', -⟩ := hintact.opened d opener hd
  obtain ⟨hlt, -⟩ := List.getElem?_eq_some_iff.mp hfirst'
  rw [List.getElem?_append_left hlt] at hfirst
  rw [List.take_append_of_le_length (Nat.le_of_lt hlt)]
  exact h.replaceable opener hopener first hfirst t ts hleading ht hts

/-- Tokens that are made without a literal being opened keep the invariant, if what can come behind
them makes, with them, what could come before. -/
theorem Sound.advance (h : s.Sound) (hintact : s.Intact) {s' : Tokenizer} (us : List Token)
    (htokens : s'.tokens = us ++ s.tokens) (hwithin : s'.modes.IsChain Mode.Within)
    (hentered : s'.modes.head? = some (.interpolation 0) → s'.rest.head? = some '(')
    (houter : ∀ opener ∈ outermost s'.modes, opener ∈ outermost s.modes)
    (hawaits : ∀ ts, s'.Awaits ts → s.Awaits (us.reverse ++ ts)) : s'.Sound := by
  have hreverse : s'.tokens.reverse = s.tokens.reverse ++ us.reverse := by
    rw [htokens, List.reverse_append]
  refine ⟨hwithin, hentered, ?_, ?_⟩
  · intro ts hts
    rw [hreverse, List.append_assoc]
    exact h.finished _ (hawaits ts hts)
  · intro opener hopener first hfirst t ts hleading ht hts
    rw [hreverse] at hfirst ⊢
    exact h.replaceable_append hintact (houter opener hopener) hfirst hleading ht hts

/-! ## The parts of a step -/

variable {d : Delimiter} {opener : Nat} {ms : List Mode}

/-- In a literal, only the parts of the literal matter to what can come next. -/
theorem awaits_of_parts (hmodes : s.modes = .string d opener :: ms) {ts us : List Token}
    (hparts : Parts d s.segmentAhead ts us) (h : Finishes true ms us) : s.Awaits ts := by
  refine ⟨?_, ?_⟩
  · rw [hmodes]
    exact ⟨us, hparts, h⟩
  · intro hin
    rw [inString, hmodes] at hin
    cases hin

/-- Closing a literal keeps the invariant: the closing quote and its number signs are the end that
the parts of the literal have to come to. -/
theorem Sound.closeString (h : s.Sound) (hintact : s.Intact)
    (hmodes : s.modes = .string d opener :: ms) (hcloser : startsWith s.rest d.closer) :
    (s.closeString d ms).Sound := by
  obtain ⟨quote, pounds, rest, hquote, hpounds, -, hclose⟩ := exists_closeString_eq hmodes hcloser
  have hwithin := h.within
  rw [hmodes] at hwithin
  rw [hclose]
  refine h.advance hintact (pounds ++ [quote]) (by simp) hwithin.tail ?_ ?_ ?_
  · exact fun hhead => absurd hhead (open_of_within hwithin).ne_entered
  · intro opener' hopener
    rw [hmodes]
    exact outermost_cons_of_mem hopener
  · intro ts hts
    have hreverse : (pounds ++ [quote]).reverse = quote :: pounds := by
      rw [List.reverse_concat, hpounds.reverse]
    rw [hreverse]
    exact awaits_of_parts hmodes (.closed hquote hpounds) hts.finishes.fresh

/-- Where a literal can stand, the tokenizer is in none. -/
theorem inString_of_open (h : Open s.modes) : s.inString = false := by
  unfold inString
  split
  · rename_i d opener ms hmodes
    rw [hmodes] at h
    obtain ⟨parens, hparens⟩ := h _ rfl
    cases hparens
  · rfl

/-- Trivia that starts with a line break holds one. -/
theorem containsNewline_skipTrivia {c : Char} {cs : Text} (h : s.rest = c :: cs)
    (hc : isLineBreak c) : s.skipTrivia.leading.containsNewline := by
  have hpiece : ∃ n, Trivia.piece? .leading c cs = some (.newline, n) := by
    rw [isLineBreak] at hc
    rw [Trivia.piece?, if_pos hc]
    exact ⟨_, rfl⟩
  obtain ⟨n, hn⟩ := hpiece
  have hscan : (Trivia.scan .leading (c :: cs)).1
      = ⟨.newline, c :: cs.take n⟩ :: (Trivia.scan .leading (cs.drop n)).1 := by
    rw [Trivia.scan, hn]
  rw [skipTrivia, h]
  dsimp only
  rw [hscan, Trivia.containsNewline, List.any_append, List.any_cons]
  simp

/-- Where the content of a literal cannot go on, the text ends, or a line break is read that the
literal may not hold. -/
theorem ends_of_contentEnds (h : d.contentEnds s.rest) :
    s.skipTrivia.rest = [] ∨ d.isMultiline = false ∧ s.skipTrivia.leading.containsNewline := by
  cases hrest : s.rest with
  | nil =>
    left
    rw [skipTrivia]
    dsimp only
    rw [hrest, Trivia.scan]
  | cons c cs =>
    right
    rw [hrest, Delimiter.contentEnds, Bool.and_eq_true, Bool.not_eq_true'] at h
    exact ⟨h.1, containsNewline_skipTrivia hrest h.2⟩

/-- A literal without an end is left behind: the text ends, or its line does. -/
theorem Sound.leave (h : s.Sound) (hintact : s.Intact)
    (hmodes : s.modes = .string d opener :: ms) (hends : d.contentEnds s.rest) :
    { s with modes := ms }.Sound := by
  have hwithin := h.within
  rw [hmodes] at hwithin
  have hopen := open_of_within hwithin
  refine h.advance hintact [] rfl hwithin.tail ?_ ?_ ?_
  · exact fun hhead => absurd hhead hopen.ne_entered
  · intro opener' hopener
    rw [hmodes]
    exact outermost_cons_of_mem hopener
  · intro ts hts
    obtain ⟨t, us, rfl, hleading, hend⟩ := hts.leads (inString_of_open hopen)
    refine awaits_of_parts hmodes (.unclosed ?_) hts.finishes.fresh
    rw [hleading]
    exact (ends_of_contentEnds (s := { s with modes := ms }) hends).imp hend id

/-- A segment keeps the invariant: it is a part of the literal, and no second segment follows it. -/
theorem Sound.segment (h : s.Sound) (hintact : s.Intact)
    (hmodes : s.modes = .string d opener :: ms) (hpos : 0 < d.segmentLength s.rest) :
    (s.emit .stringSegment (d.segmentLength s.rest)).Sound := by
  have hahead : s.segmentAhead = true := by
    rw [segmentAhead, hmodes]
    exact decide_eq_true hpos
  rw [emit_of_string hmodes]
  refine h.advance hintact [_] rfl h.within ?_ (fun _ h => h) ?_
  · intro hhead
    rw [hmodes] at hhead
    cases hhead
  · intro ts hts
    have hfinishes := hts.finishes
    simp only [segmentAhead, hmodes, Delimiter.segmentLength_drop] at hfinishes
    obtain ⟨us, hparts, hms⟩ := hfinishes
    refine awaits_of_parts hmodes ?_ hms
    rw [hahead]
    exact .segment rfl hparts

/-- The text at an interpolation. -/
theorem exists_eq_of_atInterpolation {cs : Text} (h : d.atInterpolation cs) :
    ∃ behind, cs = d.escape ++ '(' :: behind := by
  rw [Delimiter.atInterpolation, Bool.and_eq_true] at h
  have hescape := append_drop_of_startsWith h.1
  cases hdrop : cs.drop d.escape.length with
  | nil =>
    rw [hdrop] at h
    cases h.2
  | cons c behind =>
    rw [hdrop] at h hescape
    obtain rfl : c = '(' := beq_iff_eq.mp h.2
    exact ⟨behind, hescape.symm⟩

/-- The start of an interpolation keeps the invariant: its first parenthesis is what comes next,
without trivia before it. -/
theorem Sound.interpolation (h : s.Sound) (hintact : s.Intact)
    (hmodes : s.modes = .string d opener :: ms) (hat : d.atInterpolation s.rest) :
    ({ s with modes := .interpolation 0 :: s.modes }.emit .backslash d.escape.length).Sound := by
  obtain ⟨behind, hrest⟩ := exists_eq_of_atInterpolation hat
  have hemit : { s with modes := .interpolation 0 :: s.modes }.emit .backslash d.escape.length
      = { s with
          rest := '(' :: behind
          leading := []
          modes := .interpolation 0 :: s.modes
          tokens := ⟨s.leading, .backslash, d.escape, []⟩ :: s.tokens } := by
    rw [emit, if_neg (by rw [inString]; exact Bool.false_ne_true)]
    simp only [hrest, List.drop_left, List.take_left, scan_paren]
  rw [hemit]
  refine h.advance hintact [_] rfl ?_ (fun _ => rfl) ?_ ?_
  · rw [hmodes, List.isChain_cons_cons, ← hmodes]
    exact ⟨.interpolation, h.within⟩
  · intro opener' hopener
    rw [outermost_interpolation] at hopener
    exact hopener
  · intro ts hts
    obtain ⟨us, hinside, hfinishes⟩ := hts.finishes
    rw [hmodes] at hfinishes
    obtain ⟨vs, hparts, hms⟩ := hfinishes
    exact awaits_of_parts hmodes (.interpolation ⟨rfl, rfl⟩ hinside hparts) hms

/-- A collapse puts one unknown token where the outermost literal was opened. Trivia that was read
before does not matter. -/
theorem Sound.collapse (h : s.Sound) {s' : Tokenizer} (hintact : s'.Intact)
    (hmodes : s'.modes = s.modes) (htokens : s'.tokens = s.tokens) (hne : s'.modes ≠ []) :
    s'.collapse.Sound := by
  obtain ⟨opener, first, hfind, hfirst, -⟩ := hintact.exists_outermost hne
  unfold Tokenizer.collapse
  simp only [hfind, hfirst]
  refine ⟨.nil, nofun, ?_, nofun⟩
  intro ts hts
  rw [List.reverse_cons, List.reverse_reverse, List.append_assoc]
  rw [hmodes] at hfind
  rw [htokens] at hfirst ⊢
  exact h.replaceable opener hfind first hfirst _ ts rfl ⟨rfl, .of_none rfl _⟩ hts.finishes

/-- A step in a literal keeps the invariant. It closes the literal, gives it up, starts an
interpolation or makes a segment. -/
theorem Sound.stringPart (h : s.Sound) (hintact : s.Intact)
    (hmodes : s.modes = .string d opener :: ms) : (s.stringPart d ms).Sound := by
  unfold Tokenizer.stringPart
  split
  · rename_i hcloser
    exact h.closeString hintact hmodes hcloser
  · split
    · rename_i hat
      exact h.interpolation hintact hmodes hat
    · split
      · exact h.collapse hintact rfl rfl (by rw [hmodes]; exact List.cons_ne_nil _ _)
      · split
        · rename_i hends
          exact h.leave hintact hmodes hends
        · rename_i hcloser hat hbare hends
          exact h.segment hintact hmodes (Delimiter.segmentLength_pos hcloser hat hbare hends)

/-- Outside of a literal, tokens can come next that start where the trivia before them ends. -/
theorem awaits_of_finishes (hrest : s.skipTrivia.rest ≠ []) {t : Token} {ts : List Token}
    (hleading : t.leading = s.skipTrivia.leading)
    (h : Finishes s.segmentAhead s.modes (t :: ts)) : s.Awaits (t :: ts) :=
  ⟨h, fun _ => ⟨t, ts, rfl, hleading, fun hnil => absurd hnil hrest⟩⟩

/-- Outside of a literal, and not in front of the first parenthesis of an interpolation. -/
theorem Sound.open (h : s.Sound) (hstring : ∀ d opener ms, s.modes ≠ .string d opener :: ms)
    (hparen : s.rest.head? ≠ some '(') : Open s.modes := by
  intro m hm
  cases m with
  | string d opener =>
    obtain ⟨ms, hms⟩ := List.head?_eq_some_iff.mp hm
    exact absurd hms (hstring d opener ms)
  | interpolation parens =>
    cases parens with
    | zero => exact absurd (h.entered hm) hparen
    | succ parens => exact ⟨parens, rfl⟩

/-- Outside of all literals nothing is open. -/
theorem Intact.modes_eq_nil_of_outermost (h : s.Intact) (houter : outermost s.modes = none) :
    s.modes = [] := by
  by_contra hne
  obtain ⟨opener, _, hfind, -⟩ := h.exists_outermost hne
  rw [outermost, hfind] at houter
  cases houter

/-- Opening a literal keeps the invariant. If the literal is the outermost one, what is made of the
tokens before it is remembered for a collapse. -/
theorem Sound.openString (h : s.Sound) (hintact : s.Intact) (hopen : Open s.modes)
    (hd : Delimiter.ofText? s.skipTrivia.rest = some d) : (s.skipTrivia.openString d).Sound := by
  obtain ⟨pounds, quote, rest, hpounds, hquote, ⟨first, hfirst, hleading, -⟩, hopened⟩ :=
    exists_openString_eq hd
  have hrest : s.skipTrivia.rest ≠ [] := by
    intro hnil
    rw [hnil] at hd
    cases hd
  have hmodes : (s.skipTrivia.openString d).modes = .string d s.tokens.length :: s.modes := by
    rw [hopened]
    rfl
  have htokens : (s.skipTrivia.openString d).tokens.reverse
      = s.tokens.reverse ++ (pounds ++ [quote]) := by
    rw [hopened, List.reverse_cons, List.reverse_append, hpounds.reverse, List.append_assoc]
    rfl
  refine ⟨?_, ?_, ?_, ?_⟩
  · rw [hmodes]
    refine List.isChain_cons.mpr ⟨?_, h.within⟩
    intro m hm
    obtain ⟨parens, rfl⟩ := hopen m hm
    exact .string
  · rw [hmodes]
    exact nofun
  · rintro ts ⟨hfinishes, -⟩
    rw [hmodes] at hfinishes
    obtain ⟨us, hparts, hms⟩ := hfinishes
    rw [htokens, List.append_assoc]
    obtain ⟨behind, hbehind⟩ := List.head?_eq_some_iff.mp hfirst
    have hliteral : Literal (first :: (behind ++ ts)) us := by
      rw [← List.cons_append, ← hbehind, List.append_assoc]
      exact .opened hpounds hquote hparts.fresh
    rw [hbehind, List.cons_append]
    exact h.finished _ (awaits_of_finishes hrest hleading (.literal hopen hliteral hms))
  · intro opener hopener first' hfirst' t ts ht hplain hts
    rw [htokens] at hfirst' ⊢
    rw [hmodes, outermost_cons] at hopener
    cases houter : outermost s.modes with
    | some opener' =>
      rw [houter] at hopener
      obtain rfl := Option.some.inj hopener
      exact h.replaceable_append hintact houter hfirst' ht hplain hts
    | none =>
      -- the literal is the outermost one, and what comes before it is items
      rw [houter] at hopener
      obtain rfl : s.tokens.length = opener := Option.some.inj hopener
      have hmodes : s.modes = [] := hintact.modes_eq_nil_of_outermost houter
      rw [← List.length_reverse, List.getElem?_append_right (Nat.le_refl _), Nat.sub_self,
        ← List.head?_eq_getElem?, hfirst] at hfirst'
      obtain rfl := Option.some.inj hfirst'
      rw [← List.length_reverse, List.take_left]
      refine h.finished _ (awaits_of_finishes hrest (ht.trans hleading) ?_)
      rw [hmodes]
      obtain ⟨leading, hts⟩ := hts
      exact ⟨leading, .token hplain hts⟩

/-- An ordinary token leaves modes behind that stand in each other as before, and no interpolation
in front of its first parenthesis. -/
theorem within_modesBehind {kind : Kind} (h : ms.IsChain Mode.Within)
    (hfirst : ms.head? = some (.interpolation 0) → kind = .leftParen) :
    (modesBehind kind ms).IsChain Mode.Within ∧
      (modesBehind kind ms).head? ≠ some (.interpolation 0) := by
  unfold modesBehind
  split
  · rename_i parens ms
    obtain ⟨houter, hms⟩ := List.isChain_cons.mp h
    have hcount (parens : Nat) : (Mode.interpolation parens :: ms).IsChain Mode.Within := by
      refine List.isChain_cons.mpr ⟨?_, hms⟩
      intro m hm
      cases houter m hm with
      | interpolation => exact .interpolation
    split
    · exact ⟨hcount _, by simp⟩
    · rename_i hleft
      split
      · split
        · refine ⟨hms, fun hhead => ?_⟩
          cases houter _ hhead
        · exact ⟨hcount _, by simp; omega⟩
      · refine ⟨h, fun hhead => hleft (hfirst hhead)⟩
  · rename_i hms
    refine ⟨h, fun hhead => ?_⟩
    obtain ⟨ms', hms'⟩ := List.head?_eq_some_iff.mp hhead
    exact hms 0 ms' hms'

/-- An interpolation starts with a parenthesis. -/
theorem Sound.leftParen_of_plain (h : s.Sound) {c : Char} {cs : Text}
    (hrest : s.skipTrivia.rest = c :: cs) {kind : Kind} {more : Nat}
    (hplain : Token.plain s.tokens.head? s.skipTrivia.leading c cs = (kind, more))
    (hhead : s.modes.head? = some (.interpolation 0)) : kind = .leftParen := by
  have hparen := head?_skipTrivia_of_paren (h.entered hhead)
  rw [hrest] at hparen
  obtain rfl := Option.some.inj hparen
  exact (congrArg Prod.fst hplain).symm

/-- An ordinary token keeps the invariant. A parenthesis may be the end of the interpolation that it
is in. -/
theorem Sound.plain (h : s.Sound) (hintact : s.Intact)
    (hstring : ∀ d opener ms, s.modes ≠ .string d opener :: ms) {c : Char} {cs : Text}
    (hrest : s.skipTrivia.rest = c :: cs) {kind : Kind} {more : Nat}
    (hplain : Token.plain s.tokens.head? s.skipTrivia.leading c cs = (kind, more)) :
    ({ s.skipTrivia with modes := modesBehind kind s.modes }.emit kind (more + 1)).Sound := by
  have hfirst := h.leftParen_of_plain hrest hplain
  obtain ⟨hwithin, hne⟩ := within_modesBehind h.within hfirst
  obtain ⟨trailing, rest, -, hemit⟩ :=
    exists_emit_eq { s.skipTrivia with modes := modesBehind kind s.modes } kind (more + 1)
  rw [hemit]
  refine h.advance hintact [_] rfl hwithin (fun hhead => absurd hhead hne) ?_ ?_
  · intro opener hopener
    exact outermost_modesBehind hopener
  · intro ts hts
    refine awaits_of_finishes (by rw [hrest]; exact List.cons_ne_nil _ _) rfl ?_
    refine .token hstring hfirst ⟨?_, ?_⟩ hts.finishes
    · have halone := Token.plain_standsAlone s.tokens.head? s.skipTrivia.leading c cs
      rwa [hplain] at halone
    · have hspells := Token.plain_spells s.tokens.head? s.skipTrivia.leading c cs
      rw [hplain] at hspells
      show kind.Spells (s.skipTrivia.rest.take (more + 1))
      rw [hrest]
      exact hspells

/-- A step outside of literals keeps the invariant: it opens a literal or makes an ordinary
token. -/
theorem Sound.normalPart (h : s.Sound) (hintact : s.Intact)
    (hstring : ∀ d opener ms, s.modes ≠ .string d opener :: ms) {c : Char} {cs : Text}
    (hrest : s.skipTrivia.rest = c :: cs) : (s.skipTrivia.normalPart c cs).Sound := by
  unfold Tokenizer.normalPart
  split
  · rename_i d hd
    refine h.openString hintact (h.open hstring ?_) (by rw [hrest]; exact hd)
    intro hparen
    have hskip := head?_skipTrivia_of_paren hparen
    rw [hrest] at hskip
    obtain rfl := Option.some.inj hskip
    cases hd
  · exact h.plain hintact hstring hrest rfl

/-! ## Steps and runs -/

/-- A step keeps the invariant. -/
theorem Sound.step (h : s.Sound) (hintact : s.Intact) {t : Tokenizer} (hstep : s.step = .inl t) :
    t.Sound := by
  unfold Tokenizer.step at hstep
  split at hstep
  · rename_i hmodes
    obtain rfl := Sum.inl.inj hstep
    exact h.stringPart hintact hmodes
  · rename_i hstring
    dsimp only at hstep
    split at hstep
    · split at hstep
      · rename_i hinterpolation
        obtain rfl := Sum.inl.inj hstep
        refine h.collapse hintact.skipTrivia rfl rfl ?_
        intro hnil
        rw [hnil] at hinterpolation
        cases hinterpolation
      · cases hstep
    · rename_i hrest
      obtain rfl := Sum.inl.inj hstep
      exact h.normalPart hintact hstring hrest

/-- Neither in a literal nor in an interpolation, a tokenizer is in the middle of nothing. -/
theorem modes_eq_nil (hstring : ∀ d opener ms, s.modes ≠ .string d opener :: ms)
    (hany : ¬s.modes.any Mode.isInterpolation) : s.modes = [] := by
  cases hmodes : s.modes with
  | nil => rfl
  | cons m ms =>
    cases m with
    | string d opener => exact absurd hmodes (hstring d opener ms)
    | interpolation parens =>
      refine absurd ?_ hany
      rw [hmodes]
      rfl

/-- At the end of the text, nothing is left open. -/
theorem Sound.complete (h : s.Sound) {ts : List Token} (hstep : s.step = .inr ts) :
    Itemized ts := by
  unfold Tokenizer.step at hstep
  split at hstep
  · cases hstep
  · rename_i hstring
    dsimp only at hstep
    split at hstep
    · rename_i hrest
      split at hstep
      · cases hstep
      · rename_i hany
        obtain rfl := Sum.inr.inj hstep
        have hmodes := modes_eq_nil hstring hany
        rw [emit_of_rest_eq_nil hrest, List.reverse_cons]
        refine h.finished _ ⟨?_, fun _ => ⟨_, [], rfl, rfl, fun _ => rfl⟩⟩
        rw [hmodes]
        exact ⟨_, .done⟩
    · cases hstep

/-- However a tokenizer gets to the end of its text, its tokens are items. -/
theorem Sound.run {s : Tokenizer} (h : s.Sound) (hintact : s.Intact) : Itemized s.run := by
  fun_induction Tokenizer.run s with
  | case1 s t hstep _ ih => exact ih (h.step hintact hstep) (hintact.step hstep).1
  | case2 s ts hstep => exact h.complete hstep

end Tokenizer

/-- The tokens of every text are items up to the end of the file: each literal among them is opened,
divided into parts and closed by its delimiter, or breaks off where its line or the text ends, and
no interpolation is left open. -/
theorem Token.stream_itemized (text : Text) : Itemized (stream text) :=
  (Tokenizer.sound_start text).run (Tokenizer.intact_start text)

end SwiftTree
