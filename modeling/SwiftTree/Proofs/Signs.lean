import SwiftTree.Proofs.Reading

/-!
# The signs that types are written with

Types are written with names, brackets, separators, question marks and arrows. A `Sign` is one of
these, with the blank that stands behind it. Signs are written one by one, but closing angle
brackets and question marks that follow each other are read as one operator (`Sign.tokens`).

`Sign.FitBefore` says which signs can follow each other. Signs that fit are read as they were
written (`Sign.reads_tokens`). A question mark before a closing angle bracket does not fit. The two
are read without a fault, too, but the rules cannot take such an operator apart: they cut a closing
angle bracket off an operator that starts with one, and question marks off an operator that consists
of them.
-/

namespace SwiftTree

open Text Token

/-! ## Names -/

/-- Whether a text is a name in quotes, behind the first quote. -/
def Token.isQuotedTail (cs : Text) : Bool :=
  cs.getLast? == some '\x60' && !cs.dropLast.isEmpty
    && cs.dropLast.all fun c => c != '\x60' && !isLineBreak c

/-- Whether a text is read as a name: a word that is not reserved, or any text in quotes. -/
def Token.isIdentifier : Text → Bool
  | [] => false
  | c :: cs =>
    if c == '\x60' then isQuotedTail cs
    else isNameStart c && cs.all isNameChar && (Kind.ofKeyword? (c :: cs)).isNone

/-- A name. -/
structure Name where
  /-- how it is written -/
  text : Text
  /-- it is read as a name -/
  isIdentifier : Token.isIdentifier text = true
deriving DecidableEq

namespace Name

/-- The two forms of a name: any text between quotes that neither breaks the line nor holds a quote,
or a word that starts as names do and is not reserved. -/
theorem text_cases (n : Name) :
    (∃ cs, n.text = '\x60' :: (cs ++ ['\x60']) ∧ cs ≠ [] ∧
      ∀ c ∈ cs, c ≠ '\x60' ∧ isLineBreak c = false) ∨
    ∃ c cs, n.text = c :: cs ∧ isNameStart c ∧ (∀ d ∈ cs, isNameChar d) ∧
      Kind.ofKeyword? (c :: cs) = none := by
  obtain ⟨text, h⟩ := n
  cases text with
  | nil => cases h
  | cons c cs =>
    rw [Token.isIdentifier] at h
    split at h
    · rename_i hc
      left
      rw [isQuotedTail, Bool.and_eq_true, Bool.and_eq_true, beq_iff_eq,
        List.getLast?_eq_some_iff] at h
      obtain ⟨⟨⟨ds, rfl⟩, hne⟩, hall⟩ := h
      rw [List.dropLast_concat] at hne hall
      refine ⟨ds, ?_, by simpa using hne, fun d hd => by simpa using List.all_eq_true.mp hall d hd⟩
      exact congrArg (· :: (ds ++ ['\x60'])) (beq_iff_eq.mp hc)
    · right
      rw [Bool.and_eq_true, Bool.and_eq_true, List.all_eq_true, Option.isNone_iff_eq_none] at h
      exact ⟨c, cs, rfl, h.1.1, h.1.2, h.2⟩

end Name

/-! ## Signs -/

/-- What types are written with. -/
inductive Sign where
  | word (name : Name)
  | leftParen
  /-- a closing parenthesis, with or without a blank before an arrow -/
  | rightParen (spaced : Bool)
  | leftBracket
  | rightBracket
  | leftAngle
  | rightAngle
  | mark
  | comma
  | colon
  | arrow

namespace Sign

/-- A sign as a token of its own. -/
def token : Sign → Token
  | word n => ⟨[], .identifier, n.text, []⟩
  | leftParen => ⟨[], .leftParen, ['('], []⟩
  | rightParen spaced => ⟨[], .rightParen, [')'], if spaced then blank else []⟩
  | leftBracket => ⟨[], .leftBracket, ['['], []⟩
  | rightBracket => ⟨[], .rightBracket, [']'], []⟩
  | leftAngle => ⟨[], .binaryOperator, ['<'], []⟩
  | rightAngle => ⟨[], .postfixOperator, ['>'], []⟩
  | mark => ⟨[], .postfixOperator, ['?'], []⟩
  | comma => ⟨[], .comma, [','], blank⟩
  | colon => ⟨[], .colon, [':'], blank⟩
  | arrow => ⟨[], .arrow, ['-', '>'], blank⟩

/-- The text of signs. -/
def text (ss : List Sign) : Text := fullText (ss.map token)

/-- Whether the sign is read together with others like it that follow. -/
def isSuffix : Sign → Bool
  | rightAngle | mark => true
  | _ => false

/-- Puts the characters of an operator in front of a postfix operator that follows. -/
def join (cs : Text) : List Token → List Token
  | [] => [⟨[], .postfixOperator, cs, []⟩]
  | t :: ts =>
    if t.kind = .postfixOperator then { t with text := cs ++ t.text } :: ts
    else ⟨[], .postfixOperator, cs, []⟩ :: t :: ts

/-- The tokens that signs are read as. -/
def tokens : List Sign → List Token
  | [] => []
  | s :: ss => if s.isSuffix then join s.token.text (tokens ss) else s.token :: tokens ss

/-- Whether a type can start with the sign. -/
def starts : Sign → Bool
  | word _ | leftParen | leftBracket => true
  | _ => false

/-- Whether a sign can stand behind a type. -/
def follows : Sign → Bool
  | rightParen _ | rightBracket | rightAngle | mark | comma | colon => true
  | _ => false

/-- Whether a sign can stand before another one, or before the end. -/
def meets : Sign → Option Sign → Bool
  | word _, some leftAngle => true
  | leftParen, some (rightParen _) => true
  | rightParen true, some arrow => true
  | rightParen true, _ => false
  | mark, some rightAngle => false
  | word _, o | rightParen false, o | rightBracket, o | rightAngle, o | mark, o => o.all follows
  | leftParen, o | leftBracket, o | leftAngle, o | comma, o | colon, o | arrow, o => o.any starts

/-- Whether each of several signs can stand before the one behind it, and the last one before
`next`. -/
def FitBefore (next : Option Sign) : List Sign → Prop
  | [] => True
  | s :: ss => s.meets (ss.head?.or next) ∧ FitBefore next ss

@[simp] theorem fitBefore_nil (next : Option Sign) : FitBefore next [] := trivial

@[simp] theorem fitBefore_cons {next : Option Sign} {s : Sign} {ss : List Sign} :
    FitBefore next (s :: ss) ↔ s.meets (ss.head?.or next) ∧ FitBefore next ss := Iff.rfl

@[simp] theorem fitBefore_append {next : Option Sign} {ss us : List Sign} :
    FitBefore next (ss ++ us) ↔ FitBefore (us.head?.or next) ss ∧ FitBefore next us := by
  induction ss with
  | nil => simp
  | cons s ss ih =>
    rw [List.cons_append, fitBefore_cons, fitBefore_cons, ih, and_assoc, List.head?_append,
      Option.or_assoc]

/-! ### The text of signs -/

/-- The first character of a sign. -/
def first (s : Sign) : Char := peek s.token.text

/-- The first character of signs. The end of a text reads as NUL. -/
def firstOf (o : Option Sign) : Char := (o.map first).getD '\x00'

/-- The kind of the token that a sign starts. The end of a text reads as the end of the file. -/
def kindOf (o : Option Sign) : Kind := (o.map fun s => s.token.kind).getD .endOfFile

/-- The text of signs is that of the first one, with the blank behind it, and that of the others.
How signs are read together does not change it. -/
theorem text_cons (s : Sign) (ss : List Sign) :
    text (s :: ss) = s.token.text ++ (s.token.trailing.text ++ text ss) := by
  rw [text, List.map_cons, fullText_cons, full, List.append_assoc]
  cases s <;> rfl

theorem text_append (ss us : List Sign) : text (ss ++ us) = text ss ++ text us := by
  rw [text, List.map_append, fullText_append]
  rfl

theorem text_ne_nil (s : Sign) : s.token.text ≠ [] := by
  cases s with
  | word n =>
    show n.text ≠ []
    rcases n.text_cases with ⟨cs, h, -⟩ | ⟨c, cs, h, -⟩ <;> rw [h] <;> exact List.cons_ne_nil _ _
  | _ => exact List.cons_ne_nil _ _

/-- What comes first in the text of signs is the first character of the first one, or NUL where
there are none, so looks at the text are looks at the signs. -/
theorem peek_text (ss : List Sign) : peek (text ss) = firstOf ss.head? := by
  cases ss with
  | nil => rfl
  | cons s ss =>
    obtain ⟨c, cs, h⟩ := List.exists_cons_of_ne_nil s.text_ne_nil
    rw [text_cons, h]
    show c = peek s.token.text
    rw [h]
    rfl

theorem tokens_of_not_isSuffix {s : Sign} (h : s.isSuffix = false) (ss : List Sign) :
    tokens (s :: ss) = s.token :: tokens ss := by
  rw [tokens, h, if_neg Bool.false_ne_true]

/-- A suffix is a postfix operator without trivia, whatever it is: it has nothing but its
characters. -/
theorem token_of_isSuffix {s : Sign} (h : s.isSuffix) :
    s.token = ⟨[], .postfixOperator, s.token.text, []⟩ := by
  cases s with
  | rightAngle | mark => rfl
  | _ => cases h

/-- No other sign is a postfix operator, so an operator of suffixes ends where the suffixes end. -/
theorem kind_ne_of_not_isSuffix {s : Sign} (h : s.isSuffix = false) :
    s.token.kind ≠ .postfixOperator := by
  cases s with
  | rightAngle | mark => cases h
  | _ => exact nofun

/-- Joining characters to the tokens behind them keeps the text, if there is no trivia before the
first of these. -/
theorem fullText_join (cs : Text) {ts : List Token} (h : ∀ t ∈ ts.head?, t.leading = []) :
    fullText (join cs ts) = cs ++ fullText ts := by
  cases ts with
  | nil => simp [join, full]
  | cons t ts =>
    have ht := h t rfl
    rw [join]
    split <;> simp [full, ht]

/-- Joining makes a token of its own, or adds to the one that follows. -/
theorem join_cases (cs : Text) (ts : List Token) :
    join cs ts = ⟨[], .postfixOperator, cs, []⟩ :: ts ∨
      ∃ u us, ts = u :: us ∧ u.kind = .postfixOperator ∧
        join cs ts = { u with text := cs ++ u.text } :: us := by
  cases ts with
  | nil => exact .inl rfl
  | cons u us =>
    rw [join]
    split
    · rename_i hu
      exact .inr ⟨u, us, rfl, hu, rfl⟩
    · exact .inl rfl

theorem leading_join (cs : Text) {ts : List Token} (h : ∀ t ∈ ts.head?, t.leading = []) :
    ∀ t ∈ (join cs ts).head?, t.leading = [] := by
  cases ts with
  | nil => simp [join]
  | cons t ts =>
    have ht := h t rfl
    rw [join]
    split <;> simp [ht]

/-- The tokens of signs have no trivia before the first of them: a blank belongs to the sign that it
stands behind. -/
theorem leading_tokens {ss : List Sign} : ∀ t ∈ (tokens ss).head?, t.leading = [] := by
  induction ss with
  | nil => exact nofun
  | cons s ss ih =>
    rw [tokens]
    split
    · exact leading_join _ ih
    · intro t ht
      obtain rfl := Option.some.inj ht
      cases s <;> rfl

/-- The tokens of signs have their text. -/
theorem fullText_tokens (ss : List Sign) : fullText (tokens ss) = text ss := by
  induction ss with
  | nil => rfl
  | cons s ss ih =>
    rw [text_cons, tokens]
    split
    · rename_i hs
      rw [fullText_join _ leading_tokens, ih, token_of_isSuffix hs]
      rfl
    · rw [fullText_cons, ih, full, List.append_assoc, List.append_assoc]
      cases s <;> rfl

theorem tokens_cons_ne_nil (s : Sign) (ss : List Sign) : tokens (s :: ss) ≠ [] := by
  rw [tokens]
  split
  · rcases join_cases s.token.text (tokens ss) with h | ⟨u, us, -, -, h⟩
    · exact h ▸ List.cons_ne_nil _ _
    · exact h ▸ List.cons_ne_nil _ _
  · exact List.cons_ne_nil _ _

/-- The first token starts with the first sign. -/
theorem head_tokens {s : Sign} {ss : List Sign} {t : Token} {ts : List Token}
    (h : tokens (s :: ss) = t :: ts) : t.kind = s.token.kind ∧ s.token.text <+: t.text := by
  cases hs : s.isSuffix with
  | false =>
    rw [tokens_of_not_isSuffix hs] at h
    obtain ⟨rfl, -⟩ := List.cons.inj h
    exact ⟨rfl, List.prefix_refl _⟩
  | true =>
    have hkind : s.token.kind = .postfixOperator := by rw [token_of_isSuffix hs]
    rw [hkind]
    rw [tokens, if_pos hs] at h
    rcases join_cases s.token.text (tokens ss) with hjoin | ⟨u, us, -, hu, hjoin⟩
    · obtain ⟨rfl, -⟩ := List.cons.inj (h.symm.trans hjoin)
      exact ⟨rfl, List.prefix_refl _⟩
    · obtain ⟨rfl, -⟩ := List.cons.inj (h.symm.trans hjoin)
      exact ⟨hu, List.prefix_append _ _⟩

/-- What is read together with a question mark are question marks. -/
theorem all_marks {next : Option Sign} {ss : List Sign} {t : Token} {ts : List Token}
    (hfit : FitBefore next (mark :: ss)) (h : tokens (mark :: ss) = t :: ts) :
    ∀ c ∈ t.text, c = '?' := by
  induction ss generalizing t ts with
  | nil =>
    obtain ⟨rfl, -⟩ := List.cons.inj h
    exact List.forall_mem_singleton.mpr rfl
  | cons s ss ih =>
    have hmark : mark.isSuffix = true := rfl
    rw [tokens, if_pos hmark] at h
    rcases join_cases mark.token.text (tokens (s :: ss)) with hjoin | ⟨u, us, hu, hkind, hjoin⟩
    · obtain ⟨rfl, -⟩ := List.cons.inj (h.symm.trans hjoin)
      exact List.forall_mem_singleton.mpr rfl
    · obtain ⟨rfl, -⟩ := List.cons.inj (h.symm.trans hjoin)
      rw [(head_tokens hu).1] at hkind
      cases s with
      | mark => exact List.forall_mem_cons.mpr ⟨rfl, ih hfit.2 hu⟩
      | rightAngle => cases hfit.1
      | _ => cases hkind

/-- No token of signs is empty, so each of them can be read from the front of a text. -/
theorem text_ne_nil_of_tokens {ss : List Sign} {t : Token} {ts : List Token}
    (h : tokens ss = t :: ts) : t.text ≠ [] := by
  cases ss with
  | nil => cases h
  | cons s ss =>
    intro hnil
    have hprefix := (head_tokens h).2
    rw [hnil, List.prefix_nil] at hprefix
    exact s.text_ne_nil hprefix

/-! ### Signs are read as they were written -/

/-- A postfix operator of closing angle brackets and question marks. -/
def suffixToken (rs : List Sign) : Token := ⟨[], .postfixOperator, text rs, []⟩

theorem text_of_isSuffix {s : Sign} (h : s.isSuffix) (ss : List Sign) :
    text (s :: ss) = s.token.text ++ text ss := by
  rw [text_cons, token_of_isSuffix h]
  rfl

/-- A suffix with no other suffix behind it is a token of its own. -/
theorem tokens_cons_of_isSuffix {s : Sign} (hs : s.isSuffix) {ss : List Sign}
    (hss : ∀ s ∈ ss.head?, s.isSuffix = false) :
    tokens (s :: ss) = suffixToken [s] :: tokens ss := by
  rw [tokens, if_pos hs, suffixToken, text_of_isSuffix hs, text, List.map_nil, fullText_nil,
    List.append_nil]
  cases ss with
  | nil => rfl
  | cons u us =>
    have hu := hss u rfl
    rw [tokens_of_not_isSuffix hu, join, if_neg (kind_ne_of_not_isSuffix hu)]

/-- Suffixes that follow each other are one token. -/
theorem tokens_append {rs ss : List Sign} (hne : rs ≠ []) (hrs : ∀ s ∈ rs, s.isSuffix)
    (hss : ∀ s ∈ ss.head?, s.isSuffix = false) :
    tokens (rs ++ ss) = suffixToken rs :: tokens ss := by
  induction rs with
  | nil => exact absurd rfl hne
  | cons r rs ih =>
    obtain ⟨hr, hrs⟩ := List.forall_mem_cons.mp hrs
    cases rs with
    | nil => exact tokens_cons_of_isSuffix hr hss
    | cons r' rs =>
      rw [List.cons_append, tokens, if_pos hr, ih (List.cons_ne_nil _ _) hrs, join, suffixToken,
        if_pos rfl, suffixToken, text_of_isSuffix hr]

/-! ### What stands at the front -/

/-- A sign that a type can start with is known by its first character. -/
theorem startsType_of_starts {s : Sign} (h : s.starts) : startsType s.first := by
  cases s with
  | word n =>
    show startsType (peek n.text)
    rcases n.text_cases with ⟨cs, htext, -⟩ | ⟨c, cs, htext, hc, -⟩
    · rw [htext]
      rfl
    · rw [htext]
      exact Bool.or_eq_true_iff.mpr (.inl hc)
  | leftParen | leftBracket => rfl
  | _ => cases h

theorem isFront_of_startsType {c : Char} (h : startsType c) : isFront c := by
  rw [isFront, not_isBlank_of_startsType h, not_contains_of_startsType h rfl]
  rfl

/-- Every sign is the front of a token, and so is what follows. -/
theorem isFront_firstOf (o : Option Sign) : isFront (firstOf o) := by
  cases o with
  | none => rfl
  | some s =>
    show isFront s.first
    cases s with
    | word n => exact isFront_of_startsType (startsType_of_starts (s := .word n) rfl)
    | _ => rfl

/-- What stands behind a type ends an operator. -/
theorem endsOperator_firstOf {o : Option Sign} (h : o.all follows) (h' : ¬o.any isSuffix) :
    endsOperator (firstOf o) := by
  cases o with
  | none => rfl
  | some s =>
    cases s with
    | rightParen | rightBracket | comma | colon => rfl
    | rightAngle | mark => exact absurd rfl h'
    | _ => cases h

/-- A name does not go on with what stands behind it. -/
theorem not_isNameChar_firstOf {n : Name} {o : Option Sign} (h : (word n).meets o) :
    isNameChar (firstOf o) = false := by
  cases o with
  | none => rfl
  | some s =>
    cases s with
    | word | leftParen | leftBracket | arrow => cases h
    | _ => rfl

/-- A sign behind which an operator touches it. -/
def binds : Sign → Bool
  | word _ | rightParen false | rightBracket | rightAngle | mark => true
  | _ => false

/-- A character that an operator behind it touches. -/
def bindsChar (c : Char) : Bool := isNameChar c || ")]>?\x60".toList.contains c

/-- A character that an operator behind it touches is no blank. -/
theorem not_isBlank_of_bindsChar {c : Char} (h : bindsChar c) : isBlank c = false := by
  rw [bindsChar, Bool.or_eq_true] at h
  rcases h with hname | hother
  · exact not_isBlank_of_isNameChar hname
  · exact eq_false_of_contains rfl hother

/-- Whether an operator is bound on its left is told by the last character of the token before it,
if there is no trivia between the two. -/
theorem leftBound_of_last {t : Token} {c : Char} (htrailing : t.trailing = [])
    (htext : t.text.getLast? = some c) (hc : bindsChar c) : leftBound (some t) [] := by
  have hlast : t.text.getLastD '\x00' = c := by
    rw [List.getLastD_eq_getLast?, htext]
    rfl
  have hnone : "([\x7b,:;\x00".toList.contains c = false := by
    rw [Bool.eq_false_iff]
    intro hmem
    rw [eq_false_of_contains (p := bindsChar) rfl hmem] at hc
    cases hc
  rw [leftBound, Option.any_some, htrailing, hlast]
  dsimp only
  rw [hnone, not_isBlank_of_bindsChar hc]
  rfl

/-- Behind a name, a closing bracket or a suffix without a blank, an operator touches what stands
before it. -/
theorem leftBound_of_binds {s : Sign} (h : s.binds) : leftBound (some s.token) [] := by
  cases s with
  | word n =>
    rcases n.text_cases with ⟨cs, htext, -⟩ | ⟨c, cs, htext, hc, hcs, -⟩
    · refine leftBound_of_last (c := '\x60') rfl ?_ rfl
      show n.text.getLast? = _
      rw [htext, ← List.cons_append, List.getLast?_concat]
    · have hd := List.getLast?_eq_some_getLast (List.cons_ne_nil c cs)
      refine leftBound_of_last (c := (c :: cs).getLast (List.cons_ne_nil c cs)) rfl ?_ ?_
      · show n.text.getLast? = _
        rw [htext, hd]
      have hall : ∀ e ∈ c :: cs, isNameChar e := by
        refine List.forall_mem_cons.mpr ⟨?_, hcs⟩
        rw [isNameChar, hc, Bool.true_or]
      rw [bindsChar, hall _ (List.getLast_mem _), Bool.true_or]
  | rightParen spaced =>
    cases spaced with
    | true => cases h
    | false => exact leftBound_of_last (c := ')') rfl rfl rfl
  | rightBracket => exact leftBound_of_last (c := ']') rfl rfl rfl
  | rightAngle => exact leftBound_of_last (c := '>') rfl rfl rfl
  | mark => exact leftBound_of_last (c := '?') rfl rfl rfl
  | _ => cases h

/-- Only behind such a sign stands an operator that touches what is before it. -/
theorem binds_of_meets {s u : Sign} (h : s.meets (some u)) (hu : u.isSuffix ∨ u = leftAngle) :
    s.binds := by
  have hstarts : u.starts = false := by
    rcases hu with hu | rfl
    · cases u with
      | rightAngle | mark => rfl
      | _ => cases hu
    · rfl
  cases s with
  | word | rightBracket | rightAngle | mark => rfl
  | rightParen spaced =>
    cases spaced with
    | false => rfl
    | true =>
      cases u with
      | arrow => rcases hu with hu | hu <;> cases hu
      | _ => cases h
  | leftParen =>
    cases u with
    | word | leftParen | leftBracket => cases hstarts
    | rightParen => rcases hu with hu | hu <;> cases hu
    | _ => cases h
  | _ =>
    rw [show u.starts = true from h] at hstarts
    cases hstarts

/-! ### Signs are read as they were written -/

/-- Behind such a sign can stand what can stand behind a type, but for a closing angle bracket
behind a question mark. -/
theorem meets_of_follows {s : Sign} {o : Option Sign} (hs : s.binds) (ho : o.all follows)
    (hmark : s = mark → ∀ u ∈ o, u ≠ rightAngle) : s.meets o := by
  cases o with
  | none =>
    cases s with
    | rightParen spaced => cases spaced with
      | true => cases hs
      | false => rfl
    | word | rightBracket | rightAngle | mark => rfl
    | _ => cases hs
  | some u =>
    cases s with
    | word => cases u with
      | leftAngle => rfl
      | _ => exact ho
    | rightParen spaced => cases spaced with
      | true => cases hs
      | false => exact ho
    | mark => cases u with
      | rightAngle => exact absurd rfl (hmark rfl _ rfl)
      | _ => exact ho
    | rightBracket | rightAngle => exact ho
    | _ => cases hs

/-- Whether an operator that comes first touches what stands before it. -/
def Bound (prev : Option Token) (o : Option Sign) : Prop :=
  ∀ s ∈ o, s.isSuffix ∨ s = leftAngle → leftBound prev []

/-- What can stand behind a sign touches it, if it is an operator. -/
theorem bound_of_meets {s : Sign} {o : Option Sign} (h : s.meets o) : Bound (some s.token) o := by
  intro u hu hop
  rw [hu] at h
  exact leftBound_of_binds (binds_of_meets h hop)

end Sign

/-- A name is read as one wherever no character follows that it could go on with. A blank may stand
behind it. -/
theorem Name.readsBefore {prev : Option Token} (n : Name) {trailing : Trivia} {rest : Text}
    (htrailing : trailing = [] ∨ trailing = blank) (hnext : Trivia.scan .trailing rest = ([], rest))
    (hend : isNameChar (peek (trailing.text ++ rest)) = false) :
    ReadsBefore prev ⟨[], .identifier, n.text, trailing⟩ rest := by
  rcases n.text_cases with ⟨cs, htext, hne, hcs⟩ | ⟨c, cs, htext, hc, hcs, hkey⟩
  · refine .of_plain rfl htrailing htext rfl hnext ?_
    rw [List.append_assoc]
    refine (plain_quoted hne hcs).trans ?_
    rw [List.length_append]
    rfl
  · refine .of_plain rfl htrailing htext (Sign.isFront_of_startsType ?_) hnext ?_
    · exact Bool.or_eq_true_iff.mpr (.inl hc)
    · refine (plain_word hc hcs hend).trans ?_
      rw [hkey]
      rfl

namespace Sign

/-- No trivia starts the text of signs. -/
theorem scan_text_eq_nil (ss : List Sign) : Trivia.scan .trailing (text ss) = ([], text ss) :=
  scan_eq_nil (peek_text ss ▸ isFront_firstOf _)

/-- A sign that is no suffix is read on its own. -/
theorem readsBefore_token {prev : Option Token} {s : Sign} {ss : List Sign}
    (hs : s.isSuffix = false) (hmeets : s.meets ss.head?) (hprev : Bound prev (some s)) :
    ReadsBefore prev s.token (text ss) := by
  have hnext := scan_text_eq_nil ss
  cases s with
  | word n =>
    exact n.readsBefore (.inl rfl) hnext (peek_text ss ▸ not_isNameChar_firstOf hmeets)
  | leftAngle =>
    have hstart : startsType (peek (text ss)) := by
      rw [peek_text]
      obtain ⟨u, hu, hstarts⟩ := (Option.any_eq_true ..).mp hmeets
      rw [hu]
      exact startsType_of_starts hstarts
    exact .of_plain rfl (.inl rfl) rfl rfl hnext (plain_leftAngle (hprev _ rfl (.inr rfl)) hstart)
  | rightParen spaced =>
    cases spaced with
    | true => exact .of_plain rfl (.inr rfl) rfl rfl hnext rfl
    | false => exact .of_plain rfl (.inl rfl) rfl rfl hnext rfl
  | comma | colon | arrow => exact .of_plain rfl (.inr rfl) rfl rfl hnext rfl
  | leftParen | leftBracket | rightBracket => exact .of_plain rfl (.inl rfl) rfl rfl hnext rfl
  | rightAngle | mark => cases hs

/-- A suffix is written with closing angle brackets and question marks only. -/
theorem isSuffixChar_of_isSuffix {s : Sign} (h : s.isSuffix) :
    ∀ c ∈ s.token.text, isSuffixChar c := by
  cases s with
  | rightAngle | mark => exact List.forall_mem_singleton.mpr rfl
  | _ => cases h

theorem isSuffixChar_of_mem_text {rs : List Sign} (hrs : ∀ s ∈ rs, s.isSuffix) :
    ∀ c ∈ text rs, isSuffixChar c := by
  induction rs with
  | nil => exact nofun
  | cons r rs ih =>
    obtain ⟨hr, hrs⟩ := List.forall_mem_cons.mp hrs
    rw [text_of_isSuffix hr, List.forall_mem_append]
    exact ⟨isSuffixChar_of_isSuffix hr, ih hrs⟩

/-- Suffixes that follow each other are read at once. -/
theorem readsBefore_suffixToken {prev : Option Token} {rs ss : List Sign} (hne : rs ≠ [])
    (hrs : ∀ s ∈ rs, s.isSuffix) (hss : ¬ss.head?.any isSuffix) (hfollows : ss.head?.all follows)
    (hprev : leftBound prev []) : ReadsBefore prev (suffixToken rs) (text ss) := by
  have hnext := scan_text_eq_nil ss
  have hends : endsOperator (peek (text ss)) := peek_text ss ▸ endsOperator_firstOf hfollows hss
  have hchars := isSuffixChar_of_mem_text hrs
  rcases htext : text rs with _ | ⟨c, cs⟩
  · obtain ⟨r, rs, rfl⟩ := List.exists_cons_of_ne_nil hne
    rw [text_cons] at htext
    exact absurd (List.append_eq_nil_iff.mp htext).1 r.text_ne_nil
  · rw [htext, List.forall_mem_cons] at hchars
    refine .of_plain rfl (.inl rfl) htext ?_ hnext (plain_suffix hprev hchars.1 hchars.2 hends)
    rcases isSuffixChar_iff.mp hchars.1 with rfl | rfl <;> rfl

/-- Behind a suffix comes nothing, or something that can stand behind a type. -/
theorem follows_of_meets {s : Sign} (hs : s.isSuffix) {o : Option Sign} (h : s.meets o) :
    o.all follows := by
  cases s with
  | rightAngle => exact h
  | mark =>
    rcases o with _ | u
    · rfl
    · cases u with
      | rightAngle => rfl
      | _ => exact h
  | _ => cases hs

/-- Behind suffixes stands what can stand behind a type. -/
theorem follows_of_fitBefore {next : Option Sign} {rs ss : List Sign} (hne : rs ≠ [])
    (hrs : ∀ s ∈ rs, s.isSuffix) (hfit : FitBefore next (rs ++ ss)) :
    (ss.head?.or next).all follows := by
  obtain ⟨front, r, rfl⟩ := (List.eq_nil_or_concat rs).resolve_left hne
  rw [List.concat_eq_append] at hrs hfit
  rw [fitBefore_append, fitBefore_append] at hfit
  exact follows_of_meets (hrs r (by simp)) hfit.1.2.1

/-- One step of reading signs: suffixes that follow each other are read at once, as one postfix
operator, and the signs behind them are read after it. -/
theorem reads_suffixes {prev : Option Token} {rs ss : List Sign} (hne : rs ≠ [])
    (hrs : ∀ s ∈ rs, s.isSuffix) (hss : ∀ s ∈ ss.head?, s.isSuffix = false)
    (hfit : FitBefore none (rs ++ ss)) (hprev : leftBound prev [])
    (h : Reads (some (suffixToken rs)) (tokens ss)) : Reads prev (tokens (rs ++ ss)) := by
  have hfollows := follows_of_fitBefore hne hrs hfit
  rw [Option.or_none] at hfollows
  have hnot : ¬ss.head?.any isSuffix := by
    rw [Option.any_eq_true]
    rintro ⟨s, hs, hsuffix⟩
    rw [hss s hs] at hsuffix
    cases hsuffix
  rw [tokens_append hne hrs hss]
  refine .cons ?_ h
  rw [fullText_tokens]
  exact readsBefore_suffixToken hne hrs hnot hfollows hprev

/-- **Signs are read as they were written**, if each of them can stand before the next one. The
induction goes along with the suffixes `rs` that are still to be joined to what follows, since the
tokenizer takes an operator as far as it goes. -/
theorem reads_tokens {ss : List Sign} (rs : List Sign) (hrs : ∀ s ∈ rs, s.isSuffix)
    (hfit : FitBefore none (rs ++ ss)) {prev : Option Token} (hprev : Bound prev (rs ++ ss).head?) :
    Reads prev (tokens (rs ++ ss)) := by
  induction ss generalizing rs prev with
  | nil =>
    by_cases hne : rs = []
    · rw [hne]
      exact .nil
    · obtain ⟨r, rs', rfl⟩ := List.exists_cons_of_ne_nil hne
      exact reads_suffixes hne hrs nofun hfit (hprev r rfl (.inl (hrs r List.mem_cons_self))) .nil
  | cons s ss ih =>
    by_cases hs : s.isSuffix
    · rw [List.append_cons]
      refine ih _ (List.forall_mem_append.mpr ⟨hrs, List.forall_mem_singleton.mpr hs⟩) ?_ ?_
      · rwa [← List.append_cons]
      · rwa [← List.append_cons]
    · rw [Bool.not_eq_true] at hs
      have hself : ∀ {prev}, Bound prev (some s) → Reads prev (tokens (s :: ss)) := by
        intro prev hprev
        rw [fitBefore_append] at hfit
        obtain ⟨hmeets, hss⟩ := hfit.2
        rw [Option.or_none] at hmeets
        rw [tokens_of_not_isSuffix hs]
        refine .cons ?_ (ih [] nofun hss ?_)
        · rw [fullText_tokens]
          exact readsBefore_token hs hmeets hprev
        · exact bound_of_meets hmeets
      by_cases hne : rs = []
      · subst hne
        exact hself hprev
      · obtain ⟨r, rs', rfl⟩ := List.exists_cons_of_ne_nil hne
        refine reads_suffixes hne hrs ?_ hfit (hprev r rfl (.inl (hrs r List.mem_cons_self)))
          (hself ?_)
        · rintro _ ⟨⟩
          exact hs
        · -- an opening angle bracket stands behind no suffix
          rintro _ ⟨⟩ (hsuffix | rfl)
          · rw [hs] at hsuffix
            cases hsuffix
          · cases follows_of_fitBefore hne hrs hfit

end Sign

end SwiftTree
