import SwiftTree.Proofs.Conformance.Trees
import SwiftTree.Proofs.Literals
import SwiftTree.Proofs.Missing
import SwiftTree.Proofs.Tiling

/-!
# Trees carry the tokens of their texts
-/

namespace SwiftTree

namespace Kind

/-- What a token or a piece became is spelled so, unless nothing has changed. -/
theorem Becomes.spells_or_eq {k j : Kind} {text : Text} (h : k.Becomes text j) :
    j.Spells text ∨ j = k := by
  rcases h with rfl | ⟨-, -, hspells⟩ | ⟨-, rfl | ⟨-, hspells⟩⟩
  · exact .inr rfl
  · exact .inl hspells
  · exact .inl (.of_none rfl text)
  · exact .inl hspells

/-- The kind of an operator prescribes no spelling. -/
theorem spells_of_isOperator {k : Kind} (h : k.isOperator) (text : Text) : k.Spells text := by
  unfold Kind.isOperator at h
  split at h
  case h_4 => cases h
  all_goals exact .of_none rfl text

end Kind

/-- The quotes of a delimiter are spelled as their kind prescribes. -/
theorem Delimiter.spells_quoteText (d : Delimiter) : d.quote.Spells d.quoteText := by
  obtain ⟨_, quote, quoted⟩ := d
  unfold Kind.isStringQuote at quoted
  split at quoted
  case h_4 => cases quoted
  all_goals exact .of_some rfl

theorem Delimiter.IsQuote.spells {d : Delimiter} {t : Token} (h : d.IsQuote t) :
    t.kind.Spells t.text := by
  rw [h.kind, h.text]
  exact d.spells_quoteText

namespace Token

/-! ## How tokens are spelled -/

/-- Whether something holds of every token before the end of a list, and of the tokens behind it. -/
inductive AllTo (p : Token → List Token → Prop) : List Token → List Token → Prop where
  | done {ts : List Token} : AllTo p ts ts
  | more {t : Token} {ts us : List Token} : p t ts → AllTo p ts us → AllTo p (t :: ts) us

namespace AllTo

variable {p : Token → List Token → Prop} {ts us vs : List Token}

/-- What holds up to one place of a list, and from there to another, holds up to this one. -/
theorem trans (h : AllTo p ts us) (h' : AllTo p us vs) : AllTo p ts vs := by
  induction h with
  | done => exact h'
  | more ht _ ih => exact .more ht (ih h')

/-- The end of such a stretch is an end of the list. -/
theorem isSuffix (h : AllTo p ts us) : us <:+ ts := by
  induction h with
  | done => exact List.suffix_refl _
  | more _ _ ih => exact ih.trans (List.suffix_cons _ _)

/-- What holds of every token of a stretch holds of one that stands in it, whichever it is. -/
theorem of_mem (h : AllTo p ts us) {before behind : List Token} {t : Token}
    (hts : ts = before ++ t :: behind) (hus : us <:+ behind) : p t behind := by
  induction h generalizing before with
  | done =>
    have := hus.length_le
    rw [hts] at this
    simp at this
    omega
  | more ht _ ih =>
    cases before with
    | nil =>
      obtain ⟨rfl, rfl⟩ := List.cons.inj hts
      exact ht
    | cons b before => exact ih (List.cons.inj hts).2 hus

end AllTo

/-- Whether tokens are left of a literal behind its quote and some of its parts. -/
inductive Leads (d : Delimiter) : List Token → List Token → Prop where
  | none {ts : List Token} : Leads d ts ts
  | segment {t : Token} {ts us : List Token} : Leads d ts (t :: us) → t.kind = .stringSegment →
      Leads d ts us
  | interpolation {t : Token} {ts us vs : List Token} : Leads d ts (t :: us) → d.IsEscape t →
      Inside 0 us vs → Leads d ts vs

/-- Whether the tokens that are left stand in a literal with a delimiter, and not in one of its
interpolations. -/
def InLiteral (d : Delimiter) (all ts : List Token) : Prop :=
  ∃ before pounds quote us, all = before ++ (pounds ++ quote :: us) ∧ d.ArePounds pounds ∧
    d.IsQuote quote ∧ Leads d us ts

/-- Behind a segment the tokens are still in the literal. -/
theorem InLiteral.segment {d : Delimiter} {all ts : List Token} {t : Token}
    (h : InLiteral d all (t :: ts)) (hkind : t.kind = .stringSegment) : InLiteral d all ts := by
  obtain ⟨before, pounds, quote, us, hall, hpounds, hquote, hleads⟩ := h
  exact ⟨before, pounds, quote, us, hall, hpounds, hquote, hleads.segment hkind⟩

/-- So are they behind an interpolation, which ends within the literal. -/
theorem InLiteral.interpolation {d : Delimiter} {all ts us : List Token} {t : Token}
    (h : InLiteral d all (t :: ts)) (hescape : d.IsEscape t) (hinside : Inside 0 ts us) :
    InLiteral d all us := by
  obtain ⟨before, pounds, quote, vs, hall, hpounds, hquote, hleads⟩ := h
  exact ⟨before, pounds, quote, vs, hall, hpounds, hquote, hleads.interpolation hescape hinside⟩

/-- Whether a token is the backslash of an interpolation in a literal. -/
def Escapes (d : Delimiter) (all : List Token) (t : Token) (behind : List Token) : Prop :=
  InLiteral d all (t :: behind) ∧ d.IsEscape t ∧ ∃ us, Inside 0 behind us

/-- Whether a token is spelled as its kind prescribes, or as the literal around it does. -/
def Spelled (all : List Token) (t : Token) (behind : List Token) : Prop :=
  t.kind.Spells t.text ∨ ∃ d, Escapes d all t behind

/-- The `#`s of a literal can be spelled in any way, as far as their kind is concerned. -/
theorem allTo_of_arePounds {all pounds ts us : List Token} {d : Delimiter}
    (h : d.ArePounds pounds) (hts : AllTo (Spelled all) ts us) :
    AllTo (Spelled all) (pounds ++ ts) us := by
  rw [Delimiter.ArePounds] at h
  split at h
  · rwa [h]
  · obtain ⟨t, rfl, hkind, -⟩ := h
    exact .more (.inl (hkind ▸ .of_none rfl _)) hts

/-- Behind the quote of a literal, the tokens are in it. -/
theorem InLiteral.opened {d : Delimiter} {all pounds ts : List Token} {quote : Token}
    (hts : pounds ++ quote :: ts <:+ all) (hpounds : d.ArePounds pounds)
    (hquote : d.IsQuote quote) :
    InLiteral d all ts := by
  obtain ⟨before, rfl⟩ := hts
  exact ⟨before, pounds, quote, ts, rfl, hpounds, hquote, .none⟩

section

variable {all : List Token}

mutual

/-- All tokens of items are spelled as their kinds prescribe, or as the literal around them does.
The proof goes along with the four relations that say what items are; this is the case of items. -/
theorem Items.spelled : {ts us : List Token} → Items ts us → ts <:+ all → AllTo (Spelled all) ts us
  | _, _, .done, _ => .done
  | _, _, .token ht h, hts => .more (.inl ht.spelled) (h.spelled ((List.suffix_cons _ _).trans hts))
  | _, _, .literal hliteral h, hts =>
    have hl := hliteral.spelled hts
    hl.trans (h.spelled (hl.isSuffix.trans hts))

/-- The tokens of a literal are spelled as its delimiter says. -/
theorem Literal.spelled : {ts us : List Token} → Literal ts us → ts <:+ all →
    AllTo (Spelled all) ts us
  | _, _, .opened hpounds hquote h, hts =>
    have hopen := allTo_of_arePounds hpounds (.more (.inl hquote.spells) .done)
    hopen.trans (h.spelled (hopen.isSuffix.trans hts) (.opened hts hpounds hquote))

/-- The parts of a literal are spelled as its delimiter says, and so is its end. -/
theorem Parts.spelled : {d : Delimiter} → {fresh : Bool} → {ts us : List Token} →
    Parts d fresh ts us → ts <:+ all → InLiteral d all ts → AllTo (Spelled all) ts us
  | _, _, _, _, .closed hquote hpounds, _, _ =>
    .more (.inl hquote.spells) (allTo_of_arePounds hpounds .done)
  | _, _, _, _, .unclosed _, _, _ => .done
  | _, _, _, _, .segment hkind h, hts, hin =>
    .more (.inl (.of_none (by rw [hkind]; rfl) _))
      (h.spelled ((List.suffix_cons _ _).trans hts) (hin.segment hkind))
  | d, _, _, _, .interpolation hescape hinside h, hts, hin =>
    have hbehind := (List.suffix_cons _ _).trans hts
    have hi := hinside.spelled hbehind
    .more (.inr ⟨d, hin, hescape, _, hinside⟩)
      (hi.trans (h.spelled (hi.isSuffix.trans hbehind) (hin.interpolation hescape hinside)))

/-- The tokens of an interpolation are spelled as those of items are. -/
theorem Inside.spelled : {parens : Nat} → {ts us : List Token} → Inside parens ts us →
    ts <:+ all → AllTo (Spelled all) ts us
  | _, _, _, .left _ ht h, hts =>
    .more (.inl ht.spelled) (h.spelled ((List.suffix_cons _ _).trans hts))
  | _, _, _, .right _ ht h, hts =>
    .more (.inl ht.spelled) (h.spelled ((List.suffix_cons _ _).trans hts))
  | _, _, _, .last _ ht, _ => .more (.inl ht.spelled) .done
  | _, _, _, .token _ _ ht h, hts =>
    .more (.inl ht.spelled) (h.spelled ((List.suffix_cons _ _).trans hts))
  | _, _, _, .literal hliteral h, hts =>
    have hl := hliteral.spelled hts
    hl.trans (h.spelled (hl.isSuffix.trans hts))

end

end

/-- Every token of a text is spelled as its kind prescribes, or it is the backslash of an
interpolation and spelled as the literal prescribes. -/
theorem spelled_stream (text : Text) {before behind : List Token} {t : Token}
    (h : stream text = before ++ t :: behind) : Spelled (stream text) t behind := by
  obtain ⟨leading, hitems⟩ := (Tokenizer.sound_start text).run (Tokenizer.intact_start text)
  have hend : AllTo (Spelled (stream text)) [⟨leading, .endOfFile, [], []⟩] [] :=
    .more (.inl (.of_some rfl)) .done
  exact ((hitems.spelled (List.suffix_refl _)).trans hend).of_mem h (List.nil_suffix)

/-! ## How pieces are spelled -/

/-- What is not spelled as its kind prescribes was a token of the text, and is all of it. -/
theorem IsCut.spells_or_eq {t p : Token} {us vs : List Token} (h : IsCut t (us ++ p :: vs)) :
    p.kind.Spells p.text ∨ (p = t ∧ us = [] ∧ vs = []) := by
  -- only a whole token can be misspelled: the parts of an operator are operators
  generalize hps : us ++ p :: vs = ps at h
  induction h generalizing us with
  | @whole t k hk =>
    cases us with
    | nil =>
      obtain ⟨rfl, rfl⟩ := List.cons.inj hps
      exact hk.spells_or_eq.imp_right fun hkind => ⟨by rw [hkind], rfl, rfl⟩
    | cons u us =>
      have hlen := congrArg List.length hps
      simp at hlen
  | @cut t k a b ps hop _ _ _ hk _ ih =>
    cases us with
    | nil =>
      obtain ⟨rfl, rfl⟩ := List.cons.inj hps
      refine .inl (hk.spells_or_eq.elim id fun hkind => ?_)
      exact Kind.spells_of_isOperator (hkind ▸ hop) a
    | cons u us =>
      obtain ⟨rfl, hrest⟩ := List.cons.inj hps
      refine .inl ((ih hrest).elim id fun heq => ?_)
      exact Kind.spells_of_isOperator (heq.1 ▸ hop) _

/-- What is not spelled as its kind prescribes is the backslash of an interpolation in a raw
literal. -/
theorem Pieces.spells_or_escapes {text : Text} {us vs : List Token} {p : Token}
    (h : Pieces (stream text) (us ++ p :: vs)) : p.kind.Spells p.text ∨
      ∃ d before behind, 0 < d.pounds ∧ stream text = before ++ p :: behind ∧
        Pieces before us ∧ Pieces behind vs ∧ Escapes d (stream text) p behind := by
  obtain ⟨ts₁, t, ts₂, us₁, ps, qs, vs₂, hstream, rfl, rfl, h₁, hcut, h₂⟩ := h.exists_isCut
  rcases hcut.spells_or_eq with hspells | ⟨rfl, rfl, rfl⟩
  · exact .inl hspells
  · rcases spelled_stream text hstream with hspells | ⟨d, hescapes⟩
    · exact .inl hspells
    · rcases Nat.eq_zero_or_pos d.pounds with hzero | hpos
      · left
        rw [hescapes.2.1.kind, hescapes.2.1.text, Delimiter.escape, Delimiter.poundsText, hzero]
        exact .of_some rfl
      · rw [List.append_nil]
        exact .inr ⟨d, ts₁, ts₂, hpos, hstream, h₁, h₂, hescapes⟩

end Token

/-! ## The tokens of a tree -/

/-- Whether a leaf is a token, with its trivia, where the token stands. -/
structure Leaf.Carries (l : Leaf) (p : Token.Placed) : Prop where
  kind : l.kind = p.token.kind
  spelling : l.green.textTrimmed = p.token.text
  leading : l.green.leading = p.token.leading.outline
  trailing : l.green.trailing = p.token.trailing.outline
  range : l.range = p.full
  trimmedRange : l.trimmedRange = p.spelling

namespace Node

/-- A token in a tree is the one that it was made from, at the place where it stands. -/
theorem carries_token (n : Node) (index offset : Nat) (t : Token) :
    Leaf.Carries ⟨n, index, offset, .present t.outline⟩ ⟨t, offset⟩ := by
  refine ⟨rfl, t.text_outline, rfl, rfl, ?_, ?_⟩
  · rw [Leaf.range, Token.Placed.full, ← t.byteLen_outline]
    rfl
  · have hstop : t.byteLen - t.trailing.byteLen = t.leading.byteLen + Text.byteLen t.text := by
      rw [Token.byteLen, Nat.add_sub_cancel]
    show (⟨offset + t.outline.leading.byteLen,
      offset + (t.outline.byteLen - t.outline.trailing.byteLen)⟩ : Span) = Span.ofLen _ _
    rw [t.byteLen_leading_outline, t.byteLen_trailing_outline, t.byteLen_outline, hstop,
      ← Nat.add_assoc]
    rfl

mutual

/-- The tokens of a tree stand behind each other. -/
theorem carries_leavesIn (n : Node) (index offset : Nat) : {g : Green} → {ts : List Token} →
    Green.tokensOf [g] = ts.map Token.outline →
    List.Forall₂ Leaf.Carries ((n.leavesIn index offset g).filter Leaf.isPresent)
      (Token.place offset ts) ∧ g.byteLen = Text.byteLen (Token.fullText ts)
  | .node kind cs, ts, h => by
    rw [Green.tokensOf_node] at h
    exact carries_leavesFrom _ 0 offset h
  | .leaf (.present o), ts, h => by
    obtain ⟨t, rest, rfl, rfl, hrest⟩ := List.map_eq_cons_iff.mp h.symm
    obtain rfl := List.map_eq_nil_iff.mp hrest
    refine ⟨.cons (carries_token n index offset t) .nil, ?_⟩
    rw [Token.fullText_cons, Token.fullText_nil, List.append_nil, Token.byteLen_full]
    exact t.byteLen_outline
  | .leaf (.missing _ _), ts, h => by
    obtain rfl := List.map_eq_nil_iff.mp h.symm
    exact ⟨.nil, rfl⟩

/-- The leaves of several trees that were read carry the tokens that the trees were made from, one
by one and at their places. -/
theorem carries_leavesFrom (n : Node) (index offset : Nat) : {gs : List Green} →
    {ts : List Token} → Green.tokensOf gs = ts.map Token.outline →
    List.Forall₂ Leaf.Carries ((n.leavesFrom index offset gs).filter Leaf.isPresent)
      (Token.place offset ts) ∧ Green.byteLenOf gs = Text.byteLen (Token.fullText ts)
  | [], ts, h => by
    obtain rfl := List.map_eq_nil_iff.mp h.symm
    exact ⟨.nil, rfl⟩
  | g :: gs, ts, h => by
    obtain ⟨ts, us, rfl, hts, hus⟩ := Green.exists_of_tokensOf_cons h
    obtain ⟨hg, hlen⟩ := carries_leavesIn n index offset hts
    obtain ⟨hgs, hlens⟩ := carries_leavesFrom n (index + 1) (offset + g.byteLen) hus
    rw [leavesFrom, List.filter_append, Token.place_append, Green.byteLenOf, Token.fullText_append,
      Text.byteLen_append, ← hlen, ← hlens]
    exact ⟨List.rel_append hg hgs, rfl⟩

end

end Node

/-- **Trees carry the tokens of their texts.** The tokens of the tree are those of the text, in
order, each once and where it stands, with its trivia. But operators may be cut into pieces, with
the trivia on the outer sides; a name may be taken as the contextual keyword that it spells, and an
operator or a piece of one as an angle bracket that it spells, or as a postfix operator. Every token
is spelled as its kind prescribes, with one exception: the backslash of an interpolation has the
`#`s of the raw literal that it stands in. -/
theorem Entry.carries_tokens (e : Entry) (text : Text) :
    ∃ pieces, Token.Pieces (Token.stream text) pieces ∧
      List.Forall₂ Leaf.Carries (Node.ofGreen (e.tree text)).presentLeaves (Token.place 0 pieces) ∧
      ∀ us p vs, pieces = us ++ p :: vs → p.kind.Spells p.text ∨
        ∃ d before behind, 0 < d.pounds ∧ Token.stream text = before ++ p :: behind ∧
          Token.Pieces before us ∧ Token.Pieces behind vs ∧
          Token.Escapes d (Token.stream text) p behind := by
  obtain ⟨pieces, hpieces, htokens⟩ := e.exists_pieces text
  refine ⟨pieces, hpieces, ?_, fun us p vs h => Token.Pieces.spells_or_escapes (h ▸ hpieces)⟩
  rw [e.tree_eq, Green.tokensOf_node] at htokens
  rw [e.tree_eq]
  exact (Node.carries_leavesFrom _ 0 0 htokens).1

end SwiftTree
