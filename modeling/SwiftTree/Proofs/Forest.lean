import SwiftTree.Green
import SwiftTree.Proofs.Simulation

/-!
# Trees straight from rules

Instead of writing events, rules can put trees together as they go (`Forest`). This is what the
trees of a text are reasoned about with; that the events describe the same trees is shown elsewhere.

Two things hold of all rules at once. Nothing is lost: the source of the trees so far and the source
that is still to be read make up the source there was. And the trees are sound (`Green.Sound`):
inner nodes have kinds of nodes and leaves kinds of tokens other than the end of the file, a
placeholder is empty, and unexpected text consists of tokens that were read.
-/

namespace SwiftTree

namespace Green

@[simp] theorem textOf_append (gs hs : List Green) :
    textOf (gs ++ hs) = textOf gs ++ textOf hs := by
  induction gs with
  | nil => rfl
  | cons g gs ih => rw [List.cons_append, textOf, textOf, ih, List.append_assoc]

@[simp] theorem text_token (t : Token) : (token t).text = t.full := rfl

@[simp] theorem text_node (kind : Kind) (cs : List Green) : (node kind cs).text = textOf cs := rfl

/-- Whether a tree is a token of the source. -/
def IsPresent (g : Green) : Prop := ∃ t, g = .leaf (.present t)

mutual

/-- Whether every kind fits its place, tokens have room for their trivia, placeholders are empty,
and unexpected text was read and is not empty. -/
def Sound : Green → Prop
  | .node kind cs =>
    kind.isNode ∧ (kind.isMissingNode → cs = []) ∧
      (kind = .unexpected → cs ≠ [] ∧ ∀ g ∈ cs, g.IsPresent) ∧ SoundAll cs
  | .leaf l => l.kind.isSolid ∧ ∀ t, l = .present t → t.hasRoom

/-- Whether several trees are sound. -/
def SoundAll : List Green → Prop
  | [] => True
  | g :: gs => g.Sound ∧ SoundAll gs

end

/-- Several trees are sound if each of them is. -/
theorem soundAll_iff {gs : List Green} : SoundAll gs ↔ ∀ g ∈ gs, g.Sound := by
  induction gs with
  | nil => simp [SoundAll]
  | cons g gs ih => rw [SoundAll, ih, List.forall_mem_cons]

theorem soundAll_append {gs hs : List Green} :
    SoundAll (gs ++ hs) ↔ SoundAll gs ∧ SoundAll hs := by
  simp only [soundAll_iff, List.forall_mem_append]

theorem soundAll_reverse {gs : List Green} : SoundAll gs.reverse ↔ SoundAll gs := by
  simp only [soundAll_iff, List.mem_reverse]

/-- A token of the source has a kind of tokens and the trivia that it has room for. -/
theorem sound_token {t : Token} (h : t.kind.isSolid) : (token t).Sound := by
  refine ⟨h, ?_⟩
  rintro _ ⟨⟩
  exact t.hasRoom_outline

/-- A construct of sound parts is sound. -/
theorem sound_of_isConstruct {kind : Kind} {cs : List Green} (hk : kind.isConstruct)
    (hcs : SoundAll cs) : (node kind cs).Sound := by
  simp only [Kind.isConstruct, Bool.and_eq_true, Bool.not_eq_true', bne_iff_ne] at hk
  obtain ⟨⟨hnode, hmissing⟩, hunexpected⟩ := hk
  refine ⟨hnode, ?_, fun h => absurd h hunexpected, hcs⟩
  intro h
  rw [hmissing] at h
  cases h

/-- A placeholder is a node without parts. -/
theorem sound_placeholder {kind : Kind} (hk : kind.isMissingNode) : (node kind []).Sound := by
  refine ⟨Kind.isNode_of_isMissingNode hk, fun _ => rfl, ?_, trivial⟩
  rintro rfl
  cases hk

end Green

namespace Grammar

/-! ## What is still to be read -/

namespace Ahead

/-- The source that is still to be read. -/
def source (ts : Ahead) : Text := Token.fullText (ts.map Lexeme.token)

@[simp] theorem source_nil : source [] = [] := rfl

@[simp] theorem source_cons (x : Lexeme) (ts : Ahead) :
    source (x :: ts) = x.token.full ++ source ts := rfl

@[simp] theorem source_append (ts us : Ahead) : source (ts ++ us) = source ts ++ source us := by
  simp [source]

/-- Cutting a token in two loses nothing. -/
@[simp] theorem source_splitHead (head : SolidKind) (rest : Option SolidKind) (ts : Ahead) :
    (ts.splitHead head rest).source = ts.source := by
  rcases splitHead_eq head rest ts with h | ⟨x, us, y, z, c, d, cs, rfl, h, ht, hy, -, hz, -⟩
  · rw [h]
  · rw [h, source_cons, source_cons, source_cons, hy, hz]
    simp [Token.full, ht]

end Ahead

/-- What the grammar sees of tokens are these tokens. -/
theorem Lexeme.tokens_ofTokens (endOpensLine : Bool) (pos : Nat) (prev : Option Token)
    (ts : List Token) (h : ∀ t ∈ ts, t.IsSolid) :
    (Lexeme.ofTokens endOpensLine pos prev ts h).map Lexeme.token = ts := by
  induction ts generalizing pos prev with
  | nil => rfl
  | cons t ts ih =>
    rw [Lexeme.ofTokens, List.map_cons]
    exact congrArg _ (ih _ _ _)

/-! ## Forests -/

/-- The trees that a node will be made of, newest first. -/
abbrev Forest := List Green

namespace Forest

/-- Opens a node around the newest tree, if that is a node. -/
def precede : Forest → (List Green × Forest) × Forest
  | .node kind cs :: before => (([.node kind cs], before), [])
  | built => (([], built), [])

/-- Closes a node. The mark says what the node is put around and what stands before it. -/
def leave (mark : List Green × Forest) (kind : Option Kind) (built : Forest) : Forest :=
  match kind with
  | some kind => .node kind (mark.1 ++ built.reverse) :: mark.2
  | none => built ++ mark.1 ++ mark.2

/-- Rules put trees together. -/
instance : Assembly Forest where
  Mark := List Green × Forest
  token t _ built := .token t :: built
  missing kind spelling built := .missing kind spelling :: built
  enter built := (([], built), [])
  precede := precede
  leave := leave

/-- Tokens that are added as they are. -/
theorem addAll_eq (xs : Ahead) (built : Forest) :
    addAll xs built = (xs.map fun x => .token x.token).reverse ++ built := by
  induction xs generalizing built with
  | nil => rfl
  | cons x xs ih =>
    show addAll xs (.token x.token :: built) = _
    rw [ih, List.map_cons, List.reverse_cons, List.append_assoc]
    rfl

/-- Tokens that are added as they are have the text that was still to be read. -/
theorem textOf_tokens (xs : Ahead) :
    Green.textOf (xs.map fun x => .token x.token) = xs.source := by
  induction xs with
  | nil => rfl
  | cons x xs ih => rw [List.map_cons, Green.textOf, ih, Green.text_token, Ahead.source_cons]

/-- Tokens that are added as they are are sound. -/
theorem soundAll_tokens (xs : Ahead) :
    Green.SoundAll (xs.map fun x => Green.token x.token) := by
  rw [Green.soundAll_iff]
  intro g hg
  obtain ⟨x, -, rfl⟩ := List.mem_map.mp hg
  exact Green.sound_token x.solid.2

/-- Unexpected text consists of tokens that were read, of which there is at least one. -/
theorem sound_unexpected {xs : Ahead} (h : xs ≠ []) :
    (Green.node .unexpected (xs.map fun x => Green.token x.token)).Sound := by
  refine ⟨rfl, nofun, fun _ => ⟨?_, ?_⟩, soundAll_tokens xs⟩
  · rwa [ne_eq, List.map_eq_nil_iff]
  · intro g hg
    obtain ⟨x, -, rfl⟩ := List.mem_map.mp hg
    exact ⟨x.token.outline, rfl⟩

/-- How a node is opened around the newest tree: either there is one, or nothing is put into the
node. -/
theorem precede_eq (built : Forest) :
    (∃ kind cs before, built = .node kind cs :: before ∧
      precede built = (([.node kind cs], before), [])) ∨
    precede built = (([], built), []) := by
  unfold precede
  split
  · exact .inl ⟨_, _, _, rfl, rfl⟩
  · exact .inr rfl

/-! ## Nothing is lost, and trees are sound -/

/-- The trees so far are sound, and their source and what is still to be read make up a text. -/
def Covers (text : Text) (ts : Ahead) (built : Forest) : Prop :=
  Green.textOf built.reverse ++ ts.source = text ∧ Green.SoundAll built

/-- A node that is opened starts with what is still to be read. -/
theorem covers_nil (ts : Ahead) : Covers ts.source ts [] := ⟨rfl, trivial⟩

/-- A node that is closed adds what it covers. -/
theorem covers_leave {text : Text} {ts us : Ahead} (wrapped : Forest) {before built : Forest}
    (houter : Green.textOf before.reverse ++ Green.textOf wrapped ++ ts.source = text)
    (hbefore : Green.SoundAll before) (hinner : Covers ts.source us built) {kind : Kind}
    (hnode : (Green.node kind (wrapped ++ built.reverse)).Sound) :
    Covers text us (leave (wrapped, before) (some kind) built) := by
  refine ⟨?_, hnode, hbefore⟩
  rw [← houter, ← hinner.1]
  simp [leave, Green.textOf]

/-- What holds of a forest at every step of every rule. -/
def covering : Simulation Forest Unit where
  Context := Text
  rel text ts built _ := Covers text ts built
  token {text x ts built _} kind h := by
    refine ⟨?_, Green.sound_token kind.2, h.2⟩
    rw [← h.1]
    simp [Assembly.token, Green.textOf, Token.full]
  split head rest h := ⟨by rw [Ahead.source_splitHead]; exact h.1, h.2⟩
  missing kind spelling h := by
    refine ⟨?_, ⟨kind.2, nofun⟩, h.2⟩
    have hmissing : (Green.missing kind.1 spelling).text = [] := rfl
    rw [← h.1]
    simp [Assembly.missing, Green.textOf, hmissing]
  placeholder {text ts built _} kind h := by
    refine covers_leave [] ?_ h.2 (covers_nil ts) (Green.sound_placeholder kind.2)
    simpa [Green.textOf] using h.1
  unexpected {text ts built _} xs hne h := by
    have hxs : addAll xs (Assembly.enter built).2
        = (xs.map fun x => Green.token x.token).reverse := by
      rw [addAll_eq]
      exact List.append_nil _
    rw [hxs]
    have hinner : Covers (Ahead.source (xs ++ ts)) ts
        (xs.map fun x => Green.token x.token).reverse := by
      refine ⟨?_, Green.soundAll_reverse.mpr (soundAll_tokens xs)⟩
      rw [List.reverse_reverse, textOf_tokens, Ahead.source_append]
    refine covers_leave [] ?_ h.2 hinner ?_
    · simpa [Green.textOf] using h.1
    · rw [List.nil_append, List.reverse_reverse]
      exact sound_unexpected hne
  override _ _ h := h
  enter {text ts built _} h := by
    refine ⟨ts.source, covers_nil ts, ?_⟩
    intro us inner _ kind hinner
    cases kind with
    | some kind =>
      refine covers_leave [] ?_ h.2 hinner
        (Green.sound_of_isConstruct kind.2 (Green.soundAll_reverse.mpr hinner.2))
      simpa [Green.textOf] using h.1
    | none =>
      refine ⟨?_, Green.soundAll_append.mpr
        ⟨Green.soundAll_append.mpr ⟨hinner.2, trivial⟩, h.2⟩⟩
      rw [← h.1, ← hinner.1]
      simp [Assembly.leave, leave, Assembly.enter]
  precede {text ts built _} h := by
    refine ⟨ts.source, ?_, ?_⟩
    · rcases precede_eq built with ⟨kind, cs, before, rfl, -⟩ | hp
      · exact covers_nil ts
      · show Covers _ _ (precede built).2
        rw [hp]
        exact covers_nil ts
    · intro us inner _ kind hinner
      have sound := Green.soundAll_reverse.mpr hinner.2
      rcases precede_eq built with ⟨wrapped, cs, before, rfl, -⟩ | hp
      · refine covers_leave [.node wrapped cs] ?_ h.2.2 hinner
          (Green.sound_of_isConstruct kind.2 ⟨h.2.1, sound⟩)
        rw [← h.1]
        simp [Green.textOf]
      · show Covers _ _ (leave (precede built).1 _ _)
        rw [hp]
        refine covers_leave [] ?_ h.2 hinner
          (Green.sound_of_isConstruct kind.2 sound)
        simpa [Green.textOf] using h.1

end Forest

end Grammar

end SwiftTree
