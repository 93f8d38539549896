import SwiftTree.Proofs.Standing

/-!
# Nodes and all that comes behind them

Some rules look ahead without a limit. Whether a finished tree can tell what such a look has seen
depends on all the tokens behind a node, not only on the next one. What can be told of them are
their kinds, but for tokens that rules may take as others or cut; so the prospect is the same before
some tokens and before their pieces (`Token.Pieces.steadyKinds_eq`).

`Green.Fronts` says something of every node of a tree, given its prospect. It is kept by whatever
rules do with trees (`State.Fronts`), and it carries over to the nodes of a tree as places.
-/

namespace SwiftTree

/-! ## The kinds of tokens -/

/-- The kind of an operator is not steady, since operators may be cut. -/
theorem Kind.not_isSteady_of_isOperator {k : Kind} (h : k.isOperator) : k.isSteady = false := by
  rw [isSteady, h]
  simp

namespace Token

/-- The kinds of tokens, but for those that rules may take as others or cut. -/
def steadyKinds (ts : List Token.Outline) : List Kind := (ts.map Outline.kind).filter Kind.isSteady

/-- The steady kinds of some tokens and others behind them come one after the other. -/
theorem steadyKinds_append (ts us : List Token.Outline) :
    steadyKinds (ts ++ us) = steadyKinds ts ++ steadyKinds us := by
  rw [steadyKinds, List.map_append, List.filter_append]
  rfl

theorem steadyKinds_singleton (t : Token.Outline) :
    steadyKinds [t] = if t.kind.isSteady then [t.kind] else [] := by
  rw [steadyKinds, List.map_singleton, List.filter_cons, List.filter_nil]

/-- The pieces of a token have its kind, unless they may have any. A token of a steady kind is its
own and only piece. -/
theorem IsCut.steadyKinds_eq {t : Token} {ps : List Token} (h : IsCut t ps) :
    steadyKinds (ps.map outline) = steadyKinds [t.outline] := by
  have hpiece {t : Token} {k : Kind} {text a : Text} {leading trailing : Trivia}
      (hk : t.kind.Becomes text k) :
      steadyKinds [outline ⟨leading, k, a, trailing⟩] = steadyKinds [t.outline] := by
    rw [steadyKinds_singleton, steadyKinds_singleton]
    show (if k.isSteady then [k] else []) = if t.kind.isSteady then [t.kind] else []
    rcases hk.eq_or_not_isSteady with rfl | ⟨ht, hk⟩
    · rfl
    · rw [ht, hk]
      rfl
  induction h with
  | whole hk => exact hpiece hk
  | @cut t k a b ps hop _ _ _ hk _ ih =>
    have hrest : steadyKinds (ps.map outline) = [] := by
      rw [ih, steadyKinds_singleton]
      exact if_neg (Bool.eq_false_iff.mp (Kind.not_isSteady_of_isOperator hop))
    rw [List.map_cons, ← List.singleton_append, steadyKinds_append, hrest, List.append_nil,
      hpiece hk]

/-- The kinds of tokens are those of their pieces, as far as they are steady. So it does not matter
to a prospect whether tokens were cut. -/
theorem Pieces.steadyKinds_eq {ts us : List Token} (h : Pieces ts us) :
    steadyKinds (us.map outline) = steadyKinds (ts.map outline) := by
  induction h with
  | nil => rfl
  | @cons t ts ps us ht _ ih =>
    rw [List.map_append, steadyKinds_append, ht.steadyKinds_eq, ih, ← steadyKinds_append]
    rfl

end Token

namespace Green

/-- The kinds of the tokens of several trees. -/
def steadyKinds (gs : List Green) : List Kind := Token.steadyKinds (tokensOf gs)

/-- The steady kinds of some trees and others behind them come one after the other. -/
theorem steadyKinds_append (gs hs : List Green) :
    steadyKinds (gs ++ hs) = steadyKinds gs ++ steadyKinds hs := by
  rw [steadyKinds, tokensOf_append, Token.steadyKinds_append]
  rfl

theorem steadyKinds_cons (g : Green) (gs : List Green) :
    steadyKinds (g :: gs) = steadyKinds [g] ++ steadyKinds gs := steadyKinds_append [g] gs

@[simp] theorem steadyKinds_node (kind : Kind) (cs : List Green) :
    steadyKinds [.node kind cs] = steadyKinds cs := by
  rw [steadyKinds, tokensOf_node]
  rfl

/-! ## Every node, and all that comes behind it -/

mutual

/-- Whether something holds of every node of a tree: of its kind, its parts, and its prospect. -/
def Fronts (p : Kind → List Green → List Kind → Prop) (next : List Kind) : Green → Prop
  | .node kind cs => p kind cs next ∧ FrontAll p next cs
  | .leaf _ => True

/-- Whether something holds of every node of several trees. -/
def FrontAll (p : Kind → List Green → List Kind → Prop) (next : List Kind) : List Green → Prop
  | [] => True
  | g :: gs => g.Fronts p (steadyKinds gs ++ next) ∧ FrontAll p next gs

end

variable {p : Kind → List Green → List Kind → Prop} {next : List Kind}

/-- What is said of every node in front of other trees is said with the kinds of these trees in the
prospect. -/
theorem frontAll_append {gs hs : List Green} :
    FrontAll p next (gs ++ hs) ↔ FrontAll p (steadyKinds hs ++ next) gs ∧ FrontAll p next hs := by
  induction gs with
  | nil => simp [FrontAll]
  | cons g gs ih =>
    rw [List.cons_append, FrontAll, FrontAll, ih, steadyKinds_append, List.append_assoc, and_assoc]

/-- One tree alone has the prospect that comes next. -/
theorem frontAll_singleton {g : Green} : FrontAll p next [g] ↔ g.Fronts p next := by
  rw [FrontAll, FrontAll, and_true]
  rfl

/-- Tokens are no nodes, so there is nothing to say of them. -/
theorem frontAll_tokens (xs : List Token) : FrontAll p next (xs.map token) := by
  induction xs with
  | nil => trivial
  | cons x xs ih => exact ⟨trivial, ih⟩

end Green

namespace Node

variable {p : Kind → List Green → List Kind → Prop} {next : List Kind}

mutual

/-- What holds of every node of a part holds of the nodes below it, where they stand. -/
theorem fronts_of_mem_nodesIn {n d : Node} {before after : List Green} {offset : Nat} :
    {g : Green} → n.children = before ++ g :: after →
    g.Fronts p (Green.steadyKinds (after ++ n.behind) ++ next) →
    d ∈ n.nodesIn before.length offset g → d.green.Fronts p (Green.steadyKinds d.behind ++ next)
  | .node kind cs, hsplit, hg, hd => by
    have hbehind : (Node.mk kind cs offset (n.step before.length)).behind = after ++ n.behind :=
      behind_of_step hsplit
    rw [nodesIn, List.mem_cons] at hd
    rw [← hbehind] at hg
    rcases hd with rfl | hd
    · exact hg
    · exact fronts_of_mem_nodesFrom (List.nil_append _).symm hg.2 hd
  | .leaf _, _, _, hd => absurd hd List.not_mem_nil

/-- What is said of every node of some parts is said of each node below them, with its own
prospect. -/
theorem fronts_of_mem_nodesFrom {n d : Node} {before : List Green} {offset : Nat} :
    {gs : List Green} → n.children = before ++ gs →
    Green.FrontAll p (Green.steadyKinds n.behind ++ next) gs →
    d ∈ n.nodesFrom before.length offset gs → d.green.Fronts p (Green.steadyKinds d.behind ++ next)
  | [], _, _, hd => absurd hd List.not_mem_nil
  | g :: gs, hsplit, hgs, hd => by
    have hsplit' : n.children = (before ++ [g]) ++ gs := by rw [hsplit]; simp
    rcases List.mem_append.mp hd with hd | hd
    · refine fronts_of_mem_nodesIn hsplit ?_ hd
      rw [Green.steadyKinds_append, List.append_assoc]
      exact hgs.1
    · have hlength : (before ++ [g]).length = before.length + 1 := by
        rw [List.length_append, List.length_singleton]
      rw [← hlength] at hd
      exact fronts_of_mem_nodesFrom hsplit' hgs.2 hd

end

/-- What holds of every node of a tree holds of every node below one of its places. -/
theorem fronts_of_mem_descendants {n d : Node} (hway : n.way = []) (hn : n.green.Fronts p next)
    (hd : d ∈ n.descendants) : d.green.Fronts p (Green.steadyKinds d.behind ++ next) := by
  have hbehind : n.behind = [] := by rw [behind, hway]; rfl
  rcases List.mem_cons.mp hd with rfl | hd
  · rw [hbehind]
    exact hn
  · refine fronts_of_mem_nodesFrom (List.nil_append _).symm ?_ hd
    rw [hbehind]
    exact hn.2

end Node

/-- The end of the file is seen as what it is. -/
theorem Entry.steadyKinds_endOfFile (text : Text) :
    Green.steadyKinds [.token (endOfFile text)] = [.endOfFile] := by
  refine (Token.steadyKinds_singleton (endOfFile text).outline).trans ?_
  show (if (endOfFile text).kind.isSteady then [(endOfFile text).kind] else []) = _
  rw [kind_endOfFile]
  rfl

open Green (FrontAll)

namespace Grammar

/-! ## The prospect of a rule -/

/-- The kinds of the tokens ahead, with the end of the file. -/
def Ahead.prospect (ts : Ahead) : List Kind :=
  Token.steadyKinds ((ts.map Lexeme.token).map Token.outline) ++ [.endOfFile]

namespace State

variable {p : Kind → List Green → List Kind → Prop} {s t : State Forest}

/-- What was seen before a state, and what is seen behind the tokens that were added since. -/
theorem Carries.prospect_eq (h : s.Carries t) {gs : List Green}
    (hbuilt : Green.tokensOf t.built.reverse
      = Green.tokensOf s.built.reverse ++ Green.tokensOf gs) :
    Green.steadyKinds gs ++ t.ahead.prospect = s.ahead.prospect := by
  obtain ⟨taken, htokens, hpieces⟩ := h
  have hgs : Green.tokensOf gs = taken.map Token.outline :=
    List.append_cancel_left (hbuilt.symm.trans htokens)
  have hkinds := (hpieces _ [] (.refl _)).steadyKinds_eq
  rw [List.nil_append, List.nil_append, List.map_append, Token.steadyKinds_append, ← hgs] at hkinds
  rw [Ahead.prospect, ← List.append_assoc, Green.steadyKinds, hkinds]
  rfl

/-- Whether something holds of the nodes so far. -/
def Fronts (p : Kind → List Green → List Kind → Prop) (s : State Forest) : Prop :=
  FrontAll p s.ahead.prospect s.built.reverse

namespace Fronts

/-- Inside a node that opens, nothing is there yet. -/
theorem enter (s : State Forest) : s.enter.2.Fronts p := trivial

/-- A node that closes around the newest trees and what was added since. -/
theorem close {wrapped before : Forest} {kind : Kind} (h : s.Fronts p)
    (hbuilt : s.built = wrapped.reverse ++ before) (ht : t.Fronts p)
    (hcarries : State.Carries s.enter.2 t)
    (hnode : p kind (wrapped ++ t.built.reverse) t.ahead.prospect) :
    (⟨t.ahead, .node kind (wrapped ++ t.built.reverse) :: before⟩ : State Forest).Fronts p := by
  have hprospect : Green.steadyKinds t.built.reverse ++ t.ahead.prospect = s.ahead.prospect :=
    hcarries.prospect_eq rfl
  have hsplit : s.built.reverse = before.reverse ++ wrapped := by
    rw [hbuilt, List.reverse_append, List.reverse_reverse]
  rw [Fronts, hsplit, Green.frontAll_append, ← hprospect] at h
  rw [Fronts, List.reverse_cons, Green.frontAll_append, Green.frontAll_singleton,
    Green.steadyKinds_node, Green.steadyKinds_append, List.append_assoc]
  exact ⟨h.1, hnode, Green.frontAll_append.mpr ⟨h.2, ht⟩⟩

/-- A node that closes around what was added since it opened. -/
theorem closeNew (kind : Kind) (h : s.Fronts p) (ht : t.Fronts p)
    (hcarries : State.Carries s.enter.2 t) (hnode : p kind t.built.reverse t.ahead.prospect) :
    (⟨t.ahead, .node kind t.built.reverse :: s.built⟩ : State Forest).Fronts p := by
  have hbuilt : s.built = List.reverse [] ++ s.built := rfl
  exact h.close hbuilt ht hcarries hnode

/-- What was added since a node opened stays where it is. -/
theorem release (h : s.Fronts p) (ht : t.Fronts p) (hcarries : State.Carries s.enter.2 t) :
    (⟨t.ahead, t.built ++ s.built⟩ : State Forest).Fronts p := by
  have hprospect : Green.steadyKinds t.built.reverse ++ t.ahead.prospect = s.ahead.prospect :=
    hcarries.prospect_eq rfl
  rw [Fronts, List.reverse_append, Green.frontAll_append, hprospect]
  exact ⟨h, ht⟩

/-- Taking a token keeps this: its kind, if it is steady, moves from the tokens ahead to the
trees. -/
theorem take {kind : Option SolidKind} (h : s.Fronts p) (hmay : s.ahead.MayTake kind) :
    (s.take kind).Fronts p := by
  have hcarries := State.Carries.take hmay
  obtain ⟨_ | ⟨x, ts⟩, built⟩ := s
  · exact h
  · obtain ⟨token, htake⟩ : ∃ token, State.take kind ⟨x :: ts, built⟩
        = (⟨ts, .token token :: built⟩ : State Forest) := ⟨_, rfl⟩
    rw [htake] at hcarries ⊢
    have hprospect : Green.steadyKinds [.token token] ++ Ahead.prospect ts
        = Ahead.prospect (x :: ts) := by
      refine hcarries.prospect_eq ?_
      rw [List.reverse_cons, Green.tokensOf_append]
    rw [Fronts, List.reverse_cons, Green.frontAll_append, hprospect]
    exact ⟨h, trivial, trivial⟩

/-- Cutting a token keeps this, since neither it nor its parts are of a steady kind. -/
theorem splitHead {head : SolidKind} {rest : Option SolidKind} (h : s.Fronts p)
    (hmay : s.ahead.MayCut head rest) :
    ({ s with ahead := s.ahead.splitHead head rest } : State Forest).Fronts p := by
  have hprospect : Green.steadyKinds [] ++ Ahead.prospect (s.ahead.splitHead head rest)
      = s.ahead.prospect :=
    (State.Carries.splitHead hmay).prospect_eq (List.append_nil _).symm
  show FrontAll p (Ahead.prospect (s.ahead.splitHead head rest)) _
  rw [show Ahead.prospect (s.ahead.splitHead head rest) = s.ahead.prospect from hprospect]
  exact h

/-- A missing token is not in the prospect. -/
theorem missing {kind : Kind} {spelling : Text} (h : s.Fronts p) :
    ({ s with built := Assembly.missing kind spelling s.built } : State Forest).Fronts p := by
  show FrontAll p s.ahead.prospect (Green.missing kind spelling :: s.built).reverse
  rw [List.reverse_cons, Green.frontAll_append]
  exact ⟨h, trivial, trivial⟩

/-- Tokens that are kept as unexpected text. -/
theorem unexpected {more : Nat} (h : s.Fronts p)
    (hp : ∀ cs next, p .unexpected cs next) : (s.unexpected more).Fronts p := by
  obtain ⟨_ | ⟨x, ts⟩, built⟩ := s
  · exact h
  · have hcarries := State.Carries.addAll (more + 1) (x :: ts) []
    have hclose := h.closeNew .unexpected (t := ⟨ts.drop more, ((x :: ts.take more).map fun x =>
      Green.token x.token).reverse⟩)
    rw [List.reverse_reverse] at hclose
    rw [State.unexpected_eq]
    refine hclose ?_ ?_ (hp _ _)
    · show FrontAll p _ (List.reverse (List.reverse _))
      rw [List.reverse_reverse, ← Function.comp_def, ← List.map_map]
      exact Green.frontAll_tokens _
    · rw [Forest.addAll_eq, List.append_nil] at hcarries
      exact hcarries

end Fronts

end State

end Grammar

end SwiftTree
