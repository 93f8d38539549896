import SwiftTree.Proofs.Conformance.Trees

/-!
# What comes next

Rules decide by the token that comes next: by its kind, and by whether a line break leads it. What a
rule sees of it (`Outlook`) is also what stands behind a node in the finished tree. Only where a
rule may still take the token as one of another kind, or cut it, nothing is known of the kind. So a
sight is the same before some tokens and before their pieces (`Token.Pieces.sight_eq`).

`Green.Stands` says something of every node of a tree, given what comes behind the node. It carries
over to the nodes of a tree as places, with what stands behind them (`Node.behind`).
-/

namespace SwiftTree

namespace Kind

/-- Whether rules take a token of the kind as what it is, and no other token as one of the kind. -/
def isSteady (k : Kind) : Bool :=
  !(k == .identifier || k.isOperator || k.isContextual || k == .leftAngle || k == .rightAngle)

/-- A token of a steady kind is only taken as what it is; what is taken as another kind has a kind
that is not steady, before and after. -/
theorem Becomes.eq_or_not_isSteady {k j : Kind} {text : Text} (h : k.Becomes text j) :
    j = k ∨ (k.isSteady = false ∧ j.isSteady = false) := by
  rcases h with rfl | ⟨rfl, hj, -⟩ | ⟨hk, hj⟩
  · exact .inl rfl
  · refine .inr ⟨rfl, ?_⟩
    rw [isSteady, hj]
    simp
  · refine .inr ⟨?_, ?_⟩
    · rw [isSteady, hk]
      simp
    · rcases hj with rfl | ⟨rfl | rfl, -⟩ <;> rfl

end Kind

/-- What a rule sees of a token. -/
structure Glimpse where
  /-- the kind, unless a rule may make it another one -/
  kind? : Option Kind
  /-- whether a line break leads the token -/
  opensLine : Bool
deriving DecidableEq, Repr

/-- What a rule sees of the next token, if the text goes on. -/
abbrev Outlook := Option Glimpse

namespace Outlook

/-- Whether a token of a kind is seen. -/
def isAt (k : Kind) (s : Outlook) : Bool := s.any fun g => g.kind? == some k

/-- Whether a token is seen that goes on with the line. -/
def isOnLine (s : Outlook) : Bool := s.any fun g => !g.opensLine

end Outlook

/-- What is seen of a token. The end of the file is none. -/
def Token.Outline.sight (t : Token.Outline) : Outlook :=
  if t.kind = .endOfFile then none
  else some ⟨if t.kind.isSteady then some t.kind else none, t.leading.containsNewline⟩

namespace Token.Outline

variable {t : Token.Outline} {k : Kind}

theorem sight_of_ne (h : t.kind ≠ .endOfFile) :
    t.sight = some ⟨if t.kind.isSteady then some t.kind else none, t.leading.containsNewline⟩ :=
  if_neg h

/-- Of a token with a steady kind, the kind is seen. -/
theorem isAt_sight (hsteady : k.isSteady) (hend : k ≠ .endOfFile) :
    t.sight.isAt k = (t.kind == k) := by
  rw [sight]
  split
  · rename_i hkind
    rw [hkind]
    exact (beq_false_of_ne hend.symm).symm
  · show ((if t.kind.isSteady then some t.kind else none) == some k) = _
    split
    · rfl
    · rename_i hnot
      refine (beq_false_of_ne ?_).symm
      rintro rfl
      exact hnot hsteady

/-- A token that no line break leads is seen to go on with the line. -/
theorem isOnLine_sight (h : t.kind ≠ .endOfFile) :
    t.sight.isOnLine = !t.leading.containsNewline := by
  rw [sight_of_ne h]
  rfl

end Token.Outline

/-- What is seen before some tokens, behind which there is `next`. -/
def Token.sightOf (ts : List Token.Outline) (next : Outlook) : Outlook :=
  match ts with
  | [] => next
  | t :: _ => t.sight

theorem Token.sightOf_append (ts us : List Token.Outline) (next : Outlook) :
    sightOf (ts ++ us) next = sightOf ts (sightOf us next) := by
  cases ts <;> rfl

namespace Token

/-- The first piece of a token looks like the token: the trivia in front of it is that of the token,
and its kind is not seen if it may have changed. -/
theorem IsCut.sight_eq {t : Token} {ps : List Token} (h : IsCut t ps) (next : Outlook) :
    sightOf (ps.map outline) next = t.outline.sight := by
  have hsight {j : Kind} {a : Text} {trailing : Trivia} (hj : j = t.kind ∨
      (t.kind.isSteady = false ∧ j.isSteady = false)) :
      (outline ⟨t.leading, j, a, trailing⟩).sight = t.outline.sight := by
    have hend (k : Kind) (hk : k.isSteady = false) : k ≠ .endOfFile := by
      rintro rfl
      cases hk
    rcases hj with rfl | ⟨ht, hj⟩
    · rfl
    · have hleft := Outline.sight_of_ne (t := outline ⟨t.leading, j, a, trailing⟩) (hend j hj)
      have hright := Outline.sight_of_ne (t := t.outline) (hend t.kind ht)
      rw [hleft, hright]
      show some (Glimpse.mk (if j.isSteady then _ else _) _)
        = some (Glimpse.mk (if t.kind.isSteady then _ else _) _)
      rw [ht, hj]
      rfl
  cases h with
  | whole hk => exact hsight hk.eq_or_not_isSteady
  | cut _ _ _ _ hk => exact hsight hk.eq_or_not_isSteady

/-- What is seen before tokens is seen before their pieces. So a rule and the finished tree see the
same, although tokens were cut in between. -/
theorem Pieces.sight_eq {ts us : List Token} (h : Pieces ts us) (next : Outlook) :
    sightOf (us.map outline) next = sightOf (ts.map outline) next := by
  cases h with
  | nil => rfl
  | cons ht hts =>
    rw [List.map_append, sightOf_append]
    exact ht.sight_eq _

end Token

namespace Green

/-- What is seen before several trees, behind which there is `next`. -/
def sightOf (gs : List Green) (next : Outlook) : Outlook := Token.sightOf (tokensOf gs) next

@[simp] theorem sightOf_nil (next : Outlook) : sightOf [] next = next := rfl

/-- What is seen before trees in front of others is seen before the first ones, given what is seen
before the others. -/
theorem sightOf_append (gs hs : List Green) (next : Outlook) :
    sightOf (gs ++ hs) next = sightOf gs (sightOf hs next) := by
  rw [sightOf, tokensOf_append, Token.sightOf_append]
  rfl

theorem sightOf_cons (g : Green) (gs : List Green) (next : Outlook) :
    sightOf (g :: gs) next = sightOf [g] (sightOf gs next) := sightOf_append [g] gs next

@[simp] theorem sightOf_node (kind : Kind) (cs : List Green) (next : Outlook) :
    sightOf [.node kind cs] next = sightOf cs next := by
  rw [sightOf, tokensOf_node]
  rfl

@[simp] theorem sightOf_token (t : Token.Outline) (next : Outlook) :
    sightOf [.leaf (.present t)] next = t.sight := rfl

/-! ## Every node, and what comes behind it -/

mutual

/-- Whether something holds of every node of a tree: of its kind, its parts, and what comes next. -/
def Stands (p : Kind → List Green → Outlook → Prop) (next : Outlook) : Green → Prop
  | .node kind cs => p kind cs next ∧ StandAll p next cs
  | .leaf _ => True

/-- Whether something holds of every node of several trees. -/
def StandAll (p : Kind → List Green → Outlook → Prop) (next : Outlook) : List Green → Prop
  | [] => True
  | g :: gs => g.Stands p (sightOf gs next) ∧ StandAll p next gs

end

variable {p : Kind → List Green → Outlook → Prop} {next : Outlook}

/-- Trees stand as something is said of nodes if the first ones do in front of the others, and these
do. -/
theorem standAll_append {gs hs : List Green} :
    StandAll p next (gs ++ hs) ↔ StandAll p (sightOf hs next) gs ∧ StandAll p next hs := by
  induction gs with
  | nil => simp [StandAll]
  | cons g gs ih => rw [List.cons_append, StandAll, StandAll, ih, sightOf_append, and_assoc]

/-- Each of several trees stands somewhere. -/
theorem StandAll.exists_stands {g : Green} {gs : List Green} (h : StandAll p next gs)
    (hg : g ∈ gs) :
    ∃ seen, g.Stands p seen := by
  induction gs with
  | nil => cases hg
  | cons x xs ih =>
    rcases List.mem_cons.mp hg with rfl | hg
    · exact ⟨_, h.1⟩
    · exact ih h.2 hg

/-- One tree alone stands in front of what comes next. -/
theorem standAll_singleton {g : Green} : StandAll p next [g] ↔ g.Stands p next := by
  rw [StandAll, StandAll, and_true]
  rfl

/-- Tokens are no nodes, so there is nothing to say of them. -/
theorem standAll_tokens (xs : List Token) : StandAll p next (xs.map token) := by
  induction xs with
  | nil => trivial
  | cons x xs ih => exact ⟨trivial, ih⟩

end Green

/-! ## The nodes of a tree -/

namespace Node

/-- The trees behind a node, up to the end of the text. -/
def behind (n : Node) : List Green := n.way.flatMap fun f => f.children.drop (f.index + 1)

variable {p : Kind → List Green → Outlook → Prop} {next : Outlook}

/-- Behind a part of a node are the parts behind it, and what is behind the node. -/
theorem behind_of_step {n : Node} {before after : List Green} {kind : Kind} {cs : List Green}
    {offset : Nat} {g : Green} (h : n.children = before ++ g :: after) :
    (Node.mk kind cs offset (n.step before.length)).behind = after ++ n.behind := by
  have hdrop : n.children.drop (before.length + 1) = after := by
    rw [h, ← List.singleton_append, ← List.append_assoc, List.drop_left']
    rw [List.length_append, List.length_singleton]
  rw [behind, step, List.flatMap_cons, hdrop]
  rfl

mutual

/-- What holds of every node of a part holds of the nodes below it, where they stand. -/
theorem stands_of_mem_nodesIn {n d : Node} {before after : List Green} {offset : Nat} :
    {g : Green} → n.children = before ++ g :: after →
    g.Stands p (Green.sightOf (after ++ n.behind) next) →
    d ∈ n.nodesIn before.length offset g → d.green.Stands p (Green.sightOf d.behind next)
  | .node kind cs, hsplit, hg, hd => by
    have hbehind : (Node.mk kind cs offset (n.step before.length)).behind = after ++ n.behind :=
      behind_of_step hsplit
    rw [nodesIn, List.mem_cons] at hd
    rw [← hbehind] at hg
    rcases hd with rfl | hd
    · exact hg
    · exact stands_of_mem_nodesFrom (List.nil_append _).symm hg.2 hd
  | .leaf _, _, _, hd => absurd hd List.not_mem_nil

/-- What is said of every node of some parts is said of each node below them, in front of what is
behind this node. -/
theorem stands_of_mem_nodesFrom {n d : Node} {before : List Green} {offset : Nat} :
    {gs : List Green} → n.children = before ++ gs →
    Green.StandAll p (Green.sightOf n.behind next) gs →
    d ∈ n.nodesFrom before.length offset gs → d.green.Stands p (Green.sightOf d.behind next)
  | [], _, _, hd => absurd hd List.not_mem_nil
  | g :: gs, hsplit, hgs, hd => by
    have hsplit' : n.children = (before ++ [g]) ++ gs := by rw [hsplit]; simp
    rcases List.mem_append.mp hd with hd | hd
    · refine stands_of_mem_nodesIn hsplit ?_ hd
      rw [Green.sightOf_append]
      exact hgs.1
    · have hlength : (before ++ [g]).length = before.length + 1 := by
        rw [List.length_append, List.length_singleton]
      rw [← hlength] at hd
      exact stands_of_mem_nodesFrom hsplit' hgs.2 hd

end

/-- What holds of every node of a tree holds of every node below one of its places. -/
theorem stands_of_mem_descendants {n d : Node} (hway : n.way = []) (hn : n.green.Stands p next)
    (hd : d ∈ n.descendants) : d.green.Stands p (Green.sightOf d.behind next) := by
  have hbehind : n.behind = [] := by rw [behind, hway]; rfl
  rcases List.mem_cons.mp hd with rfl | hd
  · rw [hbehind]
    exact hn
  · refine stands_of_mem_nodesFrom (List.nil_append _).symm ?_ hd
    rw [hbehind]
    exact hn.2

end Node

end SwiftTree
