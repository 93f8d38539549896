import SwiftTree.Proofs.Construction
import SwiftTree.Proofs.Findings

/-!
# Diagnostics account for a tree

Trees have their irregularities in known places only (`Green.Regular`): a placeholder is empty, and
unexpected text consists of tokens. Of such a tree the signals stand for every missing token, every
placeholder and every unexpected node, each of them once and in source order. So do the findings,
and with them the diagnostics.
-/

namespace SwiftTree

namespace Green

mutual

/-- Whether placeholders are empty, unexpected text was read and is not empty, and tokens have room
for their trivia. -/
def Regular : Green → Prop
  | .node kind cs =>
    (kind.isMissingNode → cs = []) ∧ (kind = .unexpected → cs ≠ [] ∧ ∀ g ∈ cs, g.IsPresent) ∧
      RegularAll cs
  | .leaf l => ∀ t, l = .present t → t.hasRoom

/-- Whether several trees are regular. -/
def RegularAll : List Green → Prop
  | [] => True
  | g :: gs => g.Regular ∧ RegularAll gs

end

theorem regularAll_iff {gs : List Green} : RegularAll gs ↔ ∀ g ∈ gs, g.Regular := by
  induction gs with
  | nil => simp [RegularAll]
  | cons g gs ih => rw [RegularAll, ih, List.forall_mem_cons]

mutual

theorem regular_of_sound : {g : Green} → g.Sound → g.Regular
  | .node _ _, h => ⟨h.2.1, h.2.2.1, regularAll_of_soundAll h.2.2.2⟩
  | .leaf _, h => h.2

theorem regularAll_of_soundAll : {gs : List Green} → SoundAll gs → RegularAll gs
  | [], _ => trivial
  | _ :: _, h => ⟨regular_of_sound h.1, regularAll_of_soundAll h.2⟩

end

mutual

/-- What was not read takes no room. -/
theorem byteLen_of_not_hasPresent : (g : Green) → g.hasPresent = false → g.byteLen = 0
  | .node _ cs, h => byteLenOf_of_not_hasPresentOf cs h
  | .leaf (.missing _ _), _ => rfl

/-- Trees without any token that was read have no bytes, since a missing token has none. -/
theorem byteLenOf_of_not_hasPresentOf :
    (gs : List Green) → hasPresentOf gs = false → byteLenOf gs = 0
  | [], _ => rfl
  | g :: gs, h => by
    rw [hasPresentOf, Bool.or_eq_false_iff] at h
    rw [byteLenOf, byteLen_of_not_hasPresent g h.1, byteLenOf_of_not_hasPresentOf gs h.2]

end

/-- Parts that were read start with a token. -/
theorem exists_present_of_isPresent {gs : List Green} (hne : gs ≠ [])
    (h : ∀ g ∈ gs, g.IsPresent) : ∃ t hs, gs = .leaf (.present t) :: hs := by
  cases gs with
  | nil => exact absurd rfl hne
  | cons g gs =>
    obtain ⟨t, rfl⟩ := h g List.mem_cons_self
    exact ⟨t, gs, rfl⟩

end Green

namespace Node

/-! ## Nothing is lost below nodes that are reported as a whole -/

/-- What stands for something that was not found: placeholders, and constructs of which only missing
tokens are there. -/
theorem missingItem_cases {n : Node} (h : n.missingItem?.isSome) :
    n.kind.isMissingNode ∨ (n.green.hasPresent = false ∧ n.green.leaves ≠ []) := by
  have hwhole (hm : n.isMissing) :
      n.kind.isMissingNode ∨ (n.green.hasPresent = false ∧ n.green.leaves ≠ []) := by
    rw [isMissing, Green.isMissing, Bool.or_eq_true, Bool.and_eq_true, Bool.not_eq_true',
      Bool.not_eq_true', List.isEmpty_eq_false_iff] at hm
    exact hm
  unfold missingItem? at h
  split at h <;> rename_i hk
  · exact .inl (by rw [hk]; rfl)
  · exact .inl (by rw [hk]; rfl)
  · exact .inl (by rw [hk]; rfl)
  · split at h
    · rename_i hm
      exact hwhole hm
    · cases h
  · split at h
    · rename_i hm
      exact hwhole hm
    · cases h
  · cases h

/-- Placeholders stand for something that was not found. -/
theorem isSome_missingItem {n : Node} (h : n.kind.isMissingNode) : n.missingItem?.isSome := by
  unfold missingItem?
  unfold Kind.isMissingNode at h
  split at h
  · rename_i hk
    simp only [hk]
    split <;> rfl
  · rename_i hk
    simp only [hk]
    rfl
  · rename_i hk
    simp only [hk]
    split <;> rfl
  · cases h

/-- There is no token of the source in it. -/
theorem not_hasPresent_of_missingItem {n : Node} (hn : n.green.Regular)
    (h : n.missingItem?.isSome) : n.green.hasPresent = false := by
  rcases missingItem_cases h with hk | ⟨hnone, -⟩
  · rw [green, hn.1 hk]
    rfl
  · exact hnone

/-- There is something missing in it. -/
theorem missing_ne_nil_of_missingItem {n : Node} (h : n.missingItem?.isSome) : n.missing ≠ [] := by
  rcases missingItem_cases h with hk | ⟨hnone, hleaves⟩
  · rw [missing, if_pos hk]
    exact List.cons_ne_nil _ _
  · exact missing_ne_nil hnone hleaves

/-- There are no nodes below tokens. -/
theorem nodesFrom_of_isPresent (n : Node) (index offset : Nat) {gs : List Green}
    (h : ∀ g ∈ gs, g.IsPresent) : n.nodesFrom index offset gs = [] := by
  induction gs generalizing index offset with
  | nil => rfl
  | cons g gs ih =>
    rw [List.forall_mem_cons] at h
    obtain ⟨⟨t, rfl⟩, hgs⟩ := h
    rw [nodesFrom, ih _ _ hgs]
    rfl

mutual

/-- Where nothing was read, there is no unexpected text. -/
theorem ne_unexpected_of_mem_nodesIn {n d : Node} {index offset : Nat} : {g : Green} → g.Regular →
    g.hasPresent = false → d ∈ n.nodesIn index offset g → d.kind ≠ .unexpected
  | .node kind cs, hg, hnone, hd => by
    rw [nodesIn, List.mem_cons] at hd
    rcases hd with rfl | hd
    · intro hk
      obtain ⟨t, gs, rfl⟩ := Green.exists_present_of_isPresent (hg.2.1 hk).1 (hg.2.1 hk).2
      cases hnone
    · exact ne_unexpected_of_mem_nodesFrom hg.2.2 hnone hd
  | .leaf _, _, _, hd => absurd hd List.not_mem_nil

/-- Among trees without any token that was read there is no unexpected node, for unexpected text was
read and is not empty. -/
theorem ne_unexpected_of_mem_nodesFrom {n d : Node} {index offset : Nat} : {gs : List Green} →
    Green.RegularAll gs → Green.hasPresentOf gs = false → d ∈ n.nodesFrom index offset gs →
      d.kind ≠ .unexpected
  | [], _, _, hd => absurd hd List.not_mem_nil
  | g :: gs, hgs, hnone, hd => by
    rw [Green.hasPresentOf, Bool.or_eq_false_iff] at hnone
    rcases List.mem_append.mp hd with hd | hd
    · exact ne_unexpected_of_mem_nodesIn hgs.1 hnone.1 hd
    · exact ne_unexpected_of_mem_nodesFrom hgs.2 hnone.2 hd

end

mutual

/-- The signals of a tree are about its unexpected nodes. -/
theorem unexpected_signalsIn (n : Node) (index offset : Nat) : {g : Green} → g.Regular →
    (n.signalsIn index offset g).filterMap Signal.unexpected?
      = (n.nodesIn index offset g).filter fun d => d.kind == .unexpected
  | .leaf _, _ => rfl
  | .node kind cs, hg => by
    rw [signalsIn, nodesIn, List.filter_cons]
    by_cases hk : kind = .unexpected
    · rw [if_pos hk, if_pos (beq_iff_eq.mpr hk), nodesFrom_of_isPresent _ _ _ (hg.2.1 hk).2]
      rfl
    · rw [if_neg hk, if_neg (mt beq_iff_eq.mp hk)]
      split
      · rename_i hitem
        have hnone := not_hasPresent_of_missingItem (n := ⟨kind, cs, offset, n.step index⟩) hg hitem
        refine Eq.symm (List.filter_eq_nil_iff.mpr ?_)
        intro d hd
        rw [beq_iff_eq]
        exact ne_unexpected_of_mem_nodesFrom hg.2.2 hnone hd
      · have hinside := unexpected_signalsFrom ⟨kind, cs, offset,
          n.step index⟩ 0 offset false hg.2.2
        dsimp only
        split
        · rw [List.filterMap_cons, hinside]
          rfl
        · exact hinside

/-- The unexpected nodes that the signals of several parts stand for are those below the parts, in
order. The induction is the one of `unexpected_signalsIn`, on the parts. -/
theorem unexpected_signalsFrom (n : Node) (index offset : Nat) (quoted : Bool) :
    {gs : List Green} → Green.RegularAll gs →
      (n.signalsFrom index offset quoted gs).filterMap Signal.unexpected?
        = (n.nodesFrom index offset gs).filter fun d => d.kind == .unexpected
  | [], _ => by
    rw [signalsFrom]
    rfl
  | .node kind cs :: gs, hgs => by
    rw [signalsFrom, nodesFrom, List.filterMap_append, List.filter_append,
      unexpected_signalsIn n index offset hgs.1, unexpected_signalsFrom n _ _ false hgs.2]
  | .leaf (.present t) :: gs, hgs => by
    rw [signalsFrom, nodesFrom, List.filterMap_cons, unexpected_signalsFrom n _ _ false hgs.2]
    rfl
  | .leaf (.missing kind spelling) :: gs, hgs => by
    have hrest (quoted : Bool) := unexpected_signalsFrom n (index + 1) offset quoted hgs.2
    rw [signalsFrom, nodesFrom]
    split
    · exact hrest false
    · split
      · exact hrest false
      · split
        · exact hrest true
        · exact hrest false

end

/-! ## The signals stand for everything that is missing -/

/-- The raw delimiter that has been accounted for with the closing token before it. -/
def accounted (n : Node) (index offset : Nat) (quoted : Bool) (gs : List Green) : List Element :=
  if quoted then (n.missingDelimiter index offset gs).toList.map .leaf else []

/-- Behind a closing quote that is missing, a missing raw delimiter has been accounted for with the
quote. -/
theorem accounted_delimiter (n : Node) (index offset : Nat) {quoted : Bool} {kind : Kind}
    (spelling : Text) (gs : List Green) (h : quoted && kind == .rawStringDelimiter) :
    n.accounted index offset quoted (.leaf (.missing kind spelling) :: gs)
      = [.leaf ⟨n, index, offset, .missing kind spelling⟩] := by
  rw [Bool.and_eq_true, beq_iff_eq] at h
  obtain ⟨rfl, rfl⟩ := h
  rfl

/-- Everywhere else, a missing token is still to be accounted for. -/
theorem accounted_of_not_delimiter (n : Node) (index offset : Nat) {quoted : Bool} {kind : Kind}
    (spelling : Text) (gs : List Green) (h : ¬(quoted && kind == .rawStringDelimiter)) :
    n.accounted index offset quoted (.leaf (.missing kind spelling) :: gs) = [] := by
  cases quoted with
  | false => rfl
  | true =>
    rw [Bool.true_and, beq_iff_eq] at h
    rw [accounted, if_pos rfl, missingDelimiter]
    · rfl
    · rintro _ _ ⟨⟩
      exact h rfl

mutual

/-- Where nothing was read, nothing is unexpected. -/
theorem faultsIn_of_not_hasPresent (n : Node) (depth index offset : Nat) : {g : Green} → g.Regular →
    g.hasPresent = false → n.faultsIn depth index offset g = n.missingIn index offset g
  | .node kind cs, hg, hnone => by
    have hinside := faultsFrom_of_not_hasPresent ⟨kind, cs, offset, n.step index⟩ (depth + 1) 0
      offset hg.2.2 hnone
    have hkind : (kind == .unexpected) = false := by
      rw [beq_eq_false_iff_ne]
      intro hk
      obtain ⟨t, gs, rfl⟩ := Green.exists_present_of_isPresent (hg.2.1 hk).1 (hg.2.1 hk).2
      cases hnone
    rw [faultsIn_node, missingIn]
    dsimp only
    rw [hinside, hkind, Bool.or_false]
  | .leaf (.missing _ _), _, _ => rfl

/-- What is wrong with trees without any token that was read are the missing tokens and the
placeholders. -/
theorem faultsFrom_of_not_hasPresent (n : Node) (depth index offset : Nat) : {gs : List Green} →
    Green.RegularAll gs → Green.hasPresentOf gs = false →
      n.faultsFrom depth index offset gs = n.missingFrom index offset gs
  | [], _, _ => rfl
  | g :: gs, hgs, hnone => by
    rw [Green.hasPresentOf, Bool.or_eq_false_iff] at hnone
    rw [faultsFrom_cons, missingFrom, faultsIn_of_not_hasPresent n depth index offset hgs.1 hnone.1,
      faultsFrom_of_not_hasPresent n depth _ _ hgs.2 hnone.2]

end

/-- Nothing is wrong with tokens of the source. -/
theorem faultsFrom_of_isPresent (n : Node) (depth index offset : Nat) {gs : List Green}
    (h : ∀ g ∈ gs, g.IsPresent) : n.faultsFrom depth index offset gs = [] := by
  induction gs generalizing index offset with
  | nil => rfl
  | cons g gs ih =>
    rw [List.forall_mem_cons] at h
    obtain ⟨⟨t, rfl⟩, hgs⟩ := h
    rw [faultsFrom_cons, ih _ _ hgs]
    rfl

mutual

/-- The signals of a tree are about everything that is wrong with it, in the order in which it is
listed. -/
theorem pieces_signalsIn (n : Node) (depth index offset : Nat) : {g : Green} → g.isNode →
    g.Regular →
      (n.signalsIn index offset g).flatMap Signal.pieces = n.faultsIn depth index offset g
  | .node kind cs, _, hg => by
    rw [signalsIn]
    by_cases hk : kind = .unexpected
    · rw [if_pos hk, faultsIn_node, hk]
      dsimp only
      rw [faultsFrom_of_isPresent _ _ _ _ (hg.2.1 hk).2]
      rfl
    · rw [if_neg hk]
      split
      · rename_i hitem
        have hnone := not_hasPresent_of_missingItem (n := ⟨kind, cs, offset, n.step index⟩) hg hitem
        rw [faultsIn_of_not_hasPresent n depth index offset hg hnone, missingIn,
          List.flatMap_singleton]
        rfl
      · rename_i hitem
        have hkind : kind.isMissingNode = false := by
          rw [← Bool.not_eq_true]
          intro hmissing
          exact hitem (isSome_missingItem hmissing)
        have hinside := pieces_signalsFrom ⟨kind, cs, offset, n.step index⟩ (depth + 1) 0 offset
          false hg.2.2
        rw [faultsIn_node, hkind, beq_false_of_ne hk]
        dsimp only
        split
        · exact hinside
        · exact hinside

/-- What has been accounted for before some parts, and what the signals of the parts are about, is
together what is wrong with the parts. -/
theorem pieces_signalsFrom (n : Node) (depth index offset : Nat) (quoted : Bool) :
    {gs : List Green} → Green.RegularAll gs →
      n.accounted index offset quoted gs
        ++ (n.signalsFrom index offset quoted gs).flatMap Signal.pieces
          = n.faultsFrom depth index offset gs
  | [], _ => by
    rw [signalsFrom, accounted]
    cases quoted <;> rfl
  | .node kind cs :: gs, hgs => by
    have hrest := pieces_signalsFrom n depth (index + 1) (offset + Green.byteLen (.node kind cs))
      false hgs.2
    rw [signalsFrom, faultsFrom_cons, List.flatMap_append,
      pieces_signalsIn n depth index offset rfl hgs.1, ← hrest]
    cases quoted <;> rfl
  | .leaf (.present t) :: gs, hgs => by
    have hrest := pieces_signalsFrom n depth (index + 1) (offset + t.byteLen) false hgs.2
    rw [signalsFrom]
    refine Eq.trans ?_ hrest
    cases quoted <;> rfl
  | .leaf (.missing kind spelling) :: gs, hgs => by
    have hrest (quoted : Bool) := pieces_signalsFrom n depth (index + 1) offset quoted hgs.2
    have hmissing : n.faultsFrom depth index offset (.leaf (.missing kind spelling) :: gs)
        = .leaf ⟨n, index, offset, .missing kind spelling⟩
          :: n.faultsFrom depth (index + 1) offset gs := rfl
    rw [hmissing, signalsFrom]
    split
    · rename_i hquoted
      rw [accounted_delimiter n index offset spelling gs hquoted, ← hrest false]
      rfl
    · rename_i hquoted
      rw [accounted_of_not_delimiter n index offset spelling gs hquoted, List.nil_append]
      split
      · rw [← hrest false]
        rfl
      · split
        · rw [← hrest true]
          rfl
        · rw [← hrest false]
          rfl

end

/-! ## Where the signals are given -/

/-- A raw delimiter is looked for directly behind a closing token. -/
theorem fits_missingDelimiter (n : Node) (index offset : Nat) (gs : List Green) :
    ∀ d ∈ n.missingDelimiter index offset gs, d.isPresent = false ∧
      d.kind = .rawStringDelimiter ∧ d.parent = n ∧ d.index = index := by
  intro d hd
  unfold missingDelimiter at hd
  split at hd
  · rw [Option.mem_some] at hd
    rw [← hd]
    exact ⟨rfl, rfl, rfl, rfl⟩
  · cases hd

/-- Whether parts stand in the node `n`, with a given index and offset of the first. -/
def Holds (n : Node) (index offset : Nat) (gs : List Green) : Prop :=
  ∃ front back, n.children = front ++ gs ++ back ∧ front.length = index ∧
    n.offset + Green.byteLenOf front = offset

theorem holds_children (n : Node) : n.Holds 0 n.offset n.children :=
  ⟨[], [], by simp, rfl, rfl⟩

/-- Behind the first of several parts stand the others, one index and the length of the first part
further on. -/
theorem Holds.tail {n : Node} {index offset : Nat} {g : Green} {gs : List Green}
    (h : n.Holds index offset (g :: gs)) : n.Holds (index + 1) (offset + g.byteLen) gs := by
  obtain ⟨front, back, hchildren, rfl, rfl⟩ := h
  refine ⟨front ++ [g], back, by simp [hchildren], by simp, ?_⟩
  rw [Green.byteLenOf_append, Green.byteLenOf, Green.byteLenOf, Nat.add_zero, Nat.add_assoc]

/-- Where diagnostics of a part of the node `n` can start: at the part, and behind the word that the
node starts with also at the node, for the clauses of a C-style loop are reported at that word. -/
def lowest (n : Node) (index offset : Nat) : Nat :=
  match index, n.children with
  | 1, .leaf (.present _) :: _ => n.offset
  | _, _ => offset

/-- Diagnostics of a part start at the part, but for the clauses of a loop, which stand behind the
word that the loop starts with. -/
theorem lowest_cases (n : Node) (index offset : Nat) :
    n.lowest index offset = offset ∨
      (n.lowest index offset = n.offset ∧ index = 1 ∧
        ∃ t gs, n.children = .leaf (.present t) :: gs) := by
  unfold lowest
  split
  · rename_i t gs hchildren
    exact .inr ⟨rfl, rfl, t, gs, hchildren⟩
  · exact .inl rfl

/-- The parts of a node stand at its offset or behind it. -/
theorem Holds.offset_le {n : Node} {index offset : Nat} {gs : List Green}
    (h : n.Holds index offset gs) : n.offset ≤ offset := by
  obtain ⟨front, back, -, -, rfl⟩ := h
  exact Nat.le_add_right _ _

/-- Where diagnostics of a part can start is no later than where the part starts. -/
theorem Holds.lowest_le {n : Node} {index offset : Nat} {gs : List Green}
    (h : n.Holds index offset gs) : n.lowest index offset ≤ offset := by
  rcases n.lowest_cases index offset with hlow | ⟨hlow, -⟩
  · exact Nat.le_of_eq hlow
  · rw [hlow]
    exact h.offset_le

/-- The first part starts where the node does. -/
theorem Holds.first {n : Node} {offset : Nat} {g : Green} {gs : List Green}
    (h : n.Holds 0 offset (g :: gs)) : n.offset = offset ∧ n.children.head? = some g := by
  obtain ⟨front, back, hchildren, hfront, rfl⟩ := h
  obtain rfl := List.eq_nil_of_length_eq_zero hfront
  exact ⟨rfl, by rw [hchildren]; rfl⟩

/-- Behind a part, diagnostics start at that part or behind it. -/
theorem Holds.le_lowest {n : Node} {index offset : Nat} {g : Green} {gs : List Green}
    (h : n.Holds index offset (g :: gs)) :
    offset ≤ n.lowest (index + 1) (offset + g.byteLen) := by
  rcases n.lowest_cases (index + 1) (offset + g.byteLen) with hlow | ⟨hlow, hindex, -⟩
  · rw [hlow]
    exact Nat.le_add_right _ _
  · obtain rfl : index = 0 := Nat.succ.inj hindex
    exact Nat.le_of_eq (h.first.1.symm.trans hlow.symm)

/-- Behind a part that is no token of the source, they start behind that part. -/
theorem Holds.lowest_tail {n : Node} {index offset : Nat} {g : Green} {gs : List Green}
    (h : n.Holds index offset (g :: gs)) (hg : ¬g.IsPresent) :
    n.lowest (index + 1) (offset + g.byteLen) = offset + g.byteLen := by
  rcases n.lowest_cases (index + 1) (offset + g.byteLen) with hlow | ⟨-, hindex, t, hs, hchildren⟩
  · exact hlow
  · obtain rfl : index = 0 := Nat.succ.inj hindex
    have hhead := h.first.2
    rw [hchildren, List.head?_cons, Option.some.injEq] at hhead
    exact absurd ⟨t, hhead.symm⟩ hg

/-- The word that a node starts with. -/
theorem firstLeaf_of_present {n : Node} {t : Token.Outline} {gs : List Green}
    (h : n.children = .leaf (.present t) :: gs) :
    n.firstLeaf = some ⟨n, 0, n.offset, .present t⟩ := by
  rw [firstLeaf, leaves, h]
  rfl

/-- The trimmed range of a node that starts with a token begins behind the trivia in front of this
token. -/
theorem start_trimmedRange_of_present {n : Node} {t : Token.Outline} {gs : List Green}
    (h : n.children = .leaf (.present t) :: gs) :
    n.trimmedRange.start = n.offset + t.leading.byteLen := by
  have hleaves : n.presentLeaves
      = ⟨n, 0, n.offset, .present t⟩
        :: (n.leavesFrom 1 (n.offset + t.byteLen) gs).filter Leaf.isPresent := by
    rw [presentLeaves, leaves, h]
    rfl
  rw [trimmedRange, hleaves]
  rfl

/-- The word before the clauses of a C-style loop. -/
theorem exists_of_isCStyleClauses {n : Node} {kind : Kind} {cs : List Green} {index offset : Nat}
    (h : isCStyleClauses ⟨kind, cs, offset, n.step index⟩) :
    index = 1 ∧ ∃ t gs, n.children = .leaf (.present t) :: gs := by
  unfold isCStyleClauses at h
  split at h
  · rename_i t gs _ _ hway
    obtain ⟨hframe, -⟩ := List.cons.inj hway
    rw [Frame.mk.injEq] at hframe
    exact ⟨hframe.2.2.2, t, gs, hframe.2.1⟩
  · cases h

/-- The second part starts behind the word that the node starts with. -/
theorem Holds.second {n : Node} {offset : Nat} {gs hs : List Green} {t : Token.Outline}
    (h : n.Holds 1 offset gs) (hchildren : n.children = .leaf (.present t) :: hs) :
    n.offset + t.byteLen = offset := by
  obtain ⟨front, back, hall, hfront, rfl⟩ := h
  obtain ⟨g, rfl⟩ := List.length_eq_one_iff.mp hfront
  rw [hchildren] at hall
  obtain rfl : Green.leaf (.present t) = g := (List.cons.inj hall).1
  rfl

/-- The spelling of a token starts before the token ends, if the token has room for its trivia. -/
theorem start_le_stop {t : Token.Outline} (h : t.hasRoom) (offset : Nat) :
    offset + t.leading.byteLen ≤ offset + t.byteLen := by
  rw [Token.Outline.hasRoom, decide_eq_true_eq] at h
  omega

/-- The clauses of a C-style loop are reported at the word before them, other unexpected text at its
first token. -/
theorem offset_unexpectedDiagnostic {n : Node} {index offset : Nat} {cs gs : List Green}
    (hn : Green.RegularAll n.children) (hcs : (Green.node .unexpected cs).Regular)
    (h : n.Holds index offset (.node .unexpected cs :: gs)) :
    let d := unexpectedDiagnostic ⟨.unexpected, cs, offset, n.step index⟩
    n.lowest index offset ≤ d.offset ∧ d.offset ≤ offset + Green.byteLenOf cs := by
  have hd : unexpectedDiagnostic ⟨.unexpected, cs, offset, n.step index⟩
      = if isCStyleClauses ⟨.unexpected, cs, offset, n.step index⟩ then _ else _ := rfl
  rw [hd]
  dsimp only
  split
  · rename_i hclauses
    obtain ⟨rfl, t, hs, hchildren⟩ := exists_of_isCStyleClauses hclauses
    have hfirst : firstLeaf ⟨n.kind, n.children, n.offset, n.way⟩
        = some ⟨n, 0, n.offset, .present t⟩ := firstLeaf_of_present hchildren
    have hroom : t.hasRoom := by
      rw [hchildren] at hn
      exact hn.1 t rfl
    have hlow : n.lowest 1 offset = n.offset := by
      unfold lowest
      rw [hchildren]
      rfl
    rw [hlow, hfirst]
    refine ⟨Nat.le_add_right _ _, ?_⟩
    refine Nat.le_trans (start_le_stop hroom n.offset) ?_
    rw [h.second hchildren]
    exact Nat.le_add_right _ _
  · obtain ⟨t, hs, rfl⟩ := Green.exists_present_of_isPresent (hcs.2.1 rfl).1 (hcs.2.1 rfl).2
    have hstart := start_trimmedRange_of_present
      (n := ⟨.unexpected, .leaf (.present t) :: hs, offset, n.step index⟩) rfl
    have hroom : t.hasRoom := hcs.2.2.1 t rfl
    rw [Diagnostic.offset, Diagnostic.error, hstart]
    refine ⟨Nat.le_trans h.lowest_le (Nat.le_add_right _ _), ?_⟩
    refine Nat.le_trans (start_le_stop hroom offset) ?_
    exact Nat.add_le_add_left (Nat.le_add_right _ _) offset

mutual

/-- The signals of a node are given along its text. -/
theorem along_signalsIn {n : Node} {index offset : Nat} {gs : List Green}
    (hn : Green.RegularAll n.children) : {g : Green} → g.isNode → g.Regular →
      n.Holds index offset (g :: gs) →
        Signal.Along (n.lowest index offset) offset (n.signalsIn index offset g)
          (offset + g.byteLen)
  | .node kind cs, _, hg, h => by
    rw [signalsIn]
    by_cases hk : kind = .unexpected
    · subst hk
      obtain ⟨hlow, hstop⟩ := offset_unexpectedDiagnostic hn hg h
      rw [if_pos rfl]
      exact .found rfl hlow hstop (Nat.le_add_right _ _) .nil
    · rw [if_neg hk]
      split
      · rename_i hitem
        have hnone := not_hasPresent_of_missingItem (n := ⟨kind, cs, offset, n.step index⟩) hg hitem
        have hlen : (Green.node kind cs).byteLen = 0 := Green.byteLen_of_not_hasPresent _ hnone
        rw [hlen]
        exact .missed hitem rfl .nil
      · have hinside := along_signalsFrom (n := ⟨kind, cs, offset, n.step index⟩) false
          hg.2.2 hg.2.2
          (holds_children _)
        have hlow := h.lowest_le
        dsimp only
        split
        · exact .token (Nat.le_refl _) hinside
        · exact hinside.weaken hlow

/-- The signals of several parts of a node are given along the way through these parts. The
induction is on the parts; a missing token does not bring the way on, and only a token that was read
lets the findings before it be reported. -/
theorem along_signalsFrom {n : Node} {index offset : Nat} (quoted : Bool)
    (hn : Green.RegularAll n.children) : {gs : List Green} → Green.RegularAll gs →
      n.Holds index offset gs →
        Signal.Along (n.lowest index offset) offset (n.signalsFrom index offset quoted gs)
          (offset + Green.byteLenOf gs)
  | [], _, _ => by
    rw [signalsFrom]
    exact .nil
  | .node kind cs :: gs, hgs, h => by
    have hfirst := along_signalsIn hn rfl hgs.1 h
    have hrest := along_signalsFrom false hn hgs.2 h.tail
    rw [h.lowest_tail nofun, Nat.add_assoc] at hrest
    rw [signalsFrom]
    exact hfirst.append h.lowest_le hrest
  | .leaf (.present t) :: gs, hgs, h => by
    have hrest := along_signalsFrom false hn hgs.2 h.tail
    rw [Nat.add_assoc] at hrest
    rw [signalsFrom]
    exact .token (Nat.le_add_right _ _) (hrest.weaken h.le_lowest)
  | .leaf (.missing kind spelling) :: gs, hgs, h => by
    have hlow := h.lowest_le
    -- a missing token covers nothing
    have hstop : offset + Green.byteLenOf (.leaf (.missing kind spelling) :: gs)
        = offset + Green.byteLenOf gs := congrArg (offset + ·) (Nat.zero_add _)
    have hrest (quoted : Bool) : Signal.Along offset offset
        (n.signalsFrom (index + 1) offset quoted gs) (offset + Green.byteLenOf gs) := by
      have hrest := along_signalsFrom quoted hn hgs.2 h.tail
      rw [h.lowest_tail nofun] at hrest
      exact hrest
    rw [hstop, signalsFrom]
    split
    · exact (hrest false).weaken hlow
    · split
      · rename_i hcolon
        rw [Bool.and_eq_true, beq_iff_eq, beq_iff_eq] at hcolon
        exact .found ⟨rfl, hcolon⟩ hlow (Nat.le_refl _) (Nat.le_refl _) (hrest false)
      · split
        · rename_i hcloses
          exact .found ⟨rfl, hcloses, fits_missingDelimiter n (index + 1) offset gs⟩ hlow
            (Nat.le_refl _) (Nat.le_refl _) (hrest true)
        · exact .missed rfl rfl (hrest false)

end

end Node

namespace Element

/-- What is missing is not unexpected. -/
theorem filter_missing (e : Element) : (e.missing.filter fun e => !e.isUnexpected) = e.missing := by
  cases e with
  | node n => rw [missing, Node.missing_eq, List.filter_filter, funext fun _ => Bool.and_self _]
  | leaf l =>
    rw [missing]
    split <;> rfl

/-- A part that is reported as missing accounts for something. -/
theorem missing_ne_nil {e : Element} (h : e.IsLacking) : e.missing ≠ [] := by
  cases e with
  | node n => exact Node.missing_ne_nil_of_missingItem h
  | leaf l =>
    have hl : l.isPresent = false := h
    rw [missing, hl]
    exact List.cons_ne_nil _ _

end Element

namespace Finding

/-- A finding accounts for what it is about, unless that is unexpected. -/
theorem covers_eq {f : Finding} (h : f.Fits) :
    f.covers = f.pieces.filter fun e => !e.isUnexpected := by
  cases f with
  | unexpected n =>
    have hn : n.kind = .unexpected := h
    rw [covers, pieces, List.filter_cons, Element.isUnexpected, hn]
    rfl
  | expected m => rw [covers, pieces, List.filter_flatMap, funext Element.filter_missing]
  | ternaryColon l => rfl
  | unclosed l d => cases d <;> rfl

/-- Every finding is about an unexpected node or accounts for something that is missing. -/
theorem covers_ne_nil {f : Finding} (h : f.Fits) (hf : f.unexpected? = none) : f.covers ≠ [] := by
  cases f with
  | unexpected n => cases hf
  | expected m =>
    have hfirst := Element.missing_ne_nil (h m.first List.mem_cons_self).1
    rw [covers, MissingRun.parts, List.flatMap_cons]
    exact List.append_ne_nil_of_left_ne_nil hfirst _
  | ternaryColon l => exact List.cons_ne_nil _ _
  | unclosed l d => exact List.cons_ne_nil _ _

/-- Every finding is about something. -/
theorem pieces_ne_nil {f : Finding} (h : f.Fits) : f.pieces ≠ [] := by
  cases hf : f.unexpected? with
  | none =>
    intro hnil
    have hcovers := covers_ne_nil h hf
    rw [covers_eq h, hnil] at hcovers
    exact hcovers rfl
  | some n =>
    cases f with
    | unexpected m => exact List.cons_ne_nil _ _
    | _ => cases hf

end Finding

namespace Node

/-! ## The findings of a tree -/

/-- The findings of a tree, one for each diagnostic. -/
def findings (n : Node) : List Finding :=
  Signal.findings none (n.signalsFrom 0 n.offset false n.children)

theorem ordered_findings {n : Node} (hn : Green.RegularAll n.children) :
    Signal.Ordered n.offset n.findings :=
  ((along_signalsFrom false hn hn n.holds_children)).ordered (Nat.le_refl _) Signal.held_none

/-- A report finds the diagnostics of the findings. -/
theorem found_eq (n : Node) :
    (n.report unexpectedDiagnostic).found.reverse = n.findings.map Finding.diagnostic := by
  rw [report, reportFrom_eq]
  exact Report.found_note _ {} none rfl

/-- The findings of a tree are found in source order. -/
theorem sort_findings {n : Node} (hn : Green.RegularAll n.children) :
    Diagnostic.sort (n.findings.map Finding.diagnostic) = n.findings.map Finding.diagnostic := by
  rw [Diagnostic.sort]
  refine List.mergeSort_of_pairwise ?_
  rw [List.pairwise_map]
  exact (ordered_findings hn).2.imp fun h => decide_eq_true h

/-- The findings are about everything that is wrong below a node, in the order in which it is
listed. -/
theorem pieces_findings {n : Node} (hn : Green.RegularAll n.children) :
    n.findings.flatMap Finding.pieces = n.faultsFrom 1 0 n.offset n.children := by
  rw [findings, Signal.pieces_findings]
  exact pieces_signalsFrom n 1 0 n.offset false hn

/-- The findings account for everything that is missing. -/
theorem covers_findings {n : Node} (hk : n.kind.isMissingNode = false)
    (hn : Green.RegularAll n.children) : n.findings.flatMap Finding.covers = n.missing := by
  have hcovers : n.findings.flatMap Finding.covers
      = n.findings.flatMap fun f => f.pieces.filter fun e => !e.isUnexpected :=
    List.flatMap_congr fun f hf => Finding.covers_eq ((ordered_findings hn).1 f hf).1
  rw [hcovers, ← List.filter_flatMap, pieces_findings hn, ← missingFrom_eq, missing, hk]
  rfl

/-- The findings are about all unexpected nodes. -/
theorem unexpected_findings {n : Node} (hk : n.kind ≠ .unexpected)
    (hn : Green.RegularAll n.children) :
    n.findings.filterMap Finding.unexpected?
      = n.descendants.filter fun d => d.kind == .unexpected := by
  rw [findings, Signal.unexpected?_findings, unexpected_signalsFrom n 0 n.offset false hn,
    descendants, List.filter_cons, if_neg (mt beq_iff_eq.mp hk)]

/-- There are no findings exactly when nothing is missing and nothing is unexpected. -/
theorem findings_eq_nil_iff {n : Node} (hn : Green.RegularAll n.children) :
    n.findings = [] ↔ n.findings.flatMap Finding.covers = [] ∧
      n.findings.filterMap Finding.unexpected? = [] := by
  constructor
  · intro h
    rw [h]
    exact ⟨rfl, rfl⟩
  · rintro ⟨hcovers, hunexpected⟩
    rw [List.flatMap_eq_nil_iff] at hcovers
    rw [List.filterMap_eq_nil_iff] at hunexpected
    rw [List.eq_nil_iff_forall_not_mem]
    intro f hf
    exact Finding.covers_ne_nil ((ordered_findings hn).1 f hf).1 (hunexpected f hf) (hcovers f hf)

end Node

namespace Entry

/-- The trees of texts are regular below the root. This is the only thing that the accounts have to
know of how trees are made. -/
theorem regular_tree (e : Entry) (text : Text) :
    Green.RegularAll (Node.ofGreen (e.tree text)).children := by
  rw [e.tree_eq]
  show Green.RegularAll (e.parts text ++ [.token (endOfFile text)])
  rw [Green.regularAll_iff, List.forall_mem_append, ← Green.regularAll_iff]
  refine ⟨Green.regularAll_of_soundAll (e.parts_spec text).2, ?_⟩
  intro g hg
  rw [List.mem_singleton.mp hg]
  rintro _ ⟨⟩
  exact (endOfFile text).hasRoom_outline

/-- The root of the tree of a text has the kind that the entry gives to it. -/
theorem kind_root (e : Entry) (text : Text) : (Node.ofGreen (e.tree text)).kind = e.root := by
  rw [e.tree_eq]
  rfl

/-- The findings of a text are about everything that is wrong with its tree. -/
theorem pieces_findings (e : Entry) (text : Text) :
    let root := Node.ofGreen (e.tree text)
    root.findings.flatMap Finding.pieces = root.faults := by
  intro root
  have hkind : (root.kind.isMissingNode || root.kind == .unexpected) = false := by
    rw [e.kind_root]
    cases e <;> rfl
  rw [Node.pieces_findings (e.regular_tree text), Node.faults_eq, hkind]
  rfl

end Entry

end SwiftTree
