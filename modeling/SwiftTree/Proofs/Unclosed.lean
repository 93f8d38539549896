import SwiftTree.Proofs.Diagnostics

/-!
# What is not closed is reported one by one

A missing token that would close what an earlier token of its node opens is reported on its own, and
so is the missing colon of a ternary operator. The reports come in the order of the missing tokens:
what is inside comes before what is around it. Each names the token and the nearest construct that
has a name, and a quote is named together with the `#`s that its literal starts with.
-/

namespace SwiftTree

/-! ## What stands out among the missing tokens -/

/-- The length of the raw delimiter that the parts of a string literal start with. -/
def Green.openingPounds : List Green → Nat
  | .leaf (.present t) :: _ => if t.kind = .rawStringDelimiter then t.text.length else 0
  | _ => 0

namespace Leaf

/-- Whether the leaf is a missing token that would close what an earlier token of the node opens. -/
def isUnclosed (l : Leaf) : Bool :=
  !l.isPresent && l.parent.childLeaves.any fun o =>
    o.index < l.index && o.isPresent && l.kind.openingDelimiter == some o.kind

/-- Whether the leaf is the missing colon of a ternary operator. -/
def isTernaryColon (l : Leaf) : Bool :=
  !l.isPresent && l.kind == .colon && l.parent.kind == .ternaryExpr

/-- What would close the construct around the leaf: a token of its kind, and behind a quote as many
`#`s as the literal starts with. -/
def closer (l : Leaf) : Text :=
  (l.kind.fixedText.getD "").toList
    ++ if l.kind.isStringQuote then List.replicate (Green.openingPounds l.parent.children) '#'
      else []

/-- The nearest construct around the leaf that has a name. -/
def construct? (l : Leaf) : Option String := l.parent.ancestors.findSome? Node.constructName?

/-- What there is to say of a missing closing token. -/
def unclosedDiagnostic (l : Leaf) : Diagnostic :=
  .error
    (match l.construct? with
    | some construct => .expectedToEnd (String.ofList l.closer) construct
    | none => .expected (quoteSource (String.ofList l.closer)) none)
    (.empty l.offset)

/-- Whether the leaf is inside the parts that stand before another one. -/
def IsInside (l' l : Leaf) : Prop := ∃ i < l.index, i :: l.parent.path <:+ l'.parent.path

end Leaf

namespace Element

/-- Whether a part that is missing is reported on its own. -/
def standsOut : Element → Bool
  | node _ => false
  | leaf l => l.isUnclosed || l.isTernaryColon

end Element

namespace Node

/-- The leaves among parts of a node are counted on from the first one. -/
theorem le_index_of_mem {n : Node} {l : Leaf} {index offset : Nat} {gs : List Green}
    (h : l ∈ (n.elementsFrom index offset gs).filterMap Element.leaf?) : index ≤ l.index := by
  induction gs generalizing index offset with
  | nil => cases h
  | cons g gs ih =>
    rw [elementsFrom, List.filterMap_cons] at h
    cases g with
    | node kind cs => exact Nat.le_of_succ_le (ih h)
    | leaf g =>
      rcases List.mem_cons.mp h with rfl | h
      · exact Nat.le_refl _
      · exact Nat.le_of_succ_le (ih h)

/-- Whether the opening token is among the parts so far can be seen on the trees. -/
theorem any_elementsFrom (n : Node) (opener : Kind) (index count offset : Nat) (gs : List Green) :
    (((n.elementsFrom index offset gs).filterMap Element.leaf?).any fun o =>
        o.index < index + count && o.isPresent && opener == o.kind)
      = (gs.take count).any fun
        | .leaf (.present t) => t.kind == opener
        | _ => false := by
  induction gs generalizing index count offset with
  | nil =>
    rw [List.take_nil]
    rfl
  | cons g gs ih =>
    cases count with
    | zero =>
      rw [List.take_zero, List.any_nil, List.any_eq_false]
      intro o ho
      have hindex := le_index_of_mem ho
      simp [Nat.not_lt.mpr hindex]
    | succ count =>
      have hrest := ih (index + 1) count (offset + g.byteLen)
      rw [Nat.add_right_comm, Nat.add_assoc] at hrest
      rw [elementsFrom, List.filterMap_cons, List.take_succ_cons, List.any_cons, ← hrest]
      cases g with
      | node kind cs => rfl
      | leaf g =>
        have hlt : decide (index < index + (count + 1)) = true := decide_eq_true (by omega)
        refine congrArg (· || _) ?_
        show (decide (index < index + (count + 1)) && g.isPresent && opener == g.kind) = _
        rw [hlt, Bool.true_and]
        cases g with
        | present t => exact BEq.comm
        | missing kind spelling => rfl

/-- A missing token closes something if an earlier token opens it. -/
theorem closesOpener_eq (n : Node) (index : Nat) (kind : Kind) :
    n.closesOpener index kind = n.childLeaves.any fun o =>
      o.index < index && o.isPresent && kind.openingDelimiter == some o.kind := by
  unfold closesOpener
  cases kind.openingDelimiter with
  | none => simp
  | some opener =>
    have hany := any_elementsFrom n opener 0 index n.offset n.children
    rw [Nat.zero_add] at hany
    exact hany.symm

/-- A missing token is unclosed just if its node closes an opener in this place. -/
theorem isUnclosed_missing (n : Node) (index offset : Nat) (kind : Kind) (spelling : Text) :
    Leaf.isUnclosed ⟨n, index, offset, .missing kind spelling⟩ = n.closesOpener index kind := by
  rw [closesOpener_eq]
  rfl

end Node

/-! ## What is reported together does not stand out -/

namespace Green

/-- A ternary operator has its question mark. -/
theorem hasPresentOf_of_ternaryExpr {cs : List Green} (h : (Kind.shape .ternaryExpr).Matches cs) :
    hasPresentOf cs := by
  cases h with
  | seq _ hrest =>
    cases hrest with
    | seq hmark _ =>
      obtain ⟨t, rfl, -⟩ := hmark.exists_token
      exact hasPresentOf_of_mem (t := t) (by simp)

end Green

namespace Node

/-- Nothing closes what was not read. -/
theorem closesOpener_of_not_hasPresent {n : Node} (h : Green.hasPresentOf n.children = false)
    (index : Nat) (kind : Kind) : n.closesOpener index kind = false := by
  unfold closesOpener
  rw [Option.any_eq_false]
  intro opener _
  rw [List.any_eq_false]
  intro g hg
  split
  · rename_i t
    rw [Green.hasPresentOf_of_mem (List.mem_of_mem_take hg)] at h
    cases h
  · exact Bool.false_ne_true

mutual

/-- Where nothing was read, nothing stands out. -/
theorem standsOut_of_mem_missingIn {n : Node} {x : Element} {index offset : Nat} :
    {g : Green} → g.isNode → g.Proper → g.hasPresent = false → x ∈ n.missingIn index offset g →
      x.standsOut = false
  | .node kind cs, _, hg, hnone, hx => by
    have hkind : kind ≠ .ternaryExpr := by
      rintro rfl
      have hread := Green.hasPresentOf_of_ternaryExpr hg.1.shape
      rw [← Green.hasPresent, hnone] at hread
      cases hread
    rw [missingIn] at hx
    have hinside (hx : x ∈ missingFrom ⟨kind, cs, offset, n.step index⟩ 0 offset cs) :=
      standsOut_of_mem_missingFrom (n := ⟨kind, cs, offset, n.step index⟩) hkind hnone hg.2 hnone hx
    split at hx
    · rcases List.mem_cons.mp hx with rfl | hx
      · rfl
      · exact hinside hx
    · exact hinside hx

/-- Where nothing of a node was read, nothing that is missing in it stands out: no opener was read
that it could close. A ternary operator is different, as its colon stands out without an opener. -/
theorem standsOut_of_mem_missingFrom {n : Node} {x : Element} {index offset : Nat}
    (hkind : n.kind ≠ .ternaryExpr) (hn : Green.hasPresentOf n.children = false) :
    {gs : List Green} → Green.ProperAll gs → Green.hasPresentOf gs = false →
      x ∈ n.missingFrom index offset gs → x.standsOut = false
  | [], _, _, hx => absurd hx List.not_mem_nil
  | .node kind cs :: gs, hgs, hnone, hx => by
    rw [Green.hasPresentOf, Bool.or_eq_false_iff] at hnone
    rcases List.mem_append.mp hx with hx | hx
    · exact standsOut_of_mem_missingIn rfl hgs.1 hnone.1 hx
    · exact standsOut_of_mem_missingFrom hkind hn hgs.2 hnone.2 hx
  | .leaf (.missing kind spelling) :: gs, hgs, hnone, hx => by
    rcases List.mem_append.mp hx with hx | hx
    · rw [List.mem_singleton.mp hx, Element.standsOut, isUnclosed_missing,
        closesOpener_of_not_hasPresent hn, Bool.false_or, Leaf.isTernaryColon,
        beq_false_of_ne hkind, Bool.and_false]
    · exact standsOut_of_mem_missingFrom hkind hn hgs.2 hnone hx

end

end Node

/-- Whether a missing closing token is a part of a proper node, and a raw delimiter that is missing
behind it goes with it. -/
structure Leaf.StandsWith (l : Leaf) (delimiter : Option Leaf) : Prop where
  unclosed : l.isUnclosed
  proper : l.parent.green.Proper
  behind : ∃ gs, l.parent.children.drop l.index = .leaf l.green :: gs ∧
    delimiter = l.parent.missingDelimiter (l.index + 1) l.offset gs

/-- Whether a finding that is about several parts has none among them that stands out, and a finding
about one that does says what it is. -/
def Finding.SetsApart : Finding → Prop
  | unexpected _ => True
  | expected m => ∀ x ∈ m.parts.flatMap Element.missing, x.standsOut = false
  | ternaryColon l => l.isTernaryColon
  | unclosed l d => l.StandsWith d

/-- The same of what a signal is about. -/
def Signal.SetsApart : Signal → Prop
  | token => True
  | found f => f.SetsApart
  | missed e => ∀ x ∈ e.missing, x.standsOut = false

namespace Node

theorem drop_succ_of_drop {n : Node} {index : Nat} {g : Green} {gs : List Green}
    (h : n.children.drop index = g :: gs) : n.children.drop (index + 1) = gs := by
  rw [← List.tail_drop, h, List.tail_cons]

mutual

/-- The signals of a tree set apart what stands out in it. -/
theorem setsApart_of_mem_signalsIn {n : Node} {index offset : Nat} {s : Signal} :
    {g : Green} → g.Proper → g.Regular → s ∈ n.signalsIn index offset g → s.SetsApart
  | .node kind cs, hg, hregular, hs => by
    rw [signalsIn] at hs
    split at hs
    · obtain rfl := List.mem_singleton.mp hs
      trivial
    · split at hs
      · rename_i hitem
        obtain rfl := List.mem_singleton.mp hs
        have hnone := not_hasPresent_of_missingItem (n := ⟨kind, cs, offset, n.step index⟩)
          hregular hitem
        exact fun x (hx : x ∈ n.missingIn index offset _) =>
          standsOut_of_mem_missingIn rfl hg hnone hx
      · have hinside (hs : s ∈ signalsFrom ⟨kind, cs, offset, n.step index⟩ 0 offset false cs) :=
          setsApart_of_mem_signalsFrom (n := ⟨kind, cs, offset, n.step index⟩) hg hg.2 hregular.2.2
            List.drop_zero hs
        dsimp only at hs
        split at hs
        · rcases List.mem_cons.mp hs with rfl | hs
          · trivial
          · exact hinside hs
        · exact hinside hs
  | .leaf _, _, _, hs => absurd hs List.not_mem_nil

/-- The signals among the parts of a node set apart what stands out. -/
theorem setsApart_of_mem_signalsFrom {n : Node} {index offset : Nat} {quoted : Bool} {s : Signal}
    (hn : n.green.Proper) : {gs : List Green} → Green.ProperAll gs → Green.RegularAll gs →
      n.children.drop index = gs → s ∈ n.signalsFrom index offset quoted gs → s.SetsApart
  | [], _, _, _, hs => by
    rw [signalsFrom] at hs
    cases hs
  | .node kind cs :: gs, hgs, hregular, hdrop, hs => by
    rw [signalsFrom] at hs
    rcases List.mem_append.mp hs with hs | hs
    · exact setsApart_of_mem_signalsIn hgs.1 hregular.1 hs
    · exact setsApart_of_mem_signalsFrom hn hgs.2 hregular.2 (drop_succ_of_drop hdrop) hs
  | .leaf (.present t) :: gs, hgs, hregular, hdrop, hs => by
    rw [signalsFrom] at hs
    rcases List.mem_cons.mp hs with rfl | hs
    · trivial
    · exact setsApart_of_mem_signalsFrom hn hgs.2 hregular.2 (drop_succ_of_drop hdrop) hs
  | .leaf (.missing kind spelling) :: gs, hgs, hregular, hdrop, hs => by
    have hrest {quoted : Bool} (hs : s ∈ n.signalsFrom (index + 1) offset quoted gs) :=
      setsApart_of_mem_signalsFrom hn hgs.2 hregular.2 (drop_succ_of_drop hdrop) hs
    have hunclosed := n.isUnclosed_missing index offset kind spelling
    rw [signalsFrom] at hs
    split at hs
    · exact hrest hs
    · split at hs
      · rename_i hcolon
        rcases List.mem_cons.mp hs with rfl | hs
        · exact hcolon
        · exact hrest hs
      · split at hs
        · rename_i hcloses
          rcases List.mem_cons.mp hs with rfl | hs
          · exact ⟨hunclosed.trans hcloses, hn, gs, hdrop, rfl⟩
          · exact hrest hs
        · rename_i hcolon hcloses
          rcases List.mem_cons.mp hs with rfl | hs
          · intro x hx
            rw [List.mem_singleton.mp hx, Element.standsOut, hunclosed, Bool.or_eq_false_iff]
            exact ⟨Bool.eq_false_iff.mpr hcloses, Bool.eq_false_iff.mpr hcolon⟩
          · exact hrest hs

end

end Node

namespace Signal

/-- Findings set apart what the signals set apart. -/
theorem setsApart_findings {pending : Option MissingRun} {ss : List Signal}
    (hss : ∀ s ∈ ss, s.SetsApart) (hpending : ∀ m ∈ pending, (Finding.expected m).SetsApart) :
    ∀ f ∈ findings pending ss, f.SetsApart := by
  have hclosing {pending : Option MissingRun} (h : ∀ m ∈ pending, (Finding.expected m).SetsApart) :
      ∀ f ∈ closing pending, f.SetsApart := by
    intro f hf
    cases pending with
    | none => cases hf
    | some m =>
      rw [List.mem_singleton.mp hf]
      exact h m rfl
  have hnone : ∀ m ∈ (none : Option MissingRun), (Finding.expected m).SetsApart :=
    fun m hm => absurd hm (Option.not_mem_none m)
  -- by induction on the signals: what is pending sets apart what its parts do
  induction ss generalizing pending with
  | nil => exact hclosing hpending
  | cons s ss ih =>
    rw [List.forall_mem_cons] at hss
    obtain ⟨hs, hss⟩ := hss
    have hrest := ih hss hnone
    cases s with
    | token =>
      rw [findings, List.forall_mem_append]
      exact ⟨hclosing hpending, hrest⟩
    | found f =>
      rw [findings, List.forall_mem_append, List.forall_mem_cons]
      exact ⟨hclosing hpending, hs, hrest⟩
    | missed e =>
      have hsingle : ∀ m ∈ some (MissingRun.mk e []), (Finding.expected m).SetsApart := by
        rintro _ ⟨⟩
        rw [Finding.SetsApart, MissingRun.parts, List.flatMap_singleton]
        exact hs
      cases pending with
      | none => exact ih hss hsingle
      | some m =>
        have hm := hpending m rfl
        rw [findings]
        split
        · refine ih hss ?_
          rintro _ ⟨⟩
          rw [Finding.SetsApart, MissingRun.parts_push, List.flatMap_append, List.flatMap_singleton,
            List.forall_mem_append]
          exact ⟨hm, hs⟩
        · rw [List.forall_mem_cons]
          exact ⟨hm, ih hss hsingle⟩

end Signal

/-- Findings of a tree set apart what stands out in it. -/
theorem Node.setsApart_findings {n : Node} (hn : n.green.Proper)
    (hregular : Green.RegularAll n.children) : ∀ f ∈ n.findings, f.SetsApart :=
  Signal.setsApart_findings
    (fun _ hs => setsApart_of_mem_signalsFrom hn hn.2 hregular List.drop_zero hs)
    fun m hm => absurd hm (Option.not_mem_none m)

namespace Finding

/-- The closing token that a finding is about. -/
def closer? : Finding → Option Leaf
  | unclosed l _ => some l
  | _ => none

/-- The colon that a finding is about. -/
def colon? : Finding → Option Leaf
  | ternaryColon l => some l
  | _ => none

/-- What stands out among the parts of a finding. -/
def outstanding : Finding → List Element
  | unclosed l _ | ternaryColon l => [.leaf l]
  | unexpected _ | expected _ => []

end Finding

namespace Leaf

/-- What would close something has an opening counterpart. -/
theorem isSome_openingDelimiter {l : Leaf} (h : l.isUnclosed) :
    l.kind.openingDelimiter.isSome := by
  rw [isUnclosed, Bool.and_eq_true, List.any_eq_true] at h
  obtain ⟨-, o, -, ho⟩ := h
  rw [Bool.and_eq_true, beq_iff_eq] at ho
  rw [ho.2]
  rfl

/-- The colon of a ternary operator closes no construct. -/
theorem not_isTernaryColon_of_isUnclosed {l : Leaf} (h : l.isUnclosed) :
    l.isTernaryColon = false := by
  have hopener := isSome_openingDelimiter h
  rw [← Bool.not_eq_true]
  intro hcolon
  rw [isTernaryColon, Bool.and_eq_true, Bool.and_eq_true, beq_iff_eq, beq_iff_eq] at hcolon
  rw [hcolon.1.2] at hopener
  cases hopener

/-- A raw delimiter does not stand out. -/
theorem not_standsOut_of_kind {l : Leaf} (h : l.kind = .rawStringDelimiter) :
    (Element.leaf l).standsOut = false := by
  have hunclosed : l.isUnclosed = false := by
    rw [← Bool.not_eq_true]
    intro hunclosed
    have hopener := isSome_openingDelimiter hunclosed
    rw [h] at hopener
    cases hopener
  rw [Element.standsOut, hunclosed, isTernaryColon, h, Bool.false_or]
  simp

end Leaf

namespace Finding

/-- What stands out among the parts of a finding is what the finding is about. -/
theorem filter_standsOut {f : Finding} (hf : f.Fits) (h : f.SetsApart) :
    f.pieces.filter Element.standsOut = f.outstanding := by
  cases f with
  | unexpected n => rfl
  | expected m =>
    rw [pieces, outstanding, List.filter_eq_nil_iff]
    exact fun x hx => Bool.eq_false_iff.mp (h x hx)
  | ternaryColon l =>
    have hl : (Element.leaf l).standsOut := by
      rw [Element.standsOut, h, Bool.or_true]
    exact List.filter_cons_of_pos hl
  | unclosed l d =>
    have hl : (Element.leaf l).standsOut := by
      rw [Element.standsOut, h.unclosed, Bool.true_or]
    rw [pieces, outstanding, List.filter_cons_of_pos hl, List.cons.injEq, List.filter_eq_nil_iff]
    refine ⟨rfl, fun x hx => ?_⟩
    obtain ⟨q, hq, rfl⟩ := List.mem_map.mp hx
    have hkind := (hf.2.2 q (Option.mem_toList.mp hq)).2.1
    rw [Leaf.not_standsOut_of_kind hkind]
    exact Bool.false_ne_true

/-- The leaves among the parts of a finding that pass a test, if only what stands out does. -/
theorem filter_leaves {f : Finding} (hf : f.Fits) (h : f.SetsApart) {q : Leaf → Bool}
    (hq : ∀ l, q l → (Element.leaf l).standsOut) :
    (f.pieces.filterMap Element.leaf?).filter q
      = (f.outstanding.filterMap Element.leaf?).filter q := by
  rw [← filter_standsOut hf h]
  induction f.pieces with
  | nil => rfl
  | cons x xs ih =>
    cases x with
    | node n => exact ih
    | leaf l =>
      by_cases hl : q l
      · rw [List.filter_cons_of_pos (hq l hl)]
        simpa [Element.leaf?, hl] using ih
      · rw [List.filter_cons]
        split <;> simpa [Element.leaf?, hl] using ih

end Finding

/-- A finding about something else is not about what stands out. -/
theorem Finding.standsOut_of_mem {f : Finding} (hf : f.Fits) (h : f.SetsApart)
    (hcloser : f.closer? = none) (hcolon : f.colon? = none) {x : Element} (hx : x ∈ f.pieces) :
    x.standsOut = false := by
  have hnone : f.pieces.filter Element.standsOut = [] := by
    rw [filter_standsOut hf h]
    cases f with
    | unexpected n => rfl
    | expected m => rfl
    | ternaryColon l => cases hcolon
    | unclosed l d => cases hcloser
  exact Bool.eq_false_iff.mpr (List.filter_eq_nil_iff.mp hnone x hx)

namespace Node

/-- Leaves that pass a test, if only what stands out does, are found in their order. -/
theorem filter_leaves_eq {n : Node} (hn : n.green.Proper) (hregular : Green.RegularAll n.children)
    (hfaults : n.findings.flatMap Finding.pieces = n.faults) {q : Leaf → Bool}
    {found? : Finding → Option Leaf} (hq : ∀ l, q l → (Element.leaf l).standsOut)
    (hfound : ∀ f : Finding, f.SetsApart →
      (f.outstanding.filterMap Element.leaf?).filter q = (found? f).toList) :
    n.findings.filterMap found? = n.leaves.filter q := by
  have hmissing : (n.leaves.filter fun l => !l.isPresent).filter q = n.leaves.filter q := by
    rw [List.filter_filter]
    refine List.filter_congr fun l _ => ?_
    cases hl : q l with
    | false => rfl
    | true =>
      have hout := hq l hl
      rw [Element.standsOut, Leaf.isUnclosed, Leaf.isTernaryColon, Bool.or_eq_true] at hout
      cases hpresent : l.isPresent with
      | false => rfl
      | true => simp [hpresent] at hout
  rw [← hmissing, ← n.leaves_faults, ← hfaults, List.filterMap_flatMap, List.filter_flatMap,
    List.filterMap_eq_flatMap_toList]
  refine List.flatMap_congr fun f hf => ?_
  have hsets := setsApart_findings hn hregular f hf
  rw [Finding.filter_leaves ((ordered_findings hregular).1 f hf).1 hsets hq, hfound f hsets]

/-- Of the closing tokens among what stands out of a finding, only the one that it is about is
left. -/
theorem filter_isUnclosed {f : Finding} (h : f.SetsApart) :
    (f.outstanding.filterMap Element.leaf?).filter Leaf.isUnclosed = f.closer?.toList := by
  cases f with
  | unexpected n => rfl
  | expected m => rfl
  | unclosed l d => exact List.filter_cons_of_pos h.unclosed
  | ternaryColon l =>
    refine List.filter_cons_of_neg fun hl => ?_
    have hcolon := Leaf.not_isTernaryColon_of_isUnclosed hl
    rw [show l.isTernaryColon from h] at hcolon
    cases hcolon

/-- Of the colons among what stands out of a finding, only the one that it is about is left. -/
theorem filter_isTernaryColon {f : Finding} (h : f.SetsApart) :
    (f.outstanding.filterMap Element.leaf?).filter Leaf.isTernaryColon = f.colon?.toList := by
  cases f with
  | unexpected n => rfl
  | expected m => rfl
  | ternaryColon l => exact List.filter_cons_of_pos h
  | unclosed l d =>
    refine List.filter_cons_of_neg ?_
    rw [Leaf.not_isTernaryColon_of_isUnclosed h.unclosed]
    exact Bool.false_ne_true

end Node

/-! ## How a closing token is named -/

namespace Shape

/-- Whether a token of a kind is never missing in a shape. -/
def spares (k : Kind) : Shape → Bool
  | nothing | token _ | node _ => true
  | missing kinds => !kinds k
  | seq a b | alt a b => a.spares k && b.spares k
  | many a => a.spares k

namespace Matches

variable {a : Shape} {xs : List Green} {k : Kind} {spelling : Text}

/-- A missing part of a shape lacks the spelling of its kind, if this prescribes one. -/
theorem lacks (h : a.Matches xs) (hmem : .leaf (.missing k spelling) ∈ xs) : k.Lacks spelling := by
  induction h with
  | nothing => cases hmem
  | token => cases List.mem_singleton.mp hmem
  | missing _ hs =>
    cases List.mem_singleton.mp hmem
    exact hs
  | node => cases List.mem_singleton.mp hmem
  | seq _ _ ihx ihy => exact (List.mem_append.mp hmem).elim ihx ihy
  | left _ ih => exact ih hmem
  | right _ ih => exact ih hmem
  | none => cases hmem
  | more _ _ ihx ihy => exact (List.mem_append.mp hmem).elim ihx ihy

/-- A token that a shape spares is never missing in it. -/
theorem not_mem_of_spares (h : a.Matches xs) (hspares : a.spares k) :
    .leaf (.missing k spelling) ∉ xs := by
  induction h with
  | nothing => exact List.not_mem_nil
  | token => simp
  | @missing kinds kind _ hkind =>
    intro hmem
    cases List.mem_singleton.mp hmem
    rw [spares, hkind] at hspares
    cases hspares
  | node => simp
  | seq _ _ ihx ihy =>
    obtain ⟨ha, hb⟩ := (Bool.and_eq_true _ _).mp hspares
    rw [List.mem_append]
    exact fun hmem => hmem.elim (ihx ha) (ihy hb)
  | more _ _ ihx ihy =>
    rw [List.mem_append]
    exact fun hmem => hmem.elim (ihx hspares) (ihy hspares)
  | left _ ih => exact ih ((Bool.and_eq_true _ _).mp hspares).1
  | right _ ih => exact ih ((Bool.and_eq_true _ _).mp hspares).2
  | none => exact List.not_mem_nil

end Matches

end Shape

/-- Quotes and raw delimiters are only missing in string literals. -/
theorem Kind.spares_shape {kind k : Kind} (hkind : kind ≠ .stringLiteralExpr)
    (hk : k ∈ [Kind.stringQuote, .multilineStringQuote, .singleQuote, .rawStringDelimiter]) :
    kind.shape.spares k := by
  have hall : ∀ j ∈ [Kind.stringQuote, .multilineStringQuote, .singleQuote, .rawStringDelimiter],
      kind.shape.spares j := by
    cases kind
    case stringLiteralExpr => exact absurd rfl hkind
    all_goals decide
  exact hall k hk

/-- Only quotes and raw delimiters are missing in string literals. -/
theorem Kind.isStringQuote_of_missing {k : Kind} {spelling : Text} {cs : List Green}
    (h : (Kind.shape .stringLiteralExpr).Matches cs) (hmem : .leaf (.missing k spelling) ∈ cs)
    (hk : k ≠ .rawStringDelimiter) : k.isStringQuote := by
  have hpounds : (k == .rawStringDelimiter) = false := beq_false_of_ne hk
  have hspares : (Kind.shape .stringLiteralExpr).spares k = !k.isStringQuote := by
    have hshape : (Kind.shape .stringLiteralExpr).spares k
        = (!k.isStringQuote && ((!(k == .rawStringDelimiter) && true)
          && (!k.isStringQuote && (!(k == .rawStringDelimiter) && true)))) := rfl
    rw [hshape, hpounds]
    cases k.isStringQuote <;> rfl
  rw [← Bool.not_eq_false, ← Bool.not_eq_true', ← hspares]
  exact fun hnone => h.not_mem_of_spares hnone hmem

/-- A quote closes what a quote of its kind opens. -/
theorem Kind.mem_of_isStringQuote {k : Kind} (h : k.isStringQuote) :
    k.openingDelimiter = some k ∧
      k ∈ [Kind.stringQuote, .multilineStringQuote, .singleQuote, .rawStringDelimiter] := by
  unfold Kind.isStringQuote at h
  split at h
  · exact ⟨rfl, by simp⟩
  · exact ⟨rfl, by simp⟩
  · exact ⟨rfl, by simp⟩
  · cases h

/-- The `#`s that are missing behind a quote that would close a literal. -/
theorem Green.Delimited.missingPounds_eq {cs gs : List Green} {index : Nat} {k : Kind}
    {spelling : Text} {t : Token.Outline} (h : Delimited cs) (hk : k.isStringQuote)
    (hdrop : cs.drop index = .leaf (.missing k spelling) :: gs)
    (ht : .leaf (.present t) ∈ cs.take index) (hkind : t.kind = k) :
    Node.missingPounds gs = List.replicate (openingPounds cs) '#' := by
  cases h with
  | @quoted opening closing segments hquote _ =>
    -- the closing quote is the only leaf behind another one
    rcases index with _ | _ | _ | index
    · cases ht
    · cases hdrop
    · obtain ⟨-, rfl⟩ := List.cons.inj hdrop
      cases opening with
      | missing => rfl
      | present u =>
        have hu : u.kind ≠ .rawStringDelimiter := by
          rintro hraw
          rw [Green.Leaf.kind, hraw] at hquote
          cases hquote
        rw [openingPounds, if_neg hu]
        rfl
    · rw [List.drop_eq_nil_of_le (by simp)] at hdrop
      cases hdrop
  | @raw pounds opening closing delimiter segments hpounds _ _ hdelimiter hmissing =>
    rcases index with _ | _ | _ | _ | _ | index
    · cases ht
    · obtain rfl : t = pounds := by simpa using ht
      rw [hpounds] at hkind
      rw [← hkind] at hk
      cases hk
    · cases hdrop
    · obtain ⟨hclosing, rfl⟩ := List.cons.inj hdrop
      obtain rfl : closing = .missing k spelling := by simpa using hclosing
      rw [hmissing rfl, openingPounds, if_pos hpounds]
      rfl
    · obtain ⟨hclosing, -⟩ := List.cons.inj hdrop
      obtain rfl : delimiter = .missing k spelling := by simpa using hclosing
      rw [show k = .rawStringDelimiter from hdelimiter] at hk
      cases hk
    · rw [List.drop_eq_nil_of_le (by simp)] at hdrop
      cases hdrop

namespace Leaf

/-- What would close something has a token that opens it in front of it. -/
theorem exists_opener {n : Node} {index : Nat} {kind : Kind} (h : n.closesOpener index kind) :
    ∃ t : Token.Outline, kind.openingDelimiter = some t.kind ∧
      .leaf (.present t) ∈ n.children.take index := by
  unfold Node.closesOpener at h
  obtain ⟨opener, hopener, hany⟩ := (Option.any_eq_true ..).mp h
  obtain ⟨g, hg, hkind⟩ := List.any_eq_true.mp hany
  split at hkind
  · rename_i t
    exact ⟨t, by rw [hopener, beq_iff_eq.mp hkind], hg⟩
  · cases hkind

/-- A missing closing token is named with the raw delimiter that goes with it. -/
theorem StandsWith.closerText_eq {l : Leaf} {d : Option Leaf} (h : l.StandsWith d) :
    Finding.closerText l d = l.closer := by
  obtain ⟨n, index, offset, g⟩ := l
  obtain ⟨hunclosed, hproper, gs, hdrop, rfl⟩ := h
  cases g with
  | present t => cases hunclosed
  | missing kind spelling =>
    have hshape : n.kind.shape.Matches n.children := hproper.1.shape
    have hsuffix : .leaf (.missing kind spelling) :: gs <:+ n.children :=
      hdrop ▸ List.drop_suffix ..
    have hmem : .leaf (.missing kind spelling) ∈ n.children := hsuffix.subset List.mem_cons_self
    have hcloses : n.closesOpener index kind :=
      (n.isUnclosed_missing index offset kind spelling).symm.trans hunclosed
    obtain ⟨t, hopener, ht⟩ := exists_opener hcloses
    have hraw : kind ≠ .rawStringDelimiter := by
      rintro rfl
      cases hopener
    have hspelling : spelling = (kind.fixedText.getD "").toList :=
      (hshape.lacks hmem).resolve_left hraw
    show spelling ++ _ = _
    rw [← n.missingPounds_eq (index + 1) offset gs, hspelling]
    refine congrArg (_ ++ ·) ?_
    -- only in a literal number signs can be missing behind a closing token, its quote
    by_cases hliteral : n.kind = .stringLiteralExpr
    · rw [hliteral] at hshape
      have hquote := Kind.isStringQuote_of_missing hshape hmem hraw
      have hkind : t.kind = kind := by
        rw [(Kind.mem_of_isStringQuote hquote).1] at hopener
        exact (Option.some.inj hopener).symm
      rw [(hproper.1.delimited hliteral).missingPounds_eq hquote hdrop ht hkind]
      exact (if_pos hquote).symm
    · have hquote : kind.isStringQuote = false := by
        rw [← Bool.not_eq_true]
        intro hquote
        have hspares := Kind.spares_shape hliteral (Kind.mem_of_isStringQuote hquote).2
        exact hshape.not_mem_of_spares hspares hmem
      have hnone (spelling : Text) : .leaf (.missing .rawStringDelimiter spelling) ∉ gs := by
        intro hgs
        have hspares : n.kind.shape.spares .rawStringDelimiter :=
          Kind.spares_shape hliteral (by simp)
        exact hshape.not_mem_of_spares hspares (hsuffix.subset (List.mem_cons_of_mem _ hgs))
      show _ = if kind.isStringQuote then _ else _
      rw [hquote, if_neg Bool.false_ne_true, Node.missingPounds]
      rintro spelling rest rfl
      exact hnone spelling List.mem_cons_self

end Leaf

/-- A missing closing token is reported as there is to say of it. -/
theorem Finding.diagnostic_unclosed {l : Leaf} {d : Option Leaf}
    (h : (Finding.unclosed l d).SetsApart) :
    (Finding.unclosed l d).diagnostic = l.unclosedDiagnostic := by
  have hcloser : closerText l d = l.closer := Leaf.StandsWith.closerText_eq h
  rw [diagnostic, hcloser]
  rfl

/-! ## What is inside comes first -/

/-- Whether a part is a leaf inside what another leaf stands behind. -/
def Element.IsInside : Element → Element → Prop
  | leaf l', leaf l => l'.IsInside l
  | _, _ => False

namespace Node

/-- What is missing in a part is not inside of what is missing in an earlier part. -/
theorem not_isInside {n : Node} {x y : Element} {i j : Nat} (hij : i < j)
    (hx : i :: n.path <:+ x.path) (hy : j :: n.path <:+ y.path) : ¬y.IsInside x := by
  intro h
  cases x with
  | node d => cases y <;> exact h
  | leaf l =>
    cases y with
    | node d => exact h
    | leaf l' =>
      obtain ⟨k, hk, hsuffix⟩ := h
      have hinside : k :: l.parent.path <:+ (Element.leaf l').path :=
        hsuffix.trans (List.suffix_cons _ _)
      rcases List.suffix_cons_iff.mp hx with heq | hdeep
      · -- the first leaf is a part of `n` itself, so the way to the second one takes a later part
        obtain ⟨rfl, hpath⟩ := List.cons.inj heq
        rw [← hpath] at hinside
        have hkj := eq_of_suffix hinside hy
        omega
      · have hij' := eq_of_suffix ((hdeep.trans (List.suffix_cons _ _)).trans hinside) hy
        omega

mutual

/-- In the listing of what is missing in a tree, what is inside a construct comes before what is
missing behind it. -/
theorem pairwise_missingIn (n : Node) (index offset : Nat) : (g : Green) →
    (n.missingIn index offset g).Pairwise fun x y => ¬y.IsInside x
  | .node kind cs => by
    have hinside := pairwise_missingFrom ⟨kind, cs, offset, n.step index⟩ 0 offset cs
    rw [missingIn]
    split
    · refine List.pairwise_cons.mpr ⟨fun y _ => ?_, hinside⟩
      cases y <;> exact not_false
    · exact hinside
  | .leaf (.present _) => List.Pairwise.nil
  | .leaf (.missing _ _) => List.pairwise_singleton _ _

/-- The same of what is missing among several parts. -/
theorem pairwise_missingFrom (n : Node) (index offset : Nat) : (gs : List Green) →
    (n.missingFrom index offset gs).Pairwise fun x y => ¬y.IsInside x
  | [] => List.Pairwise.nil
  | g :: gs => by
    refine List.pairwise_append.mpr ⟨pairwise_missingIn n index offset g,
      pairwise_missingFrom n _ _ gs, fun x hx y hy => ?_⟩
    obtain ⟨j, hj, hsuffix⟩ := suffix_path_of_mem_missingFrom hy
    exact not_isInside hj (suffix_path_of_mem_missingIn hx) hsuffix

end

/-- Among the tokens that are missing, none is inside of what an earlier one stands behind. -/
theorem pairwise_missing_leaves (n : Node) :
    (n.leaves.filter fun l => !l.isPresent).Pairwise fun l l' => ¬l'.IsInside l := by
  have hmissing : n.missing.Pairwise fun x y => ¬y.IsInside x := by
    have hinside := n.pairwise_missingFrom 0 n.offset n.children
    rw [missing]
    split
    · refine List.pairwise_cons.mpr ⟨fun y _ => ?_, hinside⟩
      cases y <;> exact not_false
    · exact hinside
  rw [← leaves_missing]
  refine List.Pairwise.filterMap _ ?_ hmissing
  rintro (d | l) (d' | l') h
  all_goals simp [Element.leaf?]
  exact h

end Node

/-- **What is not closed is reported one by one.** The missing tokens that would close what an
earlier token of their node opens, in the order in which they are missing, are those that some
findings are about; each of these is reported as not closed, with the nearest construct that has a
name, and a quote with the `#`s that its literal starts with. The same holds of the missing colons
of ternary operators. None of them is reported together with anything else, but for the raw
delimiter behind a quote. What is inside a construct is reported before the construct. -/
theorem Parse.unclosed_reported (e : Entry) (text : Text) :
    let p := Parse.ofText e text
    let unclosed := p.root.leaves.filter Leaf.isUnclosed
    (unclosed.Pairwise fun l l' => ¬l'.IsInside l) ∧
    ∃ findings : List Finding,
      p.diagnostics = findings.map Finding.diagnostic ∧
      findings.filterMap Finding.closer? = unclosed ∧
      findings.filterMap Finding.colon? = p.root.leaves.filter Leaf.isTernaryColon ∧
      ∀ f ∈ findings,
        (∀ l d, f = .unclosed l d → f.diagnostic = l.unclosedDiagnostic ∧
          f.pieces = .leaf l :: d.toList.map .leaf ∧ ∀ q ∈ d, q.kind = .rawStringDelimiter ∧
            q.parent = l.parent ∧ q.index = l.index + 1) ∧
        (∀ l, f = .ternaryColon l → f.pieces = [.leaf l] ∧
          f.diagnostic = .error .expectedTernaryColon (.empty l.offset)) ∧
        (f.closer? = none → f.colon? = none → ∀ l, .leaf l ∈ f.pieces →
          l.isUnclosed = false ∧ l.isTernaryColon = false) := by
  intro p unclosed
  have hregular : Green.RegularAll p.root.children := e.regular_tree text
  have hproper : p.root.green.Proper := Entry.proper_of_mem_descendants List.mem_cons_self
  have hfaults : p.root.findings.flatMap Finding.pieces = p.root.faults := e.pieces_findings text
  have hordered := Node.ordered_findings hregular
  refine ⟨?_, p.root.findings, e.diagnostics_eq text, ?_, ?_, fun f hf => ?_⟩
  · -- what is not closed is missing, and what is missing comes from the inside out
    have hmissing : unclosed =
      (p.root.leaves.filter fun l => !l.isPresent).filter Leaf.isUnclosed := by
      rw [List.filter_filter]
      refine List.filter_congr fun l _ => ?_
      rw [Leaf.isUnclosed]
      cases l.isPresent <;> simp
    rw [hmissing]
    exact p.root.pairwise_missing_leaves.filter _
  · exact Node.filter_leaves_eq hproper hregular hfaults
      (fun l hl => by rw [Element.standsOut, hl, Bool.true_or]) fun _ h => Node.filter_isUnclosed h
  · exact Node.filter_leaves_eq hproper hregular hfaults
      (fun l hl => by rw [Element.standsOut, hl, Bool.or_true]) fun _ h =>
        Node.filter_isTernaryColon h
  · have hfits := (hordered.1 f hf).1
    have hsets := Node.setsApart_findings hproper hregular f hf
    refine ⟨?_, ?_, fun hcloser hcolon l hl => ?_⟩
    · rintro l d rfl
      refine ⟨Finding.diagnostic_unclosed hsets, rfl, fun q hq => (hfits.2.2 q hq).2⟩
    · rintro l rfl
      exact ⟨rfl, rfl⟩
    · exact Bool.or_eq_false_iff.mp (Finding.standsOut_of_mem hfits hsets hcloser hcolon hl)

end SwiftTree
