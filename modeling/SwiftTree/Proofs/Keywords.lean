import SwiftTree.Proofs.Accounting
import SwiftTree.Proofs.Entries
import SwiftTree.Proofs.ListViews

/-!
# Keywords behind attributes

Whether a declaration or a case starts at attributes, the look ahead past them decides. It counts
parentheses alone, where the rule for the arguments of an attribute skips groups of all brackets. If
the parentheses of the attributes belong together, as far as parentheses go, then the two come to
the same token, and the keyword that was seen is the next one that the rule takes
(`attributes_agree`).

In `@a([) var x = 1` the first closing parenthesis closes a bracket for the rule, and the argument
for the look ahead. So the variable that was seen has no keyword (`Entry.attributes_miss_keyword`).
-/

namespace SwiftTree

open Grammar

namespace Grammar

open Grammar.Parser

/-- A rule that has to move on has one outcome, which is as wanted. -/
theorem Parser.Takes.exists_yields {p : Parser Unit} {test : Ahead → Prop} {ts : Ahead}
    {before : Forest}
    {post : Unit → State Forest → Prop} (h : p.Takes test Goal.top) (hts : test ts)
    (hpost : p.yields ⟨ts, before⟩ post) :
    ∃ t, p.run (.ofLimit (callLimit ts.left)) ⟨ts, before⟩ = some ((), t) ∧
      p.Ends ⟨ts, before⟩ () t ∧ post () t := by
  obtain ⟨⟨⟩, t, hrun, hends⟩ := h.steady.exists_ends ts hts before
  exact ⟨t, hrun, hends, (Parser.sound_of_yields (Env.honest_ofLimit _) hrun hpost).1⟩

end Grammar

namespace Node

/-- The leaves among the parts of a node are its own leaves. -/
theorem exists_mem_childLeaves {n : Node} {l : Green.Leaf} (h : .leaf l ∈ n.children) :
    ∃ m ∈ n.childLeaves, m.green = l := by
  rw [← n.green_elements] at h
  obtain ⟨part, hpart, hgreen⟩ := List.mem_map.mp h
  cases part with
  | node d => cases hgreen
  | leaf m => exact ⟨m, List.mem_filterMap.mpr ⟨_, hpart, rfl⟩, Green.leaf.inj hgreen⟩

end Node

namespace Entry

variable {e : Entry} {text : Text} {n : Node}

/-- If the parentheses of its attributes belong together, then a variable has its keyword. -/
theorem exists_variableKeyword (hn : n ∈ (Node.ofGreen (e.tree text)).descendants)
    (hkind : n.kind = .variableDecl) (hmatch : Green.attributesMatch n.children) :
    ∃ l ∈ n.childLeaves, l.isPresent ∧ (l.kind = .letKw ∨ l.kind = .varKw) := by
  obtain ⟨t, ht, hkeyword⟩ := ((strict_of_mem_descendants hn).1.keyed hmatch).declared hkind
  obtain ⟨l, hl, hgreen⟩ := Node.exists_mem_childLeaves ht
  refine ⟨l, hl, ?_, ?_⟩
  · rw [Leaf.isPresent, hgreen]
    rfl
  · rw [Leaf.kind, hgreen]
    exact hkeyword

/-- A default label stands in a case. If the parentheses of its attributes belong together, then the
label has its keyword. -/
theorem exists_defaultKeyword (hn : n ∈ (Node.ofGreen (e.tree text)).descendants)
    (hkind : n.kind = .switchDefaultLabel) : ∃ whole, n.parent = some whole ∧
      whole ∈ (Node.ofGreen (e.tree text)).descendants ∧ whole.kind = .switchCase ∧
      (Green.attributesMatch whole.children → ∃ l ∈ n.childLeaves,
        l.isPresent ∧ l.kind = .defaultKw) := by
  have hne : n ≠ Node.ofGreen (e.tree text) := by
    rintro rfl
    rw [e.kind_root] at hkind
    cases e <;> cases hkind
  obtain ⟨whole, hwhole, hpart⟩ := Node.exists_mem_childNodes hn hne
  have hcase : whole.kind = .switchCase :=
    Node.kind_of_isOnlyIn (by decide) (strict_of_mem_descendants hwhole) hpart hkind
  obtain ⟨hgreen, hparent⟩ := Node.childNodes_spec hpart
  refine ⟨whole, hparent, hwhole, hcase, fun hmatch => ?_⟩
  have hlabel : .node .switchDefaultLabel n.children ∈ whole.children := hkind ▸ hgreen
  obtain ⟨t, ht, hkeyword⟩ :=
    ((strict_of_mem_descendants hwhole).1.keyed hmatch).labeled hcase _ hlabel
  obtain ⟨l, hl, hleaf⟩ := Node.exists_mem_childLeaves ht
  refine ⟨l, hl, ?_, ?_⟩
  · rw [Leaf.isPresent, hleaf]
    rfl
  · rw [Leaf.kind, hleaf]
    exact hkeyword

end Entry

namespace Grammar

/-- **The look ahead past attributes agrees with their rule where parentheses belong together.** The
rule for attributes has one outcome. It comes to the token that the look ahead comes to if the
parentheses of every attribute belong together; for a single attribute this is also the only way to
come there, unless the look ahead comes to the end of the file.

So where the look ahead sees a declaration or a case behind attributes whose parentheses belong
together, the keyword that it sees is the token that the rule takes first behind the attributes and
modifiers. In the tree of a text, a variable behind such attributes has its keyword, and so has a
default label. -/
theorem attributes_agree (ts : Ahead) (before : Forest) (e : Entry) (text : Text) :
    (ts.isAt .atSign → ∃ (t : State Forest) (one : Green),
      singleAttribute.run (.ofLimit (callLimit ts.left)) ⟨ts, before⟩ = some ((), t) ∧
      singleAttribute.Ends ⟨ts, before⟩ () t ∧ t.built = one :: before ∧
      (Green.attributeMatches one → t.ahead = Ahead.afterAttribute ts.tail) ∧
      (Ahead.afterAttribute ts.tail ≠ [] → t.ahead = Ahead.afterAttribute ts.tail →
        Green.attributeMatches one)) ∧
    (ts.isAt .atSign → ∃ (t : State Forest) (list : List Green),
      attributeList.run (.ofLimit (callLimit ts.left)) ⟨ts, before⟩ = some ((), t) ∧
      attributeList.Ends ⟨ts, before⟩ () t ∧ t.built = .node .attributeList list :: before ∧
      (list.all Green.attributeMatches → t.ahead = ts.afterAttributes)) ∧
    (ts.startsDecl → ∃ (t : State Forest) (kind : Kind) (cs : List Green),
      decl.run (.ofLimit (callLimit ts.left)) ⟨ts, before⟩ = some ((), t) ∧
      decl.Ends ⟨ts, before⟩ () t ∧ t.built = .node kind cs :: before ∧
      (Green.attributesMatch cs → ∃ front behind k, cs = front ++ behind ∧
        (Shape.seq (.opt (.one .attributeList)) (.list .declModifier)).Matches front ∧
        Declares k kind ∧ ts.afterAttributes.afterModifiers.Leads behind k)) ∧
    (ts.startsCase → ∃ (t : State Forest) (cs : List Green),
      switchCase.run (.ofLimit (callLimit ts.left)) ⟨ts, before⟩ = some ((), t) ∧
      switchCase.Ends ⟨ts, before⟩ () t ∧ t.built = .node .switchCase cs :: before ∧
      (Green.attributesMatch cs → ∃ attributes kind label items k,
        cs = attributes ++ [.node kind label, items] ∧
        (Shape.opt (.one .attributeList)).Matches attributes ∧ Labels k kind ∧
        ts.afterAttributes.Leads label k)) ∧
    ∀ n ∈ (Node.ofGreen (e.tree text)).descendants,
      (n.kind = .variableDecl → Green.attributesMatch n.children →
        ∃ l ∈ n.childLeaves, l.isPresent ∧ (l.kind = .letKw ∨ l.kind = .varKw)) ∧
      (n.kind = .switchDefaultLabel → ∃ whole, n.parent = some whole ∧ whole.kind = .switchCase ∧
        (Green.attributesMatch whole.children →
          ∃ l ∈ n.childLeaves, l.isPresent ∧ l.kind = .defaultKw)) := by
  refine ⟨fun h => ?_, fun h => ?_, fun h => ?_, fun h => ?_, fun n hn => ?_⟩
  · have htakes : singleAttribute.Takes (fun us => us.isAt .atSign) Goal.top :=
      singleAttribute_takes fun _ => Ahead.ne_nil_of_isAt (by decide)
    obtain ⟨x, us, rfl⟩ := List.exists_cons_of_ne_nil (Ahead.ne_nil_of_isAt (by decide) h)
    obtain ⟨t, hrun, hends, one, hbuilt, hone⟩ :=
      htakes.exists_yields h (@singleAttribute_yields us before x)
    exact ⟨t, one, hrun, hends, hbuilt, hone⟩
  · have htakes : attributeList.Takes (fun us => us.isAt .atSign) Goal.top :=
      attributeList_takes fun _ h => h
    obtain ⟨t, hrun, hends, list, hbuilt, hahead⟩ := htakes.exists_yields h attributeList_yields
    exact ⟨t, list, hrun, hends, hbuilt, hahead⟩
  · have htakes : decl.Takes (fun us => us.startsDecl) Goal.top := decl_takes fun _ h => h
    obtain ⟨t, hrun, hends, _, hbuilt, -, kind, cs, rfl, -, hkeyword⟩ :=
      htakes.exists_yields h (decl_adds h ts before rfl)
    exact ⟨t, kind, cs, hrun, hends, hbuilt, hkeyword⟩
  · have htakes : switchCase.Takes (fun us => us.startsCase) Goal.top :=
      switchCase_takes fun _ h => h
    obtain ⟨t, hrun, hends, _, hbuilt, -, cs, rfl, hkeyword⟩ :=
      htakes.exists_yields h (switchCase_adds h ts before rfl)
    exact ⟨t, cs, hrun, hends, hbuilt, hkeyword⟩
  · refine ⟨Entry.exists_variableKeyword hn, fun hkind => ?_⟩
    obtain ⟨whole, hparent, -, hcase, hkeyword⟩ := Entry.exists_defaultKeyword hn hkind
    exact ⟨whole, hparent, hcase, hkeyword⟩

end Grammar

namespace Entry

/-- In `@a(1) var x = 1` the attribute has an argument, and the variable has its keyword. -/
theorem attributes_agree_variable :
    let text := ['@', 'a', '(', '1', ')', ' ', 'v', 'a', 'r', ' ', 'x', ' ', '=', ' ', '1']
    Ahead.startsDecl (.ofText text) ∧ ∃ n ∈ (Node.ofGreen (sourceFile.tree text)).descendants,
      n.kind = .variableDecl ∧ Green.attributesMatch n.children ∧ ∃ l ∈ n.childLeaves, l.isPresent ∧
        (l.kind = .letKw ∨ l.kind = .varKw) := by
  intro text
  have hfound : ∃ n ∈ (Node.ofGreen (sourceFile.tree text)).descendants,
      n.kind = .variableDecl ∧ Green.attributesMatch n.children :=
    of_decide_eq_true (of_tree? (n := 20) (p := fun tree => ∃ n ∈ (Node.ofGreen tree).descendants,
      n.kind = .variableDecl ∧ Green.attributesMatch n.children) (by decide +kernel))
  obtain ⟨n, hn, hkind, hmatch⟩ := hfound
  refine ⟨Ahead.of_stream? (n := 20) (p := Ahead.startsDecl) (by decide +kernel), n, hn, hkind,
    hmatch, ?_⟩
  exact ((Grammar.attributes_agree (.ofText text) [] sourceFile text).2.2.2.2 n hn).1 hkind hmatch

/-- In `@a([) var x = 1` the look ahead sees a variable, where the rule takes everything for
arguments, and the variable has no keyword. -/
theorem attributes_miss_keyword :
    let text := ['@', 'a', '(', '[', ')', ' ', 'v', 'a', 'r', ' ', 'x', ' ', '=', ' ', '1']
    Ahead.isAt .varKw (Ahead.afterAttributes (.ofText text)) ∧
    ∃ n ∈ (Node.ofGreen (sourceFile.tree text)).descendants, n.kind = .variableDecl ∧
      ∀ l ∈ n.childLeaves, l.isPresent = false := by
  constructor
  · exact Ahead.of_stream? (n := 20) (p := fun ts => Ahead.isAt .varKw ts.afterAttributes)
      (by decide +kernel)
  · exact of_decide_eq_true
      (of_tree? (n := 20) (p := fun tree => ∃ n ∈ (Node.ofGreen tree).descendants,
      n.kind = .variableDecl ∧ ∀ l ∈ n.childLeaves, l.isPresent = false) (by decide +kernel))

end Entry

end SwiftTree
