import SwiftTree.Proofs.Evaluation
import SwiftTree.Proofs.TotalViews

/-!
# Names that views find

The name of a function, of a member, of a pattern or of an expression, and the label of an argument,
are leaves that the rules put at a certain place among the other leaves of a node. A view looks for
the name by a rule of its own: the first token of a kind, the first that is no colon, or the last of
all. What the leaves of a node can be is in the shape of the node (`Node.childLeaves_of`), and from
there each view is compared with the place that the rules give to the name (`Entry.names_read`).

All views but one answer `none` where the name is missing. The
view of a member takes the last token that is there, and where the name is missing that is the dot
(`Entry.memberName_dot`).
-/

namespace SwiftTree

open Grammar

/-- The leaf that a tree is. -/
def Green.leaf? : Green → Option Green.Leaf
  | .node _ _ => none
  | .leaf l => some l

namespace Shape

/-- Whether trees of a shape are all nodes. -/
def isLeafless : Shape → Bool
  | .nothing | .node _ => true
  | .token _ | .missing _ => false
  | .seq a b | .alt a b => a.isLeafless && b.isLeafless
  | .many a => a.isLeafless

/-- A shape without leaves has none to look through. -/
theorem filterMap_leaf?_of_isLeafless {a : Shape} {gs : List Green} (h : a.Matches gs)
    (ha : a.isLeafless) : gs.filterMap Green.leaf? = [] := by
  induction h with
  | nothing | none | node => rfl
  | token | missing => cases ha
  | seq _ _ ihx ihy =>
    rw [isLeafless, Bool.and_eq_true] at ha
    rw [List.filterMap_append, ihx ha.1, ihy ha.2, List.append_nil]
  | left _ ih => exact ih (Bool.and_eq_true_iff.mp ha).1
  | right _ ih => exact ih (Bool.and_eq_true_iff.mp ha).2
  | more _ _ ihx ihy => rw [List.filterMap_append, ihx ha, ihy ha, List.append_nil]

end Shape

/-! ## Places of names -/

namespace Leaf

/-- What is answered for the place of a name: the leaf that stands there if it was read, and then it
is of the kinds that names are of; or, if a name is missing there, another answer. -/
structure Names (slot : Leaf) (kinds : Kind → Bool) (answer otherwise : Option Leaf) : Prop where
  /-- a token that was read is a name -/
  read : slot.isPresent → kinds slot.kind ∧ answer = some slot
  /-- a name is missing -/
  missing : slot.isPresent = false → slot.kind = .identifier ∧ answer = otherwise

end Leaf

namespace Shape

/-- The kinds of names of functions. -/
def isFunctionName (k : Kind) : Bool := k == .identifier || k.isOperator

/-- The kinds of names of members. -/
def isMemberName (k : Kind) : Bool := isName k || k == .integerLiteral || k == .editorPlaceholder

/-- The place of a name holds one leaf: a token that was read, or a missing name. -/
theorem leaf_of_nameAmong {kinds : Kind → Bool} {gs : List Green}
    (h : (nameAmong kinds).Matches gs) : ∃ l : Green.Leaf, gs.filterMap Green.leaf? = [l] ∧
      (l.isPresent ∧ kinds l.kind ∨ l.isPresent = false ∧ l.kind = .identifier) := by
  cases h with
  | left h =>
    cases h with
    | @token _ t hkind => exact ⟨.present t, rfl, .inl ⟨rfl, hkind⟩⟩
  | right h =>
    cases h with
    | @missing _ kind spelling hkind =>
      exact ⟨.missing kind spelling, rfl, .inr ⟨rfl, beq_iff_eq.mp hkind⟩⟩

/-- A token that was read is the only leaf of its shape. -/
theorem leaf_of_token {kinds : Kind → Bool} {gs : List Green} (h : (Shape.token kinds).Matches gs) :
    ∃ l : Green.Leaf, gs.filterMap Green.leaf? = [l] ∧ l.isPresent ∧ kinds l.kind := by
  cases h with
  | @token _ t hkind => exact ⟨.present t, rfl, rfl, hkind⟩

/-- Behind a part of a list stands a comma, or no leaf. -/
theorem leaves_of_comma {gs : List Green} (h : (opt (tok .comma)).Matches gs) :
    ∀ l ∈ gs.filterMap Green.leaf?, l.kind = .comma := by
  cases h with
  | left h =>
    obtain ⟨l, hl, -, hkind⟩ := leaf_of_token h
    rw [hl]
    exact fun m hm => List.mem_singleton.mp hm ▸ beq_iff_eq.mp hkind
  | right h =>
    cases h
    exact nofun

end Shape

namespace Node

variable {n : Node}

/-- The leaves among the parts are the parts that are leaves, in order. -/
theorem green_childLeaves : n.childLeaves.map Leaf.green = n.children.filterMap Green.leaf? := by
  have hfrom : ∀ (gs : List Green) (index offset : Nat),
      ((n.elementsFrom index offset gs).filterMap Element.leaf?).map Leaf.green
        = gs.filterMap Green.leaf? := by
    intro gs
    induction gs with
    | nil => exact fun _ _ => rfl
    | cons g gs ih =>
      intro index offset
      cases g with
      | node kind cs => exact ih _ _
      | leaf l => exact congrArg (l :: ·) (ih _ _)
  exact hfrom n.children 0 n.offset

end Node

/-! ## The leaves of nodes with names -/

namespace Shape

/-- A function has two leaves: its keyword, and its name or what is missing of it. -/
theorem leaves_functionDecl {gs : List Green} (h : (Kind.exactShape .functionDecl).Matches gs) :
    ∃ keyword slot : Green.Leaf, gs.filterMap Green.leaf? = [keyword, slot] ∧
      keyword.kind = .funcKw ∧ (slot.isPresent ∧ isFunctionName slot.kind ∨
        slot.isPresent = false ∧ slot.kind = .identifier) := by
  cases h with
  | seq hattributes h =>
    cases h with
    | seq hmodifiers h =>
      cases h with
      | seq hkeyword h =>
        cases h with
        | seq hslot hbehind =>
          obtain ⟨keyword, hkeyword, -, hkind⟩ := leaf_of_token hkeyword
          obtain ⟨slot, hslot, hname⟩ := leaf_of_nameAmong hslot
          refine ⟨keyword, slot, ?_, beq_iff_eq.mp hkind, hname⟩
          simp only [List.filterMap_append, filterMap_leaf?_of_isLeafless hattributes rfl,
            filterMap_leaf?_of_isLeafless hmodifiers rfl, hkeyword, hslot,
            filterMap_leaf?_of_isLeafless hbehind rfl]
          rfl

/-- A member has two leaves: its period, and its name or what is missing of it. -/
theorem leaves_memberAccessExpr {gs : List Green}
    (h : (Kind.exactShape .memberAccessExpr).Matches gs) :
    ∃ dot slot : Green.Leaf, gs.filterMap Green.leaf? = [dot, slot] ∧
      dot.isPresent ∧ dot.kind = .period ∧ (slot.isPresent ∧ isMemberName slot.kind ∨
        slot.isPresent = false ∧ slot.kind = .identifier) := by
  cases h with
  | seq hbase h =>
    cases h with
    | seq hdot hslot =>
      obtain ⟨dot, hdot, hpresent, hkind⟩ := leaf_of_token hdot
      obtain ⟨slot, hslot, hname⟩ := leaf_of_nameAmong hslot
      refine ⟨dot, slot, ?_, hpresent, beq_iff_eq.mp hkind, hname⟩
      simp only [List.filterMap_append, filterMap_leaf?_of_isLeafless hbase rfl, hdot, hslot]
      rfl

/-- An argument has a label and a colon before all other leaves, or only a comma. -/
theorem leaves_labeledArgument {gs : List Green}
    (h : (Kind.exactShape .labeledArgument).Matches gs) :
    (∀ l ∈ gs.filterMap Green.leaf?, l.kind = .comma) ∨
      ∃ (slot colon : Green.Leaf) (behind : List Green.Leaf),
        gs.filterMap Green.leaf? = slot :: colon :: behind ∧ slot.isPresent ∧ isName slot.kind ∧
          colon.isPresent ∧ colon.kind = .colon := by
  cases h with
  | seq h hcomma =>
    cases h with
    | seq hlabel hvalue =>
      have hcommas := leaves_of_comma hcomma
      rw [List.filterMap_append, List.filterMap_append, filterMap_leaf?_of_isLeafless hvalue rfl,
        List.append_nil]
      cases hlabel with
      | left hlabel =>
        cases hlabel with
        | seq hslot hcolon =>
          obtain ⟨slot, hslot, hpresent, hname⟩ := leaf_of_token hslot
          obtain ⟨colon, hcolon, hread, hkind⟩ := leaf_of_token hcolon
          rw [List.filterMap_append, hslot, hcolon]
          exact .inr ⟨slot, colon, _, rfl, hpresent, hname, hread, beq_iff_eq.mp hkind⟩
      | right hnone =>
        cases hnone
        exact .inl hcommas

end Shape

/-! ## Views and the places of names -/

namespace Leaf.Names

variable {slot : Leaf} {kinds : Kind → Bool} {answer otherwise : Option Leaf}

/-- What the place of a name holds, and what is answered for either. -/
theorem of_cases (h : slot.green.isPresent ∧ kinds slot.green.kind ∨
      slot.green.isPresent = false ∧ slot.green.kind = .identifier)
    (hread : slot.isPresent → kinds slot.kind → answer = some slot)
    (hmissing : slot.isPresent = false → answer = otherwise) :
    slot.Names kinds answer otherwise := by
  refine ⟨fun hpresent => ?_, fun habsent => ?_⟩
  · rcases h with ⟨-, hkind⟩ | ⟨habsent, -⟩
    · exact ⟨hkind, hread hpresent hkind⟩
    · exact absurd habsent (Bool.eq_false_iff.not.mpr (not_not_intro hpresent))
  · rcases h with ⟨hpresent, -⟩ | ⟨-, hkind⟩
    · exact absurd habsent (Bool.eq_false_iff.not.mpr (not_not_intro hpresent))
    · exact ⟨hkind, hmissing habsent⟩

end Leaf.Names

namespace View

/-- The name of a function is the leaf behind the word `func`. -/
theorem FunctionDeclaration.names {v : FunctionDeclaration} (h : v.node.green.Strict) :
    ∃ keyword slot, v.node.childLeaves = [keyword, slot] ∧ keyword.kind = .funcKw ∧
      slot.Names Shape.isFunctionName v.name none := by
  obtain ⟨_, _, hleaves, hkeyword, hslot⟩ := Shape.leaves_functionDecl (exactShape_of_strict h)
  obtain ⟨keyword, slots, hchild, rfl, hslots⟩ :=
    List.map_eq_cons_iff.mp (v.node.green_childLeaves.trans hleaves)
  obtain ⟨slot, rfl, rfl⟩ := List.map_eq_singleton_iff.mp hslots
  have hskip : v.name = [slot].find? fun l => Shape.isFunctionName l.kind && l.isPresent := by
    have hword : (Shape.isFunctionName keyword.kind && keyword.isPresent) ≠ true := by
      rw [show keyword.kind = .funcKw from hkeyword]
      exact Bool.false_ne_true
    rw [name, Node.childToken, hchild]
    exact List.find?_cons_of_neg hword
  refine ⟨keyword, slot, hchild, hkeyword, .of_cases hslot (fun hpresent hkind => ?_)
    fun hmissing => ?_⟩
  · rw [hskip]
    exact List.find?_cons_of_pos (Bool.and_eq_true_iff.mpr ⟨hkind, hpresent⟩)
  · rw [hskip, List.find?_singleton, hmissing, Bool.and_false]
    rfl

/-- A pattern that is a name is one leaf, which is the name. -/
theorem IdentifierPattern.names {v : IdentifierPattern} (h : v.node.green.Strict) :
    ∃ slot, v.node.childLeaves = [slot] ∧ v.name = some slot ∧ slot.isPresent ∧
      (slot.kind = .identifier ∨ slot.kind = .selfKw) := by
  obtain ⟨_, hleaves, hpresent, hkind⟩ := Shape.leaf_of_token (exactShape_of_strict h)
  obtain ⟨slot, hchild, rfl⟩ :=
    List.map_eq_singleton_iff.mp (v.node.green_childLeaves.trans hleaves)
  have hkinds : slot.kind = .identifier ∨ slot.kind = .selfKw := by
    rcases Bool.or_eq_true_iff.mp hkind with hk | hk
    · exact .inl (beq_iff_eq.mp hk)
    · exact .inr (beq_iff_eq.mp hk)
  refine ⟨slot, hchild, ?_, hpresent, hkinds⟩
  rw [name, Node.childToken, hchild]
  refine List.find?_cons_of_pos (Bool.and_eq_true_iff.mpr ⟨?_, hpresent⟩)
  rcases hkinds with hk | hk <;> rw [hk] <;> rfl

/-- An expression that is a name is one leaf, which is the name. -/
theorem IdentifierExpression.names {v : IdentifierExpression} (h : v.node.green.Strict) :
    ∃ slot, v.node.childLeaves = [slot] ∧ v.name = some slot ∧ slot.isPresent ∧
      Shape.isName slot.kind := by
  obtain ⟨_, hleaves, hpresent, hkind⟩ := Shape.leaf_of_token (exactShape_of_strict h)
  obtain ⟨slot, hchild, rfl⟩ :=
    List.map_eq_singleton_iff.mp (v.node.green_childLeaves.trans hleaves)
  have hname : Shape.isName slot.kind :=
    Kind.of_implies (p := fun k => k == .identifier || k == .dollarIdentifier || k == .selfKw
      || k == .capitalSelfKw || k == .superKw || k == .initKw) (by decide +kernel) hkind
  refine ⟨slot, hchild, ?_, hpresent, hname⟩
  rw [name, Node.childToken, hchild]
  exact List.find?_cons_of_pos hpresent

/-- The label of an argument is the leaf before the colon, and without a colon there is none. -/
theorem LabeledArgument.names {v : LabeledArgument} (h : v.node.green.Strict) :
    ((∀ l ∈ v.node.childLeaves, l.kind = .comma) ∧ v.label = none) ∨
      ∃ slot colon behind, v.node.childLeaves = slot :: colon :: behind ∧ colon.kind = .colon ∧
        v.label = some slot ∧ slot.isPresent ∧ Shape.isName slot.kind := by
  have hgreen := v.node.green_childLeaves
  rcases Shape.leaves_labeledArgument (exactShape_of_strict h) with
    hcommas | ⟨_, _, behind, hleaves, hpresent, hname, hcolon, hkind⟩
  · have hall : ∀ l ∈ v.node.childLeaves, l.kind = .comma := fun l hl =>
      hcommas l.green (hgreen ▸ List.mem_map_of_mem hl)
    have hnone : v.node.hasToken .colon = false := by
      rw [Node.hasToken, Node.childToken, Option.isSome_eq_false_iff, Option.isNone_iff_eq_none,
        List.find?_eq_none]
      intro l hl
      rw [hall l hl]
      exact Bool.false_ne_true
    exact .inl ⟨hall, by rw [label, hnone]; rfl⟩
  · obtain ⟨slot, ls, hchild, rfl, hls⟩ := List.map_eq_cons_iff.mp (hgreen.trans hleaves)
    obtain ⟨colon, ls, rfl, rfl, -⟩ := List.map_eq_cons_iff.mp hls
    -- a label is no colon, so it is the first token that the view looks for
    have hslot : (slot.kind != .colon) = true :=
      Kind.of_implies (p := Shape.isName) (q := fun k => k != .colon) (by decide +kernel) hname
    have hhas : v.node.hasToken .colon = true := by
      rw [Node.hasToken, Node.childToken, List.find?_isSome]
      refine ⟨colon, ?_, Bool.and_eq_true_iff.mpr ⟨beq_iff_eq.mpr hkind, hcolon⟩⟩
      rw [hchild]
      exact List.mem_cons_of_mem _ List.mem_cons_self
    refine .inr ⟨slot, colon, ls, hchild, hkind, ?_, hpresent, hname⟩
    rw [label, hhas, if_pos rfl, Node.childToken, hchild]
    exact List.find?_cons_of_pos (Bool.and_eq_true_iff.mpr ⟨hslot, hpresent⟩)

/-- The view of a member takes the leaf behind the dot if it was read, and the dot otherwise. -/
theorem MemberAccess.names {v : MemberAccess} (h : v.node.green.Strict) :
    ∃ dot slot, v.node.childLeaves = [dot, slot] ∧ dot.kind = .period ∧
      slot.Names Shape.isMemberName v.name (some dot) := by
  obtain ⟨_, _, hleaves, hdot, hkind, hslot⟩ :=
    Shape.leaves_memberAccessExpr (exactShape_of_strict h)
  obtain ⟨dot, slots, hchild, rfl, hslots⟩ :=
    List.map_eq_cons_iff.mp (v.node.green_childLeaves.trans hleaves)
  obtain ⟨slot, rfl, rfl⟩ := List.map_eq_singleton_iff.mp hslots
  have hread : v.name = (dot :: [slot].filter Leaf.isPresent).getLast? := by
    rw [name, hchild]
    exact congrArg List.getLast? (List.filter_cons_of_pos hdot)
  refine ⟨dot, slot, hchild, hkind, .of_cases hslot (fun hpresent _ => ?_) fun hmissing => ?_⟩
  · rw [hread, List.filter_cons_of_pos hpresent]
    rfl
  · rw [hread, List.filter_cons_of_neg (Bool.eq_false_iff.mp hmissing)]
    rfl

end View

/-- Whether views find the names that were read. The leaves of a node say where the place of its
name is: behind the word `func` or the dot, before the colon, or alone. The answer for that place is
the leaf there if it was read, which is of a kind that names are of; and nothing where the name is
missing or no label was read. For a member whose name is missing the answer is the dot. -/
structure View.Named (nodes : List Node) : Prop where
  function : ∀ v : FunctionDeclaration, v.node ∈ nodes →
    ∃ keyword slot, v.node.childLeaves = [keyword, slot] ∧ keyword.kind = .funcKw ∧
      slot.Names Shape.isFunctionName v.name none
  pattern : ∀ v : IdentifierPattern, v.node ∈ nodes →
    ∃ slot, v.node.childLeaves = [slot] ∧ v.name = some slot ∧ slot.isPresent ∧
      (slot.kind = .identifier ∨ slot.kind = .selfKw)
  expression : ∀ v : IdentifierExpression, v.node ∈ nodes →
    ∃ slot, v.node.childLeaves = [slot] ∧ v.name = some slot ∧ slot.isPresent ∧
      Shape.isName slot.kind
  label : ∀ v : LabeledArgument, v.node ∈ nodes →
    ((∀ l ∈ v.node.childLeaves, l.kind = .comma) ∧ v.label = none) ∨
      ∃ slot colon behind, v.node.childLeaves = slot :: colon :: behind ∧ colon.kind = .colon ∧
        v.label = some slot ∧ slot.isPresent ∧ Shape.isName slot.kind
  member : ∀ v : MemberAccess, v.node ∈ nodes →
    ∃ dot slot, v.node.childLeaves = [dot, slot] ∧ dot.kind = .period ∧
      slot.Names Shape.isMemberName v.name (some dot)

namespace Entry

/-- **Names.** In the tree of every text, however malformed, views find the names that were read.
Where a name is missing they find nothing, but for the view of a member, which finds the dot. -/
theorem names_read (e : Entry) (text : Text) :
    View.Named (Node.ofGreen (e.tree text)).descendants where
  function _ hv := View.FunctionDeclaration.names (strict_of_mem_descendants hv)
  pattern _ hv := View.IdentifierPattern.names (strict_of_mem_descendants hv)
  expression _ hv := View.IdentifierExpression.names (strict_of_mem_descendants hv)
  label _ hv := View.LabeledArgument.names (strict_of_mem_descendants hv)
  member _ hv := View.MemberAccess.names (strict_of_mem_descendants hv)

/-- In `a.` the name of the member is missing, and the view finds the dot. -/
theorem memberName_dot :
    ∃ v : View.MemberAccess, v.node ∈ (Node.ofGreen (sourceFile.tree ['a', '.'])).descendants ∧
      v.node.childLeaves.getLast?.map Leaf.isPresent = some false ∧
        v.name.map Leaf.kind = some .period := by
  obtain ⟨n, hn, hkind, hmissing, hdot⟩ : ∃ n ∈ (Node.ofGreen
      (sourceFile.tree ['a', '.'])).descendants, (n.kind == .memberAccessExpr) = true ∧
        n.childLeaves.getLast?.map Leaf.isPresent = some false ∧
          ((n.childLeaves.filter Leaf.isPresent).getLast?).map Leaf.kind = some .period :=
    of_decide_eq_true (of_tree? (n := 20) (p := fun tree => ∃ n ∈ (Node.ofGreen tree).descendants,
      (n.kind == .memberAccessExpr) = true ∧
        n.childLeaves.getLast?.map Leaf.isPresent = some false ∧
          ((n.childLeaves.filter Leaf.isPresent).getLast?).map Leaf.kind = some .period)
      (by decide +kernel))
  exact ⟨⟨n, hkind⟩, hn, hmissing, hdot⟩

end Entry

end SwiftTree
