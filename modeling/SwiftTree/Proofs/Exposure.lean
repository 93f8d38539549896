import SwiftTree.Proofs.TotalViews

/-!
# Nodes outside of brackets

The mode of an expression speaks of what stands in it outside of brackets. `Green.exposed` are the
nodes of a tree that no bracket of the tree encloses. What is in a key path or a string literal does
not count: these read their parts in no mode.

Two things can be wrong with such a node. It takes a closure behind a call (`Green.takesClosure`),
or what joins it to its first operand opens a line (`Green.breaksLine`). A tree heeds a mode if none
of its nodes outside of brackets does what the mode forbids (`Green.Heeds`).

Most kinds of nodes have nothing of their own outside of brackets but parts of such kinds again
(`Kind.isQuiet`), as can be read off their shapes (`Shape.hides`). They heed every mode.
-/

namespace SwiftTree

open Grammar

namespace Kind

/-- The nodes whose parts have no mode. -/
def isSealed : Kind → Bool
  | .keyPathExpr | .stringLiteralExpr => true
  | _ => false

/-- The nodes that join something to a first operand: infix operators, and what is attached behind
an operand. -/
def isJoined : Kind → Bool
  | .binaryExpr | .ternaryExpr | .arrowExpr | .castExpr | .isExpr | .functionCallExpr
  | .subscriptExpr | .memberAccessExpr | .postfixExpr | .forceUnwrapExpr
  | .optionalChainingExpr => true
  | _ => false

/-- The nodes that can have a closure behind what they join to their first operand. -/
def isCall (k : Kind) : Bool := k == .functionCallExpr || k == .subscriptExpr

/-- A call joins something to its first operand. -/
theorem isJoined_of_isCall {k : Kind} (h : k.isCall) : k.isJoined := by
  rw [isCall, Bool.or_eq_true, beq_iff_eq, beq_iff_eq] at h
  rcases h with rfl | rfl <;> rfl

end Kind

namespace Green

/-- How many brackets are open behind a part of a node. -/
def depthBehind (depth : Nat) : Green → Nat
  | .node _ _ => depth
  | .leaf l => Ahead.depthAfter depth l.kind

mutual

/-- The nodes of a tree outside of its brackets. -/
def exposed : Green → List Green
  | .node kind cs => .node kind cs :: if kind.isSealed then [] else exposedFrom 0 cs
  | .leaf _ => []

/-- The nodes of several trees outside of their brackets, of which `depth` are open. -/
def exposedFrom (depth : Nat) : List Green → List Green
  | [] => []
  | g :: gs => (if depth = 0 then exposed g else []) ++ exposedFrom (g.depthBehind depth) gs

end

/-- Whether a node has a closure behind a call or a subscript. -/
def takesClosure : Green → Bool
  | .node kind (_ :: cs) => kind.isCall && cs.any fun c => c.kind == .closureExpr
  | _ => false

/-- Whether what a node joins to its first operand opens a line. -/
def breaksLine : Green → Bool
  | .node kind (_ :: cs) =>
    kind.isJoined && (tokensOf cs).head?.any fun t => t.leading.containsNewline
  | _ => false

/-- Whether no node outside of brackets passes a test. -/
def Avoids (bad : Green → Bool) (g : Green) : Prop := ∀ e ∈ g.exposed, bad e = false

/-- Whether the nodes outside of brackets are as a mode wants them: no closure stands behind a call
where a brace opens a body, and a condition of a directive does not go on behind an operand on
another line. -/
structure Heeds (mode : Mode) (g : Green) : Prop where
  closures : mode.noTrailingClosure → g.Avoids takesClosure
  lines : mode.directive → g.Avoids breaksLine

variable {bad : Green → Bool} {mode : Mode} {kind : Kind} {g : Green} {cs : List Green}

/-- What is outside of brackets among several trees is so in one of them. -/
theorem mem_of_mem_exposedFrom {e : Green} {depth : Nat} {gs : List Green}
    (h : e ∈ exposedFrom depth gs) : ∃ g ∈ gs, e ∈ g.exposed := by
  induction gs generalizing depth with
  | nil => cases h
  | cons g gs ih =>
    rw [exposedFrom, List.mem_append] at h
    rcases h with h | h
    · refine ⟨g, List.mem_cons_self, ?_⟩
      split at h
      · exact h
      · cases h
    · obtain ⟨g', hg', he⟩ := ih h
      exact ⟨g', List.mem_cons_of_mem g hg', he⟩

/-- What is outside of brackets in a node is the node itself, or is so among its parts. -/
theorem mem_exposed_node {e : Green} (h : e ∈ (node kind cs).exposed) :
    e = .node kind cs ∨ (kind.isSealed = false ∧ e ∈ exposedFrom 0 cs) := by
  rw [exposed, List.mem_cons] at h
  refine h.imp id fun h => ?_
  split at h
  · cases h
  · rename_i hsealed
    exact ⟨Bool.eq_false_iff.mpr hsealed, h⟩

theorem Avoids.leaf (l : Leaf) : (leaf l).Avoids bad := nofun

/-- A node avoids what it is not itself and what its parts avoid. -/
theorem Avoids.node (hnode : bad (.node kind cs) = false) (hcs : ∀ c ∈ cs, c.Avoids bad) :
    (Green.node kind cs).Avoids bad := by
  intro e he
  rcases mem_exposed_node he with rfl | ⟨-, he⟩
  · exact hnode
  · obtain ⟨c, hc, he⟩ := mem_of_mem_exposedFrom he
    exact hcs c hc e he

/-- Only calls take closures. -/
theorem takesClosure_of_not_isCall (h : kind.isCall = false) :
    (node kind cs).takesClosure = false := by
  cases cs with
  | nil => rfl
  | cons c cs => rw [takesClosure, h, Bool.false_and]

/-- Only what joins something to an operand can break a line before it. -/
theorem breaksLine_of_not_isJoined (h : kind.isJoined = false) :
    (node kind cs).breaksLine = false := by
  cases cs with
  | nil => rfl
  | cons c cs => rw [breaksLine, h, Bool.false_and]

namespace Heeds

theorem leaf (l : Leaf) : (Green.leaf l).Heeds mode := ⟨fun _ => .leaf l, fun _ => .leaf l⟩

/-- A node that joins nothing heeds a mode if its parts do. -/
theorem node (hkind : kind.isJoined = false) (hcs : ∀ c ∈ cs, c.Heeds mode) :
    (Green.node kind cs).Heeds mode := by
  have hcall : kind.isCall = false :=
    Bool.eq_false_iff.mpr fun h => Bool.eq_false_iff.mp hkind (Kind.isJoined_of_isCall h)
  exact ⟨fun hmode => .node (takesClosure_of_not_isCall hcall) fun c hc =>
    (hcs c hc).closures hmode, fun hmode => .node (breaksLine_of_not_isJoined hkind) fun c hc =>
    (hcs c hc).lines hmode⟩

/-- Only these two flags of a mode matter. -/
theorem congr {mode' : Mode} (h : g.Heeds mode)
    (hclosures : mode'.noTrailingClosure = mode.noTrailingClosure)
    (hdirective : mode'.directive = mode.directive) : g.Heeds mode' :=
  ⟨fun hmode => h.closures (hclosures ▸ hmode), fun hmode => h.lines (hdirective ▸ hmode)⟩

end Heeds

end Green

/-! ## Quiet kinds -/

namespace Kind

/-- The nodes that only have nodes of the same sort outside of their brackets. -/
def isQuiet : Kind → Bool
  -- operands
  | .identifierExpr | .discardExpr | .booleanLiteralExpr | .nilLiteralExpr | .integerLiteralExpr
  | .floatLiteralExpr | .stringLiteralExpr | .regexLiteralExpr | .editorPlaceholderExpr
  | .operatorRefExpr | .tupleExpr | .arrayExpr | .dictionaryExpr | .closureExpr
  | .implicitMemberExpr | .keyPathExpr | .macroExpansionExpr | .objectLiteralExpr | .typeExpr
  | .missingExpr => true
  -- types, and what stands with them
  | .simpleType | .memberType | .optionalType | .implicitlyUnwrappedType | .arrayType
  | .dictionaryType | .tupleType | .functionType | .attributedType | .someOrAnyType
  | .compositionType | .missingType | .genericArgumentClause | .genericArgument
  | .effectSpecifiers | .attributeList | .attribute | .attributeArguments | .typeClause => true
  -- patterns, blocks, and what no rule wanted
  | .identifierPattern | .wildcardPattern | .tuplePattern | .isTypePattern | .missingPattern
  | .codeBlock | .additionalTrailingClosure | .unexpected => true
  | _ => false

/-- A quiet kind joins nothing to an operand. -/
theorem not_isJoined_of_isQuiet {k : Kind} (h : k.isQuiet) : k.isJoined = false := by
  unfold isQuiet at h
  split at h
  case h_48 => cases h
  all_goals rfl

/-- The nodes whose tokens are kept as they are. -/
def isVerbatim : Kind → Bool
  | .unexpected | .attributeArguments => true
  | _ => false

end Kind

/-- Whether the nodes of a shape outside of brackets, of which some are open, are of some kinds, and
a test holds of the number of brackets that are open behind the shape. -/
def Shape.hides (kinds : Kind → Bool) (behind : Nat → Bool) : Shape → Nat → Bool
  | .nothing, depth => behind depth
  | .token ks, depth | .missing ks, depth =>
    Kind.all.all fun k => !ks k || behind (Ahead.depthAfter depth k)
  | .node ks, depth => (depth != 0 || Kind.implies ks kinds) && behind depth
  | .seq a b, depth => a.hides kinds (fun depth => b.hides kinds behind depth) depth
  | .alt a b, depth => a.hides kinds behind depth && b.hides kinds behind depth
  | .many a, depth => a.hides kinds (· == depth) depth && behind depth

/-- Quiet nodes only have quiet nodes outside of their brackets. -/
theorem Kind.hides_shape {k : Kind} (h : k.isQuiet) (hsealed : k.isSealed = false)
    (hverbatim : k.isVerbatim = false) : k.shape.hides isQuiet (fun _ => true) 0 := by
  have hall : Kind.all.all fun k =>
      !k.isQuiet || k.isSealed || k.isVerbatim || k.shape.hides isQuiet (fun _ => true) 0 := by
    decide +kernel
  have hk := List.all_eq_true.mp hall k k.mem_all
  rwa [h, hsealed, hverbatim, Bool.not_true, Bool.or_false, Bool.false_or, Bool.false_or] at hk

namespace Green

variable {mode : Mode} {kind : Kind} {g : Green} {cs : List Green}

/-- What is outside of brackets among some trees and others behind them comes one after the other,
but the brackets that the first ones open are open for the others. -/
theorem exposedFrom_append (depth : Nat) (gs hs : List Green) : exposedFrom depth (gs ++ hs)
    = exposedFrom depth gs ++ exposedFrom (gs.foldl depthBehind depth) hs := by
  induction gs generalizing depth with
  | nil => rfl
  | cons g gs ih => rw [List.cons_append, exposedFrom, ih, exposedFrom, List.append_assoc]; rfl

/-- Trees of a shape have the nodes outside of brackets that the shape says. -/
theorem exposedFrom_of_hides {kinds : Kind → Bool} {a : Shape} {gs : List Green} (h : a.Matches gs)
    (hgs : ∀ g ∈ gs, kinds g.kind → ∀ e ∈ g.exposed, kinds e.kind) {depth : Nat}
    {behind : Nat → Bool} (hides : a.hides kinds behind depth) :
    behind (gs.foldl depthBehind depth) ∧ ∀ e ∈ exposedFrom depth gs, kinds e.kind := by
  have hleaf {l : Leaf} {e : Green} {depth : Nat} (he : e ∈ exposedFrom depth [.leaf l]) :
    False := by
    obtain ⟨g, hg, he⟩ := mem_of_mem_exposedFrom he
    obtain rfl := List.mem_singleton.mp hg
    cases he
  induction h generalizing depth behind with
  | nothing => exact ⟨hides, nofun⟩
  | @token ks t hkind =>
    have hbehind := List.all_eq_true.mp hides _ t.kind.mem_all
    rw [hkind, Bool.not_true, Bool.false_or] at hbehind
    exact ⟨hbehind, fun e he => (hleaf he).elim⟩
  | @missing ks k spelling hkind _ =>
    have hbehind := List.all_eq_true.mp hides _ k.mem_all
    rw [hkind, Bool.not_true, Bool.false_or] at hbehind
    exact ⟨hbehind, fun e he => (hleaf he).elim⟩
  | @node ks k cs hkind =>
    obtain ⟨hquiet, hbehind⟩ := (Bool.and_eq_true _ _).mp hides
    refine ⟨hbehind, fun e he => ?_⟩
    rw [exposedFrom, exposedFrom, List.append_nil] at he
    split at he
    · rename_i hdepth
      subst hdepth
      exact hgs _ (List.mem_singleton_self _) (Kind.of_implies hquiet hkind) e he
    · cases he
  | seq _ _ ihx ihy =>
    obtain ⟨hx, hy⟩ := List.forall_mem_append.mp hgs
    -- what is behind the first half tells at which depth the second one starts
    obtain ⟨hmiddle, hxs⟩ := ihx hx hides
    obtain ⟨hbehind, hys⟩ := ihy hy hmiddle
    rw [List.foldl_append, exposedFrom_append]
    exact ⟨hbehind, List.forall_mem_append.mpr ⟨hxs, hys⟩⟩
  | left _ ih => exact ih hgs ((Bool.and_eq_true _ _).mp hides).1
  | right _ ih => exact ih hgs ((Bool.and_eq_true _ _).mp hides).2
  | none => exact ⟨((Bool.and_eq_true _ _).mp hides).2, nofun⟩
  | more _ _ ihx ihy =>
    obtain ⟨hx, hy⟩ := List.forall_mem_append.mp hgs
    obtain ⟨hmiddle, hxs⟩ := ihx hx ((Bool.and_eq_true _ _).mp hides).1
    -- each part of a list closes what it opens, so the next one starts at the same depth
    rw [beq_iff_eq] at hmiddle
    rw [List.foldl_append, exposedFrom_append, hmiddle]
    obtain ⟨hbehind, hys⟩ := ihy hy hides
    exact ⟨hbehind, List.forall_mem_append.mpr ⟨hxs, hys⟩⟩

/-- A node whose tokens are kept as they are has no nodes in it. -/
theorem not_mem_of_isVerbatim (hkind : kind.isVerbatim) (h : kind.shape.Matches cs) (k : Kind)
    (ds : List Green) : .node k ds ∉ cs := by
  have honly : kind.shape.only Kind.never fun _ => true := by
    cases kind
    case unexpected | attributeArguments => decide +kernel
    all_goals cases hkind
  exact fun hc => Bool.false_ne_true (List.all_eq_true.mp (Shape.all_isWithin h honly) _ hc)

/-- Where tokens are kept as they are, there are no nodes. -/
theorem exposedFrom_of_isVerbatim (hkind : kind.isVerbatim) (h : kind.shape.Matches cs)
    (depth : Nat) :
    exposedFrom depth cs = [] := by
  refine List.eq_nil_iff_forall_not_mem.mpr fun e he => ?_
  obtain ⟨c, hc, he⟩ := mem_of_mem_exposedFrom he
  cases c with
  | node k ds => exact not_mem_of_isVerbatim hkind h k ds hc
  | leaf l => cases he

mutual

/-- The nodes of a quiet tree outside of its brackets are quiet. -/
theorem isQuiet_of_mem_exposed : {g : Green} → g.Strict → g.kind.isQuiet →
    ∀ e ∈ g.exposed, e.kind.isQuiet
  | .node kind cs, hstrict, hquiet, e, he => by
    rcases mem_exposed_node he with rfl | ⟨hsealed, he⟩
    · exact hquiet
    · cases hverbatim : kind.isVerbatim with
      | true =>
        rw [exposedFrom_of_isVerbatim hverbatim hstrict.1.shape] at he
        cases he
      | false =>
        exact (exposedFrom_of_hides hstrict.1.shape (isQuiet_of_mem_exposedAll hstrict.2)
          (Kind.hides_shape hquiet hsealed hverbatim)).2 e he
  | .leaf _, _, _, _, he => nomatch he

/-- Below quiet nodes, all nodes outside of brackets are quiet. -/
theorem isQuiet_of_mem_exposedAll : {gs : List Green} → StrictAll gs →
    ∀ g ∈ gs, g.kind.isQuiet → ∀ e ∈ g.exposed, e.kind.isQuiet
  | [], _ => nofun
  | _ :: _, hgs => List.forall_mem_cons.mpr
      ⟨isQuiet_of_mem_exposed hgs.1, isQuiet_of_mem_exposedAll hgs.2⟩

end

/-- A quiet tree heeds every mode. -/
theorem heeds_of_isQuiet (hstrict : g.Strict) (h : g.kind.isQuiet) : g.Heeds mode := by
  have hjoined (e : Green) (he : e ∈ g.exposed) : e.kind.isJoined = false :=
    Kind.not_isJoined_of_isQuiet (isQuiet_of_mem_exposed hstrict h e he)
  refine ⟨fun _ e he => ?_, fun _ e he => ?_⟩
  · cases e with
    | node kind cs =>
      refine takesClosure_of_not_isCall (Bool.eq_false_iff.mpr fun hcall => ?_)
      exact Bool.eq_false_iff.mp (hjoined _ he) (Kind.isJoined_of_isCall hcall)
    | leaf l => rfl
  · cases e with
    | node kind cs => exact breaksLine_of_not_isJoined (hjoined _ he)
    | leaf l => rfl

/-- Trees of a shape that only has quiet nodes heed every mode. -/
theorem heeds_of_only {a : Shape} {gs : List Green} (hstrict : StrictAll gs) (h : a.Matches gs)
    (honly : a.only Kind.isQuiet fun _ => true) : ∀ g ∈ gs, g.Heeds mode := by
  intro g hg
  have hwithin := List.all_eq_true.mp (Shape.all_isWithin h honly) g hg
  cases g with
  | node kind cs => exact heeds_of_isQuiet (deepAll_iff.mp hstrict _ hg) hwithin
  | leaf l => exact .leaf l

end Green

end SwiftTree
