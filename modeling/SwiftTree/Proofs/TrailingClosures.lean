import SwiftTree.Proofs.Evaluation
import SwiftTree.Proofs.TotalViews

/-!
# Calls and the closures behind them

A call is made of what is called, of arguments between parentheses, and of closures behind them of
which only the first has no label (`View.FunctionCall.Reading`). Every call of every tree has such a
reading, since the rules make no others (`View.FunctionCall.exists_reading`).

The view of a call looks for its closure among all its parts, and what is called is the first of
them. So it finds the closure that was read behind the call unless a closure is what is called
(`Entry.trailingClosure_read`); and then it takes the one for the other
(`Entry.trailingClosure_called`).
-/

namespace SwiftTree

open Grammar

namespace Node

variable {n : Node}

/-- The nodes among the parts are the parts that are nodes, in order. -/
theorem green_childNodes : n.childNodes.map green = n.children.filter Green.isNode := by
  have hfrom : ∀ (gs : List Green) (index offset : Nat),
      ((n.elementsFrom index offset gs).filterMap Element.node?).map green
        = gs.filter Green.isNode := by
    intro gs
    induction gs with
    | nil => exact fun _ _ => rfl
    | cons g gs ih =>
      intro index offset
      cases g with
      | node kind cs => exact congrArg (Green.node kind cs :: ·) (ih _ _)
      | leaf l => exact ih _ _
  exact hfrom n.children 0 n.offset

/-- The nodes among the parts are at different places. -/
theorem pairwise_childNodes : n.childNodes.Pairwise fun a b => (a == b) = false := by
  -- their paths end in different indices, which grow from part to part
  have hfrom : ∀ (gs : List Green) (index offset : Nat),
      ((n.elementsFrom index offset gs).filterMap Element.node?).Pairwise
          (fun a b => (a == b) = false) ∧
        ∀ m ∈ (n.elementsFrom index offset gs).filterMap Element.node?,
          ∃ i, index ≤ i ∧ m.path = i :: n.path := by
    intro gs
    induction gs with
    | nil => exact fun _ _ => ⟨.nil, nofun⟩
    | cons g gs ih =>
      intro index offset
      obtain ⟨hpairwise, hpaths⟩ := ih (index + 1) (offset + g.byteLen)
      have hlater : ∀ m ∈ (n.elementsFrom (index + 1) (offset + g.byteLen) gs).filterMap
          Element.node?, ∃ i, index < i ∧ m.path = i :: n.path := hpaths
      cases g with
      | leaf l =>
        exact ⟨hpairwise, fun m hm =>
          let ⟨i, hi, hpath⟩ := hlater m hm
          ⟨i, Nat.le_of_lt hi, hpath⟩⟩
      | node kind cs =>
        refine ⟨.cons (fun m hm => ?_) hpairwise, fun m hm => ?_⟩
        · obtain ⟨i, hi, hpath⟩ := hlater m hm
          refine beq_eq_false_iff_ne.mpr fun heq => ?_
          have hsame : index :: n.path = i :: n.path := (congrArg path heq).trans hpath
          exact Nat.ne_of_lt hi (List.cons.inj hsame).1
        · rcases List.mem_cons.mp hm with rfl | hm
          · exact ⟨index, Nat.le_refl _, rfl⟩
          · obtain ⟨i, hi, hpath⟩ := hlater m hm
            exact ⟨i, Nat.le_of_lt hi, hpath⟩
  exact (hfrom n.children 0 n.offset).1

end Node



namespace Shape

/-- Nodes of a kind are nodes, and of that kind. -/
theorem filter_isNode_of_list {k : Kind} {gs : List Green} (h : (list k).Matches gs) :
    gs.filter Green.isNode = gs ∧ ∀ g ∈ gs, g.kind = k := by
  generalize hshape : list k = shape at h
  induction h with
  | none => exact ⟨rfl, List.forall_mem_nil _⟩
  | more hx _ _ ihy =>
    cases hshape
    cases hx with
    | node hkind =>
      obtain ⟨hfilter, hkinds⟩ := ihy rfl
      refine ⟨congrArg (_ :: ·) hfilter, fun g hg => ?_⟩
      rcases List.mem_cons.mp hg with rfl | hg
      · exact beq_iff_eq.mp hkind
      · exact hkinds g hg
  | _ => cases hshape

/-- The nodes of closures behind a call: the first, and others with labels. -/
theorem filter_isNode_of_trailing {gs : List Green} (h : trailing.Matches gs) :
    ∃ closure labelled, gs.filter Green.isNode = closure :: labelled ∧
      closure.kind = .closureExpr ∧ ∀ g ∈ labelled, g.kind = .additionalTrailingClosure := by
  cases h with
  | seq hclosure hlabelled =>
    obtain ⟨hfilter, hkinds⟩ := filter_isNode_of_list hlabelled
    cases hclosure with
    | node hkind =>
      exact ⟨_, _, congrArg (_ :: ·) hfilter, beq_iff_eq.mp hkind, hkinds⟩

/-- The node of arguments between brackets. -/
theorem filter_isNode_of_arguments {opener closer : Kind} {gs : List Green}
    (h : (arguments opener closer).Matches gs) :
    ∃ list, gs.filter Green.isNode = [list] ∧ list.kind = .argumentList := by
  cases h with
  | seq hopener hrest =>
    cases hopener
    cases hrest with
    | seq hlist hcloser =>
      cases hlist with
      | @node _ kind cs hkind =>
        refine ⟨.node kind cs, ?_, beq_iff_eq.mp hkind⟩
        cases hcloser with
        | left hread => cases hread; rfl
        | right hmissing => cases hmissing; rfl

/-- What follows the callee of a call: arguments, closures or both. -/
theorem functionCall_cases {gs : List Green} (h : (Kind.exactShape .functionCallExpr).Matches gs) :
    ∃ callee rest, gs = callee :: rest ∧ callee.isNode ∧ callee.kind.isExpression ∧
      (trailing.Matches rest ∨ ∃ front behind, rest = front ++ behind ∧
        (arguments .leftParen .rightParen).Matches front ∧ (opt trailing).Matches behind) := by
  cases h with
  | seq hcallee hrest =>
    cases hcallee with
    | node hexpression =>
      refine ⟨_, _, rfl, rfl, hexpression, ?_⟩
      cases hrest with
      | right htrailing => exact .inl htrailing
      | left hparens =>
        cases hparens with
        | @seq _ _ opener _ hopener hparens =>
          cases hparens with
          | @seq _ _ list _ hlist hparens =>
            cases hparens with
            | @seq _ _ closer behind hcloser hbehind =>
              refine .inr ⟨opener ++ (list ++ closer), behind, ?_,
                .seq hopener (.seq hlist hcloser), hbehind⟩
              rw [List.append_assoc, List.append_assoc]
              rfl

end Shape

namespace View

/-- Nodes whose trees are all of one kind are views of it. -/
theorem exists_map_eq {k : Kind} {ns : List Node} {gs : List Green} (hns : ns.map Node.green = gs)
    (hgs : ∀ g ∈ gs, g.kind = k) : ∃ vs : List (Of k), vs.map View.node = ns := by
  have hkinds : ∀ m ∈ ns, (m.kind == k) = true := fun m hm =>
    beq_iff_eq.mpr (hgs m.green (hns ▸ List.mem_map_of_mem hm))
  refine ⟨ns.attach.map fun m => ⟨m.1, hkinds m.1 m.2⟩, ?_⟩
  rw [List.map_map]
  exact List.attach_map_subtype_val ns

end View

namespace View.FunctionCall

/-- What a call was read as: what is called, the list of the arguments if there are parentheses, the
closure behind it, if there is one, and the closures with labels behind that. -/
structure Reading (v : FunctionCall) where
  /-- what is called -/
  callee : Expression
  /-- the arguments in parentheses -/
  arguments : Option (Of .argumentList)
  /-- the closure without a label -/
  closure : Option Closure
  /-- the closures with labels -/
  labelled : List (Of .additionalTrailingClosure)
  /-- these are all nodes of the call, in order -/
  childNodes_eq : v.node.childNodes = callee.node ::
    (arguments.toList.map View.node ++ (closure.toList.map View.node ++ labelled.map View.node))
  /-- something makes it a call -/
  isCalled : arguments.isSome ∨ closure.isSome
  /-- labels stand behind a closure without one -/
  labelled_eq_nil : closure = none → labelled = []

variable {v : FunctionCall}

/-- The nodes of closures behind a call are views of them. -/
theorem exists_trailing {ms : List Node} {gs : List Green} (h : Shape.trailing.Matches gs)
    (hms : ms.map Node.green = gs.filter Green.isNode) :
    ∃ (closure : Closure) (labelled : List (Of .additionalTrailingClosure)),
      ms = closure.node :: labelled.map View.node := by
  obtain ⟨closure, labelled, hfilter, hclosure, hlabelled⟩ := Shape.filter_isNode_of_trailing h
  rw [hfilter] at hms
  obtain ⟨c, ls, rfl, rfl, hls⟩ := List.map_eq_cons_iff.mp hms
  obtain ⟨vs, rfl⟩ := exists_map_eq hls hlabelled
  exact ⟨⟨c, beq_iff_eq.mpr hclosure⟩, vs, rfl⟩

/-- **Every call has a reading.** This follows from the shape of calls, one case for each way in
which arguments and closures can be there or not. -/
theorem exists_reading (h : v.node.green.Strict) : Nonempty v.Reading := by
  obtain ⟨callee, rest, hchildren, hcallee, hexpression, hrest⟩ :=
    Shape.functionCall_cases (exactShape_of_strict h)
  have hnodes := v.node.green_childNodes
  rw [hchildren, List.filter_cons_of_pos hcallee] at hnodes
  obtain ⟨m, ms, hms, rfl, hbehind⟩ := List.map_eq_cons_iff.mp hnodes
  have hm : Kind.isExpression m.kind := hexpression
  -- without arguments a closure is what makes it a call
  rcases hrest with htrailing | ⟨front, behind, rfl, harguments, htrailing⟩
  · obtain ⟨closure, labelled, rfl⟩ := exists_trailing htrailing hbehind
    exact ⟨⟨⟨m, hm⟩, none, some closure, labelled, hms, .inr rfl, nofun⟩⟩
  · obtain ⟨list, hlist, hkind⟩ := Shape.filter_isNode_of_arguments harguments
    rw [List.filter_append, hlist, List.singleton_append] at hbehind
    obtain ⟨a, ms, rfl, rfl, hlast⟩ := List.map_eq_cons_iff.mp hbehind
    have ha : (a.kind == .argumentList) = true := beq_iff_eq.mpr hkind
    cases htrailing with
    | left htrailing =>
      obtain ⟨closure, labelled, rfl⟩ := exists_trailing htrailing hlast
      exact ⟨⟨⟨m, hm⟩, some ⟨a, ha⟩, some closure, labelled, hms, .inl rfl, nofun⟩⟩
    | right hnone =>
      cases hnone
      cases List.map_eq_nil_iff.mp hlast
      exact ⟨⟨⟨m, hm⟩, some ⟨a, ha⟩, none, [], hms, .inl rfl, fun _ => rfl⟩⟩

namespace Reading

/-- What is called is what its view finds. -/
theorem callee_eq (r : v.Reading) : v.callee = some r.callee := by
  rw [FunctionCall.callee, Node.childView, Node.childViews, r.childNodes_eq, List.filterMap_cons,
    Node.view?, dif_pos r.callee.isForm]
  rfl

/-- Nodes of one kind are no views of another. -/
theorem filterMap_view? {j k : Kind} (hne : j ≠ k) (vs : List (Of j)) :
    (vs.map View.node).filterMap (Node.view? : Node → Option (Of k)) = [] := by
  rw [List.filterMap_map, List.filterMap_eq_nil_iff]
  intro w _
  refine dif_neg fun hform => hne ?_
  rw [← beq_iff_eq.mp w.isForm, beq_iff_eq.mp hform]

/-- The closure without a label is the first one behind what is called. -/
theorem closure_eq (r : v.Reading) :
    r.closure = (v.node.childNodes.tail.filterMap Node.view?).head? := by
  have harguments := filterMap_view? (k := .closureExpr) (by decide) r.arguments.toList
  have hlabelled := filterMap_view? (k := .closureExpr) (by decide) r.labelled
  rw [r.childNodes_eq, List.tail_cons, List.filterMap_append, List.filterMap_append, harguments,
    hlabelled]
  cases hclosure : r.closure with
  | none => rfl
  | some c =>
    rw [Option.toList_some, List.map_singleton, List.filterMap_cons, Node.view?, dif_pos c.isForm]
    rfl

/-- The view finds the closure behind the call if no closure is called. -/
theorem trailingClosure_eq (r : v.Reading) (h : r.callee.node.kind ≠ .closureExpr) :
    v.trailingClosure = r.closure := by
  have hnone : (Node.view? r.callee.node : Option Closure) = none :=
    dif_neg fun hform => h (beq_iff_eq.mp hform)
  rw [r.closure_eq, trailingClosure, Node.childView, Node.childViews, r.childNodes_eq,
    List.filterMap_cons, hnone, List.tail_cons]

/-- What is called and the closure behind it are at different places. -/
theorem callee_ne_closure (r : v.Reading) {c : Closure} (hc : r.closure = some c) :
    (r.callee.node == c.node) = false := by
  have hpairwise := v.node.pairwise_childNodes
  rw [r.childNodes_eq] at hpairwise
  refine (List.pairwise_cons.mp hpairwise).1 c.node ?_
  rw [hc]
  exact List.mem_append_right _ (List.mem_append_left _ List.mem_cons_self)

end Reading

end View.FunctionCall

namespace Entry

/-- **Trailing closures.** Every call in the tree of every text is read as what is called, its
arguments and the closures behind it. The view of a call finds what is called; and if that is not a
closure itself, then it finds the closure without a label exactly if there is one, and never what is
called. -/
theorem trailingClosure_read (e : Entry) (text : Text) {v : View.FunctionCall}
    (hv : v.node ∈ (Node.ofGreen (e.tree text)).descendants) :
    ∃ r : v.Reading, v.callee = some r.callee ∧
      (r.callee.node.kind ≠ .closureExpr → v.trailingClosure = r.closure ∧
        ∀ c, v.trailingClosure = some c → (r.callee.node == c.node) = false) := by
  obtain ⟨r⟩ := View.FunctionCall.exists_reading (strict_of_mem_descendants hv)
  refine ⟨r, r.callee_eq, fun hkind => ⟨r.trailingClosure_eq hkind, fun c hc => ?_⟩⟩
  rw [r.trailingClosure_eq hkind] at hc
  exact r.callee_ne_closure hc

/-- The theorem at `f(){}`, where a name is called. -/
theorem trailingClosure_read_named :
    ∃ v : View.FunctionCall,
      v.node ∈ (Node.ofGreen (sourceFile.tree ['f', '(', ')', '{', '}'])).descendants ∧
        ∃ r : v.Reading, r.closure.isSome ∧ v.trailingClosure = r.closure := by
  obtain ⟨n, hn, hkind, hcallee, hclosure⟩ : ∃ n ∈ (Node.ofGreen
      (sourceFile.tree ['f', '(', ')', '{', '}'])).descendants,
        (n.kind == .functionCallExpr) = true ∧
        (∀ callee ∈ (n.childView : Option View.Expression), callee.node.kind ≠ .closureExpr) ∧
          (n.childView : Option View.Closure).isSome :=
    of_decide_eq_true (of_tree? (n := 20) (p := fun tree => ∃ n ∈ (Node.ofGreen tree).descendants,
      (n.kind == .functionCallExpr) = true ∧
        (∀ callee ∈ (n.childView : Option View.Expression), callee.node.kind ≠ .closureExpr) ∧
          (n.childView : Option View.Closure).isSome) (by decide +kernel))
  obtain ⟨r, hr, hread⟩ := trailingClosure_read .sourceFile _ (v := ⟨n, hkind⟩) hn
  obtain ⟨hsame, -⟩ := hread (hcallee _ hr)
  exact ⟨⟨n, hkind⟩, hn, r, by rw [← hsame]; exact hclosure, hsame⟩

/-- In `{}()` a closure is called, and no closure stands behind the call. The view finds the one
that is called. -/
theorem trailingClosure_called :
    ∃ v : View.FunctionCall,
    v.node ∈ (Node.ofGreen (sourceFile.tree ['{', '}', '(', ')'])).descendants ∧
      (∀ r : v.Reading, r.closure = none) ∧
        ∃ c, v.trailingClosure = some c ∧ v.callee.map View.node = some c.node := by
  obtain ⟨n, hn, hkind, hnone, hcalled⟩ : ∃ n ∈ (Node.ofGreen
      (sourceFile.tree ['{', '}', '(', ')'])).descendants, (n.kind == .functionCallExpr) = true ∧
        (n.childNodes.tail.filterMap Node.view? : List View.Closure).head? = none ∧
          ∃ c ∈ (n.childView : Option View.Closure),
            (n.childView : Option View.Expression).map View.node = some c.node :=
    of_decide_eq_true (of_tree? (n := 20) (p := fun tree => ∃ n ∈ (Node.ofGreen tree).descendants,
      (n.kind == .functionCallExpr) = true ∧
        (n.childNodes.tail.filterMap Node.view? : List View.Closure).head? = none ∧
          ∃ c ∈ (n.childView : Option View.Closure),
            (n.childView : Option View.Expression).map View.node = some c.node) (by decide +kernel))
  exact ⟨⟨n, hkind⟩, hn, fun r => r.closure_eq.trans hnone, hcalled⟩

end Entry

end SwiftTree
