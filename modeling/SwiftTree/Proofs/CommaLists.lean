import SwiftTree.Proofs.Evaluation
import SwiftTree.Proofs.Placement.Statements

/-!
# The elements of lists

A list is made of elements, each with the comma behind it. Commas stand nowhere else in a list, so
each of them ends an element, and an element before another one has its comma
(`Entry.elements_apart`). Where nothing is written before a comma, a placeholder stands for the
value of the element: an empty place does not make a list shorter. What no element can go on with
ends the list, though, and the commas in what is skipped then separate nothing
(`Entry.elements_dropped`).

The elements of a bracket literal are all of one kind. Which one it is can be told by the token
behind the first expression in it.
-/

namespace SwiftTree

open Grammar

/-- The nodes for the value of an element: its expression, condition, pattern or type. -/
def Kind.isValueOf (element : Kind) : Kind → Bool :=
  match element with
  | .caseItem | .catchItem | .patternBinding | .tuplePatternElement => isPattern
  | .genericArgument | .tupleTypeElement => isType
  | .conditionElement => fun k =>
    k.isExpression || k == .optionalBindingCondition || k == .matchingPatternCondition
  | _ => isExpression

/-- The nodes that can be placeholders. -/
def Kind.isVacant (k : Kind) : Bool := k.isMissingNode || k == .expressionPattern

/-- What an element is made of besides its comma: if it has a value, only that may be a
placeholder. -/
def Shape.fits (element : Kind) (a : Shape) : Bool :=
  a.only (fun _ => true) (· != .comma) && (!element.hasValue ||
    (a.only (fun k => !k.isVacant || element.isValueOf k) (fun _ => true)
      && a.least element.isValueOf Kind.never != 0))

/-- The shape of every element is that of a value with the comma behind it. -/
theorem Kind.exists_elementShape {kind : Kind} (h : kind.isElement) :
    ∃ a : Shape, kind.shape = .element a ∧ a.fits kind := by
  unfold isElement at h
  split at h
  case h_15 => cases h
  all_goals exact ⟨_, rfl, rfl⟩

/-- A list has no comma of its own, and what is no list has no elements. -/
theorem Kind.only_shape (kind : Kind) :
    if kind.hasElements then kind.shape.only (fun _ => true) (· != .comma)
    else kind.shape.only (fun k => !k.isElement) fun _ => true := by
  have hall : all.all fun k => if k.hasElements then k.shape.only (fun _ => true) (· != .comma)
      else k.shape.only (fun k => !k.isElement) fun _ => true := by decide +kernel
  have hkind := List.all_eq_true.mp hall kind kind.mem_all
  cases hlist : kind.hasElements <;> simpa [hlist] using hkind

namespace Green

variable {kind : Kind} {cs front comma : List Green}

/-- A placeholder has no tokens. -/
theorem isVacant_of_isPlaceholder {g : Green} (h : g.isPlaceholder) : g.kind.isVacant := by
  unfold isPlaceholder at h
  split at h
  · rfl
  · rw [Kind.isVacant]
    exact (Bool.or_eq_true ..).mpr (.inl h)
  · cases h

/-- Where a shape has no commas, no tree is one. -/
theorem not_isComma_of_only {a : Shape} (h : a.Matches cs)
    (ha : a.only (fun _ => true) (· != .comma)) : ∀ c ∈ cs, c.isComma = false := by
  intro c hc
  have hwithin := List.all_eq_true.mp (Shape.all_isWithin h ha) c hc
  cases c with
  | node kind ds => rfl
  | leaf l =>
    cases l with
    | present t => exact beq_false_of_ne (bne_iff_ne.mp hwithin)
    | missing kind spelling => rfl

/-- Where nothing was read in several trees, nothing was read in one of them. -/
theorem not_hasPresent_of_mem {g : Green} (h : hasPresentOf cs = false) (hg : g ∈ cs) :
    g.hasPresent = false := by
  obtain ⟨before, after, rfl⟩ := List.append_of_mem hg
  rw [hasPresentOf_append, hasPresentOf, Bool.or_eq_false_iff, Bool.or_eq_false_iff] at h
  exact h.2.1

/-- The value of an element is a placeholder if nothing was written in it but a comma. -/
theorem exists_value {a : Shape} (h : a.Matches front) (ha : a.fits kind) (hvalue : kind.hasValue)
    (hcomma : ∀ c ∈ comma, c.isComma) (hfilled : isFilled (front ++ comma)) :
    ∃ v ∈ front, kind.isValueOf v.kind ∧ (hasPresentOf front = false → v.isPlaceholder) := by
  rw [Shape.fits, hvalue, Bool.not_true, Bool.false_or, Bool.and_eq_true, Bool.and_eq_true] at ha
  obtain ⟨-, honly, hleast⟩ := ha
  cases hpresent : hasPresentOf front with
  | true =>
    have hcount : _ ≤ front.countP (isAmong kind.isValueOf Kind.never) := Shape.least_le_countP h
    have hpos := Nat.lt_of_lt_of_le (Nat.pos_of_ne_zero (bne_iff_ne.mp hleast)) hcount
    obtain ⟨v, hv, hkind⟩ := List.countP_pos_iff.mp hpos
    refine ⟨v, hv, ?_, fun h => absurd h Bool.true_eq_false.mp⟩
    cases v with
    | node k ds => exact hkind
    | leaf l => cases l <;> cases hkind
  | false =>
    rw [isFilled_append, Bool.or_eq_true, isFilled, isFilled, List.any_eq_true,
      List.any_eq_true] at hfilled
    rcases hfilled with ⟨v, hv, hfills⟩ | ⟨c, hc, hfills⟩
    · rw [not_hasPresent_of_mem hpresent hv, Bool.false_and, Bool.or_false] at hfills
      refine ⟨v, hv, ?_, fun _ => hfills⟩
      have hvacant := isVacant_of_isPlaceholder hfills
      have hwithin := List.all_eq_true.mp (Shape.all_isWithin h honly) v hv
      cases v with
      | node k ds =>
        have hor : (!k.isVacant || kind.isValueOf k) = true := hwithin
        rwa [show k.isVacant = true from hvacant, Bool.not_true, Bool.false_or] at hor
      | leaf l => cases hfills
    · have hleaf := hcomma c hc
      cases c with
      | node k ds => cases hleaf
      | leaf l =>
        rw [hleaf, Bool.not_true, Bool.and_false, Bool.or_false] at hfills
        cases hfills

/-- A token of a steady kind is seen just if it comes next. -/
theorem isAt_sightOf {k : Kind} (hsteady : k.isSteady) (hend : k ≠ .endOfFile) (gs : List Green) :
    (sightOf gs none).isAt k = (tokensOf gs).head?.any (·.kind == k) := by
  rw [sightOf]
  cases tokensOf gs with
  | nil => rfl
  | cons t ts => exact Token.Outline.isAt_sight hsteady hend

/-- What an element is made of. -/
theorem exists_element (h : kind.isElement) (hshape : kind.shape.Matches cs)
    (hfilled : kind.hasValue → isFilled cs) : ∃ front comma, cs = front ++ comma ∧
      (∀ c ∈ front, c.isComma = false) ∧ (∀ c ∈ comma, c.isComma) ∧ comma.length ≤ 1 ∧
      (kind.hasValue → ∃ v ∈ front, kind.isValueOf v.kind ∧
        (hasPresentOf front = false → v.isPlaceholder)) := by
  obtain ⟨a, ha, hfits⟩ := Kind.exists_elementShape h
  rw [ha] at hshape
  cases hshape with
  | @seq _ _ front comma hfront hcomma =>
    have hclosing : (∀ c ∈ comma, c.isComma) ∧ comma.length ≤ 1 := by
      cases hcomma with
      | left hcomma =>
        obtain ⟨t, rfl, ht⟩ := hcomma.exists_token
        exact ⟨List.forall_mem_singleton.mpr ht, Nat.le_refl 1⟩
      | right hcomma =>
        cases hcomma
        exact ⟨List.forall_mem_nil _, Nat.zero_le 1⟩
    exact ⟨front, comma, rfl, not_isComma_of_only hfront (Bool.and_elim_left hfits), hclosing.1,
      hclosing.2, fun hvalue => exists_value hfront hfits hvalue hclosing.1 (hfilled hvalue)⟩

/-- The elements of a bracket literal are of the kind that its list tells. -/
theorem kind_of_bracketElement {g : Green} (h : kind.isBracketList) (hshape : kind.shape.Matches cs)
    (hg : g ∈ cs) (helement : g.isElement) :
    g.kind = if kind == .dictionaryElementList then .dictionaryElement else .arrayElement := by
  have honly : kind.shape.only (fun k => !k.isElement ||
      k == if kind == .dictionaryElementList then .dictionaryElement else .arrayElement)
      fun _ => true := by
    rw [Kind.isBracketList, Bool.or_eq_true, beq_iff_eq, beq_iff_eq] at h
    rcases h with rfl | rfl <;> decide +kernel
  have hwithin := List.all_eq_true.mp (Shape.all_isWithin hshape honly) g hg
  cases g with
  | node k ds =>
    have hk : k.isElement = true := helement
    have hor : (!k.isElement || k == _) = true := hwithin
    rw [hk] at hor
    exact beq_iff_eq.mp hor
  | leaf l =>
    rw [isElement_leaf] at helement
    cases helement

end Green

namespace Entry

/-- **The elements of a list are kept apart.** A comma of a list stands at the end of an element,
and an element before another one ends with one. An element with a value has it among the parts
before the comma, and a placeholder if nothing was written there. The elements of a bracket literal
are of one kind, which a colon behind the first expression tells. -/
theorem elements_apart (e : Entry) (text : Text) {n : Node}
    (hn : n ∈ (Node.ofGreen (e.tree text)).descendants) :
    (n.kind.isElement → ∃ front comma, n.children = front ++ comma ∧
      (∀ c ∈ front, c.isComma = false) ∧ (∀ c ∈ comma, c.isComma) ∧ comma.length ≤ 1 ∧
      (n.kind.hasValue → ∃ v ∈ front, n.kind.isValueOf v.kind ∧
        (Green.hasPresentOf front = false → v.isPlaceholder))) ∧
    (n.kind.hasElements → ∀ c ∈ n.children, c.isComma = false) ∧
    n.children.Pairwise (fun c d => c.isElement → d.isElement → c.endsInComma) ∧
    (n.kind.isBracketList →
      (∀ c ∈ n.children, c.isElement → c.kind =
        if n.kind == .dictionaryElementList then .dictionaryElement else .arrayElement) ∧
      ∀ first rest, n.children = first :: rest → ∃ key front, first.children = key :: front ∧
        ((Green.tokensOf (front ++ rest ++ n.behind)).head?.any (·.kind == .colon)
          = (n.kind == .dictionaryElementList))) := by
  have hshape : n.kind.shape.Matches n.children := (strict_of_mem_descendants hn).1.shape
  have hplaced : Green.Placed n.kind n.children (Green.sightOf n.behind none) :=
    (stands_of_mem_descendants placing_met hn).1
  have honly := n.kind.only_shape
  refine ⟨fun hkind => Green.exists_element hkind hshape hplaced.listed.filled, fun hlist => ?_, ?_,
    fun hbracket => ⟨fun c hc => Green.kind_of_bracketElement hbracket hshape hc, ?_⟩⟩
  · rw [if_pos hlist] at honly
    exact Green.not_isComma_of_only hshape honly
  · by_cases hlist : n.kind.hasElements
    · exact hplaced.listed.apart hlist
    · rw [if_neg hlist] at honly
      refine Green.apart_of_forall fun g hg => ?_
      have hwithin := List.all_eq_true.mp (Shape.all_isWithin hshape honly) g hg
      cases g with
      | node k ds => exact (Bool.not_eq_true' _).mp hwithin
      | leaf l => exact Green.isElement_leaf l
  · intro first rest hcons
    obtain ⟨key, front, hfirst, hcolon⟩ := hplaced.listed.told hbracket first rest hcons
    refine ⟨key, front, hfirst, ?_⟩
    rw [← hcolon, ← Green.sightOf_append, Green.isAt_sightOf rfl (by decide)]

/-- The theorem at `[a: b, , c]`, a list of three elements. In the second one there is nothing but a
placeholder. -/
theorem elements_apart_literal :
    let nodes := (Node.ofGreen ((expression {}).tree
      ['[', 'a', ':', ' ', 'b', ',', ' ', ',', ' ', 'c', ']'])).descendants
    (∃ n ∈ nodes, n.children.length = 3 ∧
      n.children.Pairwise (fun c d => c.isElement → d.isElement → c.endsInComma) ∧
      ∀ c ∈ n.children, c.isElement → c.kind = .dictionaryElement) ∧
    ∃ m ∈ nodes, m.kind = .dictionaryElement ∧ ∃ front comma, m.children = front ++ comma ∧
      Green.hasPresentOf front = false ∧ ∃ v ∈ front, v.isPlaceholder := by
  intro nodes
  have hlist : ∃ n ∈ nodes, n.kind = .dictionaryElementList ∧ n.children.length = 3 :=
    of_decide_eq_true (of_tree? (n := 20) (p := fun tree => ∃ n ∈ (Node.ofGreen tree).descendants,
      n.kind = .dictionaryElementList ∧ n.children.length = 3) (by decide +kernel))
  have hempty : ∃ m ∈ nodes, m.kind = .dictionaryElement ∧
      Green.hasPresentOf (m.children.filter fun c => !c.isComma) = false :=
    of_decide_eq_true (of_tree? (n := 20) (p := fun tree => ∃ m ∈ (Node.ofGreen tree).descendants,
      m.kind = .dictionaryElement ∧
        Green.hasPresentOf (m.children.filter fun c => !c.isComma) = false) (by decide +kernel))
  obtain ⟨n, hn, hkind, hlength⟩ := hlist
  obtain ⟨m, hm, helement, hnothing⟩ := hempty
  refine ⟨⟨n, hn, hlength, (elements_apart (.expression {}) _ hn).2.2.1, ?_⟩, m, hm, helement, ?_⟩
  · have hkinds := ((elements_apart (.expression {}) _ hn).2.2.2 (by rw [hkind]; rfl)).1
    rwa [hkind] at hkinds
  · obtain ⟨front, comma, hsplit, hfront, hcomma, -, hvalue⟩ :=
      (elements_apart (.expression {}) _ hm).1 (by rw [helement]; rfl)
    have hparts : m.children.filter (fun c => !c.isComma) = front := by
      rw [hsplit, List.filter_append, List.filter_eq_self.mpr, List.filter_eq_nil_iff.mpr,
        List.append_nil]
      · exact fun c hc => by simp [hcomma c hc]
      · exact fun c hc => by simp [hfront c hc]
    rw [hparts] at hnothing
    obtain ⟨v, hv, -, hplaceholder⟩ := hvalue (by rw [helement]; rfl)
    exact ⟨front, comma, hsplit, hnothing, v, hv, hplaceholder hnothing⟩

/-- What no element can go on with ends the list, and with it all that follows up to the closing
token is skipped: `f(a, c)` has two arguments, and in `f(a b, c)` there is one. -/
theorem elements_dropped :
    (∃ n ∈ (Node.ofGreen ((expression {}).tree
        ['f', '(', 'a', ',', ' ', 'c', ')'])).descendants,
      n.kind = .argumentList ∧ n.children.countP Green.isElement = 2) ∧
    ∃ n ∈ (Node.ofGreen ((expression {}).tree
        ['f', '(', 'a', ' ', 'b', ',', ' ', 'c', ')'])).descendants,
      n.kind = .argumentList ∧ n.children.countP Green.isElement = 1 ∧
        ∃ c ∈ n.children, c.kind = .unexpected ∧ ∃ d ∈ c.children, d.isComma := by
  refine ⟨?_, ?_⟩
  · exact of_decide_eq_true
      (of_tree? (n := 20) (p := fun tree => ∃ n ∈ (Node.ofGreen tree).descendants,
      n.kind = .argumentList ∧ n.children.countP Green.isElement = 2) (by decide +kernel))
  · exact of_decide_eq_true
      (of_tree? (n := 20) (p := fun tree => ∃ n ∈ (Node.ofGreen tree).descendants,
      n.kind = .argumentList ∧ n.children.countP Green.isElement = 1 ∧
        ∃ c ∈ n.children, c.kind = .unexpected ∧ ∃ d ∈ c.children, d.isComma) (by decide +kernel))

end Entry

end SwiftTree
