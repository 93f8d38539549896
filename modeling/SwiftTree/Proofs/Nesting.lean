import SwiftTree.Proofs.Clean
import SwiftTree.Proofs.Evaluation

/-!
# Clean trees nest their brackets

The brackets of some tokens nest if every closing one belongs to the last opening one that is still
open, and none is open at the end (`Kind.WellNested`). Which brackets a node has of its own can be
read off its shape (`Shape.nests`), as long as nothing is missing and nothing unexpected is kept.
All shapes of nodes are of this sort but two. Unexpected text is always reported; the arguments of
an attribute are kept as they are, with whatever is in them.

So what a clean tree says of its text is this. If the arguments of all attributes are well nested,
the text is (`Entry.wellNested_stream`). Without that it need not be.
-/

namespace SwiftTree

open Grammar

namespace Kind

/-! ## Brackets -/

/-- The brackets that are open behind a token, the last one first. There is no answer if a bracket
closes another one than the last. -/
def nestStep (opened : List Kind) (k : Kind) : Option (List Kind) :=
  if openers.contains k then some (k :: opened)
  else if closers.contains k then
    if opened.head? = k.openingDelimiter then some opened.tail else none
  else some opened

/-- The brackets that are open behind several tokens. -/
def nest (opened ks : List Kind) : Option (List Kind) := ks.foldlM nestStep opened

/-- Whether tokens have all been recognised, every bracket closes the last one that is open, and
none is left open. -/
structure WellNested (ks : List Kind) : Prop where
  known : .unknown ∉ ks
  closed : nest [] ks = some []

instance (ks : List Kind) : Decidable (WellNested ks) :=
  decidable_of_iff (.unknown ∉ ks ∧ nest [] ks = some []) ⟨fun h => ⟨h.1, h.2⟩, fun h => ⟨h.1, h.2⟩⟩

/-- The kinds that matter: brackets, and what the tokenizer did not recognise. -/
def marked : List Kind :=
  [.leftParen, .rightParen, .leftBracket, .rightBracket, .leftBrace, .rightBrace, .unknown]

/-- An opening bracket and the closing one. -/
def pairs : List (Kind × Kind) :=
  [(.leftParen, .rightParen), (.leftBracket, .rightBracket), (.leftBrace, .rightBrace)]

/-- Whether tokens leave the brackets as they were, whatever is open. -/
structure Even (ks : List Kind) : Prop where
  known : .unknown ∉ ks
  closed (opened : List Kind) : nest opened ks = some opened

variable {k : Kind} {ks js : List Kind}

theorem even_nil : Even [] := ⟨List.not_mem_nil, fun _ => rfl⟩

theorem nest_cons (opened : List Kind) (k : Kind) (ks : List Kind) :
    nest opened (k :: ks) = (nestStep opened k).bind fun opened' => nest opened' ks :=
  List.foldlM_cons

/-- The brackets behind one token are those behind a step. -/
theorem nest_singleton (opened : List Kind) (k : Kind) : nest opened [k] = nestStep opened k := by
  rw [nest_cons]
  exact Option.bind_fun_some _

theorem nest_append (opened ks js : List Kind) :
    nest opened (ks ++ js) = (nest opened ks).bind fun opened' => nest opened' js :=
  List.foldlM_append

/-- Tokens that are even, one behind the other, are even together. -/
theorem Even.append (h : Even ks) (h' : Even js) : Even (ks ++ js) := by
  refine ⟨fun hmem => (List.mem_append.mp hmem).elim h.known h'.known, fun opened => ?_⟩
  rw [nest_append, h.closed, Option.bind_some, h'.closed]

/-- Tokens that do not matter to the nesting leave the brackets as they are. -/
theorem nestStep_of_not_marked (h : k ∉ marked) (opened : List Kind) :
    nestStep opened k = some opened := by
  have hunmarked (js : List Kind) (hjs : ∀ j ∈ js, j ∈ marked) :
      (KindSet.ofList js).contains k = false := by
    rw [KindSet.contains_ofList, ← Bool.not_eq_true, List.contains_iff_mem]
    exact mt (hjs k) h
  have hopen : openers.contains k = false := hunmarked _ (by decide)
  have hclose : closers.contains k = false := hunmarked _ (by decide)
  rw [nestStep, hopen, hclose, if_neg Bool.false_ne_true, if_neg Bool.false_ne_true]

/-- So such a token is even on its own. -/
theorem even_singleton (h : k ∉ marked) : Even [k] := by
  refine ⟨fun hmem => ?_, fun opened => ?_⟩
  · rw [← List.mem_singleton.mp hmem] at h
    exact h (by decide)
  · rw [nest_singleton, nestStep_of_not_marked h]

/-- A bracket, something even, and the bracket that closes the first one. -/
theorem Even.enclosed {o c : Kind} (hpair : (o, c) ∈ pairs) (h : Even ks) :
    Even (o :: (ks ++ [c])) := by
  have hpairs : ∀ p ∈ pairs, p.1 ≠ .unknown ∧ p.2 ≠ .unknown ∧ openers.contains p.1 ∧
      openers.contains p.2 = false ∧ closers.contains p.2 ∧ p.2.openingDelimiter = some p.1 := by
    decide
  obtain ⟨ho, hc, hopen, hc', hclose, hdelimiter⟩ := hpairs _ hpair
  refine ⟨fun hmem => ?_, fun opened => ?_⟩
  · rcases List.mem_cons.mp hmem with heq | hmem
    · exact ho heq.symm
    · rcases List.mem_append.mp hmem with hmem | hmem
      · exact h.known hmem
      · exact hc (List.mem_singleton.mp hmem).symm
  · have hstart : nestStep opened o = some (o :: opened) := if_pos hopen
    have hend : nestStep (o :: opened) c = some opened := by
      rw [nestStep, hc', hclose, if_neg Bool.false_ne_true, if_pos rfl, hdelimiter, List.head?_cons,
        if_pos rfl, List.tail_cons]
    calc nest opened (o :: (ks ++ [c]))
        = (nestStep opened o).bind fun opened' => nest opened' (ks ++ [c]) := nest_cons ..
      _ = nest (o :: opened) (ks ++ [c]) := by rw [hstart, Option.bind_some]
      _ = nest (o :: opened) [c] := by rw [nest_append, h.closed, Option.bind_some]
      _ = nestStep (o :: opened) c := nest_singleton ..
      _ = some opened := hend

/-- What a token does to the brackets that are open does not depend on those further out. -/
theorem nestStep_append_opened {opened opened' : List Kind} (h : nestStep opened k = some opened')
    (outer : List Kind) : nestStep (opened ++ outer) k = some (opened' ++ outer) := by
  rw [nestStep] at h ⊢
  split at h
  · rename_i hopen
    rw [if_pos hopen, ← Option.some.inj h, List.cons_append]
  · rename_i hopen
    rw [if_neg hopen]
    split at h
    · rename_i hclose
      rw [if_pos hclose]
      split at h
      · rename_i hhead
        cases opened with
        | nil =>
          have hsome : ∀ j ∈ [Kind.rightParen, .rightBracket, .rightBrace],
              none ≠ j.openingDelimiter := by decide
          rw [closers, KindSet.contains_ofList, List.contains_iff_mem] at hclose
          exact absurd hhead (hsome k hclose)
        | cons o opened =>
          rw [List.cons_append, List.head?_cons, ← List.head?_cons, if_pos hhead,
            ← Option.some.inj h]
          rfl
      · cases h
    · rename_i hclose
      rw [if_neg hclose, ← Option.some.inj h]

/-- Brackets further out do not matter to those that are opened and closed inside. -/
theorem nest_append_opened {opened opened' : List Kind} (h : nest opened ks = some opened')
    (outer : List Kind) : nest (opened ++ outer) ks = some (opened' ++ outer) := by
  induction ks generalizing opened with
  | nil =>
    obtain rfl := Option.some.inj h
    rfl
  | cons k ks ih =>
    rw [nest_cons] at h
    obtain ⟨opened'', hstep, hrest⟩ := Option.bind_eq_some_iff.mp h
    rw [nest_cons, nestStep_append_opened hstep, Option.bind_some]
    exact ih hrest

theorem wellNested_iff_even : WellNested ks ↔ Even ks :=
  ⟨fun h => ⟨h.known, nest_append_opened h.closed⟩, fun h => ⟨h.known, h.closed []⟩⟩

/-- No operator is a bracket. -/
theorem not_marked_of_isOperator (h : k.isOperator) : k ∉ marked := by
  unfold isOperator at h
  split at h
  case h_4 => cases h
  all_goals decide

/-- No word with a meaning in some places only is a bracket. -/
theorem not_marked_of_isContextual (h : k.isContextual) : k ∉ marked := by
  unfold isContextual at h
  split at h
  case h_8 => cases h
  all_goals decide

/-- What becomes something else neither was nor is a bracket. -/
theorem Becomes.eq_or_not_marked {text : Text} {j : Kind} (h : k.Becomes text j) :
    j = k ∨ (k ∉ marked ∧ j ∉ marked) := by
  rcases h with rfl | ⟨rfl, hj, -⟩ | ⟨hk, rfl | ⟨rfl | rfl, -⟩⟩
  · exact .inl rfl
  · exact .inr ⟨by decide, not_marked_of_isContextual hj⟩
  · exact .inr ⟨not_marked_of_isOperator hk, by decide⟩
  · exact .inr ⟨not_marked_of_isOperator hk, by decide⟩
  · exact .inr ⟨not_marked_of_isOperator hk, by decide⟩

/-- Whether tokens are even, or so but for one of a kind. -/
def Around : Option Kind → List Kind → Prop
  | none, ks => Even ks
  | some k, ks => ∃ before behind, ks = before ++ k :: behind ∧ Even before ∧ Even behind

/-- What stands around an opening bracket goes together with what stands around the closing one. -/
theorem Around.enclosed {o c : Kind} (hpair : (o, c) ∈ pairs) (h : Around (some o) ks)
    (h' : Around (some c) js) : Even (ks ++ js) := by
  obtain ⟨before, inside, rfl, hbefore, hinside⟩ := h
  obtain ⟨inside', behind, rfl, hinside', hbehind⟩ := h'
  have heven := (hbefore.append ((hinside.append hinside').enclosed hpair)).append hbehind
  simpa using heven

end Kind

/-! ## The brackets of a shape -/

/-- Whether the tokens of a shape are even, or so but for one of a kind, when nothing is missing and
the nodes are even. -/
def Shape.nests : Option Kind → Shape → Bool
  | none, .nothing | none, .node _ => true
  | some _, .nothing | some _, .node _ => false
  | none, .token kinds => Kind.marked.all fun k => !kinds k
  | some k, .token kinds => Kind.all.all fun j => !kinds j || j == k
  | _, .missing _ => true
  | none, .seq a b =>
    a.nests none && b.nests none
      || Kind.pairs.any fun (o, c) => a.nests (some o) && b.nests (some c)
  | some k, .seq a b => a.nests (some k) && b.nests none || a.nests none && b.nests (some k)
  | k?, .alt a b => a.nests k? && b.nests k?
  | none, .many a => a.nests none
  | some _, .many _ => false

/-- The shapes of nodes are even, but for those that keep tokens as they are. -/
theorem Kind.nests_shape (k : Kind) (hargs : k ≠ .attributeArguments) (hextra : k ≠ .unexpected) :
    k.shape.nests none := by
  cases k
  case attributeArguments => exact absurd rfl hargs
  case unexpected => exact absurd rfl hextra
  all_goals rfl

namespace Green

/-! ## The brackets of a tree -/

/-- The kinds of the tokens of several trees. -/
def kindsOf (gs : List Green) : List Kind := (tokensOf gs).map (·.kind)

/-- The kinds of the tokens of several trees stand one behind the other. -/
theorem kindsOf_append (gs hs : List Green) : kindsOf (gs ++ hs) = kindsOf gs ++ kindsOf hs := by
  rw [kindsOf, tokensOf_append, List.map_append]
  rfl

/-- Whether a node is even, or a leaf was read. -/
def IsSettled : Green → Prop
  | .node kind cs => Kind.Even (kindsOf [.node kind cs])
  | .leaf l => l.isPresent

/-- Trees of a shape have the brackets that the shape says. -/
theorem around_of_matches {a : Shape} {gs : List Green} (h : a.Matches gs)
    (hgs : ∀ g ∈ gs, g.IsSettled) {k? : Option Kind} (hnests : a.nests k?) :
    Kind.Around k? (kindsOf gs) := by
  induction h generalizing k? with
  | nothing =>
    cases k? with
    | none => exact Kind.even_nil
    | some k => cases hnests
  | @token kinds t hkind =>
    cases k? with
    | none =>
      refine Kind.even_singleton fun hmarked => ?_
      have hnot := List.all_eq_true.mp hnests _ hmarked
      rw [hkind] at hnot
      cases hnot
    | some k =>
      have hk := List.all_eq_true.mp hnests _ t.kind.mem_all
      rw [hkind, Bool.not_true, Bool.false_or, beq_iff_eq] at hk
      exact ⟨[], [], congrArg ([·]) hk, Kind.even_nil, Kind.even_nil⟩
  | missing => cases hgs _ (List.mem_singleton_self _)
  | node =>
    cases k? with
    | none => exact hgs _ (List.mem_singleton_self _)
    | some k => cases hnests
  | seq _ _ ihx ihy =>
    obtain ⟨hx, hy⟩ := List.forall_mem_append.mp hgs
    rw [kindsOf_append]
    cases k? with
    | none =>
      rw [Shape.nests, Bool.or_eq_true, Bool.and_eq_true, List.any_eq_true] at hnests
      -- both halves are even, or each has one half of a pair
      rcases hnests with ⟨ha, hb⟩ | ⟨⟨o, c⟩, hpair, hboth⟩
      · exact Kind.Even.append (ihx hx ha) (ihy hy hb)
      · obtain ⟨ha, hb⟩ := (Bool.and_eq_true _ _).mp hboth
        exact .enclosed hpair (ihx hx ha) (ihy hy hb)
    | some k =>
      rw [Shape.nests, Bool.or_eq_true, Bool.and_eq_true, Bool.and_eq_true] at hnests
      -- the bracket is in one of the halves, and the other one is even
      rcases hnests with ⟨ha, hb⟩ | ⟨ha, hb⟩
      · obtain ⟨before, behind, hxs, hbefore, hbehind⟩ := ihx hx ha
        refine ⟨before, behind ++ kindsOf _, ?_, hbefore, hbehind.append (ihy hy hb)⟩
        rw [hxs, List.append_assoc, List.cons_append]
      · obtain ⟨before, behind, hys, hbefore, hbehind⟩ := ihy hy hb
        refine ⟨kindsOf _ ++ before, behind, ?_, Kind.Even.append (ihx hx ha) hbefore, hbehind⟩
        rw [hys, List.append_assoc]
  | left _ ih =>
    rw [Shape.nests, Bool.and_eq_true] at hnests
    exact ih hgs hnests.1
  | right _ ih =>
    rw [Shape.nests, Bool.and_eq_true] at hnests
    exact ih hgs hnests.2
  | none =>
    cases k? with
    | none => exact Kind.even_nil
    | some k => cases hnests
  | more _ _ ihx ihy =>
    obtain ⟨hx, hy⟩ := List.forall_mem_append.mp hgs
    rw [kindsOf_append]
    cases k? with
    | none => exact Kind.Even.append (ihx hx hnests) (ihy hy hnests)
    | some k => cases hnests

/-- Whether nothing unexpected is kept, and whatever is kept as the arguments of an attribute is
well nested. -/
abbrev Tidy : Green → Prop :=
  Deep fun kind cs => kind ≠ .unexpected ∧
    (kind = .attributeArguments → Kind.WellNested (kindsOf cs))

mutual

/-- The nodes of a tidy tree to which nothing is missing are even. -/
theorem isSettled_of_proper : {g : Green} → g.Proper → g.Tidy → (∀ l ∈ g.leaves, l.isPresent) →
    g.IsSettled
  | .node kind cs, hproper, htidy, hpresent => by
    have hcs := isSettled_of_properAll hproper.2 htidy.2 hpresent
    rw [IsSettled, kindsOf, tokensOf_node]
    by_cases hargs : kind = .attributeArguments
    · exact Kind.wellNested_iff_even.mp (htidy.1.2 hargs)
    · exact around_of_matches hproper.1.1 hcs (Kind.nests_shape kind hargs htidy.1.1)
  | .leaf l, _, _, hpresent => hpresent l (List.mem_singleton_self l)

/-- In a tree without irregularities nothing is missing, so each of its parts is even or was read.
By induction on the trees, with what is kept in attributes assumed to be well nested. -/
theorem isSettled_of_properAll : {gs : List Green} → ProperAll gs →
    DeepAll (fun kind cs => kind ≠ .unexpected ∧
      (kind = .attributeArguments → Kind.WellNested (kindsOf cs))) gs →
    (∀ l ∈ leavesOf gs, l.isPresent) → ∀ g ∈ gs, g.IsSettled
  | [], _, _, _ => nofun
  | g :: gs, hproper, htidy, hpresent => by
    obtain ⟨hg, hgs⟩ := List.forall_mem_append.mp hpresent
    refine List.forall_mem_cons.mpr ⟨isSettled_of_proper hproper.1 htidy.1 hg, ?_⟩
    exact isSettled_of_properAll hproper.2 htidy.2 hgs

end

/-- The kinds of the tokens of trees are those of their leaves that were read. -/
theorem kindsOf_eq (gs : List Green) :
    kindsOf gs = ((leavesOf gs).filter Leaf.isPresent).map Leaf.kind := by
  rw [kindsOf, tokensOf]
  induction leavesOf gs with
  | nil => rfl
  | cons l ls ih =>
    cases l with
    | present t => exact congrArg (t.kind :: ·) ih
    | missing kind spelling => exact ih

end Green

/-- The kinds of the tokens below a node. -/
theorem Node.kind_presentLeaves (n : Node) :
    n.presentLeaves.map Leaf.kind = Green.kindsOf n.children := by
  have hleaves : n.leaves.map Leaf.green = Green.leavesOf n.children := n.green_leaves
  rw [Green.kindsOf_eq, ← hleaves, List.filter_map, List.map_map]
  rfl

/-! ## The brackets of a text -/

namespace Token

/-- The pieces of a token have its brackets. -/
theorem IsCut.nest_eq {t : Token} {ps : List Token} (h : IsCut t ps) (opened : List Kind) :
    Kind.nest opened (ps.map Token.kind) = Kind.nestStep opened t.kind := by
  induction h with
  | @whole t k hk =>
    refine (Kind.nest_singleton opened k).trans ?_
    rcases hk.eq_or_not_marked with rfl | ⟨ht, hk⟩
    · rfl
    · rw [Kind.nestStep_of_not_marked hk, Kind.nestStep_of_not_marked ht]
  | @cut t k a b ps hop _ _ _ hk _ ih =>
    have ht := Kind.not_marked_of_isOperator hop
    have hk : k ∉ Kind.marked := by
      rcases hk.eq_or_not_marked with rfl | ⟨-, hk⟩
      · exact ht
      · exact hk
    rw [List.map_cons, Kind.nest_cons, Kind.nestStep_of_not_marked hk, Option.bind_some]
    exact ih

/-- Cutting tokens changes nothing about their brackets. -/
theorem Pieces.nest_eq {ts us : List Token} (h : Pieces ts us) (opened : List Kind) :
    Kind.nest opened (us.map Token.kind) = Kind.nest opened (ts.map Token.kind) := by
  induction h generalizing opened with
  | nil => rfl
  | cons ht _ ih =>
    rw [List.map_append, Kind.nest_append, ht.nest_eq, List.map_cons, Kind.nest_cons]
    exact congrArg _ (funext ih)

/-- Rules cut operators only, so what was not recognised in the tokens of a tree was not recognised
in the text. -/
theorem Pieces.mem_unknown {ts us : List Token} (h : Pieces ts us)
    (hts : .unknown ∈ ts.map Token.kind) : .unknown ∈ us.map Token.kind := by
  induction h with
  | nil => exact hts
  | @cons t ts ps us ht _ ih =>
    rw [List.map_append]
    rcases List.mem_cons.mp hts with hkind | hts
    · refine List.mem_append_left _ ?_
      cases ht with
      | @whole t k hk =>
        rcases hk.eq_or_not_marked with rfl | ⟨hmarked, -⟩
        · exact List.mem_singleton.mpr hkind
        · rw [← hkind] at hmarked
          exact absurd (by decide) hmarked
      | cut hop =>
        rw [← hkind] at hop
        cases hop
    · exact List.mem_append_right _ (ih hts)

end Token

namespace Entry

/-- In a clean tree nothing is missing and nothing is unexpected. -/
theorem present_and_expected {e : Entry} {text : Text}
    (h : (Parse.ofText e text).diagnostics = []) :
    let root := Node.ofGreen (e.tree text)
    (∀ l ∈ root.leaves, l.isPresent) ∧ ∀ n ∈ root.descendants, n.kind ≠ .unexpected := by
  intro root
  have hregular : Green.RegularAll root.children := e.regular_tree text
  have hkind : root.kind = e.root := by
    show (Node.ofGreen (e.tree text)).kind = _
    rw [e.tree_eq]
    rfl
  rw [Entry.diagnostics_eq, List.map_eq_nil_iff] at h
  obtain ⟨hcovers, hunexpected⟩ := (Node.findings_eq_nil_iff hregular).mp h
  rw [Node.covers_findings (by rw [hkind]; cases e <;> rfl) hregular,
    Node.missing_eq_nil_iff] at hcovers
  rw [Node.unexpected_findings (by rw [hkind]; cases e <;> exact nofun) hregular,
    List.filter_eq_nil_iff] at hunexpected
  exact ⟨hcovers.1, fun n hn => mt beq_iff_eq.mpr (hunexpected n hn)⟩

/-- **A clean parse means well-formed input**, but for the arguments of attributes. If a text has no
diagnostics, and what stands in the arguments of every attribute is well nested, so is the text: all
its tokens were recognised, every closing bracket matches the last one that is open, and none is
left open. -/
theorem wellNested_stream (e : Entry) (text : Text)
    (hclean : (Parse.ofText e text).diagnostics = [])
    (hargs : ∀ n ∈ (Parse.ofText e text).root.descendants, n.kind = .attributeArguments →
      Kind.WellNested (n.presentLeaves.map Leaf.kind)) :
    Kind.WellNested ((Token.stream text).map Token.kind) := by
  obtain ⟨hpresent, hexpected⟩ := present_and_expected hclean
  obtain ⟨pieces, hpieces, htokens⟩ := e.exists_pieces text
  have hgreen : (Node.ofGreen (e.tree text)).green = e.tree text := by
    rw [e.tree_eq]
    rfl
  have htidy : (e.tree text).Tidy := by
    rw [← hgreen]
    refine Node.deep_of_forall_descendants fun n hn => ⟨hexpected n hn, fun hkind => ?_⟩
    rw [← n.kind_presentLeaves]
    exact hargs n hn hkind
  have hleaves : ∀ l ∈ (e.tree text).leaves, l.isPresent := by
    rw [← hgreen, ← Node.green_leaves]
    exact List.forall_mem_map.mpr hpresent
  have hsettled := Green.isSettled_of_proper (e.proper_tree text) htidy hleaves
  have heven : Kind.Even (pieces.map Token.kind) := by
    have hkinds : Green.kindsOf [e.tree text] = pieces.map Token.kind := by
      rw [Green.kindsOf, htokens, List.map_map]
      rfl
    rw [← hkinds]
    rw [e.tree_eq] at hsettled ⊢
    exact hsettled
  exact ⟨fun h => heven.known (hpieces.mem_unknown h),
    (hpieces.nest_eq []).symm.trans (heven.closed [])⟩

/-- The theorem at `@a(b) var x = [1]`, an attribute whose arguments are well nested. -/
theorem wellNested_stream_attribute : Kind.WellNested ((Token.stream
    ['@', 'a', '(', 'b', ')', ' ', 'v', 'a', 'r', ' ', 'x', ' ', '=', ' ', '[', '1', ']']).map
      Token.kind) := by
  refine wellNested_stream .sourceFile _ ?_ ?_
  · exact (diagnostics_eq_nil_iff _ _).mpr
      (of_tree? (n := 20) (p := Green.isClean) (by decide +kernel))
  · exact of_decide_eq_true (of_tree? (n := 20)
      (p := fun tree => ∀ n ∈ (Node.ofGreen tree).descendants, n.kind = .attributeArguments →
        Kind.WellNested (n.presentLeaves.map Leaf.kind)) (by decide +kernel))

/-- The arguments of an attribute are not looked at: `@a(]) var x = 1` has no diagnostics, and its
brackets do not nest. -/
theorem clean_not_wellNested :
    let text : Text :=
      ['@', 'a', '(', ']', ')', ' ', 'v', 'a', 'r', ' ', 'x', ' ', '=', ' ', '1']
    (Parse.ofText .sourceFile text).diagnostics = [] ∧
      ¬Kind.WellNested ((Token.stream text).map Token.kind) := by
  intro text
  refine ⟨?_, ?_⟩
  · exact (diagnostics_eq_nil_iff _ _).mpr
      (of_tree? (n := 20) (p := Green.isClean) (by decide +kernel))
  · exact of_decide_eq_true (Token.of_stream? (n := 20)
      (p := fun ts => ¬Kind.WellNested (ts.map Token.kind)) (by decide +kernel))

end Entry

end SwiftTree
