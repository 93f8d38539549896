import SwiftTree.Proofs.Evaluation
import SwiftTree.Proofs.Placement.Statements

/-!
# A brace behind a header opens the body

The conditions of a statement, the sequence of a loop, the expression of a `switch` and the items of
a `catch` are read in a mode without trailing closures. So no call in them takes a closure outside
of brackets, and a brace that comes next is that of the body (`Entry.brace_opensBody`). The name
behind the root of a key path is the exception: what is attached to it is read in no mode.
-/

namespace SwiftTree

-- what holds of all kinds is computed kind by kind
set_option maxRecDepth 1000

open Grammar

open Green (Placed Braced sightOf tokensOf StandAll StrictAll)

namespace Kind

/-- The statements and clauses with a header. -/
def hasHeader (k : Kind) : Bool := k.hasBody || k == .switchStmt

/-- The lists of conditions, and of what a clause catches. -/
def isHeaderList (k : Kind) : Bool := k == .conditionElementList || k == .catchItemList

/-- The elements of such lists. -/
def isHeaderElement (k : Kind) : Bool := k == .conditionElement || k == .catchItem

/-- What a header can end with. -/
def endsHeader (k : Kind) : Bool := k.isHeaderList || k.isExpression || k == .whereClause

/-- The conditions, patterns and expressions of a header. -/
def isHeaderPart (k : Kind) : Bool := k.isHeaderList || k.isHeading

end Kind

/-- What stands in braces, or would. -/
def Shape.braces (k : Kind) : Shape :=
  .alt (.seq (tok .leftBrace) <| .seq (one k) (needed .rightBrace))
    (.seq (.missing (· == .leftBrace)) <| .seq (one k) (.missing (· == .rightBrace)))

namespace Green

/-- Whether a tree is the end of a header. -/
def endsHeader : Green → Bool
  | .node kind _ => kind.endsHeader
  | .leaf _ => false

/-- Whether a tree starts with the brace of a body. -/
def startsBody : Green → Bool
  | .leaf (.present t) => t.kind == .leftBrace
  | .node .codeBlock (.leaf (.present t) :: _) => t.kind == .leftBrace
  | _ => false

/-- Whether the first tree that holds a token starts with the brace of a body. -/
def OpensBody (gs : List Green) : Prop :=
  ∃ (front : List Green) (body : Green) (back : List Green),
    gs = front ++ body :: back ∧ tokensOf front = [] ∧ body.startsBody

/-- Whether a brace behind the end of a header among some trees opens a body. -/
def Headed (next : Outlook) : List Green → Prop
  | [] => True
  | g :: gs =>
    (g.endsHeader → (sightOf gs next).isAt .leftBrace → OpensBody gs) ∧ Headed next gs

variable {kind : Kind} {g : Green} {cs gs post : List Green} {next : Outlook}

/-- A tree without tokens may stand before the brace. -/
theorem OpensBody.cons (hg : tokensOf [g] = []) (h : OpensBody gs) : OpensBody (g :: gs) := by
  obtain ⟨front, body, back, rfl, hfront, hbody⟩ := h
  refine ⟨g :: front, body, back, rfl, ?_, hbody⟩
  rw [← List.singleton_append, tokensOf_append, hg, hfront, List.append_nil]

namespace Headed

/-- Trees that end no header may stand before others. -/
theorem skip (h : ∀ g ∈ gs, g.endsHeader = false) (h' : Headed next post) :
    Headed next (gs ++ post) := by
  induction gs with
  | nil => exact h'
  | cons g gs ih =>
    obtain ⟨hg, hgs⟩ := List.forall_mem_cons.mp h
    exact ⟨fun hends => absurd hends (Bool.eq_false_iff.mp hg), ih hgs⟩

/-- Among trees none of which ends a header there is no brace to speak of. -/
theorem of_forall (h : ∀ g ∈ gs, g.endsHeader = false) : Headed next gs := by
  rw [← List.append_nil gs]
  exact skip h trivial

/-- What is known of every place among the trees. -/
theorem opensBody {before after : List Green} (h : Headed next (before ++ g :: after))
    (hg : g.endsHeader) (hsight : (sightOf after next).isAt .leftBrace) : OpensBody after := by
  induction before with
  | nil => exact h.1 hg hsight
  | cons _ _ ih => exact ih h.2

end Headed

/-- Trees of a shape with no node that ends a header. -/
theorem not_endsHeader_of_only {a : Shape} (h : a.Matches gs)
    (honly : a.only (fun k => !k.endsHeader) fun _ => true) : ∀ g ∈ gs, g.endsHeader = false := by
  intro g hg
  have hwithin := List.all_eq_true.mp (Shape.all_isWithin h honly) g hg
  cases g with
  | node k ds => exact Bool.not_eq_true' _ ▸ hwithin
  | leaf l => rfl

/-! ## Blocks -/

/-- Before a tree that starts with another token, no brace is seen. -/
theorem not_isAt_of_startsBeforeBrace (h : g.startsBeforeBrace) :
    (sightOf [g] next).isAt .leftBrace = false := by
  rw [startsBeforeBrace, sightOf] at h
  rw [sightOf]
  cases htokens : tokensOf [g] with
  | nil =>
    rw [htokens] at h
    cases h
  | cons t ts =>
    rw [htokens, Token.sightOf] at h
    rw [Token.sightOf, Outlook.isAt]
    cases hsight : t.sight with
    | none => rfl
    | some seen =>
      rw [hsight] at h
      exact beq_false_of_ne (bne_iff_ne.mp h)

/-- The brace of a body is there, or it is not seen. -/
theorem Braced.not_isAt {kind : Kind} {inside : List Green} {opener closer : Leaf}
    (front : List Green)
    (h : Braced (front ++ [.leaf opener, .node kind inside, .leaf closer]) next)
    (hfront : ∀ t : Token.Outline, .leaf (.present t) ∈ front → t.kind ≠ .leftBrace)
    (hopener : opener.isPresent = false) (hcloser : closer.isPresent = false) :
    (sightOf [.leaf opener, .node kind inside, .leaf closer] next).isAt .leftBrace = false := by
  have hempty {l : Leaf} (hl : l.isPresent = false) (next : Outlook) :
    sightOf [.leaf l] next = next := by
    cases l with
    | present t => cases hl
    | missing k spelling => rfl
  rcases h with ⟨t, ht, hbrace⟩ | ⟨hnext, front', opener', closer', kind', hcs, -, -⟩
  · rcases List.mem_append.mp ht with ht | ht
    · exact absurd hbrace (hfront t ht)
    · simp only [List.mem_cons, List.not_mem_nil, or_false, leaf.injEq, reduceCtorEq,
        false_or] at ht
      rcases ht with rfl | rfl
      · cases hopener
      · cases hcloser
  · have hlast := (List.append_inj' hcs rfl).2
    simp only [List.cons.injEq, node.injEq] at hlast
    obtain ⟨-, ⟨-, rfl⟩, -⟩ := hlast
    rw [sightOf_cons, sightOf_cons _ [_], hempty hopener, hempty hcloser, sightOf_node, sightOf_nil]
    exact hnext

/-- Trees in braces start with a brace, or both braces are missing. -/
theorem exists_of_braces {k : Kind} (h : (Shape.braces k).Matches gs) :
    (∃ (t : Token.Outline) (back : List Green), gs = .leaf (.present t) :: back ∧
      t.kind = .leftBrace) ∨
    ∃ (opener closer : Leaf) (inside : List Green),
      gs = [.leaf opener, .node k inside, .leaf closer] ∧
        opener.isPresent = false ∧ closer.isPresent = false := by
  cases h with
  | left h =>
    cases h with
    | @seq _ _ _ back hopener _ =>
      obtain ⟨t, rfl, ht⟩ := hopener.exists_token
      exact .inl ⟨t, back, rfl, beq_iff_eq.mp ht⟩
  | right h =>
    cases h with
    | seq hopener h =>
      cases h with
      | seq hinside hcloser =>
        obtain ⟨kind, inside, rfl, hkind⟩ := hinside.exists_node
        obtain rfl := beq_iff_eq.mp hkind
        cases hopener with
        | missing =>
          cases hcloser with
          | missing => exact .inr ⟨_, _, inside, rfl, rfl, rfl⟩

/-- A block that comes next starts with the brace that is seen. -/
theorem opensBody_of_codeBlock (hshape : Kind.codeBlock.shape.Matches cs)
    (hbraced : Braced cs (sightOf post next))
    (hsight : (sightOf (.node .codeBlock cs :: post) next).isAt .leftBrace) :
    OpensBody (.node .codeBlock cs :: post) := by
  rcases exists_of_braces hshape with ⟨t, back, rfl, ht⟩ | ⟨_, _, _, rfl, hopener, hcloser⟩
  · exact ⟨[], _, post, rfl, rfl, beq_iff_eq.mpr ht⟩
  · rw [sightOf_cons, sightOf_node] at hsight
    exact absurd hsight (Bool.eq_false_iff.mp (Braced.not_isAt [] hbraced nofun hopener hcloser))

/-- So does a body, where nothing is skipped in front of the brace that is seen. -/
theorem opensBody_of_body (h : Shape.body.Matches gs) (hstands : StandAll Placed next (gs ++ post))
    (hstrict : StrictAll gs)
    (hskipped : ∀ ds, .node .unexpected ds ∈ gs → (node .unexpected ds).startsBeforeBrace)
    (hsight : (sightOf (gs ++ post) next).isAt .leftBrace) : OpensBody (gs ++ post) := by
  cases h with
  | seq hskip hblock =>
    obtain ⟨kind, cs, rfl, hkind⟩ := hblock.exists_node
    obtain rfl := beq_iff_eq.mp hkind
    rw [List.append_assoc] at hstands hsight ⊢
    cases hskip with
    | left hskip =>
      obtain ⟨kind, ds, rfl, hkind⟩ := hskip.exists_node
      obtain rfl := beq_iff_eq.mp hkind
      rw [List.singleton_append, sightOf_cons] at hsight
      have hbefore := hskipped ds List.mem_cons_self
      exact absurd hsight (Bool.eq_false_iff.mp (not_isAt_of_startsBeforeBrace hbefore))
    | right hskip =>
      cases hskip
      exact opensBody_of_codeBlock hstrict.1.1.shape (hstands.1.1.braced rfl) hsight

end Green

/-- Sequences of three may be bracketed either way. -/
theorem Shape.Matches.assocRight {a b c : Shape} {gs : List Green}
    (h : (Shape.seq (.seq a b) c).Matches gs) : (Shape.seq a (.seq b c)).Matches gs := by
  cases h with
  | seq hab hc =>
    cases hab with
    | seq ha hb =>
      rw [List.append_assoc]
      exact .seq ha (.seq hb hc)

/-- A statement reads parts of its header itself, or all of them are in a list. -/
theorem Kind.partsMode?_or_only_of_hasHeader {kind : Kind} (h : kind.hasHeader) :
    kind.partsMode? = some .header ∨
      kind.exactShape.only (fun k => !k.isHeading) fun _ => true := by
  unfold hasHeader hasBody at h
  split at h
  iterate 3 exact .inr rfl
  · exact .inl rfl
  · exact .inr rfl
  · obtain rfl := beq_iff_eq.mp h
    exact .inl rfl

namespace Green

variable {kind : Kind} {cs gs post : List Green} {next : Outlook}

/-! ## Headers in front of bodies -/

/-- Where parts of a node stand that has a block behind its header. -/
structure Parts (next : Outlook) (gs : List Green) : Prop where
  stands : StandAll Placed next gs
  strict : StrictAll gs
  skipped : ∀ ds, .node .unexpected ds ∈ gs → (node .unexpected ds).startsBeforeBrace

/-- Parts behind others are parts of the node as well. -/
theorem Parts.behind {front : List Green} (h : Parts next (front ++ gs)) : Parts next gs where
  stands := (standAll_append.mp h.stands).2
  strict := (deepAll_append.mp h.strict).2
  skipped ds hds := h.skipped ds (List.mem_append_right _ hds)

/-- Whether trees open a body where a brace is seen, and so do those behind the end of a header. -/
def Leads (next : Outlook) (gs : List Green) : Prop :=
  ((sightOf gs next).isAt .leftBrace → OpensBody gs) ∧ Headed next gs

/-- Parts of a shape in front of the end of a header. -/
theorem headed_of_seq {a b : Shape} (h : (Shape.seq a b).Matches gs) (hparts : Parts next gs)
    (honly : a.only (fun k => !k.endsHeader) fun _ => true)
    (hrest : ∀ rest, b.Matches rest → Parts next rest → Headed next rest) : Headed next gs := by
  cases h with
  | seq hfront hback =>
    exact .skip (not_endsHeader_of_only hfront honly) (hrest _ hback hparts.behind)

/-- The end of a header in front of what leads to a body. -/
theorem headed_of_node {kinds : Kind → Bool} {b : Shape}
    (h : (Shape.seq (.node kinds) b).Matches gs) (hparts : Parts next gs)
    (hrest : ∀ rest, b.Matches rest → Parts next rest → Leads next rest) : Headed next gs := by
  cases h with
  | seq hnode hback =>
    obtain ⟨kind, ds, rfl, -⟩ := hnode.exists_node
    obtain ⟨hopens, hheaded⟩ := hrest _ hback hparts.behind
    exact ⟨fun _ => hopens, hheaded⟩

/-- The block of a body leads: its brace opens it, and what is behind it ends no header. -/
theorem leads_of_body_append (h : Shape.body.Matches gs) (hparts : Parts next (gs ++ post))
    (hpost : ∀ c ∈ post, c.endsHeader = false) : Leads next (gs ++ post) := by
  refine ⟨opensBody_of_body h hparts.stands (deepAll_append.mp hparts.strict).1 fun ds hds => ?_,
    .skip (not_endsHeader_of_only h rfl) (.of_forall hpost)⟩
  exact hparts.skipped ds (List.mem_append_left _ hds)

/-- The block of a body leads, with nothing behind it. -/
theorem leads_of_body (h : Shape.body.Matches gs) (hparts : Parts next gs) : Leads next gs := by
  rw [← List.append_nil gs] at hparts ⊢
  exact leads_of_body_append h hparts (List.forall_mem_nil _)

/-- A keyword is missing, or no brace is seen before it. -/
theorem leads_of_needed {k : Kind} {b : Shape} (h : (Shape.seq (.needed k) b).Matches gs)
    (hk : k ≠ .leftBrace) (hparts : Parts next gs)
    (hrest : ∀ rest, b.Matches rest → Parts next rest → Leads next rest) : Leads next gs := by
  cases h with
  | seq hword hback =>
    obtain ⟨hopens, hheaded⟩ := hrest _ hback hparts.behind
    obtain ⟨l, rfl, rfl⟩ := hword.exists_leaf
    refine ⟨fun hsight => ?_, .skip (List.forall_mem_singleton.mpr rfl) hheaded⟩
    cases l with
    | present t =>
      rw [sightOf_append, sightOf_token, Token.Outline.isAt_sight rfl (by decide)] at hsight
      exact absurd (beq_iff_eq.mp hsight) hk
    | missing k spelling => exact .cons rfl (hopens hsight)

/-- Behind the conditions of an `if` stands its block. -/
theorem headed_ifStmt (h : Kind.ifStmt.exactShape.Matches cs) (hparts : Parts next cs) :
    Headed next cs := by
  refine headed_of_seq h hparts rfl fun rest hrest hparts => ?_
  refine headed_of_node hrest hparts fun rest hrest hparts => ?_
  cases hrest with
  | seq hbody helse =>
    exact leads_of_body_append hbody hparts (not_endsHeader_of_only helse rfl)

/-- Behind the conditions of a `while` stands its block. -/
theorem headed_whileStmt (h : Kind.whileStmt.shape.Matches cs) (hparts : Parts next cs) :
    Headed next cs := by
  refine headed_of_seq h hparts rfl fun rest hrest hparts => ?_
  exact headed_of_node hrest hparts fun rest => leads_of_body

/-- Behind the conditions of a `guard` stands `else`, and then its block. -/
theorem headed_guardStmt (h : Kind.guardStmt.shape.Matches cs) (hparts : Parts next cs) :
    Headed next cs := by
  refine headed_of_seq h hparts rfl fun rest hrest hparts => ?_
  refine headed_of_node hrest hparts fun rest hrest hparts => ?_
  exact leads_of_needed hrest (by decide) hparts fun rest => leads_of_body

/-- Behind the items of a `catch`, of which there need not be any, stands its block. -/
theorem headed_catchClause (h : Kind.catchClause.shape.Matches cs) (hparts : Parts next cs) :
    Headed next cs := by
  refine headed_of_seq h hparts rfl fun rest hrest hparts => ?_
  cases hrest with
  | seq hlist hbody =>
    cases hlist with
    | left hlist => exact headed_of_node (.seq hlist hbody) hparts fun rest => leads_of_body
    | right hlist =>
      cases hlist
      exact (leads_of_body hbody hparts).2

/-- Behind the sequence of a `for` loop, or behind its `where` clause, stands its block. -/
theorem headed_forStmt (h : Kind.forStmt.shape.Matches cs) (hparts : Parts next cs) :
    Headed next cs := by
  refine headed_of_seq h hparts rfl fun rest hrest hparts => ?_
  cases hrest with
  | left hbody => exact (leads_of_body hbody hparts).2
  | right hrest =>
    -- what stands in front of the sequence of the loop, part by part
    refine headed_of_seq hrest.assocRight hparts rfl fun rest hrest hparts => ?_
    refine headed_of_seq hrest.assocRight hparts rfl fun rest hrest hparts => ?_
    refine headed_of_seq hrest.assocRight hparts rfl fun rest hrest hparts => ?_
    refine headed_of_seq hrest.assocRight hparts rfl fun rest hrest hparts => ?_
    refine headed_of_seq hrest.assocRight hparts rfl fun rest hrest hparts => ?_
    refine headed_of_node hrest.assocRight hparts fun rest hrest hparts => ?_
    cases hrest with
    | seq hwhere hbody =>
      cases hwhere with
      | left hwhere =>
        refine ⟨fun hsight => ?_, headed_of_node (.seq hwhere hbody) hparts fun _ => leads_of_body⟩
        obtain ⟨kind, ds, rfl, hkind⟩ := hwhere.exists_node
        obtain rfl := beq_iff_eq.mp hkind
        have hshape : Kind.whereClause.shape.Matches ds := hparts.strict.1.1.shape
        cases hshape with
        | seq hword _ =>
          obtain ⟨t, rfl, ht⟩ := hword.exists_token
          rw [sightOf_append, sightOf_node, sightOf_append, sightOf_token,
            Token.Outline.isAt_sight rfl (by decide), beq_iff_eq.mp ht] at hsight
          cases hsight
      | right hwhere =>
        cases hwhere
        exact leads_of_body hbody hparts

/-- The brace of a `switch` is a part of the statement itself. -/
theorem headed_switchStmt (h : Kind.switchStmt.shape.Matches cs) (hbraced : Braced cs next) :
    Headed next cs := by
  cases h with
  | seq hword h =>
    cases h with
    | seq hsubject hcases =>
      obtain ⟨word, rfl, hkind⟩ := hword.exists_token
      obtain ⟨kind, subject, rfl, -⟩ := hsubject.exists_node
      refine .skip (List.forall_mem_singleton.mpr rfl) ⟨fun _ hsight => ?_, .of_forall ?_⟩
      · rcases exists_of_braces hcases with ⟨t, back, rfl, ht⟩ | ⟨_, _, _, rfl, hopener, hcloser⟩
        · exact ⟨[], _, back, rfl, rfl, beq_iff_eq.mpr ht⟩
        · refine absurd hsight (Bool.eq_false_iff.mp ?_)
          refine Braced.not_isAt [.leaf (.present word),
            .node kind subject] hbraced ?_ hopener hcloser
          intro t ht hbrace
          simp only [List.mem_cons, List.not_mem_nil, or_false, reduceCtorEq, leaf.injEq,
            Leaf.present.injEq] at ht
          rw [← ht, hbrace] at hkind
          cases hkind
      · exact not_endsHeader_of_only hcases rfl

/-- A brace behind the end of a header opens the body. -/
theorem headed_of_hasHeader (h : kind.hasHeader) (hstands : (node kind cs).Stands Placed next)
    (hstrict : (node kind cs).Strict) : Headed next cs := by
  by_cases hswitch : kind = .switchStmt
  · subst hswitch
    exact headed_switchStmt hstrict.1.shape (hstands.1.braced rfl)
  have hbody : kind.hasBody := (Bool.or_eq_true_iff.mp h).resolve_right (mt beq_iff_eq.mp hswitch)
  have hparts : Parts next cs := ⟨hstands.2, hstrict.2, hstands.1.skipped hbody⟩
  have hshape := hstrict.1.exactShape
  unfold Kind.hasBody at hbody
  split at hbody
  · exact headed_ifStmt hshape hparts
  · exact headed_guardStmt hshape hparts
  · exact headed_whileStmt hshape hparts
  · exact headed_forStmt hshape hparts
  · exact headed_catchClause hshape hparts
  · cases hbody

/-! ## Closures in headers -/

/-- Parts that are read in the mode of headers avoid trailing closures. -/
theorem avoids_of_isHeading {g : Green} (hmode : kind.partsMode? = some .header)
    (hplaced : Placed kind cs next) (hg : g ∈ cs) (hkind : g.kind.isHeading) :
    g.Avoids takesClosure :=
  (hplaced.heeds .header hmode g hg hkind).closures rfl

/-- An element of a header takes no closure: in the mode that it is read in no call does, outside of
brackets. -/
theorem avoids_of_isHeaderElement (h : kind.isHeaderElement) (hplaced : Placed kind cs next)
    (hstrict : (node kind cs).Strict) : (node kind cs).Avoids takesClosure := by
  have hkind : kind.shape.only Kind.isHeading (fun _ => true) ∧ kind.isCall = false ∧
      kind.partsMode? = some .header := by
    rcases Bool.or_eq_true_iff.mp h with h | h
    all_goals
      obtain rfl := beq_iff_eq.mp h
      exact ⟨rfl, rfl, rfl⟩
  refine .node (takesClosure_of_not_isCall hkind.2.1) fun c hc => ?_
  have hwithin := List.all_eq_true.mp (Shape.all_isWithin hstrict.1.shape hkind.1) c hc
  cases c with
  | node k ds => exact avoids_of_isHeading hkind.2.2 hplaced hc hwithin
  | leaf l => exact .leaf l

/-- A list of such elements takes no closure, since none of them does. -/
theorem avoids_of_isHeaderList (h : kind.isHeaderList) (hstands : (node kind cs).Stands Placed next)
    (hstrict : (node kind cs).Strict) : (node kind cs).Avoids takesClosure := by
  have hkind : kind.shape.only Kind.isHeaderElement (fun _ => true) ∧ kind.isCall = false := by
    rcases Bool.or_eq_true_iff.mp h with h | h
    all_goals
      obtain rfl := beq_iff_eq.mp h
      exact ⟨rfl, rfl⟩
  refine .node (takesClosure_of_not_isCall hkind.2) fun c hc => ?_
  have hwithin := List.all_eq_true.mp (Shape.all_isWithin hstrict.1.shape hkind.1) c hc
  cases c with
  | node k ds =>
    obtain ⟨seen, hc'⟩ := hstands.2.exists_stands hc
    exact avoids_of_isHeaderElement hwithin hc'.1 (deepAll_iff.mp hstrict.2 _ hc)
  | leaf l => exact .leaf l

/-- The parts of a header avoid trailing closures. -/
theorem avoids_of_hasHeader {g : Green} (h : kind.hasHeader)
    (hstands : (node kind cs).Stands Placed next) (hstrict : (node kind cs).Strict) (hg : g ∈ cs)
    (hpart : g.kind.isHeaderPart) : g.Avoids takesClosure := by
  cases g with
  | leaf l => exact .leaf l
  | node k ds =>
    rcases Bool.or_eq_true_iff.mp hpart with hlist | hheading
    · obtain ⟨seen, hg'⟩ := hstands.2.exists_stands hg
      exact avoids_of_isHeaderList hlist hg' (deepAll_iff.mp hstrict.2 _ hg)
    · rcases Kind.partsMode?_or_only_of_hasHeader h with hmode | honly
      · exact avoids_of_isHeading hmode hstands.1 hg hheading
      · have hwithin := List.all_eq_true.mp (Shape.all_isWithin hstrict.1.exactShape honly) _ hg
        exact absurd hheading (Bool.not_eq_true _ ▸ (Bool.not_eq_true' _).mp hwithin)

end Green

namespace Entry

open Green (OpensBody takesClosure)

/-- In a text that is read as an expression, every part heeds the mode. -/
theorem heeds_parts (mode : Mode) (text : Text) :
    ∀ c ∈ (Node.ofGreen ((expression mode).tree text)).children, c.Heeds mode := by
  have hskip : (skipUntil .empty).Fills (fun _ => True) (fun g => g.Heeds mode) fun _ => True := by
    refine .of_makes (skipUntil_calm fun k hk => ?_) skipUntil_makes fun gs hstrict hgs => ?_
    · exact absurd hk (Bool.eq_false_iff.mp (KindSet.contains_empty k))
    · intro kind cs hmem
      exact Green.heeds_of_only hstrict hgs rfl _ hmem
  have hrule : (expression mode).rule.Fills (fun _ => True) (fun g => g.Heeds mode) fun _ => True :=
    .seq expr_heeds fun _ => hskip
  obtain ⟨t, ht, hparts, -⟩ :=
    exists_of_meets placing_met (expression mode) text (hrule ⟨_, []⟩ trivial .nil)
  intro c hc
  rw [tree_eq] at hc
  rcases List.mem_append.mp hc with hc | hc
  · rw [hparts, List.mem_reverse] at hc
    exact ht.2.forall_mem .leaf c hc
  · obtain rfl := List.mem_singleton.mp hc
    exact .leaf _

/-- Outside of brackets no call in a header takes a closure, but for what is attached to the name
behind the root of a key path. So a brace behind a header opens the body. Nor does a call in a text
take one that is read as an expression of a header. -/
theorem brace_opensBody (e : Entry) (text : Text) :
    (∀ n ∈ (Node.ofGreen (e.tree text)).descendants, n.kind.hasHeader →
      ∀ before part after, n.children = before ++ part :: after → part.kind.isHeaderPart →
        part.Avoids takesClosure ∧ (part.endsHeader →
          (Green.sightOf (after ++ n.behind) none).isAt .leftBrace → OpensBody after)) ∧
    ∀ mode, e = .expression mode → mode.noTrailingClosure →
      ∀ c ∈ (Node.ofGreen (e.tree text)).children, c.Avoids takesClosure := by
  refine ⟨fun n hn hheader before part after hsplit hpart => ?_, ?_⟩
  · have hstands := stands_of_mem_descendants placing_met hn
    have hstrict := strict_of_mem_descendants hn
    refine ⟨Green.avoids_of_hasHeader hheader hstands hstrict ?_ hpart, fun hends hsight => ?_⟩
    · rw [hsplit]
      exact List.mem_append_right _ List.mem_cons_self
    · have hheaded := Green.headed_of_hasHeader hheader hstands hstrict
      rw [hsplit] at hheaded
      rw [Green.sightOf_append] at hsight
      exact hheaded.opensBody hends hsight
  · rintro mode rfl hmode c hc
    exact (heeds_parts mode text c hc).closures hmode

/-- The theorem at `if a {}`, where a brace comes behind the conditions, and at `a {}` as an
expression of a header. -/
theorem brace_opensBody_if :
    (∃ n ∈ (Node.ofGreen (statement.tree ['i', 'f', ' ', 'a', ' ', '{', '}'])).descendants,
      ∃ before part after, n.children = before ++ part :: after ∧
        (Green.sightOf (after ++ n.behind) none).isAt .leftBrace ∧
          part.Avoids takesClosure ∧ OpensBody after) ∧
    ∀ c ∈ (Node.ofGreen ((expression .header).tree ['a', ' ', '{', '}'])).children,
      c.Avoids takesClosure := by
  refine ⟨?_, (brace_opensBody (.expression .header) _).2 .header rfl rfl⟩
  let isHeader (n : Node) : Bool := n.kind.hasHeader && (n.children.drop 1).head?.any fun part =>
    part.kind.isHeaderPart && part.endsHeader &&
      (Green.sightOf (n.children.drop 2 ++ n.behind) none).isAt .leftBrace
  have hheader : ∃ n ∈ (Node.ofGreen (statement.tree ['i', 'f', ' ', 'a', ' ', '{',
    '}'])).descendants, isHeader n := of_decide_eq_true (of_tree? (n := 20)
        (p := fun tree => ∃ n ∈ (Node.ofGreen tree).descendants, isHeader n) (by decide +kernel))
  obtain ⟨n, hn, hheader⟩ := hheader
  obtain ⟨hheader, hpart⟩ := (Bool.and_eq_true ..).mp hheader
  obtain ⟨part, hhead, htest⟩ := (Option.any_eq_true ..).mp hpart
  obtain ⟨after, hdrop⟩ := List.head?_eq_some_iff.mp hhead
  have hsplit : n.children = n.children.take 1 ++ part :: after := by
    rw [← hdrop, List.take_append_drop]
  have hafter : n.children.drop 2 = after := by
    rw [← List.drop_drop (i := 1) (j := 1), hdrop]
    rfl
  rw [hafter, Bool.and_eq_true, Bool.and_eq_true] at htest
  obtain ⟨havoids, hopens⟩ :=
    (brace_opensBody .statement _).1 n hn hheader _ part after hsplit htest.1.1
  exact ⟨n, hn, _, part, after, hsplit, htest.2, havoids, hopens htest.1.2 htest.2⟩

/-- What is attached to the name behind the root of a key path may take a closure: in
`if \a c[0] {}` the brace is taken as one of `c[0]`. -/
theorem keyPath_takesClosure :
    ∃ n ∈ (Node.ofGreen (statement.tree
        ['i', 'f', ' ', '\\', 'a', ' ', 'c', '[', '0', ']', ' ', '{', '}'])).descendants,
      n.kind = .ifStmt ∧ ∃ part ∈ n.children, part.kind = .conditionElementList ∧
        ∃ key ∈ part.exposed, key.kind = .keyPathExpr ∧
          ∃ call ∈ Green.exposedFrom 0 key.children, call.takesClosure := by
  exact of_decide_eq_true (of_tree? (n := 20)
    (p := fun tree => ∃ n ∈ (Node.ofGreen tree).descendants,
      n.kind = .ifStmt ∧ ∃ part ∈ n.children, part.kind = .conditionElementList ∧
        ∃ key ∈ part.exposed, key.kind = .keyPathExpr ∧
          ∃ call ∈ Green.exposedFrom 0 key.children, call.takesClosure) (by decide +kernel))

end Entry

end SwiftTree
