import SwiftTree.Proofs.Clean
import SwiftTree.Proofs.TypeRules

/-!
# Generic arguments and the look ahead for them

The look ahead counts angle brackets, and the rules read types. Where the tokens are generic
arguments, the two agree (`Entry.genericArguments_agree`): the bracket that the look ahead finds is
the one that is read last. This rests on one lemma for each form of tokens: they keep what is found
wherever brackets are open.

The look ahead takes more for generic arguments than the rules of types do. Then types or brackets
are missing in the tree, as in `f<A?>()` (`Entry.genericArguments_unclosed`).
-/

namespace SwiftTree

namespace Grammar

/-! ## What generic arguments leave -/

section

variable {ts us : Ahead}

/-- What tokens keep, they keep together. -/
theorem WhileAhead.keeps {test : Ahead → Bool} {R : Ahead → Ahead → Prop}
    (hkeeps : ∀ ts us, test ts → R ts us → ts.Keeps us) (h : WhileAhead test R ts us) :
    ts.Keeps us := by
  induction h with
  | no _ => exact .refl _
  | yes htest hus _ ih => exact (hkeeps _ _ htest hus).trans ih

namespace Ahead

/-- A token that is no operator has no angle brackets. -/
theorem keeps_past {k : Kind} (hk : k.isOperator = false) (ts : Ahead) : ts.Keeps (ts.past k) := by
  rw [past]
  split
  · rename_i hat
    exact .tail (isAngled_of_isAt hk hat)
  · exact .refl ts

/-- Names have no angle brackets. -/
theorem keeps_pastName (ts : Ahead) : ts.Keeps ts.pastName := by
  rw [pastName]
  split
  · rename_i hname
    exact .tail (isAngled_of_isName hname)
  · exact .refl ts

/-- A label is a name and a colon. -/
theorem keeps_label (h : ts.isLabel) : ts.Keeps (ts.drop 2) := by
  rw [isLabel, Bool.and_eq_true] at h
  rw [← List.tail_drop, List.drop_one]
  exact (Keeps.tail (isAngled_of_isName h.1)).trans (.tail (isAngled_of_isAt rfl h.2))

/-- The labels of a tuple element have no angle brackets. -/
theorem keeps_pastLabels (ts : Ahead) : ts.Keeps ts.pastLabels := by
  rw [pastLabels]
  split
  · rename_i hlabel
    exact keeps_label hlabel
  split
  · rename_i hlabels
    rw [Bool.and_eq_true] at hlabels
    have htail : Keeps ts.tail (ts.tail.drop 2) := keeps_label hlabels.2
    rw [List.drop_tail] at htail
    exact (Keeps.tail (isAngled_of_isName hlabels.1)).trans htail
  · exact .refl ts

/-- The dots of a tuple element are an operator without angle brackets. -/
theorem keeps_pastDots (ts : Ahead) : ts.Keeps ts.pastDots := by
  rw [pastDots]
  split
  · rename_i hdots
    exact .tail (isAngled_of_isSpelled rfl (Bool.and_elim_right hdots))
  · exact .refl ts

/-- A mark is cut off an operator, and neither part has an angle bracket. -/
theorem keeps_pastMark (h : ts.optionalSuffix?.isSome) : ts.Keeps ts.pastMark := by
  obtain ⟨kind, hkind⟩ := Option.isSome_iff_exists.mp h
  obtain ⟨hangled, hclosing⟩ := closing?_splitHead_mark hkind
  exact fun depth _ _ hfound => closing?_tail hangled ((hclosing depth).trans hfound)

theorem Passes.keeps {n : Nat} (h : Passes n ts us) : ts.Keeps us := h.eq_drop ▸ .drop h.balanced

/-- What is in the way of the end of a group has to be balanced, and the end is no operator. -/
theorem Closes.keeps {closing : Kind} {barriers : KindSet} (hk : closing.isOperator = false)
    (h : Closes closing barriers ts us) : ts.Keeps us := by
  obtain ⟨hskipped⟩ := h
  exact hskipped.keeps.trans (keeps_past hk _)

/-- The arguments of an attribute have to be balanced. -/
theorem AreAttributeArguments.keeps (h : AreAttributeArguments ts us) : ts.Keeps us := by
  cases h with
  | none _ => exact .refl ts
  | some hstarts hus =>
    have hparen : ts.isAngled = false := isAngled_of_isAt rfl (Bool.and_elim_left hstarts)
    exact (Keeps.tail hparen).trans (hus.keeps.trans (keeps_past rfl _))

/-- Attributes keep what is found, one after the other. -/
theorem AreAttributes.keeps (h : AreAttributes ts us) : ts.Keeps us := by
  refine WhileAhead.keeps (fun ts us hat hus => ?_) h
  obtain ⟨harguments⟩ := hus
  exact (Keeps.tail (isAngled_of_isAt rfl hat)).trans ((keeps_pastName _).trans harguments.keeps)

/-- The marks of optional types are operators, or parts of operators, without angle brackets. -/
theorem AreMarks.keeps (h : AreMarks ts us) : ts.Keeps us := by
  refine WhileAhead.keeps (fun ts us hmark hus => ?_) h
  subst hus
  exact keeps_pastMark hmark

/-- Effects are words, and have no angle brackets. -/
theorem AreEffects.keeps (h : AreEffects ts us) : ts.Keeps us := by
  refine WhileAhead.keeps (fun ts us heffect hus => ?_) h
  subst hus
  refine .tail ?_
  rcases Bool.or_eq_true _ _ |>.mp heffect with heffect | hrethrows
  · rcases Bool.or_eq_true _ _ |>.mp heffect with hasync | hthrows
    · exact isAngled_of_isWord hasync
    · exact isAngled_of_isAt rfl hthrows
  · exact isAngled_of_isAt rfl hrethrows

/-- Types that are no names of operators start with tokens without angle brackets. -/
theorem isAngled_of_typeForm? {form : TypeForm} (h : ts.typeForm? = some form)
    (hne : form ≠ .attributed) : ts.isAngled = false := by
  rw [typeForm?] at h
  split at h
  · cases h
    exact absurd rfl hne
  split at h
  · rename_i hword
    rw [isSomeOrAny, Bool.and_eq_true, Bool.and_eq_true, Bool.or_eq_true] at hword
    exact hword.1.1.elim isAngled_of_isWord isAngled_of_isWord
  split at h
  · rename_i hname
    exact (Bool.or_eq_true _ _ |>.mp hname).elim (isAngled_of_isAt rfl) (isAngled_of_isAt rfl)
  split at h
  · rename_i hbracket
    exact isAngled_of_isAt rfl hbracket
  split at h
  · rename_i hparen
    exact isAngled_of_isAt rfl hparen
  · cases h

/-! ### Brackets that are cut off -/

/-- What is left of an operator that is cut is an operator. -/
theorem isOperator_restKind {ts : Ahead} : ∀ k ∈ ts.restKind, k.1.isOperator := by
  intro k hk
  rw [restKind_eq k hk]
  rfl

/-- An operator that starts with a character is there, and has this character. -/
theorem exists_of_isOperatorFrom {c : Char} (h : ts.isOperatorFrom c) :
    ∃ x us cs, ts = x :: us ∧ x.kind.isOperator ∧ x.token.text = c :: cs := by
  rcases ts with _ | ⟨x, us⟩
  · cases h
  obtain ⟨hop, hhead⟩ := isOperator_of_isOperatorFrom h
  obtain ⟨cs, htext⟩ := List.head?_eq_some_iff.mp hhead
  exact ⟨x, us, cs, rfl, hop, htext⟩

/-- Behind an opening bracket one more is open. -/
theorem closing?_leftAngle (h : ts.isOperatorFrom '<') (depth : Nat) :
    ts.closing? depth = closing? (depth + 1) (ts.pastHead ⟨.leftAngle, rfl⟩) := by
  obtain ⟨x, us, cs, rfl, hop, htext⟩ := exists_of_isOperatorFrom h
  exact closing?_cut _ _ hop htext isOperator_restKind rfl

/-- Behind a closing bracket one less is open. If none is, then this bracket is the one that was
found. -/
theorem closing?_rightAngle (h : ts.isOperatorFrom '>') {depth : Nat} {found : Closing}
    (hfound : ts.closing? (depth + 1) = some found) :
    let us := ts.pastHead ⟨.rightAngle, rfl⟩
    if depth = 0 then us.source = found.source else us.closing? depth = some found := by
  obtain ⟨x, us, cs, rfl, hop, htext⟩ := exists_of_isOperatorFrom h
  intro us
  split
  · rename_i hdepth
    subst hdepth
    exact source_cut _ _ hop htext rfl hfound
  · rename_i hdepth
    have hangles : angles (depth + 1) ('>' :: cs) = angles depth cs := by
      show (if depth + 1 ≤ 1 then _ else _) = _
      rw [if_neg (by omega)]
      rfl
    exact (closing?_cut _ _ hop htext isOperator_restKind hangles).symm.trans hfound

/-! ### Types -/

/-- Between brackets that are read, what is found is kept. So it is behind them, unless it is the
bracket read last. -/
theorem keeps_brackets (hopen : ts.isOperatorFrom '<') {vs : Ahead}
    (hkeeps : (ts.pastHead ⟨.leftAngle, rfl⟩).Keeps vs) (hclose : vs.isOperatorFrom '>') :
    let us := vs.pastHead ⟨.rightAngle, rfl⟩
    ts.Keeps us ∧ ∀ found, ts.closing? 0 = some found → us.source = found.source := by
  have hclosing (depth : Nat) (found : Closing) (hfound : ts.closing? depth = some found) :
      vs.closing? (depth + 1) = some found :=
    hkeeps _ found (Nat.succ_pos depth) ((closing?_leftAngle hopen depth).symm.trans hfound)
  constructor
  · intro depth found hdepth hfound
    have hbehind := closing?_rightAngle hclose (hclosing depth found hfound)
    rwa [if_neg (Nat.ne_of_gt hdepth)] at hbehind
  · intro found hfound
    exact closing?_rightAngle hclose (hclosing 0 found hfound)

mutual

theorem IsType.keeps {ts us : Ahead} : ts.IsType us → ts.Keeps us
  | .mk h hvs => h.keeps.trans (keeps_joined hvs)

theorem keeps_joined {ts us : Ahead} : WhileAhead isComposition IsJoined ts us → ts.Keeps us
  | .no _ => .refl _
  | .yes hand hus hvs => (hus.keeps hand).trans (keeps_joined hvs)

theorem IsJoined.keeps {ts us : Ahead} (hand : ts.isComposition) : ts.IsJoined us → ts.Keeps us
  | .mk h => (Keeps.tail (isAngled_of_isSpelled rfl (Bool.and_elim_right hand))).trans h.keeps

/-- A type that is no composition keeps what is found, whichever form it has: brackets are opened
and closed in generic arguments only. The cases are the forms. -/
theorem IsPlainType.keeps {ts us : Ahead} : ts.IsPlainType us → ts.Keeps us
  | .attributed _ hattributes htype =>
    (hattributes.keeps.trans (keeps_past rfl _)).trans htype.keeps
  | .someOrAny h htype => (Keeps.tail (isAngled_of_typeForm? h nofun)).trans htype.keeps
  | .named h harguments hmembers hmarks =>
    ((Keeps.tail (isAngled_of_typeForm? h nofun)).trans harguments.keeps).trans
      ((keeps_members hmembers).trans hmarks.keeps)
  | .collection h htype hvalue hclose hmarks =>
    ((Keeps.tail (isAngled_of_typeForm? h nofun)).trans htype.keeps).trans
      (hvalue.keeps.trans ((hclose.keeps rfl).trans hmarks.keeps))
  | .tuple h helements hclose hresult hmarks =>
    ((Keeps.tail (isAngled_of_typeForm? h nofun)).trans helements.keeps).trans
      ((hclose.keeps rfl).trans (hresult.keeps.trans hmarks.keeps))

theorem keeps_members {ts us : Ahead} : WhileAhead startsMember IsMember ts us → ts.Keeps us
  | .no _ => .refl _
  | .yes hmember hus hvs => (hus.keeps hmember).trans (keeps_members hvs)

/-- A member keeps what is found: it is a period and a name, with generic arguments. -/
theorem IsMember.keeps {ts us : Ahead} (hmember : ts.startsMember) : ts.IsMember us → ts.Keeps us
  | .mk h =>
    have hboth := Bool.and_eq_true _ _ |>.mp hmember
    ((Keeps.tail (isAngled_of_isAt rfl hboth.1)).trans (.tail (isAngled_of_isName hboth.2))).trans
      h.keeps

theorem IsValue.keeps {ts us : Ahead} : ts.IsValue us → ts.Keeps us
  | .none _ => .refl _
  | .some hcolon htype => (Keeps.tail (isAngled_of_isAt rfl hcolon)).trans htype.keeps

theorem AreElements.keeps {ts us : Ahead} : ts.AreElements us → ts.Keeps us
  | .none _ => .refl _
  | .some _ hus => keeps_elements hus

theorem keeps_elements {ts us : Ahead} : CommaList endsTuple IsElement ts us → ts.Keeps us
  | .last h _ => h.keeps.trans (keeps_past rfl _)
  | .more h _ hvs => (h.keeps.trans (keeps_past rfl _)).trans (keeps_elements hvs)

theorem IsElement.keeps {ts us : Ahead} : ts.IsElement us → ts.Keeps us
  | .mk h => (keeps_pastLabels _).trans (h.keeps.trans (keeps_pastDots _))

theorem IsResult.keeps {ts us : Ahead} : ts.IsResult us → ts.Keeps us
  | .none _ => .refl _
  | .some _ heffects htype => (heffects.keeps.trans (keeps_past rfl _)).trans htype.keeps

theorem AreArguments.keeps {ts us : Ahead} : ts.AreArguments us → ts.Keeps us
  | .none _ => .refl _
  | .some h hus => (hus.keeps (Bool.and_elim_left h)).1

/-- Behind generic arguments stands what stands behind the bracket that is found. -/
theorem IsArguments.keeps {ts us : Ahead} (hopen : ts.isOperatorFrom '<') : ts.IsArguments us →
    ts.Keeps us ∧ ∀ found, ts.closing? 0 = some found → us.source = found.source
  | .mk htypes hclose => keeps_brackets hopen (keeps_types htypes) hclose

theorem keeps_types {ts us : Ahead} : CommaList (fun _ => false) IsType ts us → ts.Keeps us
  | .last h _ => h.keeps.trans (keeps_past rfl _)
  | .more h _ hvs => (h.keeps.trans (keeps_past rfl _)).trans (keeps_types hvs)

end

end Ahead

end

end Grammar

/-! ## Clauses -/

/-- A specialized expression is one with a clause of generic arguments. -/
theorem Shape.specializeExpr_cases {gs : List Green}
    (h : (Kind.exactShape .specializeExpr).Matches gs) :
    ∃ callee parts, gs = [callee, .node .genericArgumentClause parts] ∧
    callee.kind.isExpression := by
  cases h with
  | seq hcallee hclause =>
    cases hcallee with
    | @node _ kind cs hexpression =>
      cases hclause with
      | @node _ clause parts hkind =>
        obtain rfl : clause = .genericArgumentClause := beq_iff_eq.mp hkind
        exact ⟨.node kind cs, parts, rfl, hexpression⟩

/-- A clause ends in a closing angle bracket, read or missing. -/
theorem Shape.exists_getLast_genericArgumentClause {gs : List Green}
    (h : (Kind.exactShape .genericArgumentClause).Matches gs) :
    ∃ closing, gs.getLast? = some (.leaf closing) ∧ closing.kind = .rightAngle := by
  cases h with
  | seq _ hrest =>
    cases hrest with
    | seq _ hclosing =>
      rw [← List.append_assoc]
      cases hclosing with
      | left hread =>
        cases hread with
        | @token _ bracket hkind =>
          exact ⟨.present bracket, List.getLast?_concat, beq_iff_eq.mp hkind⟩
      | right hmissing =>
        cases hmissing with
        | @missing _ kind spelling hkind =>
          obtain rfl : kind = .rightAngle := beq_iff_eq.mp hkind
          exact ⟨.missing .rightAngle spelling, List.getLast?_concat, rfl⟩

namespace Green

/-- Nothing is missing in the parts of a node in which nothing is missing. -/
theorem all_isClean_of_isClean {kind : Kind} {cs : List Green} (h : (node kind cs).isClean) :
    cs.all isClean := by
  rw [isClean, Bool.and_eq_true] at h
  exact List.all_eq_true.mpr (allClean_iff.mp h.2)

/-- Whether the parts of a clause of generic arguments end in an angle bracket that was read, and no
type is missing in them. -/
structure AreClosedArguments (parts : List Green) : Prop where
  bracket : ∃ bracket, parts.getLast? = some (.leaf (.present bracket)) ∧ bracket.kind = .rightAngle
  types : DeepAll (fun kind _ => kind ≠ .missingType) parts

section

variable {good : Green → Bool}

mutual

/-- If the parts of good trees are good, then so is everything in them. -/
theorem deep_of_good (hgood : ∀ kind cs, good (.node kind cs) → cs.all good) :
    {g : Green} → good g → g.Deep fun kind cs => good (.node kind cs)
  | .node kind cs, h => ⟨h, deepAll_of_good hgood (hgood kind cs h)⟩
  | .leaf _, _ => trivial

/-- What holds of a node and of all its parts holds of every node below. -/
theorem deepAll_of_good (hgood : ∀ kind cs, good (.node kind cs) → cs.all good) :
    {gs : List Green} → gs.all good → DeepAll (fun kind cs => good (.node kind cs)) gs
  | [], _ => trivial
  | _ :: _, h =>
    have hboth := Bool.and_eq_true _ _ |>.mp h
    ⟨deep_of_good hgood hboth.1, deepAll_of_good hgood hboth.2⟩

end

/-- A clause that is good has all its parts, if nothing good is missing. -/
theorem areClosedArguments_of_good (hgood : ∀ kind cs, good (.node kind cs) → cs.all good)
    (htype : ∀ cs, good (.node .missingType cs) = false)
    (hleaf : ∀ l, good (.leaf l) → l.kind = .rightAngle → l.isPresent) {parts : List Green}
    (h : parts.all good) (hclosing : ∃ closing, parts.getLast? = some (.leaf closing) ∧
      closing.kind = .rightAngle) : AreClosedArguments parts := by
  obtain ⟨closing, hlast, hkind⟩ := hclosing
  have hpresent := hleaf closing (List.all_eq_true.mp h _ (List.mem_of_getLast? hlast)) hkind
  refine ⟨?_, DeepAll.imp (fun kind cs hnode => ?_) (deepAll_of_good hgood h)⟩
  · cases closing with
    | present bracket => exact ⟨bracket, hlast, hkind⟩
    | missing _ _ => cases hpresent
  · rintro rfl
    exact absurd hnode (ne_true_of_eq_false (htype cs))

end

/-- A whole clause that ends in a bracket has all its types. -/
theorem areClosedArguments_of_isWhole {parts : List Green} (h : parts.all isWhole)
    (hclosing : ∃ closing, parts.getLast? = some (.leaf closing) ∧ closing.kind = .rightAngle) :
    AreClosedArguments parts := by
  refine areClosedArguments_of_good (fun kind cs hnode => ?_) (fun cs => ?_)
    (fun l hl hkind => ?_) h hclosing
  · rw [isWhole_node, Bool.and_eq_true] at hnode
    exact hnode.2
  · rw [isWhole_node]
    rfl
  · rw [isWhole, hkind] at hl
    exact (Bool.or_false _).symm.trans hl

/-- A clean clause that ends in a bracket has all its types. -/
theorem areClosedArguments_of_isClean {parts : List Green} (h : parts.all isClean)
    (hclosing : ∃ closing, parts.getLast? = some (.leaf closing) ∧ closing.kind = .rightAngle) :
    AreClosedArguments parts :=
  areClosedArguments_of_good (fun _ _ => all_isClean_of_isClean) (fun _ => rfl)
    (fun _ hl _ => hl) h hclosing

end Green

namespace Grammar

/-! ## Generic arguments in expressions -/

open Grammar.Parser

/-- What a rule behind a look does, for any assembly. -/
theorem Parser.run_ifAhead {σ : Type} [Assembly σ] {env : Env σ} {s : State σ} (f : Ahead → Bool)
    (p : Parser Unit) :
    (ifAhead f p).run env s = if f s.ahead then p.run env s else some ((), s) := by
  change Parser.run env (if f s.ahead then p else Pure.pure ()) s = _
  split <;> rfl

/-- What is read into a node makes up its text. -/
theorem Parser.source_of_run {n : Nat} {α : Type} {p : Parser α} {ts : Ahead} {a : α}
    {t : State Forest}
    (h : p.run (.ofLimit n) ⟨ts, []⟩ = some (a, t)) :
    ts.source = Green.textOf t.built.reverse ++ t.ahead.source := by
  have hagree := Forest.covering.run (Forest.covering.ofLimit n) p (c := ts.source)
    (s := ⟨ts, ([] : Forest)⟩) (t := ⟨ts, ()⟩) ⟨rfl, Forest.covers_nil ts⟩
  rw [h] at hagree
  obtain ⟨_, -, -, hcovers⟩ := Simulation.agree_some hagree
  exact hcovers.1.symm

/-- What is known of a clause that was read. Its tokens are generic arguments if and only if it is
whole. -/
theorem exists_of_run_genericArgumentClause {n : Nat} {ts : Ahead} {u : State Forest} {a : Unit}
    (hopen : ts.isOperatorFrom '<')
    (h : genericArgumentClause.run (.ofLimit n) ⟨ts, []⟩ = some (a, u)) :
    ∃ parts, u.built = [.node .genericArgumentClause parts] ∧
      ts.source = Green.textOf parts ++ u.ahead.source ∧
      (∃ closing, parts.getLast? = some (.leaf closing) ∧ closing.kind = .rightAngle) ∧
      (∀ us, ts.IsArguments us → u.ahead = us ∧ parts.all Green.isWhole) ∧
      (parts.all Green.isWhole → ts.IsArguments u.ahead) := by
  obtain ⟨v, hbody, rfl⟩ := exists_of_run_node h
  have hrule : genericArgumentClause.Reads (.ofLimit n) (fun _ => True) fun ts _ us =>
    ts.IsArguments us :=
    genericArgumentClause_reads (readsTypes n n)
  have hreads := hrule _ _ _ trivial h
  have hwhole : [Green.node .genericArgumentClause v.built.reverse].all Green.isWhole
      = v.built.reverse.all Green.isWhole :=
    (Bool.and_true _).trans (Green.isWhole_of_isConstruct rfl (by decide) _)
  have hsource := Parser.source_of_run h
  obtain ⟨⟨gs, hbuilt, hstrict, -⟩, -⟩ := sound_of_yields (Env.honest_ofLimit n) h
    (genericArgumentClause_makes (fun us (hus : us.isOperatorFrom '<') => hus) ts [] hopen)
  refine ⟨v.built.reverse, rfl, ?_, ?_, fun us hus => ?_, fun hparts => ?_⟩
  · rw [hsource]
    exact congrArg (· ++ _) (List.append_nil _)
  · have hclause : [Green.node .genericArgumentClause v.built.reverse] = gs.reverse ++ [] := hbuilt
    rw [List.append_nil, eq_comm, List.reverse_eq_iff] at hclause
    subst hclause
    exact Shape.exists_getLast_genericArgumentClause hstrict.1.1.exactShape
  · obtain ⟨-, rfl, hgood⟩ := hreads.complete rfl () us hus
    exact ⟨rfl, hwhole.symm.trans hgood⟩
  · exact hreads.sound (hwhole.trans hparts)

/-- Behind an expression that was read, the rule has one outcome. It does nothing where the look
ahead sees no generic arguments, and otherwise specializes the expression. -/
theorem specialize_agrees (ts : Ahead) (kind : Kind) (cs : List Green) (before : Forest) :
    ∃ t : State Forest,
      specialize.run (.ofLimit (callLimit ts.left)) ⟨ts, .node kind cs :: before⟩ = some ((), t) ∧
      specialize.Ends ⟨ts, .node kind cs :: before⟩ () t ∧
      (ts.isGenericArguments = false → t = ⟨ts, .node kind cs :: before⟩) ∧
      (ts.isGenericArguments → ∃ found parts, ts.closing? 0 = some found ∧ found.goesOn ∧
        t.built = .node .specializeExpr
        [.node kind cs, .node .genericArgumentClause parts] :: before ∧
        ts.source = Green.textOf parts ++ t.ahead.source ∧
        (∀ us, ts.IsArguments us →
          t.ahead = us ∧ us.source = found.source ∧ Green.AreClosedArguments parts) ∧
        (parts.all Green.isWhole ↔ ∃ us, ts.IsArguments us)) := by
  have hsteady : specialize.Steady (fun _ => True) Goal.top := specialize_steady
  obtain ⟨⟨⟩, t, hrun, hends⟩ := hsteady.exists_ends ts trivial (.node kind cs :: before : Forest)
  refine ⟨t, hrun, hends, fun hahead => ?_, fun hahead => ?_⟩
  · rw [specialize, Parser.run_ifAhead, hahead, if_neg Bool.false_ne_true] at hrun
    cases hrun
    rfl
  · rw [specialize, Parser.run_ifAhead, if_pos hahead] at hrun
    change (Parser.enclose ⟨.specializeExpr, rfl⟩ genericArgumentClause).run _ _ = _ at hrun
    rw [Parser.run_enclose] at hrun
    split at hrun
    · cases hrun
    · rename_i u hclause
      cases hrun
      have hopen : ts.isOperatorFrom '<' := Bool.and_elim_left (Bool.and_elim_left hahead)
      obtain ⟨found, hfound, hgoesOn⟩ := Ahead.exists_closing hahead
      obtain ⟨parts, hbuilt, hsource, hclosing, hreads, hwhole⟩ :=
        exists_of_run_genericArgumentClause hopen hclause
      refine ⟨found, parts, hfound, hgoesOn, ?_, hsource, fun us hus => ?_, ?_, ?_⟩
      · show Green.node .specializeExpr ([.node kind cs] ++ u.built.reverse) :: before = _
        rw [hbuilt]
        rfl
      · obtain ⟨hahead, hparts⟩ := hreads us hus
        exact ⟨hahead, (hus.keeps hopen).2 found hfound,
          Green.areClosedArguments_of_isWhole hparts hclosing⟩
      · exact fun hparts => ⟨u.ahead, hwhole hparts⟩
      · exact fun ⟨us, hus⟩ => (hreads us hus).2

end Grammar

namespace Entry

open Grammar

/-- **Generic arguments end where the look ahead says.** In the tree of every text, a specialized
expression has a clause of generic arguments, which has its closing angle bracket and all types
unless something is reported.

Wherever generic arguments can stand behind an expression, the rule for them has one outcome. Where
the look ahead sees none, nothing is done. Where it does, it found the angle bracket that closes
them (`found`), and the expression is specialized by a clause. If the tokens here are generic
arguments, then they are taken, what is left is what stands behind the bracket that was found, and
the clause ends in this bracket and misses no type. They are generic arguments exactly if the clause
is whole. -/
theorem genericArguments_agree (e : Entry) (text : Text) :
    (∀ n ∈ (Node.ofGreen (e.tree text)).descendants, n.kind = .specializeExpr →
      ∃ callee parts, n.children = [callee, .node .genericArgumentClause parts] ∧
        callee.kind.isExpression ∧
        (∃ closing, parts.getLast? = some (.leaf closing) ∧ closing.kind = .rightAngle) ∧
        ((Parse.ofText e text).diagnostics = [] → Green.AreClosedArguments parts)) ∧
    ∀ (ts : Ahead) (kind : Kind) (cs : List Green) (before : Forest), ∃ t : State Forest,
      specialize.run (.ofLimit (callLimit ts.left)) ⟨ts, .node kind cs :: before⟩ = some ((), t) ∧
      specialize.Ends ⟨ts, .node kind cs :: before⟩ () t ∧
      (ts.isGenericArguments = false → t = ⟨ts, .node kind cs :: before⟩) ∧
      (ts.isGenericArguments → ∃ found parts, ts.closing? 0 = some found ∧ found.goesOn ∧
        t.built = .node .specializeExpr
        [.node kind cs, .node .genericArgumentClause parts] :: before ∧
        ts.source = Green.textOf parts ++ t.ahead.source ∧
        (∀ us, ts.IsArguments us →
          t.ahead = us ∧ us.source = found.source ∧ Green.AreClosedArguments parts) ∧
        (parts.all Green.isWhole ↔ ∃ us, ts.IsArguments us)) := by
  refine ⟨fun n hn hkind => ?_, specialize_agrees⟩
  have hstrict : n.green.Strict := strict_of_mem_descendants hn
  have hshape := hstrict.1.exactShape
  rw [hkind] at hshape
  obtain ⟨callee, parts, hchildren, hexpression⟩ := Shape.specializeExpr_cases hshape
  have hclause : .node .genericArgumentClause parts ∈ n.children := by
    rw [hchildren]
    exact List.mem_cons_of_mem _ List.mem_cons_self
  have hclosing :=
    Shape.exists_getLast_genericArgumentClause
      (Green.deepAll_iff.mp hstrict.2 _ hclause).1.exactShape
  refine ⟨callee, parts, hchildren, hexpression, hclosing, fun hclean => ?_⟩
  have hroot : (Node.ofGreen (e.tree text)).green.isClean := by
    have htree := (e.diagnostics_eq_nil_iff text).mp hclean
    rw [e.tree_eq] at htree ⊢
    exact htree
  have hdeep := Node.deep_of_mem_descendants
    (Green.deep_of_good (fun _ _ => Green.all_isClean_of_isClean) hroot) hn
  have hparts := Green.all_isClean_of_isClean (Green.deepAll_iff.mp hdeep.2 _ hclause).1
  exact Green.areClosedArguments_of_isClean hparts hclosing

/-- The call behind the generic arguments of `f<A<B>>()` is left. -/
theorem genericArguments_agree_call :
    let ts : Ahead := (Ahead.ofText "f<A<B>>()".toList).tail
    ∃ t : State Forest, specialize.run (.ofLimit (callLimit (Ahead.left ts)))
      ⟨ts, [.node .identifierExpr []]⟩ = some ((), t) ∧
      Ahead.IsArguments ts t.ahead ∧ t.ahead.source = "()".toList := by
  intro ts
  have hts : Ahead.isGenericArguments ts ∧
      (Ahead.closing? 0 ts).map Ahead.Closing.source = some "()".toList ∧
      (specialize.run (.ofLimit 20) ⟨ts, ([.node .identifierExpr []] : Forest)⟩).any
        fun r => r.2.built.all Green.isWhole :=
    of_decide_eq_true (Ahead.of_stream? (n := 20) (p := fun ts => Ahead.isGenericArguments ts.tail ∧
      (Ahead.closing? 0 ts.tail).map Ahead.Closing.source = some "()".toList ∧
      (specialize.run (.ofLimit 20) ⟨ts.tail, ([.node .identifierExpr []] : Forest)⟩).any
        fun r => r.2.built.all Green.isWhole) (by decide +kernel))
  obtain ⟨hahead, hsource, hrun⟩ := hts
  obtain ⟨t, hlimit, hends, -, hclause⟩ :=
    (genericArguments_agree .sourceFile []).2 ts .identifierExpr [] []
  obtain ⟨found, parts, hfound, -, hbuilt, -, hreads, hwhole⟩ := hclause hahead
  obtain ⟨r, hr, hgood⟩ := Option.any_eq_true _ _ |>.mp hrun
  obtain rfl := hends 20 20 r hr
  rw [hbuilt, List.all_cons, Bool.and_eq_true, Green.isWhole_of_isConstruct rfl (by decide),
    List.all_cons, List.all_cons, Bool.and_eq_true, Bool.and_eq_true] at hgood
  have hparts : parts.all Green.isWhole :=
    (Green.isWhole_of_isConstruct rfl (by decide) parts).symm.trans hgood.1.2.1
  obtain ⟨us, hus⟩ := hwhole.mp hparts
  obtain ⟨rfl, hleft, -⟩ := hreads us hus
  rw [hfound] at hsource
  exact ⟨t, hlimit, hus, hleft.trans (Option.some.inj hsource)⟩

/-- In `f<A?>()` the look ahead sees generic arguments. The question mark and the angle bracket are
one operator, which no rule of types takes apart, so the bracket that was found is missed. -/
theorem genericArguments_unclosed :
    Ahead.isGenericArguments (Ahead.ofText ['f', '<', 'A', '?', '>', '(', ')']).tail ∧
    ∃ n ∈ (Node.ofGreen (sourceFile.tree ['f', '<', 'A', '?', '>', '(', ')'])).descendants,
      n.kind = .specializeExpr ∧ ∃ m ∈ n.childNodes, m.kind = .genericArgumentClause ∧
        ∃ l ∈ m.childLeaves, l.kind = .rightAngle ∧ l.isPresent = false := by
  constructor
  · exact Ahead.of_stream? (n := 20) (p := fun ts => Ahead.isGenericArguments ts.tail)
      (by decide +kernel)
  · exact of_decide_eq_true
      (of_tree? (n := 20) (p := fun tree => ∃ n ∈ (Node.ofGreen tree).descendants,
      n.kind = .specializeExpr ∧ ∃ m ∈ n.childNodes, m.kind = .genericArgumentClause ∧
        ∃ l ∈ m.childLeaves, l.kind = .rightAngle ∧ l.isPresent = false) (by decide +kernel))

end Entry

end SwiftTree
