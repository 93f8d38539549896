import SwiftTree.Proofs.TypeSyntax
import SwiftTree.View.Declaration

/-!
# Annotations with types

The declaration `let x: T` is parsed as a statement, for a type `T` as it is written. Its tokens are
those of the signs it is written with (`WrittenType.exists_ofText_declaration`), its tree holds the
tree of the type, and nothing is wrong with it.

That takes a type of which no generic arguments end in a question mark. Behind such a one, as in
`N<T?>`, the question mark and the closing angle bracket are one operator, which no rule takes
apart.
-/

namespace SwiftTree

open Grammar Token

/-! ## Operators that touch -/

/-- Whether every operator among the tokens behind `prev` touches what stands before it. -/
def Token.Touching (prev : Option Token) : List Token → Prop
  | [] => True
  | t :: ts => (t.kind.isOperator → t.touches prev) ∧ Touching (some t) ts

/-- What touches the text before it touches the token before it. -/
theorem Token.touches_of_leftBound {prev : Option Token} {t : Token} (h : leftBound prev [])
    (ht : t.leading = []) : t.touches prev := by
  cases prev with
  | none => cases h
  | some u =>
    rw [leftBound, Option.any_some, Bool.and_eq_true, Bool.and_eq_true, Bool.and_eq_true] at h
    rw [touches, ht, Option.any_some, h.2.1.1]
    rfl

/-- Whether operators touch what is before them depends on the trivia behind the first token
alone. -/
theorem Token.Touching.congr {t u : Token} {ts : List Token} (h : Touching (some t) ts)
    (htrailing : t.trailing = u.trailing) : Touching (some u) ts := by
  cases ts with
  | nil => trivial
  | cons v ts =>
    refine ⟨fun hop => ?_, h.2⟩
    have ht := h.1 hop
    rw [touches, Option.any_some, htrailing] at ht
    exact ht

/-- The operators that types are written with touch what stands before them. -/
theorem Sign.touching_tokens {prev : Option Token} {ss : List Sign} (hfit : FitBefore none ss)
    (hprev : Bound prev ss.head?) : Touching prev (tokens ss) := by
  induction ss generalizing prev with
  | nil => trivial
  | cons s ss ih =>
    have hmeets : s.meets ss.head? := meets_head? hfit
    have hrest : Touching (some s.token) (tokens ss) := ih hfit.2 (bound_of_meets hmeets)
    cases hs : s.isSuffix with
    | false =>
      rw [tokens_of_not_isSuffix hs]
      refine ⟨fun hop => ?_, hrest⟩
      cases s with
      | leftAngle => exact touches_of_leftBound (hprev _ rfl (.inr rfl)) rfl
      | rightAngle | mark => cases hs
      | _ => cases hop
    | true =>
      have hleft := hprev s rfl (.inl hs)
      have htrailing : s.token.trailing = [] := by rw [token_of_isSuffix hs]
      rw [tokens, if_pos hs]
      rcases join_cases s.token.text (tokens ss) with hjoin | ⟨u, us, hus, -, hjoin⟩
      · rw [hjoin]
        exact ⟨fun _ => touches_of_leftBound hleft rfl, hrest.congr htrailing⟩
      · rw [hjoin]
        rw [hus] at hrest
        have hleading : u.leading = [] := leading_tokens u (congrArg List.head? hus)
        exact ⟨fun _ => touches_of_leftBound hleft hleading, hrest.2.congr rfl⟩

namespace Grammar

/-- An operator that touches what is before it is adjacent to it, as the grammar sees it. -/
theorem Lexeme.adjacent_of_mem_ofTokens {endOpensLine : Bool} {pos : Nat} {prev : Option Token}
    {ts : List Token} {h : ∀ t ∈ ts, t.IsSolid} (hts : Touching prev ts) {x : Lexeme}
    (hx : x ∈ ofTokens endOpensLine pos prev ts h) (hop : x.kind.isOperator) : x.adjacent := by
  induction ts generalizing pos prev with
  | nil => cases hx
  | cons t ts ih =>
    rcases List.mem_cons.mp hx with rfl | hx
    · exact hts.1 hop
    · exact ih hts.2 hx

/-- The tokens of signs that fit are seen as such. -/
theorem Ahead.shows_ofTokens {endOpensLine : Bool} {pos : Nat} {prev : Option Token}
    {ss : List Sign} {h : ∀ t ∈ Sign.tokens ss, t.IsSolid} (hfit : Sign.FitBefore none ss)
    (hprev : Sign.Bound prev ss.head?) :
    Shows ss (Lexeme.ofTokens endOpensLine pos prev (Sign.tokens ss) h) :=
  ⟨Lexeme.tokens_ofTokens endOpensLine pos prev _ h,
    fun _ hx hop => Lexeme.adjacent_of_mem_ofTokens (Sign.touching_tokens hfit hprev) hx hop⟩

end Grammar

/-! ## The text of an annotation -/

namespace WrittenType

/-- The name that is annotated. -/
def variableName : Name := ⟨['x'], rfl⟩

/-- A declaration of a variable with a type. -/
def declaration (t : WrittenType) : Text := "let x: ".toList ++ t.print

/-- The keyword before the name. -/
def letToken : Token := ⟨[], .letKw, ['l', 'e', 't'], blank⟩

/-- What follows the keyword. -/
def declarationSigns (t : WrittenType) : List Sign := .word variableName :: .colon :: t.signs

/-- The tree of the name with its type. -/
def bindingTree (t : WrittenType) : Green :=
  .node .patternBinding [.node .identifierPattern [.token (Sign.word variableName).token],
    .node .typeClause [.token Sign.colon.token, t.tree]]

/-- The tree of the declaration. -/
def declarationTree (t : WrittenType) : Green :=
  .node .variableDecl [.token letToken, .node .patternBindingList [t.bindingTree]]

variable {t : WrittenType}

/-- The signs of a declaration fit each other if the type is closed. -/
theorem fitBefore_declarationSigns (h : t.isClosed) : Sign.FitBefore none t.declarationSigns := by
  refine ⟨rfl, ?_, fits_of_isClosed h none rfl fun _ => nofun⟩
  obtain ⟨s, ss, ht, hs⟩ := t.exists_signs_eq
  rw [ht]
  exact hs

/-- A declaration is read as the tokens of its signs. -/
theorem stream_declaration (h : t.isClosed) :
    Token.stream t.declaration
      = letToken :: Sign.tokens t.declarationSigns ++ [⟨[], .endOfFile, [], []⟩] := by
  have htext : fullText (letToken :: Sign.tokens t.declarationSigns) = t.declaration := by
    rw [fullText_cons, Sign.fullText_tokens, declarationSigns, Sign.text_cons, Sign.text_cons,
      text_signs]
    rfl
  have hlet : ReadsBefore none letToken (fullText (Sign.tokens t.declarationSigns)) := by
    rw [Sign.fullText_tokens]
    refine .of_plain rfl (.inr rfl) rfl rfl (Sign.scan_text_eq_nil _) ?_
    exact (plain_word rfl (List.all_eq_true.mp rfl) rfl).trans rfl
  have hreads := Reads.cons hlet (Sign.reads_tokens [] nofun (fitBefore_declarationSigns h) nofun)
  rw [← htext]
  exact stream_of_reads hreads

/-- The grammar sees the keyword and the signs. Every operator of the type touches what stands
before it, since there is no blank in front of one. -/
theorem exists_ofText_declaration (h : t.isClosed) : ∃ x ts, Ahead.ofText t.declaration = x :: ts ∧
    x.token = letToken ∧ Ahead.Shows t.declarationSigns ts := by
  obtain ⟨hts, heq⟩ := Ahead.ofText_eq (stream_declaration h)
  rw [heq]
  exact ⟨_, _, rfl, rfl, Ahead.shows_ofTokens (fitBefore_declarationSigns h) nofun⟩

end WrittenType

/-! ## Parsing an annotation -/

namespace Grammar

open Grammar.Parser

variable {t : WrittenType} {ts : Ahead}

/-- The type behind a colon is read at the end of a text. -/
theorem typeClause_ends (built : Forest) (hfit : Sign.FitBefore none t.signs)
    (hts : Ahead.Shows (.colon :: t.signs) ts) :
    typeClause.Ends ⟨ts, built⟩
    () ⟨[], .node .typeClause [.token Sign.colon.token, t.tree] :: built⟩ := by
  obtain ⟨us, hus, hcolon⟩ := require_sign [] hts rfl rfl
  rw [← List.append_nil t.signs] at hfit hus
  obtain ⟨vs, hvs, htype⟩ := (isRead t).type_ends [.token Sign.colon.token] hfit rfl nofun hus
  obtain rfl := hvs.nil
  exact .forestNode _ (hcolon.bind htype) rfl

/-- A name is a pattern. -/
theorem patternRule_word {n : Name} {ss : List Sign} (built : Forest)
    (hts : Ahead.Shows (.word n :: ss) ts) :
    ∃ us, Ahead.Shows ss us ∧ (visit .pattern).Ends ⟨ts, built⟩ ()
      ⟨us, .node .identifierPattern [.token (Sign.word n).token] :: built⟩ := by
  obtain ⟨us, hus, hadvance⟩ := advance_sign [] hts rfl
  refine ⟨us, hus, .visit (.complete ((Ends.look hts.kind_eq).bind ?_))⟩
  exact .forestNode _ hadvance rfl

/-- A variable with its type is a declaration at the end of a text. -/
theorem decl_ends (built : Forest) {x : Lexeme} (hx : x.token = WrittenType.letToken)
    (hfit : Sign.FitBefore none t.signs) (hts : Ahead.Shows t.declarationSigns ts) :
    decl.Ends ⟨x :: ts, built⟩ () ⟨[], t.declarationTree :: built⟩ := by
  have hkind : x.kind = .letKw := congrArg Token.kind hx
  obtain ⟨us, hus, hpattern⟩ := patternRule_word [] hts
  have hcolon : us.isAt .colon := by
    rw [hus.isAt_eq]
    rfl
  have hbinding : patternBinding.Ends ⟨ts, ([] : Forest)⟩ () ⟨[], _⟩ :=
    hpattern.bind (.bind (.ifAhead hcolon (typeClause_ends _ hfit hus))
      (.bind (.ifAhead_not rfl) (.ifAhead_not rfl)))
  have hlist : (commaList .patternBinding (fun _ => false) patternBinding).Ends ⟨ts,
    ([] : Forest)⟩ ()
      ⟨[], [t.bindingTree]⟩ :=
    .repeatWhile (.stop (listElement_last hbinding (.eat_not nofun)))
  have hkeyword : variableKeyword.Ends ⟨x :: ts, ([] : Forest)⟩ () ⟨ts, [.token x.token]⟩ :=
    (Ends.eat hkind).bind (.pure _ _)
  have hparts : declParts.Ends ⟨x :: ts, ([] : Forest)⟩ ⟨.variableDecl, rfl⟩
      ⟨[], [.node .patternBindingList [t.bindingTree], .token x.token]⟩ := by
    refine .branch_not ?_ (.bind (hkeyword.bind (.forestNode _ hlist rfl)) (.pure _ _))
    simp [Ahead.isAt, Ahead.kind, hkind]
  refine .forestNodeBy ⟨.variableDecl, rfl⟩ _
    (.bind (.ifAhead_not ?_) (.bind (.whileAhead_not ?_) (hparts.bind (.pure _ _)))) ?_
  · simp [Ahead.isAt, Ahead.kind, hkind]
  · simp [Ahead.modifierLength?, Ahead.isAt, Ahead.kind, hkind]
  · rw [hx]
    rfl

/-- The rule for a statement reads a declaration, and makes its tree. -/
theorem statement_ends {x : Lexeme} (hx : x.token = WrittenType.letToken)
    (hfit : Sign.FitBefore none t.signs) (hts : Ahead.Shows t.declarationSigns ts) :
    Entry.statement.rule.Ends ⟨x :: ts, ([] : Forest)⟩ () ⟨[], [t.declarationTree]⟩ := by
  have hkind : Ahead.kind (x :: ts) = .letKw := congrArg Token.kind hx
  have hstatement : statementRule.Ends ⟨x :: ts, ([] : Forest)⟩ () ⟨[], [t.declarationTree]⟩ := by
    refine (Ends.look rfl).bind ?_
    rw [hkind]
    exact decl_ends [] hx hfit hts
  exact .bind (.visit (.complete hstatement)) (.skipUntil_nil _ _)

end Grammar

namespace WrittenType

/-- Nothing else is in the tree of a declaration. -/
theorem parts_declaration {t : WrittenType} (h : t.isClosed) :
    Entry.statement.parts t.declaration = [t.declarationTree] := by
  obtain ⟨x, ts, hahead, hx, hts⟩ := exists_ofText_declaration h
  have hends := statement_ends hx (fitBefore_declarationSigns h).2.2 hts
  rw [← hahead] at hends
  rw [Entry.parts, Entry.outcome_of_ends hends]
  rfl

end WrittenType

/-- The only node among the parts is the first of its form. -/
theorem Node.childView_eq {n m : Node} {form : Kind → Bool} (hn : n.childNodes = [m])
    (hm : form m.kind) : n.childView = some ⟨m, hm⟩ := by
  rw [childView, childViews, hn, List.filterMap_cons, view?, dif_pos hm]
  rfl

namespace Parse

/-- The type that the variable of a declaration is annotated with. -/
def annotatedType? (p : Parse) : Option WrittenType := do
  let declaration ← p.root.childView
  let binding ← (View.VariableDeclaration.bindings declaration).head?
  let clause ← View.PatternBinding.typeClause binding
  let type ← View.TypeClause.type clause
  WrittenType.read? type.node.green

/-- Nothing is missing in the tree of a declaration, and nothing in it is unexpected. -/
theorem isClean_declarationTree (t : WrittenType) : t.declarationTree.isClean := by
  have hname : (Green.node .identifierPattern
      [.token (Sign.word WrittenType.variableName).token]).isClean := rfl
  have hclause : (Green.node .typeClause [.token Sign.colon.token, t.tree]).isClean := by
    rw [Green.isClean_node rfl]
    simp [t.isClean_tree]
  have hbinding : t.bindingTree.isClean := by
    rw [WrittenType.bindingTree, Green.isClean_node rfl]
    simp [hname, hclause]
  have hlist : (Green.node .patternBindingList [t.bindingTree]).isClean := by
    rw [Green.isClean_node rfl]
    simp [hbinding]
  rw [WrittenType.declarationTree, Green.isClean_node rfl]
  simp [hlist]

/-- **A type is accepted as it is written, and read back from its tree**, if no generic arguments in
it end in a question mark. -/
theorem writtenType_read (t : WrittenType) (h : t.isClosed) :
    (ofText .statement t.declaration).diagnostics = [] ∧
      (ofText .statement t.declaration).annotatedType? = some t.explicit := by
  constructor
  · rw [Entry.diagnostics_eq_nil_iff, Entry.isClean_tree, WrittenType.parts_declaration h]
    simp [isClean_declarationTree]
  · obtain ⟨k, cs, ht, hk⟩ : ∃ k cs, t.tree = .node k cs ∧ k.isType := by
      cases t <;> exact ⟨_, _, rfl, rfl⟩
    have hread := t.read?_tree
    rw [ht] at hread
    rw [annotatedType?, root, tree_ofText, Entry.tree_eq, WrittenType.parts_declaration h,
      WrittenType.declarationTree, WrittenType.bindingTree, ht]
    show (View.TypeClause.type ⟨⟨.typeClause, [_, .node k cs], _, _⟩, rfl⟩).bind
      (fun v => WrittenType.read? v.node.green) = _
    rw [View.TypeClause.type, Node.childView_eq rfl hk]
    exact hread

/-- An array of optionals as an argument, and an optional function, in a dictionary. -/
theorem writtenType_read_dictionary :
    let t : WrittenType := .dictionary
      (.generic ⟨['N'], rfl⟩ (.optional (.name ⟨['A'], rfl⟩))
        [.array (.optional (.name ⟨['B'], rfl⟩))])
      (.optional (.function [.name ⟨['A'], rfl⟩] (.optional (.optional (.name ⟨['B'], rfl⟩)))))
    t.declaration = "let x: [N<A?, [B?]>: ((A) -> B??)?]".toList ∧ t.isClosed ∧
      (ofText .statement t.declaration).diagnostics = [] ∧
      (ofText .statement t.declaration).annotatedType? = some t.explicit :=
  ⟨rfl, rfl, writtenType_read _ rfl⟩

/-- An optional as the last generic argument is not accepted. -/
theorem optional_argument_rejected :
    let t : WrittenType := .generic ⟨['N'], rfl⟩ (.optional (.name ⟨['T'], rfl⟩)) []
    t.declaration = "let x: N<T?>".toList ∧ (ofText .statement t.declaration).diagnostics ≠ [] := by
  intro t
  refine ⟨rfl, fun hnone => ?_⟩
  have htree : (!(Entry.statement.tree t.declaration).isClean) = true :=
    Entry.of_tree? (n := 20) (p := fun tree => !tree.isClean) (by decide +kernel)
  rw [(Entry.diagnostics_eq_nil_iff _ _).mp hnone] at htree
  cases htree

end Parse

end SwiftTree
