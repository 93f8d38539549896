import SwiftTree.Proofs.Conformance.Statements
import SwiftTree.Proofs.Construction

/-!
# Every tree is as it should be

What the rules put together carries over to the trees of texts: every node has one of the shapes of
its kind and groups its operands by the powers of operators (`Entry.proper_tree`), and the tokens of
the tree are the pieces of those of the text (`Entry.exists_pieces`).
-/

namespace SwiftTree

open Grammar

namespace Node

variable {p : Kind → List Green → Prop}

mutual

/-- What holds of every node of a tree holds of every node below one of its nodes. -/
theorem deep_of_mem_nodesIn {n d : Node} {index offset : Nat} :
    {g : Green} → g.Deep p → d ∈ n.nodesIn index offset g → d.green.Deep p
  | .node _ _, hg, hd => by
    rw [nodesIn, List.mem_cons] at hd
    rcases hd with rfl | hd
    · exact hg
    · exact deep_of_mem_nodesFrom hg.2 hd
  | .leaf _, _, hd => absurd hd List.not_mem_nil

/-- What holds in every node of some trees holds in the nodes that stand among them. -/
theorem deep_of_mem_nodesFrom {n d : Node} {index offset : Nat} :
    {gs : List Green} → Green.DeepAll p gs → d ∈ n.nodesFrom index offset gs → d.green.Deep p
  | [], _, hd => absurd hd List.not_mem_nil
  | _ :: _, hgs, hd =>
    (List.mem_append.mp hd).elim (deep_of_mem_nodesIn hgs.1) (deep_of_mem_nodesFrom hgs.2)

end

mutual

/-- What holds of all nodes in a part holds of every node of the tree. -/
theorem deep_of_forall_nodesIn (n : Node) (index offset : Nat) : {g : Green} →
    (∀ d ∈ n.nodesIn index offset g, p d.kind d.children) → g.Deep p
  | .node _ _, h => ⟨h _ List.mem_cons_self,
    deepAll_of_forall_nodesFrom _ 0 offset fun d hd => h d (List.mem_cons_of_mem _ hd)⟩
  | .leaf _, _ => trivial

/-- What holds of every node that stands among some trees holds in all of them. -/
theorem deepAll_of_forall_nodesFrom (n : Node) (index offset : Nat) : {gs : List Green} →
    (∀ d ∈ n.nodesFrom index offset gs, p d.kind d.children) → Green.DeepAll p gs
  | [], _ => trivial
  | _ :: _, h => ⟨deep_of_forall_nodesIn n index offset fun d hd =>
      h d (List.mem_append_left _ hd),
    deepAll_of_forall_nodesFrom n (index + 1) _ fun d hd => h d (List.mem_append_right _ hd)⟩

end

/-- A tree that is right at every node below a node is right at this node too. -/
theorem deep_of_forall_descendants {n : Node} (h : ∀ d ∈ n.descendants, p d.kind d.children) :
    n.green.Deep p :=
  ⟨h n List.mem_cons_self,
    deepAll_of_forall_nodesFrom n 0 n.offset fun d hd => h d (List.mem_cons_of_mem _ hd)⟩

/-- The trees of nodes below are right if the tree of the node above is. -/
theorem deep_of_mem_descendants {n d : Node} (hn : n.green.Deep p) (hd : d ∈ n.descendants) :
    d.green.Deep p := by
  rcases List.mem_cons.mp hd with rfl | hd
  · exact hn
  · exact deep_of_mem_nodesFrom hn.2 hd

end Node

namespace Entry

open Grammar.Parser

/-- What the rules of an entry add. -/
def shape : Entry → Shape
  | sourceFile => .one .codeBlockItemList
  | _ => .seq .statement .skipped

/-- What an entry reads has the shape of the entry, whatever the text is. -/
theorem rule_makes (e : Entry) : e.rule.Makes (fun _ => True) e.shape := by
  have hexpr : ∀ k, Kind.isExpression k → (k.isStatement || k.isExpression) = true :=
    fun _ hk => by rw [hk, Bool.or_true]
  cases e with
  | sourceFile => exact .visit
  | expression mode => exact .seq (.among expr_makes hexpr) fun _ => skipUntil_makes
  | statement => exact .seq .visit fun _ => skipUntil_makes
  | closure =>
    refine .seq (.among .visit fun k hk => ?_) fun _ => skipUntil_makes
    rw [beq_iff_eq.mp hk]
    rfl
  | returnStatement => exact .seq returnStatement_makes fun _ => skipUntil_makes

/-- What the rules of an entry have added at the end. -/
theorem parts_eq (e : Entry) (text : Text) :
    e.shape.Matches (e.parts text) ∧ Green.StrictAll (e.parts text) ∧
      ∃ pieces, Token.Pieces ((Ahead.ofText text).map Lexeme.token) pieces ∧
        Green.tokensOf (e.parts text) = pieces.map Token.outline := by
  obtain ⟨⟨hs, hbuilt, hstrict, hshape⟩, taken, htokens, hpieces⟩ :=
    Parser.sound_of_yields (Env.honest_ofLimit _) (e.run_rule text)
      (e.rule_makes (.ofText text) [] trivial)
  have hparts : e.parts text = hs := List.reverse_inj.mp (hbuilt.trans (List.append_nil _))
  rw [hparts] at htokens ⊢
  refine ⟨hshape, hstrict, taken, ?_, ?_⟩
  · simpa using hpieces _ [] (.refl _)
  · rw [List.reverse_reverse] at htokens
    exact htokens

/-- With the end of the text behind it, what the rules of an entry add has the shape of the root. -/
theorem shape_root (e : Entry) {gs : List Green} (hgs : e.shape.Matches gs) {t : Token}
    (ht : t.kind = .endOfFile) : e.root.shape.Matches (gs ++ [.token t]) := by
  have htoken : (Shape.tok .endOfFile).Matches [.token t] := .token (beq_iff_eq.mpr ht)
  cases e with
  | sourceFile => exact .seq hgs htoken
  | _ =>
    cases hgs with
    | seq hstatement hskipped =>
      rw [List.append_assoc]
      exact .seq hstatement (.seq hskipped htoken)

/-- Every node of the tree of a text is as the rules make it. -/
theorem strict_tree (e : Entry) (text : Text) : (e.tree text).Strict := by
  obtain ⟨hshape, hstrict, -⟩ := e.parts_eq text
  have hroot := e.shape_root hshape (kind_endOfFile text)
  rw [e.tree_eq]
  refine ⟨⟨Green.admits_of_isPlain hroot (by cases e <;> rfl), ?_, fun _ => ?_⟩,
    Green.deepAll_append.mpr ⟨hstrict, ⟨trivial, trivial⟩⟩⟩
  · cases e <;> exact hroot
  · exact Green.hasKeyword_of_not_isKeyed (by cases e <;> rfl) _

/-- The trees below the nodes are as the rules make them. -/
theorem strict_of_mem_descendants {e : Entry} {text : Text} {n : Node}
    (hn : n ∈ (Node.ofGreen (e.tree text)).descendants) : n.green.Strict := by
  refine Node.deep_of_mem_descendants ?_ hn
  have htree := e.strict_tree text
  rw [e.tree_eq] at htree ⊢
  exact htree

/-- **Every node of the tree of a text has one of the shapes of its kind**, and is grouped by the
powers of operators. This holds of every text, however malformed. -/
theorem proper_tree (e : Entry) (text : Text) : (e.tree text).Proper :=
  (e.strict_tree text).imp fun _ _ h => h.toAdmits

/-- The trees below the nodes are as they should be. -/
theorem proper_of_mem_descendants {e : Entry} {text : Text} {n : Node}
    (hn : n ∈ (Node.ofGreen (e.tree text)).descendants) : n.green.Proper :=
  (strict_of_mem_descendants hn).imp fun _ _ h => h.toAdmits

/-- The tokens of the tree of a text are the pieces of those of the text. No token is lost, and none
is made up. -/
theorem exists_pieces (e : Entry) (text : Text) : ∃ pieces,
    Token.Pieces (Token.stream text) pieces ∧
      Green.tokensOf [e.tree text] = pieces.map Token.outline := by
  obtain ⟨-, -, pieces, hpieces, htokens⟩ := e.parts_eq text
  refine ⟨pieces ++ [endOfFile text], ?_, ?_⟩
  · have hstream : Token.stream text = (Token.stream text).dropLast ++ [endOfFile text] := by
      obtain ⟨front, leading, h, -⟩ := Token.exists_stream_eq text
      rw [endOfFile, h, List.dropLast_concat, List.getLastD_concat]
    rw [hstream]
    rw [Ahead.ofText, Lexeme.tokens_ofTokens] at hpieces
    exact hpieces.append (.refl _)
  · rw [e.tree_eq, Green.tokensOf_node, Green.tokensOf_append, htokens, List.map_append]
    rfl

end Entry

end SwiftTree
