import SwiftTree.Proofs.Termination
import SwiftTree.Proofs.Writing

/-!
# Every text has a tree

The rules of an entry, followed once with a log and once with a forest, stay in step
(`Log.writing`), and the forest covers what was read (`Forest.covering`). So the events of a text
describe the forest (`Entry.parts`), a builder makes the tree of them without a fault, and what
holds of the forest holds of the tree: it has the text of its source, and every kind fits its place.
What is noted beside the events is what the rules note when they put nothing together
(`Entry.notes`).
-/

namespace SwiftTree

open Grammar

namespace Entry

/-! ## The parts of a tree -/

/-- The trees that the rules of an entry put together, in source order. -/
def parts (e : Entry) (text : Text) : List Green :=
  match e.outcome (callLimit (Text.byteLen text)) text ([] : Forest) with
  | some s => s.built.reverse
  | none => []

/-- What the rules of an entry note while they read a text. -/
def notes (e : Entry) (text : Text) : Notes :=
  match e.outcome (callLimit (Text.byteLen text)) text ({} : Notes) with
  | some s => s.built
  | none => {}

/-- What is related at the start of a text is related at its end. -/
theorem exists_outcomes {σ τ : Type} [Assembly σ] [Assembly τ] (S : Simulation σ τ) (e : Entry)
    {text : Text} {c : S.Context} {a : σ} {b : τ} (h : S.rel c (.ofText text) a b) :
    ∃ a' b', e.outcome (callLimit (Text.byteLen text)) text a = some ⟨[], a'⟩ ∧
      e.outcome (callLimit (Text.byteLen text)) text b = some ⟨[], b'⟩ ∧ S.rel c [] a' b' := by
  obtain ⟨answer, ⟨ahead, a'⟩, ha, hend⟩ := Parser.run_of_wp (s := ⟨.ofText text, a⟩)
    (grants_callLimit (Nat.le_refl _)) (e.rule_wp (.ofText text))
  obtain rfl : ahead = [] := hend
  have hagree := S.run (S.ofLimit (callLimit (Text.byteLen text))) e.rule
    (c := c) (s := ⟨.ofText text, a⟩) (t := ⟨.ofText text, b⟩) ⟨rfl, h⟩
  rw [ha] at hagree
  obtain ⟨⟨ahead', b'⟩, hb, hahead, hrel⟩ := Simulation.agree_some hagree
  obtain rfl : [] = ahead' := hahead
  exact ⟨a', b', by rw [outcome, ha, Option.map_some], by rw [outcome, hb, Option.map_some], hrel⟩

/-- The rules of an entry come to the end of a text with its parts. -/
theorem run_rule (e : Entry) (text : Text) :
    e.rule.run (.ofLimit (callLimit (Text.byteLen text))) ⟨.ofText text, ([] : Forest)⟩
      = some ((), ⟨[], (e.parts text).reverse⟩) := by
  have hstart : Forest.covering.rel (Ahead.ofText text).source (.ofText text) [] () :=
    Forest.covers_nil _
  obtain ⟨gs, _, hgs, -, -⟩ := exists_outcomes Forest.covering e hstart
  obtain ⟨⟨_, t⟩, hrun, rfl⟩ := Option.map_eq_some_iff.mp hgs
  rw [parts, hgs, List.reverse_reverse]
  exact hrun

/-- The parts cover the text up to the end of the file, and they are sound. -/
theorem parts_spec (e : Entry) (text : Text) :
    Green.textOf (e.parts text) = (Ahead.ofText text).source ∧ Green.SoundAll (e.parts text) := by
  have hstart : Forest.covering.rel (Ahead.ofText text).source (.ofText text) [] () :=
    Forest.covers_nil _
  obtain ⟨gs, _, hgs, -, hcovers⟩ := exists_outcomes Forest.covering e hstart
  rw [parts, hgs]
  refine ⟨?_, Green.soundAll_reverse.mpr hcovers.2⟩
  rw [← hcovers.1, Ahead.source_nil, List.append_nil]

/-- The log of an entry describes the parts. -/
theorem exists_describes (e : Entry) (text : Text) :
    ∃ es newest, Event.Describes 0 es (e.parts text).reverse newest ∧
      e.outcome (callLimit (Text.byteLen text)) text Log.empty.start.2
        = some ⟨[], ⟨(Event.blank :: es).toArray, newest.map (1 + ·), 1, false⟩⟩ := by
  have hstart : Log.Writes ⟨[.blank], 0, 1⟩ (.ofText text) Log.empty.start.2 [] :=
    ⟨[], none, .nil, Ahead.standsAt_ofTokens _ 0 none _ _, rfl⟩
  obtain ⟨log, gs, hlog, hgs, es, newest, hes, -, rfl⟩ := exists_outcomes Log.writing e hstart
  rw [parts, hgs, List.reverse_reverse]
  exact ⟨es, newest, hes, hlog⟩

/-- Beside anything else, the rules of an entry note what they note alone. -/
theorem outcome_notes (e : Entry) {text : Text} {σ : Type} [Assembly σ] {a b : σ}
    (h : e.outcome (callLimit (Text.byteLen text)) text a = some ⟨[], b⟩) :
    e.outcome (callLimit (Text.byteLen text)) text
    (a, ({} : Notes)) = some ⟨[], (b, e.notes text)⟩ := by
  obtain ⟨⟨c, noted⟩, b', hboth, hfst, rfl⟩ :=
    e.exists_outcomes (.ofFst σ Notes) (c := ()) (a := (a, {})) rfl
  obtain ⟨⟨c', noted'⟩, n, hboth', hsnd, rfl⟩ :=
    e.exists_outcomes (.ofSnd σ Notes) (c := ()) (a := (a, {})) rfl
  rw [hfst] at h
  cases h
  rw [hboth] at hboth'
  cases hboth'
  rw [hboth, notes, hsnd]

/-! ## The tree -/

theorem root_isNode (e : Entry) : e.root.isNode := by
  cases e <;> rfl

/-- The end of the file stands behind the parts and the trivia before it. -/
theorem byteLen_parts (e : Entry) (text : Text) :
    Green.byteLenOf (e.parts text) + (endOfFile text).byteLen = Text.byteLen text := by
  rw [← Green.byteLen_textOf, (e.parts_spec text).1, ← Token.byteLen_full, ← Text.byteLen_append,
    source_ofText]

/-- With the end of the file, the events describe a node around the parts. -/
theorem exists_events (e : Entry) (text : Text) :
    ∃ es newest notes, e.events (callLimit (Text.byteLen text)) text
        = .ok (⟨(.start e.root none :: es).toArray, newest, 0, false⟩, notes) ∧
      notes.overrides = (e.notes text).overrides ∧
      Event.Describes 0 (.start e.root none :: es)
        [.node e.root (e.parts text ++ [.token (endOfFile text)])] (some 0) := by
  obtain ⟨es, newest, hes, hlog⟩ := e.exists_describes text
  obtain ⟨leading, heof⟩ := exists_endOfFile_eq text
  have hlen := e.byteLen_parts text
  have hpos : 0 + Green.byteLenOf (e.parts text).reverse + (endOfFile text).leading.byteLen
      = Text.byteLen text := by
    rw [← hlen, Green.byteLenOf_reverse, heof]
    simp [Token.byteLen, Trivia.byteLen]
  have hwithin := hes.token (t := endOfFile text)
  rw [hpos] at hwithin
  have hnode := Event.Describes.node .nil hwithin (Kind.ne_tombstone_of_isNode e.root_isNode)
  refine ⟨es ++ [.token (endOfFile text) (Text.byteLen text)] ++ [.finish], some 0,
    Assembly.token (endOfFile text) (Text.byteLen text) (e.notes text), ?_, rfl, ?_⟩
  · have hclose := @Log.complete_eq [] (es ++ [.token (endOfFile text) (Text.byteLen text)]) none
      none e.root .tombstone none 0 false
    have htoken : (Assembly.token (endOfFile text) (Text.byteLen text)
        ⟨(.blank :: es).toArray, newest.map (1 + ·), 1, false⟩ : Log)
          = ⟨(.blank :: (es ++ [.token (endOfFile text) (Text.byteLen text)])).toArray, none, 1,
            false⟩ := by simp [Assembly.token]
    simp only [events, e.outcome_notes hlog]
    rw [if_pos List.isEmpty_nil]
    show Except.ok (Log.complete _ _ (Assembly.token _ _ (_ : Log)), _) = _
    rw [htoken]
    exact congrArg (fun log => Except.ok (log, _)) hclose
  · simpa using hnode

/-- The tree of a text, its parts and the end of the file, and what was noted beside it. -/
theorem build_eq (e : Entry) (text : Text) :
    e.build text = .ok (.node e.root (e.parts text ++ [.token (endOfFile text)]),
      (e.notes text).overrides) := by
  obtain ⟨es, newest, notes, hevents, hnotes, hes⟩ := e.exists_events text
  have hall : Green.textOf (e.parts text ++ [.token (endOfFile text)]) = text := by
    rw [Green.textOf_append, (e.parts_spec text).1]
    exact (congrArg _ (List.append_nil _)).trans (source_ofText text)
  have hbuild := hes.adds_and_addsInto.1 (Builder.new text) [] [] rfl
    (by simpa [Green.textOf, Builder.new] using hall.symm)
  rw [List.append_nil] at hbuild
  have hassemble : assemble ⟨(.start e.root none :: es).toArray, newest, 0, false⟩ text
      = .ok (.node e.root (e.parts text ++ [.token (endOfFile text)])) := by
    rw [assemble, if_neg Bool.false_ne_true, if_neg (by simp), hbuild, Event.build]
    rfl
  rw [build, hevents, ← hnotes]
  change (assemble _ text >>= fun tree => pure (tree, notes.overrides)) = _
  rw [hassemble]
  rfl

theorem tree_eq (e : Entry) (text : Text) :
    e.tree text = .node e.root (e.parts text ++ [.token (endOfFile text)]) := by
  rw [tree, parsed, build_eq]

theorem overrides_eq_notes (e : Entry) (text : Text) :
    e.overrides text = (e.notes text).overrides := by
  rw [overrides, parsed, build_eq]

theorem build_eq_ok (e : Entry) (text : Text) :
    e.build text = .ok (e.tree text, e.overrides text) := by
  rw [build_eq, tree_eq, overrides_eq_notes]

end Entry

@[simp] theorem Parse.tree_ofText (e : Entry) (text : Text) :
    (Parse.ofText e text).tree = e.tree text :=
  rfl

/-! ## Places in the tree -/

namespace Node

/-- The leaves of some parts and others behind them come one after the other. -/
theorem leavesFrom_append (n : Node) (index offset : Nat) (gs hs : List Green) :
    n.leavesFrom index offset (gs ++ hs) = n.leavesFrom index offset gs
      ++ n.leavesFrom (index + gs.length) (offset + Green.byteLenOf gs) hs := by
  induction gs generalizing index offset with
  | nil => simp [leavesFrom, Green.byteLenOf]
  | cons g gs ih =>
    simp only [List.cons_append, leavesFrom, ih, List.append_assoc, List.length_cons,
      Green.byteLenOf, Nat.add_assoc, Nat.add_comm 1]

/-- The nodes of some parts and others behind them come one after the other. -/
theorem nodesFrom_append (n : Node) (index offset : Nat) (gs hs : List Green) :
    n.nodesFrom index offset (gs ++ hs) = n.nodesFrom index offset gs
      ++ n.nodesFrom (index + gs.length) (offset + Green.byteLenOf gs) hs := by
  induction gs generalizing index offset with
  | nil => simp [nodesFrom, Green.byteLenOf]
  | cons g gs ih =>
    simp only [List.cons_append, nodesFrom, ih, List.append_assoc, List.length_cons,
      Green.byteLenOf, Nat.add_assoc, Nat.add_comm 1]

mutual

/-- The nodes of a sound tree have kinds of nodes. -/
theorem isNode_of_mem_nodesIn {n d : Node} {index offset : Nat} :
    {g : Green} → g.Sound → d ∈ n.nodesIn index offset g → d.kind.isNode
  | .node _ _, hg, hd => by
    rw [nodesIn, List.mem_cons] at hd
    rcases hd with rfl | hd
    · exact hg.1
    · exact isNode_of_mem_nodesFrom hg.2.2.2 hd
  | .leaf _, _, hd => absurd hd List.not_mem_nil

/-- Every node below parts that are sound has a kind of nodes. -/
theorem isNode_of_mem_nodesFrom {n d : Node} {index offset : Nat} :
    {gs : List Green} → Green.SoundAll gs → d ∈ n.nodesFrom index offset gs → d.kind.isNode
  | [], _, hd => absurd hd List.not_mem_nil
  | _ :: _, hgs, hd =>
    (List.mem_append.mp hd).elim (isNode_of_mem_nodesIn hgs.1) (isNode_of_mem_nodesFrom hgs.2)

end

mutual

/-- The leaves of a sound tree have kinds of tokens that texts consist of. -/
theorem isSolid_of_mem_leavesIn {n : Node} {l : Leaf} {index offset : Nat} :
    {g : Green} → g.Sound → l ∈ n.leavesIn index offset g → l.kind.isSolid
  | .node _ _, hg, hl => isSolid_of_mem_leavesFrom hg.2.2.2 hl
  | .leaf _, hg, hl => by
    rw [leavesIn, List.mem_singleton] at hl
    rw [hl]
    exact hg.1

/-- Every leaf below parts that are sound has a kind of tokens. -/
theorem isSolid_of_mem_leavesFrom {n : Node} {l : Leaf} {index offset : Nat} :
    {gs : List Green} → Green.SoundAll gs → l ∈ n.leavesFrom index offset gs → l.kind.isSolid
  | [], _, hl => absurd hl List.not_mem_nil
  | _ :: _, hgs, hl =>
    (List.mem_append.mp hl).elim (isSolid_of_mem_leavesIn hgs.1) (isSolid_of_mem_leavesFrom hgs.2)

end

end Node

namespace Entry

/-- The tree of a text has this text. -/
theorem text_tree (e : Entry) (text : Text) : (e.tree text).text = text := by
  rw [e.tree_eq, Green.text_node, Green.textOf_append, (e.parts_spec text).1]
  exact (congrArg _ (List.append_nil _)).trans (source_ofText text)

/-- The leaves of the root: those of its parts, and the end of the file. -/
theorem leaves_tree (e : Entry) (text : Text) :
    let root := Node.ofGreen (e.tree text)
    ∃ offset, root.leaves = root.leavesFrom 0 0 (e.parts text)
      ++ [⟨root, (e.parts text).length, offset, .present (endOfFile text).outline⟩] := by
  rw [e.tree_eq]
  refine ⟨0 + Green.byteLenOf (e.parts text), ?_⟩
  refine (Node.leavesFrom_append _ 0 0 (e.parts text) _).trans ?_
  rw [Nat.zero_add]
  rfl

/-- The last token of a text is the end of the file. -/
theorem kind_endOfFile (text : Text) : (endOfFile text).kind = .endOfFile := by
  obtain ⟨leading, h⟩ := exists_endOfFile_eq text
  rw [h]

/-- The nodes of the tree have kinds of nodes. -/
theorem isNode_of_mem_descendants {e : Entry} {text : Text} {n : Node}
    (hn : n ∈ (Node.ofGreen (e.tree text)).descendants) : n.kind.isNode := by
  rw [e.tree_eq] at hn
  rcases List.mem_cons.mp hn with rfl | hn
  · exact e.root_isNode
  · rcases List.mem_append.mp (Node.nodesFrom_append _ 0 0 (e.parts text) _ ▸ hn) with hn | hn
    · exact Node.isNode_of_mem_nodesFrom (e.parts_spec text).2 hn
    · exact absurd hn List.not_mem_nil

end Entry

/-- **Parsing is total and loses nothing.** Every text has a tree from every entry, without a fault
on the way, and beside it what was noted while it was read. The tree has the text of its source, all
of it; its inner nodes have kinds of nodes and its leaves kinds of tokens; and the end of the file
is its last leaf, right below the root, and no other. -/
theorem Entry.lossless (e : Entry) (text : Text) :
    e.build text = .ok (e.tree text, e.overrides text) ∧
    let root := Node.ofGreen (e.tree text)
    root.kind = e.root ∧ root.text = text ∧ root.range = ⟨0, Text.byteLen text⟩ ∧
      (∀ n ∈ root.descendants, n.kind.isNode ∧ n.kind ≠ .tombstone) ∧
      (∀ l ∈ root.leaves, l.kind.isToken) ∧
      ∃ front last, root.leaves = front ++ [last] ∧ last.kind = .endOfFile ∧ last.isPresent ∧
        last.parent = root ∧ last.index + 1 = root.children.length ∧
        ∀ l ∈ front, l.kind ≠ .endOfFile := by
  have hroot : Node.ofGreen (e.tree text)
      = ⟨e.root, e.parts text ++ [.token (endOfFile text)], 0, []⟩ := by
    rw [e.tree_eq]
    rfl
  have hgreen : (Node.ofGreen (e.tree text)).green = e.tree text := by
    rw [hroot, e.tree_eq]
    rfl
  obtain ⟨offset, hleaves⟩ := e.leaves_tree text
  have hfront : ∀ l ∈ (Node.ofGreen (e.tree text)).leavesFrom 0 0 (e.parts text), l.kind.isSolid :=
    fun l hl => Node.isSolid_of_mem_leavesFrom (e.parts_spec text).2 hl
  refine ⟨e.build_eq_ok text, by rw [hroot], ?_, ?_, ?_, ?_, ?_⟩
  · rw [Node.text, hgreen, e.text_tree]
  · rw [Node.range, hgreen, ← Green.byteLen_text, e.text_tree, hroot]
    rw [Span.ofLen, Nat.zero_add]
  · intro n hn
    have hnode := isNode_of_mem_descendants hn
    exact ⟨hnode, Kind.ne_tombstone_of_isNode hnode⟩
  · intro l hl
    rw [hleaves] at hl
    rcases List.mem_append.mp hl with hl | hl
    · exact Kind.isToken_of_isSolid (hfront l hl)
    · rw [List.mem_singleton.mp hl]
      show (endOfFile text).kind.isToken
      rw [kind_endOfFile]
      rfl
  · refine ⟨_, _, hleaves, kind_endOfFile text, rfl, rfl, ?_, ?_⟩
    · rw [hroot, List.length_append]
      rfl
    · exact fun l hl => Kind.ne_endOfFile_of_isSolid (hfront l hl)

end SwiftTree
