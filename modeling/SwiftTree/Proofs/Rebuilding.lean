import Mathlib.Algebra.GroupWithZero.Nat
import SwiftTree.Proofs.Events

/-!
# Trees as calls to a builder

A tree can be written as the calls that build it: walking it in order opens and closes its nodes and
takes its tokens at their positions (`Green.calls`). The calls leave out the characters of the
tokens, which are those of the text that the builder is over.

Replaying the walk of a tree over its own text gives the tree back (`Builder.replay_calls`). The
other way round, a builder has not forgotten anything: at every moment, the calls made so far can be
read off its finished trees and its open nodes, and the trees cover the text before its position
(`Builder.Recorded`). Each call preserves this, so it holds behind every list of calls that goes
through, and what `Builder.finish` answers depends on the calls alone.
-/

namespace SwiftTree

namespace Text

/-- The two parts of a cut make up the text, and the cut is where it was asked for. -/
theorem eq_of_cutBytes {n : Nat} {cs a b : Text} (h : cutBytes n cs = some (a, b)) :
    a ++ b = cs ∧ byteLen a = n := by
  fun_induction cutBytes n cs generalizing a b with
  | case1 cs =>
    cases h
    exact ⟨rfl, rfl⟩
  | case2 => cases h
  | case3 n c cs _ hle ih =>
    obtain ⟨⟨a', b'⟩, hcut, heq⟩ := Option.map_eq_some_iff.mp h
    cases heq
    obtain ⟨happend, hlen⟩ := ih hcut
    refine ⟨by rw [List.cons_append, happend], ?_⟩
    rw [byteLen_cons, hlen]
    omega
  | case4 => cases h

theorem byteLen_eq_zero {cs : Text} : byteLen cs = 0 ↔ cs = [] := by
  cases cs with
  | nil => exact iff_of_true rfl rfl
  | cons c cs =>
    have hpos : 0 < byteLen (c :: cs) := byteLen_pos (List.cons_ne_nil c cs)
    exact iff_of_false (Nat.ne_of_gt hpos) (List.cons_ne_nil c cs)

end Text

namespace Builder

/-! ## Calls -/

/-- A call that adds to a tree under construction. -/
inductive Call where
  /-- opens a node -/
  | start (kind : Kind)
  /-- takes a token whose spelling starts at a byte position and is so many bytes long, with the
  trivia around it -/
  | token (leading : Trivia.Outline) (kind : Kind) (start len : Nat) (trailing : Trivia.Outline)
  /-- adds a missing token -/
  | missing (kind : Kind) (spelling : Text)
  /-- closes the node that was opened last -/
  | finish
deriving DecidableEq, Repr

namespace Call

/-- Whether a call opens a node. -/
def isStart : Call → Bool
  | start _ => true
  | _ => false

/-- Whether a call closes a node. -/
def isFinish : Call → Bool
  | finish => true
  | _ => false

/-- How many bytes of source a call takes. -/
def byteLen : Call → Nat
  | token leading _ _ len trailing => leading.byteLen + len + trailing.byteLen
  | _ => 0

end Call

/-- How many nodes a list of calls opens. -/
def starts (calls : List Call) : Nat := calls.countP Call.isStart

/-- How many nodes a list of calls closes. -/
def finishes (calls : List Call) : Nat := calls.countP Call.isFinish

/-- How many bytes of source a list of calls takes. -/
def size (calls : List Call) : Nat := (calls.map Call.byteLen).sum

theorem starts_append (cs ds : List Call) : starts (cs ++ ds) = starts cs + starts ds :=
  List.countP_append

theorem finishes_append (cs ds : List Call) : finishes (cs ++ ds) = finishes cs + finishes ds :=
  List.countP_append

theorem size_append (cs ds : List Call) : size (cs ++ ds) = size cs + size ds := by
  rw [size, List.map_append, List.sum_append]
  rfl

/-- What a call does. -/
def call (b : Builder) : Call → Except Fault Builder
  | .start kind => .ok (b.startNode kind)
  | .token leading kind start len trailing => b.token leading kind start (start + len) trailing
  | .missing kind spelling => .ok (b.missingToken kind spelling)
  | .finish => b.finishNode

/-- Makes calls one after the other, up to the first that fails. -/
def replay (b : Builder) (calls : List Call) : Except Fault Builder := calls.foldlM call b

@[simp] theorem replay_cons (b : Builder) (c : Call) (cs : List Call) :
    b.replay (c :: cs) = (b.call c).bind fun b => b.replay cs := List.foldlM_cons

theorem replay_append (b : Builder) (cs ds : List Call) :
    b.replay (cs ++ ds) = (b.replay cs).bind fun b => b.replay ds := List.foldlM_append

/-- The tree that calls build over a text. -/
def run (text : Text) (calls : List Call) : Except Fault Green :=
  ((new text).replay calls).bind finish

end Builder

namespace Green

open Builder (Call starts finishes size)

/-! ## Walks -/

/-- The call that adds a leaf which stands at a position. -/
def Leaf.call (offset : Nat) : Leaf → Call
  | present t =>
    .token t.leading t.kind (offset + t.leading.byteLen)
      (t.byteLen - t.trailing.byteLen - t.leading.byteLen) t.trailing
  | missing kind spelling => .missing kind spelling

mutual

/-- The calls of the walk through a tree that stands at a position. -/
def calls (offset : Nat) : Green → List Call
  | node kind cs => .start kind :: (callsOf offset cs ++ [.finish])
  | leaf l => [l.call offset]

/-- The calls of the walk through several trees. -/
def callsOf (offset : Nat) : List Green → List Call
  | [] => []
  | g :: gs => calls offset g ++ callsOf (offset + g.byteLen) gs

end

/-- The walk through trees that stand behind each other: the second part starts where the text of
the first part ends. -/
theorem callsOf_append (offset : Nat) (gs hs : List Green) :
    callsOf offset (gs ++ hs) = callsOf offset gs ++ callsOf (offset + byteLenOf gs) hs := by
  induction gs generalizing offset with
  | nil => rfl
  | cons g gs ih =>
    rw [List.cons_append, callsOf, callsOf, ih, byteLenOf, List.append_assoc, Nat.add_assoc]

theorem callsOf_singleton (offset : Nat) (g : Green) : callsOf offset [g] = calls offset g :=
  List.append_nil _

/-- Whether a leaf has room for its trivia. -/
def Leaf.HasRoom : Leaf → Prop
  | present t => t.hasRoom
  | missing _ _ => True

instance : DecidablePred Leaf.HasRoom
  | .present t => inferInstanceAs (Decidable (t.hasRoom = true))
  | .missing _ _ => isTrue trivial

/-- Whether every token of a tree has room for its trivia, as the tokens that can be made have. -/
def HasRoom (g : Green) : Prop := ∀ l ∈ g.leaves, l.HasRoom

instance : DecidablePred HasRoom := fun g => inferInstanceAs (Decidable (∀ l ∈ g.leaves, l.HasRoom))

/-- Whether every token of several trees has room for its trivia. -/
def AllHaveRoom (gs : List Green) : Prop := ∀ g ∈ gs, g.HasRoom

/-- A property holds of all leaves of several trees if it holds of all leaves of each of them. -/
theorem forall_mem_leavesOf {gs : List Green} {p : Leaf → Prop} :
    (∀ l ∈ leavesOf gs, p l) ↔ ∀ g ∈ gs, ∀ l ∈ g.leaves, p l := by
  induction gs with
  | nil => simp [leavesOf]
  | cons g gs ih => rw [leavesOf, List.forall_mem_append, ih, List.forall_mem_cons]

theorem hasRoom_node {kind : Kind} {cs : List Green} : (node kind cs).HasRoom ↔ AllHaveRoom cs := by
  rw [HasRoom, leaves]
  exact forall_mem_leavesOf

theorem hasRoom_leaf {l : Leaf} : (leaf l).HasRoom ↔ l.HasRoom := by
  rw [HasRoom, leaves]
  exact List.forall_mem_singleton

theorem allHaveRoom_cons {g : Green} {gs : List Green} :
    AllHaveRoom (g :: gs) ↔ g.HasRoom ∧ AllHaveRoom gs := List.forall_mem_cons

theorem allHaveRoom_reverse {gs : List Green} : AllHaveRoom gs.reverse ↔ AllHaveRoom gs := by
  simp only [AllHaveRoom, List.mem_reverse]

/-! ## What a walk adds up to -/

mutual

/-- A walk closes the nodes that it opens. -/
theorem starts_calls (offset : Nat) :
    (g : Green) → starts (g.calls offset) = finishes (g.calls offset)
  | .node kind cs => by
    have hopen : starts [.start kind] = 1 := rfl
    have hclose : finishes [.finish] = 1 := rfl
    rw [calls, ← List.singleton_append, Builder.starts_append, Builder.starts_append,
      Builder.finishes_append, Builder.finishes_append, starts_callsOf offset cs, hopen, hclose,
      Nat.add_comm]
    exact (Nat.zero_add _).symm
  | .leaf (.present _) => rfl
  | .leaf (.missing _ _) => rfl

/-- The walk through several trees closes as many nodes as it opens, since each of them does
(`starts_calls`). -/
theorem starts_callsOf (offset : Nat) : (gs : List Green) →
    starts (callsOf offset gs) = finishes (callsOf offset gs)
  | [] => rfl
  | g :: gs => by
    rw [callsOf, Builder.starts_append, Builder.finishes_append, starts_calls, starts_callsOf]

end

/-- The call for a leaf takes as many bytes as the leaf has, if its token has room for its
trivia. -/
theorem Leaf.byteLen_call {l : Leaf} (offset : Nat) (h : l.HasRoom) :
    (l.call offset).byteLen = l.byteLen := by
  cases l with
  | present t =>
    have hroom : t.leading.byteLen + t.trailing.byteLen ≤ t.byteLen := of_decide_eq_true h
    simp only [call, Call.byteLen, byteLen]
    omega
  | missing => rfl

mutual

/-- A walk takes as many bytes as the tree has. -/
theorem size_calls (offset : Nat) : (g : Green) → g.HasRoom → size (g.calls offset) = g.byteLen
  | .node kind cs, h => by
    have hcs := size_callsOf offset cs (hasRoom_node.mp h)
    rw [size] at hcs ⊢
    simp [calls, Call.byteLen, byteLen, hcs]
  | .leaf l, h => by
    rw [calls, byteLen, ← l.byteLen_call offset (hasRoom_leaf.mp h)]
    exact List.sum_singleton

/-- The walk through several trees takes as many bytes as they have together. -/
theorem size_callsOf (offset : Nat) : (gs : List Green) → AllHaveRoom gs →
    size (callsOf offset gs) = byteLenOf gs
  | [], _ => rfl
  | g :: gs, h => by
    obtain ⟨hg, hgs⟩ := allHaveRoom_cons.mp h
    rw [callsOf, Builder.size_append, size_calls offset g hg, size_callsOf _ gs hgs, byteLenOf]

end

end Green

namespace Builder

variable {b b' : Builder} {text : Text} {done : List Call} {pending : List (Kind × List Green)}

/-! ## Replaying a walk -/

/-- A leaf is added where its text begins. -/
theorem call_leaf {l : Green.Leaf} {rest : Text} (hroom : l.HasRoom)
    (hrest : b.rest = l.source ++ rest) :
    b.call (l.call b.pos) = .ok (b.add (b.pos + l.byteLen) rest [.leaf l]) := by
  cases l with
  | present t =>
    have hle : t.leading.byteLen + t.trailing.byteLen ≤ t.byteLen := of_decide_eq_true hroom
    have hnext : b.pos + t.leading.byteLen + (t.byteLen - t.trailing.byteLen - t.leading.byteLen)
        + t.trailing.byteLen = b.pos + t.byteLen := by omega
    have hcut : Text.cutBytes (b.pos + t.byteLen - b.pos) b.rest = some (t.full, rest) := by
      rw [Nat.add_sub_cancel_left, hrest]
      exact Text.cutBytes_append t.full rest
    have hleaf : leaf ⟨t.leading, t.kind, t.full, t.trailing⟩ = .ok (.leaf (.present t)) :=
      if_pos hroom
    simp only [Green.Leaf.call, call, token, ne_eq, not_true_eq_false, if_false, hnext, hcut, hleaf]
    rfl
  | missing kind spelling =>
    cases b
    cases hrest
    rfl

mutual

/-- Replaying the walk of a tree where its text begins adds the tree. The induction goes along with
the tree: the calls of a node are those of its parts, between its start and its end. -/
theorem replay_calls (b : Builder) (rest : Text) :
    (g : Green) → g.HasRoom → b.rest = g.text ++ rest →
    b.replay (g.calls b.pos) = .ok (b.add (b.pos + g.byteLen) rest [g])
  | .node kind cs, hroom, hrest => by
    have hcs := replay_callsOf (b.startNode kind) rest cs (Green.hasRoom_node.mp hroom) hrest
    rw [Green.calls, replay_cons]
    show (b.startNode kind).replay (Green.callsOf (b.startNode kind).pos cs ++ [.finish]) = _
    rw [replay_append, hcs]
    show (((b.startNode kind).add _ rest cs.reverse).finishNode).bind .ok = _
    rw [finishNode_add, List.reverse_reverse, Green.byteLen]
    rfl
  | .leaf l, hroom, hrest => by
    rw [Green.calls, replay_cons, call_leaf (Green.hasRoom_leaf.mp hroom) hrest, Green.byteLen]
    rfl

/-- Replaying the walk through several trees adds them all, the newest first: each starts where the
one before it ends. -/
theorem replay_callsOf (b : Builder) (rest : Text) : (gs : List Green) → Green.AllHaveRoom gs →
    b.rest = Green.textOf gs ++ rest →
    b.replay (Green.callsOf b.pos gs) = .ok (b.add (b.pos + Green.byteLenOf gs) rest gs.reverse)
  | [], _, hrest => by
    cases b
    cases hrest
    rfl
  | g :: gs, hroom, hrest => by
    obtain ⟨hg, hgs⟩ := Green.allHaveRoom_cons.mp hroom
    rw [Green.textOf, List.append_assoc] at hrest
    rw [Green.callsOf, replay_append, replay_calls b _ g hg hrest]
    refine (replay_callsOf (b.add (b.pos + g.byteLen) _ [g]) rest gs hgs rfl).trans ?_
    rw [add_add, List.reverse_cons, Green.byteLenOf, ← Nat.add_assoc]
    rfl

end

/-! ## What a builder remembers -/

/-- The source that stands before the innermost open node. -/
def outerText : List (Kind × List Green) → Text
  | [] => []
  | (_, before) :: outer => outerText outer ++ Green.textOf before.reverse

/-- The calls that open the nodes which are open, and that build what stands before each of them. -/
def outerCalls : List (Kind × List Green) → List Call
  | [] => []
  | (kind, before) :: outer =>
    outerCalls outer ++ Green.callsOf (Text.byteLen (outerText outer)) before.reverse ++
      [.start kind]

/-- The source that the trees so far cover. -/
def taken (b : Builder) : Text := outerText b.pending ++ Green.textOf b.built.reverse

/-- The calls that lead to a builder. -/
def history (b : Builder) : List Call :=
  outerCalls b.pending ++ Green.callsOf (Text.byteLen (outerText b.pending)) b.built.reverse

/-- A builder over a text after calls. -/
structure Recorded (text : Text) (done : List Call) (b : Builder) : Prop where
  /-- the calls can be read off what was built -/
  history_eq : b.history = done
  /-- nothing of the text is lost -/
  taken_append : b.taken ++ b.rest = text
  /-- the position is behind the trees so far -/
  pos_eq : b.pos = Text.byteLen b.taken
  /-- finished trees have room for their trivia -/
  built_room : Green.AllHaveRoom b.built
  /-- so have the trees before the open nodes -/
  outer_room : ∀ frame ∈ b.pending, Green.AllHaveRoom frame.2

theorem recorded_new (text : Text) : Recorded text [] (new text) :=
  ⟨rfl, rfl, rfl, (fun _ h => nomatch h), fun _ h => nomatch h⟩

namespace Recorded

/-- Opening a node is recorded: what stood before it becomes the frame around it. -/
theorem startNode (h : Recorded text done b) (kind : Kind) :
    Recorded text (done ++ [.start kind]) (b.startNode kind) where
  history_eq := by
    rw [← h.history_eq]
    exact List.append_nil _
  taken_append := by
    rw [← h.taken_append]
    exact congrArg (· ++ b.rest) (List.append_nil b.taken)
  pos_eq := h.pos_eq.trans (congrArg Text.byteLen (List.append_nil b.taken).symm)
  built_room := (fun _ h => nomatch h)
  outer_room := List.forall_mem_cons.mpr ⟨h.built_room, h.outer_room⟩

/-- Trees are added behind what was built before. -/
theorem add (h : Recorded text done b) {g : Green} (rest : Text) (hroom : g.HasRoom)
    (hrest : g.text ++ rest = b.rest) :
    Recorded text (done ++ g.calls b.pos) (b.add (b.pos + g.byteLen) rest [g]) := by
  have htaken : (b.add (b.pos + g.byteLen) rest [g]).taken = b.taken ++ g.text := by
    simp [taken, Builder.add, Green.textOf]
  have hpos : b.pos = Text.byteLen (outerText b.pending) + Green.byteLenOf b.built.reverse := by
    rw [h.pos_eq, taken, Text.byteLen_append, Green.byteLen_textOf]
  constructor
  case history_eq =>
    rw [← h.history_eq, history, history]
    simp only [Builder.add, List.cons_append, List.nil_append, List.reverse_cons]
    rw [Green.callsOf_append, Green.callsOf_singleton, ← hpos, List.append_assoc]
  case taken_append => rw [htaken, List.append_assoc, ← h.taken_append, ← hrest]; rfl
  case pos_eq => rw [htaken, Text.byteLen_append, ← h.pos_eq, Green.byteLen_text]; rfl
  case built_room => exact Green.allHaveRoom_cons.mpr ⟨hroom, h.built_room⟩
  case outer_room => exact h.outer_room

/-- Closing a node is recorded: what was built since it was opened becomes one tree in the frame
around it. It only goes through if a node is open. -/
theorem finishNode (h : Recorded text done b) (hcall : b.finishNode = .ok b') :
    Recorded text (done ++ [.finish]) b' := by
  obtain ⟨pos, rest, pending, built⟩ := b
  cases pending with
  | nil => cases hcall
  | cons frame outer =>
    obtain ⟨kind, before⟩ := frame
    cases hcall
    have htaken : taken ⟨pos, rest, outer, .node kind built.reverse :: before⟩
        = taken ⟨pos, rest, (kind, before) :: outer, built⟩ := by
      simp [taken, outerText, Green.textOf]
    constructor
    case history_eq =>
      rw [← h.history_eq, history, history, outerCalls, outerText, List.reverse_cons,
        Green.callsOf_append, Green.callsOf_singleton, Green.calls, Text.byteLen_append,
        Green.byteLen_textOf]
      simp only [List.append_assoc, List.cons_append, List.nil_append]
    case taken_append => rw [htaken]; exact h.taken_append
    case pos_eq => rw [htaken]; exact h.pos_eq
    case built_room =>
      have hbuilt := Green.allHaveRoom_reverse.mpr h.built_room
      exact Green.allHaveRoom_cons.mpr
        ⟨Green.hasRoom_node.mpr hbuilt, h.outer_room _ List.mem_cons_self⟩
    case outer_room => exact fun f hf => h.outer_room f (List.mem_cons_of_mem _ hf)

/-- Taking a token is recorded, and it takes the bytes that the call gives. The call only goes
through if these are cut between characters. -/
theorem token (h : Recorded text done b) {leading trailing : Trivia.Outline} {kind : Kind}
    {start len : Nat} (hcall : b.token leading kind start (start + len) trailing = .ok b') :
    Recorded text (done ++ [.token leading kind start len trailing]) b' := by
  simp only [Builder.token] at hcall
  split at hcall
  · cases hcall
  · rename_i hstart
    have hstart : b.pos + leading.byteLen = start := Decidable.not_not.mp hstart
    split at hcall
    · cases hcall
    · rename_i full rest hcut
      obtain ⟨happend, hlen⟩ := Text.eq_of_cutBytes hcut
      obtain ⟨t, ht⟩ : ∃ t : Token.Outline, t = ⟨leading, kind, full, trailing⟩ := ⟨_, rfl⟩
      -- what is cut off has the length that the call gives
      have hbytes : t.byteLen = leading.byteLen + len + trailing.byteLen := by
        rw [ht, Token.Outline.byteLen, hlen]
        omega
      have hroom : t.hasRoom = true := by
        refine decide_eq_true ?_
        rw [hbytes, ht]
        show leading.byteLen + trailing.byteLen ≤ _
        omega
      have hleaf : leaf ⟨leading, kind, full, trailing⟩ = .ok (.leaf (.present t)) := by
        rw [← ht]
        exact if_pos hroom
      rw [hleaf] at hcall
      cases hcall
      have hrecord := h.add (g := .leaf (.present t)) rest
        (Green.hasRoom_leaf.mpr hroom) (by rw [← happend, ht]; rfl)
      have hcalls : (Green.leaf (.present t)).calls b.pos =
        [.token leading kind start len trailing] := by
        have hspelling : t.byteLen - trailing.byteLen - leading.byteLen = len := by omega
        rw [Green.calls, Green.Leaf.call, ← hstart, ← hspelling, ht]
      have hpos : start + len + trailing.byteLen = b.pos + (Green.leaf (.present t)).byteLen := by
        rw [Green.byteLen, Green.Leaf.byteLen, hbytes]
        omega
      rw [hcalls] at hrecord
      rw [hpos]
      exact hrecord

/-- Every call that goes through is recorded. -/
theorem call (h : Recorded text done b) {c : Call} (hcall : b.call c = .ok b') :
    Recorded text (done ++ [c]) b' := by
  cases c with
  | start kind =>
    cases hcall
    exact h.startNode kind
  | token leading kind start len trailing => exact h.token hcall
  | missing kind spelling =>
    cases hcall
    exact h.add (g := .missing kind spelling) b.rest (Green.hasRoom_leaf.mpr trivial) rfl
  | finish => exact h.finishNode hcall

/-- So is a list of calls. -/
theorem replay (h : Recorded text done b) {calls : List Call} (hcalls : b.replay calls = .ok b') :
    Recorded text (done ++ calls) b' := by
  induction calls generalizing b done with
  | nil =>
    cases hcalls
    rwa [List.append_nil]
  | cons c cs ih =>
    rw [replay_cons] at hcalls
    cases hc : b.call c with
    | error fault =>
      rw [hc] at hcalls
      cases hcalls
    | ok b₁ =>
      rw [hc] at hcalls
      rw [← List.singleton_append, ← List.append_assoc]
      exact ih (h.call hc) hcalls

end Recorded

/-- In what is remembered of open nodes, one call more opens than closes for each of them. -/
theorem starts_outerCalls (pending : List (Kind × List Green)) :
    starts (outerCalls pending) = finishes (outerCalls pending) + pending.length := by
  induction pending with
  | nil => rfl
  | cons frame outer ih =>
    have hstart : starts [.start frame.1] = 1 := rfl
    have hfinish : finishes [.start frame.1] = 0 := rfl
    rw [outerCalls, starts_append, starts_append, finishes_append, finishes_append, hstart,
      hfinish, ih, Green.starts_callsOf, List.length_cons]
    omega

/-- The calls that are remembered for the open nodes have taken the text that stands before the
innermost one. -/
theorem size_outerCalls (h : ∀ frame ∈ pending, Green.AllHaveRoom frame.2) :
    size (outerCalls pending) = Text.byteLen (outerText pending) := by
  induction pending with
  | nil => rfl
  | cons frame outer ih =>
    obtain ⟨hbefore, houter⟩ := List.forall_mem_cons.mp h
    rw [outerCalls, size_append, size_append, ih houter, outerText, Text.byteLen_append,
      Green.byteLen_textOf, Green.size_callsOf _ _ (Green.allHaveRoom_reverse.mpr hbefore)]
    rfl

namespace Recorded

/-- The nodes that were opened and not closed are open. -/
theorem starts_eq (h : Recorded text done b) : starts done = finishes done + b.pending.length := by
  rw [← h.history_eq, history, starts_append, finishes_append, starts_outerCalls,
    Green.starts_callsOf]
  omega

/-- The text is what the calls took and what is left. -/
theorem byteLen_eq (h : Recorded text done b) :
    Text.byteLen text = size done + Text.byteLen b.rest := by
  rw [← h.history_eq, ← h.taken_append, history, taken, size_append, size_outerCalls h.outer_room,
    Green.size_callsOf _ _ (Green.allHaveRoom_reverse.mpr h.built_room), Text.byteLen_append,
    Text.byteLen_append, Green.byteLen_textOf]

/-- No node is open just if as many were closed as were opened. -/
theorem pending_eq_nil (h : Recorded text done b) :
    b.pending = [] ↔ finishes done = starts done := by
  rw [← List.length_eq_zero_iff, h.starts_eq]
  omega

/-- No text is left just if the calls took as many bytes as there are. -/
theorem rest_eq_nil (h : Recorded text done b) : b.rest = [] ↔ size done = Text.byteLen text := by
  rw [← Text.byteLen_eq_zero, h.byteLen_eq]
  omega

end Recorded

/-! ## The answers of a finished builder -/

/-- Whether calls build several trees over a text. -/
def Builds (text : Text) (calls : List Call) (gs : List Green) : Prop :=
  Green.AllHaveRoom gs ∧ Green.textOf gs = text ∧ Green.callsOf 0 gs = calls

/-- Without open nodes and text left, the calls are the walk through what was built. -/
theorem Recorded.builds (h : Recorded text done b) (hp : b.pending = []) (hr : b.rest = []) :
    Builds text done b.built.reverse := by
  have htext := h.taken_append
  have hcalls := h.history_eq
  rw [taken, hp, hr, List.append_nil] at htext
  rw [history, hp] at hcalls
  exact ⟨Green.allHaveRoom_reverse.mpr h.built_room, htext, hcalls⟩

/-- Calls that build trees go through, and leave nothing open and no text. -/
theorem replay_of_builds {calls : List Call} {gs : List Green} (h : Builds text calls gs) :
    (new text).replay calls = .ok ⟨Text.byteLen text, [], [], gs.reverse⟩ := by
  obtain ⟨hroom, rfl, rfl⟩ := h
  have hreplay := replay_callsOf (new (Green.textOf gs)) [] gs hroom (List.append_nil _).symm
  have hlen : 0 + Green.byteLenOf gs = Text.byteLen (Green.textOf gs) := by
    rw [Green.byteLen_textOf, Nat.zero_add]
  rw [← hlen]
  simpa only [add, new, List.append_nil] using hreplay

/-- What the answer of a finished builder is. -/
theorem finish_cases (b : Builder) :
    (b.pending ≠ [] ∧ b.finish = .error .unbalanced) ∨
    (b.pending = [] ∧ b.rest ≠ [] ∧ b.finish = .error .textLeft) ∨
    (b.pending = [] ∧ b.rest = [] ∧ (∃ kind cs, b.built = [.node kind cs] ∧
      b.finish = .ok (.node kind cs))) ∨
    (b.pending = [] ∧ b.rest = [] ∧ (∀ kind cs, b.built ≠ [.node kind cs]) ∧
      b.finish = .error .notOneRoot) := by
  obtain ⟨pos, rest, pending, built⟩ := b
  cases pending with
  | cons frame outer => exact .inl ⟨by simp, rfl⟩
  | nil =>
    cases rest with
    | cons c cs => exact .inr (.inl ⟨rfl, by simp, rfl⟩)
    | nil =>
      by_cases h : ∃ kind cs, built = [.node kind cs]
      · obtain ⟨kind, cs, rfl⟩ := h
        exact .inr (.inr (.inl ⟨rfl, rfl, kind, cs, rfl, rfl⟩))
      · refine .inr (.inr (.inr ⟨rfl, rfl, fun kind cs he => h ⟨kind, cs, he⟩, ?_⟩))
        rw [finish]
        split
        · contradiction
        split
        · contradiction
        split
        · rename_i kind cs heq
          exact absurd ⟨kind, cs, heq⟩ h
        · rfl

namespace Recorded

variable (h : Recorded text done b)

include h

/-- A finished tree is a node, and the calls are its walk. -/
theorem of_finish {tree : Green} (hfinish : b.finish = .ok tree) :
    tree.isNode ∧ Builds text done [tree] := by
  rcases b.finish_cases with
    ⟨_, hf⟩ | ⟨_, _, hf⟩ | ⟨hp, hr, kind, cs, hbuilt, hf⟩ | ⟨_, _, _, hf⟩ <;>
    rw [hf] at hfinish <;> cases hfinish
  have hbuilds := h.builds hp hr
  rw [hbuilt] at hbuilds
  exact ⟨rfl, hbuilds⟩

/-- A builder is not finished while a node is open, and this is what it reports first. -/
theorem finish_unbalanced : b.finish = .error .unbalanced ↔ finishes done < starts done := by
  have hopen : finishes done < starts done ↔ b.pending ≠ [] := by
    rw [Ne, h.pending_eq_nil, h.starts_eq]
    omega
  rw [hopen]
  rcases b.finish_cases with ⟨hp, hf⟩ | ⟨hp, _, hf⟩ | ⟨hp, _, _, _, _, hf⟩ | ⟨hp, _, _, hf⟩ <;>
    simp [hp, hf]

/-- Text is left over if every node was closed and the calls took fewer bytes than there are. -/
theorem finish_textLeft : b.finish = .error .textLeft ↔
    finishes done = starts done ∧ size done < Text.byteLen text := by
  have hleft : size done < Text.byteLen text ↔ b.rest ≠ [] := by
    rw [Ne, h.rest_eq_nil, h.byteLen_eq]
    omega
  rw [hleft, ← h.pending_eq_nil]
  rcases b.finish_cases with ⟨hp, hf⟩ | ⟨hp, hr, hf⟩ | ⟨hp, hr, _, _, _, hf⟩ | ⟨hp, hr, _, hf⟩ <;>
    simp [hp, hf]
  all_goals exact hr

end Recorded

/-- What is not one node is a walk through several trees, or through a leaf, or through nothing. -/
theorem finish_notOneRoot {calls : List Call} (h : (new text).replay calls = .ok b) :
    b.finish = .error .notOneRoot ↔
      ∃ gs, Builds text calls gs ∧ ∀ kind cs, gs ≠ [.node kind cs] := by
  constructor
  · intro hf
    have hrecord := (recorded_new text).replay h
    rcases b.finish_cases with ⟨_, hf'⟩ | ⟨_, _, hf'⟩ | ⟨_, _, _, _, _, hf'⟩ | ⟨hp, hr, hroot, _⟩
    case inr.inr.inr =>
      refine ⟨b.built.reverse, hrecord.builds hp hr, fun kind cs heq => hroot kind cs ?_⟩
      rw [← List.reverse_reverse b.built, heq]
      rfl
    all_goals
      rw [hf'] at hf
      cases hf
  · rintro ⟨gs, hbuilds, hroot⟩
    rw [replay_of_builds hbuilds] at h
    cases h
    rcases finish_cases ⟨Text.byteLen text, [], [], gs.reverse⟩ with
      ⟨hp, _⟩ | ⟨_, hr, _⟩ | ⟨_, _, kind, cs, hbuilt, _⟩ | ⟨_, _, _, hf⟩
    · exact absurd rfl hp
    · exact absurd rfl hr
    · refine absurd ?_ (hroot kind cs)
      rw [← List.reverse_reverse gs, show gs.reverse = [.node kind cs] from hbuilt]
      rfl
    · exact hf

/-- The walk through a node builds the node. -/
theorem run_of_builds {calls : List Call} {tree : Green} (hnode : tree.isNode)
    (h : Builds text calls [tree]) : run text calls = .ok tree := by
  rw [run, replay_of_builds h]
  cases tree with
  | node => rfl
  | leaf => cases hnode

/-- A builder runs through exactly when it is made to walk a node over the text of the node, and
then the node is what it builds: nothing of the text, the calls or the tree is lost on either way.
If all calls go through, the builder fails to finish exactly when a node is open, text is left, or
what was built is not one node. -/
theorem run_retraces (text : Text) (calls : List Call) :
    (∀ tree, run text calls = .ok tree ↔
      tree.isNode ∧ tree.HasRoom ∧ tree.text = text ∧ tree.byteLen = Text.byteLen text ∧
        tree.calls 0 = calls) ∧
    ∀ b, (new text).replay calls = .ok b →
      (b.finish = .error .unbalanced ↔ finishes calls < starts calls) ∧
      (b.finish = .error .textLeft ↔
        finishes calls = starts calls ∧ size calls < Text.byteLen text) ∧
      (b.finish = .error .notOneRoot ↔
        ∃ gs, Builds text calls gs ∧ ∀ kind cs, gs ≠ [.node kind cs]) ∧
      ∀ fault, b.finish = .error fault → fault ∈ [.unbalanced, .textLeft, .notOneRoot] := by
  have hrecord : ∀ b, (new text).replay calls = .ok b → Recorded text calls b :=
    fun b hb => (recorded_new text).replay hb
  refine ⟨fun tree => ⟨fun hrun => ?_, fun hwalk => ?_⟩, fun b hb => ?_⟩
  · cases hb : (new text).replay calls with
    | error fault =>
      rw [run, hb] at hrun
      cases hrun
    | ok b =>
      rw [run, hb] at hrun
      obtain ⟨hnode, hroom, htext, hcalls⟩ := (hrecord b hb).of_finish hrun
      rw [Green.textOf, Green.textOf, List.append_nil] at htext
      rw [Green.callsOf_singleton] at hcalls
      exact ⟨hnode, hroom tree List.mem_cons_self,
        htext, by rw [← htext, Green.byteLen_text], hcalls⟩
  · obtain ⟨hnode, hroom, htext, -, hcalls⟩ := hwalk
    refine run_of_builds hnode ⟨List.forall_mem_singleton.mpr hroom, ?_, ?_⟩
    · rw [Green.textOf, Green.textOf, List.append_nil, htext]
    · rw [Green.callsOf_singleton, hcalls]
  · have h := hrecord b hb
    refine ⟨h.finish_unbalanced, h.finish_textLeft, finish_notOneRoot hb, fun fault hfault => ?_⟩
    rcases b.finish_cases with ⟨_, hf⟩ | ⟨_, _, hf⟩ | ⟨_, _, _, _, _, hf⟩ | ⟨_, _, _, hf⟩ <;>
      rw [hf] at hfault <;> cases hfault <;> decide

/-- A declaration with a missing token and a token of more bytes than characters. -/
def declarationText : Text := "let é\n".toList

/-- The calls that build the tree of the declaration. -/
def declarationCalls : List Call :=
  [.start .sourceFile, .start .variableDecl, .token [] .letKw 0 3 [(.whitespace, 1)],
    .token [] .identifier 4 2 [], .missing .equal ['='], .finish,
    .token [(.newline, 1)] .endOfFile 7 0 [], .finish]

/-- The tree of the declaration. -/
def declarationTree : Green :=
  .node .sourceFile [
    .node .variableDecl [
      .leaf (.present ⟨[], .letKw, "let ".toList, [(.whitespace, 1)]⟩),
      .leaf (.present ⟨[], .identifier, ['é'], []⟩),
      .missing .equal ['=']],
    .leaf (.present ⟨[(.newline, 1)], .endOfFile, ['\n'], []⟩)]

/-- The calls build the tree. Without the last of them, a node is open. -/
theorem run_retraces_declaration :
    run declarationText declarationCalls = .ok declarationTree ∧
      ∃ b, (new declarationText).replay declarationCalls.dropLast = .ok b ∧
        b.finish = .error .unbalanced := by
  refine ⟨((run_retraces _ _).1 declarationTree).mpr (by decide), _, rfl, ?_⟩
  exact ((run_retraces declarationText declarationCalls.dropLast).2 _ rfl).1.mpr (by decide)

end Builder

end SwiftTree
