import SwiftTree.Proofs.Events

/-!
# Rules write events of the trees they put together

A log and a forest that follow the same rule stay in step: the events that were written since the
innermost open node describe the trees that were put together in it (`Log.Writes`). So markers are
used as intended whatever the text is, and the events of a whole text describe its tree.

Events hold the byte positions of tokens, and trees do not. They agree because the tokens that are
still to be read stand one after the other (`Ahead.StandsAt`), also after one of them was cut in
two.
-/

namespace SwiftTree.Grammar

open Event

namespace Ahead

/-- Whether tokens stand one after the other from a byte position on. -/
def StandsAt (pos : Nat) : Ahead → Prop
  | [] => True
  | x :: ts => x.start = pos + x.token.leading.byteLen ∧ StandsAt (pos + x.token.byteLen) ts

/-- The tokens of a text stand one after the other, from its start on. -/
theorem standsAt_ofTokens (endOpensLine : Bool) (pos : Nat) (prev : Option Token) (ts : List Token)
    (h : ∀ t ∈ ts, t.IsSolid) : StandsAt pos (Lexeme.ofTokens endOpensLine pos prev ts h) := by
  induction ts generalizing pos prev with
  | nil => trivial
  | cons t ts ih => exact ⟨rfl, ih _ _ _⟩

/-- Tokens in front of others stand where they stood, and the others stand behind them. -/
theorem standsAt_append {pos : Nat} {xs ts : Ahead} (h : StandsAt pos (xs ++ ts)) :
    StandsAt pos xs ∧ StandsAt (pos + Text.byteLen xs.source) ts := by
  induction xs generalizing pos with
  | nil => exact ⟨trivial, h⟩
  | cons x xs ih =>
    obtain ⟨hx, hts⟩ := ih h.2
    refine ⟨⟨h.1, hx⟩, ?_⟩
    rwa [source_cons, Text.byteLen_append, Token.byteLen_full, ← Nat.add_assoc]

/-- The two parts of a token that is cut stand one after the other, where the token stood. -/
theorem standsAt_splitHead {pos : Nat} {ts : Ahead} (head : SolidKind) (rest : Option SolidKind)
    (h : StandsAt pos ts) : StandsAt pos (ts.splitHead head rest) := by
  rcases splitHead_eq head rest ts with hs | ⟨x, us, y, z, c, d, cs, rfl, hs, ht, hy, hy', hz, hz'⟩
  · rwa [hs]
  · obtain ⟨hstart, hus⟩ := h
    have hlen : x.token.byteLen = y.token.byteLen + z.token.byteLen := by
      simp only [Token.byteLen, hy, hz, ht, Text.byteLen_cons, Text.byteLen_nil, Trivia.byteLen]
      omega
    rw [hs]
    refine ⟨by rw [hy', hy, hstart], ?_, ?_⟩
    · rw [hz', hstart, hz, hy]
      simp only [Token.byteLen, Text.byteLen_cons, Text.byteLen_nil, Trivia.byteLen]
      omega
    · rwa [Nat.add_assoc, ← hlen]

end Ahead

namespace Log

/-! ## What the steps of a log do -/

theorem modifyStart_eq {front back : List Event} {kind : Kind} {parent : Option Nat}
    {newest : Option Nat} {unfinished : Nat} {broken : Bool} {f : Kind → Option Nat → Event} :
    modifyStart front.length f
        ⟨(front ++ .start kind parent :: back).toArray, newest, unfinished, broken⟩
      = ⟨(front ++ f kind parent :: back).toArray, newest, unfinished, broken⟩ := by
  simp [modifyStart]

theorem start_eq {front : List Event} {newest : Option Nat} {depth : Nat} {broken : Bool} :
    start ⟨front.toArray, newest, depth, broken⟩
      = (⟨front.length, newest⟩, ⟨(front ++ [blank]).toArray, none, depth + 1, broken⟩) := by
  simp [start]

/-- Completing a node gives its start a kind and adds a finish, and the node is the newest one from
then on. -/
theorem complete_eq {front back : List Event} {before newest : Option Nat} {kind k : Kind}
    {parent : Option Nat} {depth : Nat} {broken : Bool} :
    complete ⟨front.length, before⟩ kind
        ⟨(front ++ .start k parent :: back).toArray, newest, depth + 1, broken⟩
      = ⟨(front ++ Event.start kind parent :: (back ++ [.finish])).toArray, some front.length,
          depth, broken⟩ := by
  rw [complete, modifyStart_eq]
  simp

theorem abandon_nil {front : List Event} {before newest : Option Nat} {depth : Nat}
    {broken : Bool} :
    abandon ⟨front.length, before⟩ ⟨(front ++ [blank]).toArray, newest, depth + 1, broken⟩
      = ⟨front.toArray, before, depth, broken⟩ := by
  simp [abandon]

theorem abandon_eq {front back : List Event} {before newest : Option Nat} {depth : Nat}
    {broken : Bool} (h : back ≠ []) :
    abandon ⟨front.length, before⟩
        ⟨(front ++ blank :: back).toArray, newest, depth + 1, broken⟩
      = ⟨(front ++ blank :: back).toArray, newest, depth, broken⟩ := by
  simp [abandon, h]

/-- Preceding the newest node makes its start point to a new one, which is added at the end and has
no kind yet. -/
theorem precede_eq {front back : List Event} {kind : Kind} {parent : Option Nat} {depth : Nat}
    {broken : Bool} :
    precede ⟨(front ++ .start kind parent :: back).toArray, some front.length, depth, broken⟩
      = (⟨(front ++ .start kind (some (back.length + 1)) :: back).length, some front.length⟩,
        ⟨(front ++ .start kind (some (back.length + 1)) :: back ++ [blank]).toArray, none,
          depth + 1, broken⟩) := by
  have hsize : front.length + (back.length + 1) - front.length = back.length + 1 := by omega
  have hpush : (front ++ .start kind parent :: back).toArray.push blank
      = (front ++ .start kind parent :: (back ++ [blank])).toArray := by simp
  simp only [precede, start, hpush, modifyStart_eq]
  simp [hsize]

/-- What is known of the surroundings of the node that is being written. -/
structure Surroundings where
  /-- the events up to its start -/
  before : List Event
  /-- the byte position that it starts at -/
  pos : Nat
  /-- how many nodes are open -/
  depth : Nat

/-- Whether a log is in step with a forest: what it has written in the innermost open node describes
the trees, and the tokens ahead stand behind them. -/
def Writes (c : Surroundings) (ts : Ahead) (l : Log) (gs : Forest) : Prop :=
  ∃ es newest, Describes c.pos es gs newest ∧ ts.StandsAt (c.pos + Green.byteLenOf gs) ∧
    l = ⟨(c.before ++ es).toArray, newest.map (c.before.length + ·), c.depth, false⟩

namespace Writes

variable {c : Surroundings} {ts us : Ahead} {l inner : Log} {gs hs : Forest}

/-- A token adds one event, with the position that the token has. -/
theorem token {x : Lexeme} (kind : SolidKind) (h : Writes c (x :: ts) l gs) :
    Writes c ts (Assembly.token { x.token with kind := kind.1 } x.start l)
      (Assembly.token { x.token with kind := kind.1 } x.start gs) := by
  obtain ⟨es, newest, hes, ⟨hstart, hts⟩, rfl⟩ := h
  refine ⟨es ++ [.token { x.token with kind := kind.1 } x.start], none, ?_, ?_, ?_⟩
  · rw [hstart]
    exact hes.token
  · show Ahead.StandsAt (c.pos + Green.byteLenOf (.token _ :: gs)) ts
    rw [Green.byteLenOf, Green.byteLen_token, Nat.add_comm (Token.byteLen _), ← Nat.add_assoc]
    exact hts
  · simp [Assembly.token]

/-- A missing token adds one event, and takes no text. -/
theorem missing (kind : SolidKind) (spelling : Text) (h : Writes c ts l gs) :
    Writes c ts (Assembly.missing kind.1 spelling l) (Assembly.missing kind.1 spelling gs) := by
  obtain ⟨es, newest, hes, hts, rfl⟩ := h
  refine ⟨es ++ [.missing kind.1 spelling], none, hes.missing, ?_, ?_⟩
  · show Ahead.StandsAt (c.pos + Green.byteLenOf (.missing _ _ :: gs)) ts
    rw [Green.byteLenOf, show (Green.missing kind.1 spelling).byteLen = 0 from rfl, Nat.zero_add]
    exact hts
  · simp [Assembly.missing]

/-- Tokens that are added as they are add one event each. -/
theorem addAll (xs : Ahead) (h : Writes c (xs ++ ts) l gs) :
    Writes c ts (addAll xs l) (addAll xs gs) := by
  induction xs generalizing l gs with
  | nil => exact h
  | cons x xs ih => exact ih (h.token ⟨x.token.kind, x.solid.2⟩)

/-- A node that opens starts with nothing in it, and what is written in it describes its parts. Once
it closes, or is given up, the surroundings are in step again. -/
theorem start (h : Writes c ts l gs) :
    ∃ d, Writes d ts l.start.2 [] ∧
      (∀ {us inner hs kind}, kind ≠ .tombstone → Writes d us inner hs →
        Writes c us (inner.complete l.start.1 kind) (.node kind hs.reverse :: gs)) ∧
      ∀ {us inner hs}, Writes d us inner hs →
        Writes c us (inner.abandon l.start.1) (hs ++ gs) := by
  obtain ⟨es, newest, hes, hts, rfl⟩ := h
  rw [start_eq]
  refine ⟨⟨c.before ++ es ++ [blank], c.pos + Green.byteLenOf gs, c.depth + 1⟩, ?_, ?_, ?_⟩
  · exact ⟨[], none, .nil, hts, by rw [List.append_nil]; rfl⟩
  · rintro us inner hs kind hk ⟨cs, last, hcs, hus, rfl⟩
    refine ⟨_, _, hes.node hcs hk, ?_, ?_⟩
    · simpa [Green.byteLenOf, Green.byteLen, Green.byteLenOf_reverse, Nat.add_assoc,
        Nat.add_comm, Nat.add_left_comm] using hus
    · have hevents : c.before ++ es ++ [blank] ++ cs
          = (c.before ++ es) ++ .start .tombstone none :: cs := by simp [blank]
      rw [hevents, complete_eq, List.append_assoc]
      simp
  · rintro us inner hs ⟨cs, last, hcs, hus, rfl⟩
    have hpos : us.StandsAt (c.pos + Green.byteLenOf (hs ++ gs)) := by
      rwa [Green.byteLenOf_append, Nat.add_comm (Green.byteLenOf hs), ← Nat.add_assoc]
    by_cases added : cs = []
    · subst added
      obtain rfl := hcs.eq_nil
      refine ⟨es, newest, hes, hpos, ?_⟩
      rw [List.append_nil, abandon_nil]
    · refine ⟨_, _, hes.abandon hcs added, hpos, ?_⟩
      have hevents : c.before ++ es ++ [blank] ++ cs = (c.before ++ es) ++ blank :: cs := by simp
      rw [hevents, abandon_eq added, List.append_assoc, Option.map_map]
      congr 2
      funext n
      simp
      omega

/-- A node that opens around the newest node. The log and the forest agree on whether there is
one. -/
theorem precede (h : Writes c ts l gs) :
    ∃ d, Writes d ts l.precede.2 (Forest.precede gs).2 ∧
      ∀ {us inner hs kind}, kind ≠ .tombstone → Writes d us inner hs →
        Writes c us (inner.complete l.precede.1 kind)
          (Forest.leave (Forest.precede gs).1 (some kind) hs) := by
  have hstart := h.start
  obtain ⟨es, newest, hes, hts, rfl⟩ := h
  rcases hes.newest_start with ⟨rfl, hgs⟩ | ⟨kind, cs, before, front, k, back, rfl, rfl, rfl⟩
  · -- nothing to wrap: an ordinary node opens
    have hprecede : Forest.precede gs = (([], gs), []) := by
      rcases Forest.precede_eq gs with ⟨kind, cs, before, rfl, -⟩ | h
      · exact absurd rfl (hgs kind cs before)
      · exact h
    obtain ⟨d, hd, back, -⟩ := hstart
    rw [hprecede]
    exact ⟨d, hd, back⟩
  · -- the start of the newest node gets a forward parent
    have hlog : Log.precede ⟨(c.before ++ (front ++ Event.start k none :: back)).toArray,
          (some front.length).map (c.before.length + ·), c.depth, false⟩
        = (⟨(c.before ++ front ++ Event.start k (some (back.length + 1)) :: back).length,
            some (c.before ++ front).length⟩,
          ⟨(c.before ++ front ++ Event.start k (some (back.length + 1)) :: back
            ++ [blank]).toArray, none, c.depth + 1, false⟩) := by
      rw [← List.append_assoc, Option.map_some, ← List.length_append, precede_eq]
    rw [hlog]
    refine ⟨⟨c.before ++ front ++ Event.start k (some (back.length + 1)) :: back ++ [blank],
      c.pos + Green.byteLenOf (.node kind cs :: before), c.depth + 1⟩, ?_, ?_⟩
    · exact ⟨[], none, .nil, hts, by rw [List.append_nil]; rfl⟩
    · rintro us inner hs outer hk ⟨es, last, hwithin, hus, rfl⟩
      refine ⟨_, _, hes.wrap hwithin hk, ?_, ?_⟩
      · show us.StandsAt
          (c.pos + Green.byteLenOf (.node outer (.node kind cs :: hs.reverse) :: before))
        simpa [Green.byteLenOf, Green.byteLen, Green.byteLenOf_reverse, Nat.add_assoc,
          Nat.add_comm, Nat.add_left_comm] using hus
      · rw [List.append_assoc _ [blank], blank, List.singleton_append, complete_eq]
        simp

end Writes

/-- At every step of every rule, the log is in step with the forest. -/
def writing : Simulation Log Forest where
  Context := Surroundings
  rel := Writes
  token kind h := h.token kind
  split head rest h := by
    obtain ⟨es, newest, hes, hts, hl⟩ := h
    exact ⟨es, newest, hes, Ahead.standsAt_splitHead head rest hts, hl⟩
  missing kind spelling h := h.missing kind spelling
  placeholder kind h := by
    obtain ⟨d, hd, leave, -⟩ := h.start
    exact leave (Kind.ne_tombstone_of_isNode (Kind.isNode_of_isMissingNode kind.2)) hd
  unexpected {c ts l gs} xs _ h := by
    obtain ⟨d, hd, leave, -⟩ := h.start
    have hk : Kind.unexpected ≠ .tombstone := nofun
    exact leave hk (hd.addAll xs)
  override _ _ h := h
  enter h := by
    obtain ⟨d, hd, leave, abandon⟩ := h.start
    refine ⟨d, hd, ?_⟩
    intro us inner hs kind hinner
    cases kind with
    | some kind =>
      exact leave (Kind.ne_tombstone_of_isNode (Kind.isNode_of_isConstruct kind.2)) hinner
    | none =>
      show Writes _ us _ (hs ++ [] ++ _)
      rw [List.append_nil]
      exact abandon hinner
  precede h := by
    obtain ⟨d, hd, leave⟩ := h.precede
    exact ⟨d, hd, fun kind hinner =>
      leave (Kind.ne_tombstone_of_isNode (Kind.isNode_of_isConstruct kind.2)) hinner⟩

end Log

end SwiftTree.Grammar
