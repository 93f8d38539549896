import SwiftTree.Grammar.Assembly
import SwiftTree.Green.Builder

/-!
# Events

Rules write down what they read as a flat list of events (`Log`), and the tree is built from the
list afterwards (`Event.build`). A node that is to be put around one that is already closed cannot
open before it in the list. It opens where the list ends, and the inner node names it as its forward
parent. When the tree is built, the start of a node opens its forward parents first, outermost
first, and blanks their own starts.

Beside the events, a parser keeps what is to be reported in the place of unexpected text (`Notes`).

The list is only correct when markers are used as intended. A log notes when one is not, and
building the tree names the fault it finds; that neither ever happens is proved, not assumed.
-/

namespace SwiftTree.Grammar

/-- What a rule writes down. -/
inductive Event where
  /-- a node starts; its forward parent starts so many events later -/
  | start (kind : Kind) (forwardParent : Option Nat)
  /-- the innermost open node ends -/
  | finish
  /-- a token, and where its spelling starts -/
  | token (token : Token) (pos : Nat)
  /-- a missing token -/
  | missing (kind : Kind) (spelling : Text)
deriving DecidableEq, Repr, Inhabited

namespace Event

/-- The start of a node that is not closed yet, that was given up, or that was opened already. -/
def blank : Event := .start .tombstone none

/-- What can be wrong with a list of events. -/
inductive Fault where
  /-- a forward parent is no start -/
  | unreachable
  /-- a step of the builder fails -/
  | builder (fault : Builder.Fault)
deriving DecidableEq, Repr

/-- The kinds of a start and of its forward parents. One that was given up has no node. -/
def addKind (kind : Kind) (kinds : List Kind) : List Kind :=
  if kind = .tombstone then kinds else kind :: kinds

/-- The kinds of the start behind the next `n` events and of its forward parents, innermost first,
and the events with their starts blanked. -/
def follow : Nat → List Event → Option (List Kind × List Event)
  | _, [] => none
  | 0, .start kind none :: es => some (addKind kind [], blank :: es)
  | 0, .start kind (some n) :: es =>
    (follow (n - 1) es).map fun (kinds, es) => (addKind kind kinds, blank :: es)
  | 0, _ :: _ => none
  | n + 1, e :: es => (follow n es).map fun (kinds, es) => (kinds, e :: es)

/-- The kinds of the forward parents of a start, innermost first, and the events behind it with
their starts blanked. -/
def parents (parent : Option Nat) (es : List Event) : Option (List Kind × List Event) :=
  match parent with
  | none => some ([], es)
  | some n => follow (n - 1) es

theorem length_of_follow {n : Nat} {es es' : List Event} {kinds : List Kind}
    (h : follow n es = some (kinds, es')) : es'.length = es.length := by
  fun_induction follow n es generalizing kinds es' with
  | case1 => cases h
  | case2 kind es =>
    cases h
    rfl
  | case3 kind es n ih =>
    obtain ⟨⟨ks, rest⟩, hr, he⟩ := Option.map_eq_some_iff.mp h
    cases he
    rw [List.length_cons, List.length_cons, ih hr]
  | case4 => cases h
  | case5 n e es ih =>
    obtain ⟨⟨ks, rest⟩, hr, he⟩ := Option.map_eq_some_iff.mp h
    cases he
    rw [List.length_cons, List.length_cons, ih hr]

theorem length_of_parents {parent : Option Nat} {es es' : List Event} {kinds : List Kind}
    (h : parents parent es = some (kinds, es')) : es'.length = es.length := by
  cases parent with
  | none =>
    cases h
    rfl
  | some n => exact length_of_follow h

/-- Opens nodes, outermost first. -/
def openAll (kinds : List Kind) (b : Builder) : Builder :=
  kinds.foldr (fun kind b => b.startNode kind) b

/-- Builds a tree from events. -/
def build (events : List Event) (b : Builder) : Except Fault Builder :=
  match events with
  | [] => .ok b
  | .start kind parent :: es =>
    if kind = .tombstone then build es b
    else
      match h : parents parent es with
      | none => .error .unreachable
      | some (kinds, es') =>
        have := length_of_parents h
        build es' (openAll (kind :: kinds) b)
  | .finish :: es =>
    match b.finishNode with
    | .error f => .error (.builder f)
    | .ok b => build es b
  | .token t pos :: es =>
    match b.token t.leading.outline t.kind pos (pos + Text.byteLen t.text) t.trailing.outline with
    | .error f => .error (.builder f)
    | .ok b => build es b
  | .missing kind spelling :: es => build es (b.missingToken kind spelling)
termination_by events.length
decreasing_by all_goals simp_all [List.length_cons]

end Event

/-! ### Writing events -/

/-- The events so far. -/
structure Log where
  /-- what was written down -/
  events : Array Event
  /-- where the node starts that was added last, if it is the last part of its surroundings -/
  newest : Option Nat
  /-- how many markers are neither completed nor given up -/
  unfinished : Nat
  /-- whether a marker was found to be none -/
  broken : Bool

namespace Log

/-- Nothing yet. -/
def empty : Log := ⟨#[], none, 0, false⟩

/-- What is remembered of an open node. -/
structure Marker where
  /-- where its start stands -/
  pos : Nat
  /-- the node that was added last before it -/
  before : Option Nat

/-- Opens a node. -/
def start (l : Log) : Marker × Log :=
  (⟨l.events.size, l.newest⟩,
    { l with events := l.events.push .blank, newest := none, unfinished := l.unfinished + 1 })

/-- Changes the start at a position. -/
def modifyStart (pos : Nat) (f : Kind → Option Nat → Event) (l : Log) : Log :=
  match l.events[pos]? with
  | some (.start kind parent) => { l with events := l.events.setIfInBounds pos (f kind parent) }
  | _ => { l with broken := true }

/-- Closes a node. -/
def complete (m : Marker) (kind : Kind) (l : Log) : Log :=
  let l := l.modifyStart m.pos fun _ parent => .start kind parent
  { l with
    events := l.events.push .finish, newest := some m.pos, unfinished := l.unfinished - 1 }

/-- Gives a node up. -/
def abandon (m : Marker) (l : Log) : Log :=
  if l.events.size = m.pos + 1 then
    { l with events := l.events.pop, newest := m.before, unfinished := l.unfinished - 1 }
  else { l with unfinished := l.unfinished - 1 }

/-- Opens a node around the node that was added last, or a new one if there is none. -/
def precede (l : Log) : Marker × Log :=
  match l.newest with
  | none => l.start
  | some pos =>
    let (m, l) := l.start
    (m, l.modifyStart pos fun kind _ => .start kind (some (m.pos - pos)))

/-- Rules write events. -/
instance : Assembly Log where
  Mark := Marker
  token t start l := { l with events := l.events.push (.token t start), newest := none }
  missing kind spelling l :=
    { l with events := l.events.push (.missing kind spelling), newest := none }
  enter := start
  precede := precede
  leave m kind l := match kind with
    | some kind => l.complete m kind
    | none => l.abandon m

end Log

/-! ### Noting diagnostics -/

/-- What rules note while they read. -/
structure Notes where
  /-- where the last token that was taken ends, with its trailing trivia -/
  consumed : Nat := 0
  /-- what is reported in the place of unexpected text, oldest first -/
  overrides : List Override := []
deriving DecidableEq, Repr

namespace Notes

/-- Rules note diagnostics. -/
instance : Assembly Notes where
  Mark := Unit
  token t start notes :=
    { notes with consumed := start + Text.byteLen t.text + t.trailing.byteLen }
  missing _ _ notes := notes
  enter notes := ((), notes)
  precede notes := ((), notes)
  leave _ _ notes := notes
  override start diagnostic notes :=
    { notes with overrides := notes.overrides ++ [⟨start, diagnostic notes.consumed⟩] }

end Notes

end SwiftTree.Grammar
