import SwiftTree.Text.Alphanumeric

/-!
# Markers

A text for a test can name places in itself: `#^NAME^#` marks the place where it stands, and is not
part of the text that is meant. `Markers.extract` takes the markers out and says where they stood in
what is left (`Markers.extractFrom` says how they are found).

The markers of a text are a list without two of one name, by position and then by name.
-/

namespace SwiftTree

namespace Text

/-- A split at a part loses nothing. -/
theorem eq_append_of_splitAtFirst {part cs before after : Text}
    (h : splitAtFirst part cs = some (before, after)) : cs = before ++ part ++ after := by
  induction cs generalizing before after with
  | nil =>
    simp only [splitAtFirst] at h
    split at h
    · simp_all
    · simp at h
  | cons c cs ih =>
    simp only [splitAtFirst] at h
    split at h
    · rename_i found
      obtain ⟨rest, hrest⟩ := List.isPrefixOf_iff_prefix.1 found
      simp only [Option.some.injEq, Prod.mk.injEq] at h
      obtain ⟨rfl, rfl⟩ := h
      simp [← hrest]
    · obtain ⟨⟨a, b⟩, hab, heq⟩ := Option.map_eq_some_iff.1 h
      simp only [Prod.mk.injEq] at heq
      obtain ⟨rfl, rfl⟩ := heq
      simp [ih hab]

/-- Whether a text comes before another: at the first difference it has the smaller character, or it
has ended. -/
def precedes : Text → Text → Bool
  | _, [] => false
  | [], _ :: _ => true
  | a :: s, b :: t => if a == b then precedes s t else a.toNat < b.toNat

end Text

/-- A named place in a text. -/
structure Marker where
  /-- its name -/
  name : Text
  /-- where it stands -/
  offset : Nat
deriving DecidableEq, Repr

namespace Marker

/-- What opens a marker. -/
def opener : Text := ['#', '^']

/-- What closes a marker. -/
def closer : Text := ['^', '#']

/-- Whether a text can be the name of a marker. -/
def isName (name : Text) : Bool :=
  !name.isEmpty && name.all fun c => Text.isAlphanumeric c || c == '_'

/-- Whether a marker is listed before another. -/
def precedes (a b : Marker) : Bool :=
  a.offset < b.offset || (a.offset == b.offset && Text.precedes a.name b.name)

/-- Adds a marker to an ordered list. -/
def place (m : Marker) : List Marker → List Marker
  | [] => [m]
  | a :: as => if a.precedes m then a :: place m as else m :: a :: as

end Marker

/-- The markers of a text: no two of one name, by position and then by name. -/
structure Markers where
  /-- the markers in order -/
  toList : List Marker
deriving DecidableEq, Repr

namespace Markers

/-- No markers. -/
def empty : Markers := ⟨[]⟩

/-- Whether there are no markers. -/
def isEmpty (ms : Markers) : Bool := ms.toList.isEmpty

/-- Adds a marker. An older one of the same name is dropped. -/
def insert (ms : Markers) (m : Marker) : Markers :=
  ⟨m.place (ms.toList.filter fun a => a.name != m.name)⟩

/-- The markers of a list, where later ones count. -/
def ofList (ms : List Marker) : Markers := ms.foldl insert empty

/-- Where the marker of a name stands. -/
def get? (ms : Markers) (name : Text) : Option Nat :=
  (ms.toList.find? fun m => m.name == name).map (·.offset)

/-- Takes the markers out of a text that starts at `offset`. An opener whose name is none is kept,
and the search goes on behind it. An opener that nothing closes ends the search. -/
def extractFrom (offset : Nat) (cs : Text) : Text × List Marker :=
  match _opened : Text.splitAtFirst Marker.opener cs with
  | none => (cs, [])
  | some (before, rest) =>
    match _closed : Text.splitAtFirst Marker.closer rest with
    | none => (cs, [])
    | some (name, after) =>
      let here := offset + Text.byteLen before
      if Marker.isName name then
        let (clean, found) := extractFrom here after
        (before ++ clean, ⟨name, here⟩ :: found)
      else
        let (clean, found) := extractFrom (here + Text.byteLen Marker.opener) rest
        (before ++ Marker.opener ++ clean, found)
termination_by cs.length
decreasing_by
  all_goals
    have := congrArg List.length (Text.eq_append_of_splitAtFirst _opened)
    have := congrArg List.length (Text.eq_append_of_splitAtFirst _closed)
    simp only [List.length_append, Marker.opener, Marker.closer, List.length_cons] at *
    omega

/-- A text without its markers, and its markers. -/
def extract (text : Text) : Text × Markers :=
  let (clean, found) := extractFrom 0 text
  (clean, .ofList found)

end Markers

end SwiftTree
