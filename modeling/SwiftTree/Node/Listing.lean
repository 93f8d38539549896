import SwiftTree.Node
import SwiftTree.Text.Quoted

/-!
# Listings of a tree

A tree is listed in source order, each node before its parts, with the depth of every entry
(`Node.listing`). `Node.outline` writes the listing as text, one entry on a line.
-/

namespace SwiftTree

/-- A range as it is written: two positions with dots between them. -/
def Span.render (s : Span) : String := toString s.start ++ ".." ++ toString s.stop

/-- A kind and a range as they are written. -/
def Kind.render (k : Kind) (range : Span) : String := k.name ++ "@" ++ range.render

/-- A node as it is written: its kind and its range. -/
def Node.render (n : Node) : String := n.kind.render n.range

/-- A part of a node as it is written. -/
def Element.render (e : Element) : String := e.kind.render e.range

namespace Node

mutual

/-- A part of the node `n` and everything below it, with depths. -/
def listingIn (n : Node) (depth index offset : Nat) : Green → List (Nat × Element)
  | .node kind children =>
    let below : Node := ⟨kind, children, offset, n.step index⟩
    (depth, .node below) :: listingFrom below (depth + 1) 0 offset children
  | .leaf l => [(depth, .leaf ⟨n, index, offset, l⟩)]

/-- Several parts of the node `n` and everything below them, with depths. -/
def listingFrom (n : Node) (depth index offset : Nat) : List Green → List (Nat × Element)
  | [] => []
  | g :: gs =>
    listingIn n depth index offset g ++ listingFrom n depth (index + 1) (offset + g.byteLen) gs

end

/-- The node and everything below it, with depths. -/
def listing (n : Node) : List (Nat × Element) :=
  (0, .node n) :: listingFrom n 1 0 n.offset n.children

/-- A line of the outline. A token shows its quoted spelling. -/
def outlineLine (depth : Nat) (e : Element) : String :=
  let indent := "".pushn ' ' (2 * depth)
  match e with
  | .node n => indent ++ n.render ++ "\n"
  | .leaf l =>
    if l.isPresent then
      indent ++ l.kind.render l.trimmedRange ++ " "
        ++ String.ofList (Text.quoted l.green.textTrimmed) ++ "\n"
    else indent ++ l.kind.render l.range ++ " missing\n"

/-- The listing as text. -/
def outline (n : Node) : String :=
  n.listing.foldl (fun out (depth, e) => out ++ outlineLine depth e) ""

end Node

end SwiftTree
