import SwiftTree.Kind.Category
import SwiftTree.Node

/-!
# Views of nodes

A `View` is a node whose kind is known to be of a form: one kind, or a category of them. What a
construct is made of is asked of its view, so that the question makes sense, and the answers are
views again. An answer is `none` where the tree does not have the part; a placeholder for something
that was not found is a part like any other.
-/

namespace SwiftTree

/-- A node of a form. -/
structure View (form : Kind → Bool) where
  /-- the node -/
  node : Node
  /-- the node is of the form -/
  isForm : form node.kind = true
deriving DecidableEq

namespace Node

/-- The node as a view, if it is of the form. -/
def view? {form : Kind → Bool} (n : Node) : Option (View form) :=
  if h : form n.kind = true then some ⟨n, h⟩ else none

/-- The nodes of a form among the parts. -/
def childViews {form : Kind → Bool} (n : Node) : List (View form) := n.childNodes.filterMap view?

/-- The first node of a form among the parts. -/
def childView {form : Kind → Bool} (n : Node) : Option (View form) := n.childViews.head?

/-- The nodes of a form among the parts of parts, as in a list of cases. -/
def grandchildViews {form : Kind → Bool} (n : Node) : List (View form) :=
  n.childNodes.flatMap childViews

/-- The nodes of a form at any depth, the node itself among them. -/
def descendantViews {form : Kind → Bool} (n : Node) : List (View form) :=
  n.descendants.filterMap view?

/-- The first token of the source among the parts whose kind passes a test. -/
def childToken (n : Node) (test : Kind → Bool) : Option Leaf :=
  n.childLeaves.find? fun l => test l.kind && l.isPresent

/-- Whether a token of a kind was read as a part. -/
def hasToken (n : Node) (k : Kind) : Bool := (n.childToken (· == k)).isSome

theorem isSome_view? {form : Kind → Bool} (n : Node) :
    (n.view? : Option (View form)).isSome = form n.kind := by
  unfold view?
  split <;> simp_all

end Node

namespace View

/-- A node of one kind. -/
abbrev Of (k : Kind) : Type := View (· == k)

/-- Any statement. -/
abbrev Statement : Type := View Kind.isStatement

/-- Any pattern. -/
abbrev Pattern : Type := View Kind.isPattern

/-- Any expression. -/
abbrev Expression : Type := View Kind.isExpression

/-- Any type. -/
abbrev TypeTerm : Type := View Kind.isType

/-- Anything that a list of statements holds. -/
abbrev Item : Type := View Kind.isItem

end View

end SwiftTree
