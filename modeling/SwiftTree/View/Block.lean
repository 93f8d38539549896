import SwiftTree.View

/-!
# Views of files and blocks
-/

namespace SwiftTree.View

/-- A whole file. -/
abbrev SourceFile : Type := Of .sourceFile

/-- A list of statements. -/
abbrev ItemList : Type := Of .codeBlockItemList

/-- Statements in braces. -/
abbrev CodeBlock : Type := Of .codeBlock

/-- Text that stands where it does not belong. -/
abbrev Unexpected : Type := Of .unexpected

/-- What the file holds. -/
def SourceFile.items (v : SourceFile) : List Item := v.node.grandchildViews

/-- What the list holds. -/
def ItemList.items (v : ItemList) : List Item := v.node.childViews

/-- What stands between the braces. -/
def CodeBlock.statements (v : CodeBlock) : Option ItemList := v.node.childView

/-- Whether the closing brace was read. -/
def CodeBlock.isClosed (v : CodeBlock) : Bool := v.node.hasToken .rightBrace

/-- The text, without the trivia at its ends. -/
def Unexpected.text (v : Unexpected) : Text := v.node.textTrimmed

end SwiftTree.View
