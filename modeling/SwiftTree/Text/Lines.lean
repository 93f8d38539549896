import SwiftTree.Text

/-!
# Lines and columns

Lines end with a line feed and with nothing else. A position is told by the number of lines before
it and by the number of bytes before it on its line.
-/

namespace SwiftTree.Text

/-- A position as people count it from zero. -/
structure LineColumn where
  /-- how many lines come before -/
  line : Nat
  /-- how many bytes of its line come before -/
  column : Nat
deriving DecidableEq, Repr

/-- The line and column of the byte position `pos` of a text, given where the text starts. -/
def lineColumnFrom (here : LineColumn) (pos : Nat) : Text → LineColumn
  | [] => { here with column := here.column + pos }
  | c :: cs =>
    if pos < c.utf8Size then { here with column := here.column + pos }
    else if c == '\n' then lineColumnFrom ⟨here.line + 1, 0⟩ (pos - c.utf8Size) cs
    else lineColumnFrom ⟨here.line, here.column + c.utf8Size⟩ (pos - c.utf8Size) cs

/-- The line and column of a byte position. -/
def lineColumn (cs : Text) (pos : Nat) : LineColumn := lineColumnFrom ⟨0, 0⟩ pos cs

end SwiftTree.Text
