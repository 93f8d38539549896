import SwiftTree.Text.Printable

/-!
# Quoted texts

`Text.quoted` writes a text between double quotes so that it stays on one line and every character
can be told: quotes and backslashes are escaped, and characters that do not show by themselves are
written by name or by number.
-/

namespace SwiftTree.Text

/-- The digits of a number in base sixteen, in lower case. -/
def hexDigits (n : Nat) : Text := Nat.toDigits 16 n

/-- How a character stands in a quoted text. -/
def quotedChar (c : Char) : Text :=
  match c with
  | '\x00' => ['\\', '0']
  | '\t' => ['\\', 't']
  | '\r' => ['\\', 'r']
  | '\n' => ['\\', 'n']
  | '"' => ['\\', '"']
  | '\\' => ['\\', '\\']
  | c =>
    if 0x20 ≤ c.toNat && c.toNat < 0x7F then [c]
    else if isExtending c || isIgnorable c || isUnprintable c then
      ['\\', 'u', '\x7b'] ++ hexDigits c.toNat ++ ['\x7d']
    else [c]

/-- A text between quotes. -/
def quoted (cs : Text) : Text := '"' :: (cs.flatMap quotedChar ++ ['"'])

end SwiftTree.Text
