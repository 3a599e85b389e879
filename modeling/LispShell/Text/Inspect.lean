import LispShell.Text.Unprintable

set_option autoImplicit false

/-!
# The inspected form of a text

Tokens and error messages show a text between double quotes in a form that fits on one line and in
which no two texts look alike: six characters have short escapes, and every unprintable character is
written by its code in braces.
-/

namespace LispShell.Text

/-- One character of an inspected text.  A single quote needs no escape. -/
def inspectChar (c : Char) : List Char :=
  match c with
  | '\x00' => ['\\', '0']
  | '\t' => ['\\', 't']
  | '\n' => ['\\', 'n']
  | '\r' => ['\\', 'r']
  | '"' => ['\\', '"']
  | '\\' => ['\\', '\\']
  | c =>
    if isUnprintable c then '\\' :: 'u' :: '{' :: Nat.toDigits 16 c.toNat ++ ['}'] else [c]

/-- The text between double quotes, each character in its inspected form. -/
def inspect (text : List Char) : List Char :=
  '"' :: text.flatMap inspectChar ++ ['"']

end LispShell.Text
