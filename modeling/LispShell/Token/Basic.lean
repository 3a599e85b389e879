import LispShell.Text.Inspect
import LispShell.Text.Quoted
import LispShell.Text.Utf8
import LispShell.Token.Kind
import LispShell.Value.Rendering
import LispShell.Value.Store

set_option autoImplicit false

/-!
# Tokens

A token is a kind, a text and the number of the line that it ended on.  The text is what stood in
the source, with two exceptions: an operator carries its canonical name, and a line break inside
single quotes is carried as a backslash and an `n`.

Literal tokens denote a value: a symbol, or a string without the quotes around it and, where the
quotes are double, with its escapes decoded.
-/

namespace LispShell

/-- A token. -/
structure Token where
  kind : TokenKind
  text : String
  /-- the number of the line that the token ended on -/
  line : Nat
  deriving DecidableEq, Repr, Inhabited

/-! ## Literals -/

/-- The value that a literal token denotes. -/
inductive Literal where
  | symbol (text : String)
  | string (text : String)
  deriving DecidableEq, Repr, Inhabited

namespace Literal

/-- The value of a literal, constructed in the store. -/
def make (l : Literal) (σ : Store) : Value × Store :=
  match l with
  | .symbol text => σ.makeSymbol text
  | .string text => σ.makeString text

/-- The text of a literal's value. -/
def render : Literal → String
  | .symbol text => text
  | .string text => String.ofList (Text.quote text.toList)

/-- The text is that of the value which the literal denotes. -/
theorem render_make (l : Literal) (σ : Store) : (l.make σ).1.render = l.render := by
  cases l with
  | symbol text =>
    obtain ⟨label, h⟩ := σ.makeSymbol_fst text
    simp only [make, h]
    simp [Value.render, Value.chars, render]
  | string text => simp [make, Store.makeString, Value.render, Value.chars, render]

end Literal

namespace Token

/-- A token that stands for no text. -/
def control (kind : TokenKind) (line : Nat) : Token :=
  ⟨kind, "", line⟩

/-- The text between `low` and `high` bytes, if these are ends of characters in this order, and else
all of it. -/
def cut (low high : Nat) (text : List Char) : List Char :=
  (Text.sliceBytes? low high text).getD text

/-- The text without the quotes around it; escapes stay as they are written.  A text too short to
hold its quotes is given whole. -/
def raw (t : Token) : String :=
  let chars := t.text.toList
  let closing := Text.byteLength chars - 1
  match t.kind with
  | .singleQuoted | .doubleQuoted => String.ofList (cut 1 closing chars)
  | .bangDouble => String.ofList (cut 2 closing chars)
  | _ => t.text

/-- The value that the token denotes, if it is a literal. -/
def literal? (t : Token) : Option Literal :=
  match t.kind with
  | .symbol | .braceExpansion => some (.symbol t.text)
  | .singleQuoted => some (.string t.raw)
  | .doubleQuoted | .bangDouble => some (.string (String.ofList (Text.unescape t.raw.toList)))
  | _ => none

/-- The display form: the kind and, unless it is a control token, the text inspected. -/
def display (t : Token) : String :=
  match t.kind with
  | .interrupt | .endOfInput => t.kind.name
  | kind => kind.name ++ " " ++ String.ofList (Text.inspect t.text.toList)

/-- The character that the token stands for, if it is punctuation. -/
def char? (t : Token) : Option Char :=
  t.kind.char?

end Token

end LispShell
