import LispShell.Number.Binary64.Text
import LispShell.Number.Exact
import LispShell.Text.Quoted
import LispShell.Value.Basic

set_option autoImplicit false

/-!
# The text of a value

A list is written as its items with a space between them, without parentheses of its own; after the
last item a tail that is not the empty list follows `::`.  An item is put in parentheses when it is
the empty list or a pair that continues as a list, so that its items stay apart from those around
it.  Strings are quoted, symbols are written as they are, and references show no value, only the
label of their instance.
-/

namespace LispShell.Value

/-- The item needs parentheses inside a list. -/
def needsParens : Value → Bool
  | .null => true
  | .pair _ _ tail => tail.isList
  | _ => false

/-- What is written between an item and the tail after it. -/
def joint : Value → List Char
  | .null => []
  | .pair _ _ _ => [' ']
  | _ => [':', ':']

/-- The text of a boolean. -/
def booleanText (b : Bool) : List Char :=
  (if b then "true" else "false").toList

/-- The text of a reference: what it is and the label of its instance. -/
def referenceText (what : String) (label : Nat) : List Char :=
  '%' :: what.toList ++ " 0x".toList ++ Nat.toDigits 16 label ++ ['%']

/-- The text of a value. -/
def chars : Value → List Char
  | .null => []
  | .boolean b => booleanText b
  | .integer _ v => decimalText v.toInt
  | .float x => x.text
  | .rational _ r => Exact.text r
  | .string _ text => Text.quote text.toList
  | .symbol _ text => text.toList
  | .pair _ head tail =>
    let item := if head.needsParens then '(' :: head.chars ++ [')'] else head.chars
    item ++ (joint tail ++ tail.chars)
  | .var place => referenceText "variable" place
  | .const label _ => referenceText "ct" label

/-- The text of a value, as a string. -/
def render (a : Value) : String :=
  String.ofList a.chars

/-- The text of a value with its kind, for inspection. -/
def debug : Value → String
  | .null => "Null"
  | .pair label head tail => "Pair(" ++ render (.pair label head tail) ++ ")"
  | a => a.kind.name ++ "(" ++ a.render ++ ")"

/-- The contents of a string or a symbol, without quotes. -/
def contents? : Value → Option String
  | .string _ text => some text
  | .symbol _ text => some text
  | _ => none

/-- The text that an atom is compared by: the contents of a string or a symbol, and what is written
for any other. -/
def atomText (a : Value) : String :=
  a.contents?.getD a.render

end LispShell.Value
