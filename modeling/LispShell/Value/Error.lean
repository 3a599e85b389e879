import LispShell.Number.Binary64.Text
import LispShell.Number.Exact
import LispShell.Text.Inspect
import LispShell.Value.Basic

set_option autoImplicit false

/-!
# What an operation on values can refuse

Each operation that can fail gives one of these causes.  The wording of each stands in
`ValueError.message` alone.
-/

namespace LispShell

/-- Why an operation on values gave no result. -/
inductive ValueError where
  /-- a text was to be a number, and denotes none -/
  | notNumeric (text : String)
  /-- a remainder was asked of numbers that are not integers -/
  | notPermitted
  /-- a constant was to be set -/
  | constantSet
  /-- a quotient or a remainder by zero was asked for -/
  | divisionByZero
  /-- an atom was needed -/
  | notAnAtom (kind : Kind)
  /-- a number or a symbol was needed -/
  | notANumber (kind : Kind)
  /-- a variable or a constant was needed -/
  | notAReference (kind : Kind)
  /-- a pair or the empty list was needed -/
  | notAList (kind : Kind)
  /-- the float is infinite or not a number -/
  | notFinite (x : Binary64)
  /-- the number has no equal among the 64-bit integers -/
  | outOfRange (r : Rat)
  deriving DecidableEq, Repr

namespace ValueError

/-- How a message names a float without an exact value. -/
def floatName : Binary64 → String
  | .infinite false => "inf"
  | .infinite true => "-inf"
  | x => String.ofList x.text

/-- The text of an error. -/
def message : ValueError → String
  | .notNumeric text => "not a number: " ++ String.ofList (Text.inspect text.toList)
  | .notPermitted => "operation not permitted"
  | .constantSet => "constant cannot be set"
  | .divisionByZero => "division by zero"
  | .notAnAtom kind => kind.name ++ " is not an atom"
  | .notANumber kind => kind.name ++ " is not a number"
  | .notAReference kind => kind.name ++ " is not a reference"
  | .notAList kind => kind.name ++ " is not a cons cell"
  | .notFinite x => "float " ++ floatName x ++ " has no exact value"
  | .outOfRange r => String.ofList (Exact.text r) ++ " does not fit in 64 bits"

end ValueError

end LispShell
