import LispShell.Number.Binary64.Basic

set_option autoImplicit false

/-!
# Values of the shell

Everything that a program of the shell reads, computes or prints is a `Value`.  There are three
nested groups:

* every value can be tested for truth, compared and rendered;
* the atoms, which are booleans, numbers, strings and symbols, also project to numbers;
* the numbers, and the symbols, also order and compute.

Pairs build lists; `null` is the empty list.  Variables and constants are references to a value.

Values have an identity besides their contents: two constructions of one text are two strings.  The
identity of a value is the label of its instance, which the store hands out, and everything that
depends on identity compares labels.
-/

namespace LispShell

/-- The label of one constructed value; different constructions have different labels unless the
store shares them. -/
abbrev Instance := Nat

/-- A value.  `null`, booleans and floats carry no instance: there is one `null`, one `true` and one
`false`, and two floats are never the same instance. -/
inductive Value where
  /-- the empty list -/
  | null
  | boolean (b : Bool)
  | integer (label : Instance) (v : Int64)
  | float (x : Binary64)
  | rational (label : Instance) (r : Rat)
  | string (label : Instance) (text : String)
  | symbol (label : Instance) (text : String)
  | pair (label : Instance) (head tail : Value)
  /-- a variable: the place in the store that holds its current value -/
  | var (place : Nat)
  /-- a constant, which holds its value for good -/
  | const (label : Instance) (value : Value)
  deriving DecidableEq, Repr, Inhabited

/-! ## Kinds -/

/-- The kinds of values. -/
inductive Kind where
  | null
  | boolean
  | integer
  | float
  | rational
  | string
  | symbol
  | pair
  | var
  | const
  deriving DecidableEq, Repr, Inhabited

/-- The name of a kind, as error messages give it. -/
def Kind.name : Kind → String
  | .null => "null"
  | .boolean => "boolean"
  | .integer => "integer"
  | .float => "float"
  | .rational => "rational"
  | .string => "string"
  | .symbol => "symbol"
  | .pair => "cons"
  | .var => "variable"
  | .const => "constant"

namespace Value

/-- The kind of a value. -/
def kind : Value → Kind
  | .null => .null
  | .boolean _ => .boolean
  | .integer _ _ => .integer
  | .float _ => .float
  | .rational _ _ => .rational
  | .string _ _ => .string
  | .symbol _ _ => .symbol
  | .pair _ _ _ => .pair
  | .var _ => .var
  | .const _ _ => .const

/-! ## Groups of kinds -/

/-- Booleans, numbers, strings and symbols. -/
def isAtom (a : Value) : Bool :=
  match a.kind with
  | .boolean | .integer | .float | .rational | .string | .symbol => true
  | .null | .pair | .var | .const => false

/-- Integers, floats and rationals. -/
def isNumber (a : Value) : Bool :=
  match a.kind with
  | .integer | .float | .rational => true
  | .null | .boolean | .string | .symbol | .pair | .var | .const => false

/-- The lists: pairs and `null`. -/
def isList (a : Value) : Bool :=
  match a.kind with
  | .pair | .null => true
  | .boolean | .integer | .float | .rational | .string | .symbol | .var | .const => false

/-- Variables and constants. -/
def isReference (a : Value) : Bool :=
  match a.kind with
  | .var | .const => true
  | .null | .boolean | .integer | .float | .rational | .string | .symbol | .pair => false

/-- Every number is an atom. -/
theorem isAtom_of_isNumber {a : Value} (h : a.isNumber = true) : a.isAtom = true := by
  cases a <;> simp_all [isNumber, isAtom, kind]

/-- A value is an atom, a list or a reference. -/
theorem isAtom_or_isList_or_isReference (a : Value) :
    a.isAtom = true ∨ a.isList = true ∨ a.isReference = true := by
  cases a <;> simp [isAtom, isList, isReference, kind]

/-! ## Identity -/

/-- The two are one instance. -/
def same : Value → Value → Bool
  | .null, .null => true
  | .boolean a, .boolean b => a == b
  | .integer a _, .integer b _ => a == b
  | .rational a _, .rational b _ => a == b
  | .string a _, .string b _ => a == b
  | .symbol a _, .symbol b _ => a == b
  | .pair a _ _, .pair b _ _ => a == b
  | .var a, .var b => a == b
  | .const a _, .const b _ => a == b
  | _, _ => false

/-- One instance has one kind. -/
theorem kind_eq_of_same {a b : Value} (h : a.same b = true) : a.kind = b.kind := by
  cases a <;> cases b <;> simp_all [same, kind]

end Value

end LispShell
