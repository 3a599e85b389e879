import LispShell.Value.Projection
import LispShell.Value.Rendering
import LispShell.Value.Store

set_option autoImplicit false

/-!
# Equality of values

The shell compares across kinds.  What the left value is decides how:

* `null` equals only `null`;
* a boolean equals the atoms of its truth;
* a number equals the atoms of its exact value;
* a string or a symbol equals the atoms of its text;
* a pair equals the pairs with an equal head and an equal tail;
* a reference is compared through its current value.

A value is also equal to itself, as an instance.  References count on the left only: no value looks
inside a reference on the right.  In the tail of a pair a reference on the left does not stand for a
pair on the right.

References may form a chain; `trail` lists a value and all it leads to.  A chain that visits more
variables than there are is circular and leads nowhere.
-/

namespace LispShell

/-! ## Following references -/

namespace Store

/-- The value and what it leads to, `next` telling what the place of a variable leads to. -/
def trailVia (next : Nat → List Value) : Value → List Value
  | .const label value => .const label value :: trailVia next value
  | .var place => .var place :: next place
  | a => [a]

/-- The value and what it leads to, passing through at most `hops` variables. -/
def trailWithin (σ : Store) (hops : Nat) : Value → List Value :=
  match hops with
  | 0 => trailVia fun _ => []
  | hops + 1 => trailVia fun place => ((σ.places[place]?).map (σ.trailWithin hops)).getD []

/-- The value and what it leads to, one reference after the other. -/
def trail (σ : Store) : Value → List Value :=
  σ.trailWithin σ.places.size

/-- The value at the end of a chain of references. -/
def resolve (σ : Store) (a : Value) : Value :=
  (σ.trail a).getLast?.getD a

end Store

/-! ## Equality -/

namespace Value

/-- The two have exact values, and these are equal. -/
def equalNumbers (a b : Value) : Bool :=
  match a.toRat, b.toRat with
  | .ok x, .ok y => x == y
  | _, _ => false

/-- An atom on the left equals a value on the right, apart from their identities. -/
def equalsAtom (a b : Value) : Bool :=
  b.isAtom &&
    match a with
    | .boolean x => x == b.isTruthy
    | .integer _ _ | .float _ | .rational _ _ => equalNumbers a b
    | .string _ _ | .symbol _ _ => a.atomText == b.atomText
    | _ => false

/-- The shell's equality of two values. -/
def equals (σ : Store) (a : Value) : Value → Bool
  | .pair label head tail =>
    match σ.resolve a with
    | .pair label' head' tail' =>
      label' == label ||
        (equals σ head' head && !(tail'.isReference && tail.kind == .pair) && equals σ tail' tail)
    | _ => false
  | b => (σ.trail a).any (·.same b) || (σ.resolve a).equalsAtom b

/-- Equality of two values of one kind. -/
def equalsSameKind (σ : Store) (a b : Value) : Bool :=
  a.kind == b.kind && a.equals σ b

end Value

end LispShell
