import LispShell.Value.Projection
import LispShell.Value.Rendering
import LispShell.Value.Store

set_option autoImplicit false

/-!
# Order and arithmetic

Numbers and symbols order and compute.  The left operand must be one of them; the right may be any
atom.  Everything is exact: both operands are taken as rationals, and the result is a rational.  A
symbol on the left computes with the number it spells, but orders as text.

An operation looks at its left operand first, then at its right, then at what it is asked to do, and
gives the first error it meets.  Where it comes to a text at which reading breaks off, the operation
breaks off too and gives nothing, not even an error (`attempt`).
-/

namespace LispShell.Value

/-! ## Operands -/

/-- The exact value of a left operand. -/
def leftOperand (a : Value) : Except ValueError Rat :=
  if a.isNumber || a.kind == .symbol then a.toRat else .error (.notANumber a.kind)

/-- The exact value of a right operand. -/
def rightOperand (b : Value) : Except ValueError Rat :=
  if b.isAtom then b.toRat else .error (.notAnAtom b.kind)

/-! ## Order -/

/-- How two rationals are ordered. -/
def orderRat (x y : Rat) : Ordering :=
  if x < y then .lt else if x = y then .eq else .gt

/-- How two values are ordered: by text if the left is a symbol, and else by exact value. -/
def order (a b : Value) : Except ValueError Ordering :=
  match a with
  | .symbol _ text =>
    if b.isAtom then .ok (compare text b.atomText) else .error (.notAnAtom b.kind)
  | a => do
    let x ← a.leftOperand
    let y ← b.rightOperand
    return orderRat x y

/-- The left value comes after the right one. -/
def greater (a b : Value) : Except ValueError Bool :=
  (a.order b).map (· == .gt)

/-- The left value comes before the right one. -/
def less (a b : Value) : Except ValueError Bool :=
  (a.order b).map (· == .lt)

/-! ## Arithmetic -/

/-- The operations of exact arithmetic. -/
inductive Operation where
  | add
  | subtract
  | multiply
  | divide
  | modulo
  deriving DecidableEq, Repr, Inhabited

/-- The result of an operation on rationals.  There are remainders of integers only.  Division
truncates and so leaves a remainder with the sign of the dividend; raised by the size of the divisor
and divided once more, it is never negative. -/
def Operation.apply (op : Operation) (x y : Rat) : Except ValueError Rat :=
  match op with
  | .add => .ok (x + y)
  | .subtract => .ok (x - y)
  | .multiply => .ok (x * y)
  | .divide => if y = 0 then .error .divisionByZero else .ok (x / y)
  | .modulo =>
    if x.den ≠ 1 ∨ y.den ≠ 1 then .error .notPermitted
    else
      let size : Int := y.num.natAbs
      if size = 0 then .error .divisionByZero
      else .ok (((x.num.tmod size + size).tmod size : Int) : Rat)

/-- The answer of an operation on two values that does not break off. -/
def compute (op : Operation) (a b : Value) (σ : Store) : Except ValueError (Value × Store) := do
  let x ← a.leftOperand
  let y ← b.rightOperand
  let r ← op.apply x y
  return σ.makeRational r

/-- An operation on two values comes to a text at which reading breaks off.  It reads a symbol on
the left, and it reads the right operand when nothing is wrong with the left. -/
def breaksOff (a b : Value) : Bool :=
  (a.kind == .symbol && a.overflows) || (a.leftOperand.isOk && b.overflows)

/-- What an operation on two values comes to: its answer, or nothing if it breaks off. -/
def attempt (op : Operation) (a b : Value) (σ : Store) :
    Option (Except ValueError (Value × Store)) :=
  if a.breaksOff b then none else some (a.compute op b σ)

end LispShell.Value
