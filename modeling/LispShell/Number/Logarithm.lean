set_option autoImplicit false

/-!
# The integral logarithm of a rational

Placing a number in a positional notation starts from the largest power of the base that does not
exceed it.  The lengths of numerator and denominator give that exponent up to one, and one
comparison settles it.
-/

namespace LispShell

/-- For a positive rational `r` and a base of at least two: the largest integer `e` with
`base ^ e ≤ r`. -/
def floorLog (base : Nat) (r : Rat) : Int :=
  let estimate : Int :=
    ((Nat.toDigits base r.num.natAbs).length : Int) - (Nat.toDigits base r.den).length
  if (base : Rat) ^ estimate ≤ r then estimate else estimate - 1

end LispShell
