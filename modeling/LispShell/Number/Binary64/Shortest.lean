import LispShell.Number.Binary64.Basic
import LispShell.Number.Numeral

set_option autoImplicit false

/-!
# The shortest decimal that rounds to a magnitude

Every magnitude of the 64-bit format is the nearest one to all rationals of an interval: the points
half way to its two neighbours bound it, and belong to it when its rank is even.  Of the decimals in
the interval the shortest is wanted, and of several shortest the nearest to the magnitude; an exact
tie goes up.

A decimal with `n` significant digits lies on a grid, and if any grid point lies in the interval, so
does one of the two grid points next to the magnitude.  So one digit is tried first, then two, and
so on; seventeen always suffice.
-/

namespace LispShell

/-! ## Intervals -/

/-- The rationals that round to one magnitude. -/
structure RoundingInterval where
  lower : Rat
  upper : Rat
  closed : Bool
  deriving DecidableEq, Repr

namespace RoundingInterval

/-- The interval around the magnitude of a positive rank. -/
def ofRank (rank : Nat) : RoundingInterval where
  lower := (magnitudeOf (rank - 1) + magnitudeOf rank) / 2
  upper := (magnitudeOf rank + magnitudeOf (rank + 1)) / 2
  closed := rank % 2 = 0

/-- The rational lies in the interval. -/
def contains (i : RoundingInterval) (r : Rat) : Bool :=
  if i.closed then i.lower ≤ r && r ≤ i.upper else i.lower < r && r < i.upper

end RoundingInterval

/-! ## Decimals -/

/-- The decimal number `coefficient · 10 ^ exponent`. -/
structure Decimal where
  coefficient : Nat
  exponent : Int
  deriving DecidableEq, Repr, Inhabited

namespace Decimal

/-- The rational that a decimal denotes. -/
def value (d : Decimal) : Rat :=
  timesPowerOfTen d.coefficient d.exponent

/-- The magnitude of a rank, written out in full. -/
def ofRank (rank : Nat) : Decimal :=
  match significand rank with
  | (scaled, .ofNat e) => ⟨scaled * Nat.pow 2 e, 0⟩
  | (scaled, .negSucc e) => ⟨scaled * Nat.pow 5 (e + 1), -((e : Int) + 1)⟩

/-- Of the two multiples of `10 ^ place` next to `r` the one in the interval, and the nearer if both
are. -/
def onGrid? (i : RoundingInterval) (r : Rat) (place : Int) : Option Decimal :=
  let quotient := (r / (10 : Rat) ^ place).floor.toNat
  let below : Decimal := ⟨quotient, place⟩
  let above : Decimal := ⟨quotient + 1, place⟩
  match i.contains below.value, i.contains above.value with
  | true, true => some (if r - below.value < above.value - r then below else above)
  | true, false => some below
  | false, true => some above
  | false, false => none

/-- The shortest decimal that rounds to the magnitude of a positive rank, and the nearest to it of
those.  The full expansion stands for the case, which does not arise, that seventeen digits fail. -/
def shortest (rank : Nat) : Decimal :=
  let r := magnitudeOf rank
  let leading := floorLog 10 r
  ((List.range 17).findSome? fun (places : Nat) =>
    onGrid? (.ofRank rank) r (leading - places)).getD (ofRank rank)

/-- The significant digits: those of the coefficient without the zeros at its end. -/
def digits (d : Decimal) : List Char :=
  ((Nat.toDigits 10 d.coefficient).reverse.dropWhile (· == '0')).reverse

/-- The exponent of ten that belongs to the first digit. -/
def firstPlace (d : Decimal) : Int :=
  d.exponent + (Nat.toDigits 10 d.coefficient).length - 1

end Decimal

end LispShell
