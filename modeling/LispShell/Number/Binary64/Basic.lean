import LispShell.Number.Logarithm

set_option autoImplicit false

/-!
# Binary floating-point numbers of 64 bits

A finite number of the format is a sign and a magnitude, and the magnitudes, in ascending order, are
numbered `0, 1, 2, …` by their bit patterns.  That number, the `rank`, is all a finite value stores:

* the magnitude of rank `k` is `k · 2 ^ -1074` for the first `2 ^ 53` ranks, and from there on the
  spacing doubles after each `2 ^ 52` ranks;
* the neighbours of a magnitude have the neighbouring ranks, so rounding and the interval that
  rounds to a value are said in ranks;
* the first rank past the finite ones has the magnitude `2 ^ 1024`, where infinity begins.

Rounding takes an exact rational to the nearest value, and to the even rank from half way.
-/

namespace LispShell

/-! ## Magnitudes -/

/-- The number of ranks that share one spacing. -/
def ranksPerBinade : Nat := 4503599627370496

/-- The number of finite magnitudes, which is also the rank of infinity. -/
def finiteRanks : Nat := 2047 * ranksPerBinade

/-- The integral part of a rank's magnitude and the exponent of two that it is scaled by. -/
def significand (rank : Nat) : Nat × Int :=
  if rank < ranksPerBinade then (rank, -1074)
  else (ranksPerBinade + rank % ranksPerBinade, (rank / ranksPerBinade : Nat) - 1075)

/-- The magnitude of a rank. -/
def magnitudeOf (rank : Nat) : Rat :=
  let (scaled, exponent) := significand rank
  scaled * (2 : Rat) ^ exponent

/-- The integer nearest to a rational, the even one of two that are equally near. -/
def roundHalfEven (r : Rat) : Int :=
  let below := r.floor
  let excess := r - below
  if excess < 1 / 2 then below
  else if 1 / 2 < excess then below + 1
  else if below % 2 = 0 then below else below + 1

/-- The rank whose magnitude is nearest to a rational that is not negative.  In the binade of `r`
the spacing is `2 ^ exponent`; rounding up out of the binade carries into the next. -/
def nearestRank (r : Rat) : Nat :=
  if r = 0 then 0
  else
    let exponent := max (-1074) (floorLog 2 r - 52)
    (exponent + 1074).toNat * ranksPerBinade + (roundHalfEven (r / (2 : Rat) ^ exponent)).toNat

/-! ## Values -/

/-- A 64-bit binary floating-point number.  All not-a-number patterns are one value. -/
inductive Binary64 where
  /-- not a number -/
  | nan
  /-- the infinity of either sign -/
  | infinite (negative : Bool)
  /-- a signed magnitude; zero has both signs -/
  | finite (negative : Bool) (rank : Fin finiteRanks)
  deriving DecidableEq, Repr

namespace Binary64

/-- Zero, with a sign. -/
def zero (negative : Bool) : Binary64 :=
  .finite negative ⟨0, by decide⟩

instance : Inhabited Binary64 := ⟨zero false⟩

/-- The value of a sign and a rank; ranks past the finite ones are infinite. -/
def ofRank (negative : Bool) (rank : Nat) : Binary64 :=
  if h : rank < finiteRanks then .finite negative ⟨rank, h⟩ else .infinite negative

/-- The exact value of a finite number. -/
def toRat? : Binary64 → Option Rat
  | .finite negative rank =>
    some (if negative then -magnitudeOf rank else magnitudeOf rank)
  | .nan => none
  | .infinite _ => none

/-- The value nearest to a magnitude, with a sign. -/
def round (negative : Bool) (magnitude : Rat) : Binary64 :=
  ofRank negative (nearestRank magnitude)

/-- The value nearest to a rational. -/
def ofRat (r : Rat) : Binary64 :=
  if r < 0 then round true (-r) else round false r

/-- The number is finite. -/
def isFinite : Binary64 → Bool
  | .finite _ _ => true
  | .nan => false
  | .infinite _ => false

/-- The number is a zero of either sign. -/
def isZero : Binary64 → Bool
  | .finite _ rank => rank.val == 0
  | .nan => false
  | .infinite _ => false

/-- Exactly the finite numbers have an exact value. -/
theorem isSome_toRat? (x : Binary64) : x.toRat?.isSome = x.isFinite := by
  cases x <;> rfl

/-! ## Bit patterns -/

/-- The number that a bit pattern stands for: the top bit is the sign, the others the rank. -/
def ofBits (bits : UInt64) : Binary64 :=
  let negative := bits.toNat / 9223372036854775808 == 1
  let rank := bits.toNat % 9223372036854775808
  if rank ≤ finiteRanks then ofRank negative rank else .nan

/-- The bit pattern of a number; of the patterns of not-a-number, the quiet positive one. -/
def toBits (x : Binary64) : UInt64 :=
  let signed (negative : Bool) (rank : Nat) : UInt64 :=
    UInt64.ofNat (if negative then 9223372036854775808 + rank else rank)
  match x with
  | .nan => 0x7FF8000000000000
  | .infinite negative => signed negative finiteRanks
  | .finite negative rank => signed negative rank

end Binary64

end LispShell
