import LispShell.Number.Binary64.Basic
import Mathlib.Algebra.Order.Field.Rat
import Mathlib.Algebra.Order.Group.Abs
import Mathlib.Data.Rat.Floor
import Mathlib.Order.Monotone.Basic
import Mathlib.Tactic.FieldSimp
import Mathlib.Tactic.Linarith

set_option autoImplicit false

/-!
# Rounding to the nearest magnitude

`IsNearestRank` says what rounding is to do: no magnitude is nearer, and of two that are equally
near the one of even rank is taken.  `nearestRank` does this for every rational that is not negative
(`nearestRank_eq_iff`).

The magnitudes of a binade are multiples of its unit, and so is the first one past it
(`magnitudeOf_binade`).  Within a binade, rounding is therefore rounding to an integer, and since
magnitudes ascend with their ranks, those of other binades are no nearer than the ends of this one.
-/

namespace LispShell

/-! ## The integral logarithm -/

section

variable {base : Nat} {r : Rat}

/-- The digits of a natural number tell between which powers of the base it lies. -/
theorem pow_le_of_length_toDigits (hbase : 1 < base) {n : Nat} (hn : 0 < n) :
    base ^ ((Nat.toDigits base n).length - 1) ≤ n ∧ n < base ^ (Nat.toDigits base n).length := by
  have hpos : 0 < (Nat.toDigits base n).length := Nat.length_toDigits_pos
  refine ⟨?_, (Nat.length_toDigits_le_iff hbase hpos).mp le_rfl⟩
  by_cases hone : (Nat.toDigits base n).length = 1
  · rw [hone, Nat.sub_self, Nat.pow_zero]
    exact hn
  · have hless := mt (Nat.length_toDigits_le_iff (n := n) hbase
      (show 0 < (Nat.toDigits base n).length - 1 by omega)).mpr (by omega)
    exact Nat.le_of_not_lt hless

/-- The logarithm is the exponent of the largest power of the base that does not exceed the
rational. -/
theorem floorLog_spec (hbase : 1 < base) (hr : 0 < r) :
    (base : Rat) ^ floorLog base r ≤ r ∧ r < (base : Rat) ^ (floorLog base r + 1) := by
  have hnum : 0 < r.num.natAbs := Int.natAbs_pos.mpr (Rat.num_pos.mpr hr).ne'
  obtain ⟨hnumLow, hnumHigh⟩ := pow_le_of_length_toDigits hbase hnum
  obtain ⟨hdenLow, hdenHigh⟩ := pow_le_of_length_toDigits hbase r.den_pos
  have hnumLength : 0 < (Nat.toDigits base r.num.natAbs).length := Nat.length_toDigits_pos
  have hdenLength : 0 < (Nat.toDigits base r.den).length := Nat.length_toDigits_pos
  have hratio : r = r.num.natAbs / r.den := by
    rw [← Int.cast_natCast, Int.natAbs_of_nonneg (Rat.num_pos.mpr hr).le, Rat.num_div_den]
  unfold floorLog
  generalize (Nat.toDigits base r.num.natAbs).length = a at *
  generalize (Nat.toDigits base r.den).length = b at *
  have hbase' : (0 : Rat) < base := by exact_mod_cast Nat.zero_lt_of_lt hbase
  have hden : (0 : Rat) < r.den := by exact_mod_cast r.den_pos
  -- The lengths alone leave two exponents to choose from.
  have hupper : r < (base : Rat) ^ ((a : Int) - b + 1) := by
    rw [hratio, div_lt_iff₀ hden]
    calc (r.num.natAbs : Rat) < (base : Rat) ^ a := by exact_mod_cast hnumHigh
      _ = (base : Rat) ^ ((a : Int) - b + 1) * (base : Rat) ^ (b - 1) := by
        rw [← zpow_natCast, ← zpow_natCast, ← zpow_add₀ hbase'.ne']
        congr 1
        omega
      _ ≤ (base : Rat) ^ ((a : Int) - b + 1) * r.den :=
        mul_le_mul_of_nonneg_left (by exact_mod_cast hdenLow) (zpow_pos hbase' _).le
  have hlower : (base : Rat) ^ ((a : Int) - b - 1) ≤ r := by
    rw [hratio, le_div_iff₀ hden]
    calc (base : Rat) ^ ((a : Int) - b - 1) * r.den
        ≤ (base : Rat) ^ ((a : Int) - b - 1) * (base : Rat) ^ b :=
        mul_le_mul_of_nonneg_left (by exact_mod_cast hdenHigh.le) (zpow_pos hbase' _).le
      _ = (base : Rat) ^ (a - 1) := by
        rw [← zpow_natCast, ← zpow_natCast, ← zpow_add₀ hbase'.ne']
        congr 1
        omega
      _ ≤ r.num.natAbs := by exact_mod_cast hnumLow
  dsimp only
  split
  next hle => exact ⟨hle, hupper⟩
  next hlt => exact ⟨hlower, by rw [Int.sub_add_cancel]; exact lt_of_not_ge hlt⟩

end

/-! ## Rounding to an integer -/

/-- The rounded rational is at most a half away, and even if it is a half away. -/
theorem abs_sub_roundHalfEven (x : Rat) :
    |x - roundHalfEven x| ≤ 1 / 2 ∧
      (|x - roundHalfEven x| = 1 / 2 → roundHalfEven x % 2 = 0) := by
  have hfloor : (x.floor : Rat) ≤ x := Rat.floor_le x
  have hceil : x < x.floor + 1 := by exact_mod_cast Rat.lt_floor_add_one x
  have habove : |x - ((x.floor + 1 : Int) : Rat)| = x.floor + 1 - x := by
    rw [abs_of_nonpos (by push_cast; linarith)]
    push_cast
    ring
  have hbelow : |x - (x.floor : Rat)| = x - x.floor := abs_of_nonneg (by linarith)
  unfold roundHalfEven
  dsimp only
  split_ifs with hlow hhigh heven
  · exact ⟨by linarith, fun htie => by linarith⟩
  · exact ⟨by linarith, fun htie => by linarith⟩
  · exact ⟨by linarith, fun _ => heven⟩
  · exact ⟨by linarith, fun _ => by omega⟩

/-- No integer is nearer, and if another is as near the rounded one is even. -/
theorem roundHalfEven_nearest (x : Rat) (n : Int) :
    |x - roundHalfEven x| ≤ |x - n| ∧
      (n ≠ roundHalfEven x → |x - roundHalfEven x| = |x - n| → roundHalfEven x % 2 = 0) := by
  obtain ⟨hhalf, heven⟩ := abs_sub_roundHalfEven x
  by_cases hn : n = roundHalfEven x
  · rw [hn]
    exact ⟨le_rfl, fun hne => absurd rfl hne⟩
  -- Two integers are at least one apart, so the other one is at least a half away.
  have hapart : (1 : Rat) ≤ |(n : Rat) - roundHalfEven x| := by
    exact_mod_cast Int.one_le_abs (sub_ne_zero.mpr hn)
  have htriangle : |(n : Rat) - roundHalfEven x| ≤ |x - n| + |x - roundHalfEven x| := by
    rw [abs_sub_comm x n]
    exact abs_sub_le _ _ _
  exact ⟨by linarith, fun _ htie => heven (by linarith)⟩

theorem le_roundHalfEven {x : Rat} {n : Int} (h : (n : Rat) ≤ x) : n ≤ roundHalfEven x := by
  obtain ⟨-, hhalf⟩ := abs_le.mp (abs_sub_roundHalfEven x).1
  have hlt : (n : Rat) < (roundHalfEven x + 1 : Int) := by
    push_cast
    linarith
  exact Int.le_of_lt_add_one (Int.cast_lt.mp hlt)

theorem roundHalfEven_le {x : Rat} {n : Int} (h : x ≤ n) : roundHalfEven x ≤ n := by
  obtain ⟨hhalf, -⟩ := abs_le.mp (abs_sub_roundHalfEven x).1
  have hlt : (roundHalfEven x : Rat) < (n + 1 : Int) := by
    push_cast
    linarith
  exact Int.le_of_lt_add_one (Int.cast_lt.mp hlt)

/-- No multiple of a unit is nearer than the rounded one, and if another is as near the rounded one
is even. -/
theorem roundHalfEven_div_nearest {r unit : Rat} (hunit : 0 < unit) {n : Nat}
    (hn : roundHalfEven (r / unit) = n) (m : Nat) :
    |r - n * unit| ≤ |r - m * unit| ∧
      (m ≠ n → |r - n * unit| = |r - m * unit| → n % 2 = 0) := by
  have hdistance (k : Nat) : |r - k * unit| = |r / unit - k| * unit := by
    rw [← abs_of_pos hunit, ← abs_mul, abs_of_pos hunit, sub_mul, div_mul_cancel₀ _ hunit.ne']
  obtain ⟨hle, heven⟩ := roundHalfEven_nearest (r / unit) m
  rw [hn] at hle heven
  rw [hdistance, hdistance]
  refine ⟨mul_le_mul_of_nonneg_right hle hunit.le, fun hne htie => ?_⟩
  have htie := mul_right_cancel₀ hunit.ne' htie
  exact_mod_cast heven (by exact_mod_cast hne) htie

/-! ## Magnitudes -/

/-- The distance of the magnitudes in a binade; the first two binades have the same. -/
def binadeUnit (e : Nat) : Rat :=
  (2 : Rat) ^ ((e : Int) - 1074)

theorem binadeUnit_pos (e : Nat) : 0 < binadeUnit e :=
  zpow_pos (by decide) _

theorem binadeUnit_succ (e : Nat) : binadeUnit (e + 1) = 2 * binadeUnit e := by
  rw [binadeUnit, binadeUnit, mul_comm, ← zpow_add_one₀ (by decide)]
  congr 1
  push_cast
  ring

theorem ranksPerBinade_mul_binadeUnit (e : Nat) :
    (ranksPerBinade : Rat) * binadeUnit e = 2 ^ ((e : Int) - 1022) := by
  rw [binadeUnit, show (e : Int) - 1022 = 52 + (e - 1074) by ring, zpow_add₀ (by decide)]
  norm_num [ranksPerBinade]

/-- The magnitudes of a binade, and the first one past it, are multiples of its unit. -/
theorem magnitudeOf_binade {e n : Nat} (hn : n ≤ 2 * ranksPerBinade)
    (he : e = 0 ∨ ranksPerBinade ≤ n) :
    magnitudeOf (e * ranksPerBinade + n) = n * binadeUnit e := by
  have hpos : 0 < ranksPerBinade := by decide
  have hmod : (e * ranksPerBinade + n) % ranksPerBinade = n % ranksPerBinade :=
    Nat.mul_add_mod_self_right e ranksPerBinade n
  have hdiv : (e * ranksPerBinade + n) / ranksPerBinade = e + n / ranksPerBinade := by
    rw [Nat.add_comm, Nat.add_mul_div_right _ _ hpos, Nat.add_comm]
  by_cases hfirst : n < ranksPerBinade
  · obtain rfl : e = 0 := he.resolve_right (Nat.not_le_of_lt hfirst)
    simp [magnitudeOf, significand, hfirst, binadeUnit]
  have hle : ranksPerBinade ≤ e * ranksPerBinade + n := by omega
  rw [magnitudeOf, significand, if_neg (Nat.not_lt_of_le hle), hmod, hdiv]
  dsimp only
  by_cases hlast : n = 2 * ranksPerBinade
  · -- The first magnitude of the next binade.
    subst hlast
    rw [Nat.mul_mod_left, Nat.mul_div_left _ hpos, Nat.add_zero]
    have hexponent : ((e + 2 : Nat) : Int) - 1075 = ((e + 1 : Nat) : Int) - 1074 := by omega
    rw [hexponent, ← binadeUnit, binadeUnit_succ]
    push_cast
    ring
  · have hquotient : n / ranksPerBinade = 1 := Nat.div_eq_of_lt_le (by omega) (by omega)
    have hrest : n % ranksPerBinade = n - ranksPerBinade := by
      rw [Nat.mod_eq_sub_mod (by omega), Nat.mod_eq_of_lt (by omega)]
    have hexponent : ((e + 1 : Nat) : Int) - 1075 = (e : Int) - 1074 := by omega
    rw [hquotient, hrest, hexponent, Nat.add_sub_cancel' (by omega), ← binadeUnit]

/-- Every rank is in a binade. -/
theorem exists_binade (rank : Nat) : ∃ e n, rank = e * ranksPerBinade + n ∧
    n < 2 * ranksPerBinade ∧ (e = 0 ∨ ranksPerBinade ≤ n) := by
  by_cases hfirst : rank < ranksPerBinade
  · exact ⟨0, rank, by omega, by omega, .inl rfl⟩
  · have hdiv := Nat.div_add_mod rank ranksPerBinade
    have hmod := Nat.mod_lt rank (show 0 < ranksPerBinade by decide)
    have hquotient : 0 < rank / ranksPerBinade :=
      Nat.div_pos (Nat.le_of_not_lt hfirst) (by decide)
    refine ⟨rank / ranksPerBinade - 1, ranksPerBinade + rank % ranksPerBinade, ?_, by omega,
      .inr (Nat.le_add_right _ _)⟩
    obtain ⟨q, hq⟩ := Nat.exists_eq_succ_of_ne_zero hquotient.ne'
    rw [hq, Nat.succ_sub_one]
    rw [hq, Nat.mul_succ, Nat.mul_comm] at hdiv
    omega

/-- The magnitude after that of a rank is a unit larger. -/
theorem magnitudeOf_succ {e n : Nat} (hn : n < 2 * ranksPerBinade)
    (he : e = 0 ∨ ranksPerBinade ≤ n) :
    magnitudeOf (e * ranksPerBinade + n + 1) =
      magnitudeOf (e * ranksPerBinade + n) + binadeUnit e := by
  rw [Nat.add_assoc, magnitudeOf_binade hn (he.imp_right Nat.le_succ_of_le),
    magnitudeOf_binade hn.le he]
  push_cast
  ring

theorem magnitudeOf_strictMono : StrictMono magnitudeOf := by
  refine strictMono_nat_of_lt_succ fun rank => ?_
  obtain ⟨e, n, rfl, hn, he⟩ := exists_binade rank
  rw [magnitudeOf_succ hn he]
  exact lt_add_of_pos_right _ (binadeUnit_pos e)

theorem magnitudeOf_zero : magnitudeOf 0 = 0 := by
  simp [magnitudeOf, significand, ranksPerBinade]

theorem magnitudeOf_nonneg (rank : Nat) : 0 ≤ magnitudeOf rank :=
  mul_nonneg (Nat.cast_nonneg _) (zpow_nonneg zero_le_two _)

theorem magnitudeOf_pos {rank : Nat} (hrank : 0 < rank) : 0 < magnitudeOf rank :=
  magnitudeOf_zero ▸ magnitudeOf_strictMono hrank

/-- Only the first magnitude is zero. -/
theorem magnitudeOf_eq_zero_iff (rank : Nat) : magnitudeOf rank = 0 ↔ rank = 0 := by
  rw [← magnitudeOf_zero, magnitudeOf_strictMono.injective.eq_iff]

/-! ## Rounding -/

/-- No magnitude is nearer to the rational, and if another one is as near the rank is even. -/
structure IsNearestRank (r : Rat) (rank : Nat) : Prop where
  nearest : ∀ other, |r - magnitudeOf rank| ≤ |r - magnitudeOf other|
  even : ∀ other, other ≠ rank → |r - magnitudeOf rank| = |r - magnitudeOf other| → rank % 2 = 0

section

variable {r : Rat} {rank : Nat}

/-- A positive rational is in a binade, and is rounded to a multiple of its unit. -/
theorem exists_nearestRank_eq (hr : 0 < r) : ∃ e n : Nat,
    nearestRank r = e * ranksPerBinade + n ∧ roundHalfEven (r / binadeUnit e) = n ∧
      n ≤ 2 * ranksPerBinade ∧ r < (2 * ranksPerBinade : Nat) * binadeUnit e ∧
      (e = 0 ∨ ranksPerBinade ≤ n ∧ ranksPerBinade * binadeUnit e ≤ r) := by
  obtain ⟨hlow, hhigh⟩ := floorLog_spec (show 1 < 2 by decide) hr
  obtain ⟨e, he⟩ : ∃ e : Nat, max (-1074) (floorLog 2 r - 52) = (e : Int) - 1074 :=
    ⟨(max (-1074) (floorLog 2 r - 52) + 1074).toNat, by omega⟩
  have hunit := binadeUnit_pos e
  have hpower : (2 : Rat) ^ max (-1074) (floorLog 2 r - 52) = binadeUnit e := by
    rw [he, binadeUnit]
  have hbelow : r < (2 * ranksPerBinade : Nat) * binadeUnit e := by
    rw [Nat.cast_mul, Nat.cast_ofNat, mul_assoc, mul_left_comm, ← binadeUnit_succ,
      ranksPerBinade_mul_binadeUnit]
    exact hhigh.trans_le (zpow_le_zpow_right₀ (by decide) (by omega))
  have habove (hfirst : e ≠ 0) : ranksPerBinade * binadeUnit e ≤ r := by
    rw [ranksPerBinade_mul_binadeUnit]
    exact (zpow_le_zpow_right₀ (by decide) (by omega)).trans hlow
  -- The rounded number of units is in the bounds that the number of units is in.
  have hnonneg : 0 ≤ roundHalfEven (r / binadeUnit e) :=
    le_roundHalfEven (by exact_mod_cast (div_pos hr hunit).le)
  obtain ⟨n, hn⟩ := Int.eq_ofNat_of_zero_le hnonneg
  refine ⟨e, n, ?_, hn, ?_, hbelow, or_iff_not_imp_left.mpr fun hfirst => ⟨?_, habove hfirst⟩⟩
  · rw [nearestRank, if_neg hr.ne']
    dsimp only
    rw [hpower, he, Int.sub_add_cancel, Int.toNat_natCast, hn, Int.toNat_natCast]
  · rw [← Int.ofNat_le, ← hn]
    exact roundHalfEven_le (by exact_mod_cast ((div_lt_iff₀ hunit).mpr hbelow).le)
  · rw [← Int.ofNat_le, ← hn]
    exact le_roundHalfEven (by exact_mod_cast (le_div_iff₀ hunit).mpr (habove hfirst))

/-- A magnitude that is not in a binade is farther from the rationals of the binade than one of its
ends is. -/
theorem binade_cases {e : Nat} (hbelow : r < (2 * ranksPerBinade : Nat) * binadeUnit e)
    (habove : e = 0 ∨ ranksPerBinade * binadeUnit e ≤ r) (other : Nat) :
    (∃ m, other = e * ranksPerBinade + m ∧ m ≤ 2 * ranksPerBinade ∧
        (e = 0 ∨ ranksPerBinade ≤ m)) ∨
      ∃ m : Nat, |r - m * binadeUnit e| < |r - magnitudeOf other| := by
  by_cases hpast : e * ranksPerBinade + 2 * ranksPerBinade < other
  · have hlt := magnitudeOf_strictMono hpast
    rw [magnitudeOf_binade le_rfl (.inr (by omega))] at hlt
    refine .inr ⟨2 * ranksPerBinade, ?_⟩
    rw [abs_of_neg (by linarith), abs_of_neg (by linarith)]
    linarith
  by_cases hfirst : e = 0
  · subst hfirst
    exact .inl ⟨other, by omega, by omega, .inl rfl⟩
  by_cases hbefore : other < e * ranksPerBinade + ranksPerBinade
  · have hbegin := habove.resolve_left hfirst
    have hlt := magnitudeOf_strictMono hbefore
    rw [magnitudeOf_binade (by omega) (.inr le_rfl)] at hlt
    refine .inr ⟨ranksPerBinade, ?_⟩
    rw [abs_of_nonneg (by linarith), abs_of_pos (by linarith)]
    linarith
  · exact .inl ⟨other - e * ranksPerBinade, by omega, by omega, .inr (by omega)⟩

theorem isNearestRank_nearestRank (hr : 0 ≤ r) : IsNearestRank r (nearestRank r) := by
  obtain rfl | hr := hr.eq_or_lt
  · have hzero : nearestRank 0 = 0 := if_pos rfl
    rw [hzero]
    exact ⟨fun other => by simp [magnitudeOf_zero], fun _ _ _ => rfl⟩
  obtain ⟨e, n, hrank, hround, hn, hbelow, he⟩ := exists_nearestRank_eq hr
  have hmagnitude : magnitudeOf (e * ranksPerBinade + n) = n * binadeUnit e :=
    magnitudeOf_binade hn (he.imp_right And.left)
  have hparity : (e * ranksPerBinade + n) % 2 = n % 2 := by
    unfold ranksPerBinade
    omega
  have hmultiple := roundHalfEven_div_nearest (binadeUnit_pos e) hround
  have hcases := binade_cases hbelow (he.imp_right And.right)
  rw [hrank]
  constructor
  · intro other
    rw [hmagnitude]
    obtain ⟨m, rfl, hm, hfirst⟩ | ⟨m, hfarther⟩ := hcases other
    · rw [magnitudeOf_binade hm hfirst]
      exact (hmultiple m).1
    · exact (hmultiple m).1.trans hfarther.le
  · intro other hne htie
    rw [hmagnitude] at htie
    rw [hparity]
    obtain ⟨m, rfl, hm, hfirst⟩ | ⟨m, hfarther⟩ := hcases other
    · rw [magnitudeOf_binade hm hfirst] at htie
      exact (hmultiple m).2 (fun heq => hne (by rw [heq])) htie
    · exact absurd htie ((hmultiple m).1.trans_lt hfarther).ne

/-- There is only one nearest magnitude of which the rule for ties allows the rank. -/
theorem IsNearestRank.eq {j k : Nat} (hj : IsNearestRank r j) (hk : IsNearestRank r k) : j = k := by
  by_contra hne
  wlog hlt : j < k generalizing j k
  · exact this hk hj (Ne.symm hne) (by omega)
  have htie : |r - magnitudeOf j| = |r - magnitudeOf k| := le_antisymm (hj.nearest k) (hk.nearest j)
  have hjk := magnitudeOf_strictMono hlt
  have heven := hj.even k (Ne.symm hne) htie
  have heven' := hk.even j hne htie.symm
  -- Both are even, so there is a magnitude between them, which is nearer.
  have hbefore := magnitudeOf_strictMono (Nat.lt_succ_self j)
  have hafter : magnitudeOf (j + 1) < magnitudeOf k := magnitudeOf_strictMono (by omega)
  have hnearest := hj.nearest (j + 1)
  have hmiddle : r - magnitudeOf j = magnitudeOf k - r := by
    obtain heq | heq := abs_eq_abs.mp htie
    · linarith
    · linarith
  rw [abs_of_pos (by linarith)] at hnearest
  rcases abs_cases (r - magnitudeOf (j + 1)) with ⟨habs, -⟩ | ⟨habs, -⟩
  · linarith
  · linarith

/-- Rounding takes the nearest magnitude, and the even rank of two that are equally near. -/
theorem nearestRank_eq_iff (hr : 0 ≤ r) : nearestRank r = rank ↔ IsNearestRank r rank := by
  constructor
  · rintro rfl
    exact isNearestRank_nearestRank hr
  · exact (isNearestRank_nearestRank hr).eq

end

end LispShell
