import LispShell.Number.Binary64.Shortest
import LispShell.Proofs.Rounding
import Mathlib.Data.List.TakeWhile

set_option autoImplicit false

/-!
# The shortest decimal of a magnitude

`Decimal.IsShortest` says what is wanted of a decimal for a magnitude: it rounds to it, no decimal
with fewer digits does, and of those with as many digits none is nearer.  `Decimal.shortest` is such
a decimal (`isShortest_shortest`).

The rationals that round to a magnitude are those of its interval
(`RoundingInterval.contains_ofRank_iff`), and the interval has no gaps.  A decimal of few digits may
lie off the grid that is searched for this number of digits, but then it is smaller than all
rationals with the first place of the magnitude.  So there is always a point of the grid between it
and the magnitude (`exists_grid_between`), in the interval with both, and to look at the two points
next to the magnitude is enough.  On the grid of the seventeenth digit these are closer together
than the ends of the interval are, and one of them lies in it.
-/

namespace LispShell

/-! ## The interval -/

section

variable {a b v : Rat}

theorem abs_sub_right_le_iff (h : a < b) : |v - b| ≤ |v - a| ↔ (a + b) / 2 ≤ v := by
  rw [← sq_le_sq, ← sub_nonneg]
  have hfactor : (v - a) ^ 2 - (v - b) ^ 2 = 2 * (b - a) * (v - (a + b) / 2) := by ring
  rw [hfactor, mul_nonneg_iff_of_pos_left (by linarith), sub_nonneg]

theorem abs_sub_left_le_iff (h : a < b) : |v - a| ≤ |v - b| ↔ v ≤ (a + b) / 2 := by
  rw [← sq_le_sq, ← sub_nonneg]
  have hfactor : (v - b) ^ 2 - (v - a) ^ 2 = 2 * (b - a) * ((a + b) / 2 - v) := by ring
  rw [hfactor, mul_nonneg_iff_of_pos_left (by linarith), sub_nonneg]

/-- A rational is as near to two others just if it is half way between them. -/
theorem abs_sub_eq_iff (h : a < b) : |v - a| = |v - b| ↔ v = (a + b) / 2 := by
  rw [le_antisymm_iff, abs_sub_left_le_iff h, abs_sub_right_le_iff h, ← le_antisymm_iff]

end

namespace RoundingInterval

variable {rank : Nat} {v : Rat}

theorem contains_ofRank_eq : (ofRank rank).contains v = true ↔
    (ofRank rank).lower ≤ v ∧ v ≤ (ofRank rank).upper ∧
      (v = (ofRank rank).lower ∨ v = (ofRank rank).upper → rank % 2 = 0) := by
  by_cases heven : rank % 2 = 0
  · simp [contains, ofRank, heven]
  · simp only [contains, ofRank, heven, decide_false, Bool.false_eq_true, if_false,
      Bool.and_eq_true, decide_eq_true_eq, imp_false, not_or]
    constructor
    · rintro ⟨hlower, hupper⟩
      exact ⟨hlower.le, hupper.le, hlower.ne', hupper.ne⟩
    · rintro ⟨hlower, hupper, hne, hne'⟩
      exact ⟨lt_of_le_of_ne hlower (Ne.symm hne), lt_of_le_of_ne hupper hne'⟩

/-- The interval holds the rationals that round to the magnitude. -/
theorem contains_ofRank_iff (hrank : 0 < rank) :
    (ofRank rank).contains v = true ↔ IsNearestRank v rank := by
  have hbefore : magnitudeOf (rank - 1) < magnitudeOf rank := magnitudeOf_strictMono (by omega)
  have hafter : magnitudeOf rank < magnitudeOf (rank + 1) := magnitudeOf_strictMono (by omega)
  rw [contains_ofRank_eq]
  constructor
  · rintro ⟨hlower, hupper, heven⟩
    have hlower' : (magnitudeOf (rank - 1) + magnitudeOf rank) / 2 ≤ v := hlower
    have hupper' : v ≤ (magnitudeOf rank + magnitudeOf (rank + 1)) / 2 := hupper
    constructor
    · intro other
      rcases lt_trichotomy other rank with hlt | rfl | hgt
      · have hle := magnitudeOf_strictMono.monotone (show other ≤ rank - 1 by omega)
        exact (abs_sub_right_le_iff (magnitudeOf_strictMono hlt)).mpr (by linarith)
      · exact le_rfl
      · have hle := magnitudeOf_strictMono.monotone (show rank + 1 ≤ other by omega)
        exact (abs_sub_left_le_iff (magnitudeOf_strictMono hgt)).mpr (by linarith)
    · intro other hne htie
      -- Only a neighbour can be as near, and then the rational is an end of the interval.
      rcases lt_or_gt_of_ne hne with hlt | hgt
      · have hle := magnitudeOf_strictMono.monotone (show other ≤ rank - 1 by omega)
        have hmiddle := (abs_sub_eq_iff (magnitudeOf_strictMono hlt)).mp htie.symm
        exact heven (.inl (le_antisymm (by rw [ofRank]; linarith) hlower))
      · have hle := magnitudeOf_strictMono.monotone (show rank + 1 ≤ other by omega)
        have hmiddle := (abs_sub_eq_iff (magnitudeOf_strictMono hgt)).mp htie
        exact heven (.inr (le_antisymm hupper (by rw [ofRank]; linarith)))
  · intro h
    refine ⟨(abs_sub_right_le_iff hbefore).mp (h.nearest _),
      (abs_sub_left_le_iff hafter).mp (h.nearest _), ?_⟩
    rintro (hend | hend)
    · exact h.even (rank - 1) (by omega) ((abs_sub_eq_iff hbefore).mpr hend).symm
    · exact h.even (rank + 1) (by omega) ((abs_sub_eq_iff hafter).mpr hend)

/-- The magnitude itself is inside its interval. -/
theorem lower_lt_magnitudeOf (hrank : 0 < rank) : (ofRank rank).lower < magnitudeOf rank := by
  have hbefore : magnitudeOf (rank - 1) < magnitudeOf rank := magnitudeOf_strictMono (by omega)
  rw [ofRank]
  linarith

theorem magnitudeOf_lt_upper (rank : Nat) : magnitudeOf rank < (ofRank rank).upper := by
  have hafter := magnitudeOf_strictMono (Nat.lt_succ_self rank)
  rw [ofRank]
  linarith

theorem contains_of_lt (hlower : (ofRank rank).lower < v) (hupper : v < (ofRank rank).upper) :
    (ofRank rank).contains v = true :=
  contains_ofRank_eq.mpr ⟨hlower.le, hupper.le, fun h =>
    h.elim (fun hend => absurd hend hlower.ne') fun hend => absurd hend hupper.ne⟩

/-- With a rational the interval holds all those between it and the magnitude. -/
theorem contains_of_between (hrank : 0 < rank) {x : Rat} (h : (ofRank rank).contains v = true)
    (hx : v ≤ x ∧ x ≤ magnitudeOf rank ∨ magnitudeOf rank ≤ x ∧ x ≤ v) :
    (ofRank rank).contains x = true := by
  have hlower := lower_lt_magnitudeOf hrank
  have hupper := magnitudeOf_lt_upper rank
  by_cases hv : x = v
  · rwa [hv]
  obtain ⟨hlow, hhigh, -⟩ := contains_ofRank_eq.mp h
  rcases hx with ⟨hvx, hxr⟩ | ⟨hrx, hxv⟩
  · have hlt : v < x := lt_of_le_of_ne hvx (Ne.symm hv)
    exact contains_of_lt (by linarith) (by linarith)
  · have hlt : x < v := lt_of_le_of_ne hxv hv
    exact contains_of_lt (by linarith) (by linarith)

/-- The interval is wide enough for a grid of seventeen digits. -/
theorem magnitudeOf_lt_width (hrank : 0 < rank) :
    magnitudeOf rank < 10 ^ 16 * ((ofRank rank).upper - (ofRank rank).lower) := by
  have hwidth : (ofRank rank).upper - (ofRank rank).lower =
      (magnitudeOf (rank + 1) - magnitudeOf (rank - 1)) / 2 := by
    rw [ofRank]
    ring
  rw [hwidth]
  obtain ⟨e, n, rfl, hn, he⟩ := exists_binade rank
  have hpos : 0 < ranksPerBinade := by decide
  have hunit := binadeUnit_pos e
  have hsize : (n : Rat) < 2 * ranksPerBinade := by exact_mod_cast hn
  rw [magnitudeOf_succ hn he, magnitudeOf_binade hn.le he]
  by_cases hfirst : n = ranksPerBinade ∧ e ≠ 0
  · -- The magnitude before has only half the distance.
    obtain ⟨rfl, hne⟩ := hfirst
    obtain ⟨e, rfl⟩ := Nat.exists_eq_succ_of_ne_zero hne
    have hsame : (e + 1) * ranksPerBinade + ranksPerBinade - 1 =
        e * ranksPerBinade + (2 * ranksPerBinade - 1) := by
      rw [Nat.succ_mul]
      omega
    have hbefore := magnitudeOf_binade (e := e) (n := 2 * ranksPerBinade - 1) (by omega)
      (.inr (by omega))
    rw [Nat.succ_eq_add_one, hsame, hbefore, binadeUnit_succ, Nat.cast_sub (by omega)]
    have hunit := binadeUnit_pos e
    norm_num [ranksPerBinade]
    linarith
  · have hn' : 1 ≤ n := by
      obtain rfl | hle := he
      · omega
      · omega
    have hbefore := magnitudeOf_binade (e := e) (n := n - 1) (by omega) (by omega)
    rw [Nat.add_sub_assoc hn', hbefore, Nat.cast_sub hn']
    have hle := mul_lt_mul_of_pos_right hsize hunit
    norm_num [ranksPerBinade] at hle ⊢
    linarith

end RoundingInterval

/-! ## Significant digits -/

namespace Decimal

/-- The digits of the coefficient are the significant ones and zeros after them. -/
theorem exists_toDigits_eq (d : Decimal) : ∃ zeros : Nat,
    Nat.toDigits 10 d.coefficient = d.digits ++ List.replicate zeros '0' := by
  obtain ⟨zeros, hzeros⟩ : ∃ zeros : Nat,
      (Nat.toDigits 10 d.coefficient).reverse.takeWhile (· == '0') =
        List.replicate zeros '0' := by
    refine ⟨_, List.eq_replicate_iff.mpr ⟨rfl, fun c hc => ?_⟩⟩
    simpa using List.mem_takeWhile_imp hc
  refine ⟨zeros, List.reverse_injective ?_⟩
  rw [digits, List.reverse_append, List.reverse_reverse, List.reverse_replicate, ← hzeros,
    List.takeWhile_append_dropWhile]

theorem length_digits_le (d : Decimal) :
    d.digits.length ≤ (Nat.toDigits 10 d.coefficient).length := by
  obtain ⟨zeros, hzeros⟩ := d.exists_toDigits_eq
  rw [hzeros, List.length_append]
  exact Nat.le_add_right _ _

/-- A zero at the end of the coefficient is not significant. -/
theorem digits_mul_ten {c : Nat} (hc : 0 < c) (e e' : Int) :
    digits ⟨10 * c, e⟩ = digits ⟨c, e'⟩ := by
  have hconcat : Nat.toDigits 10 (10 * c) = Nat.toDigits 10 c ++ ['0'] := by
    rw [Nat.toDigits_of_base_le (by decide) (by omega), Nat.mul_div_cancel_left c (by decide),
      Nat.mul_mod_right]
    rfl
  simp [digits, hconcat]

theorem length_digits_pow (n : Nat) (e : Int) : (digits ⟨10 ^ n, e⟩).length = 1 := by
  induction n with
  | zero =>
    have hone : Nat.toDigits 10 1 = ['1'] := Nat.toDigits_of_lt_base (by decide)
    simp [digits, hone]
  | succ n ih => rw [Nat.pow_succ', digits_mul_ten (by positivity) e e, ih]

/-- A coefficient up to a power of ten has no more significant digits than those below it. -/
theorem length_digits_le_of_le {d : Decimal} {n : Nat} (h : d.coefficient ≤ 10 ^ (n + 1)) :
    d.digits.length ≤ n + 1 := by
  obtain heq | hlt := h.eq_or_lt
  · have hdigits : d.digits = digits ⟨10 ^ (n + 1), d.exponent⟩ := by rw [← heq]
    rw [hdigits, length_digits_pow]
    exact Nat.le_add_left 1 n
  · exact d.length_digits_le.trans ((Nat.length_toDigits_le_iff (by decide) n.succ_pos).mpr hlt)

end Decimal

/-! ## Grids -/

section

variable {rank : Nat} {place : Int}

theorem ten_zpow_pos (place : Int) : (0 : Rat) < 10 ^ place :=
  zpow_pos (by decide) place

/-- Between a decimal of few digits and a rational there is a point of the grid for this number of
digits. -/
theorem exists_grid_between {r : Rat} {leading : Int} (hr : (10 : Rat) ^ leading ≤ r)
    {d : Decimal} {places : Nat} (hd : d.coefficient < 10 ^ (places + 1)) :
    ∃ c : Nat, d.value ≤ timesPowerOfTen c (leading - places) ∧
        timesPowerOfTen c (leading - places) ≤ r ∨
      r ≤ timesPowerOfTen c (leading - places) ∧
        timesPowerOfTen c (leading - places) ≤ d.value := by
  by_cases hplace : leading - places ≤ d.exponent
  · -- The decimal is itself on the grid.
    obtain ⟨shift, hshift⟩ := Int.eq_ofNat_of_zero_le (Int.sub_nonneg_of_le hplace)
    have hvalue : timesPowerOfTen (d.coefficient * 10 ^ shift) (leading - places) = d.value := by
      rw [Decimal.value, timesPowerOfTen, timesPowerOfTen,
        show d.exponent = shift + (leading - places) by omega, zpow_add₀ (by decide), zpow_natCast]
      push_cast
      ring
    refine ⟨d.coefficient * 10 ^ shift, ?_⟩
    rw [hvalue]
    rcases le_total d.value r with hle | hle
    · exact .inl ⟨le_rfl, hle⟩
    · exact .inr ⟨hle, le_rfl⟩
  · -- The decimal is smaller than all that have the leading place.
    have hpower : timesPowerOfTen (10 ^ places) (leading - places) = 10 ^ leading := by
      rw [timesPowerOfTen, Nat.cast_pow, ← zpow_natCast, Nat.cast_ofNat, ← zpow_add₀ (by decide)]
      congr 1
      omega
    refine ⟨10 ^ places, .inl ⟨?_, by rwa [hpower]⟩⟩
    rw [hpower, Decimal.value, timesPowerOfTen]
    calc (d.coefficient : Rat) * 10 ^ d.exponent
        ≤ 10 ^ (places + 1) * 10 ^ d.exponent :=
        mul_le_mul_of_nonneg_right (by exact_mod_cast hd.le) (ten_zpow_pos _).le
      _ = 10 ^ (places + 1 + d.exponent) := by
        rw [← zpow_natCast, ← zpow_add₀ (by decide)]
        rfl
      _ ≤ 10 ^ leading := zpow_le_zpow_right₀ (by decide) (by omega)

/-- The number of the last point of a grid that does not exceed a rational. -/
def gridFloor (r : Rat) (place : Int) : Nat :=
  (r / (10 : Rat) ^ place).floor.toNat

theorem gridFloor_spec {r : Rat} (hr : 0 ≤ r) (place : Int) (c : Nat) :
    timesPowerOfTen c place ≤ r ↔ c ≤ gridFloor r place := by
  have hfloor : 0 ≤ (r / (10 : Rat) ^ place).floor :=
    Rat.le_floor_iff.mpr (by exact_mod_cast div_nonneg hr (ten_zpow_pos place).le)
  rw [timesPowerOfTen, ← le_div_iff₀ (ten_zpow_pos place), gridFloor, ← Int.ofNat_le,
    Int.toNat_of_nonneg hfloor, Rat.le_floor_iff]
  norm_cast

theorem timesPowerOfTen_le {a b : Nat} (h : a ≤ b) (place : Int) :
    timesPowerOfTen a place ≤ timesPowerOfTen b place :=
  mul_le_mul_of_nonneg_right (by exact_mod_cast h) (ten_zpow_pos place).le

/-! ## The search -/

/-- The last point of the grid that does not exceed the magnitude. -/
def gridBelow (rank : Nat) (place : Int) : Decimal :=
  ⟨gridFloor (magnitudeOf rank) place, place⟩

/-- The first point of the grid past the magnitude. -/
def gridAbove (rank : Nat) (place : Int) : Decimal :=
  ⟨gridFloor (magnitudeOf rank) place + 1, place⟩

theorem gridBelow_le (rank : Nat) (place : Int) :
    (gridBelow rank place).value ≤ magnitudeOf rank :=
  (gridFloor_spec (magnitudeOf_nonneg rank) place _).mpr le_rfl

theorem lt_gridAbove (rank : Nat) (place : Int) :
    magnitudeOf rank < (gridAbove rank place).value :=
  lt_of_not_ge fun hle => absurd ((gridFloor_spec (magnitudeOf_nonneg rank) place _).mp hle)
    (Nat.not_succ_le_self _)

/-- The point of a grid below the magnitude has no more digits than there are places from the
leading one on. -/
theorem gridFloor_lt (hrank : 0 < rank) (places : Nat) :
    gridFloor (magnitudeOf rank) (floorLog 10 (magnitudeOf rank) - places) < 10 ^ (places + 1) := by
  have hpos := magnitudeOf_pos hrank
  obtain ⟨-, hfirst⟩ := floorLog_spec (show 1 < 10 by decide) hpos
  rw [← not_le, ← gridFloor_spec hpos.le, not_le, timesPowerOfTen, Nat.cast_pow, Nat.cast_ofNat,
    ← zpow_natCast, ← zpow_add₀ (by decide)]
  refine hfirst.trans_eq ?_
  push_cast
  congr 1
  ring

/-- A point of the grid is no nearer to the magnitude than the next one on its side, and the
interval holds this one with it. -/
theorem grid_cases (hrank : 0 < rank) (place : Int) {c : Nat}
    (h : (RoundingInterval.ofRank rank).contains (timesPowerOfTen c place) = true) :
    ((RoundingInterval.ofRank rank).contains (gridBelow rank place).value = true ∧
        magnitudeOf rank - (gridBelow rank place).value ≤
          |magnitudeOf rank - timesPowerOfTen c place|) ∨
      ((RoundingInterval.ofRank rank).contains (gridAbove rank place).value = true ∧
        (gridAbove rank place).value - magnitudeOf rank ≤
          |magnitudeOf rank - timesPowerOfTen c place|) := by
  by_cases hc : c ≤ gridFloor (magnitudeOf rank) place
  · have hle : timesPowerOfTen c place ≤ (gridBelow rank place).value := timesPowerOfTen_le hc place
    have hbelow := gridBelow_le rank place
    refine .inl ⟨RoundingInterval.contains_of_between hrank h (.inl ⟨hle, hbelow⟩), ?_⟩
    rw [abs_of_nonneg (by linarith)]
    linarith
  · have hle : (gridAbove rank place).value ≤ timesPowerOfTen c place :=
      timesPowerOfTen_le (Nat.lt_of_not_le hc) place
    have habove := lt_gridAbove rank place
    refine .inr ⟨RoundingInterval.contains_of_between hrank h (.inr ⟨habove.le, hle⟩), ?_⟩
    rw [abs_of_neg (by linarith)]
    linarith

/-- What is found, in terms of the two points of the grid next to the magnitude. -/
theorem Decimal.onGrid?_eq (rank : Nat) (place : Int) :
    onGrid? (.ofRank rank) (magnitudeOf rank) place =
      match (RoundingInterval.ofRank rank).contains (gridBelow rank place).value,
        (RoundingInterval.ofRank rank).contains (gridAbove rank place).value with
      | true, true =>
        some (if magnitudeOf rank - (gridBelow rank place).value <
            (gridAbove rank place).value - magnitudeOf rank then gridBelow rank place
          else gridAbove rank place)
      | true, false => some (gridBelow rank place)
      | false, true => some (gridAbove rank place)
      | false, false => none :=
  rfl

/-- Where the interval has a point of the grid, something is found. -/
theorem Decimal.onGrid?_ne_none (hrank : 0 < rank) {c : Nat}
    (h : (RoundingInterval.ofRank rank).contains (timesPowerOfTen c place) = true) :
    onGrid? (.ofRank rank) (magnitudeOf rank) place ≠ none := by
  rw [onGrid?_eq]
  obtain ⟨hbelow, -⟩ | ⟨habove, -⟩ := grid_cases hrank place h
  · rw [hbelow]
    split <;> simp_all
  · rw [habove]
    split <;> simp_all

/-- What is found is in the interval, and no point of the grid in the interval is nearer to the
magnitude. -/
theorem Decimal.onGrid?_spec (hrank : 0 < rank) {d : Decimal}
    (h : onGrid? (.ofRank rank) (magnitudeOf rank) place = some d) :
    (d = gridBelow rank place ∨ d = gridAbove rank place) ∧
      (RoundingInterval.ofRank rank).contains d.value = true ∧
      ∀ c : Nat, (RoundingInterval.ofRank rank).contains (timesPowerOfTen c place) = true →
        |magnitudeOf rank - d.value| ≤ |magnitudeOf rank - timesPowerOfTen c place| := by
  have hbelow := gridBelow_le rank place
  have habove := lt_gridAbove rank place
  have hbelow' : |magnitudeOf rank - (gridBelow rank place).value| =
      magnitudeOf rank - (gridBelow rank place).value := abs_of_nonneg (by linarith)
  have habove' : |magnitudeOf rank - (gridAbove rank place).value| =
      (gridAbove rank place).value - magnitudeOf rank := by
    rw [abs_of_neg (by linarith), neg_sub]
  rw [onGrid?_eq] at h
  split at h
  next hin hin' =>
    split_ifs at h with hnearer
    · cases h
      refine ⟨.inl rfl, hin, fun c hc => ?_⟩
      rcases grid_cases hrank place hc with ⟨-, hle⟩ | ⟨-, hle⟩ <;> linarith
    · cases h
      refine ⟨.inr rfl, hin', fun c hc => ?_⟩
      rcases grid_cases hrank place hc with ⟨-, hle⟩ | ⟨-, hle⟩ <;> linarith
  next hin hout =>
    cases h
    refine ⟨.inl rfl, hin, fun c hc => ?_⟩
    rcases grid_cases hrank place hc with ⟨-, hle⟩ | ⟨hin', -⟩
    · linarith
    · simp [hout] at hin'
  next hout hin =>
    cases h
    refine ⟨.inr rfl, hin, fun c hc => ?_⟩
    rcases grid_cases hrank place hc with ⟨hin', -⟩ | ⟨-, hle⟩
    · simp [hout] at hin'
    · linarith
  next => cases h

/-- On the grid of the seventeenth digit something is found. -/
theorem Decimal.onGrid?_seventeen (hrank : 0 < rank) :
    onGrid? (.ofRank rank) (magnitudeOf rank) (floorLog 10 (magnitudeOf rank) - 16) ≠ none := by
  obtain ⟨hleading, -⟩ := floorLog_spec (show 1 < 10 by decide) (magnitudeOf_pos hrank)
  obtain ⟨place, hplace⟩ : ∃ place, place = floorLog 10 (magnitudeOf rank) - 16 := ⟨_, rfl⟩
  rw [← hplace]
  have hwidth := RoundingInterval.magnitudeOf_lt_width hrank
  have hlower := RoundingInterval.lower_lt_magnitudeOf hrank
  have hupper := RoundingInterval.magnitudeOf_lt_upper rank
  have hbelow := gridBelow_le rank place
  have habove := lt_gridAbove rank place
  have hstep : (gridAbove rank place).value = (gridBelow rank place).value + 10 ^ place := by
    simp only [gridAbove, gridBelow, Decimal.value, timesPowerOfTen]
    push_cast
    ring
  have hscale : (10 : Rat) ^ 16 * 10 ^ place ≤ magnitudeOf rank := by
    refine le_trans (le_of_eq ?_) hleading
    rw [hplace, ← zpow_natCast, ← zpow_add₀ (by decide)]
    norm_num
  by_cases hin : (RoundingInterval.ofRank rank).lower < (gridBelow rank place).value
  · exact onGrid?_ne_none hrank (RoundingInterval.contains_of_lt
      (v := (gridBelow rank place).value) hin (by linarith))
  · refine onGrid?_ne_none hrank (RoundingInterval.contains_of_lt
      (v := (gridAbove rank place).value) (by linarith) ?_)
    linarith

/-- The value that is found is the first that there is. -/
theorem exists_of_findSome?_range {α : Type} {f : Nat → Option α} {n : Nat} {found : α}
    (h : (List.range n).findSome? f = some found) :
    ∃ first, f first = some found ∧ ∀ before < first, f before = none := by
  obtain ⟨front, first, rest, hrange, hfirst, hfront⟩ := List.findSome?_eq_some_iff.mp h
  have hlt : front.length < n := by
    have hlength := congrArg List.length hrange
    rw [List.length_range, List.length_append, List.length_cons] at hlength
    omega
  have hbefore : List.range front.length = front := by
    have htake := congrArg (List.take front.length) hrange
    rwa [List.take_range, Nat.min_eq_left hlt.le, List.take_left] at htake
  have hget : front.length = first := by
    have hat := congrArg (fun l => l[front.length]?) hrange
    simpa [List.getElem?_range hlt] using hat
  rw [hget] at hbefore
  exact ⟨first, hfirst, fun before hlt => hfront before (hbefore ▸ List.mem_range.mpr hlt)⟩

namespace Decimal

/-- The shortest decimal is found on the first grid on which one is. -/
theorem exists_onGrid?_eq_shortest (hrank : 0 < rank) : ∃ places : Nat,
    onGrid? (.ofRank rank) (magnitudeOf rank) (floorLog 10 (magnitudeOf rank) - places) =
        some (shortest rank) ∧
      ∀ fewer < places,
        onGrid? (.ofRank rank) (magnitudeOf rank)
          (floorLog 10 (magnitudeOf rank) - (fewer : Nat)) = none := by
  have hfound : (List.range 17).findSome? (fun (places : Nat) =>
      onGrid? (.ofRank rank) (magnitudeOf rank) (floorLog 10 (magnitudeOf rank) - places)) =
        some (shortest rank) := by
    rw [shortest]
    cases hsearch : (List.range 17).findSome? fun (places : Nat) =>
        onGrid? (.ofRank rank) (magnitudeOf rank) (floorLog 10 (magnitudeOf rank) - places) with
    | some d => rfl
    | none =>
      have hnone := List.findSome?_eq_none_iff.mp hsearch 16 (by simp)
      exact absurd hnone (onGrid?_seventeen hrank)
  exact exists_of_findSome?_range hfound

/-- With a decimal of few digits the interval has a point of the grid for this number of digits that
is no farther from the magnitude. -/
theorem exists_contains_grid (hrank : 0 < rank) {d : Decimal} {places : Nat}
    (hd : IsNearestRank d.value rank) (hsmall : d.coefficient < 10 ^ (places + 1)) :
    ∃ c : Nat, (RoundingInterval.ofRank rank).contains
        (timesPowerOfTen c (floorLog 10 (magnitudeOf rank) - places)) = true ∧
      |magnitudeOf rank - timesPowerOfTen c (floorLog 10 (magnitudeOf rank) - places)| ≤
        |magnitudeOf rank - d.value| := by
  obtain ⟨hleading, -⟩ := floorLog_spec (show 1 < 10 by decide) (magnitudeOf_pos hrank)
  obtain ⟨c, hc⟩ := exists_grid_between hleading hsmall
  have hcontains := (RoundingInterval.contains_ofRank_iff hrank).mpr hd
  refine ⟨c, RoundingInterval.contains_of_between hrank hcontains hc, ?_⟩
  rcases hc with ⟨hlow, hhigh⟩ | ⟨hlow, hhigh⟩
  · rw [abs_of_nonneg (by linarith), abs_of_nonneg (by linarith)]
    linarith
  · rw [abs_of_nonpos (by linarith), abs_of_nonpos (by linarith)]
    linarith

/-- Zero does not round to another magnitude. -/
theorem coefficient_pos (hrank : 0 < rank) {d : Decimal} (hd : IsNearestRank d.value rank) :
    0 < d.coefficient := by
  refine Nat.pos_of_ne_zero fun hzero => ?_
  have hvalue : d.value = 0 := by simp [value, hzero, timesPowerOfTen]
  have hfirst : nearestRank d.value = 0 := by
    rw [hvalue]
    rfl
  have hsame := (nearestRank_eq_iff hvalue.ge).mpr hd
  omega

/-- The decimal rounds to the magnitude, no decimal with fewer digits does, and none with as many
digits that does is nearer to it. -/
structure IsShortest (rank : Nat) (d : Decimal) : Prop where
  rounds : IsNearestRank d.value rank
  shortest : ∀ (other : Decimal) (n : Nat), IsNearestRank other.value rank →
    other.coefficient < 10 ^ n → d.digits.length ≤ n
  nearest : ∀ other : Decimal, IsNearestRank other.value rank →
    other.coefficient < 10 ^ d.digits.length →
      |magnitudeOf rank - d.value| ≤ |magnitudeOf rank - other.value|

theorem isShortest_shortest (hrank : 0 < rank) : IsShortest rank (Decimal.shortest rank) := by
  obtain ⟨places, hfound, hnone⟩ := exists_onGrid?_eq_shortest hrank
  obtain ⟨hgrid, hcontains, hnearest⟩ := onGrid?_spec hrank hfound
  have hcoefficient : (Decimal.shortest rank).coefficient ≤ 10 ^ (places + 1) := by
    have hfloor := gridFloor_lt hrank places
    rcases hgrid with heq | heq
    · exact heq ▸ hfloor.le
    · exact heq ▸ hfloor
  have hlength := length_digits_le_of_le hcoefficient
  refine ⟨(RoundingInterval.contains_ofRank_iff hrank).mp hcontains, ?_, ?_⟩
  · intro other n hother hn
    cases n with
    | zero => exact absurd (coefficient_pos hrank hother) (by simpa using hn)
    | succ n =>
      -- On the grid for fewer digits there would have been a point, and the search stopped at it.
      obtain ⟨c, hc, -⟩ := exists_contains_grid hrank hother hn
      have hle : places ≤ n := by
        by_contra hlt
        exact onGrid?_ne_none hrank hc (hnone n (Nat.lt_of_not_le hlt))
      exact hlength.trans (Nat.succ_le_succ hle)
  · intro other hother hn
    obtain ⟨c, hc, hle⟩ := exists_contains_grid hrank hother
      (hn.trans_le (Nat.pow_le_pow_right (by decide) hlength))
    exact (hnearest c hc).trans hle

end Decimal

end

end LispShell
