import LispShell.Proofs.ExactArithmetic
import Mathlib.Algebra.Order.Group.Unbundled.Int
import Mathlib.Algebra.Order.Ring.Abs
import Mathlib.Tactic.Linarith

set_option autoImplicit false

/-!
# The remainder

The remainder of a division is never negative, whatever the signs of the operands: it lies below the
size of the divisor, and what is left of the dividend without it is a multiple of the divisor.  Two
such rationals would be a multiple of the divisor apart and yet less than the divisor, so there is
only one (`IsRemainder.unique`).  Integers have one, and it is an integer.

So what values give as a remainder is known from their exact values alone, whichever kinds of atoms
they are and whatever is in the store (`compute_modulo`).
-/

namespace LispShell

namespace Value

variable {a b : Value} {x y r r' : Rat} {m n : Int}

/-- The rational is what is left over when `x` is divided by `y`. -/
structure IsRemainder (x y r : Rat) : Prop where
  nonneg : 0 ≤ r
  lt_abs : r < |y|
  isMultiple : ∃ k : Int, x - r = k * y

theorem IsRemainder.unique (h : IsRemainder x y r) (h' : IsRemainder x y r') : r = r' := by
  obtain ⟨k, hk⟩ := h.isMultiple
  obtain ⟨k', hk'⟩ := h'.isMultiple
  have hapart : r - r' = ((k' - k : Int) : Rat) * y := by
    push_cast
    linarith
  have hclose : |r - r'| < |y| :=
    abs_sub_lt_of_nonneg_of_lt h.nonneg h.lt_abs h'.nonneg h'.lt_abs
  rw [hapart, abs_mul, ← Int.cast_abs] at hclose
  have hless : ((|k' - k| : Int) : Rat) < 1 := by
    by_contra hge
    exact absurd hclose (not_lt.mpr (le_mul_of_one_le_left (abs_nonneg y) (not_lt.mp hge)))
  have hzero : k' - k = 0 := Int.abs_lt_one_iff.mp (by exact_mod_cast hless)
  rw [hzero, Int.cast_zero, zero_mul] at hapart
  exact sub_eq_zero.mp hapart

theorem isRemainder_emod (hn : n ≠ 0) : IsRemainder m n ((m % n : Int) : Rat) := by
  obtain ⟨-, hnonneg, hlt, k, hk⟩ := Operation.yields_emod (m := m) hn
  exact ⟨hnonneg, hlt, k, by linarith⟩

/-- Atoms that are equal to integers, the left one a number or a symbol and the right one not equal
to 0, give a rational that is an integer.  It is a remainder of the division, and there is no
other. -/
theorem compute_modulo (σ : Store) (ha : a.computes = true) (hm : a.HasValue m)
    (hn : b.HasValue n) (hne : n ≠ 0) :
    ∃ (label : Instance) (r : Int) (σ' : Store),
      a.compute .modulo b σ = .ok (.rational label r, σ') ∧
        r = (m.tmod |n| + |n|).tmod |n| ∧ ∀ r' : Rat, IsRemainder m n r' ↔ r' = r := by
  obtain ⟨label, hlabel⟩ := exists_makeRational_eq σ ((m % n : Int) : Rat)
  refine ⟨label, m % n, (σ.makeRational ((m % n : Int) : Rat)).2, ?_, emod_eq_tmod m hne, ?_⟩
  · rw [compute_of_hasValue .modulo σ ha hm hn,
      Operation.apply_modulo rfl rfl (Int.cast_ne_zero.mpr hne), ← hlabel]
    rfl
  · intro r'
    constructor
    · exact fun hr' => hr'.unique (isRemainder_emod hne)
    · rintro rfl
      exact isRemainder_emod hne

/-- A symbol that spells -7 as a fraction, divided by a string that spells -3 with an exponent. -/
theorem compute_modulo_negative :
    let a := symbol 0 "-14/2"
    let b := string 1 "-0.3e1"
    (a.computes = true ∧ a.HasValue (-7 : Int) ∧ b.HasValue (-3 : Int) ∧ (-3 : Int) ≠ 0) ∧
      ∃ (label : Instance) (r : Int) (σ' : Store),
        a.compute .modulo b .empty = .ok (.rational label r, σ') ∧
          r = ((-7 : Int).tmod |-3| + |-3|).tmod |-3| ∧
          ∀ r' : Rat, IsRemainder (-7 : Int) (-3 : Int) r' ↔ r' = r := by
  intro a b
  have ha : a.HasValue (-7 : Int) := .symbol 0 (by decide +kernel)
  have hb : b.HasValue (-3 : Int) := .string 1 (by decide +kernel)
  exact ⟨⟨rfl, ha, hb, by decide⟩, compute_modulo .empty rfl ha hb (by decide)⟩

end Value

end LispShell
