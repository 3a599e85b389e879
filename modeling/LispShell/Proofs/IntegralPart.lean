import LispShell.Proofs.OrderedField
import Mathlib.Data.Rat.Floor
import Mathlib.Tactic.Linarith

set_option autoImplicit false

/-!
# The integral part of a number

A number projects to a 64-bit integer by losing its fraction.  An integer has none to lose, a
rational whose integral part is past the 64-bit integers is refused, and a float whose integral part
is past them, or that has no exact value at all, gives the last of them on its side, or 0.  So an
integer that a float gives may be far from the float (`Binary64.lastInt`); no other number gives an
integer that is not its integral part.

Equal numbers have one exact value, and so one integral part, or none that fits.  In the second case
a float gives an integer nevertheless, and then the two agree only if both are floats or neither is
(`Session.integerLaw_after`).
-/

namespace LispShell

namespace Exact

variable {x : Rat} {n : Int}

/-- The integer is the rational without its fraction, toward zero. -/
def Truncates (x : Rat) (n : Int) : Prop :=
  if 0 ≤ x then n ≤ x ∧ x < n + 1 else n - 1 < x ∧ x ≤ n

theorem truncate_of_nonneg (h : 0 ≤ x) : truncate x = ⌊x⌋ := by
  rw [truncate, Int.tdiv_eq_ediv_of_nonneg (Rat.num_nonneg.mpr h), Rat.floor_def']

theorem truncate_neg (x : Rat) : truncate (-x) = -truncate x := by
  rw [truncate, truncate, Rat.neg_num, Rat.neg_den, Int.neg_tdiv]

theorem truncate_nonneg (h : 0 ≤ x) : 0 ≤ truncate x := by
  rw [truncate_of_nonneg h]
  exact Int.floor_nonneg.mpr h

theorem truncate_eq_iff : truncate x = n ↔ Truncates x n := by
  unfold Truncates
  split
  next h => rw [truncate_of_nonneg h, Int.floor_eq_iff]
  next h =>
    -- Below zero the fraction is lost upwards.
    have hneg : truncate x = -⌊-x⌋ := by
      rw [← truncate_of_nonneg (by linarith), truncate_neg, neg_neg]
    rw [hneg, neg_eq_iff_eq_neg, Int.floor_eq_iff, Int.cast_neg]
    constructor
    · rintro ⟨hle, hlt⟩
      exact ⟨by linarith, by linarith⟩
    · rintro ⟨hlt, hle⟩
      exact ⟨by linarith, by linarith⟩

theorem truncate_intCast (n : Int) : truncate (n : Rat) = n := by
  rw [truncate, Rat.num_intCast, Rat.den_intCast, Nat.cast_one, Int.tdiv_one]

end Exact

/-! ## The 64-bit integers -/

namespace Value

theorem clamp_toInt (v : Int64) : clamp v.toInt = v := by
  have hlower := v.le_toInt
  have hupper := v.toInt_lt
  rw [clamp, min_eq_left (by omega), max_eq_right (by omega), Int64.ofInt_toInt]

theorem clamp_of_lt {n : Int} (h : n < -9223372036854775808) : clamp n = Int64.minValue := by
  rw [clamp, min_eq_left (by omega), max_eq_left (by omega)]
  rfl

theorem clamp_of_gt {n : Int} (h : 9223372036854775807 < n) : clamp n = Int64.maxValue := by
  rw [clamp, min_eq_right (by omega), max_eq_right (by omega)]
  rfl

end Value

/-! ## Floats -/

/-- The last of the 64-bit integers on the side of a float, and 0 if it is on neither. -/
def Binary64.lastInt : Binary64 → Int64
  | .nan => 0
  | .infinite negative | .finite negative _ =>
    if negative then Int64.minValue else Int64.maxValue

namespace Value

variable {a b : Value} {v w : Int64} {x : Rat} {e : ValueError}

theorem toInt_of_toRat? {f : Binary64} (h : f.toRat? = some x) :
    (float f).toInt = .ok (clamp (Exact.truncate x)) := by
  rw [toInt]
  unfold truncateFloat
  split
  · cases h
  · cases h
  · cases h
  · rw [h, Option.getD_some]

/-- Past the 64-bit integers a float gives the last of them. -/
theorem truncateFloat_eq_lastInt {f : Binary64}
    (h : ∀ x ∈ f.toRat?, ∀ v : Int64, v.toInt ≠ Exact.truncate x) :
    truncateFloat f = f.lastInt := by
  cases f with
  | nan => rfl
  | infinite negative =>
    cases negative with
    | false => rfl
    | true => rfl
  | finite negative rank =>
    have hnonneg := Exact.truncate_nonneg (magnitudeOf_nonneg rank)
    obtain hlt | hgt := Integer.lt_or_lt_of_forall_ne (h _ rfl)
    · cases negative with
      | false => exact absurd hlt (by simp only [Bool.false_eq_true, if_false]; omega)
      | true => exact clamp_of_lt hlt
    · cases negative with
      | false => exact clamp_of_gt hgt
      | true =>
        simp only [if_true, Exact.truncate_neg] at hgt
        omega

/-! ## Numbers -/

/-- The integer is the exact value of the atom without its fraction. -/
def HasIntegralPart (a : Value) (v : Int64) : Prop :=
  ∃ x, a.HasValue x ∧ Exact.Truncates x v.toInt

theorem HasValue.hasIntegralPart_iff (h : a.HasValue x) :
    a.HasIntegralPart v ↔ v.toInt = Exact.truncate x := by
  constructor
  · rintro ⟨y, hy, htruncates⟩
    rw [h.unique hy]
    exact (Exact.truncate_eq_iff.mpr htruncates).symm
  · exact fun htruncate => ⟨x, h, Exact.truncate_eq_iff.mp htruncate.symm⟩

theorem HasIntegralPart.unique (hv : a.HasIntegralPart v) (hw : a.HasIntegralPart w) : v = w := by
  obtain ⟨x, hx, htruncates⟩ := hv
  have hv' := Exact.truncate_eq_iff.mpr htruncates
  rw [← Int64.toInt_inj, ← hv', hx.hasIntegralPart_iff.mp hw]

/-- A number gives its integral part, and without one a float gives the last integer on its side and
a rational is refused. -/
theorem toInt_cases (h : a.isNumber = true) :
    (∃ v, a.HasIntegralPart v ∧ a.toInt = .ok v) ∨
      (∀ v, ¬a.HasIntegralPart v) ∧
        ((∃ f, a = .float f ∧ a.toInt = .ok f.lastInt) ∨
          ∃ label x, a = .rational label x ∧ a.toInt = .error (.outOfRange x)) := by
  cases a with
  | integer label v =>
    refine .inl ⟨v, ?_, rfl⟩
    rw [(HasValue.integer label v).hasIntegralPart_iff, Exact.truncate_intCast]
  | rational label x =>
    cases hfits : Integer.ofInt? (Exact.truncate x) with
    | some v =>
      refine .inl ⟨v, ?_, by rw [toInt, hfits]⟩
      rw [(HasValue.rational label x).hasIntegralPart_iff, ← Integer.ofInt?_eq_some_iff]
      exact hfits
    | none =>
      refine .inr ⟨fun v hv => ?_, .inr ⟨label, x, rfl, by rw [toInt, hfits]⟩⟩
      rw [(HasValue.rational label x).hasIntegralPart_iff] at hv
      exact Integer.ofInt?_eq_none_iff.mp hfits v hv
  | float f =>
    by_cases hpart : ∃ v, HasIntegralPart (.float f) v
    · obtain ⟨v, hv⟩ := hpart
      refine .inl ⟨v, hv, ?_⟩
      obtain ⟨x, hx, htruncates⟩ := hv
      cases hx with
      | float hx =>
        rw [toInt_of_toRat? hx, Exact.truncate_eq_iff.mpr htruncates, clamp_toInt]
    · rw [not_exists] at hpart
      refine .inr ⟨hpart, .inl ⟨f, rfl, ?_⟩⟩
      rw [toInt, truncateFloat_eq_lastInt]
      intro x hx v hv
      exact hpart v ((HasValue.float hx).hasIntegralPart_iff.mpr hv)
  | _ => cases h

theorem toInt_eq_ok_iff (h : a.isNumber = true) : a.toInt = .ok v ↔
    a.HasIntegralPart v ∨ (∀ w, ¬a.HasIntegralPart w) ∧ ∃ f, a = .float f ∧ v = f.lastInt := by
  obtain ⟨w, hw, hresult⟩ | ⟨hnone, ⟨f, rfl, hresult⟩ | ⟨label, x, rfl, hresult⟩⟩ := toInt_cases h
  · rw [hresult, Except.ok.injEq]
    constructor
    · rintro rfl
      exact .inl hw
    · rintro (hv | ⟨hnone, -⟩)
      · exact hw.unique hv
      · exact absurd hw (hnone w)
  · rw [hresult, Except.ok.injEq]
    constructor
    · rintro rfl
      exact .inr ⟨hnone, f, rfl, rfl⟩
    · rintro (hv | ⟨-, g, hg, rfl⟩)
      · exact absurd hv (hnone v)
      · rw [Value.float.inj hg]
  · rw [hresult]
    refine iff_of_false (by simp) ?_
    rintro (hv | ⟨-, f, hf, -⟩)
    · exact hnone v hv
    · cases hf

theorem toInt_eq_error_iff (h : a.isNumber = true) : a.toInt = .error e ↔
    (∀ w, ¬a.HasIntegralPart w) ∧ ∃ label x, a = .rational label x ∧ e = .outOfRange x := by
  obtain ⟨w, hw, hresult⟩ | ⟨hnone, ⟨f, rfl, hresult⟩ | ⟨label, x, rfl, hresult⟩⟩ := toInt_cases h
  · rw [hresult]
    exact iff_of_false (by simp) fun h => h.1 w hw
  · rw [hresult]
    refine iff_of_false (by simp) ?_
    rintro ⟨-, label, x, hx, -⟩
    cases hx
  · rw [hresult, Except.error.injEq]
    constructor
    · rintro rfl
      exact ⟨hnone, label, x, rfl, rfl⟩
    · rintro ⟨-, label', y, hy, rfl⟩
      cases hy
      rfl

/-! ## Equal numbers -/

/-- Equal numbers are equal to one rational. -/
theorem exists_hasValue_of_equals {σ : Store} {m : Register} (ha : a.isNumber = true)
    (hregistered : a.Registered m) (hregistered' : b.Registered m) (h : a.equals σ b = true) :
    ∃ x, a.HasValue x ∧ b.HasValue x := by
  rw [equals_of_isNumber σ ha, Bool.or_eq_true, Bool.and_eq_true] at h
  obtain hsame | ⟨-, hnumbers⟩ := h
  · obtain rfl := hregistered.eq_of_same hregistered' hsame
    cases a with
    | integer label v => exact ⟨_, .integer label v, .integer label v⟩
    | rational label r => exact ⟨r, .rational label r, .rational label r⟩
    | float f => cases hsame
    | _ => cases ha
  · obtain ⟨x, hx, hy⟩ := exists_toRat_of_equalNumbers hnumbers
    exact ⟨x, toRat_eq_ok_iff.mp hx, toRat_eq_ok_iff.mp hy⟩

/-- Two numbers that are equal to one rational give one integer or none, but for a float and a
rational past the 64-bit integers. -/
theorem toOption_toInt_eq_iff (ha : a.isNumber = true) (hb : b.isNumber = true)
    (hx : a.HasValue x) (hy : b.HasValue x) : a.toInt.toOption = b.toInt.toOption ↔
      (∃ v, a.HasIntegralPart v) ∨ (a.kind = .float ↔ b.kind = .float) := by
  have hpart (v : Int64) : a.HasIntegralPart v ↔ b.HasIntegralPart v := by
    rw [hx.hasIntegralPart_iff, hy.hasIntegralPart_iff]
  obtain ⟨v, hv, hresult⟩ | ⟨hnone, hresult⟩ := toInt_cases ha
  · refine iff_of_true ?_ (.inl ⟨v, hv⟩)
    rw [hresult, (toInt_eq_ok_iff hb).mpr (.inl ((hpart v).mp hv))]
  · rw [or_iff_right (not_exists.mpr hnone)]
    obtain ⟨w, hw, -⟩ | ⟨-, hresult'⟩ := toInt_cases hb
    · exact absurd ((hpart w).mpr hw) (hnone w)
    obtain ⟨f, rfl, hf⟩ | ⟨label, r, rfl, hr⟩ := hresult
    · obtain ⟨g, rfl, hg⟩ | ⟨label, r, rfl, hr⟩ := hresult'
      · refine iff_of_true ?_ (iff_of_true rfl rfl)
        cases hx with
        | float hx =>
          cases hy with
          | float hy => rw [toInt_of_toRat? hx, toInt_of_toRat? hy]
      · refine iff_of_false ?_ (by simp [kind])
        rw [hf, hr]
        exact Option.some_ne_none _
    · obtain ⟨g, rfl, hg⟩ | ⟨label', r', rfl, hr'⟩ := hresult'
      · refine iff_of_false ?_ (by simp [kind])
        rw [hr, hg]
        exact (Option.some_ne_none _).symm
      · refine iff_of_true ?_ (by simp [kind])
        rw [hr, hr']
        rfl

/-! ## The law -/

/-- What two numbers give as integers. -/
structure IntegerLaw (σ : Store) (a b : Value) : Prop where
  /-- a number gives its integral part if it has one in 64 bits; without one a float gives the last
  integer on its side, and no other number gives any -/
  ok_iff : ∀ v, a.toInt = .ok v ↔
    a.HasIntegralPart v ∨ (∀ w, ¬a.HasIntegralPart w) ∧ ∃ f, a = .float f ∧ v = f.lastInt
  /-- a rational without one is refused -/
  error_iff : ∀ e, a.toInt = .error e ↔
    (∀ w, ¬a.HasIntegralPart w) ∧ ∃ label x, a = .rational label x ∧ e = .outOfRange x
  /-- equal numbers give the same integer or none if they have an integral part in 64 bits, and
  else if both are floats or neither is -/
  agree_iff : a.equals σ b = true → (a.toInt.toOption = b.toInt.toOption ↔
    (∃ v, a.HasIntegralPart v) ∨ (a.kind = .float ↔ b.kind = .float))

end Value

namespace Session

open Value

/-- The law holds of the numbers that any actions have given. -/
theorem integerLaw_after (actions : List Action) (i j : Nat) :
    let s := after actions
    (s.value i).isNumber = true → (s.value j).isNumber = true →
      IntegerLaw s.store (s.value i) (s.value j) := by
  intro s hi hj
  obtain ⟨m, hm⟩ := exists_fits_after actions
  refine ⟨fun v => toInt_eq_ok_iff hi, fun e => toInt_eq_error_iff hi, fun hequals => ?_⟩
  obtain ⟨x, hx, hy⟩ := exists_hasValue_of_equals hi (hm.value i) (hm.value j) hequals
  exact toOption_toInt_eq_iff hi hj hx hy

/-- The float and the rational next after the 64-bit integers. -/
theorem integerLaw_after_twoToThe63 :
    let s := after [.float (.ofBits 0x43E0000000000000), .ownRational 9223372036854775808]
    ((s.value 0).isNumber = true ∧ (s.value 1).isNumber = true) ∧
      IntegerLaw s.store (s.value 0) (s.value 1) :=
  ⟨⟨rfl, rfl⟩, integerLaw_after _ 0 1 rfl rfl⟩

/-- The float next after the 64-bit integers gives the last of them, and the rational that it is
equal to is refused.  What is not a number gives 0. -/
theorem toInt_of_twoToThe63 :
    let s := after [.float (.ofBits 0x43E0000000000000), .ownRational 9223372036854775808,
      .float .nan]
    (s.value 0).equals s.store (s.value 1) = true ∧
      (s.value 0).toInt = .ok Int64.maxValue ∧ (∀ v, ¬(s.value 0).HasIntegralPart v) ∧
      (s.value 1).toInt = .error (.outOfRange 9223372036854775808) ∧
      (s.value 2).toInt = .ok 0 ∧ ∀ v, ¬(s.value 2).HasIntegralPart v := by
  intro s
  have hvalue : (s.value 0).HasValue 9223372036854775808 :=
    .float (f := .ofBits 0x43E0000000000000) (by decide +kernel)
  refine ⟨by decide +kernel, by decide +kernel, fun v hv => ?_, by decide +kernel, rfl, ?_⟩
  · have htruncate : Exact.truncate 9223372036854775808 = 9223372036854775808 := by decide +kernel
    have hlt := v.toInt_lt
    rw [hvalue.hasIntegralPart_iff, htruncate] at hv
    omega
  · rintro v ⟨x, hx, -⟩
    cases hx with
    | float hx => cases hx

end Session

end LispShell
