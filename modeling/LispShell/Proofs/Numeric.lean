import LispShell.Proofs.ExactArithmetic

set_option autoImplicit false

/-!
# Numeric values

A value can be asked whether it is numeric before it is taken for a number.  The question and the
exact projection go through the kinds of values each by itself, so it has to be shown that they say
the same.  They do for every kind but one: a boolean projects, to 0 or 1, and is not numeric.

A value with an exact value is also a right operand of every integer, for the operations that take
all rationals.  So what is numeric can be added to every integer and multiplied with it, and so can
a boolean, and nothing else can (`Value.isNumeric_iff`).
-/

namespace LispShell

namespace Value

variable {a : Value} {x : Rat}

/-! ## The question and the projection -/

theorem exists_hasValue_of_isNumeric (h : a.isNumeric = true) : ∃ x, a.HasValue x := by
  cases a with
  | integer label v => exact ⟨_, .integer label v⟩
  | rational label r => exact ⟨r, .rational label r⟩
  | float f =>
    rw [isNumeric, ← f.isSome_toRat?] at h
    obtain ⟨r, hr⟩ := Option.isSome_iff_exists.mp h
    exact ⟨r, .float hr⟩
  | string label text =>
    obtain ⟨r, hr⟩ := Option.isSome_iff_exists.mp h
    exact ⟨r, .string label hr⟩
  | symbol label text =>
    obtain ⟨r, hr⟩ := Option.isSome_iff_exists.mp h
    exact ⟨r, .symbol label hr⟩
  | _ => cases h

theorem exists_hasValue_of_kind_boolean (h : a.kind = .boolean) : ∃ x, a.HasValue x := by
  cases a with
  | boolean b =>
    cases b with
    | false => exact ⟨0, .no⟩
    | true => exact ⟨1, .yes⟩
  | _ => cases h

theorem HasValue.isNumeric_or (h : a.HasValue x) : a.isNumeric = true ∨ a.kind = .boolean := by
  cases h with
  | no => exact .inr rfl
  | yes => exact .inr rfl
  | integer label v => exact .inl rfl
  | rational label r => exact .inl rfl
  | @float f r hr => exact .inl (by rw [isNumeric, ← f.isSome_toRat?, hr, Option.isSome_some])
  | string label hr => exact .inl (by rw [isNumeric, hr, Option.isSome_some])
  | symbol label hr => exact .inl (by rw [isNumeric, hr, Option.isSome_some])

theorem isNumeric_eq_false_of_kind_boolean (h : a.kind = .boolean) : a.isNumeric = false := by
  cases a with
  | boolean b => rfl
  | _ => cases h

/-- The exact projection takes what is numeric, and the booleans. -/
theorem exists_toRat_eq_ok_iff :
    (∃ x, a.toRat = .ok x) ↔ a.isNumeric = true ∨ a.kind = .boolean := by
  simp only [toRat_eq_ok_iff]
  constructor
  · rintro ⟨x, hx⟩
    exact hx.isNumeric_or
  · rintro (hnumeric | hboolean)
    · exact exists_hasValue_of_isNumeric hnumeric
    · exact exists_hasValue_of_kind_boolean hboolean

/-! ## Right operands -/

/-- Every integer, in every store, takes the value as its right operand. -/
def IsRightOperand (op : Operation) (a : Value) : Prop :=
  ∀ (label : Instance) (v : Int64) (σ : Store), ∃ given, (integer label v).compute op a σ = .ok given

/-- An operation that takes all rationals takes any value with an exact value on the right of an
integer, and no other. -/
theorem isRightOperand_iff (op : Operation) (hop : ∀ x y, op.Admits x y) :
    IsRightOperand op a ↔ a.isNumeric = true ∨ a.kind = .boolean := by
  rw [← exists_toRat_eq_ok_iff]
  constructor
  · intro h
    obtain ⟨given, hgiven⟩ := h 0 0 .empty
    obtain ⟨-, x, -, -, hx, -⟩ | ⟨e, -, herror⟩ := compute_cases op (integer 0 0) a .empty
    · exact ⟨x, toRat_eq_ok_iff.mpr hx⟩
    · rw [hgiven] at herror
      cases herror
  · rintro ⟨x, hx⟩ label v σ
    have hresult := compute_of_hasValue op σ rfl (.integer label v) (toRat_eq_ok_iff.mp hx)
    obtain ⟨-, r, -, hr⟩ | ⟨hadmits, -⟩ := op.apply_cases v.toInt x
    · rw [hr] at hresult
      exact ⟨_, hresult⟩
    · exact absurd (hop _ _) hadmits

/-- A value is numeric if it has an exact value and is no boolean.  Integers can be added to what is
numeric, and multiplied with it, and of all other values to the booleans alone. -/
theorem isNumeric_iff (a : Value) :
    (a.isNumeric = true ↔ a.kind ≠ .boolean ∧ ∃ x, a.toRat = .ok x) ∧
      (IsRightOperand .add a ↔ a.isNumeric = true ∨ a.kind = .boolean) ∧
      (IsRightOperand .multiply a ↔ a.isNumeric = true ∨ a.kind = .boolean) := by
  refine ⟨?_, isRightOperand_iff .add fun _ _ => trivial,
    isRightOperand_iff .multiply fun _ _ => trivial⟩
  rw [exists_toRat_eq_ok_iff]
  constructor
  · intro hnumeric
    refine ⟨fun hboolean => ?_, .inl hnumeric⟩
    rw [isNumeric_eq_false_of_kind_boolean hboolean] at hnumeric
    cases hnumeric
  · rintro ⟨hkind, hprojects⟩
    exact hprojects.resolve_right hkind

/-- A boolean has an exact value and is added to integers, and is not numeric. -/
theorem not_isNumeric_boolean :
    (boolean true).isNumeric = false ∧ (boolean true).toRat = .ok 1 ∧
      IsRightOperand .add (boolean true) ∧ IsRightOperand .multiply (boolean true) :=
  ⟨rfl, rfl, (isRightOperand_iff .add fun _ _ => trivial).mpr (.inr rfl),
    (isRightOperand_iff .multiply fun _ _ => trivial).mpr (.inr rfl)⟩

end Value

end LispShell
