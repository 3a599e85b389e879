import LispShell.Proofs.ExactArithmetic
import Mathlib.Data.String.Basic

set_option autoImplicit false

/-!
# Comparing from both sides

What the left value is decides how two values are ordered: a symbol by text, a number by exact
value.  So the two orders of one question are two questions, as they are for equality.

Numbers are ordered by exact value from both sides, and symbols by text from both sides.  A symbol
opposite a number is ordered by text from its own side and by exact value from the other, and then
the answers are one only if these two orders agree (`less_eq_greater_iff`).
-/

namespace LispShell

namespace Value

variable {a b : Value} {x y : Rat}

/-- The answer to whether an order is the one asked for. -/
theorem map_order_eq {order asked : Ordering} {p : Prop} [Decidable p]
    (h : a.order b = .ok order) (hp : order = asked ↔ p) :
    (a.order b).map (· == asked) = .ok (decide p) := by
  have hanswer : (order == asked) = decide p := by
    rw [Bool.eq_iff_iff, beq_iff_eq, hp, decide_eq_true_iff]
  rw [h, ← hanswer]
  rfl

/-! ## Numbers on the left -/

theorem orderRat_lt_iff : orderRat x y = .lt ↔ x < y := by
  unfold orderRat
  split_ifs <;> simp_all

theorem orderRat_gt_iff : orderRat x y = .gt ↔ y < x := by
  unfold orderRat
  split_ifs with hlt heq
  · simp [hlt.le]
  · simp [heq]
  · simpa using lt_of_le_of_ne (not_lt.mp hlt) (Ne.symm heq)

theorem order_of_isNumber (ha : a.isNumber = true) (b : Value) :
    a.order b = (do return orderRat (← a.leftOperand) (← b.rightOperand)) := by
  cases a <;> first | rfl | cases ha

theorem computes_of_isNumber (ha : a.isNumber = true) : a.computes = true := by
  rw [computes_eq, ha, Bool.true_or]

theorem order_of_hasValue (ha : a.isNumber = true) (hx : a.HasValue x) (hy : b.HasValue y) :
    a.order b = .ok (orderRat x y) := by
  rw [order_of_isNumber ha, leftOperand_eq (computes_of_isNumber ha), rightOperand_eq hy.isAtom,
    toRat_eq_ok_iff.mpr hx, toRat_eq_ok_iff.mpr hy]
  rfl

/-- A number orders only what is equal to a rational, and only if it is so itself. -/
theorem exists_hasValue_of_map_order {test : Ordering → Bool} {p : Bool} (ha : a.isNumber = true)
    (h : (a.order b).map test = .ok p) : ∃ x y, a.HasValue x ∧ b.HasValue y := by
  rw [order_of_isNumber ha, leftOperand_eq (computes_of_isNumber ha)] at h
  cases hx : a.toRat with
  | error e =>
    rw [hx] at h
    cases h
  | ok x =>
    rw [hx] at h
    cases hb : b.isAtom with
    | false =>
      rw [rightOperand, hb] at h
      cases h
    | true =>
      rw [rightOperand_eq hb] at h
      cases hy : b.toRat with
      | error e =>
        rw [hy] at h
        cases h
      | ok y => exact ⟨x, y, toRat_eq_ok_iff.mp hx, toRat_eq_ok_iff.mp hy⟩

theorem less_of_hasValue (ha : a.isNumber = true) (hx : a.HasValue x) (hy : b.HasValue y) :
    a.less b = .ok (decide (x < y)) :=
  map_order_eq (order_of_hasValue ha hx hy) orderRat_lt_iff

theorem greater_of_hasValue (ha : a.isNumber = true) (hx : a.HasValue x) (hy : b.HasValue y) :
    a.greater b = .ok (decide (y < x)) :=
  map_order_eq (order_of_hasValue ha hx hy) orderRat_gt_iff

/-! ## Symbols on the left -/

theorem order_of_symbol (ha : a.kind = .symbol) (hb : b.isAtom = true) :
    a.order b = .ok (compare a.atomText b.atomText) := by
  cases a with
  | symbol label text => exact if_pos hb
  | _ => cases ha

theorem less_of_symbol (ha : a.kind = .symbol) (hb : b.isAtom = true) :
    a.less b = .ok (decide (a.atomText < b.atomText)) :=
  map_order_eq (order_of_symbol ha hb) compare_lt_iff_lt

theorem greater_of_symbol (ha : a.kind = .symbol) (hb : b.isAtom = true) :
    a.greater b = .ok (decide (b.atomText < a.atomText)) :=
  map_order_eq (order_of_symbol ha hb) compare_gt_iff_gt

/-! ## Both sides -/

theorem isNumber_of_computes (ha : a.computes = true) (hkind : a.kind ≠ .symbol) :
    a.isNumber = true := by
  rw [computes_eq, Bool.or_eq_true, beq_iff_eq] at ha
  exact ha.resolve_right hkind

/-- Of two numbers or symbols that order from both sides, `a` before `b` from the one side and `b`
after `a` from the other, the answers are one if both are symbols or none is.  If one of them is a
symbol and the other a number, then the answers are one exactly if the texts and the exact values
are in the same order. -/
theorem less_eq_greater_iff (ha : a.computes = true) (hb : b.computes = true) {p q : Bool}
    (hless : a.less b = .ok p) (hgreater : b.greater a = .ok q) :
    ((a.kind = .symbol ↔ b.kind = .symbol) → p = q) ∧
      (¬(a.kind = .symbol ↔ b.kind = .symbol) →
        ∃ x y, a.HasValue x ∧ b.HasValue y ∧
          (p = q ↔ (a.atomText < b.atomText ↔ x < y))) := by
  have hatom := isAtom_of_computes ha
  have hatom' := isAtom_of_computes hb
  by_cases hsymbol : a.kind = .symbol
  · obtain rfl := Except.ok.inj ((less_of_symbol hsymbol hatom').symm.trans hless)
    by_cases hsymbol' : b.kind = .symbol
    · obtain rfl := Except.ok.inj ((greater_of_symbol hsymbol' hatom).symm.trans hgreater)
      exact ⟨fun _ => rfl, fun h => absurd (iff_of_true hsymbol hsymbol') h⟩
    · have hnumber := isNumber_of_computes hb hsymbol'
      obtain ⟨y, x, hy, hx⟩ := exists_hasValue_of_map_order hnumber hgreater
      obtain rfl := Except.ok.inj ((greater_of_hasValue hnumber hy hx).symm.trans hgreater)
      exact ⟨fun h => absurd (h.mp hsymbol) hsymbol', fun _ => ⟨x, y, hx, hy, decide_eq_decide⟩⟩
  · have hnumber := isNumber_of_computes ha hsymbol
    obtain ⟨x, y, hx, hy⟩ := exists_hasValue_of_map_order hnumber hless
    obtain rfl := Except.ok.inj ((less_of_hasValue hnumber hx hy).symm.trans hless)
    by_cases hsymbol' : b.kind = .symbol
    · obtain rfl := Except.ok.inj ((greater_of_symbol hsymbol' hatom).symm.trans hgreater)
      refine ⟨fun h => absurd (h.mpr hsymbol') hsymbol, fun _ => ⟨x, y, hx, hy, ?_⟩⟩
      rw [decide_eq_decide]
      exact iff_comm
    · have hnumber' := isNumber_of_computes hb hsymbol'
      obtain rfl := Except.ok.inj ((greater_of_hasValue hnumber' hy hx).symm.trans hgreater)
      exact ⟨fun _ => rfl, fun h => absurd (iff_of_false hsymbol hsymbol') h⟩

/-- Twelve is before twelve and a half as a text and as a number. -/
theorem less_eq_greater_iff_symbol :
    let a := Value.symbol 0 "12"
    let b := Value.rational 1 (25 / 2)
    (a.computes = true ∧ b.computes = true) ∧
      (a.less b = .ok true ∧ b.greater a = .ok true) ∧
      ∃ x y, a.HasValue x ∧ b.HasValue y ∧ (a.atomText < b.atomText ↔ x < y) := by
  have hless : (Value.symbol 0 "12").less (.rational 1 (25 / 2)) = .ok true := by
    decide +kernel
  have hgreater : (Value.rational 1 (25 / 2)).greater (.symbol 0 "12") = .ok true := by
    decide +kernel
  obtain ⟨x, y, hx, hy, hagree⟩ := (less_eq_greater_iff rfl rfl hless hgreater).2 (by decide)
  exact ⟨⟨rfl, rfl⟩, ⟨hless, hgreater⟩, x, y, hx, hy, hagree.mp rfl⟩

/-- The text of ten is before that of nine, and nine is not after ten. -/
theorem not_less_eq_greater :
    let a := Value.symbol 0 "10"
    let b := Value.integer 1 9
    (a.computes = true ∧ b.computes = true) ∧ a.less b = .ok true ∧ b.greater a = .ok false := by
  decide +kernel

end Value

end LispShell
