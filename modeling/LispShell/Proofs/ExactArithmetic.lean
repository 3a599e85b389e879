import LispShell.Proofs.ExactGrammar
import LispShell.Proofs.Session
import Mathlib.Algebra.Field.Rat
import Mathlib.Algebra.Order.Group.Unbundled.Int
import Mathlib.Algebra.Order.Ring.Cast
import Mathlib.Algebra.Order.Ring.Rat

set_option autoImplicit false

/-!
# What exact arithmetic accepts

An operation takes its operands for the rationals that they are equal to, and computes with these.
`HasValue` says which values are equal to a rational, and `Operation.Admits` and
`Operation.Yields` which rationals an operation takes and what it makes of them.  A remainder comes
from truncating division and is the Euclidean one all the same (`emod_eq_tmod`).

Much can be wrong with two operands.  `Refuses` lists it, each cause by itself and whatever else is
wrong, and `Cause.rank` puts the causes in an order.  An operation on two values has a result
exactly if nothing is wrong with them, and else its answer is the error of the first cause
(`compute_cases`).  None of this depends on the store.  What the store adds is the instance of the
result, which may have been given before, and then with the same contents
(`Session.compute_outcome`).

The operation gives this answer unless it breaks off.  It never does when it has a result; but where
the first cause is a text that is no number, and reading breaks off at this text, no error is given
(`Session.attempt_outcome`).
-/

namespace LispShell

namespace Value

variable {a b : Value} {x y r : Rat} {e e' : ValueError}

/-! ## Exact values -/

/-- The atom is equal to the rational. -/
inductive HasValue : Value → Rat → Prop where
  | no : HasValue (.boolean false) 0
  | yes : HasValue (.boolean true) 1
  | integer (label : Instance) (v : Int64) : HasValue (.integer label v) v.toInt
  | float {f : Binary64} {r : Rat} (h : f.toRat? = some r) : HasValue (.float f) r
  | rational (label : Instance) (r : Rat) : HasValue (.rational label r) r
  | string (label : Instance) {text : String} {r : Rat} (h : Exact.ofText? text.toList = some r) :
      HasValue (.string label text) r
  | symbol (label : Instance) {text : String} {r : Rat} (h : Exact.ofText? text.toList = some r) :
      HasValue (.symbol label text) r

/-- What is wrong with an atom that is equal to no rational. -/
inductive Lacks : Value → ValueError → Prop where
  | float {f : Binary64} (h : f.isFinite = false) : Lacks (.float f) (.notFinite f)
  | string (label : Instance) {text : String} (h : Exact.ofText? text.toList = none) :
      Lacks (.string label text) (.notNumeric text)
  | symbol (label : Instance) {text : String} (h : Exact.ofText? text.toList = none) :
      Lacks (.symbol label text) (.notNumeric text)

theorem readAs_eq_ok_iff {α : Type} {text : String} {read : List Char → Option α} {y : α} :
    readAs text read = .ok y ↔ read text.toList = some y := by
  unfold readAs
  cases read text.toList <;> simp

theorem readAs_eq_error_iff {text : String} :
    readAs text Exact.ofText? = .error e ↔
      Exact.ofText? text.toList = none ∧ e = .notNumeric text := by
  unfold readAs
  cases Exact.ofText? text.toList <;> simp [eq_comm]

theorem toRat_eq_ok_iff : a.toRat = .ok x ↔ a.HasValue x := by
  constructor
  · intro h
    cases a with
    | boolean b =>
      cases b with
      | false => cases h; exact .no
      | true => cases h; exact .yes
    | integer label v => cases h; exact .integer label v
    | rational label r => cases h; exact .rational label _
    | string label text => exact .string label (readAs_eq_ok_iff.mp h)
    | symbol label text => exact .symbol label (readAs_eq_ok_iff.mp h)
    | float f =>
      rw [toRat] at h
      split at h
      · rename_i r hr
        cases h
        exact .float hr
      · cases h
    | _ => cases h
  · intro h
    cases h with
    | no => rfl
    | yes => rfl
    | integer label v => rfl
    | rational label r => rfl
    | string label h => exact readAs_eq_ok_iff.mpr h
    | symbol label h => exact readAs_eq_ok_iff.mpr h
    | float h => rw [toRat, h]

/-- An atom is equal to one rational at most. -/
theorem HasValue.unique (hx : a.HasValue x) (hy : a.HasValue y) : x = y := by
  rw [← toRat_eq_ok_iff] at hx hy
  exact Except.ok.inj (hx.symm.trans hy)

theorem HasValue.isAtom (h : a.HasValue x) : a.isAtom = true := by
  cases h <;> rfl

theorem toRat_eq_error_iff (hatom : a.isAtom = true) : a.toRat = .error e ↔ a.Lacks e := by
  constructor
  · intro h
    cases a with
    | boolean b => cases h
    | integer label v => cases h
    | rational label r => cases h
    | string label text =>
      obtain ⟨hnone, rfl⟩ := readAs_eq_error_iff.mp h
      exact .string label hnone
    | symbol label text =>
      obtain ⟨hnone, rfl⟩ := readAs_eq_error_iff.mp h
      exact .symbol label hnone
    | float f =>
      rw [toRat] at h
      split at h
      · cases h
      · rename_i hnone
        cases h
        refine .float ?_
        rw [← f.isSome_toRat?, hnone]
        rfl
    | _ => cases hatom
  · intro h
    cases h with
    | string label h => exact readAs_eq_error_iff.mpr ⟨h, rfl⟩
    | symbol label h => exact readAs_eq_error_iff.mpr ⟨h, rfl⟩
    | @float f h =>
      rw [← f.isSome_toRat?, Option.isSome_eq_false_iff, Option.isNone_iff_eq_none] at h
      rw [toRat, h]

/-- Nothing is wrong with an atom that is equal to a rational. -/
theorem HasValue.not_lacks (h : a.HasValue x) : ¬a.Lacks e := by
  intro hlacks
  rw [← toRat_eq_error_iff h.isAtom, toRat_eq_ok_iff.mpr h] at hlacks
  cases hlacks

theorem Lacks.unique (h : a.Lacks e) (h' : a.Lacks e') : e = e' := by
  cases h <;> cases h' <;> rfl

/-! ## Operations on rationals -/

/-- Numbers and symbols order and compute. -/
def computes (a : Value) : Bool :=
  match a.kind with
  | .integer | .float | .rational | .symbol => true
  | .null | .boolean | .string | .pair | .var | .const => false

theorem computes_eq (a : Value) : a.computes = (a.isNumber || a.kind == .symbol) := by
  cases a <;> rfl

theorem isAtom_of_computes (h : a.computes = true) : a.isAtom = true := by
  cases a <;> first | rfl | cases h

/-- What truncating division leaves, raised by the size of the divisor and divided once more, is the
remainder. -/
theorem emod_eq_tmod (m : Int) {n : Int} (hn : n ≠ 0) : m % n = (m.tmod |n| + |n|).tmod |n| := by
  have hpos : 0 < |n| := abs_pos.mpr hn
  have hnonneg : 0 ≤ m.tmod |n| + |n| := by
    have hlt := Int.lt_tmod_of_pos m hpos
    omega
  calc m % n = m % |n| := (Int.emod_abs m n).symm
    _ = m.tmod |n| % |n| := by rw [Int.tmod_def, Int.sub_mul_emod_self_left]
    _ = (m.tmod |n| + |n|) % |n| := (Int.add_emod_right _ _).symm
    _ = (m.tmod |n| + |n|).tmod |n| := (Int.tmod_eq_emod_of_nonneg hnonneg).symm

namespace Operation

/-- The operation has a result for these rationals. -/
def Admits (op : Operation) (x y : Rat) : Prop :=
  match op with
  | .add | .subtract | .multiply => True
  | .divide => y ≠ 0
  | .modulo => x.den = 1 ∧ y.den = 1 ∧ y ≠ 0

/-- The rational is the result of the operation.  A quotient is what gives the dividend again, and
a remainder is an integer below the divisor and a multiple of it below the dividend. -/
def Yields (op : Operation) (x y r : Rat) : Prop :=
  match op with
  | .add => r = x + y
  | .subtract => r + y = x
  | .multiply => r = x * y
  | .divide => r * y = x
  | .modulo => r.den = 1 ∧ 0 ≤ r ∧ r < |y| ∧ ∃ k : Int, x = k * y + r

/-- What is wrong with rationals that the operation does not take. -/
def refusal (op : Operation) (x y : Rat) : ValueError :=
  if op = .modulo ∧ (x.den ≠ 1 ∨ y.den ≠ 1) then .notPermitted else .divisionByZero

theorem apply_modulo (hx : x.den = 1) (hy : y.den = 1) (hne : y ≠ 0) :
    modulo.apply x y = .ok ((x.num % y.num : Int) : Rat) := by
  have hnum : y.num ≠ 0 := Rat.num_ne_zero.mpr hne
  have hinteger : ¬(x.den ≠ 1 ∨ y.den ≠ 1) := by simp [hx, hy]
  rw [apply, if_neg hinteger]
  dsimp only
  rw [if_neg (by simpa using hnum), emod_eq_tmod x.num hnum, Int.abs_eq_natAbs]

theorem yields_emod {m n : Int} (hn : n ≠ 0) : modulo.Yields m n ((m % n : Int) : Rat) := by
  have hlt : ((m % n : Int) : Rat) < ((|n| : Int) : Rat) := Int.cast_lt.mpr (Int.emod_lt_abs m hn)
  refine ⟨rfl, Int.cast_nonneg (Int.emod_nonneg m hn), by rwa [Int.cast_abs] at hlt, m / n, ?_⟩
  rw [← Int.cast_mul, ← Int.cast_add, Int.ediv_mul_add_emod]

/-- An operation takes the rationals that it admits and no others. -/
theorem apply_cases (op : Operation) (x y : Rat) :
    (op.Admits x y ∧ ∃ r, op.Yields x y r ∧ op.apply x y = .ok r) ∨
      (¬op.Admits x y ∧ op.apply x y = .error (op.refusal x y)) := by
  cases op with
  | add => exact .inl ⟨trivial, x + y, rfl, rfl⟩
  | subtract => exact .inl ⟨trivial, x - y, sub_add_cancel x y, rfl⟩
  | multiply => exact .inl ⟨trivial, x * y, rfl, rfl⟩
  | divide =>
    by_cases hy : y = 0
    · exact .inr ⟨fun h => h hy, by simp [apply, refusal, hy]⟩
    · exact .inl ⟨hy, x / y, div_mul_cancel₀ x hy, by simp [apply, hy]⟩
  | modulo =>
    -- A fraction is refused whether or not the divisor is zero.
    by_cases hfraction : x.den ≠ 1 ∨ y.den ≠ 1
    · refine .inr ⟨?_, by simp [apply, refusal, hfraction]⟩
      rintro ⟨hx, hy, -⟩
      exact hfraction.elim (· hx) (· hy)
    · by_cases hy : y = 0
      · refine .inr ⟨fun h => h.2.2 hy, ?_⟩
        rw [refusal, if_neg (fun h => hfraction h.2), apply, if_neg hfraction]
        simp [hy]
      · rw [not_or, not_ne_iff, not_ne_iff] at hfraction
        obtain ⟨hxden, hyden⟩ := hfraction
        have hyields := yields_emod (m := x.num) (Rat.num_ne_zero.mpr hy)
        rw [Rat.den_eq_one_iff x |>.mp hxden, Rat.den_eq_one_iff y |>.mp hyden] at hyields
        exact .inl ⟨⟨hxden, hyden, hy⟩, _, hyields, apply_modulo hxden hyden hy⟩

end Operation

/-! ## What can be wrong -/

/-- The causes for which an operation on two values is refused. -/
inductive Cause where
  /-- the left operand is neither a number nor a symbol -/
  | leftKind
  /-- the left operand is equal to no rational -/
  | leftValue
  /-- the right operand is no atom -/
  | rightKind
  /-- the right operand is equal to no rational -/
  | rightValue
  /-- a remainder is asked for and an operand is no integer -/
  | fraction
  /-- a quotient or a remainder by zero is asked for -/
  | zero
  deriving DecidableEq, Repr

/-- The place of a cause in the order in which they count. -/
def Cause.rank : Cause → Nat
  | .leftKind => 0
  | .leftValue => 1
  | .rightKind => 2
  | .rightValue => 3
  | .fraction => 4
  | .zero => 5

theorem Cause.rank_injective {c c' : Cause} (h : c.rank = c'.rank) : c = c' := by
  cases c <;> cases c' <;> first | rfl | cases h

/-- The operation on two values may be refused for this cause, and with this error. -/
inductive Refuses (op : Operation) (a b : Value) : Cause → ValueError → Prop where
  | leftKind (h : a.computes = false) : Refuses op a b .leftKind (.notANumber a.kind)
  | leftValue {e : ValueError} (h : a.Lacks e) : Refuses op a b .leftValue e
  | rightKind (h : b.isAtom = false) : Refuses op a b .rightKind (.notAnAtom b.kind)
  | rightValue {e : ValueError} (h : b.Lacks e) : Refuses op a b .rightValue e
  | fraction {c : Value} {z : Rat} (hop : op = .modulo) (hc : c = a ∨ c = b) (hz : c.HasValue z)
      (h : z.den ≠ 1) : Refuses op a b .fraction .notPermitted
  | zero (hop : op = .divide ∨ op = .modulo) (hb : b.HasValue 0) :
      Refuses op a b .zero .divisionByZero

/-- The error is that of the first cause for which the operation is refused. -/
def RefusedFirst (op : Operation) (a b : Value) (e : ValueError) : Prop :=
  ∃ cause, Refuses op a b cause e ∧
    ∀ cause' e', Refuses op a b cause' e' → cause.rank ≤ cause'.rank

variable {op : Operation} {cause : Cause}

theorem Refuses.unique (h : Refuses op a b cause e) (h' : Refuses op a b cause e') : e = e' := by
  cases h with
  | leftValue h =>
    cases h' with
    | leftValue h' => exact h.unique h'
  | rightValue h =>
    cases h' with
    | rightValue h' => exact h.unique h'
  | _ =>
    cases h'
    rfl

theorem RefusedFirst.unique (h : RefusedFirst op a b e) (h' : RefusedFirst op a b e') : e = e' := by
  obtain ⟨cause, hrefuses, hfirst⟩ := h
  obtain ⟨cause', hrefuses', hfirst'⟩ := h'
  obtain rfl : cause = cause' :=
    Cause.rank_injective (Nat.le_antisymm (hfirst _ _ hrefuses') (hfirst' _ _ hrefuses))
  exact hrefuses.unique hrefuses'

/-! ### The first cause

What is in order with the operands excludes the causes up to a rank. -/

theorem Refuses.one_le_rank (h : Refuses op a b cause e) (ha : a.computes = true) :
    1 ≤ cause.rank := by
  cases h with
  | leftKind h => exact absurd ha (by simp [h])
  | _ => decide

theorem Refuses.two_le_rank (h : Refuses op a b cause e) (ha : a.computes = true)
    (hx : a.HasValue x) : 2 ≤ cause.rank := by
  have hrank := h.one_le_rank ha
  cases h with
  | leftKind h => exact absurd hrank (by decide)
  | leftValue h => exact absurd h hx.not_lacks
  | _ => decide

theorem Refuses.three_le_rank (h : Refuses op a b cause e) (ha : a.computes = true)
    (hx : a.HasValue x) (hb : b.isAtom = true) : 3 ≤ cause.rank := by
  have hrank := h.two_le_rank ha hx
  cases h with
  | leftKind h => exact absurd hrank (by decide)
  | leftValue h => exact absurd hrank (by decide)
  | rightKind h => exact absurd hb (by simp [h])
  | _ => decide

/-- What is wrong with operands that have values is a matter of the operation. -/
theorem Refuses.of_hasValue (h : Refuses op a b cause e) (ha : a.computes = true)
    (hx : a.HasValue x) (hy : b.HasValue y) :
    cause = .fraction ∧ e = .notPermitted ∧ op = .modulo ∧ (x.den ≠ 1 ∨ y.den ≠ 1) ∨
      cause = .zero ∧ e = .divisionByZero ∧ (op = .divide ∨ op = .modulo) ∧ y = 0 := by
  have hrank := h.three_le_rank ha hx hy.isAtom
  cases h with
  | rightValue h => exact absurd h hy.not_lacks
  | fraction hop hc hz h =>
    refine .inl ⟨rfl, rfl, hop, ?_⟩
    obtain rfl | rfl := hc
    · exact .inl (hz.unique hx ▸ h)
    · exact .inr (hz.unique hy ▸ h)
  | zero hop hb => exact .inr ⟨rfl, rfl, hop, hy.unique hb⟩
  | _ => exact absurd hrank (by decide)

/-- Nothing is wrong with operands that have values which the operation takes. -/
theorem not_refuses (ha : a.computes = true) (hx : a.HasValue x) (hy : b.HasValue y)
    (hadmits : op.Admits x y) : ¬Refuses op a b cause e := by
  intro h
  obtain ⟨-, -, rfl, hden⟩ | ⟨-, -, rfl | rfl, hzero⟩ := h.of_hasValue ha hx hy
  · exact hden.elim (· hadmits.1) (· hadmits.2.1)
  · exact hadmits hzero
  · exact hadmits.2.2 hzero

theorem refusedFirst_leftKind (h : a.computes = false) :
    RefusedFirst op a b (.notANumber a.kind) :=
  ⟨.leftKind, .leftKind h, fun _ _ _ => Nat.zero_le _⟩

theorem refusedFirst_leftValue (ha : a.computes = true) (h : a.Lacks e) :
    RefusedFirst op a b e :=
  ⟨.leftValue, .leftValue h, fun _ _ h' => h'.one_le_rank ha⟩

theorem refusedFirst_rightKind (ha : a.computes = true) (hx : a.HasValue x)
    (h : b.isAtom = false) : RefusedFirst op a b (.notAnAtom b.kind) :=
  ⟨.rightKind, .rightKind h, fun _ _ h' => h'.two_le_rank ha hx⟩

theorem refusedFirst_rightValue (ha : a.computes = true) (hx : a.HasValue x)
    (hb : b.isAtom = true) (h : b.Lacks e) : RefusedFirst op a b e :=
  ⟨.rightValue, .rightValue h, fun _ _ h' => h'.three_le_rank ha hx hb⟩

/-- What an operation does not take is refused for being no integer, or else for being zero. -/
theorem refusedFirst_refusal (ha : a.computes = true) (hx : a.HasValue x) (hy : b.HasValue y)
    (h : ¬op.Admits x y) : RefusedFirst op a b (op.refusal x y) := by
  by_cases hfraction : op = .modulo ∧ (x.den ≠ 1 ∨ y.den ≠ 1)
  · rw [Operation.refusal, if_pos hfraction]
    obtain ⟨hop, hden⟩ := hfraction
    refine ⟨.fraction, hden.elim (.fraction hop (.inl rfl) hx) (.fraction hop (.inr rfl) hy), ?_⟩
    intro cause' e' h'
    obtain ⟨rfl, -⟩ | ⟨rfl, -⟩ := h'.of_hasValue ha hx hy <;> decide
  · rw [Operation.refusal, if_neg hfraction]
    have hzero : (op = .divide ∨ op = .modulo) ∧ y = 0 := by
      cases op with
      | divide => exact ⟨.inl rfl, not_ne_iff.mp h⟩
      | modulo =>
        rw [not_and_or, not_or, not_ne_iff, not_ne_iff] at hfraction
        obtain ⟨hxden, hyden⟩ := hfraction.resolve_left (· rfl)
        exact ⟨.inr rfl, not_ne_iff.mp fun hy => h ⟨hxden, hyden, hy⟩⟩
      | _ => exact absurd trivial h
    obtain ⟨hop, rfl⟩ := hzero
    refine ⟨.zero, .zero hop hy, ?_⟩
    intro cause' e' h'
    obtain ⟨-, -, hmodulo, hden⟩ | ⟨rfl, -⟩ := h'.of_hasValue ha hx hy
    · exact absurd ⟨hmodulo, hden⟩ hfraction
    · exact Nat.le_refl _

/-! ## The outcome -/

theorem leftOperand_eq (ha : a.computes = true) : a.leftOperand = a.toRat := by
  rw [leftOperand, ← computes_eq, if_pos ha]

theorem rightOperand_eq (hb : b.isAtom = true) : b.rightOperand = b.toRat := by
  rw [rightOperand, if_pos hb]

/-- An operation on operands that have values is the operation on these. -/
theorem compute_of_hasValue (op : Operation) (σ : Store) (ha : a.computes = true)
    (hx : a.HasValue x) (hy : b.HasValue y) :
    a.compute op b σ = (op.apply x y).map (σ.makeRational ·) := by
  rw [compute_eq_map, leftOperand_eq ha, rightOperand_eq hy.isAtom, toRat_eq_ok_iff.mpr hx,
    toRat_eq_ok_iff.mpr hy]
  rfl

/-- An operation has a result, or it is refused for the first cause. -/
theorem compute_cases (op : Operation) (a b : Value) (σ : Store) :
    (∃ x y r, (a.computes = true ∧ a.HasValue x) ∧ b.HasValue y ∧ op.Admits x y ∧
        op.Yields x y r ∧ a.compute op b σ = .ok (σ.makeRational r)) ∨
      ∃ e, RefusedFirst op a b e ∧ a.compute op b σ = .error e := by
  -- The cases come in the order of the causes, each with the operands in order up to there.
  unfold compute
  cases ha : a.computes with
  | false =>
    refine .inr ⟨_, refusedFirst_leftKind ha, ?_⟩
    rw [leftOperand, ← computes_eq, ha]
    rfl
  | true =>
  rw [leftOperand_eq ha]
  cases hx : a.toRat with
  | error e =>
    exact .inr ⟨e, refusedFirst_leftValue ha ((toRat_eq_error_iff (isAtom_of_computes ha)).mp hx),
      rfl⟩
  | ok x =>
  have hx := toRat_eq_ok_iff.mp hx
  cases hb : b.isAtom with
  | false =>
    refine .inr ⟨_, refusedFirst_rightKind ha hx hb, ?_⟩
    rw [rightOperand, hb]
    rfl
  | true =>
  rw [rightOperand_eq hb]
  cases hy : b.toRat with
  | error e =>
    exact .inr ⟨e, refusedFirst_rightValue ha hx hb ((toRat_eq_error_iff hb).mp hy), rfl⟩
  | ok y =>
  have hy := toRat_eq_ok_iff.mp hy
  obtain ⟨hadmits, r, hyields, hresult⟩ | ⟨hadmits, herror⟩ := op.apply_cases x y
  · refine .inl ⟨x, y, r, ⟨rfl, hx⟩, hy, hadmits, hyields, ?_⟩
    simp only [bind, Except.bind, hresult]
    rfl
  · refine .inr ⟨_, refusedFirst_refusal ha hx hy hadmits, ?_⟩
    simp only [bind, Except.bind, herror]

theorem exists_makeRational_eq (σ : Store) (r : Rat) :
    ∃ label, (σ.makeRational r).1 = .rational label r := by
  unfold Store.makeRational
  split
  · exact ⟨_, rfl⟩
  · exact ⟨_, rfl⟩

/-! ## Breaking off -/

/-- The contents of the atom are a numeral at which reading breaks off. -/
inductive Overflows : Value → Prop where
  | string (label : Instance) {text : String} {t : List Char}
      (htext : Text.IsStripped text.toList t) (h : Exact.IsOverflow t) :
      Overflows (.string label text)
  | symbol (label : Instance) {text : String} {t : List Char}
      (htext : Text.IsStripped text.toList t) (h : Exact.IsOverflow t) :
      Overflows (.symbol label text)

/-- An operation reads such contents: those of a symbol on the left, or those of any atom on the
right if the left operand is in order. -/
inductive BreaksOff (a b : Value) : Prop where
  | left (hkind : a.kind = .symbol) (h : a.Overflows) : BreaksOff a b
  | right {x : Rat} (ha : a.computes = true) (hx : a.HasValue x) (h : b.Overflows) : BreaksOff a b

theorem overflows_iff : a.overflows = true ↔ a.Overflows := by
  constructor
  · intro h
    cases a with
    | string label text =>
      obtain ⟨t, htext, ht⟩ := Exact.read_eq_overflow_iff.mp (of_decide_eq_true h)
      exact .string label htext ht
    | symbol label text =>
      obtain ⟨t, htext, ht⟩ := Exact.read_eq_overflow_iff.mp (of_decide_eq_true h)
      exact .symbol label htext ht
    | _ => cases h
  · intro h
    cases h with
    | string label htext h | symbol label htext h =>
      exact decide_eq_true (Exact.read_eq_overflow_iff.mpr ⟨_, htext, h⟩)

theorem leftOperand_isOk_iff :
    a.leftOperand.isOk = true ↔ ∃ x, a.computes = true ∧ a.HasValue x := by
  cases ha : a.computes with
  | false => simp [leftOperand, ← computes_eq, ha, Except.isOk, Except.toBool]
  | true =>
    simp only [leftOperand_eq ha, ← toRat_eq_ok_iff, true_and]
    cases a.toRat <;> simp [Except.isOk, Except.toBool]

theorem breaksOff_iff : a.breaksOff b = true ↔ BreaksOff a b := by
  rw [breaksOff, Bool.or_eq_true, Bool.and_eq_true, Bool.and_eq_true, beq_iff_eq, overflows_iff,
    overflows_iff, leftOperand_isOk_iff]
  constructor
  · rintro (⟨hkind, h⟩ | ⟨⟨x, ha, hx⟩, h⟩)
    · exact .left hkind h
    · exact .right ha hx h
  · rintro (⟨hkind, h⟩ | ⟨ha, hx, h⟩)
    · exact .inl ⟨hkind, h⟩
    · exact .inr ⟨⟨_, ha, hx⟩, h⟩

/-- At contents at which reading breaks off there is no number. -/
theorem HasValue.not_overflows (hx : a.HasValue x) : ¬a.Overflows := by
  intro h
  have hread := overflows_iff.mpr h
  cases hx with
  | string label hx | symbol label hx =>
    rw [Exact.ofText?, of_decide_eq_true hread] at hx
    cases hx
  | _ => cases h

/-- No operation that has a result breaks off. -/
theorem HasValue.not_breaksOff (hx : a.HasValue x) (hy : b.HasValue y) : ¬BreaksOff a b := by
  rintro (⟨-, h⟩ | ⟨-, -, h⟩)
  · exact hx.not_overflows h
  · exact hy.not_overflows h

end Value

namespace Session

open Value

/-- The answer of an operation on two values, with the instances that any actions have made shared.

There is a result exactly if the left operand is a number or a symbol, both operands are equal to
rationals, and the operation takes these.  It is a rational in lowest terms, and if its instance was
given before, it was given for this rational.  Otherwise the answer is the error of the first cause
for which the operation is refused. -/
theorem compute_outcome (actions : List Action) (op : Operation) (a b : Value) :
    let s := after actions
    ((∃ given, a.compute op b s.store = .ok given) ↔
        ∃ x y, (a.computes = true ∧ a.HasValue x) ∧ b.HasValue y ∧ op.Admits x y) ∧
      (∀ given, a.compute op b s.store = .ok given →
        ∃ label x y r, given.1 = .rational label r ∧ r.num.natAbs.Coprime r.den ∧
          a.HasValue x ∧ b.HasValue y ∧ op.Admits x y ∧ op.Yields x y r ∧
          ∀ i, (s.value i).same given.1 = true → s.value i = given.1) ∧
      ∀ e, a.compute op b s.store = .error e ↔ RefusedFirst op a b e := by
  intro s
  obtain ⟨m, hm⟩ := exists_fits_after actions
  obtain ⟨x, y, r, hleft, hy, hadmits, hyields, hresult⟩ | ⟨e, hfirst, herror⟩ :=
    compute_cases op a b s.store
  · rw [hresult]
    refine ⟨⟨fun _ => ⟨x, y, hleft, hy, hadmits⟩, fun _ => ⟨_, rfl⟩⟩, ?_, ?_⟩
    · rintro given ⟨⟩
      obtain ⟨label, hlabel⟩ := exists_makeRational_eq s.store r
      obtain ⟨m', hm', -, hregistered⟩ := hm.store.gives_makeRational r
      refine ⟨label, x, y, r, hlabel, r.reduced, hleft.2, hy, hadmits, hyields, ?_⟩
      exact fun i hsame => ((hm.value i).mono hm').eq_of_same hregistered hsame
    · intro e
      constructor
      · intro h
        cases h
      · rintro ⟨cause, hrefuses, -⟩
        exact absurd hrefuses (not_refuses hleft.1 hleft.2 hy hadmits)
  · rw [herror]
    refine ⟨⟨?_, ?_⟩, ?_, fun e' => ⟨?_, ?_⟩⟩
    · rintro ⟨given, ⟨⟩⟩
    · rintro ⟨x, y, hleft, hy, hadmits⟩
      obtain ⟨cause, hrefuses, -⟩ := hfirst
      exact absurd hrefuses (not_refuses hleft.1 hleft.2 hy hadmits)
    · rintro given ⟨⟩
    · rintro ⟨⟩
      exact hfirst
    · exact fun hfirst' => congrArg _ (hfirst.unique hfirst')

/-- What an operation on two values comes to, with the instances that any actions have made shared.

It breaks off where it reads a numeral with the smallest exponent, and nowhere else.  There is a
result exactly if the left operand is a number or a symbol, both operands are equal to rationals,
and the operation takes these.  It is a rational in lowest terms, and if its instance was given
before, it was given for this rational.  If there is an error, it is that of the first cause for
which the operation is refused, and there is one if the operation is refused and does not break
off. -/
theorem attempt_outcome (actions : List Action) (op : Operation) (a b : Value) :
    let s := after actions
    (a.attempt op b s.store = none ↔ BreaksOff a b) ∧
      ((∃ given, a.attempt op b s.store = some (.ok given)) ↔
        ∃ x y, (a.computes = true ∧ a.HasValue x) ∧ b.HasValue y ∧ op.Admits x y) ∧
      (∀ given, a.attempt op b s.store = some (.ok given) →
        ∃ label x y r, given.1 = .rational label r ∧ r.num.natAbs.Coprime r.den ∧
          a.HasValue x ∧ b.HasValue y ∧ op.Admits x y ∧ op.Yields x y r ∧
          ∀ i, (s.value i).same given.1 = true → s.value i = given.1) ∧
      ∀ e, a.attempt op b s.store = some (.error e) ↔ RefusedFirst op a b e ∧ ¬BreaksOff a b := by
  intro s
  obtain ⟨hresult, hgiven, herror⟩ := compute_outcome actions op a b
  by_cases hbreaks : BreaksOff a b
  · have hnone : a.attempt op b s.store = none := if_pos (breaksOff_iff.mpr hbreaks)
    rw [hnone]
    refine ⟨iff_of_true rfl hbreaks, iff_of_false ?_ ?_, nofun, fun e => iff_of_false nofun ?_⟩
    · rintro ⟨given, ⟨⟩⟩
    · rintro ⟨x, y, ⟨-, hx⟩, hy, -⟩
      exact hx.not_breaksOff hy hbreaks
    · exact fun h => h.2 hbreaks
  · have hsome : a.attempt op b s.store = some (a.compute op b s.store) :=
      if_neg (mt breaksOff_iff.mp hbreaks)
    simp only [hsome, Option.some.injEq]
    exact ⟨iff_of_false nofun hbreaks, hresult, hgiven, fun e =>
      (herror e).trans (and_iff_left hbreaks).symm⟩

/-- The symbol on the left spells no number, and yet adding to it gives no error. -/
theorem attempt_smallestExponent :
    let a := symbol 0 "1e-9223372036854775808"
    let b := integer 1 1
    RefusedFirst .add a b (.notNumeric "1e-9223372036854775808") ∧
      a.attempt .add b (after []).store = none := by
  intro a b
  have hread : Exact.read "1e-9223372036854775808".toList = .overflow := by decide +kernel
  have hnumber : Exact.ofText? "1e-9223372036854775808".toList = none := by
    rw [Exact.ofText?, hread, Exact.Reading.number?]
  refine ⟨refusedFirst_leftValue rfl (.symbol 0 hnumber), if_pos (breaksOff_iff.mpr ?_)⟩
  exact .left rfl (overflows_iff.mp (decide_eq_true hread))

end Session

end LispShell
