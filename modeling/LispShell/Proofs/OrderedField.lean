import LispShell.Proofs.Comparison
import LispShell.Proofs.Numeric
import LispShell.Proofs.Symmetry

set_option autoImplicit false

/-!
# The numbers as an ordered field

Integers, rationals and finite floats stand for rationals, each in its own way, and the result of an
operation is a rational that may have been shared before.  The comparisons see none of this.  What
an `Expression` over such numbers comes to, step by step and with the store that each step leaves,
stands for what rational arithmetic makes of it (`Expression.Denotes.evaluate`), and numbers are
compared by what they stand for.  So the laws of an ordered field hold of them
(`Session.fieldLaws_after`).
-/

namespace LispShell

namespace Value

variable {σ : Store} {m m' : Register} {a b c : Value} {x y z : Rat}

/-! ## Exact numbers -/

/-- Integers, rationals and finite floats. -/
def isExact (a : Value) : Bool :=
  a.isNumber && a.isNumeric

/-- A number of the register, and the rational that it is equal to. -/
structure Stands (m : Register) (a : Value) (x : Rat) : Prop where
  registered : a.Registered m
  isNumber : a.isNumber = true
  hasValue : a.HasValue x

theorem exists_stands (h : a.isExact = true) (hregistered : a.Registered m) :
    ∃ x, Stands m a x := by
  obtain ⟨hnumber, hnumeric⟩ := Bool.and_eq_true_iff.mp h
  obtain ⟨x, hx⟩ := exists_hasValue_of_isNumeric hnumeric
  exact ⟨x, hregistered, hnumber, hx⟩

theorem equals_of_isNumber (σ : Store) (ha : a.isNumber = true) :
    a.equals σ b = (a.same b || (b.isAtom && equalNumbers a b)) := by
  have hfree : a.isReferenceFree = true := by
    cases a <;> first | rfl | cases ha
  have hkind : a.kind ≠ .pair := by
    intro hpair
    rw [isNumber, hpair] at ha
    cases ha
  rw [equals_of_not_pairs σ hfree (fun hpair => hkind hpair.1), equalsAtom_of_isNumber ha]

namespace Stands

theorem mono (h : Stands m a x) (hm : m.Within m') : Stands m' a x :=
  ⟨h.registered.mono hm, h.isNumber, h.hasValue⟩

theorem less_eq (ha : Stands m a x) (hb : Stands m b y) : a.less b = .ok (decide (x < y)) :=
  less_of_hasValue ha.isNumber ha.hasValue hb.hasValue

theorem greater_eq (ha : Stands m a x) (hb : Stands m b y) : a.greater b = .ok (decide (y < x)) :=
  greater_of_hasValue ha.isNumber ha.hasValue hb.hasValue

/-- Whether an instance is shared makes no difference to equality. -/
theorem equals_eq (σ : Store) (ha : Stands m a x) (hb : Stands m b y) :
    a.equals σ b = decide (x = y) := by
  have hnumbers : equalNumbers a b = decide (x = y) := by
    rw [equalNumbers, toRat_eq_ok_iff.mpr ha.hasValue, toRat_eq_ok_iff.mpr hb.hasValue]
    exact Bool.beq_eq_decide_eq x y
  rw [equals_of_isNumber σ ha.isNumber, hb.hasValue.isAtom, hnumbers, Bool.true_and]
  cases hsame : a.same b with
  | false => rfl
  | true =>
    obtain rfl := ha.registered.eq_of_same hb.registered hsame
    simp [ha.hasValue.unique hb.hasValue]

theorem eq_of_equals (ha : Stands m a x) (hb : Stands m b y) (h : a.equals σ b = true) :
    x = y := by
  rwa [ha.equals_eq σ hb, decide_eq_true_iff] at h

/-- An operation on numbers depends on what they stand for only. -/
theorem compute_eq (op : Operation) (σ : Store) (ha : Stands m a x) (hb : Stands m b y) :
    a.compute op b σ = (op.apply x y).map (σ.makeRational ·) :=
  compute_of_hasValue op σ (computes_of_isNumber ha.isNumber) ha.hasValue hb.hasValue

end Stands

/-- A larger register fits the store of an operation, and the value stands for the rational. -/
def Reaches (m : Register) (x : Rat) (given : Value × Store) : Prop :=
  ∃ m', m.Within m' ∧ given.2.Keeps m' ∧ Stands m' given.1 x

theorem reaches_makeRational (hσ : σ.Keeps m) (r : Rat) : Reaches m r (σ.makeRational r) := by
  obtain ⟨m', hm, hσ', hregistered⟩ := hσ.gives_makeRational r
  obtain ⟨label, hlabel⟩ := exists_makeRational_eq σ r
  refine ⟨m', hm, hσ', hregistered, ?_, ?_⟩
  · rw [hlabel]
    rfl
  · rw [hlabel]
    exact .rational label r

/-! ## Expressions -/

/-- An expression of operations on values. -/
inductive Expression where
  | value (a : Value)
  | apply (op : Operation) (left right : Expression)

namespace Expression

instance : Coe Value Expression := ⟨.value⟩
instance : Add Expression := ⟨.apply .add⟩
instance : Sub Expression := ⟨.apply .subtract⟩
instance : Mul Expression := ⟨.apply .multiply⟩
instance : Div Expression := ⟨.apply .divide⟩

/-- What the expression comes to, the left operand first, each operation in the store that the one
before leaves. -/
def evaluate : Expression → Store → Except ValueError (Value × Store)
  | .value a, σ => .ok (a, σ)
  | .apply op left right, σ => do
    let (a, σ) ← left.evaluate σ
    let (b, σ) ← right.evaluate σ
    a.compute op b σ

/-- The equality of what two expressions come to. -/
def equals (left right : Expression) (σ : Store) : Except ValueError Bool := do
  let (a, σ) ← left.evaluate σ
  let (b, σ) ← right.evaluate σ
  return a.equals σ b

/-- The order of what two expressions come to. -/
def less (left right : Expression) (σ : Store) : Except ValueError Bool := do
  let (a, σ) ← left.evaluate σ
  let (b, _) ← right.evaluate σ
  a.less b

/-- What rational arithmetic makes of an expression over numbers of the register. -/
inductive Denotes (m : Register) : Expression → Rat → Prop where
  | value {a : Value} {x : Rat} (h : Stands m a x) : Denotes m (.value a) x
  | apply {op : Operation} {left right : Expression} {x y z : Rat} (hleft : Denotes m left x)
      (hright : Denotes m right y) (h : op.apply x y = .ok z) : Denotes m (.apply op left right) z

namespace Denotes

variable {e e' : Expression}

theorem add (h : e.Denotes m x) (h' : e'.Denotes m y) : (e + e').Denotes m (x + y) :=
  .apply h h' rfl

theorem sub (h : e.Denotes m x) (h' : e'.Denotes m y) : (e - e').Denotes m (x - y) :=
  .apply h h' rfl

theorem mul (h : e.Denotes m x) (h' : e'.Denotes m y) : (e * e').Denotes m (x * y) :=
  .apply h h' rfl

theorem div (h : e.Denotes m x) (h' : e'.Denotes m y) (hy : y ≠ 0) :
    (e / e').Denotes m (x / y) :=
  .apply h h' (if_neg hy)

theorem mono (h : e.Denotes m x) (hm : m.Within m') : e.Denotes m' x := by
  induction h with
  | value h => exact .value (h.mono hm)
  | apply _ _ h ihLeft ihRight => exact .apply ihLeft ihRight h

/-- An expression comes to a number that stands for what the expression denotes. -/
theorem evaluate (h : e.Denotes m x) (hσ : σ.Keeps m) :
    ∃ given, e.evaluate σ = .ok given ∧ Reaches m x given := by
  -- The right operand meets the store and the register that the left one has extended.
  induction e generalizing σ m x with
  | value a =>
    cases h with
    | value h => exact ⟨_, rfl, m, Register.Within.refl m, hσ, h⟩
  | apply op left right ihLeft ihRight =>
    cases h with
    | apply hleft hright happly =>
      obtain ⟨⟨a, σ₁⟩, ha, m₁, hm₁, hσ₁, hstands⟩ := ihLeft hleft hσ
      obtain ⟨⟨b, σ₂⟩, hb, m₂, hm₂, hσ₂, hstands'⟩ := ihRight (hright.mono hm₁) hσ₁
      obtain ⟨m₃, hm₃, hresult⟩ := reaches_makeRational hσ₂ x
      refine ⟨σ₂.makeRational x, ?_, m₃, (hm₁.trans hm₂).trans hm₃, hresult⟩
      simp only [Expression.evaluate, ha, hb, bind, Except.bind,
        (hstands.mono hm₂).compute_eq op σ₂ hstands', happly]
      rfl

/-- What two expressions come to, one after the other. -/
theorem evaluate_two (h : e.Denotes m x) (h' : e'.Denotes m y) (hσ : σ.Keeps m) :
    ∃ m' a σ₁ b σ₂, e.evaluate σ = .ok (a, σ₁) ∧ e'.evaluate σ₁ = .ok (b, σ₂) ∧
      Stands m' a x ∧ Stands m' b y := by
  obtain ⟨⟨a, σ₁⟩, ha, m₁, hm₁, hσ₁, hstands⟩ := h.evaluate hσ
  obtain ⟨⟨b, σ₂⟩, hb, m₂, hm₂, -, hstands'⟩ := (h'.mono hm₁).evaluate hσ₁
  exact ⟨m₂, a, σ₁, b, σ₂, ha, hb, hstands.mono hm₂, hstands'⟩

theorem equals_eq (h : e.Denotes m x) (h' : e'.Denotes m y) (hσ : σ.Keeps m) :
    e.equals e' σ = .ok (decide (x = y)) := by
  obtain ⟨m', a, σ₁, b, σ₂, ha, hb, hstands, hstands'⟩ := h.evaluate_two h' hσ
  simp only [Expression.equals, ha, hb, bind, Except.bind, pure, Except.pure,
    hstands.equals_eq σ₂ hstands']

theorem less_eq (h : e.Denotes m x) (h' : e'.Denotes m y) (hσ : σ.Keeps m) :
    e.less e' σ = .ok (decide (x < y)) := by
  obtain ⟨m', a, σ₁, b, σ₂, ha, hb, hstands, hstands'⟩ := h.evaluate_two h' hσ
  simp only [Expression.less, ha, hb, bind, Except.bind, hstands.less_eq hstands']

/-- Expressions that denote one rational come to equal numbers. -/
theorem equals_of_eq (h : e.Denotes m x) (h' : e'.Denotes m y) (hσ : σ.Keeps m) (heq : x = y) :
    e.equals e' σ = .ok true := by
  rw [h.equals_eq h' hσ, decide_eq_true heq]

end Denotes

end Expression

/-! ## The laws -/

/-- The laws of an ordered field, of three values in a store. -/
structure FieldLaws (σ : Store) (a b c : Value) : Prop where
  /-- exactly one of the comparisons holds -/
  trichotomy : ∃ before after, a.less b = .ok before ∧ a.greater b = .ok after ∧
    [before, after, a.equals σ b].count true = 1
  less_trans : a.less b = .ok true → b.less c = .ok true → a.less c = .ok true
  less_congr : a.equals σ b = true → a.less c = b.less c ∧ c.less a = c.less b
  greater_congr : a.equals σ b = true → a.greater c = b.greater c ∧ c.greater a = c.greater b
  equals_congr : a.equals σ b = true → a.equals σ c = b.equals σ c ∧ c.equals σ a = c.equals σ b
  compute_congr : a.equals σ b = true → ∀ op,
    a.compute op c σ = b.compute op c σ ∧ c.compute op a σ = c.compute op b σ
  add_comm : Expression.equals (a + b) (b + a) σ = .ok true
  add_assoc : Expression.equals (a + b + c) (a + (b + c)) σ = .ok true
  mul_comm : Expression.equals (a * b) (b * a) σ = .ok true
  mul_assoc : Expression.equals (a * b * c) (a * (b * c)) σ = .ok true
  mul_add : Expression.equals (a * (b + c)) (a * b + a * c) σ = .ok true
  add_mul : Expression.equals ((a + b) * c) (a * c + b * c) σ = .ok true
  add_sub_cancel : Expression.equals (a + b - b) a σ = .ok true
  mul_div_cancel : ¬b.HasValue 0 → Expression.equals (a * b / b) a σ = .ok true
  add_less_add : Expression.less (a + c) (b + c) σ = a.less b
  mul_less_mul : ∀ z, c.HasValue z → 0 < z → Expression.less (a * c) (b * c) σ = a.less b

namespace Stands

theorem trichotomy (σ : Store) (ha : Stands m a x) (hb : Stands m b y) :
    ∃ before after, a.less b = .ok before ∧ a.greater b = .ok after ∧
      [before, after, a.equals σ b].count true = 1 := by
  refine ⟨_, _, ha.less_eq hb, ha.greater_eq hb, ?_⟩
  rw [ha.equals_eq σ hb]
  obtain hlt | rfl | hgt := lt_trichotomy x y
  · simp [hlt, hlt.not_gt, hlt.ne]
  · simp
  · simp [hgt, hgt.not_gt, hgt.ne']

theorem less_trans (ha : Stands m a x) (hb : Stands m b y) (hc : Stands m c z)
    (h : a.less b = .ok true) (h' : b.less c = .ok true) : a.less c = .ok true := by
  rw [ha.less_eq hb, Except.ok.injEq, decide_eq_true_iff] at h
  rw [hb.less_eq hc, Except.ok.injEq, decide_eq_true_iff] at h'
  rw [ha.less_eq hc, decide_eq_true (h.trans h')]

theorem mul_div_cancel (ha : Stands m a x) (hb : Stands m b y) (hσ : σ.Keeps m)
    (h : ¬b.HasValue 0) : Expression.equals (a * b / b) a σ = .ok true := by
  have hy : y ≠ 0 := by
    rintro rfl
    exact h hb.hasValue
  have hproduct := (Expression.Denotes.value ha).mul (.value hb)
  exact (hproduct.div (.value hb) hy).equals_of_eq (.value ha) hσ (mul_div_cancel_right₀ x hy)

theorem add_less_add (ha : Stands m a x) (hb : Stands m b y) (hc : Stands m c z)
    (hσ : σ.Keeps m) : Expression.less (a + c) (b + c) σ = a.less b := by
  have hleft := (Expression.Denotes.value ha).add (.value hc)
  have hright := (Expression.Denotes.value hb).add (.value hc)
  rw [hleft.less_eq hright hσ, ha.less_eq hb, Except.ok.injEq, decide_eq_decide,
    add_lt_add_iff_right]

theorem mul_less_mul (ha : Stands m a x) (hb : Stands m b y) (hc : Stands m c z)
    (hσ : σ.Keeps m) (hz : 0 < z) : Expression.less (a * c) (b * c) σ = a.less b := by
  have hleft := (Expression.Denotes.value ha).mul (.value hc)
  have hright := (Expression.Denotes.value hb).mul (.value hc)
  rw [hleft.less_eq hright hσ, ha.less_eq hb, Except.ok.injEq, decide_eq_decide,
    mul_lt_mul_iff_left₀ hz]

/-- The laws are those of the rationals that the numbers stand for. -/
theorem fieldLaws (ha : Stands m a x) (hb : Stands m b y) (hc : Stands m c z) (hσ : σ.Keeps m) :
    FieldLaws σ a b c := by
  have hda := Expression.Denotes.value ha
  have hdb := Expression.Denotes.value hb
  have hdc := Expression.Denotes.value hc
  exact
    { trichotomy := ha.trichotomy σ hb
      less_trans := ha.less_trans hb hc
      less_congr := by
        intro heq
        obtain rfl := ha.eq_of_equals hb heq
        exact ⟨(ha.less_eq hc).trans (hb.less_eq hc).symm,
          (hc.less_eq ha).trans (hc.less_eq hb).symm⟩
      greater_congr := by
        intro heq
        obtain rfl := ha.eq_of_equals hb heq
        exact ⟨(ha.greater_eq hc).trans (hb.greater_eq hc).symm,
          (hc.greater_eq ha).trans (hc.greater_eq hb).symm⟩
      equals_congr := by
        intro heq
        obtain rfl := ha.eq_of_equals hb heq
        exact ⟨(ha.equals_eq σ hc).trans (hb.equals_eq σ hc).symm,
          (hc.equals_eq σ ha).trans (hc.equals_eq σ hb).symm⟩
      compute_congr := by
        intro heq op
        obtain rfl := ha.eq_of_equals hb heq
        exact ⟨(ha.compute_eq op σ hc).trans (hb.compute_eq op σ hc).symm,
          (hc.compute_eq op σ ha).trans (hc.compute_eq op σ hb).symm⟩
      add_comm := (hda.add hdb).equals_of_eq (hdb.add hda) hσ (add_comm x y)
      add_assoc := ((hda.add hdb).add hdc).equals_of_eq (hda.add (hdb.add hdc)) hσ
        (add_assoc x y z)
      mul_comm := (hda.mul hdb).equals_of_eq (hdb.mul hda) hσ (mul_comm x y)
      mul_assoc := ((hda.mul hdb).mul hdc).equals_of_eq (hda.mul (hdb.mul hdc)) hσ
        (mul_assoc x y z)
      mul_add := (hda.mul (hdb.add hdc)).equals_of_eq ((hda.mul hdb).add (hda.mul hdc)) hσ
        (mul_add x y z)
      add_mul := ((hda.add hdb).mul hdc).equals_of_eq ((hda.mul hdc).add (hdb.mul hdc)) hσ
        (add_mul x y z)
      add_sub_cancel := ((hda.add hdb).sub hdb).equals_of_eq hda hσ (add_sub_cancel_right x y)
      mul_div_cancel := ha.mul_div_cancel hb hσ
      add_less_add := ha.add_less_add hb hc hσ
      mul_less_mul := fun z' hz' => hc.hasValue.unique hz' ▸ ha.mul_less_mul hb hc hσ }

end Stands

end Value

namespace Session

open Value

/-- The laws hold of the numbers that any actions have given, in any mix of integers, rationals and
finite floats. -/
theorem fieldLaws_after (actions : List Action) (i j k : Nat) :
    let s := after actions
    (s.value i).isExact = true → (s.value j).isExact = true → (s.value k).isExact = true →
      FieldLaws s.store (s.value i) (s.value j) (s.value k) := by
  intro s hi hj hk
  obtain ⟨m, hm⟩ := exists_fits_after actions
  obtain ⟨x, hx⟩ := exists_stands hi (hm.value i)
  obtain ⟨y, hy⟩ := exists_stands hj (hm.value j)
  obtain ⟨z, hz⟩ := exists_stands hk (hm.value k)
  exact hx.fieldLaws hy hz hm.store

/-- An integer, a float and a rational. -/
theorem fieldLaws_after_mixed :
    let s := after [.ownInteger 3, .float (.zero true), .ownRational (-22 / 7)]
    ((s.value 0).isExact = true ∧ (s.value 1).isExact = true ∧ (s.value 2).isExact = true) ∧
      FieldLaws s.store (s.value 0) (s.value 1) (s.value 2) := by
  exact ⟨⟨rfl, rfl, rfl⟩, fieldLaws_after _ 0 1 2 rfl rfl rfl⟩

end Session

end LispShell
