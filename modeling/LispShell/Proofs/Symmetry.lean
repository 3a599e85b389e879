import LispShell.Proofs.Equality
import LispShell.Proofs.Rounding
import Mathlib.Algebra.Field.Rat

set_option autoImplicit false

/-!
# Equality from both sides

What the left value is decides how two values are compared, so the two orders of one question are
two questions.  Atoms fall into three classes, each with a rule of its own: booleans are compared by
truth, numbers by exact value and strings and symbols by text.  Within a class the rule is the same
from both sides, and what is equal to one of two equal atoms is equal to the other.  Atoms of
different classes may be in dispute: the rule of the one finds them equal and the rule of the other
does not.

In two values without references the atoms at the same places decide.  If none of these are in
dispute, the values are equal from both sides or from none; if some are, they are not equal from
both sides (`Session.equals_comm_iff`).  Equality of values of one kind asks for one kind at the top
only, so it is no better off (`Session.equalsSameKind_laws`).
-/

namespace LispShell

namespace Value

/-! ## Classes of atoms -/

/-- No reference is in the value. -/
def isReferenceFree : Value → Bool
  | .null => true
  | .boolean _ => true
  | .integer _ _ => true
  | .float _ => true
  | .rational _ _ => true
  | .string _ _ => true
  | .symbol _ _ => true
  | .pair _ head tail => head.isReferenceFree && tail.isReferenceFree
  | .var _ => false
  | .const _ _ => false

/-- The classes of atoms.  Atoms of one class are compared by one rule. -/
inductive AtomClass where
  | boolean
  | number
  | text
  deriving DecidableEq, Repr

/-- The class of an atom. -/
def class? (a : Value) : Option AtomClass :=
  match a.kind with
  | .boolean => some .boolean
  | .integer | .float | .rational => some .number
  | .string | .symbol => some .text
  | .null | .pair | .var | .const => none

/-- The rule of the left atom and the rule of the right atom, which is of a later class, give two
answers:

* `true` opposite a number other than 0 and 1;
* `true` opposite a text other than `true`, but for the symbol `false`, and `false` opposite the
  string `false`;
* a number opposite a text that is how the number is written but does not have its value, or that
  has its value but is not how it is written. -/
def disputes : Value → Value → Bool
  | .boolean x, .string _ text => if x then text != "true" else text == "false"
  | .boolean x, .symbol _ text => x && text != "true" && text != "false"
  | .boolean x, b => x && b.isNumber && !(b.isExactly 0 || b.isExactly 1)
  | a, b => a.isNumber && b.contents?.any fun text => (text == a.render) != equalNumbers a b

/-- The two are atoms in dispute, on whichever sides they are. -/
def clash (a b : Value) : Bool :=
  a.disputes b || b.disputes a

/-- The values at the same places of two values, as far as both have pairs there. -/
def opposite : Value → Value → List (Value × Value)
  | .pair _ head tail, .pair _ head' tail' => head.opposite head' ++ tail.opposite tail'
  | a, b => [(a, b)]

section

variable {a b c : Value}

theorem isReference_eq_false_of_isReferenceFree (h : a.isReferenceFree = true) :
    a.isReference = false := by
  cases a with
  | var place => cases h
  | const label value => cases h
  | _ => rfl

theorem opposite_of_not_pairs (h : ¬(a.kind = .pair ∧ b.kind = .pair)) :
    a.opposite b = [(a, b)] := by
  cases a with
  | pair label head tail =>
    cases b with
    | pair label' head' tail' => exact absurd ⟨rfl, rfl⟩ h
    | _ => rfl
  | _ => rfl

/-- The leaves of the recursion of `opposite`. -/
theorem not_pairs_of_forall_ne (h : ∀ label head tail label' head' tail',
    a = pair label head tail → b = pair label' head' tail' → False) :
    ¬(a.kind = .pair ∧ b.kind = .pair) := by
  rintro ⟨ha, hb⟩
  cases a with
  | pair label head tail =>
    cases b with
    | pair label' head' tail' => exact h _ _ _ _ _ _ rfl rfl
    | _ => cases hb
  | _ => cases ha

theorem same_comm (a b : Value) : a.same b = b.same a := by
  cases a <;> cases b <;> first | rfl | exact Bool.beq_comm

theorem class?_eq_of_kind_eq (h : a.kind = b.kind) : a.class? = b.class? := by
  rw [class?, class?, h]

/-! ## The rules -/

theorem equalsAtom_eq_false_of_left (h : a.isAtom = false) (b : Value) :
    a.equalsAtom b = false := by
  cases a <;> simp_all [equalsAtom, isAtom, kind]

theorem equalsAtom_eq_false_of_right (a : Value) (h : b.isAtom = false) :
    a.equalsAtom b = false := by
  unfold equalsAtom
  rw [h, Bool.false_and]

theorem equalsAtom_of_isNumber (h : a.isNumber = true) (b : Value) :
    a.equalsAtom b = (b.isAtom && equalNumbers a b) := by
  cases a <;> first | rfl | cases h

theorem equalsAtom_of_contents? {text : String} (h : a.contents? = some text) (b : Value) :
    a.equalsAtom b = (b.isAtom && text == b.atomText) := by
  cases a <;> cases h <;> rfl

theorem equalNumbers_comm (a b : Value) : equalNumbers a b = equalNumbers b a := by
  unfold equalNumbers
  cases a.toRat with
  | error e => cases b.toRat <;> rfl
  | ok x =>
    cases b.toRat with
    | error e => rfl
    | ok y => exact Bool.beq_comm

/-! ### Booleans opposite numbers -/

theorem isExactly_of_toRat_eq_ok {x : Rat} (h : a.toRat = .ok x) (y : Rat) :
    a.isExactly y = (y == x) := by
  rw [isExactly, h]

/-- Of the numbers the zeros are false. -/
theorem isTruthy_of_isNumber (h : a.isNumber = true) : a.isTruthy = !a.isExactly 0 := by
  cases a with
  | integer label v =>
    have hzero : v = 0 ↔ (0 : Rat) = v.toInt := by
      rw [eq_comm (b := (v.toInt : Rat)), ← Rat.intCast_zero, Rat.intCast_inj, ← Int64.toInt_zero,
        Int64.toInt_inj]
    rw [isExactly_of_toRat_eq_ok rfl, isTruthy, bne, Bool.not_inj_iff, Bool.eq_iff_iff, beq_iff_eq,
      beq_iff_eq, hzero]
  | rational label r =>
    rw [isExactly_of_toRat_eq_ok rfl, isTruthy, bne, Bool.beq_comm]
  | float x =>
    cases x with
    | nan => rfl
    | infinite negative => rfl
    | finite negative rank =>
      have hzero : rank.val = 0 ↔
          0 = if negative then -magnitudeOf rank else magnitudeOf rank := by
        rw [← magnitudeOf_eq_zero_iff]
        cases negative <;> simp [eq_comm]
      rw [isExactly_of_toRat_eq_ok rfl, isTruthy, Binary64.isZero, Bool.not_inj_iff,
        Bool.eq_iff_iff, beq_iff_eq, beq_iff_eq, hzero]
  | _ => cases h

theorem isExactly_one_of_isExactly_zero (h : a.isExactly 0 = true) : a.isExactly 1 = false := by
  unfold isExactly at h ⊢
  split at h
  next y _ =>
    cases eq_of_beq h
    rfl
  next => cases h

/-- The rule of a number, opposite a boolean. -/
theorem equalsAtom_boolean (h : a.isNumber = true) (x : Bool) :
    a.equalsAtom (.boolean x) = a.isExactly (if x then 1 else 0) := by
  rw [equalsAtom_of_isNumber h, equalNumbers_comm, equalNumbers_of_toRat_eq_ok rfl]
  rfl

theorem boolean_equalsAtom_bne_number (h : a.isNumber = true) (x : Bool) :
    ((boolean x).equalsAtom a != a.equalsAtom (boolean x)) = (boolean x).disputes a := by
  have hrule : (boolean x).equalsAtom a = (x == !a.isExactly 0) := by
    rw [← isTruthy_of_isNumber h]
    show (a.isAtom && _) = _
    rw [isAtom_of_isNumber h, Bool.true_and]
  have hdisputes : (boolean x).disputes a =
      (x && a.isNumber && !(a.isExactly 0 || a.isExactly 1)) := by
    cases a <;> first | rfl | cases h
  rw [hrule, hdisputes, h, equalsAtom_boolean h]
  have hzero := a.isExactly_one_of_isExactly_zero
  cases x <;> cases hx : a.isExactly 0 <;> simp_all

/-! ### Texts opposite booleans and numbers -/

theorem boolean_equalsAtom_bne_text {text : String} (h : a.contents? = some text) (x : Bool) :
    ((boolean x).equalsAtom a != a.equalsAtom (boolean x)) = (boolean x).disputes a := by
  have hwritten : (boolean x).atomText = if x then "true" else "false" := by
    cases x <;> rfl
  rw [equalsAtom_of_contents? h, hwritten]
  cases a with
  | string label text =>
    cases h
    cases x <;> simp [equalsAtom, isAtom, kind, isTruthy, disputes, bne]
  | symbol label text =>
    cases h
    cases x
    · simp [equalsAtom, isAtom, kind, isTruthy, disputes, bne]
    · -- Both rules find the symbols `true` and `false` opposite a boolean.
      by_cases hfalse : text = "false"
      · subst hfalse
        rfl
      · have hne : (text == "false") = false := beq_false_of_ne hfalse
        simp [equalsAtom, isAtom, kind, isTruthy, disputes, bne, hne]
  | _ => cases h

theorem number_equalsAtom_bne_text {text : String} (ha : a.isNumber = true)
    (hb : b.contents? = some text) : (a.equalsAtom b != b.equalsAtom a) = a.disputes b := by
  have hdisputes : a.disputes b =
      (a.isNumber && b.contents?.any fun text => (text == a.render) != equalNumbers a b) := by
    cases a <;> first | rfl | cases ha
  have hwritten : a.atomText = a.render := by
    cases a <;> first | rfl | cases ha
  have hatom : b.isAtom = true := by
    cases b <;> first | rfl | cases hb
  rw [hdisputes, ha, hb, equalsAtom_of_isNumber ha, equalsAtom_of_contents? hb, hwritten, hatom,
    isAtom_of_isNumber ha, Bool.true_and, Bool.true_and, Bool.true_and, Option.any_some, bne_comm]

/-! ### All atoms -/

theorem isAtom_eq_isSome_class? (a : Value) : a.isAtom = a.class?.isSome := by
  cases a <;> rfl

theorem exists_boolean_of_class? (h : a.class? = some .boolean) : ∃ x, a = .boolean x := by
  cases a with
  | boolean x => exact ⟨x, rfl⟩
  | _ => cases h

theorem isNumber_of_class? (h : a.class? = some .number) : a.isNumber = true := by
  cases a <;> first | rfl | cases h

theorem exists_contents?_of_class? (h : a.class? = some .text) :
    ∃ text, a.contents? = some text := by
  cases a with
  | string label text => exact ⟨text, rfl⟩
  | symbol label text => exact ⟨text, rfl⟩
  | _ => cases h

/-- The rules of the two classes may differ, and the left class is the earlier one. -/
def MayDispute (a b : Value) : Prop :=
  (a.class? = some .boolean ∧ (b.class? = some .number ∨ b.class? = some .text)) ∨
    (a.class? = some .number ∧ b.class? = some .text)

theorem mayDispute_of_disputes (h : a.disputes b = true) : MayDispute a b := by
  cases a <;> cases b <;> simp_all [MayDispute, disputes, class?, kind, isNumber, contents?]

theorem disputes_eq_false (h : ¬MayDispute a b) : a.disputes b = false :=
  Bool.eq_false_of_not_eq_true (mt mayDispute_of_disputes h)

theorem clash_comm (a b : Value) : a.clash b = b.clash a :=
  Bool.or_comm _ _

theorem clash_eq_false (h : ¬MayDispute a b) (h' : ¬MayDispute b a) : a.clash b = false := by
  rw [clash, disputes_eq_false h, disputes_eq_false h', Bool.or_self]

theorem clash_of_class?_eq (h : a.class? = b.class?) : a.clash b = false := by
  apply clash_eq_false
  · rintro (⟨ha, hb | hb⟩ | ⟨ha, hb⟩) <;> simp_all
  · rintro (⟨hb, ha | ha⟩ | ⟨hb, ha⟩) <;> simp_all

/-- Within a class the rule is one from both sides. -/
theorem equalsAtom_comm_of_class? (h : a.class? = b.class?) :
    a.equalsAtom b = b.equalsAtom a := by
  cases hclass : a.class? with
  | none =>
    have ha : a.isAtom = false := by rw [isAtom_eq_isSome_class?, hclass]; rfl
    have hb : b.isAtom = false := by rw [isAtom_eq_isSome_class?, ← h, hclass]; rfl
    rw [equalsAtom_eq_false_of_left ha, equalsAtom_eq_false_of_left hb]
  | some c =>
    have hb := h.symm.trans hclass
    cases c with
    | boolean =>
      obtain ⟨x, rfl⟩ := exists_boolean_of_class? hclass
      obtain ⟨y, rfl⟩ := exists_boolean_of_class? hb
      exact Bool.beq_comm
    | number =>
      have ha := isNumber_of_class? hclass
      have hb := isNumber_of_class? hb
      rw [equalsAtom_of_isNumber ha, equalsAtom_of_isNumber hb, isAtom_of_isNumber ha,
        isAtom_of_isNumber hb, equalNumbers_comm]
    | text =>
      obtain ⟨text, htext⟩ := exists_contents?_of_class? hclass
      obtain ⟨text', htext'⟩ := exists_contents?_of_class? hb
      rw [equalsAtom_of_contents? htext, equalsAtom_of_contents? htext', atomText, atomText, htext,
        htext', isAtom_eq_isSome_class?, isAtom_eq_isSome_class?, h, Bool.beq_comm]
      rfl

theorem class?_eq_of_not_mayDispute (ha : a.isAtom = true) (hb : b.isAtom = true)
    (h : ¬MayDispute a b) (h' : ¬MayDispute b a) : a.class? = b.class? := by
  rw [isAtom_eq_isSome_class?] at ha hb
  obtain ⟨c, hc⟩ := Option.isSome_iff_exists.mp ha
  obtain ⟨c', hc'⟩ := Option.isSome_iff_exists.mp hb
  cases c <;> cases c' <;> simp_all [MayDispute]

theorem equalsAtom_bne_of_mayDispute (h : MayDispute a b) :
    (a.equalsAtom b != b.equalsAtom a) = a.clash b := by
  have hback : ¬MayDispute b a := by
    obtain ⟨ha, hb | hb⟩ | ⟨ha, hb⟩ := h <;> simp [MayDispute, ha, hb]
  rw [clash, disputes_eq_false hback, Bool.or_false]
  obtain ⟨ha, hb | hb⟩ | ⟨ha, hb⟩ := h
  · obtain ⟨x, rfl⟩ := exists_boolean_of_class? ha
    exact boolean_equalsAtom_bne_number (isNumber_of_class? hb) x
  · obtain ⟨x, rfl⟩ := exists_boolean_of_class? ha
    obtain ⟨text, htext⟩ := exists_contents?_of_class? hb
    exact boolean_equalsAtom_bne_text htext x
  · obtain ⟨text, htext⟩ := exists_contents?_of_class? hb
    exact number_equalsAtom_bne_text (isNumber_of_class? ha) htext

/-- The rules of two atoms give two answers exactly if they are in dispute. -/
theorem equalsAtom_bne (a b : Value) : (a.equalsAtom b != b.equalsAtom a) = a.clash b := by
  by_cases h : MayDispute a b
  · exact equalsAtom_bne_of_mayDispute h
  by_cases h' : MayDispute b a
  · rw [bne_comm, clash_comm]
    exact equalsAtom_bne_of_mayDispute h'
  -- What is left is one class, or a value that is no atom.
  rw [clash_eq_false h h', bne_eq_false_iff_eq]
  cases ha : a.isAtom with
  | false => rw [equalsAtom_eq_false_of_left ha, equalsAtom_eq_false_of_right b ha]
  | true =>
    cases hb : b.isAtom with
    | false => rw [equalsAtom_eq_false_of_left hb, equalsAtom_eq_false_of_right a hb]
    | true => exact equalsAtom_comm_of_class? (class?_eq_of_not_mayDispute ha hb h h')

/-! ## Values without references -/

theorem equals_of_not_pairs (σ : Store) (ha : a.isReferenceFree = true)
    (h : ¬(a.kind = .pair ∧ b.kind = .pair)) : a.equals σ b = (a.same b || a.equalsAtom b) := by
  have hreference := isReference_eq_false_of_isReferenceFree ha
  by_cases hb : b.kind = .pair
  · cases b with
    | pair label head tail =>
      have hne : a.kind ≠ .pair := fun hpair => h ⟨hpair, hb⟩
      have hsame : a.same (.pair label head tail) = false :=
        Bool.eq_false_of_not_eq_true (mt kind_eq_of_same hne)
      rw [equals_pair_of_kind_ne_pair σ hreference hne, hsame, equalsAtom_eq_false_of_right a rfl,
        Bool.or_self]
    | _ => cases hb
  · exact equals_of_kind_ne_pair σ hreference hb

/-- Two values that are not both pairs are equal from one side only exactly if they are atoms in
dispute. -/
theorem equals_bne_of_not_pairs (σ : Store) (ha : a.isReferenceFree = true)
    (hb : b.isReferenceFree = true) (h : ¬(a.kind = .pair ∧ b.kind = .pair)) :
    (a.equals σ b != b.equals σ a) = a.clash b := by
  rw [equals_of_not_pairs σ ha h, equals_of_not_pairs σ hb (h ∘ And.symm), same_comm b a]
  cases hsame : a.same b with
  | false => exact equalsAtom_bne a b
  | true => exact (clash_of_class?_eq (class?_eq_of_kind_eq (kind_eq_of_same hsame))).symm

/-- Values without atoms in dispute are equal from both sides or from none. -/
theorem equals_comm_of_forall_clash (σ : Store) (ha : a.isReferenceFree = true)
    (hb : b.isReferenceFree = true) (h : ∀ p ∈ a.opposite b, p.1.clash p.2 = false) :
    a.equals σ b = b.equals σ a := by
  induction a, b using opposite.induct with
  | case1 label head tail label' head' tail' ihHead ihTail =>
    rw [isReferenceFree, Bool.and_eq_true] at ha hb
    rw [opposite, List.forall_mem_append] at h
    rw [equals_pair_pair, equals_pair_pair, ihHead ha.1 hb.1 h.1, ihTail ha.2 hb.2 h.2,
      isReference_eq_false_of_isReferenceFree ha.2, isReference_eq_false_of_isReferenceFree hb.2,
      Bool.false_and, Bool.false_and, Bool.beq_comm]
  | case2 a b hleaf =>
    have hne := not_pairs_of_forall_ne hleaf
    rw [opposite_of_not_pairs hne, List.forall_mem_singleton] at h
    rw [← bne_eq_false_iff_eq, equals_bne_of_not_pairs σ ha hb hne, h]

variable {m : Register}

theorem fst_eq_snd_of_mem_opposite_self {p : Value × Value} (h : p ∈ a.opposite a) :
    p.1 = p.2 := by
  induction a with
  | pair label head tail ihHead ihTail =>
    obtain h | h := List.mem_append.mp h
    · exact ihHead h
    · exact ihTail h
  | _ =>
    cases List.mem_singleton.mp h
    rfl

/-- Values that are equal from both sides have no atoms in dispute. -/
theorem clash_eq_false_of_equals (σ : Store) (ha : a.Registered m) (hb : b.Registered m)
    (hfree : a.isReferenceFree = true) (hfree' : b.isReferenceFree = true)
    (h : a.equals σ b = true) (h' : b.equals σ a = true) :
    ∀ p ∈ a.opposite b, p.1.clash p.2 = false := by
  induction a, b using opposite.induct with
  | case1 label head tail label' head' tail' ihHead ihTail =>
    by_cases hlabel : label = label'
    · -- One instance has one value, which is not in dispute with itself.
      rw [ha.eq_of_same hb (beq_iff_eq.mpr hlabel)]
      intro p hp
      rw [fst_eq_snd_of_mem_opposite_self hp]
      exact clash_of_class?_eq rfl
    · rw [isReferenceFree, Bool.and_eq_true] at hfree hfree'
      obtain ⟨⟨hhead, htail⟩, -⟩ := (equals_pair_pair_of_ne hlabel σ _ _ _ _).mp h
      obtain ⟨⟨hhead', htail'⟩, -⟩ := (equals_pair_pair_of_ne (Ne.symm hlabel) σ _ _ _ _).mp h'
      rw [opposite, List.forall_mem_append]
      exact ⟨ihHead ha.2.1 hb.2.1 hfree.1 hfree'.1 hhead hhead',
        ihTail ha.2.2 hb.2.2 hfree.2 hfree'.2 htail htail'⟩
  | case2 a b hleaf =>
    have hne := not_pairs_of_forall_ne hleaf
    rw [opposite_of_not_pairs hne, List.forall_mem_singleton,
      ← equals_bne_of_not_pairs σ hfree hfree' hne, h, h']
    rfl

/-- The answers from both sides are one exactly if the values are equal from no side, or no atoms of
them are in dispute. -/
theorem equals_comm_iff_clash (σ : Store) (ha : a.Registered m) (hb : b.Registered m)
    (hfree : a.isReferenceFree = true) (hfree' : b.isReferenceFree = true) :
    a.equals σ b = b.equals σ a ↔ (a.equals σ b = true ∨ b.equals σ a = true →
      ∀ p ∈ a.opposite b, p.1.clash p.2 = false) := by
  constructor
  · rintro heq (h | h)
    · exact clash_eq_false_of_equals σ ha hb hfree hfree' h (heq ▸ h)
    · exact clash_eq_false_of_equals σ ha hb hfree hfree' (heq.trans h) h
  · intro h
    cases hab : a.equals σ b with
    | true => exact hab.symm.trans (equals_comm_of_forall_clash σ hfree hfree' (h (.inl hab)))
    | false =>
      cases hba : b.equals σ a with
      | true =>
        have hcomm := equals_comm_of_forall_clash σ hfree hfree' (h (.inr hba))
        exact hab.symm.trans (hcomm.trans hba)
      | false => rfl

/-! ## Three values -/

theorem isAtom_of_equalsAtom (h : a.equalsAtom b = true) : a.isAtom = true ∧ b.isAtom = true := by
  constructor
  · by_contra hne
    rw [equalsAtom_eq_false_of_left (Bool.eq_false_of_not_eq_true hne)] at h
    cases h
  · by_contra hne
    rw [equalsAtom_eq_false_of_right a (Bool.eq_false_of_not_eq_true hne)] at h
    cases h

theorem exists_toRat_of_equalNumbers (h : equalNumbers a b = true) :
    ∃ x, a.toRat = .ok x ∧ b.toRat = .ok x := by
  unfold equalNumbers at h
  split at h
  next x y hx hy =>
    cases eq_of_beq h
    exact ⟨x, hx, hy⟩
  next => cases h

/-- Of two atoms of one class that are equal, the rules find the same equal. -/
theorem equalsAtom_congr (hclass : a.class? = b.class?) (h : a.equalsAtom b = true) (c : Value) :
    a.equalsAtom c = b.equalsAtom c := by
  have hatom := (isAtom_of_equalsAtom h).1
  rw [isAtom_eq_isSome_class?] at hatom
  obtain ⟨rule, ha⟩ := Option.isSome_iff_exists.mp hatom
  have hb := hclass.symm.trans ha
  cases rule with
  | boolean =>
    obtain ⟨x, rfl⟩ := exists_boolean_of_class? ha
    obtain ⟨y, rfl⟩ := exists_boolean_of_class? hb
    have hxy : x = y := eq_of_beq h
    rw [hxy]
  | number =>
    have ha := isNumber_of_class? ha
    have hb := isNumber_of_class? hb
    rw [equalsAtom_of_isNumber ha, Bool.and_eq_true] at h
    obtain ⟨x, hax, hbx⟩ := exists_toRat_of_equalNumbers h.2
    rw [equalsAtom_of_isNumber ha, equalsAtom_of_isNumber hb, equalNumbers_of_toRat_eq_ok hax,
      equalNumbers_of_toRat_eq_ok hbx]
  | text =>
    obtain ⟨text, htext⟩ := exists_contents?_of_class? ha
    obtain ⟨text', htext'⟩ := exists_contents?_of_class? hb
    rw [equalsAtom_of_contents? htext, Bool.and_eq_true, atomText, htext', beq_iff_eq] at h
    rw [equalsAtom_of_contents? htext, equalsAtom_of_contents? htext', h.2]
    rfl

theorem kind_ne_pair_of_isAtom (h : a.isAtom = true) : a.kind ≠ .pair := by
  intro hpair
  rw [isAtom, hpair] at h
  cases h

theorem equals_trans_of_not_pairs (σ : Store) (ha : a.Registered m) (hb : b.Registered m)
    (hc : c.Registered m) (hfree : a.isReferenceFree = true) (hfree' : b.isReferenceFree = true)
    (hclass : a.class? = b.class?) (hne : ¬(a.kind = .pair ∧ b.kind = .pair))
    (hab : a.equals σ b = true) (hbc : b.equals σ c = true) : a.equals σ c = true := by
  have hab' := hab
  rw [equals_of_not_pairs σ hfree hne, Bool.or_eq_true] at hab'
  obtain hsame | hatom := hab'
  · rw [ha.eq_of_same hb hsame]
    exact hbc
  · obtain ⟨hleft, hright⟩ := isAtom_of_equalsAtom hatom
    have hbc' := hbc
    rw [equals_of_not_pairs σ hfree' fun h => kind_ne_pair_of_isAtom hright h.1,
      Bool.or_eq_true] at hbc'
    obtain hsame | hatom' := hbc'
    · rw [← hb.eq_of_same hc hsame]
      exact hab
    · rw [equals_of_not_pairs σ hfree fun h => kind_ne_pair_of_isAtom hleft h.1,
        equalsAtom_congr hclass hatom, hatom', Bool.or_true]

/-- A pair is equal to no value of another kind. -/
theorem kind_of_pair_equals (σ : Store) {label : Instance} {head tail : Value}
    (hfree : (pair label head tail).isReferenceFree = true)
    (h : (pair label head tail).equals σ b = true) : b.kind = .pair := by
  by_contra hne
  rw [equals_of_not_pairs σ hfree fun hpairs => hne hpairs.2, Bool.or_eq_true] at h
  obtain hsame | hatom := h
  · exact hne (kind_eq_of_same hsame).symm
  · cases (isAtom_of_equalsAtom hatom).1

/-- What the second of two equal values is equal to, the first is equal to, if the atoms at the same
places of the two are of one class. -/
theorem equals_trans_of_class? (σ : Store) (ha : a.Registered m) (hb : b.Registered m)
    (hc : c.Registered m) (hfree : a.isReferenceFree = true) (hfree' : b.isReferenceFree = true)
    (hclass : ∀ p ∈ a.opposite b, p.1.class? = p.2.class?) (hab : a.equals σ b = true)
    (hbc : b.equals σ c = true) : a.equals σ c = true := by
  induction a, b using opposite.induct generalizing c with
  | case1 label head tail label' head' tail' ihHead ihTail =>
    have hpair := kind_of_pair_equals σ hfree' hbc
    cases c with
    | pair label'' head'' tail'' =>
      by_cases hlabel : label = label'
      · rw [ha.eq_of_same hb (beq_iff_eq.mpr hlabel)]
        exact hbc
      by_cases hlabel' : label' = label''
      · rw [← hb.eq_of_same hc (beq_iff_eq.mpr hlabel')]
        exact hab
      -- The second is another instance than the first and the third, so parts were compared.
      rw [isReferenceFree, Bool.and_eq_true] at hfree hfree'
      rw [opposite, List.forall_mem_append] at hclass
      obtain ⟨⟨hhead, htail⟩, -⟩ := (equals_pair_pair_of_ne hlabel σ _ _ _ _).mp hab
      obtain ⟨⟨hhead', htail'⟩, -⟩ := (equals_pair_pair_of_ne hlabel' σ _ _ _ _).mp hbc
      have hheads := ihHead ha.2.1 hb.2.1 hc.2.1 hfree.1 hfree'.1 hclass.1 hhead hhead'
      have htails := ihTail ha.2.2 hb.2.2 hc.2.2 hfree.2 hfree'.2 hclass.2 htail htail'
      rw [equals_pair_pair, hheads, htails, isReference_eq_false_of_isReferenceFree hfree.2]
      exact Bool.or_true _
    | _ => cases hpair
  | case2 a b hleaf =>
    have hne := not_pairs_of_forall_ne hleaf
    rw [opposite_of_not_pairs hne, List.forall_mem_singleton] at hclass
    exact equals_trans_of_not_pairs σ ha hb hc hfree hfree' hclass hne hab hbc

/-! ## Values of one kind -/

theorem equalsSameKind_iff (σ : Store) (a b : Value) :
    a.equalsSameKind σ b = true ↔ a.kind = b.kind ∧ a.equals σ b = true := by
  rw [equalsSameKind, Bool.and_eq_true, beq_iff_eq]

theorem equalsSameKind_comm_iff (σ : Store) (ha : a.Registered m) (hb : b.Registered m)
    (hfree : a.isReferenceFree = true) (hfree' : b.isReferenceFree = true)
    (h : a.equalsSameKind σ b = true) :
    b.equalsSameKind σ a = true ↔ ∀ p ∈ a.opposite b, p.1.clash p.2 = false := by
  rw [equalsSameKind_iff] at h ⊢
  have hcomm := equals_comm_iff_clash σ ha hb hfree hfree'
  rw [h.2, eq_comm] at hcomm
  rw [and_iff_right h.1.symm, hcomm]
  simp

end

end Value

namespace Session

/-- The answers to whether two values without references are equal, from the one side and from the
other, are one answer exactly if it is no from both, or no atoms at the same places are in
dispute. -/
theorem equals_comm_iff (actions : List Action) (i j : Nat)
    (hi : ((after actions).value i).isReferenceFree = true)
    (hj : ((after actions).value j).isReferenceFree = true) :
    let s := after actions
    (s.value i).equals s.store (s.value j) = (s.value j).equals s.store (s.value i) ↔
      ((s.value i).equals s.store (s.value j) = true ∨
          (s.value j).equals s.store (s.value i) = true →
        ∀ p ∈ (s.value i).opposite (s.value j), p.1.clash p.2 = false) := by
  obtain ⟨m, hm⟩ := exists_fits_after actions
  exact Value.equals_comm_iff_clash _ (hm.value i) (hm.value j) hi hj

/-- The list of a boolean and the list of a string of the same text. -/
def truthAndItsText : List Action :=
  [.boolean true, .string "true", .null, .cons 0 2, .cons 1 2]

/-- The two lists are equal from both sides, the one by truth and the other by text. -/
theorem equals_comm_iff_truthAndItsText :
    let s := after truthAndItsText
    ((s.value 3).isReferenceFree = true ∧ (s.value 4).isReferenceFree = true) ∧
    (s.value 3).equals s.store (s.value 4) = true ∧
    (s.value 3).opposite (s.value 4) = [(.boolean true, s.value 1), (.null, .null)] ∧
    (s.value 3).equals s.store (s.value 4) = (s.value 4).equals s.store (s.value 3) :=
  ⟨⟨rfl, rfl⟩, by decide, rfl, (equals_comm_iff truthAndItsText 3 4 rfl rfl).mpr (by decide)⟩

/-- A boolean, a number and texts, and the lists of each. -/
def mixedLists : List Action :=
  [.boolean true, .integer 1000, .string "true", .null, .cons 0 3, .cons 1 3, .cons 2 3]

/-- The boolean counts the number as true, and the number is not that of the boolean. -/
theorem not_equals_comm :
    let s := after mixedLists
    ((s.value 0).isReferenceFree = true ∧ (s.value 1).isReferenceFree = true) ∧
    ¬((s.value 0).equals s.store (s.value 1) = (s.value 1).equals s.store (s.value 0)) := by
  decide

/-- Equality of values of one kind is symmetric where no atoms are in dispute, and only there.
Where the atoms at the same places of two values are of one class, it is symmetric, and what is
equal to the second is equal to the first. -/
theorem equalsSameKind_laws (actions : List Action) (i j : Nat)
    (hi : ((after actions).value i).isReferenceFree = true)
    (hj : ((after actions).value j).isReferenceFree = true) :
    let s := after actions
    ((s.value i).equalsSameKind s.store (s.value j) = true →
      ((s.value j).equalsSameKind s.store (s.value i) = true ↔
        ∀ p ∈ (s.value i).opposite (s.value j), p.1.clash p.2 = false)) ∧
    ((∀ p ∈ (s.value i).opposite (s.value j), p.1.class? = p.2.class?) →
      (s.value i).equalsSameKind s.store (s.value j) = true →
        (s.value j).equalsSameKind s.store (s.value i) = true ∧
        ∀ k, (s.value j).equalsSameKind s.store (s.value k) = true →
          (s.value i).equalsSameKind s.store (s.value k) = true) := by
  intro s
  obtain ⟨m, hm⟩ := exists_fits_after actions
  have hsymm := Value.equalsSameKind_comm_iff s.store (hm.value i) (hm.value j) hi hj
  refine ⟨hsymm, ?_⟩
  intro hclass hij
  refine ⟨(hsymm hij).mpr fun p hp => Value.clash_of_class?_eq (hclass p hp), ?_⟩
  intro k hjk
  rw [Value.equalsSameKind_iff] at hij hjk ⊢
  exact ⟨hij.1.trans hjk.1, Value.equals_trans_of_class? s.store (hm.value i) (hm.value j)
    (hm.value k) hi hj hclass hij.2 hjk.2⟩

/-- An integer, and twice the rational equal to it, and the lists of each. -/
def equalNumberLists : List Action :=
  [.integer 1000, .rational 1000, .rational 1000, .null, .cons 0 3, .cons 1 3, .cons 2 3]

/-- The list of the integer and those of the rationals are equal in any order. -/
theorem equalsSameKind_laws_numbers :
    let s := after equalNumberLists
    ((s.value 4).isReferenceFree = true ∧ (s.value 5).isReferenceFree = true) ∧
    (∀ p ∈ (s.value 4).opposite (s.value 5), p.1.class? = p.2.class?) ∧
    (s.value 4).equalsSameKind s.store (s.value 5) = true ∧
    (s.value 5).equalsSameKind s.store (s.value 6) = true ∧
    (s.value 5).equalsSameKind s.store (s.value 4) = true ∧
    (s.value 4).equalsSameKind s.store (s.value 6) = true := by
  have hclass :
      ∀ p ∈ ((after equalNumberLists).value 4).opposite ((after equalNumberLists).value 5),
        p.1.class? = p.2.class? := by
    decide
  have h := (equalsSameKind_laws equalNumberLists 4 5 rfl rfl).2 hclass (by decide)
  exact ⟨⟨rfl, rfl⟩, hclass, by decide, by decide, h.1, h.2 6 (by decide)⟩

/-- Lists of atoms of different kinds are of one kind, and neither symmetry nor transitivity holds
of them. -/
theorem not_equalsSameKind_laws :
    let s := after mixedLists
    (∀ i ∈ [4, 5, 6], (s.value i).isReferenceFree = true) ∧
    ¬((s.value 4).equalsSameKind s.store (s.value 5) = true →
      (s.value 5).equalsSameKind s.store (s.value 4) = true) ∧
    ¬((s.value 6).equalsSameKind s.store (s.value 4) = true →
      (s.value 4).equalsSameKind s.store (s.value 5) = true →
        (s.value 6).equalsSameKind s.store (s.value 5) = true) := by
  decide

end Session

end LispShell
