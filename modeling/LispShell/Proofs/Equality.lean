import LispShell.Proofs.Session
import LispShell.Value.Equality

set_option autoImplicit false

/-!
# Equality against the contents of values

Two pairs of different labels are compared head by head and tail by tail, and the comparison of the
tails is the one that the tails have by themselves, but for one case: a reference on the left and a
pair on the right.

Values without references have contents alone, and `agrees` compares contents, with no look at
labels.  `equals` looks at labels first, at the top and in every tail.  That can only make a
difference for two values of one label; in a session these are one value, and a value agrees with
itself, unless a float in it has no exact value.  Sessions can build any contents without references,
so this is a statement about all of them (`Session.equals_value_eq_agrees`).
-/

namespace LispShell

/-! ## Values that lead nowhere -/

namespace Store

variable (σ : Store) {a : Value}

theorem trailVia_of_isReference_eq_false (next : Nat → List Value) (h : a.isReference = false) :
    trailVia next a = [a] := by
  cases a with
  | var place => cases h
  | const label value => cases h
  | _ => rfl

/-- What is no reference leads to nothing else. -/
theorem trail_of_isReference_eq_false (h : a.isReference = false) : σ.trail a = [a] := by
  unfold trail
  cases σ.places.size with
  | zero => exact trailVia_of_isReference_eq_false _ h
  | succ hops => exact trailVia_of_isReference_eq_false _ h

theorem resolve_of_isReference_eq_false (h : a.isReference = false) : σ.resolve a = a := by
  rw [resolve, σ.trail_of_isReference_eq_false h]
  rfl

end Store

namespace Value

theorem equals_of_kind_ne_pair {a b : Value} (σ : Store) (ha : a.isReference = false)
    (hb : b.kind ≠ .pair) : a.equals σ b = (a.same b || a.equalsAtom b) := by
  have htrail := σ.trail_of_isReference_eq_false ha
  have hresolve := σ.resolve_of_isReference_eq_false ha
  cases b with
  | pair label head tail => exact absurd rfl hb
  | _ => simp [equals, htrail, hresolve]

theorem equals_pair_of_kind_ne_pair {a : Value} (σ : Store) (ha : a.isReference = false)
    (hne : a.kind ≠ .pair) (label : Instance) (head tail : Value) :
    a.equals σ (.pair label head tail) = false := by
  rw [equals, σ.resolve_of_isReference_eq_false ha]
  cases a with
  | pair label' head' tail' => exact absurd rfl hne
  | _ => rfl

/-! ## Pairs -/

section Pairs

variable {label label' : Instance}

theorem equals_pair_pair (σ : Store) (head tail head' tail' : Value) :
    (pair label head tail).equals σ (pair label' head' tail') =
      (label == label' || (head.equals σ head' &&
        !(tail.isReference && tail'.kind == .pair) && tail.equals σ tail')) := by
  rw [equals, σ.resolve_of_isReference_eq_false rfl]

theorem equals_pair_pair_of_ne (h : label ≠ label') (σ : Store) (head tail head' tail' : Value) :
    (pair label head tail).equals σ (pair label' head' tail') = true ↔
      (head.equals σ head' = true ∧ tail.equals σ tail' = true) ∧
        ¬(tail.isReference = true ∧ tail'.kind = .pair) := by
  rw [equals_pair_pair, beq_false_of_ne h, Bool.false_or]
  simp only [Bool.and_eq_true, Bool.not_eq_true', Bool.and_eq_false_imp, beq_eq_false_iff_ne,
    not_and]
  exact and_right_comm

/-- Pairs that were built apart are equal exactly if their heads are and their tails are, unless the
left tail is a reference and the right tail a pair: then they are not equal. -/
theorem equals_cons_cons {σ σ' : Store} (head tail head' tail' : Value)
    (hapart : (σ.cons head tail).2.next ≤ σ'.next ∨ (σ'.cons head' tail').2.next ≤ σ.next)
    (τ : Store) :
    (σ.cons head tail).1.equals τ (σ'.cons head' tail').1 = true ↔
      (head.equals τ head' = true ∧ tail.equals τ tail' = true) ∧
        ¬(tail.isReference = true ∧ tail'.kind = .pair) := by
  apply equals_pair_pair_of_ne
  obtain h | h := hapart
  · exact Nat.ne_of_lt h
  · exact Nat.ne_of_gt h

/-- A variable on the left counts as what it holds, next to an atom. -/
theorem equals_cons_cons_variable :
    let one := Value.boolean true
    let (x, σ) := Store.empty.makeVariable one
    let (p, σ') := σ.cons one x
    let (q, τ) := σ'.cons one one
    (σ.cons one x).2.next ≤ σ'.next ∧ p.equals τ q = true :=
  ⟨Nat.le_refl _, (equals_cons_cons _ _ _ _ (.inl (Nat.le_refl _)) _).mpr (by decide)⟩

/-- The tail of one pair is a variable that holds a list, and the tail of the other is this list.
The tails are equal and the pairs are not. -/
theorem not_equals_cons_variable :
    let one := Value.boolean true
    let (items, σ) := Store.empty.cons one .null
    let (x, σ) := σ.makeVariable items
    let (p, σ) := σ.cons one x
    let (q, σ) := σ.cons one items
    ¬(p.equals σ q = true ↔ one.equals σ one = true ∧ x.equals σ items = true) := by
  decide

end Pairs

/-! ## Lists -/

section Lists

theorem isReference_list (items : List Value) (σ : Store) :
    (σ.list items).1.isReference = false := by
  cases items <;> rfl

theorem next_le_list (items : List Value) (σ : Store) : σ.next ≤ (σ.list items).2.next := by
  induction items with
  | nil => exact Nat.le_refl _
  | cons head items ih => exact Nat.le_succ_of_le ih

/-- Lists that were built apart are equal exactly if they have equally many items and these are
equal one by one, references to lists among them. -/
theorem equals_list_list {σ σ' : Store} (items items' : List Value)
    (hapart : (σ.list items).2.next ≤ σ'.next ∨ (σ'.list items').2.next ≤ σ.next) (τ : Store) :
    (σ.list items).1.equals τ (σ'.list items').1 = items.isEqv items' (·.equals τ ·) := by
  induction items generalizing items' with
  | nil =>
    cases items' with
    | nil => exact equals_of_kind_ne_pair (b := .null) τ rfl nofun
    | cons head' items' => exact equals_pair_of_kind_ne_pair (a := .null) τ rfl nofun _ head' _
  | cons head items ih =>
    cases items' with
    | nil => exact equals_of_kind_ne_pair (b := .null) τ rfl nofun
    | cons head' items' =>
      have htails : (σ.list items).1.equals τ (σ'.list items').1 =
          items.isEqv items' (·.equals τ ·) := by
        apply ih
        exact hapart.imp Nat.le_of_succ_le Nat.le_of_succ_le
      have hlabel : (σ.list items).2.next ≠ (σ'.list items').2.next := by
        obtain h | h := hapart
        · exact Nat.ne_of_lt (Nat.lt_of_lt_of_le h (next_le_list items' σ'))
        · exact Nat.ne_of_gt (Nat.lt_of_lt_of_le h (next_le_list items σ))
      have hpairs := equals_pair_pair_of_ne hlabel τ head (σ.list items).1 head' (σ'.list items').1
      rw [isReference_list, htails] at hpairs
      rw [Bool.eq_iff_iff, List.isEqv, Bool.and_eq_true]
      exact hpairs.trans (and_iff_left fun h => absurd h.1 Bool.false_ne_true)

end Lists

/-! ## Contents -/

/-- No reference is in the value, and every float in it is finite. -/
def isPlain : Value → Bool
  | .null => true
  | .boolean _ => true
  | .integer _ _ => true
  | .float x => x.isFinite
  | .rational _ _ => true
  | .string _ _ => true
  | .symbol _ _ => true
  | .pair _ head tail => head.isPlain && tail.isPlain
  | .var _ => false
  | .const _ _ => false

/-- The exact value of an atom is the given one. -/
def isExactly (a : Value) (x : Rat) : Bool :=
  match a.toRat with
  | .ok y => x == y
  | .error _ => false

/-- The comparison of contents, which never asks for the same instance: the empty list only with the
empty list, a boolean by truth, a number by its exact value and a text by the text, these three with
an atom, and pairs head by head and tail by tail. -/
def agrees : Value → Value → Bool
  | .null, b => b.kind == .null
  | .boolean x, b => b.isAtom && x == b.isTruthy
  | .integer _ v, b => b.isAtom && b.isExactly v.toInt
  | .float x, b => b.isAtom && x.toRat?.any b.isExactly
  | .rational _ r, b => b.isAtom && b.isExactly r
  | .string _ text, b => b.isAtom && text == b.atomText
  | .symbol _ text, b => b.isAtom && text == b.atomText
  | .pair _ head tail, .pair _ head' tail' => head.agrees head' && tail.agrees tail'
  | _, _ => false

section Contents

variable {a b : Value}

theorem isReference_eq_false_of_isPlain (h : a.isPlain = true) : a.isReference = false := by
  cases a with
  | var place => cases h
  | const label value => cases h
  | _ => rfl

/-- A value without references agrees with itself. -/
theorem agrees_self (h : a.isPlain = true) : a.agrees a = true := by
  induction a with
  | null => rfl
  | boolean x => simp [agrees, isAtom, kind, isTruthy]
  | integer label v => simp [agrees, isAtom, kind, isExactly, toRat]
  | float x =>
    cases x with
    -- These two have no exact value to agree in.
    | nan => cases h
    | infinite negative => cases h
    | finite negative rank => simp [agrees, isAtom, kind, isExactly, toRat, Binary64.toRat?]
  | rational label r => simp [agrees, isAtom, kind, isExactly, toRat]
  | string label text => simp [agrees, isAtom, kind, atomText, contents?]
  | symbol label text => simp [agrees, isAtom, kind, atomText, contents?]
  | pair label head tail ihHead ihTail =>
    rw [isPlain, Bool.and_eq_true] at h
    rw [agrees, ihHead h.1, ihTail h.2, Bool.and_self]
  | var place => cases h
  | const label value ih => cases h

theorem equalNumbers_of_toRat_eq_ok {x : Rat} (h : a.toRat = .ok x) (b : Value) :
    equalNumbers a b = b.isExactly x := by
  unfold equalNumbers isExactly
  rw [h]
  cases b.toRat <;> rfl

theorem equalNumbers_float (x : Binary64) (b : Value) :
    equalNumbers (.float x) b = x.toRat?.any b.isExactly := by
  cases hx : x.toRat? with
  | none => simp [equalNumbers, toRat, hx]
  | some r => exact equalNumbers_of_toRat_eq_ok (by simp [toRat, hx]) b

/-- Of values that are not both empty and not both pairs, the comparison apart from identities is
that of contents. -/
theorem equalsAtom_eq_agrees (hnull : a = .null → b.kind ≠ .null)
    (hpair : a.kind = .pair → b.kind ≠ .pair) : a.equalsAtom b = a.agrees b := by
  cases a with
  | null =>
    show (b.isAtom && false) = (b.kind == .null)
    rw [Bool.and_false, beq_false_of_ne (hnull rfl)]
  | boolean x => rfl
  | integer label v => rw [equalsAtom, equalNumbers_of_toRat_eq_ok rfl, agrees]
  | float x => rw [equalsAtom, equalNumbers_float, agrees]
  | rational label r => rw [equalsAtom, equalNumbers_of_toRat_eq_ok rfl, agrees]
  | string label text => rfl
  | symbol label text => rfl
  | pair label head tail =>
    cases b with
    | pair label' head' tail' => exact absurd rfl (hpair rfl)
    | _ => rfl
  | var place => cases b <;> rfl
  | const label value => cases b <;> rfl

/-! ### Without labels -/

/-- The value with all labels taken off. -/
def unlabelled : Value → Value
  | .integer _ v => .integer 0 v
  | .rational _ r => .rational 0 r
  | .string _ text => .string 0 text
  | .symbol _ text => .symbol 0 text
  | .pair _ head tail => .pair 0 head.unlabelled tail.unlabelled
  | .const _ value => .const 0 value.unlabelled
  | a => a

theorem isPlain_unlabelled (a : Value) : a.unlabelled.isPlain = a.isPlain := by
  induction a with
  | pair label head tail ihHead ihTail => rw [unlabelled, isPlain, isPlain, ihHead, ihTail]
  | _ => rfl

/-- The comparison of contents does not read labels. -/
theorem agrees_unlabelled (a b : Value) : a.unlabelled.agrees b.unlabelled = a.agrees b := by
  induction a generalizing b with
  | pair label head tail ihHead ihTail =>
    cases b with
    | pair label' head' tail' => rw [unlabelled, unlabelled, agrees, agrees, ihHead, ihTail]
    | _ => rfl
  | _ => cases b <;> rfl

end Contents

/-! ## Identity -/

section Identity

variable {a b : Value} {m : Register}

/-- Two plain values of one instance agree. -/
theorem agrees_of_same (ha : a.Registered m) (hb : b.Registered m) (hplain : a.isPlain = true)
    (h : a.same b = true) : a.agrees b = true := by
  rw [← ha.eq_of_same hb h]
  exact agrees_self hplain

theorem equals_eq_agrees_of_kind_ne_pair (σ : Store) (ha : a.Registered m) (hb : b.Registered m)
    (hplain : a.isPlain = true) (hne : b.kind ≠ .pair) : a.equals σ b = a.agrees b := by
  rw [equals_of_kind_ne_pair σ (isReference_eq_false_of_isPlain hplain) hne]
  cases hsame : a.same b with
  | true => exact (agrees_of_same ha hb hplain hsame).symm
  | false =>
    apply equalsAtom_eq_agrees
    · rintro rfl hnull
      cases b with
      | null => cases hsame
      | _ => cases hnull
    · exact fun _ => hne

/-- With the register of a session, the look at labels makes no difference to plain values. -/
theorem equals_eq_agrees (σ : Store) (ha : a.Registered m) (hb : b.Registered m)
    (hplain : a.isPlain = true) : a.equals σ b = a.agrees b := by
  -- The induction goes where `equals` recurses: to the head and the tail of the right value.
  induction b generalizing a with
  | pair label head tail ihHead ihTail =>
    cases a with
    | pair label' head' tail' =>
      have hparts : head'.isPlain = true ∧ tail'.isPlain = true := by
        rwa [isPlain, Bool.and_eq_true] at hplain
      rw [equals_pair_pair]
      by_cases hlabel : label' = label
      · have hsame : (label' == label) = true := beq_iff_eq.mpr hlabel
        rw [agrees_of_same ha hb hplain hsame, hsame, Bool.true_or]
      · have hhead := ihHead ha.2.1 hb.2.1 hparts.1
        have htail := ihTail ha.2.2 hb.2.2 hparts.2
        rw [beq_false_of_ne hlabel, isReference_eq_false_of_isPlain hparts.2, hhead, htail, agrees]
        simp
    | var place => cases hplain
    | const label' value => cases hplain
    | _ =>
      apply equals_pair_of_kind_ne_pair σ rfl
      exact nofun
  | _ => exact equals_eq_agrees_of_kind_ne_pair σ ha hb hplain nofun

end Identity

end Value

namespace Session

/-- From every session on, any contents without references can be built. -/
theorem exists_value_unlabelled {a : Value} (hplain : a.isPlain = true) (s : Session) :
    ∃ actions i, i < (s.performAll actions).values.size ∧
      ((s.performAll actions).value i).unlabelled = a.unlabelled := by
  have hone (s : Session) (a : Value) (action : Action) (given : Value × Store)
      (hperform : s.perform action = s.give given) (hgiven : given.1.unlabelled = a.unlabelled) :
      ∃ actions i, i < (s.performAll actions).values.size ∧
        ((s.performAll actions).value i).unlabelled = a.unlabelled := by
    refine ⟨[action], s.values.size, ?_⟩
    rw [performAll, List.foldl_cons, hperform, List.foldl_nil, value_give, hgiven]
    exact ⟨s.lt_size_give given, rfl⟩
  induction a generalizing s with
  | null => exact hone s _ .null _ rfl rfl
  | boolean b => exact hone s _ (.boolean b) _ rfl rfl
  | integer label v => exact hone s _ (.ownInteger v) _ rfl rfl
  | float x => exact hone s _ (.float x) _ rfl rfl
  | rational label r => exact hone s _ (.ownRational r) _ rfl rfl
  | string label text => exact hone s _ (.string text) _ rfl rfl
  | symbol label text => exact hone s _ (.ownSymbol text) _ rfl rfl
  | pair label head tail ihHead ihTail =>
    rw [Value.isPlain, Bool.and_eq_true] at hplain
    obtain ⟨before, i, hi, hhead⟩ := ihHead hplain.1 s
    obtain ⟨between, j, -, htail⟩ := ihTail hplain.2 (s.performAll before)
    obtain ⟨-, hstays⟩ := (s.performAll before).value_performAll between hi
    obtain ⟨actions, k, hk, hpair⟩ := hone ((s.performAll before).performAll between)
      (.pair label head tail) (.cons i j) _ rfl (by
        rw [Store.cons, hstays]
        simp only [Value.unlabelled, hhead, htail])
    refine ⟨before ++ between ++ actions, k, ?_⟩
    rw [performAll, List.foldl_append, List.foldl_append]
    exact ⟨hk, hpair⟩
  | var place => cases hplain
  | const label value ih => cases hplain

/-- In a session, a value without references and with finite floats only is equal to exactly the
values that it agrees with.  So the answer is that of any other session for values of the same
contents, whichever instances are shared there. -/
theorem equals_value_eq_agrees (actions : List Action) (i j : Nat)
    (hplain : ((after actions).value i).isPlain = true) :
    let s := after actions
    (s.value i).equals s.store (s.value j) = (s.value i).agrees (s.value j) ∧
    ∀ actions' i' j',
      let t := after actions'
      (t.value i').unlabelled = (s.value i).unlabelled →
      (t.value j').unlabelled = (s.value j).unlabelled →
      (t.value i').equals t.store (t.value j') = (s.value i).equals s.store (s.value j) := by
  intro s
  obtain ⟨m, hm⟩ := exists_fits_after actions
  have heq : (s.value i).equals s.store (s.value j) = (s.value i).agrees (s.value j) :=
    Value.equals_eq_agrees s.store (hm.value i) (hm.value j) hplain
  refine ⟨heq, ?_⟩
  intro actions' i' j' t hi hj
  obtain ⟨m', hm'⟩ := exists_fits_after actions'
  have hplain' : (t.value i').isPlain = true := by
    rw [← Value.isPlain_unlabelled, hi, Value.isPlain_unlabelled, hplain]
  calc (t.value i').equals t.store (t.value j')
    _ = (t.value i').agrees (t.value j') :=
      Value.equals_eq_agrees t.store (hm'.value i') (hm'.value j') hplain'
    _ = (s.value i).agrees (s.value j) := by
      rw [← Value.agrees_unlabelled, hi, hj, Value.agrees_unlabelled]
    _ = (s.value i).equals s.store (s.value j) := heq.symm

/-- The list of one integer, which is made twice.  The integer is shared. -/
def sharedInteger : List Action :=
  [.integer 5, .null, .cons 0 1, .integer 5, .cons 3 1]

/-- The same lists, each with an instance of its own. -/
def ownIntegers : List Action :=
  [.ownInteger 5, .null, .cons 0 1, .ownInteger 5, .cons 3 1]

/-- Both sessions find the two lists equal, the one by the instance of the integer and the other by
its value. -/
theorem equals_value_eq_agrees_integers :
    let s := after sharedInteger
    let t := after ownIntegers
    ((s.value 0).same (s.value 3) = true ∧ (t.value 0).same (t.value 3) = false) ∧
    (s.value 2).isPlain = true ∧ (s.value 2).agrees (s.value 4) = true ∧
    (s.value 2).equals s.store (s.value 4) = (s.value 2).agrees (s.value 4) ∧
    (t.value 2).equals t.store (t.value 4) = (s.value 2).equals s.store (s.value 4) := by
  have hshared : ((after sharedInteger).value 0).same ((after sharedInteger).value 3) = true := by
    simp [after, performAll, sharedInteger, perform, give, start, value, Store.makeInteger, slot?, share,
      Store.empty, Store.cons, Store.fresh, Value.same]
  have h := equals_value_eq_agrees sharedInteger 2 4 rfl
  exact ⟨⟨hshared, by decide⟩, rfl, rfl, h.1, h.2 ownIntegers 2 4 rfl rfl⟩

end Session

end LispShell
