import LispShell.Value.Arithmetic
import LispShell.Value.List

set_option autoImplicit false

/-!
# What a label stands for

Values carry the labels of their instances as data, so a value could be written down whose label
some other value has too.  No program comes by such a pair of values: it has only what the
operations on values have given it, and these hand out a label once, or again from a table of shared
instances with the contents it had.

A `Session` is a store with the values given so far, and an `Action` is one operation on them.  A
`Register` holds the value of each label in use.  Every action keeps a register that fits the store
and the values of the session, extended by what the action constructs, so that after any actions the
label of a value tells the value.
-/

namespace LispShell

/-! ## Registers -/

/-- The value of each label in use. -/
abbrev Register := Instance → Option Value

namespace Register

variable {m m' m'' : Register} {label next : Instance} {a : Value}

/-- Each label in use in the one stands for the same value in the other. -/
def Within (m m' : Register) : Prop :=
  ∀ label a, m label = some a → m' label = some a

theorem Within.refl (m : Register) : m.Within m :=
  fun _ _ h => h

theorem Within.trans (h : m.Within m') (h' : m'.Within m'') : m.Within m'' :=
  fun label a ha => h' label a (h label a ha)

/-- From `next` on no label is in use. -/
def FreeFrom (m : Register) (next : Instance) : Prop :=
  ∀ label, next ≤ label → m label = none

/-- The register with one more value in it. -/
def enter (m : Register) (label : Instance) (a : Value) : Register :=
  fun label' => if label' = label then some a else m label'

theorem enter_self : m.enter label a label = some a :=
  if_pos rfl

theorem FreeFrom.within_enter (h : m.FreeFrom next) : m.Within (m.enter next a) := by
  intro label b hb
  have hne : label ≠ next := by
    rintro rfl
    rw [h label (Nat.le_refl label)] at hb
    exact absurd hb (by simp)
  rw [enter, if_neg hne, hb]

theorem FreeFrom.enter (h : m.FreeFrom next) : (m.enter next a).FreeFrom (next + 1) := by
  intro label hlabel
  rw [Register.enter, if_neg (Nat.ne_of_gt hlabel)]
  exact h label (Nat.le_of_succ_le hlabel)

/-! ### Tables -/

variable {κ : Type} [BEq κ] [LawfulBEq κ] [Hashable κ] {make : κ → Instance → Value}
  {table : Std.HashMap κ Instance}

/-- The instances of a table are in the register, each with the value that `make` has under its
key. -/
def Lists (m : Register) (table : Std.HashMap κ Instance) (make : κ → Instance → Value) : Prop :=
  ∀ key label, table[key]? = some label → m label = some (make key label)

omit [LawfulBEq κ] in
theorem Lists.mono (h : m.Lists table make) (hm : m.Within m') : m'.Lists table make :=
  fun key label hlabel => hm label (make key label) (h key label hlabel)

/-- A shared instance has the value under its key, whether it was in the table before or not. -/
theorem Lists.share (h : m.Lists table make) (hfree : m.FreeFrom next) (key : κ) :
    ∃ m', m.Within m' ∧
      m' (share key table next).1 = some (make key (share key table next).1) ∧
      m'.Lists (share key table next).2.1 make ∧ m'.FreeFrom (share key table next).2.2 := by
  unfold LispShell.share
  split
  next label hlabel => exact ⟨m, Within.refl m, h key label hlabel, h, hfree⟩
  next hnone =>
    refine ⟨m.enter next (make key next), hfree.within_enter, enter_self, ?_, hfree.enter⟩
    intro key' label hlabel
    rw [Std.HashMap.getElem?_insert] at hlabel
    split at hlabel
    next heq =>
      cases eq_of_beq heq
      cases hlabel
      exact enter_self
    next => exact hfree.within_enter label _ (h key' label hlabel)

end Register

/-! ## Registered values -/

namespace Value

variable {m m' : Register}

/-- The register holds the value, and all values within it, under their labels. -/
def Registered (m : Register) : Value → Prop
  | .null => True
  | .boolean _ => True
  | .integer label v => m label = some (.integer label v)
  | .float _ => True
  | .rational label r => m label = some (.rational label r)
  | .string label text => m label = some (.string label text)
  | .symbol label text => m label = some (.symbol label text)
  | .pair label head tail =>
    m label = some (.pair label head tail) ∧ head.Registered m ∧ tail.Registered m
  | .var _ => True
  | .const label value => m label = some (.const label value) ∧ value.Registered m

theorem Registered.mono {a : Value} (h : a.Registered m) (hm : m.Within m') : a.Registered m' := by
  induction a with
  | null => trivial
  | boolean b => trivial
  | float x => trivial
  | var place => trivial
  | integer label v => exact hm _ _ h
  | rational label r => exact hm _ _ h
  | string label text => exact hm _ _ h
  | symbol label text => exact hm _ _ h
  | pair label head tail ihHead ihTail => exact ⟨hm _ _ h.1, ihHead h.2.1, ihTail h.2.2⟩
  | const label value ih => exact ⟨hm _ _ h.1, ih h.2⟩

/-- One instance has one value. -/
theorem Registered.eq_of_same {a b : Value} (ha : a.Registered m) (hb : b.Registered m)
    (h : a.same b = true) : a = b := by
  cases a <;> cases b <;> simp_all [same, Registered]

theorem Registered.head {a h : Value} (ha : a.Registered m) (hh : a.head = .ok h) :
    h.Registered m := by
  cases a with
  | null => cases hh; trivial
  | pair label head tail => cases hh; exact ha.2.1
  | _ => cases hh

theorem Registered.tail {a t : Value} (ha : a.Registered m) (ht : a.tail = .ok t) :
    t.Registered m := by
  cases a with
  | null => cases ht; trivial
  | pair label head tail => cases ht; exact ha.2.2
  | _ => cases ht

/-- An operation computes a rational and then constructs it. -/
theorem compute_eq_map (op : Operation) (a b : Value) (σ : Store) :
    a.compute op b σ =
      (do op.apply (← a.leftOperand) (← b.rightOperand) : Except ValueError Rat).map
        (σ.makeRational ·) := by
  unfold compute
  cases a.leftOperand with
  | error e => rfl
  | ok x =>
    cases b.rightOperand with
    | error e => rfl
    | ok y => cases op.apply x y <;> rfl

end Value

/-! ## The store -/

/-- The integer that is shared under a key. -/
def slotInteger (key : Nat) : Int := key - 256

theorem slotInteger_of_slot? {n : Int} {key : Nat} (h : slot? n = some key) :
    slotInteger key = n := by
  simp only [slot?, Option.ite_none_right_eq_some, Option.some.injEq] at h
  unfold slotInteger
  omega

namespace Store

variable {σ : Store} {m m' : Register} {a b : Value}

/-- The register fits the store: it has room for new labels, the instances of the tables are in it,
and so are the values of the variables. -/
structure Keeps (σ : Store) (m : Register) : Prop where
  free : m.FreeFrom σ.next
  integers : m.Lists σ.integers fun key label => .integer label (Int64.ofInt (slotInteger key))
  rationals : m.Lists σ.rationals fun key label => .rational label (slotInteger key)
  symbols : m.Lists σ.symbols fun text label => .symbol label text
  places : ∀ a ∈ σ.places, a.Registered m

theorem keeps_empty : empty.Keeps fun _ => none where
  free := fun _ _ => rfl
  integers := fun key label h => by simp [empty] at h
  rationals := fun key label h => by simp [empty] at h
  symbols := fun key label h => by simp [empty] at h
  places := fun a ha => by simp [empty] at ha

/-- A larger register fits as well, from its own free label on. -/
theorem Keeps.extend (h : σ.Keeps m) (hm : m.Within m') {next : Instance}
    (hfree : m'.FreeFrom next) : { σ with next }.Keeps m' where
  free := hfree
  integers := h.integers.mono hm
  rationals := h.rationals.mono hm
  symbols := h.symbols.mono hm
  places := fun a ha => (h.places a ha).mono hm

/-- An operation gave a value and a store: a larger register fits both. -/
def Gives (m : Register) (given : Value × Store) : Prop :=
  ∃ m', m.Within m' ∧ given.2.Keeps m' ∧ given.1.Registered m'

theorem Keeps.gives (h : σ.Keeps m) (ha : a.Registered m) : Gives m (a, σ) :=
  ⟨m, Register.Within.refl m, h, ha⟩

/-- A value under a fresh label, if what is within it is registered already. -/
theorem Keeps.gives_fresh (h : σ.Keeps m) (make : Instance → Value)
    (hmake : ∀ m', m.Within m' → m' σ.fresh.1 = some (make σ.fresh.1) →
      (make σ.fresh.1).Registered m') : Gives m (make σ.fresh.1, σ.fresh.2) := by
  have hm : m.Within (m.enter σ.fresh.1 (make σ.fresh.1)) := h.free.within_enter
  exact ⟨_, hm, h.extend hm h.free.enter, hmake _ hm Register.enter_self⟩

theorem Keeps.gives_makeInteger (h : σ.Keeps m) (v : Int64) : Gives m (σ.makeInteger v) := by
  unfold makeInteger
  split
  next key hkey =>
    obtain ⟨m', hm, hlabel, hintegers, hfree⟩ := h.integers.share h.free key
    rw [slotInteger_of_slot? hkey, Int64.ofInt_toInt] at hlabel
    exact ⟨m', hm, { h.extend hm hfree with integers := hintegers }, hlabel⟩
  next => exact h.gives_fresh (.integer · v) fun _ _ hlabel => hlabel

theorem Keeps.gives_makeRational (h : σ.Keeps m) (r : Rat) : Gives m (σ.makeRational r) := by
  unfold makeRational
  split
  next key hkey =>
    obtain ⟨m', hm, hlabel, hrationals, hfree⟩ := h.rationals.share h.free key
    have hr : ((slotInteger key : Int) : Rat) = r := by
      rw [Option.ite_none_right_eq_some] at hkey
      rw [slotInteger_of_slot? hkey.2]
      exact Rat.ext rfl hkey.1.symm
    rw [hr] at hlabel
    exact ⟨m', hm, { h.extend hm hfree with rationals := hrationals }, hlabel⟩
  next => exact h.gives_fresh (.rational · r) fun _ _ hlabel => hlabel

theorem Keeps.gives_makeString (h : σ.Keeps m) (text : String) : Gives m (σ.makeString text) :=
  h.gives_fresh (.string · text) fun _ _ hlabel => hlabel

theorem Keeps.gives_shareSymbol (h : σ.Keeps m) (text : String) :
    Gives m (.symbol (σ.shareSymbol text).1 text, (σ.shareSymbol text).2) := by
  obtain ⟨m', hm, hlabel, hsymbols, hfree⟩ := h.symbols.share h.free text
  exact ⟨m', hm, { h.extend hm hfree with symbols := hsymbols }, hlabel⟩

theorem Keeps.gives_makeSymbol (h : σ.Keeps m) (text : String) : Gives m (σ.makeSymbol text) := by
  unfold makeSymbol
  split
  next => exact h.gives_shareSymbol text
  next => exact h.gives_fresh (.symbol · text) fun _ _ hlabel => hlabel

theorem Keeps.cacheSymbols (h : σ.Keeps m) (texts : List String) :
    ∃ m', m.Within m' ∧ (σ.cacheSymbols texts).Keeps m' := by
  induction texts generalizing σ m with
  | nil => exact ⟨m, Register.Within.refl m, h⟩
  | cons text texts ih =>
    obtain ⟨m₁, hm₁, h₁, -⟩ := h.gives_shareSymbol text
    obtain ⟨m₂, hm₂, h₂⟩ := ih h₁
    exact ⟨m₂, hm₁.trans hm₂, h₂⟩

theorem Keeps.gives_cons (h : σ.Keeps m) (ha : a.Registered m) (hb : b.Registered m) :
    Gives m (σ.cons a b) := by
  apply h.gives_fresh (.pair · a b)
  intro m' hm hlabel
  exact ⟨hlabel, ha.mono hm, hb.mono hm⟩

theorem Keeps.gives_list {items : List Value} (h : σ.Keeps m)
    (hitems : ∀ a ∈ items, a.Registered m) : Gives m (σ.list items) := by
  -- A list is built from its end, so the head meets the register that its tail has extended.
  induction items with
  | nil => exact h.gives trivial
  | cons head items ih =>
    obtain ⟨hhead, htail⟩ := List.forall_mem_cons.mp hitems
    obtain ⟨m₁, hm₁, h₁, htail₁⟩ := ih htail
    obtain ⟨m₂, hm₂, h₂⟩ := h₁.gives_cons (hhead.mono hm₁) htail₁
    exact ⟨m₂, hm₁.trans hm₂, h₂⟩

theorem Keeps.gives_makeVariable (h : σ.Keeps m) (ha : a.Registered m) :
    Gives m (σ.makeVariable a) := by
  refine Keeps.gives { h with places := ?_ } trivial
  intro b hb
  obtain hb | rfl := Array.mem_push.mp hb
  · exact h.places b hb
  · exact ha

theorem Keeps.gives_makeConstant (h : σ.Keeps m) (ha : a.Registered m) :
    Gives m (σ.makeConstant a) := by
  apply h.gives_fresh (.const · a)
  intro m' hm hlabel
  exact ⟨hlabel, ha.mono hm⟩

theorem Keeps.registered_get (h : σ.Keeps m) (ha : a.Registered m) (hb : σ.get a = .ok b) :
    b.Registered m := by
  cases a with
  | const label value => cases hb; exact ha.2
  | var place =>
    simp only [get] at hb
    split at hb
    next hplace => cases hb; exact h.places b (Array.mem_of_getElem? hplace)
    next => cases hb
  | _ => cases hb

theorem Keeps.set (h : σ.Keeps m) (hb : b.Registered m) {σ' : Store} (hset : σ.set a b = .ok σ') :
    σ'.Keeps m := by
  cases a with
  | var place =>
    cases hset
    refine { h with places := ?_ }
    intro c hc
    obtain hc | rfl := Array.mem_or_eq_of_mem_setIfInBounds hc
    · exact h.places c hc
    · exact hb
  | _ => cases hset

end Store

/-! ## Sessions -/

/-- The values that the operations have given so far, and their store. -/
structure Session where
  store : Store
  values : Array Value

/-- One operation on values.  A value is named by its place among the values given so far. -/
inductive Action where
  | null
  | boolean (b : Bool)
  | float (x : Binary64)
  | integer (v : Int64)
  | rational (r : Rat)
  | string (text : String)
  | symbol (text : String)
  /-- an integer that is not shared, whatever its value -/
  | ownInteger (v : Int64)
  | ownRational (r : Rat)
  | ownSymbol (text : String)
  | cacheSymbols (texts : List String)
  | cons (head tail : Nat)
  | list (items : List Nat)
  | makeVariable (value : Nat)
  | makeConstant (value : Nat)
  | get (reference : Nat)
  | set (reference value : Nat)
  | copy (reference : Nat)
  | head (list : Nat)
  | tail (list : Nat)
  | compute (op : Value.Operation) (left right : Nat)

namespace Session

/-- The session before any action. -/
def start : Session where
  store := .empty
  values := #[]

/-- The value at a place, which is `null` where none was given. -/
def value (s : Session) (i : Nat) : Value :=
  s.values[i]?.getD .null

/-- The session after a value was given. -/
def give (s : Session) (given : Value × Store) : Session where
  store := given.2
  values := s.values.push given.1

/-- The session after an operation that can be refused; it then gives `null`. -/
def giveIf (s : Session) (given : Except ValueError (Value × Store)) : Session :=
  match given with
  | .ok given => s.give given
  | .error _ => s.give (.null, s.store)

/-- The session after an action. -/
def perform (s : Session) : Action → Session
  | .null => s.give (.null, s.store)
  | .boolean b => s.give (.boolean b, s.store)
  | .float x => s.give (.float x, s.store)
  | .integer v => s.give (s.store.makeInteger v)
  | .rational r => s.give (s.store.makeRational r)
  | .string text => s.give (s.store.makeString text)
  | .symbol text => s.give (s.store.makeSymbol text)
  | .ownInteger v => s.give (.integer s.store.fresh.1 v, s.store.fresh.2)
  | .ownRational r => s.give (.rational s.store.fresh.1 r, s.store.fresh.2)
  | .ownSymbol text => s.give (.symbol s.store.fresh.1 text, s.store.fresh.2)
  | .cacheSymbols texts => s.give (.null, s.store.cacheSymbols texts)
  | .cons head tail => s.give (s.store.cons (s.value head) (s.value tail))
  | .list items => s.give (s.store.list (items.map s.value))
  | .makeVariable value => s.give (s.store.makeVariable (s.value value))
  | .makeConstant value => s.give (s.store.makeConstant (s.value value))
  | .get reference => s.giveIf ((s.store.get (s.value reference)).map (·, s.store))
  | .set reference value =>
    s.giveIf ((s.store.set (s.value reference) (s.value value)).map (.null, ·))
  | .copy reference => s.giveIf (s.store.copy (s.value reference))
  | .head list => s.giveIf ((s.value list).head.map (·, s.store))
  | .tail list => s.giveIf ((s.value list).tail.map (·, s.store))
  | .compute op left right => s.giveIf ((s.value left).compute op (s.value right) s.store)

/-- The session after some more actions. -/
def performAll (s : Session) (actions : List Action) : Session :=
  actions.foldl perform s

/-- The session that the given actions lead to. -/
def after (actions : List Action) : Session :=
  start.performAll actions

/-! ### Values stay -/

section

variable (s : Session) (given : Value × Store)

theorem value_give : (s.give given).value s.values.size = given.1 := by
  simp [value, give]

theorem lt_size_give : s.values.size < (s.give given).values.size := by
  simp [give]

theorem value_give_of_lt {i : Nat} (h : i < s.values.size) :
    (s.give given).value i = s.value i := by
  simp [value, give, Array.getElem?_push, Nat.ne_of_lt h]

/-- Every action gives a value, which may be `null`. -/
theorem exists_perform_eq_give (action : Action) : ∃ given, s.perform action = s.give given := by
  have hgiveIf (given : Except ValueError (Value × Store)) : ∃ g, s.giveIf given = s.give g := by
    cases given with
    | ok g => exact ⟨g, rfl⟩
    | error e => exact ⟨_, rfl⟩
  cases action with
  | get reference => exact hgiveIf _
  | set reference value => exact hgiveIf _
  | copy reference => exact hgiveIf _
  | head list => exact hgiveIf _
  | tail list => exact hgiveIf _
  | compute op left right => exact hgiveIf _
  | _ => exact ⟨_, rfl⟩

end

/-- A value that was given keeps its place. -/
theorem value_performAll (s : Session) (actions : List Action) {i : Nat}
    (h : i < s.values.size) :
    i < (s.performAll actions).values.size ∧ (s.performAll actions).value i = s.value i := by
  induction actions generalizing s with
  | nil => exact ⟨h, rfl⟩
  | cons action actions ih =>
    obtain ⟨given, hgiven⟩ := s.exists_perform_eq_give action
    have hlater : i < (s.give given).values.size := Nat.lt_trans h (s.lt_size_give given)
    rw [performAll, List.foldl_cons, hgiven, ← s.value_give_of_lt given h]
    exact ih (s.give given) hlater

/-! ### Every session fits a register -/

/-- The register fits the store and the values of the session. -/
structure Fits (s : Session) (m : Register) : Prop where
  store : s.store.Keeps m
  values : ∀ a ∈ s.values, a.Registered m

variable {s : Session} {m : Register}

theorem Fits.value (h : s.Fits m) (i : Nat) : (s.value i).Registered m := by
  unfold Session.value
  cases hi : s.values[i]? with
  | none => trivial
  | some a => exact h.values a (Array.mem_of_getElem? hi)

theorem Fits.give (h : s.Fits m) {given : Value × Store} (hgiven : Store.Gives m given) :
    ∃ m', (s.give given).Fits m' := by
  obtain ⟨m', hm, hstore, hvalue⟩ := hgiven
  refine ⟨m', hstore, ?_⟩
  intro a ha
  obtain ha | rfl := Array.mem_push.mp ha
  · exact (h.values a ha).mono hm
  · exact hvalue

theorem Fits.giveIf {α : Type} (h : s.Fits m) {result : Except ValueError α}
    {give : α → Value × Store} (hgive : ∀ a, result = .ok a → Store.Gives m (give a)) :
    ∃ m', (s.giveIf (result.map give)).Fits m' := by
  cases result with
  | ok a => exact h.give (hgive a rfl)
  | error e => exact h.give (h.store.gives trivial)

/-- A register still fits after an action, when it has got what the action constructs. -/
theorem Fits.perform (h : s.Fits m) (action : Action) : ∃ m', (s.perform action).Fits m' := by
  cases action with
  | null => exact h.give (h.store.gives trivial)
  | boolean b => exact h.give (h.store.gives trivial)
  | float x => exact h.give (h.store.gives trivial)
  | integer v => exact h.give (h.store.gives_makeInteger v)
  | rational r => exact h.give (h.store.gives_makeRational r)
  | string text => exact h.give (h.store.gives_makeString text)
  | symbol text => exact h.give (h.store.gives_makeSymbol text)
  | ownInteger v => exact h.give (h.store.gives_fresh (.integer · v) fun _ _ hlabel => hlabel)
  | ownRational r => exact h.give (h.store.gives_fresh (.rational · r) fun _ _ hlabel => hlabel)
  | ownSymbol text => exact h.give (h.store.gives_fresh (.symbol · text) fun _ _ hlabel => hlabel)
  | cacheSymbols texts =>
    obtain ⟨m', hm, hstore⟩ := h.store.cacheSymbols texts
    exact h.give ⟨m', hm, hstore, trivial⟩
  | cons head tail => exact h.give (h.store.gives_cons (h.value head) (h.value tail))
  | list items =>
    refine h.give (h.store.gives_list ?_)
    intro a ha
    obtain ⟨i, -, rfl⟩ := List.mem_map.mp ha
    exact h.value i
  | makeVariable value => exact h.give (h.store.gives_makeVariable (h.value value))
  | makeConstant value => exact h.give (h.store.gives_makeConstant (h.value value))
  | get reference =>
    exact h.giveIf fun a ha => h.store.gives (h.store.registered_get (h.value reference) ha)
  | set reference value =>
    exact h.giveIf fun σ hσ => (h.store.set (h.value value) hσ).gives trivial
  | copy reference =>
    exact h.giveIf fun a ha =>
      h.store.gives_makeVariable (h.store.registered_get (h.value reference) ha)
  | head list => exact h.giveIf fun a ha => h.store.gives ((h.value list).head ha)
  | tail list => exact h.giveIf fun a ha => h.store.gives ((h.value list).tail ha)
  | compute op left right =>
    rw [Session.perform, Value.compute_eq_map]
    exact h.giveIf fun r _ => h.store.gives_makeRational r

/-- After any actions some register fits. -/
theorem exists_fits_after (actions : List Action) : ∃ m, (after actions).Fits m := by
  -- The first action leads to another session, so the induction is over all of them.
  suffices h : ∀ (s : Session) (m : Register), s.Fits m → ∃ m', (s.performAll actions).Fits m' from
    h start _ ⟨Store.keeps_empty, fun a ha => by simp [start] at ha⟩
  induction actions with
  | nil => exact fun s m h => ⟨m, h⟩
  | cons action actions ih =>
    intro s m h
    obtain ⟨m', h'⟩ := h.perform action
    exact ih (s.perform action) m' h'

end Session

end LispShell
