import LispShell.Proofs.Sharing

set_option autoImplicit false

/-!
# What references hold

A program has many handles of one reference: each value that is the same instance, given by itself
or held in pairs, in constants and in variables.  This module says what `get` gives through any of
them, after any actions.

* A variable holds what the last successful set through any of its handles gave to it, or else its
  first value.
* A constant holds the value that it was made with.
* A copy is a variable of its own.

No action forges a reference: what a session has of them it had before, or the action has just made
it (`Session.Effect`).  So all places of variables are places of the store, a new place is one that
no handle has, and a set reaches the handles of one variable and no others.
-/

namespace LispShell

/-! ## Handles -/

/-- The value is the other one or is held in it, at any depth.  What a variable holds is not in the
variable but in the store. -/
inductive Value.Occurs (x : Value) : Value → Prop where
  | self : x.Occurs x
  | head {label : Instance} {head tail : Value} (h : x.Occurs head) :
      x.Occurs (.pair label head tail)
  | tail {label : Instance} {head tail : Value} (h : x.Occurs tail) :
      x.Occurs (.pair label head tail)
  | const {label : Instance} {value : Value} (h : x.Occurs value) : x.Occurs (.const label value)

namespace Session

/-- The value is one that the operations have given, or is held in one or in a variable. -/
def Has (s : Session) (x : Value) : Prop :=
  (∃ a ∈ s.values, x.Occurs a) ∨ ∃ a ∈ s.store.places, x.Occurs a

/-! ## What actions are to references -/

/-- The action makes a reference of this kind, which holds this value first. -/
inductive Makes (s : Session) : Action → Kind → Value → Prop where
  | makeVariable (value : Nat) : s.Makes (.makeVariable value) .var (s.value value)
  | makeConstant (value : Nat) : s.Makes (.makeConstant value) .const (s.value value)
  | copy {reference : Nat} {a : Value} (h : s.store.get (s.value reference) = .ok a) :
      s.Makes (.copy reference) .var a

/-- The value that the action gives to a variable, if it is a successful set through a handle. -/
def setTo? (s : Session) (x : Value) : Action → Option Value
  | .set reference value =>
    match s.store.set (s.value reference) (s.value value) with
    | .ok _ => if (s.value reference).same x then some (s.value value) else none
    | .error _ => none
  | _ => none

/-- The value that the last successful set through a handle gives to a variable, if there is one
among the actions. -/
def lastSet? (s : Session) (x : Value) : List Action → Option Value
  | [] => none
  | action :: actions => ((s.perform action).lastSet? x actions).or (s.setTo? x action)

/-- What an action may do to the references of a session: it makes a variable, it sets one, or it
leaves all as they are, and then the value that it gives holds no reference but those of the session
or is a constant that it makes. -/
inductive Effect (s : Session) (action : Action) : Session → Prop where
  | make {a : Value} (h : s.Makes action .var a) : s.Effect action (s.give (s.store.makeVariable a))
  | set {reference value : Nat} {σ : Store} (haction : action = .set reference value)
      (h : s.store.set (s.value reference) (s.value value) = .ok σ) :
      s.Effect action (s.give (.null, σ))
  | leave {given : Value × Store} (hplaces : given.2.places = s.store.places)
      (hnone : ∀ x, s.setTo? x action = none)
      (hold : ∀ x : Value, x.isReference = true → x.Occurs given.1 →
        s.Has x ∨ ∃ label a, s.Makes action .const a ∧ x = .const label a ∧ x = given.1) :
      s.Effect action (s.give given)

end Session

/-! ## Occurrences -/

namespace Value

variable {a x : Value} {m : Register}

theorem Occurs.registered (h : x.Occurs a) (ha : a.Registered m) : x.Registered m := by
  induction h with
  | self => exact ha
  | head _ ih => exact ih ha.2.1
  | tail _ ih => exact ih ha.2.2
  | const _ ih => exact ih ha.2

theorem Occurs.of_head {list : Value} (hlist : list.head = .ok a) (h : x.Occurs a) :
    x.Occurs list := by
  cases list <;> cases hlist
  · exact h
  · exact .head h

theorem Occurs.of_tail {list : Value} (hlist : list.tail = .ok a) (h : x.Occurs a) :
    x.Occurs list := by
  cases list <;> cases hlist
  · exact h
  · exact .tail h

/-- No reference occurs in an atom or in `null`. -/
theorem Occurs.isReference_eq_false (h : x.Occurs a) (ha : a = .null ∨ a.isAtom = true) :
    x.isReference = false := by
  rcases ha with rfl | hatom
  · cases h
    rfl
  · cases h with
    | self => cases a <;> first | rfl | cases hatom
    | _ => cases hatom

end Value

namespace Store

variable {σ σ' : Store} {a b current reference x : Value}

theorem occurs_list {items : List Value} (hx : x.isReference = true)
    (h : x.Occurs (σ.list items).1) : ∃ a ∈ items, x.Occurs a := by
  induction items with
  | nil =>
    cases h
    cases hx
  | cons head items ih =>
    cases h with
    | self => cases hx
    | head h => exact ⟨head, List.mem_cons_self, h⟩
    | tail h =>
      obtain ⟨a, ha, hoccurs⟩ := ih h
      exact ⟨a, List.mem_cons_of_mem head ha, hoccurs⟩

theorem places_construct (x : Content) (σ : Store) : (x.construct σ).2.places = σ.places := by
  cases x with
  | integer v =>
    rw [Content.construct, makeInteger]
    split
    · rfl
    · rfl
  | rational r =>
    rw [Content.construct, makeRational]
    split
    · rfl
    · rfl
  | symbol text =>
    rw [Content.construct, makeSymbol]
    split
    · rfl
    · rfl

theorem places_cacheSymbols (texts : List String) (σ : Store) :
    (σ.cacheSymbols texts).places = σ.places := by
  induction texts generalizing σ with
  | nil => rfl
  | cons text texts ih => exact ih (σ.shareSymbol text).2

/-! ## The current values -/

theorem get_congr (h : σ'.places = σ.places) (x : Value) : σ'.get x = σ.get x := by
  cases x with
  | var place => rw [get, get, h]
  | _ => rfl

/-- What a constant holds is in the constant, and not in the store. -/
theorem get_of_kind_const (h : x.kind = .const) (σ σ' : Store) : σ.get x = σ'.get x := by
  cases x with
  | const label value => rfl
  | _ => cases h

theorem get_var_eq_ok_iff {place : Nat} :
    σ.get (.var place) = .ok a ↔ σ.places[place]? = some a := by
  rw [get]
  cases σ.places[place]? with
  | none => simp
  | some b => simp

/-- A new variable changes no reference. -/
theorem get_makeVariable_snd (h : σ.get x = .ok current) (a : Value) :
    (σ.makeVariable a).2.get x = .ok current := by
  cases x with
  | var place =>
    rw [get_var_eq_ok_iff] at h ⊢
    obtain ⟨hlt, -⟩ := Array.getElem?_eq_some_iff.mp h
    rw [makeVariable, Array.getElem?_push, if_neg (Nat.ne_of_lt hlt)]
    exact h
  | _ => exact h

/-- A set succeeds through variables only. -/
theorem exists_of_set_eq_ok (h : σ.set reference b = .ok σ') :
    ∃ place, reference = .var place ∧ σ' = { σ with places := σ.places.setIfInBounds place b } := by
  cases reference with
  | var place => exact ⟨place, rfl, (Except.ok.inj h).symm⟩
  | _ => cases h

/-- A set reaches the handles of one variable, and no other reference. -/
theorem get_set (hset : σ.set reference b = .ok σ') (h : σ.get x = .ok current) :
    σ'.get x = .ok (if reference.same x then b else current) := by
  obtain ⟨place, rfl, rfl⟩ := exists_of_set_eq_ok hset
  cases x with
  | var place' =>
    rw [get_var_eq_ok_iff] at h ⊢
    obtain ⟨hlt, -⟩ := Array.getElem?_eq_some_iff.mp h
    rw [Value.same, Array.getElem?_setIfInBounds]
    by_cases hplace : place = place'
    · subst hplace
      simp [hlt]
    · simp [hplace, h]
  | _ => exact h

/-- A set that is refused says what is wrong with its reference. -/
theorem set_eq_error {e : ValueError} (h : σ.set reference b = .error e) :
    reference.kind = .const ∧ e = .constantSet ∨
      reference.isReference = false ∧ e = .notAReference reference.kind := by
  cases reference with
  | var place => cases h
  | const label value => exact .inl ⟨rfl, (Except.error.inj h).symm⟩
  | _ => exact .inr ⟨rfl, (Except.error.inj h).symm⟩

end Store

namespace Session

open Store

variable {s t : Session} {action made : Action} {actions : List Action} {kind : Kind}
  {a current first x y : Value}

/-! ## What a session has -/

theorem Has.of_value {i : Nat} (hx : x.isReference = true) (h : x.Occurs (s.value i)) :
    s.Has x := by
  unfold value at h
  cases hi : s.values[i]? with
  | none =>
    rw [hi] at h
    cases h
    cases hx
  | some a =>
    rw [hi] at h
    exact .inl ⟨a, Array.mem_of_getElem? hi, h⟩

theorem Has.of_get {i : Nat} (hx : x.isReference = true) (hget : s.store.get (s.value i) = .ok a)
    (h : x.Occurs a) : s.Has x := by
  cases hi : s.value i with
  | var place =>
    rw [hi, get_var_eq_ok_iff] at hget
    exact .inr ⟨a, Array.mem_of_getElem? hget, h⟩
  | const label value =>
    rw [hi] at hget
    cases hget
    have hoccurs : x.Occurs (s.value i) := by
      rw [hi]
      exact .const h
    exact .of_value hx hoccurs
  | _ =>
    rw [hi] at hget
    cases hget

/-- What a session has after a value was given is held in an earlier value, in that one or in a
variable. -/
theorem has_give {given : Value × Store} : (s.give given).Has x ↔
    (∃ a ∈ s.values, x.Occurs a) ∨ x.Occurs given.1 ∨ ∃ a ∈ given.2.places, x.Occurs a := by
  simp only [Has, give, Array.mem_push, or_and_right, exists_or, exists_eq_left, or_assoc]

theorem perform_copy {reference : Nat} (h : s.store.get (s.value reference) = .ok a) :
    s.perform (.copy reference) = s.give (s.store.makeVariable a) := by
  rw [perform, Store.copy, h]
  rfl

/-! ## One action -/

/-- Every action has one of the effects. -/
theorem effect_perform (s : Session) (action : Action) : s.Effect action (s.perform action) := by
  -- Most actions give a value that holds no reference, or one that the session has.
  have hplain (given : Value × Store) (hplaces : given.2.places = s.store.places)
      (hnone : ∀ x, s.setTo? x action = none) (hatom : given.1 = .null ∨ given.1.isAtom = true) :
      s.Effect action (s.give given) := by
    refine .leave hplaces hnone fun x hx hoccurs => ?_
    rw [hoccurs.isReference_eq_false hatom] at hx
    cases hx
  have hconstruct (x : Content) (hnone : ∀ x, s.setTo? x action = none) :
      s.Effect action (s.give (x.construct s.store)) := by
    obtain ⟨label, hlabel⟩ := exists_fst_construct_eq x s.store
    refine hplain _ (places_construct x s.store) hnone (.inr ?_)
    rw [hlabel]
    cases x <;> rfl
  have hknown (a : Value) (hnone : ∀ x, s.setTo? x action = none)
      (hhas : ∀ x : Value, x.isReference = true → x.Occurs a → s.Has x) :
      s.Effect action (s.give (a, s.store)) :=
    .leave rfl hnone fun x hx hoccurs => .inl (hhas x hx hoccurs)
  have hnull (hnone : ∀ x, s.setTo? x action = none) : s.Effect action (s.give (.null, s.store)) :=
    hplain _ rfl hnone (.inl rfl)
  cases action with
  | null => exact hnull fun _ => rfl
  | boolean b => exact hplain _ rfl (fun _ => rfl) (.inr rfl)
  | float v => exact hplain _ rfl (fun _ => rfl) (.inr rfl)
  | integer v => exact hconstruct (.integer v) fun _ => rfl
  | rational r => exact hconstruct (.rational r) fun _ => rfl
  | string text => exact hplain _ rfl (fun _ => rfl) (.inr rfl)
  | symbol text => exact hconstruct (.symbol text) fun _ => rfl
  | ownInteger v => exact hplain _ rfl (fun _ => rfl) (.inr rfl)
  | ownRational r => exact hplain _ rfl (fun _ => rfl) (.inr rfl)
  | ownSymbol text => exact hplain _ rfl (fun _ => rfl) (.inr rfl)
  | cacheSymbols texts =>
    exact hplain _ (places_cacheSymbols texts s.store) (fun _ => rfl) (.inl rfl)
  | cons head tail =>
    refine .leave rfl (fun _ => rfl) fun x hx hoccurs => .inl ?_
    cases hoccurs with
    | self => cases hx
    | head h => exact .of_value hx h
    | tail h => exact .of_value hx h
  | list items =>
    have hplaces : (s.store.list (items.map s.value)).2.places = s.store.places := by
      rw [snd_list]
    refine .leave hplaces (fun _ => rfl) fun x hx hoccurs => .inl ?_
    obtain ⟨a, ha, hoccurs⟩ := occurs_list hx hoccurs
    obtain ⟨i, -, rfl⟩ := List.mem_map.mp ha
    exact .of_value hx hoccurs
  | makeVariable value => exact .make (.makeVariable value)
  | makeConstant value =>
    refine .leave rfl (fun _ => rfl) fun x hx hoccurs => ?_
    cases hoccurs with
    | self => exact .inr ⟨_, _, .makeConstant value, rfl, rfl⟩
    | const h => exact .inl (.of_value hx h)
  | get reference =>
    rw [perform]
    cases hget : s.store.get (s.value reference) with
    | ok a => exact hknown a (fun _ => rfl) fun x hx hoccurs => .of_get hx hget hoccurs
    | error e => exact hnull fun _ => rfl
  | set reference value =>
    rw [perform]
    cases hset : s.store.set (s.value reference) (s.value value) with
    | ok σ => exact .set rfl hset
    | error e => exact hnull fun x => by rw [setTo?, hset]
  | copy reference =>
    cases hget : s.store.get (s.value reference) with
    | ok a =>
      rw [perform_copy hget]
      exact .make (.copy hget)
    | error e =>
      rw [perform, Store.copy, hget]
      exact hnull fun _ => rfl
  | head list =>
    rw [perform]
    cases hhead : (s.value list).head with
    | ok a =>
      exact hknown a (fun _ => rfl) fun x hx hoccurs => .of_value hx (hoccurs.of_head hhead)
    | error e => exact hnull fun _ => rfl
  | tail list =>
    rw [perform]
    cases htail : (s.value list).tail with
    | ok a =>
      exact hknown a (fun _ => rfl) fun x hx hoccurs => .of_value hx (hoccurs.of_tail htail)
    | error e => exact hnull fun _ => rfl
  | compute op left right =>
    rw [perform, Value.compute_eq_map]
    cases (do op.apply (← (s.value left).leftOperand) (← (s.value right).rightOperand) :
      Except ValueError Rat) with
    | ok r => exact hconstruct (.rational r) fun _ => rfl
    | error e => exact hnull fun _ => rfl

/-! ## Handles stay within the store -/

theorem Effect.size_le (h : s.Effect action t) : s.store.places.size ≤ t.store.places.size := by
  cases h with
  | make _ => simp [give, makeVariable]
  | set _ h =>
    obtain ⟨place, -, rfl⟩ := exists_of_set_eq_ok h
    simp [give]
  | leave hplaces _ _ => exact Nat.le_of_eq (congrArg Array.size hplaces).symm

/-- The references of a session were there before the last action, or this has made them, and then
they are the value that it gave. -/
theorem Effect.has (h : s.Effect action t) (hx : x.isReference = true) (ht : t.Has x) :
    s.Has x ∨ x = t.value s.values.size ∧ ∃ a, s.Makes action x.kind a := by
  cases h with
  | @make a h =>
    rw [value_give]
    obtain hvalue | hself | ⟨b, hb, hoccurs⟩ := has_give.mp ht
    · exact .inl (.inl hvalue)
    · cases hself
      exact .inr ⟨rfl, a, h⟩
    · obtain hb | rfl := Array.mem_push.mp hb
      · exact .inl (.inr ⟨b, hb, hoccurs⟩)
      · cases h with
        | makeVariable value => exact .inl (.of_value hx hoccurs)
        | copy hget => exact .inl (.of_get hx hget hoccurs)
  | @set reference value σ haction h =>
    obtain ⟨place, -, rfl⟩ := exists_of_set_eq_ok h
    obtain hvalue | hself | ⟨b, hb, hoccurs⟩ := has_give.mp ht
    · exact .inl (.inl hvalue)
    · cases hself
      cases hx
    · obtain hb | rfl := Array.mem_or_eq_of_mem_setIfInBounds hb
      · exact .inl (.inr ⟨b, hb, hoccurs⟩)
      · exact .inl (.of_value hx hoccurs)
  | @leave given hplaces _ hold =>
    rw [value_give]
    obtain hvalue | hself | ⟨b, hb, hoccurs⟩ := has_give.mp ht
    · exact .inl (.inl hvalue)
    · obtain hhas | ⟨label, a, hmakes, rfl, hgiven⟩ := hold x hx hself
      · exact .inl hhas
      · exact .inr ⟨hgiven, a, hmakes⟩
    · exact .inl (.inr ⟨b, hplaces ▸ hb, hoccurs⟩)

/-- Every variable of the session has its place in the store. -/
def Placed (s : Session) : Prop :=
  ∀ place, s.Has (.var place) → place < s.store.places.size

theorem Effect.placed (h : s.Effect action t) (hs : s.Placed) : t.Placed := by
  intro place ht
  obtain hhas | ⟨hvalue, -⟩ := h.has rfl ht
  · exact Nat.lt_of_lt_of_le (hs place hhas) h.size_le
  · cases h with
    | @make a _ =>
      rw [value_give] at hvalue
      cases hvalue
      simp [give, makeVariable]
    | set _ _ =>
      rw [value_give] at hvalue
      cases hvalue
    | @leave given hplaces _ hold =>
      rw [value_give] at hvalue
      have hself : (Value.var place).Occurs given.1 := hvalue ▸ .self
      obtain hhas | ⟨label, a, -, hconst, -⟩ := hold _ rfl hself
      · exact (congrArg Array.size hplaces).symm ▸ hs place hhas
      · cases hconst

theorem placed_after (actions : List Action) : (after actions).Placed := by
  suffices h : ∀ s : Session, s.Placed → (s.performAll actions).Placed by
    refine h start fun place hhas => ?_
    obtain ⟨a, ha, -⟩ | ⟨a, ha, -⟩ := hhas
    · simp [start] at ha
    · simp [start, empty] at ha
  induction actions with
  | nil => exact fun _ hs => hs
  | cons action actions ih => exact fun s hs => ih _ ((s.effect_perform action).placed hs)

theorem Placed.exists_get (hs : s.Placed) (hx : x.isReference = true) (h : s.Has x) :
    ∃ a, s.store.get x = .ok a := by
  cases x with
  | const label value => exact ⟨value, rfl⟩
  | var place =>
    have hlt := hs place h
    exact ⟨s.store.places[place], get_var_eq_ok_iff.mpr (Array.getElem?_eq_getElem hlt)⟩
  | _ => cases hx

/-! ## What references hold -/

/-- An action changes what a reference holds if it sets it, and in no other way. -/
theorem Effect.get (h : s.Effect action t) (hget : s.store.get x = .ok current) :
    t.store.get x = .ok ((s.setTo? x action).getD current) := by
  cases h with
  | make h =>
    have hnone : s.setTo? x action = none := by
      cases h
      · rfl
      · rfl
    rw [hnone]
    exact get_makeVariable_snd hget _
  | set haction h =>
    subst haction
    rw [store_give, get_set h hget, setTo?, h]
    dsimp only
    split
    · rfl
    · rfl
  | leave hplaces hnone _ =>
    rw [hnone]
    exact (get_congr hplaces x).trans hget

/-- After some actions a reference holds what the last of them that sets it has given to it. -/
theorem get_performAll (hget : s.store.get x = .ok current) (actions : List Action) :
    (s.performAll actions).store.get x = .ok ((s.lastSet? x actions).getD current) := by
  induction actions generalizing s current with
  | nil => exact hget
  | cons action actions ih =>
    rw [lastSet?, Option.getD_or]
    exact ih ((s.effect_perform action).get hget)

/-- A reference that was just made holds its first value. -/
theorem Makes.get (h : s.Makes action kind a) :
    (s.perform action).store.get ((s.perform action).value s.values.size) = .ok a := by
  cases h with
  | makeVariable value =>
    rw [perform, value_give]
    exact get_makeVariable s.store _
  | makeConstant value =>
    rw [perform, value_give]
    rfl
  | copy hget =>
    rw [perform_copy hget, value_give]
    exact get_makeVariable s.store a

theorem Makes.kind_eq (h : s.Makes action kind a) :
    ((s.perform action).value s.values.size).kind = kind := by
  cases h with
  | copy hget =>
    rw [perform_copy hget, value_give]
    rfl
  | _ =>
    rw [perform, value_give]
    rfl

/-! ## The law of references -/

/-- What the references hold that some actions have led to, and what the next action may change. -/
structure ReferenceLaw (actions : List Action) : Prop where
  /-- every reference was made by one of the actions -/
  made : ∀ {x : Value}, (after actions).Has x → x.isReference = true →
    ∃ before action later first, actions = before ++ action :: later ∧
      (after before).Makes action x.kind first ∧ x = (after actions).value before.length
  /-- all handles of a variable give what the last successful set through any of them has given to
  it, or else its first value -/
  get_variable : ∀ {before later : List Action} {action : Action} {first x : Value},
    actions = before ++ action :: later → (after before).Makes action .var first →
      (after actions).Has x → x.same ((after actions).value before.length) = true →
        (after actions).store.get x =
          .ok ((((after before).perform action).lastSet? x later).getD first)
  /-- all handles of a constant give the value that it was made with -/
  get_constant : ∀ {before later : List Action} {action : Action} {first x : Value},
    actions = before ++ action :: later → (after before).Makes action .const first →
      (after actions).Has x → x.same ((after actions).value before.length) = true →
        (after actions).store.get x = .ok first
  /-- a set that is refused is one through a constant or through no reference, and changes nothing
  -/
  set_refused : ∀ {reference value : Nat} {e : ValueError}, let s := after actions
    s.store.set (s.value reference) (s.value value) = .error e →
      ((s.value reference).kind = .const ∧ e = .constantSet ∨
        (s.value reference).isReference = false ∧ e = .notAReference (s.value reference).kind) ∧
      ∀ x, (s.perform (.set reference value)).store.get x = s.store.get x
  /-- any other set gives its value to all handles of one variable, and changes no other reference
  -/
  set_accepted : ∀ {reference value : Nat} {σ : Store} {x : Value}, let s := after actions
    s.store.set (s.value reference) (s.value value) = .ok σ → s.Has x → x.isReference = true →
      (s.perform (.set reference value)).store.get x =
        if (s.value reference).same x then .ok (s.value value) else s.store.get x
  /-- a copy is a variable with the value that the reference holds, and no reference that there was
  is a handle of it -/
  copy : ∀ {reference : Nat} {first : Value}, let s := after actions
    s.store.get (s.value reference) = .ok first →
      let t := s.perform (.copy reference)
      let copied := t.value actions.length
      copied.kind = .var ∧ t.store.get copied = .ok first ∧ ∀ x, s.Has x → x.same copied = false

theorem size_after (actions : List Action) : (after actions).values.size = actions.length := by
  rw [after, size_performAll]
  exact Nat.zero_add actions.length

/-- What an action has given keeps its place. -/
theorem value_after_cons (before later : List Action) (action : Action) :
    (after (before ++ action :: later)).value before.length =
      ((after before).perform action).value before.length := by
  obtain ⟨given, hgiven⟩ := (after before).exists_perform_eq_give action
  have hlt := (after before).lt_size_give given
  rw [size_after, ← hgiven] at hlt
  rw [after_append]
  exact (value_performAll _ later hlt).2

theorem Has.eq_of_same (hx : (after actions).Has x) (hy : (after actions).Has y)
    (h : x.same y = true) : x = y := by
  obtain ⟨m, hm⟩ := exists_fits_after actions
  have hregistered {z : Value} (hz : (after actions).Has z) : z.Registered m := by
    obtain ⟨a, ha, hoccurs⟩ | ⟨a, ha, hoccurs⟩ := hz
    · exact hoccurs.registered (hm.values a ha)
    · exact hoccurs.registered (hm.store.places a ha)
  exact (hregistered hx).eq_of_same (hregistered hy) h

theorem exists_makes_of_has (hx : x.isReference = true) (h : (after actions).Has x) :
    ∃ before action later first, actions = before ++ action :: later ∧
      (after before).Makes action x.kind first ∧ x = (after actions).value before.length := by
  induction actions using List.reverseRecOn with
  | nil =>
    obtain ⟨a, ha, -⟩ | ⟨a, ha, -⟩ := h
    · simp [after, start, performAll] at ha
    · simp [after, start, performAll, empty] at ha
  | append_singleton actions action ih =>
    rw [after_append] at h
    obtain hhas | ⟨hvalue, first, hmakes⟩ := ((after actions).effect_perform action).has hx h
    · obtain ⟨before, made, later, first, rfl, hmakes, hvalue⟩ := ih hhas
      refine ⟨before, made, later ++ [action], first, by simp, hmakes, ?_⟩
      rw [hvalue, value_after_cons, List.append_assoc, List.cons_append, value_after_cons]
    · refine ⟨actions, action, [], first, rfl, hmakes, ?_⟩
      rw [value_after_cons, hvalue, size_after]

/-- The handles of a reference are the value that the action has given which made it. -/
theorem Makes.eq_of_same {before later : List Action} (h : (after before).Makes made kind first)
    (hx : (after (before ++ made :: later)).Has x)
    (hsame : x.same ((after (before ++ made :: later)).value before.length) = true) :
    x = ((after before).perform made).value (after before).values.size := by
  have hkind := h.kind_eq
  have hreference : (((after before).perform made).value (after before).values.size).isReference =
      true := by
    rw [Value.isReference, hkind]
    cases h <;> rfl
  rw [value_after_cons, ← size_after before] at hsame
  refine hx.eq_of_same (.of_value (i := before.length) hreference ?_) hsame
  rw [value_after_cons, size_after]
  exact .self

/-- The references that any actions have led to hold what the law says, through all handles and
wherever these are held. -/
theorem referenceLaw_after (actions : List Action) : ReferenceLaw actions where
  made := fun hx hreference => exists_makes_of_has hreference hx
  get_variable := by
    rintro before later action first x rfl hmakes hx hsame
    obtain rfl := hmakes.eq_of_same hx hsame
    rw [after_append]
    exact get_performAll hmakes.get later
  get_constant := by
    rintro before later action first x rfl hmakes hx hsame
    obtain rfl := hmakes.eq_of_same hx hsame
    rw [← hmakes.get]
    exact get_of_kind_const hmakes.kind_eq _ _
  set_refused := by
    intro reference value e s hset
    refine ⟨set_eq_error hset, fun x => ?_⟩
    rw [perform, hset]
    rfl
  set_accepted := by
    intro reference value σ x s hset hx hreference
    obtain ⟨current, hget⟩ := (placed_after actions).exists_get hreference hx
    rw [perform, hset]
    exact (get_set hset hget).trans (by rw [hget]; split <;> rfl)
  copy := by
    intro reference first s hget t copied
    have hcopied : copied = t.value s.values.size := by rw [size_after]
    have hmakes : s.Makes (.copy reference) .var first := .copy hget
    refine ⟨hcopied ▸ hmakes.kind_eq, hcopied ▸ hmakes.get, fun x hx => ?_⟩
    have hplace : copied = .var s.store.places.size := by
      rw [hcopied, show t = _ from perform_copy hget, value_give]
      rfl
    rw [hplace]
    cases x with
    | var place => exact beq_false_of_ne (Nat.ne_of_lt (placed_after actions place hx))
    | _ => rfl

end Session

end LispShell
