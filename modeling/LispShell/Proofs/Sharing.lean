import LispShell.Proofs.Session
import Mathlib.Data.Finset.Card

set_option autoImplicit false

/-!
# Which constructions give one instance

An integer, a rational or a symbol is constructed from its contents.  What matters of a store is
then `shared?`, the instance that its tables have for some contents.  Contents that have a shared
instance get it, and the store stays as it is.  Other contents get the next free label, and they are
shared from then on exactly if they are small.

Every action lets the store grow: a shared instance stays shared, and an instance that becomes
shared later is a new one.  So the second of two constructions gives the instance of the first if
the contents were shared right after the first, and another instance if they were not
(`Session.sharingLaw_after`).

Tables that begin with some instances in them are those of a store that has constructed these
before, so nothing is assumed of the first store but that actions lead to it.  They lead to the one
that the program begins with (`Session.store_after_zero_one`).
-/

namespace LispShell

/-! ## Contents -/

/-- What a construction of a number or a symbol asks for. -/
inductive Content where
  | integer (v : Int64)
  | rational (r : Rat)
  | symbol (text : String)

namespace Content

/-- The value with the contents, under a label. -/
def toValue (label : Instance) : Content → Value
  | .integer v => .integer label v
  | .rational r => .rational label r
  | .symbol text => .symbol label text

/-- The construction of the contents. -/
def construct (σ : Store) : Content → Value × Store
  | .integer v => σ.makeInteger v
  | .rational r => σ.makeRational r
  | .symbol text => σ.makeSymbol text

/-- The contents are shared from their first construction on. -/
def IsSmall : Content → Prop
  | .integer v => -256 ≤ v.toInt ∧ v.toInt ≤ 255
  | .rational r => ∃ n : Int, r = n ∧ -256 ≤ n ∧ n ≤ 255
  | .symbol text => text.length ≤ 3

/-- The symbols that a construction of the contents makes shared. -/
def interned : Content → List String
  | .symbol text => if text.length ≤ 3 then [text] else []
  | _ => []

theorem same_toValue (x : Content) (label label' : Instance) :
    (x.toValue label).same (x.toValue label') = (label == label') := by
  cases x <;> rfl

theorem eq_of_toValue_eq {x y : Content} {label label' : Instance}
    (h : x.toValue label = y.toValue label') : x = y := by
  cases x <;> cases y <;> cases h <;> rfl

end Content

section Slots

theorem slot?_eq_none_iff {n : Int} : slot? n = none ↔ ¬(-256 ≤ n ∧ n ≤ 255) := by
  simp [slot?]

/-- A rational has a slot exactly if it is equal to a small integer. -/
theorem rationalSlot_eq_none_iff {r : Rat} :
    (if r.den = 1 then slot? r.num else none) = none ↔ ¬(Content.rational r).IsSmall := by
  constructor
  · rintro h ⟨n, rfl, hn⟩
    rw [Rat.den_intCast, if_pos rfl, Rat.num_intCast] at h
    exact slot?_eq_none_iff.mp h hn
  · intro h
    split
    next hden =>
      rw [slot?_eq_none_iff]
      exact fun hn => h ⟨r.num, Rat.ext rfl hden, hn⟩
    next => rfl

end Slots

namespace Store

variable {σ σ' σ'' τ : Store} {x : Content} {label : Instance}

/-! ## Shared instances -/

/-- The instance that the tables have for some contents. -/
def shared? (σ : Store) : Content → Option Instance
  | .integer v => (slot? v.toInt).bind (σ.integers[·]?)
  | .rational r => (if r.den = 1 then slot? r.num else none).bind (σ.rationals[·]?)
  | .symbol text => σ.symbols[text]?

section Construction

variable {κ : Type} [BEq κ] [Hashable κ] {key : κ} {table : Std.HashMap κ Instance}
  {next : Instance}

theorem share_of_getElem?_eq_some (h : table[key]? = some label) :
    share key table next = (label, table, next) := by
  rw [share, h]

theorem share_of_getElem?_eq_none (h : table[key]? = none) :
    share key table next = (next, table.insert key next, next + 1) := by
  rw [share, h]

end Construction

/-- Contents with a shared instance get it, and the store does not change. -/
theorem construct_of_shared?_eq_some (h : σ.shared? x = some label) :
    x.construct σ = (x.toValue label, σ) := by
  cases x with
  | integer v =>
    obtain ⟨key, hkey, hlabel⟩ := Option.bind_eq_some_iff.mp h
    simp only [Content.construct, makeInteger, hkey, share_of_getElem?_eq_some hlabel]
    rfl
  | rational r =>
    obtain ⟨key, hkey, hlabel⟩ := Option.bind_eq_some_iff.mp h
    simp only [Content.construct, makeRational, hkey, share_of_getElem?_eq_some hlabel]
    rfl
  | symbol text =>
    have hmem : σ.symbols.contains text = true := by
      rw [Std.HashMap.contains_eq_isSome_getElem?]
      exact Option.isSome_of_eq_some h
    simp only [Content.construct, makeSymbol, hmem, Bool.true_or, if_true, shareSymbol,
      share_of_getElem?_eq_some h]
    rfl

/-- Contents without a shared instance that are not small get a new label and nothing else. -/
theorem construct_of_not_isSmall (h : σ.shared? x = none) (hx : ¬x.IsSmall) :
    x.construct σ = (x.toValue σ.fresh.1, σ.fresh.2) := by
  cases x with
  | integer v =>
    have hslot := slot?_eq_none_iff.mpr hx
    simp only [Content.construct, makeInteger, hslot]
    rfl
  | rational r =>
    have hslot := rationalSlot_eq_none_iff.mpr hx
    simp only [Content.construct, makeRational, hslot]
    rfl
  | symbol text =>
    have hmem : σ.symbols.contains text = false := by
      rw [Std.HashMap.contains_eq_isSome_getElem?, Option.isSome_eq_false_iff]
      exact Option.isNone_iff_eq_none.mpr h
    have hlength : decide (text.length ≤ sharedSymbolLength) = false := decide_eq_false hx
    simp only [Content.construct, makeSymbol, hmem, hlength, Bool.or_self]
    rfl

/-- Small contents without a shared instance get a new label, which is theirs from then on. -/
theorem construct_of_isSmall (h : σ.shared? x = none) (hx : x.IsSmall) :
    (x.construct σ).1 = x.toValue σ.next ∧ (x.construct σ).2.shared? x = some σ.next := by
  cases x with
  | integer v =>
    obtain ⟨key, hkey⟩ := Option.ne_none_iff_exists'.mp (mt slot?_eq_none_iff.mp (not_not.mpr hx))
    simp only [shared?, hkey, Option.bind_some] at h
    simp [Content.construct, Content.toValue, makeInteger, shared?, hkey,
      share_of_getElem?_eq_none h]
  | rational r =>
    obtain ⟨key, hkey⟩ :=
      Option.ne_none_iff_exists'.mp (mt rationalSlot_eq_none_iff.mp (not_not.mpr hx))
    simp only [shared?, hkey, Option.bind_some] at h
    simp [Content.construct, Content.toValue, makeRational, shared?, hkey,
      share_of_getElem?_eq_none h]
  | symbol text =>
    have hlength : decide (text.length ≤ sharedSymbolLength) = true := decide_eq_true hx
    have hnone : σ.symbols[text]? = none := h
    simp [Content.construct, Content.toValue, makeSymbol, shareSymbol, shared?, hlength,
      share_of_getElem?_eq_none hnone]

/-! ## Growing tables -/

/-- A table keeps its entries, and the labels of new entries begin at `next`. -/
structure Extends {κ : Type} [BEq κ] [Hashable κ] (next : Instance)
    (table table' : Std.HashMap κ Instance) : Prop where
  keeps : ∀ (key : κ) (label : Instance), table[key]? = some label → table'[key]? = some label
  adds : ∀ (key : κ) (label : Instance),
    table'[key]? = some label → table[key]? = some label ∨ next ≤ label

section Extends

variable {κ : Type} [BEq κ] [Hashable κ] {table table' table'' : Std.HashMap κ Instance}
  {next next' : Instance}

theorem Extends.refl (next : Instance) (table : Std.HashMap κ Instance) :
    Extends next table table :=
  ⟨fun _ _ h => h, fun _ _ h => .inl h⟩

theorem Extends.trans (h : Extends next table table') (h' : Extends next' table' table'')
    (hnext : next ≤ next') : Extends next table table'' := by
  refine ⟨fun key label hlabel => h'.keeps key label (h.keeps key label hlabel), ?_⟩
  intro key label hlabel
  obtain hlabel | hlabel := h'.adds key label hlabel
  · exact h.adds key label hlabel
  · exact .inr (Nat.le_trans hnext hlabel)

theorem extends_share [LawfulBEq κ] (key : κ) (table : Std.HashMap κ Instance) (next : Instance) :
    Extends next table (share key table next).2.1 := by
  cases hkey : table[key]? with
  | some label =>
    rw [share_of_getElem?_eq_some hkey]
    exact Extends.refl next table
  | none =>
    rw [share_of_getElem?_eq_none hkey]
    constructor
    · intro key' label hlabel
      have hne : (key == key') = false := by
        apply beq_false_of_ne
        rintro rfl
        cases hkey.symm.trans hlabel
      rw [Std.HashMap.getElem?_insert, hne]
      exact hlabel
    · intro key' label hlabel
      rw [Std.HashMap.getElem?_insert] at hlabel
      split at hlabel
      next => exact .inr (Nat.le_of_eq (Option.some.inj hlabel))
      next => exact .inl hlabel

theorem next_le_share (key : κ) (table : Std.HashMap κ Instance) (next : Instance) :
    next ≤ (share key table next).2.2 := by
  unfold share
  split
  next => exact Nat.le_refl next
  next => exact Nat.le_succ next

end Extends

/-- What was shared stays shared, and what is shared anew has a label that was free. -/
structure Grows (σ σ' : Store) : Prop where
  next : σ.next ≤ σ'.next
  integers : Extends σ.next σ.integers σ'.integers
  rationals : Extends σ.next σ.rationals σ'.rationals
  symbols : Extends σ.next σ.symbols σ'.symbols

theorem Grows.refl (σ : Store) : σ.Grows σ :=
  ⟨Nat.le_refl _, Extends.refl _ _, Extends.refl _ _, Extends.refl _ _⟩

theorem Grows.trans (h : σ.Grows σ') (h' : σ'.Grows σ'') : σ.Grows σ'' where
  next := Nat.le_trans h.next h'.next
  integers := h.integers.trans h'.integers h.next
  rationals := h.rationals.trans h'.rationals h.next
  symbols := h.symbols.trans h'.symbols h.next

theorem Grows.shared? (h : σ.Grows σ') (hlabel : σ.shared? x = some label) :
    σ'.shared? x = some label := by
  cases x with
  | integer v =>
    obtain ⟨key, hkey, hlabel⟩ := Option.bind_eq_some_iff.mp hlabel
    exact Option.bind_eq_some_iff.mpr ⟨key, hkey, h.integers.keeps key label hlabel⟩
  | rational r =>
    obtain ⟨key, hkey, hlabel⟩ := Option.bind_eq_some_iff.mp hlabel
    exact Option.bind_eq_some_iff.mpr ⟨key, hkey, h.rationals.keeps key label hlabel⟩
  | symbol text => exact h.symbols.keeps text label hlabel

theorem Grows.shared?_or_le (h : σ.Grows σ') (hlabel : σ'.shared? x = some label) :
    σ.shared? x = some label ∨ σ.next ≤ label := by
  cases x with
  | integer v =>
    obtain ⟨key, hkey, hlabel⟩ := Option.bind_eq_some_iff.mp hlabel
    exact (h.integers.adds key label hlabel).imp_left
      fun hold => Option.bind_eq_some_iff.mpr ⟨key, hkey, hold⟩
  | rational r =>
    obtain ⟨key, hkey, hlabel⟩ := Option.bind_eq_some_iff.mp hlabel
    exact (h.rationals.adds key label hlabel).imp_left
      fun hold => Option.bind_eq_some_iff.mpr ⟨key, hkey, hold⟩
  | symbol text => exact h.symbols.adds text label hlabel

/-- The second construction of some contents gives the instance of the first exactly if they are
small or were shared before the first. -/
theorem same_construct_iff (h : (x.construct σ).2.Grows τ) :
    (x.construct σ).1.same (x.construct τ).1 = true ↔ x.IsSmall ∨ (σ.shared? x).isSome = true := by
  cases hσ : σ.shared? x with
  | some label =>
    rw [construct_of_shared?_eq_some hσ] at h ⊢
    rw [construct_of_shared?_eq_some (h.shared? hσ), Content.same_toValue]
    simp
  | none =>
    by_cases hx : x.IsSmall
    · obtain ⟨hvalue, hshared⟩ := construct_of_isSmall hσ hx
      rw [construct_of_shared?_eq_some (h.shared? hshared), hvalue, Content.same_toValue]
      simp [hx]
    · -- The label of the first is in no table, neither then nor later.
      rw [construct_of_not_isSmall hσ hx] at h ⊢
      have hlater : ∃ label, (x.construct τ).1 = x.toValue label ∧ σ.fresh.1 < label := by
        cases hτ : τ.shared? x with
        | none =>
          rw [construct_of_not_isSmall hτ hx]
          exact ⟨τ.next, rfl, h.next⟩
        | some label =>
          rw [construct_of_shared?_eq_some hτ]
          obtain hold | hnew := h.shared?_or_le hτ
          · cases hσ.symm.trans hold
          · exact ⟨label, rfl, hnew⟩
      obtain ⟨label, hvalue, hlabel⟩ := hlater
      rw [hvalue, Content.same_toValue, beq_false_of_ne (Nat.ne_of_lt hlabel)]
      simp [hx]

/-! ## What actions do to the tables -/

/-- A store after one that has some symbols made shared: constructions and the caching of symbols
are all that reaches the tables. -/
inductive Follows (σ : Store) : List String → Store → Prop where
  | quiet {σ' : Store} (next : σ.next ≤ σ'.next) (integers : σ'.integers = σ.integers)
      (rationals : σ'.rationals = σ.rationals) (symbols : σ'.symbols = σ.symbols) : Follows σ [] σ'
  | construct (x : Content) : Follows σ x.interned (x.construct σ).2
  | cache (texts : List String) : Follows σ texts (σ.cacheSymbols texts)

theorem grows_of_tables_eq (next : σ.next ≤ σ'.next) (integers : σ'.integers = σ.integers)
    (rationals : σ'.rationals = σ.rationals) (symbols : σ'.symbols = σ.symbols) : σ.Grows σ' where
  next := next
  integers := integers ▸ Extends.refl _ _
  rationals := rationals ▸ Extends.refl _ _
  symbols := symbols ▸ Extends.refl _ _

theorem grows_fresh (σ : Store) : σ.Grows σ.fresh.2 :=
  grows_of_tables_eq (Nat.le_succ _) rfl rfl rfl

theorem grows_shareSymbol (text : String) (σ : Store) : σ.Grows (σ.shareSymbol text).2 :=
  { Grows.refl σ with
    next := next_le_share text σ.symbols σ.next
    symbols := extends_share text σ.symbols σ.next }

theorem grows_construct (x : Content) (σ : Store) : σ.Grows (x.construct σ).2 := by
  cases x with
  | integer v =>
    rw [Content.construct, makeInteger]
    split
    next key _ =>
      exact { Grows.refl σ with
        next := next_le_share key σ.integers σ.next
        integers := extends_share key σ.integers σ.next }
    next => exact grows_fresh σ
  | rational r =>
    rw [Content.construct, makeRational]
    split
    next key _ =>
      exact { Grows.refl σ with
        next := next_le_share key σ.rationals σ.next
        rationals := extends_share key σ.rationals σ.next }
    next => exact grows_fresh σ
  | symbol text =>
    rw [Content.construct, makeSymbol]
    split
    next => exact grows_shareSymbol text σ
    next => exact grows_fresh σ

theorem grows_cacheSymbols (texts : List String) (σ : Store) : σ.Grows (σ.cacheSymbols texts) := by
  induction texts generalizing σ with
  | nil => exact Grows.refl σ
  | cons text texts ih => exact (grows_shareSymbol text σ).trans (ih (σ.shareSymbol text).2)

theorem Follows.grows {texts : List String} (h : σ.Follows texts σ') : σ.Grows σ' := by
  cases h with
  | quiet next integers rationals symbols =>
    exact grows_of_tables_eq next integers rationals symbols
  | construct x => exact grows_construct x σ
  | cache => exact grows_cacheSymbols texts σ

theorem mem_symbols_shareSymbol (text text' : String) (σ : Store) :
    text' ∈ (σ.shareSymbol text).2.symbols ↔ text' = text ∨ text' ∈ σ.symbols := by
  show text' ∈ (share text σ.symbols σ.next).2.1 ↔ _
  cases htext : σ.symbols[text]? with
  | some label =>
    have hmem : text ∈ σ.symbols := by
      rw [Std.HashMap.mem_iff_isSome_getElem?, htext]
      rfl
    rw [share_of_getElem?_eq_some htext]
    exact (or_iff_right_of_imp fun heq => heq ▸ hmem).symm
  | none =>
    rw [share_of_getElem?_eq_none htext, Std.HashMap.mem_insert, beq_iff_eq, eq_comm]

theorem mem_symbols_cacheSymbols (texts : List String) (text : String) (σ : Store) :
    text ∈ (σ.cacheSymbols texts).symbols ↔ text ∈ texts ∨ text ∈ σ.symbols := by
  induction texts generalizing σ with
  | nil => simp [cacheSymbols]
  | cons first texts ih =>
    rw [cacheSymbols, List.foldl_cons, ← cacheSymbols, ih, mem_symbols_shareSymbol, List.mem_cons,
      or_left_comm, or_assoc]

theorem mem_symbols_construct (x : Content) (text : String) (σ : Store) :
    text ∈ (x.construct σ).2.symbols ↔ text ∈ x.interned ∨ text ∈ σ.symbols := by
  cases x with
  | integer v =>
    rw [Content.construct, makeInteger]
    split <;> simp [Content.interned, fresh]
  | rational r =>
    rw [Content.construct, makeRational]
    split <;> simp [Content.interned, fresh]
  | symbol made =>
    have hif : (σ.symbols.contains made || decide (made.length ≤ sharedSymbolLength)) = true ↔
        made ∈ σ.symbols ∨ made.length ≤ 3 := by
      rw [Bool.or_eq_true, Std.HashMap.mem_iff_contains, decide_eq_true_eq, sharedSymbolLength]
    rw [Content.construct, makeSymbol]
    split
    next h =>
      rw [mem_symbols_shareSymbol, Content.interned]
      split
      next => rw [List.mem_singleton]
      next hlong =>
        have hmade : made ∈ σ.symbols := (hif.mp h).resolve_right hlong
        rw [or_iff_right List.not_mem_nil]
        exact or_iff_right_of_imp fun htext => htext ▸ hmade
    next h =>
      rw [Content.interned, if_neg fun hshort => h (hif.mpr (.inr hshort))]
      exact (or_iff_right List.not_mem_nil).symm

theorem Follows.mem_symbols_iff {texts : List String} (h : σ.Follows texts σ') (text : String) :
    text ∈ σ'.symbols ↔ text ∈ texts ∨ text ∈ σ.symbols := by
  cases h with
  | quiet next integers rationals symbols => simp [symbols]
  | construct x => exact mem_symbols_construct x text σ
  | cache => exact mem_symbols_cacheSymbols texts text σ

theorem snd_list (items : List Value) (σ : Store) :
    (σ.list items).2 = { σ with next := σ.next + items.length } := by
  induction items with
  | nil => rfl
  | cons head items ih =>
    show { (σ.list items).2 with next := (σ.list items).2.next + 1 } = _
    rw [ih]
    rfl

theorem follows_fresh (σ : Store) : σ.Follows [] σ.fresh.2 :=
  .quiet (Nat.le_succ _) rfl rfl rfl

theorem follows_self (σ : Store) : σ.Follows [] σ :=
  .quiet (Nat.le_refl _) rfl rfl rfl

/-- A construction gives a value of the contents asked for. -/
theorem exists_fst_construct_eq (x : Content) (σ : Store) :
    ∃ label, (x.construct σ).1 = x.toValue label := by
  cases hσ : σ.shared? x with
  | some label => exact ⟨label, by rw [construct_of_shared?_eq_some hσ]⟩
  | none =>
    by_cases hx : x.IsSmall
    · exact ⟨σ.next, (construct_of_isSmall hσ hx).1⟩
    · exact ⟨σ.next, by rw [construct_of_not_isSmall hσ hx]; rfl⟩

end Store

/-! ## Sessions -/

/-- The contents that an action constructs, if it may give a shared instance. -/
def Action.content? : Action → Option Content
  | .integer v => some (.integer v)
  | .rational r => some (.rational r)
  | .symbol text => some (.symbol text)
  | _ => none

/-- The symbols that an action makes shared, or would if they were not. -/
def Action.interned : Action → List String
  | .symbol text => (Content.symbol text).interned
  | .cacheSymbols texts => texts
  | _ => []

/-- The contents are a symbol that one of the actions caches by name. -/
def Content.IsCachedBy (actions : List Action) : Content → Prop
  | .symbol text => ∃ texts, .cacheSymbols texts ∈ actions ∧ text ∈ texts
  | _ => False

namespace Session

variable {actions : List Action} {x y : Content}

/-- Every action gives a value with a store that follows the one before. -/
theorem exists_follows_perform (s : Session) (action : Action) :
    ∃ given, s.perform action = s.give given ∧ s.store.Follows action.interned given.2 := by
  have hsame (a : Value) : ∃ given, s.give (a, s.store) = s.give given ∧
      s.store.Follows [] given.2 :=
    ⟨_, rfl, s.store.follows_self⟩
  have hfresh (a : Value) : ∃ given, s.give (a, s.store.fresh.2) = s.give given ∧
      s.store.Follows [] given.2 :=
    ⟨_, rfl, s.store.follows_fresh⟩
  have hplaces (a : Value) (places : Array Value) :
      ∃ given, s.give (a, { s.store with places }) = s.give given ∧ s.store.Follows [] given.2 :=
    ⟨_, rfl, .quiet (Nat.le_refl _) rfl rfl rfl⟩
  have hgiveIf {α : Type} (result : Except ValueError α) (give : α → Value × Store)
      (hgive : ∀ a, result = .ok a → s.store.Follows [] (give a).2) :
      ∃ given, s.giveIf (result.map give) = s.give given ∧ s.store.Follows [] given.2 := by
    cases result with
    | ok a => exact ⟨_, rfl, hgive a rfl⟩
    | error e => exact hsame .null
  cases action with
  | null => exact hsame _
  | boolean b => exact hsame _
  | float v => exact hsame _
  | integer v => exact ⟨_, rfl, .construct (.integer v)⟩
  | rational r => exact ⟨_, rfl, .construct (.rational r)⟩
  | string text => exact hfresh _
  | symbol text => exact ⟨_, rfl, .construct (.symbol text)⟩
  | ownInteger v => exact hfresh _
  | ownRational r => exact hfresh _
  | ownSymbol text => exact hfresh _
  | cacheSymbols texts => exact ⟨_, rfl, .cache texts⟩
  | cons head tail => exact hfresh _
  | list items =>
    refine ⟨_, rfl, ?_⟩
    rw [Store.snd_list]
    exact .quiet (Nat.le_add_right _ _) rfl rfl rfl
  | makeVariable value => exact hplaces _ _
  | makeConstant value => exact hfresh _
  | get reference => exact hgiveIf _ _ fun _ _ => s.store.follows_self
  | set reference value =>
    refine hgiveIf _ _ ?_
    intro σ hσ
    cases hreference : s.value reference with
    | var place =>
      rw [hreference] at hσ
      cases hσ
      exact .quiet (Nat.le_refl _) rfl rfl rfl
    | _ =>
      rw [hreference] at hσ
      cases hσ
  | copy reference => exact hgiveIf _ _ fun _ _ => .quiet (Nat.le_refl _) rfl rfl rfl
  | head list => exact hgiveIf _ _ fun _ _ => s.store.follows_self
  | tail list => exact hgiveIf _ _ fun _ _ => s.store.follows_self
  | compute op left right =>
    rw [perform, Value.compute_eq_map]
    exact hgiveIf _ _ fun r _ => .construct (.rational r)

theorem store_give (s : Session) (given : Value × Store) : (s.give given).store = given.2 :=
  rfl

theorem grows_performAll (s : Session) (actions : List Action) :
    s.store.Grows (s.performAll actions).store := by
  induction actions generalizing s with
  | nil => exact Store.Grows.refl s.store
  | cons action actions ih =>
    obtain ⟨given, hgiven, hfollows⟩ := s.exists_follows_perform action
    rw [performAll, List.foldl_cons, hgiven]
    exact hfollows.grows.trans (ih (s.give given))

/-- The shared symbols are those that some action has made so. -/
theorem mem_symbols_performAll (s : Session) (actions : List Action) (text : String) :
    text ∈ (s.performAll actions).store.symbols ↔
      text ∈ actions.flatMap Action.interned ∨ text ∈ s.store.symbols := by
  induction actions generalizing s with
  | nil => simp [performAll]
  | cons action actions ih =>
    obtain ⟨given, hgiven, hfollows⟩ := s.exists_follows_perform action
    rw [performAll, List.foldl_cons, hgiven, ← performAll, ih, store_give,
      hfollows.mem_symbols_iff, List.flatMap_cons, List.mem_append, or_left_comm, or_assoc]

theorem mem_symbols_after (actions : List Action) (text : String) :
    text ∈ (after actions).store.symbols ↔ text ∈ actions.flatMap Action.interned := by
  rw [after, mem_symbols_performAll]
  exact or_iff_left Std.HashMap.not_mem_empty

/-- After some actions the contents that are shared without being small are those that some action
has cached by name. -/
theorem isSmall_or_shared?_after (actions : List Action) (x : Content) :
    x.IsSmall ∨ ((after actions).store.shared? x).isSome = true ↔
      x.IsSmall ∨ x.IsCachedBy actions := by
  refine or_congr_right' ?_
  intro hx
  cases x with
  | integer v =>
    have hslot := slot?_eq_none_iff.mpr hx
    simp [Store.shared?, hslot, Content.IsCachedBy]
  | rational r =>
    have hslot := rationalSlot_eq_none_iff.mpr hx
    simp [Store.shared?, hslot, Content.IsCachedBy]
  | symbol text =>
    show ((after actions).store.symbols[text]?).isSome = true ↔ _
    rw [← Std.HashMap.mem_iff_isSome_getElem?, mem_symbols_after, List.mem_flatMap]
    constructor
    · rintro ⟨action, haction, htext⟩
      cases action with
      | symbol made =>
        rw [Action.interned, Content.interned] at htext
        split at htext
        next hshort =>
          cases List.mem_singleton.mp htext
          exact absurd hshort hx
        next => cases htext
      | cacheSymbols texts => exact ⟨texts, haction, htext⟩
      | _ => cases htext
    · rintro ⟨texts, haction, htext⟩
      exact ⟨.cacheSymbols texts, haction, htext⟩

/-! ### Constructions by their places -/

/-- The contents that the action at a place constructs. -/
def contentAt? (actions : List Action) (i : Nat) : Option Content :=
  actions[i]?.bind Action.content?

theorem perform_of_content? (s : Session) {action : Action} (h : action.content? = some x) :
    s.perform action = s.give (x.construct s.store) := by
  cases action <;> cases h <;> rfl

theorem size_performAll (s : Session) (actions : List Action) :
    (s.performAll actions).values.size = s.values.size + actions.length := by
  induction actions generalizing s with
  | nil => rfl
  | cons action actions ih =>
    obtain ⟨given, hgiven⟩ := s.exists_perform_eq_give action
    rw [performAll, List.foldl_cons, hgiven, ← performAll, ih, give, Array.size_push,
      List.length_cons, Nat.add_assoc, Nat.add_comm 1]

theorem after_append (actions later : List Action) :
    after (actions ++ later) = (after actions).performAll later :=
  List.foldl_append

/-- The session right after a construction, and the value that the construction gives. -/
theorem after_take_succ {i : Nat} (h : contentAt? actions i = some x) :
    after (actions.take (i + 1)) =
      (after (actions.take i)).give (x.construct (after (actions.take i)).store) := by
  obtain ⟨action, haction, hcontent⟩ := Option.bind_eq_some_iff.mp h
  rw [List.take_add_one, haction, after_append]
  exact perform_of_content? _ hcontent

theorem value_after_of_contentAt? {i : Nat} (h : contentAt? actions i = some x) :
    (after actions).value i = (x.construct (after (actions.take i)).store).1 := by
  have hi : i < actions.length := by
    obtain ⟨action, haction, -⟩ := Option.bind_eq_some_iff.mp h
    exact (List.getElem?_eq_some_iff.mp haction).1
  have hsize : (after (actions.take i)).values.size = i := by
    rw [after, size_performAll, List.length_take, Nat.min_eq_left (Nat.le_of_lt hi)]
    exact Nat.zero_add i
  have hgiven := value_give (after (actions.take i)) (x.construct (after (actions.take i)).store)
  have hlt := lt_size_give (after (actions.take i)) (x.construct (after (actions.take i)).store)
  rw [← after_take_succ h, hsize] at hgiven hlt
  rw [← hgiven, ← (value_performAll _ (actions.drop (i + 1)) hlt).2, ← after_append,
    List.take_append_drop]

theorem grows_construct_take {i j : Nat} (hij : i < j) (h : contentAt? actions i = some x) :
    (x.construct (after (actions.take i)).store).2.Grows (after (actions.take j)).store := by
  obtain ⟨between, hbetween⟩ := List.take_prefix_take_left (l := actions) (Nat.succ_le_of_lt hij)
  have hstore := congrArg Session.store (after_take_succ h)
  rw [store_give] at hstore
  rw [← hstore, ← hbetween, after_append]
  exact grows_performAll _ between

/-! ## The law of sharing -/

/-- What the actions of a session share. -/
structure SharingLaw (actions : List Action) : Prop where
  /-- a construction gives a value of the contents that it asks for -/
  holds : ∀ (i : Nat) (x : Content), contentAt? actions i = some x →
    ∃ label, (after actions).value i = x.toValue label
  /-- two constructions give one instance exactly if they ask for the same contents, and these are
  small or were cached by name before the first of the two -/
  same_iff : ∀ (i j : Nat) (x y : Content), i < j →
    contentAt? actions i = some x → contentAt? actions j = some y →
      (((after actions).value i).same ((after actions).value j) = true ↔
        x = y ∧ (x.IsSmall ∨ x.IsCachedBy (actions.take i)))
  /-- one instance has one value -/
  eq_of_same : ∀ i j, ((after actions).value i).same ((after actions).value j) = true →
    (after actions).value i = (after actions).value j
  /-- the shared symbols are counted once each -/
  symbolCount : (after actions).store.symbolCount =
    (actions.flatMap Action.interned).toFinset.card

theorem exists_value_after_eq_toValue {i : Nat} (h : contentAt? actions i = some x) :
    ∃ label, (after actions).value i = x.toValue label := by
  rw [value_after_of_contentAt? h]
  exact Store.exists_fst_construct_eq x _

theorem eq_of_same_value_after {i j : Nat}
    (h : ((after actions).value i).same ((after actions).value j) = true) :
    (after actions).value i = (after actions).value j := by
  obtain ⟨m, hm⟩ := exists_fits_after actions
  exact (hm.value i).eq_of_same (hm.value j) h

theorem same_value_after_iff {i j : Nat} (hij : i < j) (hx : contentAt? actions i = some x)
    (hy : contentAt? actions j = some y) :
    ((after actions).value i).same ((after actions).value j) = true ↔
      x = y ∧ (x.IsSmall ∨ x.IsCachedBy (actions.take i)) := by
  have hiff (hxy : x = y) : ((after actions).value i).same ((after actions).value j) = true ↔
      x.IsSmall ∨ x.IsCachedBy (actions.take i) := by
    subst hxy
    rw [value_after_of_contentAt? hx, value_after_of_contentAt? hy,
      Store.same_construct_iff (grows_construct_take hij hx), isSmall_or_shared?_after]
  constructor
  · intro hsame
    obtain ⟨label, hi⟩ := exists_value_after_eq_toValue hx
    obtain ⟨label', hj⟩ := exists_value_after_eq_toValue hy
    have heq := eq_of_same_value_after hsame
    rw [hi, hj] at heq
    have hxy := Content.eq_of_toValue_eq heq
    exact ⟨hxy, (hiff hxy).mp hsame⟩
  · rintro ⟨hxy, hshared⟩
    exact (hiff hxy).mpr hshared

theorem symbolCount_after (actions : List Action) :
    (after actions).store.symbolCount = (actions.flatMap Action.interned).toFinset.card := by
  have hkeys : (after actions).store.symbols.keys.toFinset =
      (actions.flatMap Action.interned).toFinset := by
    ext text
    rw [List.mem_toFinset, List.mem_toFinset, Std.HashMap.mem_keys, mem_symbols_after]
  rw [Store.symbolCount, ← Std.HashMap.length_keys, ← hkeys,
    List.toFinset_card_of_nodup Std.HashMap.nodup_keys]

/-- The store that the program begins with is one that actions come to, so the laws of all actions
hold from there on. -/
theorem store_after_zero_one : (after [.rational 0, .rational 1]).store = .seeded := by
  simp [after, performAll, perform, give, start, Store.makeRational, slot?, share, Store.empty,
    Store.seeded]

/-- Numbers and symbols hold what was asked for, and are shared if they are small, or are symbols
cached by name, and only then. -/
theorem sharingLaw_after (actions : List Action) : SharingLaw actions where
  holds := fun _ _ h => exists_value_after_eq_toValue h
  same_iff := fun _ _ _ _ hij hx hy => same_value_after_iff hij hx hy
  eq_of_same := fun _ _ h => eq_of_same_value_after h
  symbolCount := symbolCount_after actions

end Session

end LispShell
