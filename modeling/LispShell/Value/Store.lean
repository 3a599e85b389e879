import LispShell.Value.Error
import Std.Data.HashMap

set_option autoImplicit false

/-!
# The store: identities, shared values and variables

The store labels the values that are constructed, remembers which of them are shared, and holds the
current values of the variables.

Small integers, the rationals equal to them and short symbols are shared: each is constructed once
and given again on every later construction.  Longer symbols are shared from the moment that they
are cached by name.  Sharing never shows in what a value contains, only in which values are the same
instance.
-/

namespace LispShell

/-! ## Sharing

A table gives the instance under each key that has one. -/

/-- The instance under a key: the one in the table, or else a new one labelled `next`, which enters
the table.  The result is the instance, the table and the next free label. -/
def share {κ : Type} [BEq κ] [Hashable κ] (key : κ) (table : Std.HashMap κ Instance)
    (next : Instance) : Instance × Std.HashMap κ Instance × Instance :=
  match table[key]? with
  | some label => (label, table, next)
  | none => (next, table.insert key next, next + 1)

/-- The key under which an integer is shared, if it is small: its distance from the smallest. -/
def slot? (n : Int) : Option Nat :=
  if -256 ≤ n ∧ n ≤ 255 then some (n + 256).toNat else none

/-- The greatest number of characters of a symbol that is shared without being cached. -/
def sharedSymbolLength : Nat := 3

/-! ## The store -/

/-- The state that constructions and references share. -/
structure Store where
  /-- the first label that no value has -/
  next : Instance
  /-- the small integers constructed so far -/
  integers : Std.HashMap Nat Instance
  /-- the rationals equal to small integers constructed so far -/
  rationals : Std.HashMap Nat Instance
  /-- the shared symbols -/
  symbols : Std.HashMap String Instance
  /-- the current values of the variables -/
  places : Array Value
  deriving Inhabited

namespace Store

/-- The store before any construction. -/
def empty : Store where
  next := 0
  integers := ∅
  rationals := ∅
  symbols := ∅
  places := #[]

/-- The store that the program begins with: the rationals 0 and 1 are there from the start. -/
def seeded : Store :=
  { empty with
    next := 2
    rationals := ((∅ : Std.HashMap Nat Instance).insert 256 0).insert 257 1 }

/-- A label that no value has yet. -/
def fresh (σ : Store) : Instance × Store :=
  (σ.next, { σ with next := σ.next + 1 })

/-! ## Construction -/

/-- An integer. -/
def makeInteger (v : Int64) (σ : Store) : Value × Store :=
  match slot? v.toInt with
  | some key =>
    let (label, integers, next) := share key σ.integers σ.next
    (.integer label v, { σ with integers, next })
  | none =>
    let (label, σ) := σ.fresh
    (.integer label v, σ)

/-- A rational. -/
def makeRational (r : Rat) (σ : Store) : Value × Store :=
  match if r.den = 1 then slot? r.num else none with
  | some key =>
    let (label, rationals, next) := share key σ.rationals σ.next
    (.rational label r, { σ with rationals, next })
  | none =>
    let (label, σ) := σ.fresh
    (.rational label r, σ)

/-- A string.  Strings are never shared. -/
def makeString (text : String) (σ : Store) : Value × Store :=
  let (label, σ) := σ.fresh
  (.string label text, σ)

/-- The instance of a symbol that is to be shared. -/
def shareSymbol (text : String) (σ : Store) : Instance × Store :=
  let (label, symbols, next) := share text σ.symbols σ.next
  (label, { σ with symbols, next })

/-- A symbol. -/
def makeSymbol (text : String) (σ : Store) : Value × Store :=
  if σ.symbols.contains text || text.length ≤ sharedSymbolLength then
    let (label, σ) := σ.shareSymbol text
    (.symbol label text, σ)
  else
    let (label, σ) := σ.fresh
    (.symbol label text, σ)

/-- From now on these symbols are shared, whatever their length. -/
def cacheSymbols (texts : List String) (σ : Store) : Store :=
  texts.foldl (fun σ text => (σ.shareSymbol text).2) σ

/-- The number of shared symbols. -/
def symbolCount (σ : Store) : Nat :=
  σ.symbols.size

/-- A pair. -/
def cons (head tail : Value) (σ : Store) : Value × Store :=
  let (label, σ) := σ.fresh
  (.pair label head tail, σ)

/-- The proper list of the given values. -/
def list (items : List Value) (σ : Store) : Value × Store :=
  items.foldr (fun head (tail, σ) => σ.cons head tail) (.null, σ)

/-- A variable with its first value. -/
def makeVariable (value : Value) (σ : Store) : Value × Store :=
  (.var σ.places.size, { σ with places := σ.places.push value })

/-- A constant. -/
def makeConstant (value : Value) (σ : Store) : Value × Store :=
  let (label, σ) := σ.fresh
  (.const label value, σ)

/-! ## References -/

/-- The current value of a reference.  A place that the store does not know holds nothing and is no
reference. -/
def get (σ : Store) : Value → Except ValueError Value
  | .const _ value => .ok value
  | .var place =>
    match σ.places[place]? with
    | some value => .ok value
    | none => .error (.notAReference .var)
  | a => .error (.notAReference a.kind)

/-- The store after a reference was given a new value; only variables take one. -/
def set (σ : Store) (reference value : Value) : Except ValueError Store :=
  match reference with
  | .var place => .ok { σ with places := σ.places.setIfInBounds place value }
  | .const _ _ => .error .constantSet
  | a => .error (.notAReference a.kind)

/-- A new variable that holds the current value of a reference. -/
def copy (σ : Store) (reference : Value) : Except ValueError (Value × Store) :=
  (σ.get reference).map fun value => σ.makeVariable value

/-! ## Laws of construction -/

/-- A shared instance is found again under its key. -/
theorem share_getElem? {κ : Type} [BEq κ] [LawfulBEq κ] [Hashable κ] (key : κ)
    (table : Std.HashMap κ Instance) (next : Instance) :
    (share key table next).2.1[key]? = some (share key table next).1 := by
  unfold share
  split
  · assumption
  · simp

/-- A constructed symbol is a symbol of the text asked for. -/
theorem makeSymbol_fst (text : String) (σ : Store) :
    ∃ label, (σ.makeSymbol text).1 = .symbol label text := by
  unfold makeSymbol
  split
  · exact ⟨_, rfl⟩
  · exact ⟨_, rfl⟩

/-- A variable holds the value it was made with. -/
theorem get_makeVariable (σ : Store) (value : Value) :
    (σ.makeVariable value).2.get (σ.makeVariable value).1 = .ok value := by
  simp [makeVariable, get]

/-- A set that is refused names a constant or no reference at all. -/
theorem set_eq_error_iff (σ : Store) (reference value : Value) :
    (∃ e, σ.set reference value = .error e) ↔ reference.kind ≠ .var := by
  cases reference <;> simp [set, Value.kind]

end Store

end LispShell
