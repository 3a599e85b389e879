import LispShell.Number.Numeral
import LispShell.Text.Blank

set_option autoImplicit false

/-!
# Integers as text

An integer is read in base ten unless its first characters name another base: `0x`, `0o` and `0b`
in any case, and a bare leading zero, which is octal.  Underscores may stand anywhere after the
sign and the base and are dropped.  The value must fit in 64 bits.
-/

namespace LispShell.Integer

/-! ## Bases -/

/-- The base that a text without sign is written in, and the digits that are left to read. -/
def splitBase : List Char → Nat × List Char
  | '0' :: 'x' :: digits => (16, digits)
  | '0' :: 'X' :: digits => (16, digits)
  | '0' :: 'o' :: digits => (8, digits)
  | '0' :: 'O' :: digits => (8, digits)
  | '0' :: 'b' :: digits => (2, digits)
  | '0' :: 'B' :: digits => (2, digits)
  | '0' :: c :: digits => (8, c :: digits)
  | digits => (10, digits)

/-- The value of one digit, a letter in either case standing for ten and more. -/
def digitValue (c : Char) : Option Nat :=
  if '0' ≤ c ∧ c ≤ '9' then some (c.toNat - '0'.toNat)
  else if 'a' ≤ c ∧ c ≤ 'z' then some (c.toNat - 'a'.toNat + 10)
  else if 'A' ≤ c ∧ c ≤ 'Z' then some (c.toNat - 'A'.toNat + 10)
  else none

/-- The value of one digit of a base. -/
def digitIn (base : Nat) (c : Char) : Option Nat :=
  (digitValue c).filter (· < base)

/-- The number that digits denote, those before them denoting `high`. -/
def valueFrom (base : Nat) (high : Nat) : List Char → Option Nat
  | [] => some high
  | c :: digits => (digitIn base c).bind fun d => valueFrom base (high * base + d) digits

/-- The number that a run of digits denotes; no digits denote none. -/
def valueIn (base : Nat) (digits : List Char) : Option Nat :=
  if digits = [] then none else valueFrom base 0 digits

/-! ## Reading -/

/-- The integer lies in the range of signed 64-bit integers. -/
def fits (n : Int) : Bool :=
  -9223372036854775808 ≤ n && n ≤ 9223372036854775807

/-- The 64-bit integer equal to a given one, if there is one. -/
def ofInt? (n : Int) : Option Int64 :=
  if fits n then some (Int64.ofInt n) else none

/-- The integer that a text denotes.  Blanks at the ends of the text do not matter. -/
def ofText? (text : List Char) : Option Int64 :=
  let (negative, body) := splitSign (Text.trim text)
  let (base, digits) := splitBase body
  (valueIn base (digits.filter (· != '_'))).bind fun n => ofInt? (if negative then -n else n)

/-! ## The 64-bit integers -/

section

variable {n : Int} {v : Int64}

/-- A 64-bit integer is found again from its value. -/
theorem ofInt?_toInt (v : Int64) : ofInt? v.toInt = some v := by
  have low := Int64.le_toInt v
  have high := Int64.toInt_lt v
  have inside : fits v.toInt = true := by
    simp only [fits, Bool.and_eq_true, decide_eq_true_eq]
    omega
  simp [ofInt?, inside]

theorem toInt_ofInt_of_fits (h : fits n = true) : (Int64.ofInt n).toInt = n := by
  simp only [fits, Bool.and_eq_true, decide_eq_true_iff] at h
  exact Int64.toInt_ofInt_of_le (by omega) (by omega)

theorem ofInt?_eq_some_iff : ofInt? n = some v ↔ v.toInt = n := by
  constructor
  · intro h
    unfold ofInt? at h
    split at h
    next hfits =>
      cases h
      exact toInt_ofInt_of_fits hfits
    next => cases h
  · rintro rfl
    exact ofInt?_toInt v

theorem ofInt?_eq_none_iff : ofInt? n = none ↔ ∀ v : Int64, v.toInt ≠ n := by
  simp only [Option.eq_none_iff_forall_ne_some, ne_eq, ofInt?_eq_some_iff]

/-- An integer that is none of the 64-bit integers is past them. -/
theorem lt_or_lt_of_forall_ne (h : ∀ v : Int64, v.toInt ≠ n) :
    n < -9223372036854775808 ∨ 9223372036854775807 < n := by
  have hfits : ¬fits n = true := fun hfits => h _ (toInt_ofInt_of_fits hfits)
  simp only [fits, Bool.and_eq_true, decide_eq_true_iff] at hfits
  omega

end

end LispShell.Integer
