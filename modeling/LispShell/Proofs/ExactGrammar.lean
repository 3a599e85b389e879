import LispShell.Number.Exact
import Mathlib.Algebra.Field.Rat
import Mathlib.Data.List.TakeWhile
import Mathlib.Tactic.FieldSimp

set_option autoImplicit false

/-!
# The grammar of exact numbers

An exact number is written as `[+-] D+ / D+` or as a decimal numeral

    [+-] (D+ | D+ . | D+ . D+ | . D+) [(e|E) [+-] D+]

with an exponent of at most 4096 in magnitude.  `Denotes` states this grammar with the value that
each text of it denotes: the fraction of the two integers, or the integer before the point and the
fraction after it, times a power of ten.

Reading takes a text apart from the left, each part ending where the next cannot go on.  So each
reader is compared with its part of the grammar in front of any text that does not continue the
part, and what the readers find together is what the grammar says of the text without the blanks at
its ends (`Exact.ofText?_eq_some_iff_denotes`).

Any other text denotes no number.  Reading says so, or it breaks off, and it breaks off exactly at
the numerals whose exponent is the smallest 64-bit integer (`Exact.read_eq_overflow_iff`).
-/

namespace LispShell

/-! ## Blanks at the ends -/

namespace Text

/-- The one text is the other with all blanks at its two ends, and nothing else, taken away. -/
def IsStripped (text t : List Char) : Prop :=
  ∃ before after, text = before ++ (t ++ after) ∧
    (∀ c ∈ before, isBlank c = true) ∧ (∀ c ∈ after, isBlank c = true) ∧
    (∀ c, t.head? = some c → isBlank c = false) ∧ (∀ c, t.getLast? = some c → isBlank c = false)

section

variable {text t before after : List Char}

theorem trimStart_append (hbefore : ∀ c ∈ before, isBlank c = true) :
    trimStart (before ++ text) = trimStart text :=
  List.dropWhile_append_of_pos hbefore

theorem trimStart_eq_self (h : ∀ c, text.head? = some c → isBlank c = false) :
    trimStart text = text := by
  cases text with
  | nil => rfl
  | cons c text => exact trimStart_cons_of_not_blank (h c rfl)

theorem trimEnd_eq_reverse (text : List Char) :
    trimEnd text = (trimStart text.reverse).reverse :=
  rfl

theorem trim_of_isStripped (h : IsStripped text t) : trim text = t := by
  obtain ⟨before, after, rfl, hbefore, hafter, hhead, hlast⟩ := h
  have hend : trimEnd (t ++ after) = t := by
    rw [trimEnd_eq_reverse, List.reverse_append, trimStart_append (by simpa using hafter),
      trimStart_eq_self (by simpa using hlast), List.reverse_reverse]
  cases t with
  | nil =>
    have hblank : trimStart after = [] := List.dropWhile_eq_nil_iff.mpr hafter
    rw [trim, trimStart_append hbefore, List.nil_append, hblank]
    rfl
  | cons c t =>
    rw [trim, trimStart_append hbefore, List.cons_append,
      trimStart_cons_of_not_blank (hhead c rfl), ← List.cons_append, hend]

/-- A text without blanks is left as it is. -/
theorem trim_eq_self (h : ∀ c ∈ text, isBlank c = false) : trim text = text :=
  trim_of_isStripped ⟨[], [], by simp, by simp, by simp,
    fun c hc => h c (List.mem_of_mem_head? hc), fun c hc => h c (List.mem_of_getLast? hc)⟩

theorem exists_blanks_append_trimStart (text : List Char) :
    ∃ before, text = before ++ trimStart text ∧ (∀ c ∈ before, isBlank c = true) ∧
      ∀ c, (trimStart text).head? = some c → isBlank c = false := by
  refine ⟨text.takeWhile isBlank, List.takeWhile_append_dropWhile.symm, ?_, ?_⟩
  · exact fun c hc => List.mem_takeWhile_imp hc
  · intro c hc
    have h := List.head?_dropWhile_not isBlank text
    rw [show (text.dropWhile isBlank).head? = some c from hc] at h
    simpa using h

theorem isStripped_trim (text : List Char) : IsStripped text (trim text) := by
  obtain ⟨before, htext, hbefore, hhead⟩ := exists_blanks_append_trimStart text
  obtain ⟨after, hrest, hafter, hlast⟩ := exists_blanks_append_trimStart (trimStart text).reverse
  have hsplit : trimStart text = trim text ++ after.reverse := by
    rw [trim, trimEnd_eq_reverse, ← List.reverse_append, ← hrest, List.reverse_reverse]
  refine ⟨before, after.reverse, ?_, hbefore, by simpa using hafter, ?_, ?_⟩
  · rw [← hsplit]
    exact htext
  · intro c hc
    apply hhead c
    rw [hsplit, List.head?_append, hc]
    rfl
  · intro c hc
    apply hlast c
    rw [← List.getLast?_reverse]
    exact hc

theorem exists_isStripped_iff {p : List Char → Prop} :
    (∃ t, IsStripped text t ∧ p t) ↔ p (trim text) := by
  constructor
  · rintro ⟨t, hstripped, h⟩
    rwa [trim_of_isStripped hstripped]
  · intro h
    exact ⟨trim text, isStripped_trim text, h⟩

end

end Text

/-! ## Parts of numbers -/

/-- One decimal digit or more. -/
def IsDigits (digits : List Char) : Prop :=
  digits ≠ [] ∧ ∀ c ∈ digits, c.isDigit = true

/-- A sign, which may be left out, and the factor that it stands for. -/
inductive IsSign : List Char → Int → Prop where
  | omitted : IsSign [] 1
  | plus : IsSign ['+'] 1
  | minus : IsSign ['-'] (-1)

/-- Digits with at most one point among them, and their value. -/
inductive IsMantissa : List Char → Rat → Prop where
  | whole {whole : List Char} : IsDigits whole → IsMantissa whole (digitsValue whole)
  | point {whole : List Char} : IsDigits whole → IsMantissa (whole ++ ['.']) (digitsValue whole)
  | fraction {fraction : List Char} : IsDigits fraction →
    IsMantissa ('.' :: fraction) (digitsValue fraction / 10 ^ fraction.length)
  | both {whole fraction : List Char} : IsDigits whole → IsDigits fraction →
    IsMantissa (whole ++ '.' :: fraction)
      (digitsValue whole + digitsValue fraction / 10 ^ fraction.length)

/-- The exponent of a numeral, which may be left out. -/
inductive IsExponent : List Char → Int → Prop where
  | omitted : IsExponent [] 0
  | written {letter : Char} {sign digits : List Char} {factor : Int} :
    letter = 'e' ∨ letter = 'E' → IsSign sign factor → IsDigits digits →
      IsExponent (letter :: (sign ++ digits)) (factor * digitsValue digits)

namespace Exact

/-- A fraction of two integers, and its value. -/
inductive IsFraction : List Char → Rat → Prop where
  | mk {sign numerator denominator : List Char} {factor : Int} : IsSign sign factor →
    IsDigits numerator → IsDigits denominator → digitsValue denominator ≠ 0 →
      IsFraction (sign ++ (numerator ++ '/' :: denominator))
        (factor * (digitsValue numerator / digitsValue denominator))

/-- A decimal numeral with an exponent within the limit, and its value. -/
inductive IsNumeral : List Char → Rat → Prop where
  | mk {sign mantissa exponent : List Char} {factor k : Int} {x : Rat} : IsSign sign factor →
    IsMantissa mantissa x → IsExponent exponent k → k.natAbs ≤ 4096 →
      IsNumeral (sign ++ (mantissa ++ exponent)) (factor * (x * 10 ^ k))

/-- A decimal numeral with any exponent, and its value. -/
inductive IsDecimal : List Char → Int → Rat → Prop where
  | mk {sign mantissa exponent : List Char} {factor k : Int} {x : Rat} : IsSign sign factor →
    IsMantissa mantissa x → IsExponent exponent k →
      IsDecimal (sign ++ (mantissa ++ exponent)) k (factor * (x * 10 ^ k))

/-- A text without blanks at its ends denotes an exact number. -/
def Denotes (text : List Char) (r : Rat) : Prop :=
  IsFraction text r ∨ IsNumeral text r

/-- A text without blanks at its ends is a numeral whose exponent is the smallest 64-bit integer. -/
def IsOverflow (text : List Char) : Prop :=
  ∃ r, IsDecimal text (-9223372036854775808) r

end Exact

section

variable {text digits sign rest : List Char} {factor k : Int} {x : Rat}

/-! ## Signs and digits -/

theorem span_append {p : Char → Bool} {front rest : List Char} (hfront : ∀ c ∈ front, p c = true)
    (hrest : ∀ c, rest.head? = some c → p c = false) : (front ++ rest).span p = (front, rest) := by
  rw [List.span_eq_takeWhile_dropWhile, List.takeWhile_append_of_pos hfront,
    List.dropWhile_append_of_pos hfront]
  cases rest with
  | nil => simp
  | cons c rest => simp [hrest c rfl]

theorem eq_append_of_span {p : Char → Bool} {front : List Char}
    (h : text.span p = (front, rest)) :
    text = front ++ rest ∧ ∀ c ∈ front, p c = true := by
  rw [List.span_eq_takeWhile_dropWhile, Prod.mk.injEq] at h
  obtain ⟨rfl, rfl⟩ := h
  exact ⟨List.takeWhile_append_dropWhile.symm, fun c hc => List.mem_takeWhile_imp hc⟩

theorem IsDigits.isDigit_head (h : IsDigits digits) (rest : List Char) {c : Char}
    (hc : (digits ++ rest).head? = some c) : c.isDigit = true := by
  obtain ⟨hne, hall⟩ := h
  cases digits with
  | nil => exact absurd rfl hne
  | cons d digits =>
    cases hc
    exact hall c List.mem_cons_self

theorem ne_sign_of_isDigit {c : Char} (h : c.isDigit = true) : c ≠ '+' ∧ c ≠ '-' := by
  constructor
  · rintro rfl
    cases h
  · rintro rfl
    cases h

/-- A sign is read from the front of a text, and what stands for it is told by its factor. -/
theorem splitSign_append (h : IsSign sign factor)
    (hrest : ∀ c, rest.head? = some c → c ≠ '+' ∧ c ≠ '-') :
    splitSign (sign ++ rest) = (decide (factor = -1), rest) := by
  cases h with
  | plus => rfl
  | minus => rfl
  | omitted =>
    rw [List.nil_append, splitSign.eq_3]
    · rfl
    · rintro tail rfl
      exact (hrest '-' rfl).2 rfl
    · rintro tail rfl
      exact (hrest '+' rfl).1 rfl

theorem exists_isSign_splitSign (text : List Char) :
    ∃ sign factor, IsSign sign factor ∧ text = sign ++ (splitSign text).2 ∧
      (splitSign text).1 = decide (factor = -1) := by
  unfold splitSign
  split
  next => exact ⟨['-'], -1, .minus, rfl, rfl⟩
  next => exact ⟨['+'], 1, .plus, rfl, rfl⟩
  next => exact ⟨[], 1, .omitted, rfl, rfl⟩

theorem IsSign.ite_neg_eq_mul (h : IsSign sign factor) (x : Rat) :
    (if decide (factor = -1) then -x else x) = factor * x := by
  cases h <;> simp

theorem IsSign.ite_neg_eq_mul_int (h : IsSign sign factor) (n : Int) :
    (if decide (factor = -1) then -n else n) = factor * n := by
  cases h <;> simp

/-! ## Exponents -/

theorem Numeral.exponentOf?_eq_some_iff : exponentOf? text = some k ↔ IsExponent text k := by
  constructor
  · intro h
    cases text with
    | nil =>
      cases h
      exact .omitted
    | cons letter rest =>
      obtain ⟨sign, factor, hsign, hrest, hnegative⟩ := exists_isSign_splitSign rest
      simp only [exponentOf?, hnegative, hsign.ite_neg_eq_mul_int, Option.ite_none_right_eq_some,
        Option.some.injEq, List.all_eq_true] at h
      obtain ⟨⟨hletter, hdigits⟩, rfl⟩ := h
      have hwritten := IsExponent.written hletter hsign hdigits
      rwa [← hrest] at hwritten
  · intro h
    cases h with
    | omitted => rfl
    | @written letter sign digits factor hletter hsign hdigits =>
      have hsplit : splitSign (sign ++ digits) = (decide (factor = -1), digits) := by
        apply splitSign_append hsign
        intro c hc
        rw [← List.append_nil digits] at hc
        exact ne_sign_of_isDigit (hdigits.isDigit_head [] hc)
      simp only [exponentOf?, hsplit, hsign.ite_neg_eq_mul_int, List.all_eq_true]
      rw [if_pos ⟨hletter, hdigits⟩]

/-- What an exponent begins with does not continue a mantissa. -/
theorem IsExponent.head (h : IsExponent text k) {c : Char} (hc : text.head? = some c) :
    c.isDigit = false ∧ c ≠ '.' := by
  cases h with
  | omitted => cases hc
  | written hletter =>
    cases hc
    obtain rfl | rfl := hletter <;> decide

/-! ## Mantissas -/

theorem digitsValue_append (front digits : List Char) :
    digitsValue (front ++ digits) =
      digitsValue front * 10 ^ digits.length + digitsValue digits := by
  rw [digitsValue, Nat.ofDigitChars_append, Nat.ofDigitChars_eq_ofDigitChars_zero, Nat.mul_comm]
  rfl

/-- The digits around a point, shifted, are the integer before it and the fraction after it. -/
theorem Numeral.magnitude_eq (n : Numeral) :
    n.magnitude = (digitsValue n.whole + digitsValue n.fraction / 10 ^ n.fraction.length) *
      10 ^ n.exponent := by
  rw [magnitude, timesPowerOfTen, digits, lastPlace, digitsValue_append]
  rw [zpow_sub₀ (by decide), zpow_natCast]
  push_cast
  field_simp

namespace Numeral

/-- The digits before and after the point at the front of a text, and the text after them. -/
def readMantissa (text : List Char) : List Char × List Char × List Char :=
  ((text.span Char.isDigit).1, splitFraction (text.span Char.isDigit).2)

theorem splitFraction_point {fraction : List Char} (hfraction : ∀ c ∈ fraction, c.isDigit = true)
    (hrest : ∀ c, rest.head? = some c → c.isDigit = false) :
    splitFraction ('.' :: (fraction ++ rest)) = (fraction, rest) :=
  span_append hfraction hrest

theorem splitFraction_of_ne (h : ∀ c, rest.head? = some c → c ≠ '.') :
    splitFraction rest = ([], rest) := by
  rw [splitFraction.eq_2]
  rintro tail rfl
  exact h '.' rfl rfl

/-- A mantissa is read up to a character that does not continue it. -/
theorem readMantissa_append {mantissa : List Char} (h : IsMantissa mantissa x)
    (hrest : ∀ c, rest.head? = some c → c.isDigit = false ∧ c ≠ '.') :
    ∃ whole fraction, readMantissa (mantissa ++ rest) = (whole, fraction, rest) ∧
      ¬(whole = [] ∧ fraction = []) ∧
      digitsValue whole + digitsValue fraction / 10 ^ fraction.length = x := by
  have hdigit : ∀ c, rest.head? = some c → c.isDigit = false := fun c hc => (hrest c hc).1
  have hpoint : ∀ tail : List Char, ∀ c, ('.' :: tail).head? = some c → c.isDigit = false := by
    rintro tail c ⟨⟩
    rfl
  cases h with
  | whole hwhole =>
    refine ⟨mantissa, [], ?_, fun h => hwhole.1 h.1, by simp [digitsValue]⟩
    rw [readMantissa, span_append hwhole.2 hdigit,
      splitFraction_of_ne fun c hc => (hrest c hc).2]
  | @point whole hwhole =>
    refine ⟨whole, [], ?_, fun h => hwhole.1 h.1, by simp [digitsValue]⟩
    rw [readMantissa, List.append_assoc, List.singleton_append, span_append hwhole.2 (hpoint _)]
    exact congrArg (whole, ·) (@splitFraction_point rest [] (by simp) hdigit)
  | @fraction fraction hfraction =>
    refine ⟨[], fraction, ?_, fun h => hfraction.1 h.2, by simp [digitsValue]⟩
    rw [readMantissa, List.cons_append, ← List.nil_append ('.' :: _),
      span_append (by simp) (hpoint _), splitFraction_point hfraction.2 hdigit]
  | @both whole fraction hwhole hfraction =>
    refine ⟨whole, fraction, ?_, fun h => hwhole.1 h.1, rfl⟩
    rw [readMantissa, List.append_assoc, List.cons_append, span_append hwhole.2 (hpoint _),
      splitFraction_point hfraction.2 hdigit]

theorem splitFraction_eq {fraction tail : List Char} (h : splitFraction tail = (fraction, rest)) :
    (fraction = [] ∧ tail = rest) ∨
      (tail = '.' :: (fraction ++ rest) ∧ ∀ c ∈ fraction, c.isDigit = true) := by
  unfold splitFraction at h
  split at h
  next tail =>
    obtain ⟨rfl, hfraction⟩ := eq_append_of_span h
    exact .inr ⟨rfl, hfraction⟩
  next =>
    cases h
    exact .inl ⟨rfl, rfl⟩

/-- What is read as a mantissa is one, if it has a digit. -/
theorem exists_isMantissa_readMantissa {whole fraction : List Char}
    (h : readMantissa text = (whole, fraction, rest)) (hne : ¬(whole = [] ∧ fraction = [])) :
    ∃ mantissa, text = mantissa ++ rest ∧
      IsMantissa mantissa (digitsValue whole + digitsValue fraction / 10 ^ fraction.length) := by
  obtain ⟨tail, hspan⟩ : ∃ tail, text.span Char.isDigit = (whole, tail) :=
    ⟨_, Prod.ext (show (text.span Char.isDigit).1 = whole from congrArg Prod.fst h) rfl⟩
  obtain ⟨rfl, hwhole⟩ := eq_append_of_span hspan
  rw [readMantissa, hspan, Prod.mk.injEq] at h
  -- Without a point there are digits before it alone; with one, either side may have none.
  obtain ⟨rfl, rfl⟩ | ⟨rfl, hfraction⟩ := splitFraction_eq h.2
  · refine ⟨whole, rfl, ?_⟩
    have hmantissa := IsMantissa.whole ⟨fun hempty => hne ⟨hempty, rfl⟩, hwhole⟩
    simpa [digitsValue] using hmantissa
  by_cases hempty : fraction = []
  · subst hempty
    refine ⟨whole ++ ['.'], by simp, ?_⟩
    have hmantissa := IsMantissa.point ⟨fun hempty => hne ⟨hempty, rfl⟩, hwhole⟩
    simpa [digitsValue] using hmantissa
  by_cases hempty' : whole = []
  · subst hempty'
    refine ⟨'.' :: fraction, rfl, ?_⟩
    have hmantissa := IsMantissa.fraction ⟨hempty, hfraction⟩
    simpa [digitsValue] using hmantissa
  · refine ⟨whole ++ '.' :: fraction, by simp, ?_⟩
    exact .both ⟨hempty', hwhole⟩ ⟨hempty, hfraction⟩

end Numeral

/-- What a mantissa begins with is a digit or a point, so it is no sign. -/
theorem IsMantissa.head {mantissa : List Char} (h : IsMantissa mantissa x) {c : Char}
    (hc : (mantissa ++ rest).head? = some c) : c ≠ '+' ∧ c ≠ '-' := by
  cases h with
  | whole hwhole => exact ne_sign_of_isDigit (hwhole.isDigit_head rest hc)
  | point hwhole =>
    rw [List.append_assoc] at hc
    exact ne_sign_of_isDigit (hwhole.isDigit_head _ hc)
  | fraction hfraction =>
    cases hc
    decide
  | both hwhole hfraction =>
    rw [List.append_assoc] at hc
    exact ne_sign_of_isDigit (hwhole.isDigit_head _ hc)

/-! ## Numerals and fractions -/

/-- A numeral is read as a sign, then a mantissa with a digit, then an exponent up to the end. -/
theorem Numeral.ofText?_eq_some_iff {n : Numeral} : ofText? text = some n ↔
    (splitSign text).1 = n.negative ∧ ¬(n.whole = [] ∧ n.fraction = []) ∧
      ∃ rest, readMantissa (splitSign text).2 = (n.whole, n.fraction, rest) ∧
        IsExponent rest n.exponent := by
  obtain ⟨negative, body, hsplit⟩ : ∃ negative body, splitSign text = (negative, body) :=
    ⟨_, _, rfl⟩
  obtain ⟨whole, fraction, rest, hread⟩ :
      ∃ whole fraction rest, readMantissa body = (whole, fraction, rest) :=
    ⟨_, _, _, rfl⟩
  have hparts : ofText? text = if whole = [] ∧ fraction = [] then none
      else (exponentOf? rest).map fun exponent => ⟨negative, whole, fraction, exponent⟩ := by
    obtain ⟨hwhole, hfraction⟩ := Prod.mk.inj hread
    simp only [ofText?, hsplit, hwhole, hfraction]
  obtain ⟨negative', whole', fraction', exponent⟩ := n
  rw [hparts, hsplit, Option.ite_none_left_eq_some, Option.map_eq_some_iff]
  simp only [hread, mk.injEq, Prod.mk.injEq, exponentOf?_eq_some_iff]
  constructor
  · rintro ⟨hne, k, hk, rfl, rfl, rfl, rfl⟩
    exact ⟨rfl, hne, rest, ⟨rfl, rfl, rfl⟩, hk⟩
  · rintro ⟨rfl, hne, rest', ⟨rfl, rfl, rfl⟩, hk⟩
    exact ⟨hne, exponent, hk, rfl, rfl, rfl, rfl⟩

namespace Exact

variable {r : Rat}

theorem numeral_value_eq (n : Numeral) (hsign : IsSign sign factor)
    (hnegative : n.negative = decide (factor = -1))
    (hx : digitsValue n.whole + digitsValue n.fraction / 10 ^ n.fraction.length = x) :
    n.value = factor * (x * 10 ^ n.exponent) := by
  rw [Numeral.value, hnegative, hsign.ite_neg_eq_mul, n.magnitude_eq, hx]

theorem exists_numeral_iff :
    (∃ n, Numeral.ofText? text = some n ∧ n.exponent = k ∧ n.value = r) ↔ IsDecimal text k r := by
  constructor
  · rintro ⟨n, hn, rfl, rfl⟩
    obtain ⟨hnegative, hne, rest, hread, hexponent⟩ := Numeral.ofText?_eq_some_iff.mp hn
    obtain ⟨sign, factor, hsign, htext, hfactor⟩ := exists_isSign_splitSign text
    obtain ⟨mantissa, hbody, hmantissa⟩ := Numeral.exists_isMantissa_readMantissa hread hne
    rw [htext, hbody, numeral_value_eq n hsign (hnegative.symm.trans hfactor) rfl]
    exact .mk hsign hmantissa hexponent
  · rintro @⟨sign, mantissa, exponent, factor, k, x, hsign, hmantissa, hexponent⟩
    have hsplit : splitSign (sign ++ (mantissa ++ exponent)) =
        (decide (factor = -1), mantissa ++ exponent) :=
      splitSign_append hsign fun c hc => hmantissa.head hc
    obtain ⟨whole, fraction, hread, hne, hx⟩ :=
      Numeral.readMantissa_append hmantissa fun c hc => hexponent.head hc
    refine ⟨⟨decide (factor = -1), whole, fraction, k⟩, ?_, rfl, numeral_value_eq _ hsign rfl hx⟩
    rw [Numeral.ofText?_eq_some_iff, hsplit]
    exact ⟨rfl, hne, exponent, hread, hexponent⟩

theorem isNumeral_iff : IsNumeral text r ↔ ∃ k, k.natAbs ≤ 4096 ∧ IsDecimal text k r := by
  constructor
  · rintro ⟨hsign, hmantissa, hexponent, hlimit⟩
    exact ⟨_, hlimit, .mk hsign hmantissa hexponent⟩
  · rintro ⟨k, hlimit, hsign, hmantissa, hexponent⟩
    exact .mk hsign hmantissa hexponent hlimit

/-- Of the exponents within 64 bits only the smallest has no magnitude, and those that do not fit
are beyond the limit anyhow. -/
theorem readNumeral_eq {n : Numeral} (h : Numeral.ofText? text = some n) :
    readNumeral text = if n.exponent = -9223372036854775808 then .overflow
      else if n.exponent.natAbs ≤ 4096 then .number n.value else .noNumber := by
  simp only [readNumeral, h]
  cases hfits : Integer.ofInt? n.exponent with
  | none =>
    have hpast : n.exponent < -9223372036854775808 ∨ 9223372036854775807 < n.exponent :=
      Integer.lt_or_lt_of_forall_ne (Integer.ofInt?_eq_none_iff.mp hfits)
    dsimp only
    rw [if_neg (by omega), if_neg (by omega)]
  | some v =>
    have hv : v.toInt = n.exponent := Integer.ofInt?_eq_some_iff.mp hfits
    have hsmallest : v = Int64.minValue ↔ n.exponent = -9223372036854775808 := by
      rw [← Int64.toInt_inj, hv]
      rfl
    dsimp only [magnitude?]
    by_cases hmin : v = Int64.minValue
    · rw [if_pos hmin, if_pos (hsmallest.mp hmin)]
    · rw [if_neg hmin, if_neg (mt hsmallest.mpr hmin), hv, exponentLimit]

theorem ofNumeral?_eq_some_iff : ofNumeral? text = some r ↔ IsNumeral text r := by
  simp only [isNumeral_iff, ← exists_numeral_iff]
  unfold ofNumeral?
  cases hn : Numeral.ofText? text with
  | none => simp [readNumeral, hn, Reading.number?]
  | some n =>
    rw [readNumeral_eq hn]
    by_cases hlimit : n.exponent.natAbs ≤ 4096
    · rw [if_neg (by omega), if_pos hlimit]
      simp [Reading.number?, hlimit]
    · rw [if_neg hlimit]
      split <;> simp [Reading.number?, hlimit]

theorem readNumeral_eq_overflow_iff : readNumeral text = .overflow ↔ IsOverflow text := by
  simp only [IsOverflow, ← exists_numeral_iff]
  cases hn : Numeral.ofText? text with
  | none => simp [readNumeral, hn]
  | some n =>
    rw [readNumeral_eq hn]
    by_cases hmin : n.exponent = -9223372036854775808
    · simp [hmin]
    · rw [if_neg hmin]
      split <;> simp [hmin]

theorem ofFraction?_eq_some_iff : ofFraction? text = some r ↔ IsFraction text r := by
  constructor
  · intro h
    obtain ⟨sign, factor, hsign, htext, hnegative⟩ := exists_isSign_splitSign text
    simp only [ofFraction?] at h
    split at h
    next numerator denominator hspan =>
      rw [Option.ite_none_right_eq_some, Option.some.injEq, hnegative, hsign.ite_neg_eq_mul,
        List.all_eq_true, Rat.mkRat_eq_div] at h
      obtain ⟨⟨hnumerator, hdenominator, hdigits, hne⟩, rfl⟩ := h
      obtain ⟨hrest, hdigits'⟩ := eq_append_of_span hspan
      have hfraction := IsFraction.mk hsign ⟨hnumerator, hdigits'⟩ ⟨hdenominator, hdigits⟩ hne
      rw [← hrest, ← htext] at hfraction
      exact hfraction
    next => cases h
  · rintro @⟨sign, numerator, denominator, factor, hsign, hnumerator, hdenominator, hne⟩
    have hsplit : splitSign (sign ++ (numerator ++ '/' :: denominator)) =
        (decide (factor = -1), numerator ++ '/' :: denominator) :=
      splitSign_append hsign fun c hc => ne_sign_of_isDigit (hnumerator.isDigit_head _ hc)
    have hspan : (numerator ++ '/' :: denominator).span Char.isDigit =
        (numerator, '/' :: denominator) := by
      apply span_append hnumerator.2
      rintro c hc
      cases hc
      rfl
    simp only [ofFraction?, hsplit, hspan]
    rw [if_pos ⟨hnumerator.1, hdenominator.1, List.all_eq_true.mpr hdenominator.2, hne⟩,
      hsign.ite_neg_eq_mul, Rat.mkRat_eq_div]
    rfl

/-! ## Fraction or numeral -/

theorem slash_notMem_of_isSign (h : IsSign sign factor) : '/' ∉ sign := by
  cases h <;> decide

theorem slash_notMem_of_isDigits (h : IsDigits digits) : '/' ∉ digits := by
  intro hslash
  cases h.2 '/' hslash

theorem slash_notMem_of_isMantissa {mantissa : List Char} (h : IsMantissa mantissa x) :
    '/' ∉ mantissa := by
  cases h with
  | whole hwhole => exact slash_notMem_of_isDigits hwhole
  | point hwhole => simp [slash_notMem_of_isDigits hwhole]
  | fraction hfraction => simp [slash_notMem_of_isDigits hfraction]
  | both hwhole hfraction =>
    simp [slash_notMem_of_isDigits hwhole, slash_notMem_of_isDigits hfraction]

theorem slash_notMem_of_isExponent (h : IsExponent text k) : '/' ∉ text := by
  cases h with
  | omitted => decide
  | written hletter hsign hdigits =>
    obtain rfl | rfl := hletter <;>
      simp [slash_notMem_of_isSign hsign, slash_notMem_of_isDigits hdigits]

/-- No text is a fraction and a numeral too, so it does not matter which of the two is tried
first. -/
theorem IsDecimal.not_isFraction {r' : Rat} (h : IsDecimal text k r) : ¬IsFraction text r' := by
  intro hfraction
  have hslash : '/' ∈ text := by
    cases hfraction
    simp
  obtain ⟨hsign, hmantissa, hexponent⟩ := h
  simp only [List.mem_append] at hslash
  obtain hslash | hslash | hslash := hslash
  · exact slash_notMem_of_isSign hsign hslash
  · exact slash_notMem_of_isMantissa hmantissa hslash
  · exact slash_notMem_of_isExponent hexponent hslash

theorem or_eq_some_iff_denotes :
    (ofFraction? text).or (ofNumeral? text) = some r ↔ Denotes text r := by
  rw [Option.or_eq_some_iff, ofFraction?_eq_some_iff, ofNumeral?_eq_some_iff]
  constructor
  · rintro (hfraction | ⟨-, hnumeral⟩)
    · exact .inl hfraction
    · exact .inr hnumeral
  · rintro (hfraction | hnumeral)
    · exact .inl hfraction
    · obtain ⟨k, -, hdecimal⟩ := isNumeral_iff.mp hnumeral
      refine .inr ⟨Option.eq_none_iff_forall_ne_some.mpr fun r' hr' => ?_, hnumeral⟩
      exact hdecimal.not_isFraction (ofFraction?_eq_some_iff.mp hr')

/-- No text denotes two numbers. -/
theorem Denotes.eq {r' : Rat} (h : Denotes text r) (h' : Denotes text r') : r = r' :=
  Option.some.inj ((or_eq_some_iff_denotes.mpr h).symm.trans (or_eq_some_iff_denotes.mpr h'))

theorem ofText?_eq_some_iff_trim : ofText? text = some r ↔ Denotes (Text.trim text) r := by
  rw [ofText?_eq_or, or_eq_some_iff_denotes]

theorem read_eq_overflow_iff_trim : read text = .overflow ↔ IsOverflow (Text.trim text) := by
  cases hfraction : ofFraction? (Text.trim text) with
  | none => simp only [read, hfraction, readNumeral_eq_overflow_iff]
  | some r =>
    simp only [read, hfraction, reduceCtorEq, false_iff]
    rintro ⟨r', hdecimal⟩
    exact hdecimal.not_isFraction (ofFraction?_eq_some_iff.mp hfraction)

/-- Reading breaks off at the numerals with the smallest exponent, and nowhere else. -/
theorem read_eq_overflow_iff :
    read text = .overflow ↔ ∃ t, Text.IsStripped text t ∧ IsOverflow t := by
  rw [Text.exists_isStripped_iff, read_eq_overflow_iff_trim]

/-- A text is read as an exact number just when the text without the blanks at its ends is a
fraction or a numeral of the grammar, and the number read is the one that it denotes. -/
theorem ofText?_eq_some_iff_denotes (text : List Char) (r : Rat) :
    ofText? text = some r ↔ ∃ t, Text.IsStripped text t ∧ Denotes t r := by
  rw [Text.exists_isStripped_iff]
  exact ofText?_eq_some_iff_trim

/-- The sign, the point, the exponent and a blank at the end, together. -/
example : ofText? "-12.5e-1 ".toList = some (-(5 / 4)) := by cbv

end Exact

end

end LispShell
