import LispShell.Proofs.ExactGrammar
import LispShell.Proofs.Symmetry

set_option autoImplicit false

/-!
# Numbers that are written and read again

The text of an exact number is a text of the grammar that denotes this number: an integer is written
as a numeral without point and exponent, and any other as a fraction in lowest terms.  No blank is
in it.  So reading gives the number back (`Exact.ofText?_text`), whatever its size.

A number on the left of an equality is compared by its exact value, and a string or a symbol on the
right by what its contents read as.  So an integer or a rational equals the text that is printed for
it (`Value.equals_ownText`).
-/

namespace LispShell

/-! ## The text of an exact number -/

theorem isDigits_toDigits (n : Nat) : IsDigits (Nat.toDigits 10 n) :=
  ⟨Nat.toDigits_ne_nil, fun _ hc => Nat.isDigit_of_mem_toDigits (by decide) (by decide) hc⟩

theorem toNat_of_isAlphanum {c : Char} (h : c.isAlphanum = true) :
    48 ≤ c.toNat ∧ c.toNat ≤ 122 := by
  have hrange : ('A' ≤ c ∧ c ≤ 'Z' ∨ 'a' ≤ c ∧ c ≤ 'z') ∨ '0' ≤ c ∧ c ≤ '9' := by
    obtain halpha | hdigit := (Bool.or_eq_true _ _).mp h
    · obtain hupper | hlower := (Bool.or_eq_true _ _).mp halpha
      · exact .inl (.inl (of_decide_eq_true hupper))
      · have hbounds := (Bool.and_eq_true _ _).mp hlower
        exact .inl (.inr ⟨of_decide_eq_true hbounds.1, of_decide_eq_true hbounds.2⟩)
    · have hbounds := (Bool.and_eq_true _ _).mp hdigit
      exact .inr ⟨of_decide_eq_true hbounds.1, of_decide_eq_true hbounds.2⟩
  simp only [Char.le_def, UInt32.le_iff_toNat_le, Char.reduceVal, UInt32.reduceToNat] at hrange
  rw [Char.toNat]
  omega

theorem isBlank_of_isAlphanum {c : Char} (h : c.isAlphanum = true) : Text.isBlank c = false := by
  have hrange := toNat_of_isAlphanum h
  simp only [Text.isBlank, Bool.or_eq_false_iff, Bool.and_eq_false_iff, decide_eq_false_iff_not,
    beq_eq_false_iff_ne]
  omega

theorem isBlank_of_isDigit {c : Char} (h : c.isDigit = true) : Text.isBlank c = false := by
  apply isBlank_of_isAlphanum
  rw [Char.isAlphanum, h, Bool.or_true]

theorem isBlank_of_isSign {sign : List Char} {factor : Int} (h : IsSign sign factor) {c : Char}
    (hc : c ∈ sign) : Text.isBlank c = false := by
  cases h with
  | omitted => cases hc
  | plus =>
    obtain rfl := List.mem_singleton.mp hc
    rfl
  | minus =>
    obtain rfl := List.mem_singleton.mp hc
    rfl

theorem isBlank_of_isDigits {digits : List Char} (h : IsDigits digits) {c : Char}
    (hc : c ∈ digits) : Text.isBlank c = false :=
  isBlank_of_isDigit (h.2 c hc)

theorem isBlank_of_isMantissa {mantissa : List Char} {x : Rat} (h : IsMantissa mantissa x)
    {c : Char} (hc : c ∈ mantissa) : Text.isBlank c = false := by
  have hpoint : Text.isBlank '.' = false := rfl
  cases h with
  | whole hwhole => exact isBlank_of_isDigits hwhole hc
  | point hwhole =>
    rcases List.mem_append.mp hc with hc | hc
    · exact isBlank_of_isDigits hwhole hc
    · exact List.mem_singleton.mp hc ▸ hpoint
  | fraction hfraction =>
    rcases List.mem_cons.mp hc with rfl | hc
    · exact hpoint
    · exact isBlank_of_isDigits hfraction hc
  | both hwhole hfraction =>
    rcases List.mem_append.mp hc with hc | hc
    · exact isBlank_of_isDigits hwhole hc
    · rcases List.mem_cons.mp hc with rfl | hc
      · exact hpoint
      · exact isBlank_of_isDigits hfraction hc

theorem isBlank_of_isExponent {exponent : List Char} {k : Int} (h : IsExponent exponent k)
    {c : Char} (hc : c ∈ exponent) : Text.isBlank c = false := by
  cases h with
  | omitted => cases hc
  | written hletter hsign hdigits =>
    rcases List.mem_cons.mp hc with rfl | hc
    · obtain rfl | rfl := hletter <;> rfl
    · rcases List.mem_append.mp hc with hc | hc
      · exact isBlank_of_isSign hsign hc
      · exact isBlank_of_isDigits hdigits hc

/-- The sign of an integer is left out unless it is a minus. -/
theorem exists_isSign_ite (n : Int) :
    ∃ factor, IsSign (if n < 0 then ['-'] else []) factor ∧ factor * n.natAbs = n := by
  by_cases h : n < 0
  · rw [if_pos h]
    exact ⟨-1, .minus, by omega⟩
  · rw [if_neg h]
    exact ⟨1, .omitted, by omega⟩

theorem decimalText_eq_append (n : Int) :
    decimalText n = (if n < 0 then ['-'] else []) ++ Nat.toDigits 10 n.natAbs := by
  unfold decimalText
  split
  next => rfl
  next => rfl

/-- An integer is written as a sign and the digits of its size. -/
theorem exists_isSign_decimalText (n : Int) :
    ∃ sign factor, IsSign sign factor ∧ decimalText n = sign ++ Nat.toDigits 10 n.natAbs ∧
      factor * n.natAbs = n := by
  obtain ⟨factor, hsign, hfactor⟩ := exists_isSign_ite n
  exact ⟨_, factor, hsign, decimalText_eq_append n, hfactor⟩

namespace Exact

/-- Digits alone, behind a sign, denote an integer. -/
theorem denotes_of_isDigits {sign digits : List Char} {factor : Int} (hsign : IsSign sign factor)
    (hdigits : IsDigits digits) : Denotes (sign ++ digits) (factor * digitsValue digits) := by
  -- The numeral has no exponent, so it is its digits times the zeroth power of ten.
  have hnumeral : IsNumeral (sign ++ (digits ++ []))
      (factor * (digitsValue digits * 10 ^ (0 : Int))) :=
    .mk hsign (.whole hdigits) .omitted (by decide)
  rw [List.append_nil, zpow_zero, mul_one] at hnumeral
  exact .inr hnumeral

/-- The text of an exact number denotes it. -/
theorem denotes_text (r : Rat) : Denotes (text r) r := by
  obtain ⟨sign, factor, hsign, hdecimal, hnum⟩ := exists_isSign_decimalText r.num
  have hsize : (factor : Rat) * r.num.natAbs = r.num := by
    rw [← Int.cast_natCast, ← Int.cast_mul, hnum]
  unfold text
  rw [hdecimal]
  split
  next hden =>
    have hinteger := denotes_of_isDigits hsign (isDigits_toDigits r.num.natAbs)
    rwa [digitsValue_toDigits, hsize, Rat.den_eq_one_iff r |>.mp hden] at hinteger
  next hden =>
    have hfraction : IsFraction
        (sign ++ (Nat.toDigits 10 r.num.natAbs ++ '/' :: Nat.toDigits 10 r.den))
        (factor * (digitsValue (Nat.toDigits 10 r.num.natAbs) /
          digitsValue (Nat.toDigits 10 r.den))) :=
      .mk hsign (isDigits_toDigits _) (isDigits_toDigits _)
        (by rw [digitsValue_toDigits]; exact r.den_nz)
    rw [digitsValue_toDigits, digitsValue_toDigits, ← mul_div_assoc, hsize, Rat.num_div_den]
      at hfraction
    rw [List.append_assoc]
    exact .inl hfraction

/-- No blank is in a text of the grammar. -/
theorem isBlank_of_denotes {text : List Char} {r : Rat} (h : Denotes text r) {c : Char}
    (hc : c ∈ text) : Text.isBlank c = false := by
  obtain hfraction | hnumeral := h
  · cases hfraction with
    | mk hsign hnumerator hdenominator _ =>
      simp only [List.mem_append, List.mem_cons] at hc
      obtain hc | hc | rfl | hc := hc
      · exact isBlank_of_isSign hsign hc
      · exact isBlank_of_isDigits hnumerator hc
      · rfl
      · exact isBlank_of_isDigits hdenominator hc
  · cases hnumeral with
    | mk hsign hmantissa hexponent _ =>
      simp only [List.mem_append] at hc
      obtain hc | hc | hc := hc
      · exact isBlank_of_isSign hsign hc
      · exact isBlank_of_isMantissa hmantissa hc
      · exact isBlank_of_isExponent hexponent hc

/-- A text of the grammar is read as the number that it denotes. -/
theorem ofText?_of_denotes {text : List Char} {r : Rat} (h : Denotes text r) :
    ofText? text = some r := by
  rw [ofText?_eq_some_iff_trim, Text.trim_eq_self fun _ hc => isBlank_of_denotes h hc]
  exact h

/-- An exact number is read again from its text. -/
theorem ofText?_text (r : Rat) : ofText? (text r) = some r :=
  ofText?_of_denotes (denotes_text r)

/-- The text of an integer is that of the exact number equal to it. -/
theorem text_intCast (n : Int) : text n = decimalText n := by
  simp [text]

end Exact

namespace Value

variable {a b : Value} {x : Rat}

/-- A number equals a string or a symbol that reads as its exact value. -/
theorem equals_of_contents? (σ : Store) {contents : String} (ha : a.isNumber = true)
    (hx : a.toRat = .ok x) (hb : b.contents? = some contents)
    (hread : Exact.ofText? contents.toList = some x) :
    a.equals σ b = true ∧ b.isNumeric = true := by
  have hvalue : b.toRat = .ok x ∧ b.isNumeric = true ∧ b.isAtom = true ∧ b.kind ≠ .pair := by
    cases b <;> cases hb <;> simp [toRat, readAs, isNumeric, isAtom, kind, hread]
  obtain ⟨hb, hnumeric, hatom, hpair⟩ := hvalue
  have hreference : a.isReference = false := by
    cases a <;> first | rfl | cases ha
  have hnumbers : equalNumbers a b = true := by
    simp [equalNumbers, hx, hb]
  refine ⟨?_, hnumeric⟩
  rw [equals_of_kind_ne_pair σ hreference hpair, equalsAtom_of_isNumber ha, hatom, hnumbers]
  simp

/-- What is written for an integer or a rational is the text of its exact value. -/
theorem exists_toRat_of_kind (h : a.kind = .integer ∨ a.kind = .rational) :
    ∃ x, a.toRat = .ok x ∧ a.chars = Exact.text x ∧ a.isNumber = true := by
  cases a with
  | integer label v => exact ⟨v.toInt, rfl, (Exact.text_intCast v.toInt).symm, rfl⟩
  | rational label r => exact ⟨r, rfl, rfl, rfl⟩
  | _ => simp [kind] at h

/-- Every exact number is read again from its text.  So every integer and every rational equals the
string and the symbol of the text that is written for it, in any store, and both are numeric. -/
theorem equals_ownText :
    (∀ r : Rat, Exact.ofText? (Exact.text r) = some r) ∧
      ∀ (σ : Store) (a : Value), a.kind = .integer ∨ a.kind = .rational →
        ∀ made ∈ [σ.makeString a.render, σ.makeSymbol a.render],
          a.equals made.2 made.1 = true ∧ made.1.isNumeric = true := by
  refine ⟨Exact.ofText?_text, ?_⟩
  intro σ a hkind made hmade
  obtain ⟨x, hx, hchars, hnumber⟩ := exists_toRat_of_kind hkind
  have hcontents : made.1.contents? = some a.render := by
    rw [List.mem_cons, List.mem_singleton] at hmade
    obtain rfl | rfl := hmade
    · rfl
    · obtain ⟨label, hsymbol⟩ := σ.makeSymbol_fst a.render
      rw [hsymbol]
      rfl
  have hread : Exact.ofText? a.render.toList = some x := by
    rw [render, String.toList_ofList, hchars, Exact.ofText?_text]
  exact equals_of_contents? made.2 hnumber hx hcontents hread

/-- A negative fraction, whose text is too long to be shared as a symbol. -/
theorem equals_ownText_fraction :
    let asString := Store.empty.makeString "-22/7"
    let asSymbol := Store.empty.makeSymbol "-22/7"
    (Value.rational 0 (-22 / 7)).kind = .rational ∧
      ((Value.rational 0 (-22 / 7)).equals asString.2 asString.1 = true ∧
        asString.1.isNumeric = true) ∧
      (Value.rational 0 (-22 / 7)).equals asSymbol.2 asSymbol.1 = true ∧
        asSymbol.1.isNumeric = true := by
  have htext : (Value.rational 0 (-22 / 7)).render = "-22/7" := by decide +kernel
  have hall := equals_ownText.2 .empty (.rational 0 (-22 / 7)) (.inr rfl)
  rw [htext] at hall
  exact ⟨rfl, hall _ List.mem_cons_self, hall _ (List.mem_cons_of_mem _ List.mem_cons_self)⟩

end Value

end LispShell
