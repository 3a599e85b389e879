import LispShell.Proofs.IntegerGrammar

set_option autoImplicit false

/-!
# A text as an integer and as an exact number

The contents of a string or a symbol are read as an integer by one grammar and as an exact number by
another.  The one has bases and underscores, the other fractions, points and exponents.  No text
that has any of these belongs to both, since the characters which they need are not in the other
grammar: what is left is a sign and decimal digits.

Such a text is the same number in both grammars, but for one thing.  If its digits begin with a zero
and there are more, they are digits of base eight for an integer, and of base ten for an exact
number (`Value.toInt_toRat_iff`).
-/

namespace LispShell

variable {base n d : Nat} {c : Char} {text digits body sign : List Char} {factor k : Int}
  {v : Int64} {q x : Rat}

/-! ## Decimal digits as digits of a base -/

theorem isDigit_iff_toNat : c.isDigit = true ↔ 48 ≤ c.toNat ∧ c.toNat ≤ 57 := by
  simp [Char.isDigit, UInt32.le_iff_toNat_le]

namespace Integer

theorem IsDigit.toNat_eq (h : IsDigit base c d) (hbase : base ≤ 10) : c.toNat = 48 + d := by
  obtain ⟨hd, rfl | rfl⟩ := h
  · rw [toNat_digitChar (by omega), if_pos (by omega)]
  · rw [toNat_toUpper_digitChar (by omega), if_pos (by omega)]

theorem IsDigit.isDigit (h : IsDigit base c d) (hbase : base ≤ 10) : c.isDigit = true := by
  have hd := h.1
  rw [isDigit_iff_toNat, h.toNat_eq hbase]
  omega

theorem isDigit_ten (h : c.isDigit = true) : IsDigit 10 c (c.toNat - 48) := by
  rw [isDigit_iff_toNat] at h
  have hd : c.toNat - 48 < 10 := by omega
  refine ⟨hd, .inl ?_⟩
  rw [← Char.toNat_inj, Nat.toNat_digitChar_of_lt_ten hd]
  omega

theorem ofDigitChars_eq_foldl {values : List Nat} (hbase : base ≤ 10)
    (h : List.Forall₂ (IsDigit base) digits values) (high : Nat) :
    Nat.ofDigitChars base digits high = values.foldl (fun high d => high * base + d) high := by
  induction h generalizing high with
  | nil => rfl
  | @cons c d digits values hd _ ih =>
    have hc : c.toNat - '0'.toNat = d := by
      rw [hd.toNat_eq hbase, show '0'.toNat = 48 from rfl, Nat.add_sub_cancel_left]
    rw [Nat.ofDigitChars_cons, List.foldl_cons, hc, Nat.mul_comm]
    exact ih _

/-- Digits of base ten are decimal digits, and denote what these do. -/
theorem spells_ten_iff : Spells 10 digits n ↔ IsDigits digits ∧ n = digitsValue digits := by
  constructor
  · intro h
    refine ⟨⟨h.1, fun c hc => ?_⟩, ?_⟩
    · obtain ⟨d, hd⟩ := h.exists_isDigit hc
      exact hd.isDigit (Nat.le_refl 10)
    · obtain ⟨-, values, hvalues, rfl⟩ := h
      rw [digitsValue, ofDigitChars_eq_foldl (Nat.le_refl 10) hvalues, foldl_eq_ofDigits]
  · rintro ⟨⟨hne, hdigits⟩, rfl⟩
    have hvalues : List.Forall₂ (IsDigit 10) digits (digits.map fun c => c.toNat - 48) := by
      rw [List.forall₂_map_right_iff, List.forall₂_same]
      exact fun c hc => isDigit_ten (hdigits c hc)
    refine ⟨hne, _, hvalues, ?_⟩
    rw [digitsValue, ofDigitChars_eq_foldl (Nat.le_refl 10) hvalues, foldl_eq_ofDigits]

end Integer

/-! ## What both grammars have -/

/-- The characters that exact numbers are written with. -/
def IsExactChar (c : Char) : Prop :=
  c.isDigit = true ∨ c ∈ ['+', '-', '/', '.', 'e', 'E']

instance (c : Char) : Decidable (IsExactChar c) :=
  inferInstanceAs (Decidable (_ ∨ _))

theorem IsSign.isExactChar (h : IsSign sign factor) (hc : c ∈ sign) : IsExactChar c := by
  cases h with
  | omitted => cases hc
  | plus =>
    obtain rfl := List.mem_singleton.mp hc
    exact .inr (by decide)
  | minus =>
    obtain rfl := List.mem_singleton.mp hc
    exact .inr (by decide)

theorem IsDigits.isExactChar (h : IsDigits digits) (hc : c ∈ digits) : IsExactChar c :=
  .inl (h.2 c hc)

theorem IsMantissa.isExactChar (h : IsMantissa text x) (hc : c ∈ text) : IsExactChar c := by
  have hpoint : IsExactChar '.' := by decide
  cases h with
  | whole hwhole => exact hwhole.isExactChar hc
  | point hwhole =>
    obtain hc | rfl := by simpa using hc
    · exact hwhole.isExactChar hc
    · exact hpoint
  | fraction hfraction =>
    obtain rfl | hc := by simpa using hc
    · exact hpoint
    · exact hfraction.isExactChar hc
  | both hwhole hfraction =>
    obtain hc | rfl | hc := by simpa using hc
    · exact hwhole.isExactChar hc
    · exact hpoint
    · exact hfraction.isExactChar hc

theorem IsExponent.isExactChar (h : IsExponent text k) (hc : c ∈ text) : IsExactChar c := by
  cases h with
  | omitted => cases hc
  | written hletter hsign hdigits =>
    obtain rfl | hc | hc := by simpa using hc
    · obtain rfl | rfl := hletter <;> exact .inr (by decide)
    · exact hsign.isExactChar hc
    · exact hdigits.isExactChar hc

theorem Exact.Denotes.isExactChar (h : Exact.Denotes text q) (hc : c ∈ text) : IsExactChar c := by
  obtain hfraction | hnumeral := h
  · cases hfraction with
    | mk hsign hnumerator hdenominator hne =>
      obtain hc | hc | rfl | hc := by simpa using hc
      · exact hsign.isExactChar hc
      · exact hnumerator.isExactChar hc
      · exact .inr (by decide)
      · exact hdenominator.isExactChar hc
  · cases hnumeral with
    | mk hsign hmantissa hexponent hlimit =>
      obtain hc | hc | hc := by simpa using hc
      · exact hsign.isExactChar hc
      · exact hmantissa.isExactChar hc
      · exact hexponent.isExactChar hc

namespace Integer

theorem IsBaseLetter.not_isExactChar (h : IsBaseLetter c base) : ¬IsExactChar c := by
  have hall : ∀ entry ∈ baseLetters, ¬IsExactChar entry.1 := by decide
  exact hall _ h

theorem filter_eq_self_of_isDigits (h : IsDigits digits) : digits.filter (· != '_') = digits :=
  (spells_ten_iff.mpr ⟨h, rfl⟩).filter_eq_self (by decide)

/-- The digits of a base up to ten are left as they are if all characters are those of exact
numbers, since underscores are not. -/
theorem spells_of_isExactChar (hbase : base ≤ 10)
    (hdigits : Spells base (digits.filter (· != '_')) n) (hexact : ∀ c ∈ digits, IsExactChar c) :
    Spells base digits n ∧ ∀ c ∈ digits, c.isDigit = true := by
  have hfilter : digits.filter (· != '_') = digits := by
    rw [List.filter_eq_self]
    intro c hc
    rw [bne_iff_ne]
    rintro rfl
    exact absurd (hexact '_' hc) (by decide)
  rw [hfilter] at hdigits
  refine ⟨hdigits, fun c hc => ?_⟩
  obtain ⟨d, hd⟩ := hdigits.exists_isDigit hc
  exact hd.isDigit hbase

/-- A body that has the characters of exact numbers only is made of decimal digits. -/
theorem IsBody.isDigits (hbody : IsBody body base digits)
    (hdigits : Spells base (digits.filter (· != '_')) n) (hexact : ∀ c ∈ body, IsExactChar c) :
    IsDigits body ∧ (¬HasLeadingZero body ∧ n = digitsValue body ∨
      HasLeadingZero body ∧ Spells 8 body.tail n) := by
  cases hbody with
  | letter h => exact absurd (hexact _ (by simp)) h.not_isExactChar
  | @leadingZero c digits h =>
    obtain ⟨hspells, hdigit⟩ := spells_of_isExactChar (by decide) hdigits
      fun c' hc' => hexact c' (List.mem_cons_of_mem _ hc')
    refine ⟨⟨List.cons_ne_nil _ _, ?_⟩, .inr ⟨hasLeadingZero_iff.mpr ⟨c, digits, rfl⟩, hspells⟩⟩
    rintro c' hc'
    obtain rfl | hc' := List.mem_cons.mp hc'
    · rfl
    · exact hdigit c' hc'
  | plain h =>
    obtain ⟨hspells, -⟩ := spells_of_isExactChar (by decide) hdigits hexact
    obtain ⟨hbody, hn⟩ := spells_ten_iff.mp hspells
    exact ⟨hbody, .inl ⟨h, hn⟩⟩

/-- Decimal digits are a body of base ten, or of base eight behind a leading zero. -/
theorem denotes_of_isDigits (hsign : IsSign sign factor) (hbody : IsDigits body)
    (h : ¬HasLeadingZero body ∧ n = digitsValue body ∨ HasLeadingZero body ∧ Spells 8 body.tail n)
    (hv : v.toInt = factor * n) : Denotes (sign ++ body) v := by
  obtain ⟨hplain, hn⟩ | ⟨hzero, hspells⟩ := h
  · refine .mk hsign (.plain hplain) ?_ hv
    rw [filter_eq_self_of_isDigits hbody]
    exact spells_ten_iff.mpr ⟨hbody, hn⟩
  · obtain ⟨c, digits, rfl⟩ := hasLeadingZero_iff.mp hzero
    have hc : c.isDigit = true := hbody.2 c (by simp)
    refine .mk hsign (.leadingZero (not_isBaseLetter_of_isDigit hc)) ?_ hv
    rw [List.tail_cons] at hspells
    rwa [hspells.filter_eq_self (by decide)]

end Integer

/-- The texts that denote an integer and an exact number are a sign and decimal digits. -/
theorem denotes_and_denotes_iff :
    Integer.Denotes text v ∧ Exact.Denotes text q ↔
      ∃ (sign : List Char) (factor : Int) (body : List Char) (n : Nat),
        text = sign ++ body ∧ IsSign sign factor ∧ IsDigits body ∧
        q = factor * digitsValue body ∧ v.toInt = factor * n ∧
        (¬Integer.HasLeadingZero body ∧ n = digitsValue body ∨
          Integer.HasLeadingZero body ∧ Integer.Spells 8 body.tail n) := by
  constructor
  · rintro ⟨hinteger, hexact⟩
    cases hinteger with
    | @mk sign body digits factor base n _ hsign hbody hdigits hv =>
      have hchars : ∀ c ∈ body, IsExactChar c := fun c hc =>
        hexact.isExactChar (List.mem_append_right sign hc)
      obtain ⟨hdecimal, hn⟩ := hbody.isDigits hdigits hchars
      refine ⟨sign, factor, body, n, rfl, hsign, hdecimal, ?_, hv, hn⟩
      exact hexact.eq (Exact.denotes_of_isDigits hsign hdecimal)
  · rintro ⟨sign, factor, body, n, rfl, hsign, hbody, rfl, hv, hn⟩
    exact ⟨Integer.denotes_of_isDigits hsign hbody hn hv, Exact.denotes_of_isDigits hsign hbody⟩

namespace Value

variable {a : Value} {contents : String}

theorem toInt_eq_ok_iff_denotes (h : a.contents? = some contents) :
    a.toInt = .ok v ↔ Integer.Denotes (Text.trim contents.toList) v := by
  rw [← Integer.ofText?_eq_some_iff_trim, ← readAs_eq_ok_iff]
  cases a <;> cases h <;> rfl

theorem toRat_eq_ok_iff_denotes (h : a.contents? = some contents) :
    a.toRat = .ok q ↔ Exact.Denotes (Text.trim contents.toList) q := by
  rw [← Exact.ofText?_eq_some_iff_trim, ← readAs_eq_ok_iff]
  cases a <;> cases h <;> rfl

/-- A string or a symbol gives an integer and an exact number just when its contents, between
blanks, are a sign and decimal digits.  The two are one number, unless the digits begin with a zero
and go on: then those behind it are of base eight for the integer. -/
theorem toInt_toRat_iff (h : a.contents? = some contents) (v : Int64) (q : Rat) :
    a.toInt = .ok v ∧ a.toRat = .ok q ↔
      ∃ (sign : List Char) (factor : Int) (body : List Char),
        Text.IsStripped contents.toList (sign ++ body) ∧ IsSign sign factor ∧ IsDigits body ∧
        q = factor * digitsValue body ∧
        (¬Integer.HasLeadingZero body ∧ q = v.toInt ∨
          Integer.HasLeadingZero body ∧
            ∃ n : Nat, Integer.Spells 8 body.tail n ∧ v.toInt = factor * n) := by
  rw [toInt_eq_ok_iff_denotes h, toRat_eq_ok_iff_denotes h, denotes_and_denotes_iff]
  constructor
  · rintro ⟨sign, factor, body, n, htext, hsign, hbody, hq, hv, hn⟩
    refine ⟨sign, factor, body, htext ▸ Text.isStripped_trim _, hsign, hbody, hq, ?_⟩
    obtain ⟨hplain, rfl⟩ | ⟨hzero, hspells⟩ := hn
    · refine .inl ⟨hplain, ?_⟩
      rw [hq, hv, Int.cast_mul, Int.cast_natCast]
    · exact .inr ⟨hzero, n, hspells, hv⟩
  · rintro ⟨sign, factor, body, hstripped, hsign, hbody, hq, hcases⟩
    have htext := Text.trim_of_isStripped hstripped
    obtain ⟨hplain, hv⟩ | ⟨hzero, n, hspells, hv⟩ := hcases
    · refine ⟨sign, factor, body, digitsValue body, htext, hsign, hbody, hq, ?_, .inl ⟨hplain, rfl⟩⟩
      rw [hq] at hv
      exact_mod_cast hv.symm
    · exact ⟨sign, factor, body, n, htext, hsign, hbody, hq, hv, .inr ⟨hzero, hspells⟩⟩

/-- A text with a leading zero, which is minus ten in base eight and minus twelve in base ten. -/
theorem toInt_toRat_iff_leadingZero :
    (string 0 " -012 ").contents? = some " -012 " ∧
      ∃ (sign : List Char) (factor : Int) (body : List Char),
        Text.IsStripped " -012 ".toList (sign ++ body) ∧ IsSign sign factor ∧ IsDigits body ∧
        (-12 : Rat) = factor * digitsValue body ∧
        (¬Integer.HasLeadingZero body ∧ (-12 : Rat) = (-10 : Int64).toInt ∨
          Integer.HasLeadingZero body ∧
            ∃ n : Nat, Integer.Spells 8 body.tail n ∧ (-10 : Int64).toInt = factor * n) := by
  have hcontents : (string 0 " -012 ").contents? = some " -012 " := rfl
  have hinteger : (string 0 " -012 ").toInt = .ok (-10) := by decide +kernel
  have hexact : (string 0 " -012 ").toRat = .ok (-12) := by decide +kernel
  exact ⟨hcontents, (toInt_toRat_iff hcontents (-10) (-12)).mp ⟨hinteger, hexact⟩⟩

end Value

end LispShell
