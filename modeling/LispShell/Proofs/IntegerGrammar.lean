import LispShell.Proofs.IntegralPart
import LispShell.Proofs.WrittenNumbers
import Mathlib.Data.Nat.Digits.Defs

set_option autoImplicit false

/-!
# The grammar of integers

An integer is written as an optional sign and a body.  The body names its base, by a zero and a
letter (`x`, `o` or `b`, in either case) or by a zero alone in front of something else, and is in
base ten if it does neither.  What is left of it are digits of the base, letters in either case
standing for ten and more, with underscores anywhere among them.  `Denotes` states this grammar with
the 64-bit integer that each text of it denotes.

Reading takes a text apart into sign, base and digits, and each part is compared with its part of
the grammar.  The parts cannot be taken apart in another way, since no character of a body is a
sign.  So a text is read exactly if it is a text of the grammar between blanks; in particular no
second sign is read, and every integer is read from its digits in each base
(`readingLaw_ofText?`).
-/

namespace LispShell.Integer

variable {base high n d : Nat} {c : Char} {text digits body sign : List Char} {v : Int64}

/-! ## Digits -/

/-- The character is the digit of a base for the number `d`. -/
def IsDigit (base : Nat) (c : Char) (d : Nat) : Prop :=
  d < base ∧ (c = Nat.digitChar d ∨ c = (Nat.digitChar d).toUpper)

/-- The characters are digits of a base, at least one, and denote the number. -/
def Spells (base : Nat) (digits : List Char) (n : Nat) : Prop :=
  digits ≠ [] ∧
    ∃ values, List.Forall₂ (IsDigit base) digits values ∧ n = Nat.ofDigits base values.reverse

theorem toNat_digitChar (hd : d < 16) :
    (Nat.digitChar d).toNat = if d < 10 then 48 + d else 87 + d := by
  have hall : ∀ d < 16, (Nat.digitChar d).toNat = if d < 10 then 48 + d else 87 + d := by decide
  exact hall d hd

theorem toNat_toUpper_digitChar (hd : d < 16) :
    (Nat.digitChar d).toUpper.toNat = if d < 10 then 48 + d else 55 + d := by
  have hall : ∀ d < 16,
      (Nat.digitChar d).toUpper.toNat = if d < 10 then 48 + d else 55 + d := by decide
  exact hall d hd

theorem digitValue_eq (c : Char) :
    digitValue c =
      if 48 ≤ c.toNat ∧ c.toNat ≤ 57 then some (c.toNat - 48)
      else if 97 ≤ c.toNat ∧ c.toNat ≤ 122 then some (c.toNat - 87)
      else if 65 ≤ c.toNat ∧ c.toNat ≤ 90 then some (c.toNat - 55)
      else none := by
  have hle (a b : Char) : a ≤ b ↔ a.toNat ≤ b.toNat := by
    rw [Char.le_def, UInt32.le_iff_toNat_le]
    rfl
  simp only [digitValue, hle, Char.reduceToNat]
  split_ifs <;> simp <;> omega

theorem digitValue_eq_some_iff (hd : d < 16) :
    digitValue c = some d ↔ c = Nat.digitChar d ∨ c = (Nat.digitChar d).toUpper := by
  rw [← Char.toNat_inj, ← Char.toNat_inj, toNat_digitChar hd, toNat_toUpper_digitChar hd,
    digitValue_eq]
  split_ifs <;> simp <;> omega

theorem digitIn_eq_some_iff (hbase : base ≤ 16) : digitIn base c = some d ↔ IsDigit base c d := by
  rw [digitIn, Option.filter_eq_some_iff, decide_eq_true_iff, IsDigit, and_comm]
  exact and_congr_right fun hd => digitValue_eq_some_iff (hd.trans_le hbase)

theorem valueFrom_eq_some_iff (hbase : base ≤ 16) :
    valueFrom base high digits = some n ↔
      ∃ values, List.Forall₂ (IsDigit base) digits values ∧
        n = values.foldl (fun high d => high * base + d) high := by
  induction digits generalizing high with
  | nil => simp [valueFrom, eq_comm]
  | cons c digits ih =>
    rw [valueFrom, Option.bind_eq_some_iff]
    constructor
    · rintro ⟨d, hd, hrest⟩
      obtain ⟨values, hvalues, rfl⟩ := ih.mp hrest
      exact ⟨d :: values, .cons ((digitIn_eq_some_iff hbase).mp hd) hvalues, rfl⟩
    · rintro ⟨_, hvalues, rfl⟩
      cases hvalues with
      | cons hd hrest =>
        exact ⟨_, (digitIn_eq_some_iff hbase).mpr hd, ih.mpr ⟨_, hrest, rfl⟩⟩

theorem foldl_eq_ofDigits (base : Nat) (values : List Nat) :
    values.foldl (fun high d => high * base + d) 0 = Nat.ofDigits base values.reverse := by
  rw [Nat.ofDigits_eq_foldr, List.foldr_reverse]
  simp only [Nat.cast_id, Nat.mul_comm, Nat.add_comm]

/-- Digits are read as the number that they denote, and nothing else is read. -/
theorem valueIn_eq_some_iff (hbase : base ≤ 16) :
    valueIn base digits = some n ↔ Spells base digits n := by
  rw [valueIn, Option.ite_none_left_eq_some, valueFrom_eq_some_iff hbase, Spells]
  simp only [foldl_eq_ofDigits]

theorem IsDigit.isAlphanum (h : IsDigit base c d) (hbase : base ≤ 16) : c.isAlphanum = true := by
  have hall : ∀ d < 16,
      (Nat.digitChar d).isAlphanum = true ∧ (Nat.digitChar d).toUpper.isAlphanum = true := by decide
  obtain ⟨hd, rfl | rfl⟩ := h
  · exact (hall d (hd.trans_le hbase)).1
  · exact (hall d (hd.trans_le hbase)).2

theorem Spells.exists_isDigit (h : Spells base digits n) (hc : c ∈ digits) :
    ∃ d, IsDigit base c d := by
  obtain ⟨-, values, hvalues, -⟩ := h
  induction hvalues with
  | nil => cases hc
  | cons hd _ ih =>
    obtain rfl | hc := List.mem_cons.mp hc
    · exact ⟨_, hd⟩
    · exact ih hc

theorem spells_singleton (h : IsDigit base c d) : Spells base [c] d :=
  ⟨List.cons_ne_nil c [], [d], .cons h .nil, by simp⟩

/-- One more digit at the end. -/
theorem Spells.concat (h : Spells base digits n) (hd : IsDigit base c d) :
    Spells base (digits ++ [c]) (n * base + d) := by
  obtain ⟨-, values, hvalues, rfl⟩ := h
  refine ⟨by simp, values ++ [d], List.rel_append hvalues (.cons hd .nil), ?_⟩
  rw [List.reverse_append, List.reverse_singleton, List.singleton_append, Nat.ofDigits_cons,
    Nat.mul_comm, Nat.add_comm]

theorem isDigit_digitChar (h : d < base) : IsDigit base (Nat.digitChar d) d :=
  ⟨h, .inl rfl⟩

/-- A natural number is denoted by its digits in any base. -/
theorem spells_toDigits (hbase : 1 < base) (n : Nat) : Spells base (Nat.toDigits base n) n := by
  induction n using Nat.strongRecOn with
  | ind n ih =>
    by_cases hlt : n < base
    · rw [Nat.toDigits_of_lt_base hlt]
      exact spells_singleton (isDigit_digitChar hlt)
    · -- The last digit is the remainder, and the others are the digits of the quotient.
      have hle : base ≤ n := Nat.le_of_not_lt hlt
      have hquotient : n / base < n := Nat.div_lt_self (by omega) hbase
      have hconcat := (ih _ hquotient).concat (isDigit_digitChar (Nat.mod_lt n (by omega)))
      rwa [Nat.div_add_mod', ← Nat.toDigits_of_base_le hbase hle] at hconcat

/-! ## Bases -/

/-- The letters that name a base, behind a zero. -/
def baseLetters : List (Char × Nat) :=
  [('x', 16), ('X', 16), ('o', 8), ('O', 8), ('b', 2), ('B', 2)]

/-- The letter names the base. -/
def IsBaseLetter (c : Char) (base : Nat) : Prop :=
  (c, base) ∈ baseLetters

instance (c : Char) (base : Nat) : Decidable (IsBaseLetter c base) :=
  inferInstanceAs (Decidable (_ ∈ _))

/-- The text begins with a zero and goes on. -/
def HasLeadingZero (body : List Char) : Prop :=
  body.head? = some '0' ∧ 1 < body.length

/-- A text without sign, the base that it is written in, and what is left to read in this base. -/
inductive IsBody : List Char → Nat → List Char → Prop where
  | letter {c : Char} {base : Nat} {digits : List Char} (h : IsBaseLetter c base) :
    IsBody ('0' :: c :: digits) base digits
  | leadingZero {c : Char} {digits : List Char} (h : ∀ base, ¬IsBaseLetter c base) :
    IsBody ('0' :: c :: digits) 8 (c :: digits)
  | plain {body : List Char} (h : ¬HasLeadingZero body) : IsBody body 10 body

theorem hasLeadingZero_iff : HasLeadingZero body ↔ ∃ c digits, body = '0' :: c :: digits := by
  constructor
  · rintro ⟨hhead, hlength⟩
    obtain ⟨rest, rfl⟩ := List.head?_eq_some_iff.mp hhead
    cases rest with
    | nil => simp at hlength
    | cons c digits => exact ⟨c, digits, rfl⟩
  · rintro ⟨c, digits, rfl⟩
    exact ⟨rfl, by simp⟩

theorem exists_isBody (body : List Char) : ∃ base digits, IsBody body base digits := by
  by_cases hzero : HasLeadingZero body
  · obtain ⟨c, digits, rfl⟩ := hasLeadingZero_iff.mp hzero
    by_cases hletter : ∃ base, IsBaseLetter c base
    · obtain ⟨base, h⟩ := hletter
      exact ⟨base, digits, .letter h⟩
    · exact ⟨8, c :: digits, .leadingZero (not_exists.mp hletter)⟩
  · exact ⟨10, body, .plain hzero⟩

theorem IsBaseLetter.splitBase_eq (h : IsBaseLetter c base) (digits : List Char) :
    splitBase ('0' :: c :: digits) = (base, digits) := by
  simp only [IsBaseLetter, baseLetters, List.mem_cons, Prod.mk.injEq, List.not_mem_nil,
    or_false] at h
  obtain ⟨rfl, rfl⟩ | ⟨rfl, rfl⟩ | ⟨rfl, rfl⟩ | ⟨rfl, rfl⟩ | ⟨rfl, rfl⟩ | ⟨rfl, rfl⟩ := h <;> rfl

theorem IsBody.splitBase_eq (h : IsBody body base digits) : splitBase body = (base, digits) := by
  cases h with
  | letter h => exact h.splitBase_eq digits
  | @leadingZero c digits h =>
    have hne : ∀ entry ∈ baseLetters, c ≠ entry.1 := by
      rintro ⟨_, base⟩ hentry rfl
      exact h base hentry
    rw [splitBase.eq_7]
    · exact hne ('x', 16) (by decide)
    · exact hne ('X', 16) (by decide)
    · exact hne ('o', 8) (by decide)
    · exact hne ('O', 8) (by decide)
    · exact hne ('b', 2) (by decide)
    · exact hne ('B', 2) (by decide)
  | plain h =>
    rw [hasLeadingZero_iff] at h
    rw [splitBase.eq_8]
    · exact fun rest hbody => h ⟨'x', rest, hbody⟩
    · exact fun rest hbody => h ⟨'X', rest, hbody⟩
    · exact fun rest hbody => h ⟨'o', rest, hbody⟩
    · exact fun rest hbody => h ⟨'O', rest, hbody⟩
    · exact fun rest hbody => h ⟨'b', rest, hbody⟩
    · exact fun rest hbody => h ⟨'B', rest, hbody⟩
    · exact fun c rest hbody => h ⟨c, rest, hbody⟩

theorem IsBaseLetter.le (h : IsBaseLetter c base) : base ≤ 16 := by
  have hall : ∀ entry ∈ baseLetters, entry.2 ≤ 16 := by decide
  exact hall _ h

theorem IsBaseLetter.isAlphanum (h : IsBaseLetter c base) : c.isAlphanum = true := by
  have hall : ∀ entry ∈ baseLetters, entry.1.isAlphanum = true := by decide
  exact hall _ h

theorem IsBaseLetter.one_lt (h : IsBaseLetter c base) : 1 < base := by
  have hall : ∀ entry ∈ baseLetters, 1 < entry.2 := by decide
  exact hall _ h

theorem not_isBaseLetter_of_isDigit (h : c.isDigit = true) (base : Nat) : ¬IsBaseLetter c base := by
  have hall : ∀ entry ∈ baseLetters, ¬entry.1.isDigit = true := by decide
  exact fun hletter => hall _ hletter h

theorem IsBody.le (h : IsBody body base digits) : base ≤ 16 := by
  cases h with
  | letter h => exact h.le
  | leadingZero => decide
  | plain => decide

/-- A body is made of letters, digits and underscores. -/
theorem IsBody.isAlphanum_or (h : IsBody body base digits)
    (hdigits : Spells base (digits.filter (· != '_')) n) (hc : c ∈ body) :
    c.isAlphanum = true ∨ c = '_' := by
  have hrest : ∀ c ∈ digits, c.isAlphanum = true ∨ c = '_' := by
    intro c hc
    by_cases hunderscore : c = '_'
    · exact .inr hunderscore
    · obtain ⟨d, hd⟩ := hdigits.exists_isDigit (List.mem_filter.mpr ⟨hc, by simpa using hunderscore⟩)
      exact .inl (hd.isAlphanum h.le)
  cases h with
  | letter h =>
    obtain rfl | rfl | hc := by simpa using hc
    · exact .inl rfl
    · exact .inl h.isAlphanum
    · exact hrest _ hc
  | leadingZero =>
    obtain rfl | hc := List.mem_cons.mp hc
    · exact .inl rfl
    · exact hrest _ hc
  | plain => exact hrest _ hc

/-! ## Integers -/

/-- A text without blanks at its ends denotes a 64-bit integer. -/
inductive Denotes : List Char → Int64 → Prop where
  | mk {sign body digits : List Char} {factor : Int} {base n : Nat} {v : Int64} :
    IsSign sign factor → IsBody body base digits → Spells base (digits.filter (· != '_')) n →
      v.toInt = factor * n → Denotes (sign ++ body) v

theorem ne_sign_of_isAlphanum_or (h : c.isAlphanum = true ∨ c = '_') : c ≠ '+' ∧ c ≠ '-' := by
  constructor
  · rintro rfl
    simp at h
  · rintro rfl
    simp at h

/-- The sign of a text of the grammar is what is read as its sign. -/
theorem splitSign_of_isBody {factor : Int} (hsign : IsSign sign factor)
    (hbody : IsBody body base digits) (hdigits : Spells base (digits.filter (· != '_')) n) :
    splitSign (sign ++ body) = (decide (factor = -1), body) := by
  apply splitSign_append hsign
  intro c hc
  exact ne_sign_of_isAlphanum_or (hbody.isAlphanum_or hdigits (List.mem_of_mem_head? hc))

/-- Reading goes by the sign, the base and the digits, one after the other. -/
theorem ofText?_eq_some_iff_spells {factor : Int} (hsign : IsSign sign factor)
    (hsplit : splitSign (Text.trim text) = (decide (factor = -1), body))
    (hbody : IsBody body base digits) :
    ofText? text = some v ↔
      ∃ n, Spells base (digits.filter (· != '_')) n ∧ v.toInt = factor * n := by
  simp only [ofText?, hsplit, hbody.splitBase_eq, Option.bind_eq_some_iff, ofInt?_eq_some_iff,
    valueIn_eq_some_iff hbody.le, hsign.ite_neg_eq_mul_int]

theorem ofText?_eq_some_iff_trim : ofText? text = some v ↔ Denotes (Text.trim text) v := by
  obtain ⟨t, ht⟩ : ∃ t, Text.trim text = t := ⟨_, rfl⟩
  rw [ht]
  constructor
  · intro h
    obtain ⟨sign, factor, hsign, htext, hnegative⟩ := exists_isSign_splitSign t
    obtain ⟨base, digits, hbody⟩ := exists_isBody (splitSign t).2
    rw [ofText?_eq_some_iff_spells hsign (by rw [ht, ← hnegative]) hbody] at h
    obtain ⟨n, hdigits, hv⟩ := h
    rw [htext]
    exact .mk hsign hbody hdigits hv
  · intro h
    cases h with
    | mk hsign hbody hdigits hv =>
      have hsplit := splitSign_of_isBody hsign hbody hdigits
      rw [← ht] at hsplit
      exact (ofText?_eq_some_iff_spells hsign hsplit hbody).mpr ⟨_, hdigits, hv⟩

/-- A text of the grammar has no sign but the one in front. -/
theorem Denotes.ne_sign_of_mem_tail (h : Denotes text v) (hc : c ∈ text.tail) :
    c ≠ '+' ∧ c ≠ '-' := by
  cases h with
  | @mk sign body digits factor base n _ hsign hbody hdigits hv =>
    have hbody : ∀ c ∈ body, c ≠ '+' ∧ c ≠ '-' := fun c hc =>
      ne_sign_of_isAlphanum_or (hbody.isAlphanum_or hdigits hc)
    cases hsign with
    | omitted => exact hbody c (List.mem_of_mem_tail hc)
    | plus => exact hbody c hc
    | minus => exact hbody c hc

/-- No blank is in a text of the grammar. -/
theorem Denotes.isBlank_of_mem (h : Denotes text v) (hc : c ∈ text) : Text.isBlank c = false := by
  cases h with
  | mk hsign hbody hdigits hv =>
    obtain hmem | hmem := List.mem_append.mp hc
    · exact isBlank_of_isSign hsign hmem
    · obtain halphanum | rfl := hbody.isAlphanum_or hdigits hmem
      · exact isBlank_of_isAlphanum halphanum
      · rfl

theorem Denotes.ofText?_eq (h : Denotes text v) : ofText? text = some v := by
  rwa [ofText?_eq_some_iff_trim, Text.trim_eq_self fun _ hc => h.isBlank_of_mem hc]

/-! ## Written integers -/

/-- What may stand in front of the digits of a base. -/
inductive IsStart : List Char → Nat → Prop where
  | letter {c : Char} {base : Nat} (h : IsBaseLetter c base) : IsStart ['0', c] base
  | zero : IsStart ['0'] 8
  | omitted : IsStart [] 10

/-- An integer with its digits in a base. -/
def written (start : List Char) (base : Nat) (v : Int64) : List Char :=
  (if v.toInt < 0 then ['-'] else []) ++ (start ++ Nat.toDigits base v.toInt.natAbs)

theorem IsStart.one_lt {start : List Char} (h : IsStart start base) : 1 < base := by
  cases h with
  | letter h => exact h.one_lt
  | zero => decide
  | omitted => decide

theorem digitChar_ne_zero (hd : d < 10) (hne : d ≠ 0) : Nat.digitChar d ≠ '0' := by
  intro h
  have hnat : (Nat.digitChar d).toNat = 48 := by
    rw [h]
    rfl
  rw [Nat.toNat_digitChar_of_lt_ten hd] at hnat
  omega

/-- The digits of a number other than zero do not begin with a zero. -/
theorem head?_toDigits_ne (hn : n ≠ 0) : (Nat.toDigits 10 n).head? ≠ some '0' := by
  induction n using Nat.strongRecOn with
  | ind n ih =>
    by_cases hlt : n < 10
    · rw [Nat.toDigits_of_lt_base hlt, List.head?_cons, ne_eq, Option.some.injEq]
      exact digitChar_ne_zero hlt hn
    · rw [Nat.toDigits_of_base_le (by decide) (Nat.le_of_not_lt hlt),
        List.head?_append_of_ne_nil _ Nat.toDigits_ne_nil]
      exact ih (n / 10) (by omega) (by omega)

theorem not_hasLeadingZero_toDigits (n : Nat) : ¬HasLeadingZero (Nat.toDigits 10 n) := by
  rintro ⟨hhead, hlength⟩
  by_cases hn : n = 0
  · subst hn
    exact absurd hlength (by decide)
  · exact head?_toDigits_ne hn hhead

theorem IsStart.isBody {start : List Char} (h : IsStart start base) (n : Nat) :
    IsBody (start ++ Nat.toDigits base n) base (Nat.toDigits base n) := by
  cases h with
  | letter h => exact .letter h
  | zero =>
    obtain ⟨c, digits, hdigits⟩ := List.exists_cons_of_ne_nil (@Nat.toDigits_ne_nil n 8)
    have hc : c.isDigit = true := by
      apply Nat.isDigit_of_mem_toDigits (b := 8) (n := n) (by decide) (by decide)
      rw [hdigits]
      exact List.mem_cons_self
    rw [hdigits]
    exact .leadingZero (not_isBaseLetter_of_isDigit hc)
  | omitted => exact .plain (not_hasLeadingZero_toDigits n)

theorem Spells.filter_eq_self (h : Spells base digits n) (hbase : base ≤ 16) :
    digits.filter (· != '_') = digits := by
  rw [List.filter_eq_self]
  intro c hc
  obtain ⟨d, hd⟩ := h.exists_isDigit hc
  rw [bne_iff_ne]
  rintro rfl
  cases hd.isAlphanum hbase

/-- An integer with its digits in a base denotes this integer. -/
theorem denotes_written {start : List Char} (h : IsStart start base) (v : Int64) :
    Denotes (written start base v) v := by
  have hspells := spells_toDigits h.one_lt v.toInt.natAbs
  have hbody := h.isBody v.toInt.natAbs
  obtain ⟨factor, hsign, hfactor⟩ := exists_isSign_ite v.toInt
  rw [← hspells.filter_eq_self hbody.le] at hspells
  exact .mk hsign hbody hspells hfactor.symm

/-- What is written for an integer value are its digits in base ten. -/
theorem toList_render (label : Instance) (v : Int64) :
    (Value.integer label v).render.toList = written [] 10 v := by
  rw [Value.render, String.toList_ofList, Value.chars, decimalText_eq_append]
  rfl

/-! ## The law -/

/-- How 64-bit integers are read from text. -/
structure ReadingLaw : Prop where
  /-- a text is read exactly if, between blanks, it is a text of the grammar, and as the integer
  that this denotes -/
  read_iff : ∀ text v, ofText? text = some v ↔ ∃ t, Text.IsStripped text t ∧ Denotes t v
  /-- no text is read that has a second sign, wherever its underscores are -/
  one_sign : ∀ text v, ofText? text = some v →
    ∃ t, Text.IsStripped text t ∧ ∀ c ∈ t.tail, c ≠ '+' ∧ c ≠ '-'
  /-- every integer, the smallest included, is read from its digits in every base -/
  read_written : ∀ start base, IsStart start base → ∀ v, ofText? (written start base v) = some v
  /-- an integer value is read from what is written for it -/
  read_render : ∀ label v, ofText? (Value.integer label v).render.toList = some v

theorem readingLaw_ofText? : ReadingLaw where
  read_iff := by
    intro text v
    rw [Text.exists_isStripped_iff]
    exact ofText?_eq_some_iff_trim
  one_sign := by
    intro text v h
    rw [ofText?_eq_some_iff_trim] at h
    exact ⟨Text.trim text, Text.isStripped_trim text, fun c hc => h.ne_sign_of_mem_tail hc⟩
  read_written := fun start base hstart v => (denotes_written hstart v).ofText?_eq
  read_render := by
    intro label v
    rw [toList_render]
    exact (denotes_written .omitted v).ofText?_eq

/-- The smallest integer in base sixteen, with letters in both cases, and between blanks. -/
example : ofText? " -0X8000_0000_0000_0000 ".toList = some Int64.minValue := by decide +kernel

end LispShell.Integer
