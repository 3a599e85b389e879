import LispShell.Number.Binary64.Text
import LispShell.Proofs.ShortestDecimal
import LispShell.Proofs.WrittenNumbers

set_option autoImplicit false

/-!
# Floating-point numbers that are read as exact ones

What is written for a finite floating-point number is a text of the grammar of exact numbers, and
it denotes the shortest decimal of the number (`Binary64.textLaw_written`).  Both forms of writing
denote the same: digits whose first stands for `10 ^ first` are an integer, scaled by the place of
the last of them, wherever the point is.  An exponent is far below the limit of the grammar, since
the place of the first digit is not far from the ends of the format.  So rounding what is read gives
the number again, but for the sign of a zero.
-/

namespace LispShell

/-! ## Digits -/

theorem isDigits_append {front digits : List Char} (hfront : ∀ c ∈ front, c.isDigit = true)
    (h : IsDigits digits) : IsDigits (front ++ digits) :=
  ⟨List.append_ne_nil_of_right_ne_nil front h.1, List.forall_mem_append.mpr ⟨hfront, h.2⟩⟩

theorem isDigit_of_mem_zeros {n : Nat} {c : Char} (hc : c ∈ List.replicate n '0') :
    c.isDigit = true := by
  rw [List.eq_of_mem_replicate hc]
  rfl

theorem digitsValue_zeros (n : Nat) : digitsValue (List.replicate n '0') = 0 := by
  induction n with
  | zero => rfl
  | succ n ih =>
    rw [List.replicate_succ', digitsValue_append, ih, Nat.zero_mul]
    rfl

theorem digitsValue_zeros_append (n : Nat) (digits : List Char) :
    digitsValue (List.replicate n '0' ++ digits) = digitsValue digits := by
  rw [digitsValue_append, digitsValue_zeros, Nat.zero_mul, Nat.zero_add]

theorem digitsValue_append_zeros (digits : List Char) (n : Nat) :
    digitsValue (digits ++ List.replicate n '0') = digitsValue digits * 10 ^ n := by
  rw [digitsValue_append, digitsValue_zeros, List.length_replicate, Nat.add_zero]

/-- The value of digits of which the first stands for `10 ^ first`. -/
def placedValue (digits : List Char) (first : Int) : Rat :=
  timesPowerOfTen (digitsValue digits) (first + 1 - digits.length)

namespace Decimal

theorem isDigits_digits {d : Decimal} (hd : d.coefficient ≠ 0) : IsDigits d.digits := by
  obtain ⟨zeros, hzeros⟩ := d.exists_toDigits_eq
  constructor
  · intro hnil
    have hvalue := digitsValue_toDigits d.coefficient
    rw [hzeros, hnil, List.nil_append, digitsValue_zeros] at hvalue
    exact hd hvalue.symm
  · intro c hc
    exact (isDigits_toDigits d.coefficient).2 c (hzeros ▸ List.mem_append_left _ hc)

/-- A decimal is its significant digits at their places. -/
theorem placedValue_digits (d : Decimal) : placedValue d.digits d.firstPlace = d.value := by
  obtain ⟨zeros, hzeros⟩ := d.exists_toDigits_eq
  have hcoefficient : digitsValue d.digits * 10 ^ zeros = d.coefficient := by
    rw [← digitsValue_append_zeros, ← hzeros, digitsValue_toDigits]
  have hplace : d.firstPlace + 1 - d.digits.length = zeros + d.exponent := by
    rw [firstPlace, hzeros, List.length_append, List.length_replicate]
    push_cast
    ring
  rw [placedValue, value, timesPowerOfTen, timesPowerOfTen, hplace, ← hcoefficient,
    zpow_add₀ (by decide), zpow_natCast]
  push_cast
  ring

end Decimal

/-! ## The two forms -/

namespace Binary64

variable {digits : List Char}

/-- Digits are the same number with a point among them, at the places that are left before it. -/
theorem isMantissa_split {whole fraction : List Char} (hwhole : IsDigits whole)
    (hfraction : IsDigits fraction) {first : Int} (hfirst : first + 1 = whole.length) :
    IsMantissa (whole ++ '.' :: fraction) (placedValue (whole ++ fraction) first) := by
  have hplace : first + 1 - ((whole ++ fraction).length : Int) = -(fraction.length : Int) := by
    rw [List.length_append]
    push_cast
    omega
  have hvalue : placedValue (whole ++ fraction) first =
      digitsValue whole + digitsValue fraction / 10 ^ fraction.length := by
    rw [placedValue, timesPowerOfTen, hplace, digitsValue_append, zpow_neg, zpow_natCast]
    push_cast
    field_simp
  rw [hvalue]
  exact .both hwhole hfraction

theorem isDigits_take (h : IsDigits digits) (n : Nat) : IsDigits (digits.take (n + 1)) := by
  obtain ⟨hne, hall⟩ := h
  refine ⟨?_, fun c hc => hall c (List.mem_of_mem_take hc)⟩
  cases digits with
  | nil => exact absurd rfl hne
  | cons c digits => exact List.cons_ne_nil _ _

/-- Digits that are all before the point, with zeros for the places up to it. -/
theorem isMantissa_filled (h : IsDigits digits) {e : Nat} (hlength : digits.length ≤ e + 1) :
    IsMantissa (digits ++ List.replicate (e + 1 - digits.length) '0') (placedValue digits e) := by
  have hvalue : placedValue digits e =
      digitsValue (digits ++ List.replicate (e + 1 - digits.length) '0') := by
    rw [placedValue, timesPowerOfTen, digitsValue_append_zeros, Nat.cast_mul, Nat.cast_pow,
      Nat.cast_ofNat, ← zpow_natCast, Nat.cast_sub hlength]
    rfl
  rw [hvalue]
  refine .whole ⟨List.append_ne_nil_of_left_ne_nil h.1 _, ?_⟩
  exact List.forall_mem_append.mpr ⟨h.2, fun c hc => isDigit_of_mem_zeros hc⟩

/-- Digits that are all behind the point, with zeros for the places from it on. -/
theorem isMantissa_fraction (h : IsDigits digits) (e : Nat) :
    IsMantissa ('0' :: '.' :: (List.replicate e '0' ++ digits))
      (placedValue digits (.negSucc e)) := by
  have hzero : IsDigits ['0'] := ⟨by simp, by simp⟩
  have hzeros : IsDigits (List.replicate e '0' ++ digits) :=
    isDigits_append (fun c hc => isDigit_of_mem_zeros hc) h
  have hsplit := isMantissa_split hzero hzeros (Int.zero_add 1)
  have hvalue : placedValue (['0'] ++ (List.replicate e '0' ++ digits)) 0 =
      placedValue digits (.negSucc e) := by
    rw [← List.append_assoc, show ['0'] ++ List.replicate e '0' = List.replicate (e + 1) '0' by
      rw [List.replicate_succ]; rfl, placedValue, placedValue, digitsValue_zeros_append,
      List.length_append, List.length_replicate, Int.negSucc_eq]
    congr 1
    push_cast
    ring
  rw [hvalue] at hsplit
  exact hsplit

/-- With a point where one is needed, digits denote their value. -/
theorem isMantissa_positional (h : IsDigits digits) (first : Int) :
    IsMantissa (positional digits first) (placedValue digits first) := by
  cases first with
  | ofNat e =>
    rw [positional]
    cases hdrop : digits.drop (e + 1) with
    | nil =>
      have hlength : digits.length ≤ e + 1 := List.drop_eq_nil_iff.mp hdrop
      rw [List.take_of_length_le hlength]
      exact isMantissa_filled h hlength
    | cons c fraction =>
      have hlength : e + 1 < digits.length := by
        by_contra hle
        rw [List.drop_eq_nil_iff.mpr (Nat.le_of_not_lt hle)] at hdrop
        cases hdrop
      have hfraction : IsDigits (c :: fraction) :=
        ⟨List.cons_ne_nil _ _, fun d hd => h.2 d (List.mem_of_mem_drop (hdrop ▸ hd))⟩
      have hfirst : Int.ofNat e + 1 = (digits.take (e + 1)).length := by
        rw [List.length_take, Nat.min_eq_left hlength.le]
        rfl
      have hsplit := isMantissa_split (isDigits_take h e) hfraction hfirst
      rw [← hdrop, List.take_append_drop, hdrop] at hsplit
      rw [Nat.sub_eq_zero_of_le hlength.le, List.replicate_zero, List.append_nil]
      exact hsplit
  | negSucc e => exact isMantissa_fraction h e

/-- The exponent is written with a sign, and with two digits at least. -/
theorem isExponent_written (first : Int) :
    IsExponent ('e' :: (if first < 0 then '-' else '+') ::
      (List.replicate (2 - (Nat.toDigits 10 first.natAbs).length) '0' ++
        Nat.toDigits 10 first.natAbs)) first := by
  have hdigits : IsDigits (List.replicate (2 - (Nat.toDigits 10 first.natAbs).length) '0' ++
      Nat.toDigits 10 first.natAbs) :=
    isDigits_append (fun c hc => isDigit_of_mem_zeros hc) (isDigits_toDigits first.natAbs)
  have hvalue : digitsValue (List.replicate (2 - (Nat.toDigits 10 first.natAbs).length) '0' ++
      Nat.toDigits 10 first.natAbs) = first.natAbs := by
    rw [digitsValue_zeros_append, digitsValue_toDigits]
  by_cases hneg : first < 0
  · have hwritten := IsExponent.written (.inl rfl) .minus hdigits
    rw [hvalue, show -1 * (first.natAbs : Int) = first by omega] at hwritten
    rw [if_pos hneg]
    exact hwritten
  · have hwritten := IsExponent.written (.inl rfl) .plus hdigits
    rw [hvalue, show 1 * (first.natAbs : Int) = first by omega] at hwritten
    rw [if_neg hneg]
    exact hwritten

theorem placedValue_zero_mul (digits : List Char) (first : Int) :
    placedValue digits 0 * 10 ^ first = placedValue digits first := by
  rw [placedValue, placedValue, timesPowerOfTen, timesPowerOfTen, mul_assoc,
    ← zpow_add₀ (by decide)]
  congr 2
  ring

/-- The point stands behind the first digit, if there are more. -/
theorem exists_exponential_eq (h : IsDigits digits) (first : Int) :
    ∃ mantissa exponent x, exponential digits first = mantissa ++ exponent ∧
      IsMantissa mantissa x ∧ IsExponent exponent first ∧
        x * 10 ^ first = placedValue digits first := by
  cases digits with
  | nil => exact absurd rfl h.1
  | cons leading rest =>
    cases rest with
    | nil =>
      refine ⟨[leading], _, _, ?_, isMantissa_positional h 0, isExponent_written first,
        placedValue_zero_mul _ first⟩
      simp [exponential]
    | cons more rest =>
      have hleading : IsDigits [leading] := ⟨by simp, fun c hc => h.2 c (by simp_all)⟩
      have hfraction : IsDigits (more :: rest) :=
        ⟨List.cons_ne_nil _ _, fun c hc => h.2 c (List.mem_cons_of_mem _ hc)⟩
      refine ⟨leading :: '.' :: more :: rest, _, _, ?_,
        isMantissa_split hleading hfraction (Int.zero_add 1), isExponent_written first,
        placedValue_zero_mul _ first⟩
      simp [exponential]

end Binary64

/-! ## Finite numbers -/

namespace Decimal

/-- The decimal that is written for a rank: zero for the first, and else the shortest. -/
def written (rank : Nat) : Decimal :=
  if rank = 0 then ⟨0, 0⟩ else shortest rank

theorem isShortest_written (rank : Nat) : (written rank).IsShortest rank := by
  obtain rfl | hrank := rank.eq_zero_or_pos
  · have hvalue : (written 0).value = 0 := by simp [written, value, timesPowerOfTen]
    have hdigits : (written 0).digits = [] := rfl
    refine ⟨?_, ?_, ?_⟩
    · rw [hvalue, ← nearestRank_eq_iff le_rfl]
      rfl
    · intro other n _ _
      rw [hdigits]
      exact Nat.zero_le n
    · intro other _ _
      rw [hvalue, magnitudeOf_zero, sub_zero, abs_zero]
      exact abs_nonneg _
  · rw [written, if_neg hrank.ne']
    exact isShortest_shortest hrank

/-- The first digit stands for the largest power of ten that does not exceed the decimal. -/
theorem pow_firstPlace_le {d : Decimal} (hd : 0 < d.coefficient) :
    (10 : Rat) ^ d.firstPlace ≤ d.value ∧ d.value < (10 : Rat) ^ (d.firstPlace + 1) := by
  obtain ⟨hlow, hhigh⟩ := pow_le_of_length_toDigits (show 1 < 10 by decide) hd
  have hlength : 0 < (Nat.toDigits 10 d.coefficient).length := Nat.length_toDigits_pos
  have hlow' : ((10 ^ ((Nat.toDigits 10 d.coefficient).length - 1) : Nat) : Rat) ≤ d.coefficient :=
    Nat.cast_le.mpr hlow
  have hhigh' : (d.coefficient : Rat) <
      ((10 ^ (Nat.toDigits 10 d.coefficient).length : Nat) : Rat) := Nat.cast_lt.mpr hhigh
  rw [Nat.cast_pow, Nat.cast_ofNat, ← zpow_natCast] at hlow' hhigh'
  constructor
  · refine le_trans (le_of_eq ?_) (mul_le_mul_of_nonneg_right hlow' (ten_zpow_pos d.exponent).le)
    rw [← zpow_add₀ (by decide), firstPlace]
    congr 1
    omega
  · refine lt_of_lt_of_eq (mul_lt_mul_of_pos_right hhigh' (ten_zpow_pos d.exponent)) ?_
    rw [← zpow_add₀ (by decide), firstPlace]
    congr 1
    omega

theorem magnitudeOf_finiteRanks_le : magnitudeOf finiteRanks ≤ 10 ^ (1024 : Int) := by
  have hsame : finiteRanks = 2045 * ranksPerBinade + 2 * ranksPerBinade := by
    unfold finiteRanks
    omega
  have hunit : binadeUnit 2045 = 2 ^ 971 := by
    rw [binadeUnit, ← zpow_natCast]
    rfl
  rw [hsame, magnitudeOf_binade le_rfl (.inr (by omega)), hunit]
  calc ((2 * ranksPerBinade : Nat) : Rat) * 2 ^ 971
      ≤ 10 ^ 53 * 10 ^ 971 :=
      mul_le_mul (by norm_num [ranksPerBinade]) (pow_le_pow_left₀ (by decide) (by decide) _)
        (by positivity) (by positivity)
    _ = 10 ^ (1024 : Int) := by
      rw [← pow_add, ← zpow_natCast]
      rfl

theorem le_magnitudeOf_one : 2 * 10 ^ (-1075 : Int) ≤ magnitudeOf 1 := by
  have hbinade := magnitudeOf_binade (e := 0) (n := 1) (by decide) (.inl rfl)
  rw [Nat.zero_mul, Nat.zero_add, Nat.cast_one, one_mul] at hbinade
  rw [hbinade, binadeUnit, Nat.cast_zero, zero_sub]
  calc 2 * (10 : Rat) ^ (-1075 : Int) ≤ 10 * 10 ^ (-1075 : Int) :=
      mul_le_mul_of_nonneg_right (by decide) (ten_zpow_pos _).le
    _ = 10 ^ (-(1074 : Nat) : Int) := by
      rw [mul_comm, ← zpow_add_one₀ (by decide)]
      rfl
    _ ≤ 2 ^ (-(1074 : Nat) : Int) := by
      rw [zpow_neg, zpow_neg, zpow_natCast, zpow_natCast]
      exact inv_anti₀ (by positivity) (pow_le_pow_left₀ (by decide) (by decide) _)

/-- What rounds to a finite magnitude has its first digit near to the ends of the format. -/
theorem natAbs_firstPlace_le {rank : Nat} (hrank : 0 < rank) (hfinite : rank < finiteRanks)
    {d : Decimal} (hd : IsNearestRank d.value rank) : d.firstPlace.natAbs ≤ 1075 := by
  obtain ⟨hfirst, hnext⟩ := pow_firstPlace_le (coefficient_pos hrank hd)
  obtain ⟨hlower, hupper, -⟩ := RoundingInterval.contains_ofRank_eq.mp
    ((RoundingInterval.contains_ofRank_iff hrank).mpr hd)
  have hten : (1 : Rat) < 10 := by decide
  have hend : magnitudeOf finiteRanks ≤ 10 ^ (1024 : Int) := magnitudeOf_finiteRanks_le
  have hbegin : 2 * 10 ^ (-1075 : Int) ≤ magnitudeOf 1 := le_magnitudeOf_one
  have hhigh : (10 : Rat) ^ d.firstPlace ≤ 10 ^ (1024 : Int) := by
    have hafter := magnitudeOf_strictMono.monotone (Nat.succ_le_of_lt hfinite)
    have hnext := magnitudeOf_strictMono (Nat.lt_succ_self rank)
    rw [RoundingInterval.ofRank] at hupper
    linarith
  have hlow : (10 : Rat) ^ (-1075 : Int) < 10 ^ (d.firstPlace + 1) := by
    have hbefore := magnitudeOf_strictMono.monotone hrank
    have hnonneg := magnitudeOf_nonneg (rank - 1)
    rw [RoundingInterval.ofRank] at hlower
    linarith
  rw [zpow_le_zpow_iff_right₀ hten] at hhigh
  rw [zpow_lt_zpow_iff_right₀ hten] at hlow
  omega

end Decimal

namespace Binary64

/-- The rational with the sign of a number. -/
def signed (negative : Bool) (r : Rat) : Rat :=
  if negative then -r else r

/-- The text of a number with a sign in front if it is negative. -/
def signedText (negative : Bool) (unsigned : List Char) : List Char :=
  if negative then '-' :: unsigned else unsigned

theorem exists_isSign_signedText (negative : Bool) :
    ∃ sign factor, IsSign sign factor ∧
      (∀ unsigned, signedText negative unsigned = sign ++ unsigned) ∧
      ∀ r, (factor : Rat) * r = signed negative r := by
  cases negative with
  | false => exact ⟨[], 1, .omitted, fun _ => rfl, fun r => by simp [signed]⟩
  | true => exact ⟨['-'], -1, .minus, fun _ => rfl, fun r => by simp [signed]⟩

/-- In either form digits at their places are read as their value. -/
theorem ofText?_of_form (negative : Bool) {digits : List Char} (h : IsDigits digits) {first : Int}
    (hfirst : first.natAbs ≤ 4096) {form : List Char}
    (hform : form = positional digits first ∨ form = exponential digits first) :
    Exact.ofText? (signedText negative form) =
      some (signed negative (placedValue digits first)) := by
  obtain ⟨sign, factor, hsign, htext, hvalue⟩ := exists_isSign_signedText negative
  rw [htext, ← hvalue]
  rcases hform with rfl | rfl
  · have hnumeral := Exact.IsNumeral.mk hsign (isMantissa_positional h first) .omitted (by decide)
    rw [List.append_nil, zpow_zero, mul_one] at hnumeral
    exact Exact.ofText?_of_denotes (.inr hnumeral)
  · obtain ⟨mantissa, exponent, x, heq, hmantissa, hexponent, hx⟩ := exists_exponential_eq h first
    rw [heq, ← hx]
    exact Exact.ofText?_of_denotes (.inr (.mk hsign hmantissa hexponent hfirst))

theorem ofRat_signed (negative : Bool) {r : Rat} (hr : 0 < r) :
    ofRat (signed negative r) = round negative r := by
  cases negative with
  | false => exact if_neg hr.le.not_gt
  | true =>
    have hneg : -r < 0 := neg_lt_zero.mpr hr
    rw [signed, if_pos rfl, ofRat, if_pos hneg, neg_neg]

/-- What is to hold of a finite number and of the decimal that is written for it.  The decimal is
the shortest that rounds to the number, and the nearest of those.  The text of the number is read as
exactly the decimal with the sign of the number, and would be in either form of writing.  Rounding
what is read gives the number again, but of the zeros the positive one. -/
structure TextLaw (negative : Bool) (rank : Fin finiteRanks) (d : Decimal) : Prop where
  shortest : d.IsShortest rank
  read : Exact.ofText? (text (.finite negative rank)) = some (signed negative d.value)
  forms : rank.val ≠ 0 →
    ∀ form ∈ [positional d.digits d.firstPlace, exponential d.digits d.firstPlace],
      Exact.ofText? (signedText negative form) = some (signed negative d.value)
  zeros : rank.val = 0 → text (.finite negative rank) = signedText negative ['0']
  rounded : ofRat (signed negative d.value) =
    if rank.val = 0 then zero false else .finite negative rank

theorem textLaw_zero (negative : Bool) {rank : Fin finiteRanks} (hrank : rank.val = 0) :
    TextLaw negative rank (.written rank) := by
  have hsigned : signed negative (Decimal.written rank).value = 0 := by
    rw [hrank]
    simp [Decimal.written, Decimal.value, timesPowerOfTen, signed]
  have htext : text (.finite negative rank) = signedText negative ['0'] := by
    rw [text, if_pos hrank]
    rfl
  refine ⟨Decimal.isShortest_written rank, ?_, fun hne => absurd hrank hne, fun _ => htext, ?_⟩
  · have hdigits : IsDigits ['0'] := ⟨by simp, by simp⟩
    have hfirst : (0 : Int).natAbs ≤ 4096 := Nat.zero_le _
    have hread := ofText?_of_form negative hdigits hfirst (.inl rfl)
    have hvalue : placedValue ['0'] 0 = (Decimal.written rank).value := by
      rw [hrank, placedValue, show digitsValue ['0'] = 0 from rfl]
      simp [Decimal.written, Decimal.value, timesPowerOfTen]
    have hform : positional ['0'] 0 = ['0'] := rfl
    rwa [hform, hvalue, ← htext] at hread
  · rw [hsigned, if_pos hrank]
    rfl

theorem textLaw_shortest (negative : Bool) {rank : Fin finiteRanks} (hrank : 0 < rank.val) :
    TextLaw negative rank (.written rank) := by
  have hshortest := Decimal.isShortest_written rank.val
  have hpos := Decimal.coefficient_pos hrank hshortest.rounds
  have hfirst := Decimal.natAbs_firstPlace_le hrank rank.isLt hshortest.rounds
  have hforms : ∀ form ∈ [positional (Decimal.written rank).digits
        (Decimal.written rank).firstPlace, exponential (Decimal.written rank).digits
        (Decimal.written rank).firstPlace],
      Exact.ofText? (signedText negative form) =
        some (signed negative (Decimal.written rank).value) := by
    intro form hform
    rw [← Decimal.placedValue_digits]
    exact ofText?_of_form negative (Decimal.isDigits_digits hpos.ne') (by omega)
      (by simpa using hform)
  refine ⟨hshortest, ?_, fun _ => hforms, fun hzero => absurd hzero hrank.ne', ?_⟩
  · have hwritten : Decimal.written rank = Decimal.shortest rank := if_neg hrank.ne'
    have htext : text (.finite negative rank) = signedText negative (magnitudeText rank) := by
      rw [text, if_neg hrank.ne']
      rfl
    rw [htext]
    refine hforms _ ?_
    rw [hwritten, magnitudeText]
    split
    next => exact List.mem_cons_self
    next => exact List.mem_cons_of_mem _ List.mem_cons_self
  · have hvalue : 0 < (Decimal.written rank).value :=
      mul_pos (Nat.cast_pos.mpr hpos) (ten_zpow_pos _)
    have hnearest := (nearestRank_eq_iff hvalue.le).mpr hshortest.rounds
    rw [ofRat_signed negative hvalue, if_neg hrank.ne', round, hnearest, ofRank,
      dif_pos rank.isLt]

/-- The text of every finite number is read as the shortest decimal of the number, which rounds to
the number again. -/
theorem textLaw_written (negative : Bool) (rank : Fin finiteRanks) :
    TextLaw negative rank (.written rank) := by
  obtain hzero | hrank := rank.val.eq_zero_or_pos
  · exact textLaw_zero negative hzero
  · exact textLaw_shortest negative hrank

end Binary64

end LispShell
