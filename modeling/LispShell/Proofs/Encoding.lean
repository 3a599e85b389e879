import LispShell.Input.ByteStream
import Mathlib.Tactic.IntervalCases

set_option autoImplicit false

/-!
# Texts as bytes

The bytes of a text decode to the text.  A line break is the only character with the byte of a line
break in it, so the lines of the bytes are the lines of the text.
-/

namespace LispShell

/-! ## Decoding what was encoded -/

namespace Text

theorem decodeByte_first (b : UInt8) : decodeByte .first b = decodeFirst b := rfl

/-- The first of two bytes. -/
theorem decodeFirst_two {n : Nat} (hlow : 0xC2 ≤ n) (hhigh : n < 0xE0) :
    decodeFirst (UInt8.ofNat n) = ([], .inside 0 0x80 0xBF (n - 0xC0)) := by
  interval_cases n <;> rfl

/-- The first of three bytes. -/
theorem decodeFirst_three {n : Nat} (hlow : 0xE0 ≤ n) (hhigh : n < 0xF0) :
    decodeFirst (UInt8.ofNat n) = ([], .inside 1 (if n = 0xE0 then 0xA0 else 0x80)
      (if n = 0xED then 0x9F else 0xBF) (n - 0xE0)) := by
  interval_cases n <;> rfl

/-- The first of four bytes. -/
theorem decodeFirst_four {n : Nat} (hlow : 0xF0 ≤ n) (hhigh : n < 0xF5) :
    decodeFirst (UInt8.ofNat n) = ([], .inside 2 (if n = 0xF0 then 0x90 else 0x80)
      (if n = 0xF4 then 0x8F else 0xBF) (n - 0xF0)) := by
  interval_cases n <;> rfl

/-- A further byte within its bounds. -/
theorem decodeByte_inside {more n code : Nat} {low high : UInt8} (hlow : low.toNat ≤ n + 0x80)
    (hhigh : n + 0x80 ≤ high.toNat) :
    decodeByte (.inside more low high code) (UInt8.ofNat (n + 0x80)) =
      match more with
      | 0 => ([Char.ofNat (64 * code + n)], .first)
      | more + 1 => ([], .inside more 0x80 0xBF (64 * code + n)) := by
  have hn : (n + 0x80) % 256 = n + 0x80 := Nat.mod_eq_of_lt (hhigh.trans_lt high.toNat_lt)
  have hbounds : (low ≤ UInt8.ofNat (n + 0x80) && UInt8.ofNat (n + 0x80) ≤ high) = true := by
    simp [UInt8.le_iff_toNat_le, hn, hlow, hhigh]
  have hcode : (UInt8.ofNat (n + 0x80)).toNat - 0x80 = n := by
    rw [UInt8.toNat_ofNat', hn, Nat.add_sub_cancel]
  cases more with
  | zero => simp only [decodeByte, hbounds, if_true, hcode]
  | succ more => simp only [decodeByte, hbounds, if_true, hcode]

/-- A further byte where all of them are allowed. -/
theorem decodeByte_tail (more code : Nat) {n : Nat} (hn : n < 64) :
    decodeByte (.inside more 0x80 0xBF code) (UInt8.ofNat (n + 0x80)) =
      match more with
      | 0 => ([Char.ofNat (64 * code + n)], .first)
      | more + 1 => ([], .inside more 0x80 0xBF (64 * code + n)) := by
  apply decodeByte_inside
  · exact Nat.le_add_left 0x80 n
  · exact Nat.add_le_add_right (Nat.le_of_lt_succ hn) 0x80

/-- The bytes of a character decode to it, whatever follows.  The bounds on the second byte hold
since the character has no shorter encoding, is no surrogate and is not past the last one. -/
theorem decodeOnto_utf8EncodeChar (c : Char) (bytes : List UInt8) :
    decodeOnto .first [] (String.utf8EncodeChar c ++ bytes) =
      c :: decodeOnto .first [] bytes := by
  have hvalid : c.toNat < 0xD800 ∨ 0xDFFF < c.toNat ∧ c.toNat < 0x110000 := c.valid
  have hval : c.val.toNat = c.toNat := rfl
  have hcode : ∀ {n}, n = c.toNat → Char.ofNat n = c := by
    rintro n rfl
    exact Char.ofNat_toNat c
  unfold String.utf8EncodeChar
  dsimp only
  rw [hval]
  split_ifs with hone htwo hthree
  all_goals simp only [List.cons_append, List.nil_append, decodeOnto_cons, decodeByte_first]
  · have hn : c.toNat % 256 = c.toNat := Nat.mod_eq_of_lt (by omega)
    have hlt : UInt8.ofNat c.toNat < 0x80 := by
      rw [UInt8.lt_iff_toNat_lt, UInt8.toNat_ofNat', hn]
      exact Nat.lt_succ_of_le hone
    rw [decodeFirst, if_pos hlt, UInt8.toNat_ofNat', hn, Char.ofNat_toNat]
    rfl
  · rw [decodeFirst_two (by omega) (by omega), decodeByte_tail 0 _ (by omega)]
    dsimp only
    rw [hcode (by omega)]
    rfl
  · rw [decodeFirst_three (by omega) (by omega), decodeByte_inside, decodeByte_tail 0 _ (by omega)]
    · dsimp only
      rw [hcode (by omega)]
      rfl
    · split
      · change 0xA0 ≤ _
        omega
      · change 0x80 ≤ _
        omega
    · split
      · change _ ≤ 0x9F
        omega
      · change _ ≤ 0xBF
        omega
  · rw [decodeFirst_four (by omega) (by omega), decodeByte_inside, decodeByte_tail 1 _ (by omega),
      decodeByte_tail 0 _ (by omega)]
    · dsimp only
      rw [hcode (by omega)]
      rfl
    · split
      · change 0x90 ≤ _
        omega
      · change 0x80 ≤ _
        omega
    · split
      · change _ ≤ 0x8F
        omega
      · change _ ≤ 0xBF
        omega

/-- A text is what its bytes decode to. -/
theorem decodeUtf8_flatMap (text : List Char) :
    decodeUtf8 (text.flatMap String.utf8EncodeChar) = text := by
  unfold decodeUtf8
  induction text with
  | nil => rfl
  | cons c text ih => rw [List.flatMap_cons, decodeOnto_utf8EncodeChar, ih]

/-! ## Line breaks among the bytes -/

theorem utf8EncodeChar_break : String.utf8EncodeChar '\n' = [0x0A] := rfl

theorem break_not_mem_utf8EncodeChar {c : Char} (hc : c ≠ '\n') :
    0x0A ∉ String.utf8EncodeChar c := by
  have hval : c.val.toNat = c.toNat := rfl
  have hne : c.toNat ≠ 10 := by
    intro h
    exact hc (by rw [← Char.ofNat_toNat c, h])
  unfold String.utf8EncodeChar
  dsimp only
  rw [hval]
  split_ifs with hone htwo hthree
  all_goals
    simp only [List.mem_cons, List.not_mem_nil, or_false, not_or, ← UInt8.toNat_inj,
      UInt8.toNat_ofNat', UInt8.toNat_ofNat]
    omega

end Text

/-! ## The lines of a text -/

namespace ByteStream

/-- Bytes other than that of a line break join the line. -/
theorem linesFrom_append {bytes : List UInt8} (h : 0x0A ∉ bytes) (rest : ByteStream) :
    ∀ line, linesFrom line (ofBytes bytes ++ rest) = linesFrom (bytes.reverse ++ line) rest := by
  induction bytes with
  | nil => intro line; rfl
  | cons b bytes ih =>
    intro line
    rw [List.mem_cons, not_or] at h
    obtain ⟨hb, hbytes⟩ := h
    change linesFrom line (.byte b :: (ofBytes bytes ++ rest)) = _
    rw [linesFrom, if_neg (Ne.symm hb), ih hbytes, List.reverse_cons, List.append_assoc]
    rfl

theorem linesFrom_ofBytes (text : List Char) :
    ∀ line, linesFrom (line.reverse.flatMap String.utf8EncodeChar).reverse
        (ofBytes (text.flatMap String.utf8EncodeChar)) = Read.linesFrom line text := by
  induction text with
  | nil =>
    intro line
    rw [List.flatMap_nil]
    change linesFrom _ [] = _
    rw [linesFrom, Read.linesFrom, List.reverse_reverse, Text.decodeUtf8_flatMap]
    cases line with
    | nil => rfl
    | cons c line => simp [Read.last, List.flatMap_append, String.utf8EncodeChar_ne_nil]
  | cons c text ih =>
    intro line
    have hmore : ofBytes ((c :: text).flatMap String.utf8EncodeChar) =
        ofBytes (String.utf8EncodeChar c) ++ ofBytes (text.flatMap String.utf8EncodeChar) := by
      rw [List.flatMap_cons, ofBytes, List.map_append]
      rfl
    have hline : ((c :: line).reverse.flatMap String.utf8EncodeChar) =
        line.reverse.flatMap String.utf8EncodeChar ++ String.utf8EncodeChar c := by
      rw [List.reverse_cons, List.flatMap_append, List.flatMap_singleton]
    rw [hmore, Read.linesFrom]
    by_cases hc : c = '\n'
    · subst hc
      have hdecoded := Text.decodeUtf8_flatMap ('\n' :: line).reverse
      rw [hline, Text.utf8EncodeChar_break] at hdecoded
      rw [if_pos rfl, Text.utf8EncodeChar_break]
      change linesFrom _ (.byte 0x0A :: ofBytes (text.flatMap String.utf8EncodeChar)) = _
      rw [linesFrom, if_pos rfl, List.reverse_cons, List.reverse_reverse, hdecoded]
      exact congrArg _ (ih [])
    · rw [if_neg hc, linesFrom_append (Text.break_not_mem_utf8EncodeChar hc), ← List.reverse_append,
        ← hline]
      exact ih (c :: line)

/-- The lines that the bytes of a text give are the lines of the text. -/
theorem lines_ofBytes_utf8 (text : String) :
    lines (ofBytes text.toUTF8.data.toList) = Read.ofText text.toList := by
  have hbytes : text.toUTF8.data.toList = text.toList.flatMap String.utf8EncodeChar := by
    rw [String.toUTF8_eq_toByteArray, ← String.utf8Encode_toList]
    exact List.toList_data_toByteArray
  rw [hbytes]
  exact linesFrom_ofBytes text.toList []

end ByteStream

end LispShell
