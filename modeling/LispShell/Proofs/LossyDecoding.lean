import LispShell.Proofs.Encoding
import Mathlib.Data.List.Induction
import Mathlib.Data.Nat.Find

set_option autoImplicit false

/-!
# Decoding bytes that encode no text

Bytes that arrive need not be the encoding of a text.  `LossyDecoding` says what they stand for,
without a decoder: they fall into encoded characters and into parts that encode nothing, each of
these as long as it can be, and each part is replaced by one character.  Bytes have exactly one such
decoding, and `Text.decodeUtf8` gives it (`lossyDecoding_iff`).

The decoder takes one byte at a time.  Its state is in the middle of a character just when the bytes
since the last character begin the encoding of one and do not complete it (`IsOpen`), which is what
`Awaits` says of a state.

An ASCII character is one byte, and this byte is in no other character and in no part that encodes
nothing.  So what stands before it and what stands after it can be decoded by themselves
(`LossyDecoding.append_ascii`).
-/

namespace LispShell.Text

/-! ## Parts that encode nothing -/

/-- The bytes begin the encoding of a character and do not complete it. -/
def IsOpen (bytes : List UInt8) : Prop :=
  ∃ c more, more ≠ [] ∧ bytes ++ more = String.utf8EncodeChar c

/-- No character is encoded where this part begins, and `rest` comes after it.  Either the part is
the longest there that begins a character, or it is one byte that begins none. -/
structure IsInvalidPart (part rest : List UInt8) : Prop where
  ne_nil : part ≠ []
  invalid : ∀ c, ¬ String.utf8EncodeChar c <+: part ++ rest
  isOpen : IsOpen part ∨ part.length = 1
  longest : ∀ longer, IsOpen longer → longer <+: part ++ rest → longer.length ≤ part.length

/-- The text that bytes stand for, with one replacement for each part that encodes nothing. -/
inductive LossyDecoding : List UInt8 → List Char → Prop where
  | nil : LossyDecoding [] []
  | char (c : Char) {bytes : List UInt8} {text : List Char} (h : LossyDecoding bytes text) :
      LossyDecoding (String.utf8EncodeChar c ++ bytes) (c :: text)
  | invalid {part rest : List UInt8} {text : List Char} (hpart : IsInvalidPart part rest)
      (h : LossyDecoding rest text) : LossyDecoding (part ++ rest) (replacement :: text)

/-! ## The bytes of a character -/

theorem toNat_ofNat_of_valid {n : Nat} (h : n.isValidChar) : (Char.ofNat n).toNat = n := by
  rw [Char.ofNat, dif_pos h]
  rfl

/-- An ASCII character is one byte. -/
theorem utf8EncodeChar_of_lt {c : Char} (h : c.toNat < 0x80) :
    String.utf8EncodeChar c = [UInt8.ofNat c.toNat] := by
  have hval : c.val.toNat = c.toNat := rfl
  unfold String.utf8EncodeChar
  dsimp only
  rw [hval, if_pos (Nat.le_of_lt_succ h)]

theorem utf8EncodeChar_ofNat {b : UInt8} (h : b.toNat < 0x80) :
    String.utf8EncodeChar (Char.ofNat b.toNat) = [b] := by
  have hn : (Char.ofNat b.toNat).toNat = b.toNat := toNat_ofNat_of_valid (.inl (by omega))
  rw [utf8EncodeChar_of_lt (by rwa [hn]), hn, UInt8.ofNat_toNat]

/-- The bytes of any other character are no ASCII bytes. -/
theorem le_of_mem_utf8EncodeChar {c : Char} (h : 0x80 ≤ c.toNat) :
    ∀ b ∈ String.utf8EncodeChar c, 0x80 ≤ b.toNat := by
  have hval : c.val.toNat = c.toNat := rfl
  unfold String.utf8EncodeChar
  dsimp only
  rw [hval]
  split_ifs
  all_goals
    simp only [List.forall_mem_cons, List.not_mem_nil, false_implies, implies_true, and_true,
      UInt8.toNat_ofNat', Nat.reducePow]
    omega

/-- Two bytes within the bounds of the format encode a character. -/
theorem exists_utf8EncodeChar_two {a b : Nat} (ha : 0xC2 ≤ a ∧ a < 0xE0)
    (hb : 0x80 ≤ b ∧ b ≤ 0xBF) :
    ∃ c, [UInt8.ofNat a, UInt8.ofNat b] = String.utf8EncodeChar c := by
  obtain ⟨n, hn⟩ : ∃ n, n = 64 * (a - 0xC0) + (b - 0x80) := ⟨_, rfl⟩
  have hval : (Char.ofNat n).val.toNat = n := toNat_ofNat_of_valid (.inl (by omega))
  have hfirst : n / 64 % 32 + 192 = a := by omega
  have hsecond : n % 64 + 128 = b := by omega
  refine ⟨Char.ofNat n, ?_⟩
  unfold String.utf8EncodeChar
  dsimp only
  rw [hval, if_neg (by omega), if_pos (by omega), hfirst, hsecond]

/-- Three bytes, of which the first may bound the second: no character has a shorter encoding, and
none is a surrogate. -/
theorem exists_utf8EncodeChar_three {a b c : Nat} (ha : 0xE0 ≤ a ∧ a < 0xF0)
    (hb : 0x80 ≤ b ∧ b ≤ 0xBF) (hc : 0x80 ≤ c ∧ c ≤ 0xBF) (hlow : a = 0xE0 → 0xA0 ≤ b)
    (hhigh : a = 0xED → b ≤ 0x9F) :
    ∃ d, [UInt8.ofNat a, UInt8.ofNat b, UInt8.ofNat c] = String.utf8EncodeChar d := by
  obtain ⟨n, hn⟩ : ∃ n, n = 64 * (64 * (a - 0xE0) + (b - 0x80)) + (c - 0x80) := ⟨_, rfl⟩
  have hvalid : n.isValidChar := by
    unfold Nat.isValidChar
    omega
  have hval : (Char.ofNat n).val.toNat = n := toNat_ofNat_of_valid hvalid
  have hfirst : n / 4096 % 16 + 224 = a := by omega
  have hsecond : n / 64 % 64 + 128 = b := by omega
  have hthird : n % 64 + 128 = c := by omega
  refine ⟨Char.ofNat n, ?_⟩
  unfold String.utf8EncodeChar
  dsimp only
  rw [hval, if_neg (by omega), if_neg (by omega), if_pos (by omega), hfirst, hsecond, hthird]

/-- Four bytes, for the characters up to the last. -/
theorem exists_utf8EncodeChar_four {a b c d : Nat} (ha : 0xF0 ≤ a ∧ a < 0xF5)
    (hb : 0x80 ≤ b ∧ b ≤ 0xBF) (hc : 0x80 ≤ c ∧ c ≤ 0xBF) (hd : 0x80 ≤ d ∧ d ≤ 0xBF)
    (hlow : a = 0xF0 → 0x90 ≤ b) (hhigh : a = 0xF4 → b ≤ 0x8F) :
    ∃ e, [UInt8.ofNat a, UInt8.ofNat b, UInt8.ofNat c, UInt8.ofNat d] =
      String.utf8EncodeChar e := by
  obtain ⟨n, hn⟩ : ∃ n,
      n = 64 * (64 * (64 * (a - 0xF0) + (b - 0x80)) + (c - 0x80)) + (d - 0x80) := ⟨_, rfl⟩
  have hvalid : n.isValidChar := by
    unfold Nat.isValidChar
    omega
  have hval : (Char.ofNat n).val.toNat = n := toNat_ofNat_of_valid hvalid
  have hfirst : n / 262144 % 8 + 240 = a := by omega
  have hsecond : n / 4096 % 64 + 128 = b := by omega
  have hthird : n / 64 % 64 + 128 = c := by omega
  have hfourth : n % 64 + 128 = d := by omega
  refine ⟨Char.ofNat n, ?_⟩
  unfold String.utf8EncodeChar
  dsimp only
  rw [hval, if_neg (by omega), if_neg (by omega), if_neg (by omega), hfirst, hsecond, hthird,
    hfourth]

/-! ## The states of the decoder -/

/-- These bytes complete the character that the decoder is in the middle of. -/
def Pending.Completes : Pending → List UInt8 → Prop
  | .first, bytes => bytes = []
  | .inside more low high _, bytes =>
    ∃ b tail, bytes = b :: tail ∧ low.toNat ≤ b.toNat ∧ b.toNat ≤ high.toNat ∧
      tail.length = more ∧ ∀ x ∈ tail, 0x80 ≤ x.toNat ∧ x.toNat ≤ 0xBF

/-- The decoder is in this state after the bytes since the last character. -/
def Awaits (part : List UInt8) : Pending → Prop
  | .first => part = []
  | .inside more low high code =>
    part ≠ [] ∧ low.toNat ≤ high.toNat ∧
      ∀ bytes, (Pending.inside more low high code).Completes bytes →
        ∃ c, part ++ bytes = String.utf8EncodeChar c

section

variable {b : UInt8} {part : List UInt8} {p : Pending}

theorem decodeFirst_ascii (h : b.toNat < 0x80) :
    decodeFirst b = ([Char.ofNat b.toNat], .first) := by
  have hlt : b < 0x80 := UInt8.lt_iff_toNat_lt.mpr h
  rw [decodeFirst, if_pos hlt]

/-- A byte that begins no character. -/
theorem decodeFirst_invalid (h : 0x80 ≤ b.toNat ∧ b.toNat < 0xC2 ∨ 0xF5 ≤ b.toNat) :
    decodeFirst b = ([replacement], .first) := by
  simp only [decodeFirst, UInt8.lt_iff_toNat_lt, beq_iff_eq, ← UInt8.toNat_inj, UInt8.reduceToNat]
  split_ifs
  all_goals first
    | rfl
    | omega

theorem awaits_first_two (hb : 0xC2 ≤ b.toNat ∧ b.toNat < 0xE0) :
    ∃ p, decodeFirst b = ([], p) ∧ Awaits [b] p := by
  rw [← UInt8.ofNat_toNat (x := b)]
  refine ⟨_, decodeFirst_two hb.1 hb.2, by simp, by decide, ?_⟩
  rintro bytes ⟨x, tail, rfl, hlow, hhigh, hlength, -⟩
  obtain rfl := List.length_eq_zero_iff.mp hlength
  have hx := exists_utf8EncodeChar_two hb ⟨hlow, hhigh⟩
  rwa [UInt8.ofNat_toNat (x := x)] at hx

theorem awaits_first_three (hb : 0xE0 ≤ b.toNat ∧ b.toNat < 0xF0) :
    ∃ p, decodeFirst b = ([], p) ∧ Awaits [b] p := by
  rw [← UInt8.ofNat_toNat (x := b)]
  refine ⟨_, decodeFirst_three hb.1 hb.2, by simp, by split_ifs <;> first | decide | omega, ?_⟩
  rintro bytes ⟨x, tail, rfl, hlow, hhigh, hlength, htail⟩
  obtain ⟨y, rfl⟩ := List.length_eq_one_iff.mp hlength
  have hbounds : 0x80 ≤ x.toNat ∧ x.toNat ≤ 0xBF ∧ (b.toNat = 0xE0 → 0xA0 ≤ x.toNat) ∧
      (b.toNat = 0xED → x.toNat ≤ 0x9F) := by
    split_ifs at hlow hhigh
    all_goals
      simp only [UInt8.reduceToNat] at hlow hhigh
      omega
  have hx := exists_utf8EncodeChar_three hb ⟨hbounds.1, hbounds.2.1⟩ (htail y List.mem_cons_self)
    hbounds.2.2.1 hbounds.2.2.2
  rwa [UInt8.ofNat_toNat (x := x), UInt8.ofNat_toNat (x := y)] at hx

theorem awaits_first_four (hb : 0xF0 ≤ b.toNat ∧ b.toNat < 0xF5) :
    ∃ p, decodeFirst b = ([], p) ∧ Awaits [b] p := by
  rw [← UInt8.ofNat_toNat (x := b)]
  refine ⟨_, decodeFirst_four hb.1 hb.2, by simp, by split_ifs <;> first | decide | omega, ?_⟩
  rintro bytes ⟨x, tail, rfl, hlow, hhigh, hlength, htail⟩
  obtain ⟨y, tail, rfl⟩ := List.exists_cons_of_length_eq_add_one hlength
  obtain ⟨z, rfl⟩ := List.length_eq_one_iff.mp (Nat.succ.inj hlength)
  have hbounds : 0x80 ≤ x.toNat ∧ x.toNat ≤ 0xBF ∧ (b.toNat = 0xF0 → 0x90 ≤ x.toNat) ∧
      (b.toNat = 0xF4 → x.toNat ≤ 0x8F) := by
    split_ifs at hlow hhigh
    all_goals
      simp only [UInt8.reduceToNat] at hlow hhigh
      omega
  have hx := exists_utf8EncodeChar_four hb ⟨hbounds.1, hbounds.2.1⟩ (htail y (by simp))
    (htail z (by simp)) hbounds.2.2.1 hbounds.2.2.2
  rwa [UInt8.ofNat_toNat (x := x), UInt8.ofNat_toNat (x := y), UInt8.ofNat_toNat (x := z)] at hx

/-- A first byte is an ASCII character, begins no character, or begins one of several bytes. -/
theorem decodeFirst_cases (b : UInt8) :
    (b.toNat < 0x80 ∧ decodeFirst b = ([Char.ofNat b.toNat], .first)) ∨
      decodeFirst b = ([replacement], .first) ∨
      ∃ p, decodeFirst b = ([], p) ∧ Awaits [b] p := by
  by_cases hascii : b.toNat < 0x80
  · exact .inl ⟨hascii, decodeFirst_ascii hascii⟩
  by_cases hinvalid : b.toNat < 0xC2 ∨ 0xF5 ≤ b.toNat
  · exact .inr (.inl (decodeFirst_invalid (by omega)))
  by_cases htwo : b.toNat < 0xE0
  · exact .inr (.inr (awaits_first_two (by omega)))
  by_cases hthree : b.toNat < 0xF0
  · exact .inr (.inr (awaits_first_three (by omega)))
  · exact .inr (.inr (awaits_first_four (by omega)))

theorem awaits_decodeFirst (h : decodeFirst b = ([], p)) : Awaits [b] p := by
  obtain ⟨-, hascii⟩ | hinvalid | ⟨q, hopen, hq⟩ := decodeFirst_cases b
  · rw [hascii] at h
    cases h
  · rw [hinvalid] at h
    cases h
  · rw [hopen] at h
    cases h
    exact hq

/-- A state in the middle of a character comes after bytes that begin one. -/
theorem Awaits.isOpen (h : Awaits part p) (hpart : part ≠ []) : IsOpen part := by
  cases p with
  | first => exact absurd h hpart
  | inside more low high code =>
    obtain ⟨-, hle, hcomplete⟩ := h
    obtain ⟨c, hc⟩ := hcomplete (low :: List.replicate more 0x80)
      ⟨low, _, rfl, Nat.le_refl _, hle, List.length_replicate, fun x hx => by
        rw [List.eq_of_mem_replicate hx]
        decide⟩
    exact ⟨c, _, List.cons_ne_nil _ _, hc⟩

/-- What one more byte does in the middle of a character: it is the next or the last byte of a
character, or it is taken as a first byte, and a replacement stands for those before. -/
theorem Awaits.decodeByte_cases (h : Awaits part p) (hpart : part ≠ []) (b : UInt8) :
    (∃ q, decodeByte p b = ([], q) ∧ Awaits (part ++ [b]) q) ∨
      (∃ c, part ++ [b] = String.utf8EncodeChar c) ∨
      decodeByte p b = (replacement :: (decodeFirst b).1, (decodeFirst b).2) := by
  cases p with
  | first => exact absurd h hpart
  | inside more low high code =>
    obtain ⟨-, hle, hcomplete⟩ := h
    by_cases hbounds : (low ≤ b && b ≤ high) = true
    · have hbetween : low.toNat ≤ b.toNat ∧ b.toNat ≤ high.toNat := by
        simpa [UInt8.le_iff_toNat_le] using hbounds
      cases more with
      | zero =>
        obtain ⟨c, hc⟩ := hcomplete [b] ⟨b, [], rfl, hbetween.1, hbetween.2, rfl, by simp⟩
        exact .inr (.inl ⟨c, hc⟩)
      | succ more =>
        refine .inl ⟨.inside more 0x80 0xBF (64 * code + (b.toNat - 0x80)),
          by simp only [decodeByte, hbounds, if_true], by simp, by decide, ?_⟩
        rintro bytes ⟨x, tail, rfl, hlow, hhigh, hlength, htail⟩
        obtain ⟨c, hc⟩ := hcomplete (b :: x :: tail) ⟨b, x :: tail, rfl, hbetween.1, hbetween.2,
          by simp [hlength], by simpa using ⟨⟨hlow, hhigh⟩, htail⟩⟩
        exact ⟨c, by rw [← hc, List.append_assoc]; rfl⟩
    · exact .inr (.inr (by simp only [decodeByte, if_neg hbounds]))

end

/-! ## Decoding -/

/-- The decoder gives nothing for a byte only if it is in the middle of a character then. -/
theorem ne_first_of_decodeByte {p : Pending} {b : UInt8} (h : (decodeByte p b).1 = []) :
    (decodeByte p b).2 ≠ .first := by
  cases p with
  | first =>
    intro hq
    have hawaits : Awaits [b] .first := awaits_decodeFirst (Prod.ext h hq)
    cases hawaits
  | inside more low high code =>
    simp only [decodeByte] at h ⊢
    split_ifs at h ⊢
    cases more with
    | zero => cases h
    | succ more => simp

theorem decodeOnto_eq_nil_iff (bytes : List UInt8) :
    ∀ p : Pending, decodeOnto p [] bytes = [] ↔ p = .first ∧ bytes = [] := by
  induction bytes with
  | nil =>
    intro p
    cases p <;> simp [decodeOnto, decodeEnd]
  | cons b bytes ih =>
    intro p
    rw [decodeOnto_cons, List.append_eq_nil_iff, ih]
    constructor
    · rintro ⟨hout, hfirst, -⟩
      exact absurd hfirst (ne_first_of_decodeByte hout)
    · rintro ⟨-, hnil⟩
      cases hnil

theorem decodeUtf8_utf8EncodeChar_append (c : Char) (bytes : List UInt8) :
    decodeUtf8 (String.utf8EncodeChar c ++ bytes) = c :: decodeUtf8 bytes :=
  decodeOnto_utf8EncodeChar c bytes

/-- No character is encoded by the beginning of another one's bytes. -/
theorem not_isOpen_utf8EncodeChar (c : Char) : ¬ IsOpen (String.utf8EncodeChar c) := by
  rintro ⟨d, more, hmore, hd⟩
  have hdecode := decodeUtf8_utf8EncodeChar_append c more
  rw [hd, ← List.append_nil (String.utf8EncodeChar d), decodeUtf8_utf8EncodeChar_append] at hdecode
  have hnil : decodeOnto .first [] more = [] := (List.cons.inj hdecode).2.symm
  exact hmore ((decodeOnto_eq_nil_iff more .first).mp hnil).2

/-- Bytes that begin a character leave the decoder in the middle of it, and give nothing. -/
theorem IsOpen.exists_awaits {part : List UInt8} (h : IsOpen part) :
    ∃ p, Awaits part p ∧
      ∀ rest, decodeOnto .first [] (part ++ rest) = decodeOnto p [] rest := by
  induction part using List.reverseRecOn with
  | nil => exact ⟨.first, rfl, fun _ => rfl⟩
  | append_singleton part b ih =>
    have hopen := h
    obtain ⟨c, more, hmore, hc⟩ := h
    rw [List.append_assoc, List.singleton_append] at hc
    obtain ⟨p, hawaits, hdecode⟩ := ih ⟨c, b :: more, List.cons_ne_nil _ _, hc⟩
    -- From here on the decoder gives the character and no more.
    have hrest : (decodeByte p b).1 ++ decodeOnto (decodeByte p b).2 [] more = [c] := by
      have hall := decodeUtf8_utf8EncodeChar_append c []
      rwa [List.append_nil, decodeUtf8, ← hc, hdecode, decodeOnto_cons] at hall
    have hout : (decodeByte p b).1 = [] := by
      rcases List.append_eq_singleton_iff.mp hrest with ⟨hout, -⟩ | ⟨-, hnil⟩
      · exact hout
      · exact absurd ((decodeOnto_eq_nil_iff more _).mp hnil).2 hmore
    refine ⟨(decodeByte p b).2, ?_, fun rest => ?_⟩
    · by_cases hpart : part = []
      · subst hpart
        cases p with
        | first => exact awaits_decodeFirst (Prod.ext hout rfl)
        | inside more low high code => exact absurd rfl hawaits.1
      · obtain ⟨q, hq, hnext⟩ | ⟨d, hd⟩ | hreplaced := hawaits.decodeByte_cases hpart b
        · rwa [hq]
        · rw [hd] at hopen
          exact absurd hopen (not_isOpen_utf8EncodeChar d)
        · rw [hreplaced] at hout
          cases hout
    · rw [List.append_assoc, hdecode, List.singleton_append, decodeOnto_cons, hout, List.nil_append]

/-- The decoder gives one replacement for a part that encodes nothing, and begins anew after it. -/
theorem IsInvalidPart.decodeUtf8_append {part rest : List UInt8} (h : IsInvalidPart part rest) :
    decodeUtf8 (part ++ rest) = replacement :: decodeUtf8 rest := by
  by_cases hopen : IsOpen part
  · obtain ⟨p, hawaits, hdecode⟩ := hopen.exists_awaits
    rw [decodeUtf8, hdecode]
    cases rest with
    | nil =>
      cases p with
      | first => exact absurd hawaits h.ne_nil
      | inside more low high code => rfl
    | cons b rest =>
      have hbegins : part ++ [b] <+: part ++ b :: rest := by simp
      obtain ⟨q, -, hnext⟩ | ⟨d, hd⟩ | hreplaced := hawaits.decodeByte_cases h.ne_nil b
      · have hle := h.longest _ (hnext.isOpen (by simp)) hbegins
        simp at hle
      · rw [hd] at hbegins
        exact absurd hbegins (h.invalid d)
      · rw [decodeOnto_cons, hreplaced, decodeUtf8, decodeOnto_cons]
        rfl
  · obtain ⟨b, rfl⟩ := List.length_eq_one_iff.mp (h.isOpen.resolve_left hopen)
    rw [List.singleton_append, decodeUtf8, decodeOnto_cons, decodeByte_first]
    obtain ⟨hlt, hascii⟩ | hinvalid | ⟨p, -, hawaits⟩ := decodeFirst_cases b
    · have hbegins : String.utf8EncodeChar (Char.ofNat b.toNat) <+: [b] ++ rest := by
        rw [utf8EncodeChar_ofNat hlt]
        exact List.prefix_append _ _
      exact absurd hbegins (h.invalid _)
    · rw [hinvalid]
      rfl
    · exact absurd (hawaits.isOpen (List.cons_ne_nil _ _)) hopen

/-- Bytes stand for one text only, the one that the decoder gives. -/
theorem LossyDecoding.eq_decodeUtf8 {bytes : List UInt8} {text : List Char}
    (h : LossyDecoding bytes text) : text = decodeUtf8 bytes := by
  induction h with
  | nil => rfl
  | char c _ ih => rw [decodeUtf8_utf8EncodeChar_append, ih]
  | invalid hpart _ ih => rw [hpart.decodeUtf8_append, ih]

/-- Where no character is encoded there is a part that encodes nothing. -/
theorem exists_isInvalidPart {bytes : List UInt8} (hne : bytes ≠ [])
    (h : ∀ c, ¬ String.utf8EncodeChar c <+: bytes) :
    ∃ part rest, bytes = part ++ rest ∧ IsInvalidPart part rest := by
  classical
  -- The longest part that begins a character, but at least one byte.
  obtain ⟨n, hn⟩ : ∃ n,
      n = max 1 (Nat.findGreatest (fun n => IsOpen (bytes.take n)) bytes.length) := ⟨_, rfl⟩
  have hlength : 0 < bytes.length := List.length_pos_iff.mpr hne
  have hle : n ≤ bytes.length := by
    have hgreatest := Nat.findGreatest_le (P := fun n => IsOpen (bytes.take n)) bytes.length
    omega
  have hpart : (bytes.take n).length = n := by rw [List.length_take, Nat.min_eq_left hle]
  refine ⟨bytes.take n, bytes.drop n, (List.take_append_drop n bytes).symm, ?_, ?_, ?_, ?_⟩
  · intro hnil
    rw [hnil, List.length_nil] at hpart
    omega
  · rwa [List.take_append_drop]
  · by_cases hone : n = 1
    · exact .inr (by rw [hpart, hone])
    · have hgreatest : n = Nat.findGreatest (fun n => IsOpen (bytes.take n)) bytes.length := by
        omega
      refine .inl ?_
      have hopen := Nat.findGreatest_of_ne_zero (P := fun n => IsOpen (bytes.take n))
        hgreatest.symm (by omega)
      exact hopen
  · intro longer hopen hbegins
    rw [List.take_append_drop] at hbegins
    have htake : bytes.take longer.length = longer := (List.prefix_iff_eq_take.mp hbegins).symm
    have hgreatest := Nat.le_findGreatest (P := fun n => IsOpen (bytes.take n)) hbegins.length_le
      (by rwa [htake])
    rw [hpart]
    omega

theorem exists_lossyDecoding (bytes : List UInt8) : ∃ text, LossyDecoding bytes text := by
  induction hlength : bytes.length using Nat.strong_induction_on generalizing bytes with
  | _ n ih =>
  subst hlength
  by_cases hnil : bytes = []
  · subst hnil
    exact ⟨[], .nil⟩
  by_cases hchar : ∃ c, String.utf8EncodeChar c <+: bytes
  · obtain ⟨c, rest, rfl⟩ := hchar
    have hpos := List.length_pos_iff.mpr (String.utf8EncodeChar_ne_nil (c := c))
    obtain ⟨text, htext⟩ := ih rest.length (by rw [List.length_append]; omega) rest rfl
    exact ⟨_, .char c htext⟩
  · obtain ⟨part, rest, rfl, hpart⟩ := exists_isInvalidPart hnil (not_exists.mp hchar)
    have hpos := List.length_pos_iff.mpr hpart.ne_nil
    obtain ⟨text, htext⟩ := ih rest.length (by rw [List.length_append]; omega) rest rfl
    exact ⟨_, .invalid hpart htext⟩

/-- The decoder gives the one text that bytes stand for. -/
theorem lossyDecoding_iff {bytes : List UInt8} {text : List Char} :
    LossyDecoding bytes text ↔ text = decodeUtf8 bytes := by
  refine ⟨LossyDecoding.eq_decodeUtf8, ?_⟩
  rintro rfl
  obtain ⟨text, htext⟩ := exists_lossyDecoding bytes
  rwa [← htext.eq_decodeUtf8]

/-! ## ASCII bytes -/

/-- Bytes that begin a character of several are no ASCII bytes. -/
theorem IsOpen.le_of_mem {part : List UInt8} (h : IsOpen part) : ∀ b ∈ part, 0x80 ≤ b.toNat := by
  obtain ⟨c, more, hmore, hc⟩ := h
  intro b hb
  by_cases hascii : c.toNat < 0x80
  · -- There is one byte only, and it is in `more`.
    rw [utf8EncodeChar_of_lt hascii] at hc
    have hlength := congrArg List.length hc
    have hpos := List.length_pos_iff.mpr hmore
    have hpart := List.length_pos_iff.mpr (List.ne_nil_of_mem hb)
    rw [List.length_append, List.length_singleton] at hlength
    omega
  · apply le_of_mem_utf8EncodeChar (Nat.le_of_not_lt hascii)
    rw [← hc]
    exact List.mem_append_left more hb

/-- A part that encodes nothing has no ASCII byte. -/
theorem IsInvalidPart.le_of_mem {part rest : List UInt8} (h : IsInvalidPart part rest) :
    ∀ b ∈ part, 0x80 ≤ b.toNat := by
  obtain hopen | hone := h.isOpen
  · exact hopen.le_of_mem
  · obtain ⟨x, rfl⟩ := List.length_eq_one_iff.mp hone
    intro b hb
    obtain rfl := List.mem_singleton.mp hb
    by_contra hascii
    refine h.invalid (Char.ofNat b.toNat) ?_
    rw [utf8EncodeChar_ofNat (Nat.lt_of_not_le hascii)]
    exact List.prefix_append _ _

/-- An ASCII byte is in no part that begins a character or encodes nothing. -/
theorem ascii_not_mem {d : UInt8} (hd : d.toNat < 0x80) {part : List UInt8}
    (h : ∀ b ∈ part, 0x80 ≤ b.toNat) : d ∉ part :=
  fun hmem => Nat.not_le_of_lt hd (h d hmem)

theorem toNat_asciiByte {d : Char} (hd : d.toNat < 0x80) :
    (UInt8.ofNat d.toNat).toNat = d.toNat := by
  rw [UInt8.toNat_ofNat']
  exact Nat.mod_eq_of_lt (by omega)

theorem count_utf8EncodeChar {d : Char} (hd : d.toNat < 0x80) (c : Char) :
    (String.utf8EncodeChar c).count (UInt8.ofNat d.toNat) = if c = d then 1 else 0 := by
  have hbyte := toNat_asciiByte hd
  by_cases hc : c.toNat < 0x80
  · rw [utf8EncodeChar_of_lt hc, List.count_singleton]
    have hsame : (UInt8.ofNat c.toNat == UInt8.ofNat d.toNat) = true ↔ c = d := by
      rw [beq_iff_eq, ← UInt8.toNat_inj, toNat_asciiByte hc, hbyte]
      exact ⟨fun h => by rw [← Char.ofNat_toNat c, h, Char.ofNat_toNat], fun h => h ▸ rfl⟩
    simp only [hsame]
  · rw [if_neg (by rintro rfl; exact hc hd)]
    refine List.count_eq_zero_of_not_mem (ascii_not_mem (by rwa [hbyte]) ?_)
    exact le_of_mem_utf8EncodeChar (Nat.le_of_not_lt hc)

/-- An ASCII character is decoded as often as its byte stands there. -/
theorem LossyDecoding.count_eq {bytes : List UInt8} {text : List Char}
    (h : LossyDecoding bytes text) {d : Char} (hd : d.toNat < 0x80) :
    text.count d = bytes.count (UInt8.ofNat d.toNat) := by
  induction h with
  | nil => rfl
  | char c _ ih =>
    rw [List.count_append, count_utf8EncodeChar hd, ← ih, List.count_cons, Nat.add_comm]
    simp only [beq_iff_eq]
  | invalid hpart _ ih =>
    have hpart' := ascii_not_mem (by rwa [toNat_asciiByte hd]) hpart.le_of_mem
    have hreplacement : replacement ≠ d := by
      rintro rfl
      exact absurd hd (by decide)
    rw [List.count_append, List.count_eq_zero_of_not_mem hpart', ← ih, List.count_cons_of_ne
      hreplacement, Nat.zero_add]

/-- Nothing that begins a character goes past an ASCII byte. -/
theorem prefix_of_ascii {longer front more : List UInt8} {d : UInt8} (hd : d.toNat < 0x80)
    (hlonger : ∀ b ∈ longer, 0x80 ≤ b.toNat) (h : longer <+: front ++ d :: more) :
    longer <+: front := by
  obtain hfront | ⟨later, rfl⟩ := List.prefix_or_prefix_of_prefix h (List.prefix_append front _)
  · exact hfront
  · rw [List.prefix_append_right_inj] at h
    cases later with
    | nil => simp
    | cons b later =>
      obtain ⟨rfl, -⟩ := List.cons_prefix_cons.mp h
      exact absurd (by simp) (ascii_not_mem hd hlonger)

/-- A part that encodes nothing does so whatever comes after it from an ASCII byte on. -/
theorem IsInvalidPart.append_ascii {part rest : List UInt8} {d : UInt8} (hd : d.toNat < 0x80)
    (h : IsInvalidPart part rest) (more : List UInt8) :
    IsInvalidPart part (rest ++ d :: more) where
  ne_nil := h.ne_nil
  invalid c hc := by
    refine h.invalid c ?_
    by_cases hascii : c.toNat < 0x80
    · -- One byte, the first of the part.
      obtain ⟨b, part, rfl⟩ := List.exists_cons_of_ne_nil h.ne_nil
      rw [utf8EncodeChar_of_lt hascii] at hc ⊢
      simpa using hc
    · rw [← List.append_assoc] at hc
      exact prefix_of_ascii hd (le_of_mem_utf8EncodeChar (Nat.le_of_not_lt hascii)) hc
  isOpen := h.isOpen
  longest longer hopen hlonger := by
    rw [← List.append_assoc] at hlonger
    exact h.longest longer hopen (prefix_of_ascii hd hopen.le_of_mem hlonger)

/-- What stands before an ASCII character and what stands after it are decoded by themselves. -/
theorem LossyDecoding.append_ascii {d : Char} (hd : d.toNat < 0x80) {bytes more : List UInt8}
    {text moreText : List Char} (h : LossyDecoding bytes text)
    (hmore : LossyDecoding more moreText) :
    LossyDecoding (bytes ++ UInt8.ofNat d.toNat :: more) (text ++ d :: moreText) := by
  induction h with
  | nil =>
    have hchar := LossyDecoding.char d hmore
    rwa [utf8EncodeChar_of_lt hd] at hchar
  | char c _ ih =>
    rw [List.append_assoc]
    exact .char c ih
  | invalid hpart _ ih =>
    rw [List.append_assoc]
    exact .invalid (hpart.append_ascii (by rwa [toNat_asciiByte hd]) more) ih

theorem decodeUtf8_append_ascii {d : Char} (hd : d.toNat < 0x80) (bytes more : List UInt8) :
    decodeUtf8 (bytes ++ UInt8.ofNat d.toNat :: more) =
      decodeUtf8 bytes ++ d :: decodeUtf8 more :=
  ((lossyDecoding_iff.mpr rfl).append_ascii hd (lossyDecoding_iff.mpr rfl)).eq_decodeUtf8.symm

end LispShell.Text
