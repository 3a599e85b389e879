import LispShell.Scanner.Mode
import LispShell.Value.Rendering

set_option autoImplicit false

/-!
# Words

A word is a text that is a symbol as it stands: it is not empty, no character of it ends a symbol
and no brace makes it an expansion.  Numbers and booleans are written as words.
-/

namespace LispShell

/-- The character may be anywhere in a symbol and leaves it one. -/
def isWordChar (c : Char) : Bool :=
  !endsSymbol c && c != '{' && c != '}'

/-- The text is a symbol as it stands. -/
structure IsWord (text : List Char) : Prop where
  ne_nil : text ≠ []
  forall_mem : ∀ c ∈ text, isWordChar c = true

theorem IsWord.of_all {text : List Char} (hne : text ≠ []) (h : text.all isWordChar = true) :
    IsWord text :=
  ⟨hne, List.all_eq_true.mp h⟩

theorem isWordChar_of_isDigit {c : Char} (h : c.isDigit = true) : isWordChar c = true := by
  have hne : ∀ d : Char, d.isDigit = false → c ≠ d := by
    rintro d hd rfl
    rw [h] at hd
    cases hd
  simp [isWordChar, endsSymbol, hne]

/-! ## Numbers -/

theorem forall_mem_toDigits (n : Nat) : ∀ c ∈ Nat.toDigits 10 n, isWordChar c = true := by
  intro c hc
  exact isWordChar_of_isDigit (Nat.isDigit_of_mem_toDigits (by decide) (by decide) hc)

theorem isWord_decimalText (n : Int) : IsWord (decimalText n) := by
  have hdigits := forall_mem_toDigits n.natAbs
  unfold decimalText
  split
  · exact ⟨List.cons_ne_nil _ _, List.forall_mem_cons.mpr ⟨rfl, hdigits⟩⟩
  · exact ⟨Nat.toDigits_ne_nil, hdigits⟩

theorem isWord_exactText (r : Rat) : IsWord (Exact.text r) := by
  obtain ⟨hne, hall⟩ := isWord_decimalText r.num
  unfold Exact.text
  split
  · exact ⟨hne, hall⟩
  · refine ⟨List.append_ne_nil_of_left_ne_nil hne _, ?_⟩
    exact List.forall_mem_append.mpr
      ⟨hall, List.forall_mem_cons.mpr ⟨rfl, forall_mem_toDigits r.den⟩⟩

namespace Binary64

theorem forall_mem_digits (d : Decimal) : ∀ c ∈ d.digits, isWordChar c = true := by
  intro c hc
  have hsuffix := List.dropWhile_suffix (l := (Nat.toDigits 10 d.coefficient).reverse) (· == '0')
  have hmem := hsuffix.subset (List.mem_reverse.mp hc)
  exact forall_mem_toDigits d.coefficient c (List.mem_reverse.mp hmem)

theorem forall_mem_replicate_zero (n : Nat) :
    ∀ c ∈ List.replicate n '0', isWordChar c = true := by
  intro c hc
  rw [List.eq_of_mem_replicate hc]
  rfl

theorem isWord_positional {digits : List Char} (h : ∀ c ∈ digits, isWordChar c = true)
    (first : Int) : IsWord (positional digits first) := by
  unfold positional
  cases first with
  | ofNat e =>
    have hwhole : IsWord (digits.take (e + 1) ++ List.replicate (e + 1 - digits.length) '0') := by
      refine ⟨?_, List.forall_mem_append.mpr ⟨?_, forall_mem_replicate_zero _⟩⟩
      · cases digits with
        | nil => exact List.cons_ne_nil _ _
        | cons c digits => exact List.cons_ne_nil _ _
      · intro c hc
        exact h c (List.mem_of_mem_take hc)
    dsimp only
    split
    · exact hwhole
    · refine ⟨List.append_ne_nil_of_left_ne_nil hwhole.ne_nil _, ?_⟩
      refine List.forall_mem_append.mpr ⟨hwhole.forall_mem, List.forall_mem_cons.mpr ⟨rfl, ?_⟩⟩
      intro c hc
      exact h c (List.mem_of_mem_drop hc)
  | negSucc e =>
    refine ⟨List.cons_ne_nil _ _, ?_⟩
    refine List.forall_mem_append.mpr ⟨?_, h⟩
    refine List.forall_mem_cons.mpr ⟨rfl, List.forall_mem_cons.mpr ⟨rfl, ?_⟩⟩
    exact forall_mem_replicate_zero e

theorem isWord_exponential {digits : List Char} (h : ∀ c ∈ digits, isWordChar c = true)
    (first : Int) : IsWord (exponential digits first) := by
  have hsign : isWordChar (if first < 0 then '-' else '+') = true := by
    split
    · rfl
    · rfl
  unfold exponential
  refine ⟨List.append_ne_nil_of_right_ne_nil _ Nat.toDigits_ne_nil, ?_⟩
  refine List.forall_mem_append.mpr ⟨?_, forall_mem_toDigits first.natAbs⟩
  refine List.forall_mem_append.mpr ⟨?_, ?_⟩
  · split
    · obtain ⟨hleading, hmore⟩ := List.forall_mem_cons.mp h
      exact List.forall_mem_cons.mpr ⟨hleading, List.forall_mem_cons.mpr ⟨rfl, hmore⟩⟩
    · exact h
  · refine List.forall_mem_cons.mpr ⟨rfl, List.forall_mem_cons.mpr ⟨hsign, ?_⟩⟩
    exact forall_mem_replicate_zero _

theorem isWord_magnitudeText (rank : Nat) : IsWord (magnitudeText rank) := by
  have hdigits := forall_mem_digits (Decimal.shortest rank)
  unfold magnitudeText
  dsimp only
  split
  · exact isWord_positional hdigits _
  · exact isWord_exponential hdigits _

theorem isWord_text (x : Binary64) : IsWord x.text := by
  cases x with
  | nan => exact .of_all (List.cons_ne_nil _ _) rfl
  | infinite negative =>
    cases negative with
    | false => exact .of_all (List.cons_ne_nil _ _) rfl
    | true => exact .of_all (List.cons_ne_nil _ _) rfl
  | finite negative rank =>
    have hunsigned : IsWord (if rank.val = 0 then ['0'] else magnitudeText rank) := by
      split
      · exact .of_all (List.cons_ne_nil _ _) rfl
      · exact isWord_magnitudeText rank
    unfold text
    dsimp only
    split
    · exact ⟨List.cons_ne_nil _ _, List.forall_mem_cons.mpr ⟨rfl, hunsigned.forall_mem⟩⟩
    · exact hunsigned

end Binary64

end LispShell
