import LispShell.Proofs.Run

set_option autoImplicit false

/-!
# Scanning in parts

The characters at hand may be a part only of the text that is scanned.  This module says what
scanning a part has to do with scanning the whole.

Inside single quotes the last line break at hand is held as an escape, so the result depends on
where the part ends.  `scanText` takes every line break for the last one; it does not depend on
that, and it agrees with `scan` on characters that have a line break nowhere but at their end.
-/

namespace LispShell.ScanState

/-! ## More characters -/

/-- What scanning comes to if these characters follow: where it ran dry it goes on with them. -/
def Progress.extend (p : Progress) (more : List Char) (next : Mode → List Char → Progress) :
    Progress :=
  match p with
  | .dry mode held => next mode held
  | .complete kind text rest => .complete kind text (rest ++ more)
  | .rejected rest => .rejected (rest ++ more)

/-- The characters that are left. -/
def Progress.rest : Progress → List Char
  | .dry _ _ => []
  | .complete _ _ rest => rest
  | .rejected rest => rest

/-- Characters without a line break scan the same whether or not others follow. -/
theorem scan_append (previous : Option TokenKind) (more : List Char) {text : List Char} :
    ∀ mode held, '\n' ∉ text → scan previous mode held (text ++ more) =
      (scan previous mode held text).extend more fun mode held => scan previous mode held more := by
  induction text with
  | nil => intro mode held _; rfl
  | cons c rest ih =>
    intro mode held hbreak
    rw [List.mem_cons, not_or] at hbreak
    obtain ⟨hc, hrest⟩ := hbreak
    have hhold : hold mode c (rest ++ more) held = hold mode c rest held := by
      simp [hold, Ne.symm hc]
    rw [List.cons_append, scan, scan, hhold]
    split
    · exact ih _ _ hrest
    · exact ih _ _ hrest
    · split
      · exact ih _ _ hrest
      · rfl
    · rfl
    · rfl
    · rfl

/-- What scanning comes to is all that the answer depends on. -/
theorem scanRest_eq_of_scan_eq {s : ScanState} {mode : Mode} {held rest : List Char}
    (h : scan s.previous s.mode s.held s.rest = scan s.previous mode held rest) :
    s.scanRest = ({ s with mode, held, rest } : ScanState).scanRest := by
  unfold scanRest
  rw [h]
  cases scan s.previous mode held rest with
  | dry mode held => rfl
  | complete kind text rest => rfl
  | rejected rest => rfl

/-! ## Scanning a whole text -/

/-- Scans a text in which every line break ends the characters at hand. -/
def scanText (previous : Option TokenKind) (mode : Mode) (held : List Char) :
    List Char → Progress
  | [] => .dry mode held
  | c :: rest =>
    match mode.move c with
    | .take next => scanText previous next (hold mode c [] held) rest
    | .skip => scanText previous .start [] rest
    | .lineBreak =>
      if previous.any TokenKind.continuesLine then scanText previous .start [] rest
      else .complete .newline [c] rest
    | .close kind => .complete kind (c :: held).reverse rest
    | .closeBefore kind => .complete kind held.reverse (c :: rest)
    | .reject => .rejected (c :: rest)

/-- The two differ in what is held, and not in what is left. -/
theorem rest_scan_eq (previous : Option TokenKind) (text : List Char) :
    ∀ mode held held', (scan previous mode held text).rest =
      (scanText previous mode held' text).rest := by
  induction text with
  | nil => intro mode held held'; rfl
  | cons c rest ih =>
    intro mode held held'
    rw [scan, scanText]
    cases mode.move c with
    | take next => exact ih _ _ _
    | skip => exact ih _ _ _
    | lineBreak =>
      dsimp only
      split
      · exact ih _ _ _
      · rfl
    | close kind => rfl
    | closeBefore kind => rfl
    | reject => rfl

/-- Scanning leaves an end of what there was. -/
theorem rest_scanText_suffix (previous : Option TokenKind) (text : List Char) :
    ∀ mode held, (scanText previous mode held text).rest <:+ text := by
  induction text with
  | nil => intro mode held; exact List.nil_suffix
  | cons c rest ih =>
    intro mode held
    rw [scanText]
    split
    · exact (ih _ _).trans (List.suffix_cons c rest)
    · exact (ih _ _).trans (List.suffix_cons c rest)
    · split
      · exact (ih _ _).trans (List.suffix_cons c rest)
      · exact List.suffix_cons c rest
    · exact List.suffix_cons c rest
    · exact List.suffix_refl _
    · exact List.suffix_refl _

theorem rest_scan_suffix (previous : Option TokenKind) (mode : Mode) (held text : List Char) :
    (scan previous mode held text).rest <:+ text := by
  rw [rest_scan_eq previous text mode held held]
  exact rest_scanText_suffix previous text mode held

/-- Characters with a line break nowhere but at their end. -/
def IsLine (text : List Char) : Prop :=
  '\n' ∉ text.dropLast

theorem IsLine.of_suffix {text rest : List Char} (h : IsLine text) (hrest : rest <:+ text) :
    IsLine rest := by
  obtain ⟨front, rfl⟩ := hrest
  intro hmem
  apply h
  cases rest with
  | nil => simp at hmem
  | cons c rest =>
    rw [List.dropLast_append_cons]
    exact List.mem_append_right front hmem

theorem scan_eq_scanText (previous : Option TokenKind) {text : List Char} :
    ∀ mode held, IsLine text →
      scan previous mode held text = scanText previous mode held text := by
  induction text with
  | nil => intro mode held _; rfl
  | cons c rest ih =>
    intro mode held hline
    have hrest : IsLine rest := hline.of_suffix (List.suffix_cons c rest)
    have hhold : hold mode c rest held = hold mode c [] held := by
      cases rest with
      | nil => rfl
      | cons d rest =>
        have hc : c ≠ '\n' := by
          rintro rfl
          exact hline (by simp)
        simp [hold, hc]
    rw [scan, scanText, hhold]
    cases mode.move c with
    | take next => exact ih _ _ hrest
    | skip => exact ih _ _ hrest
    | lineBreak => simp only [ih _ _ hrest]
    | close kind => rfl
    | closeBefore kind => rfl
    | reject => rfl

theorem scanText_append (previous : Option TokenKind) (more text : List Char) :
    ∀ mode held, scanText previous mode held (text ++ more) =
      (scanText previous mode held text).extend more
        fun mode held => scanText previous mode held more := by
  induction text with
  | nil => intro mode held; rfl
  | cons c rest ih =>
    intro mode held
    rw [List.cons_append, scanText, scanText]
    split
    · exact ih _ _
    · exact ih _ _
    · split
      · exact ih _ _
      · rfl
    · rfl
    · rfl
    · rfl

end LispShell.ScanState
