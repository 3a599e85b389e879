import LispShell.Proofs.Lexer
import LispShell.Proofs.Scan
import Mathlib.Logic.Basic

set_option autoImplicit false

/-!
# The logical text of a line

What a line leaves is decided at its end.  So a part in front of the end goes over as it is, and the
lines of a text leave what `Lexer.joinedLine` says, which looks at a line from its front.
-/

namespace LispShell.Line

/-! ## A line in two parts -/

theorem isContinued_cons (c : Char) (reversed : List Char) :
    isContinued (c :: reversed) = (c == '\\' && !isContinued reversed) := by
  unfold isContinued
  rw [List.takeWhile_cons]
  split
  · rename_i hslash
    rw [hslash, List.length_cons, Bool.true_and, Bool.eq_iff_iff]
    simp only [beq_iff_eq, Bool.not_eq_true', beq_eq_false_iff_ne]
    omega
  · rename_i hslash
    simp [hslash]

theorem isContinued_of_head?_ne {before : List Char} (h : before.head? ≠ some '\\') :
    isContinued before = false := by
  cases before with
  | nil => rfl
  | cons c before =>
    have hc : c ≠ '\\' := by simpa using h
    simp [isContinued_cons, hc]

/-- An even number of backslashes in front of a text changes nothing. -/
theorem isContinued_append {reversed before : List Char} (h : isContinued before = false) :
    isContinued (reversed ++ before) = isContinued reversed := by
  induction reversed with
  | nil => exact h
  | cons c reversed ih => rw [List.cons_append, isContinued_cons, isContinued_cons, ih]

theorem splice_append {reversed before : List Char} (h : isContinued before = false) :
    splice (reversed ++ before) = splice reversed ++ before := by
  unfold splice
  rw [isContinued_append h]
  split
  · rename_i hcontinued
    cases reversed with
    | nil => simp [isContinued] at hcontinued
    | cons c reversed => rfl
  · rfl

theorem dropReturn_append {reversed before : List Char} (h : before.head? ≠ some '\r') :
    dropReturn (reversed ++ before) = dropReturn reversed ++ before := by
  cases reversed with
  | nil =>
    cases before with
    | nil => rfl
    | cons c before =>
      have hc : c ≠ '\r' := by simpa using h
      simp [dropReturn, hc]
  | cons c reversed =>
    by_cases hc : c = '\r'
    · simp [dropReturn, hc]
    · simp [dropReturn, hc]

/-- A text without line breaks goes over as it is. -/
theorem logical_of_not_mem {text : List Char} (h : '\n' ∉ text) : logical text = text := by
  unfold logical
  split
  · rename_i reversed hreverse
    have hmem : '\n' ∈ text.reverse := by simp [hreverse]
    exact absurd (List.mem_reverse.mp hmem) h
  · rfl

/-- Without a carriage return a line leaves what its text is spliced to. -/
theorem logical_break {line : List Char} (h : line.head? ≠ some '\r') :
    logical ('\n' :: line).reverse = (splice line).reverse := by
  have hkept : dropReturn ([] ++ line) = [] ++ line := dropReturn_append h
  rw [List.nil_append] at hkept
  unfold logical
  rw [List.reverse_reverse]
  change (splice (dropReturn line)).reverse = _
  rw [hkept]

/-- No character comes into a line but from its text. -/
theorem mem_of_mem_logical {c : Char} {text : List Char} (h : c ∈ logical text) : c ∈ text := by
  unfold logical at h
  split at h
  · rename_i reversed hreversed
    have hsplice : splice (dropReturn reversed) ⊆ '\n' :: dropReturn reversed := by
      unfold splice
      split
      · exact fun _ hd => List.mem_cons_of_mem _ (List.mem_of_mem_tail hd)
      · exact List.Subset.refl _
    have hdrop : dropReturn reversed ⊆ reversed := by
      unfold dropReturn
      split
      · exact List.subset_cons_self _ _
      · exact List.Subset.refl _
    rw [← List.mem_reverse, hreversed]
    rcases List.mem_cons.mp (hsplice (List.mem_reverse.mp h)) with rfl | hc
    · exact List.mem_cons_self
    · exact List.mem_cons_of_mem _ (hdrop hc)
  · exact h

/-- The end of a line decides what the line leaves.  What comes before goes over as it is, if the
backslashes at its end are even in number. -/
theorem logical_append_of_even {u v : List Char} (hbreak : '\n' ∉ u)
    (heven : isContinued u.reverse = false) (hreturn : u.getLast? ≠ some '\r') :
    logical (u ++ v) = u ++ logical v := by
  rw [← List.head?_reverse] at hreturn
  cases hv : v.reverse with
  | nil =>
    obtain rfl := List.reverse_eq_nil_iff.mp hv
    simpa [logical] using logical_of_not_mem hbreak
  | cons c reversed =>
    unfold logical
    rw [List.reverse_append, hv, List.cons_append]
    rcases eq_or_ne c '\n' with rfl | hc
    · simp only
      rw [dropReturn_append hreturn, splice_append heven, List.reverse_append,
        List.reverse_reverse]
    · simp [hc]

theorem logical_append {u v : List Char} (hbreak : '\n' ∉ u) (hslash : u.getLast? ≠ some '\\')
    (hreturn : u.getLast? ≠ some '\r') : logical (u ++ v) = u ++ logical v := by
  rw [← List.head?_reverse] at hslash
  exact logical_append_of_even hbreak (isContinued_of_head?_ne hslash) hreturn

/-! ## A whole line -/

theorem reverse_splice (body : List Char) :
    (splice body.reverse).reverse =
      if (body.reverse.takeWhile (· == '\\')).length % 2 = 1 then body.dropLast
      else body ++ ['\n'] := by
  unfold splice isContinued
  simp only [beq_iff_eq]
  split
  · rw [List.tail_reverse, List.reverse_reverse]
  · rw [List.reverse_cons, List.reverse_reverse]

theorem dropReturn_reverse (line : List Char) :
    dropReturn line.reverse =
      (if line.getLast? = some '\r' then line.dropLast else line).reverse := by
  rw [← List.head?_reverse]
  cases hline : line.reverse with
  | nil => simpa [dropReturn] using hline
  | cons c reversed =>
    rcases eq_or_ne c '\r' with rfl | hc
    · rw [List.head?_cons, if_pos rfl, ← List.tail_reverse, hline]
      rfl
    · rw [List.head?_cons, if_neg (by simpa using hc), hline]
      simp [dropReturn, hc]

/-- A line that ends in a line break leaves what the line in front of it joins to. -/
theorem logical_line (line : List Char) : logical (line ++ ['\n']) = Lexer.joinedLine line := by
  unfold logical Lexer.joinedLine
  rw [List.reverse_append]
  change (splice (dropReturn line.reverse)).reverse = _
  rw [dropReturn_reverse, reverse_splice]

end LispShell.Line
