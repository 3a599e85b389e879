import LispShell.Proofs.Comments

set_option autoImplicit false

/-!
# The places of a logical text

Every character of the logical text is one of the text, but for the line break that is added at the
end.  `places` says which.  A carriage return that is dropped and a continuation leave gaps between
the places, and nothing changes the order.

The line break that is added stands at the end of the text, after its last character.  So the
logical text has the characters of its places in the text with a line break at the end.
-/

namespace LispShell.Lexer

/-! ## Places and lines -/

/-- The places of the characters that a line leaves, for a line that begins at `start`: those of the
line without the backslash that continues it, or with the line break after it. -/
def linePlaces (start : Nat) (line : List Char) : List Nat :=
  let body := lineBody line
  if (body.reverse.takeWhile (· == '\\')).length % 2 = 1 then
    List.range' start body.dropLast.length
  else List.range' start body.length ++ [start + line.length]

/-- The places of the characters that lines leave when they are put together, the first of which
begins at `start`. -/
def placesFrom (start : Nat) : List (List Char) → List Nat
  | [] => []
  | [last] => List.range' start (last.length + 1)
  | line :: lines => linePlaces start line ++ placesFrom (start + line.length + 1) lines

/-- The places in the text of the characters of its logical text. -/
def places (text : List Char) : List Nat :=
  placesFrom 0 (text.splitOn '\n')

/-- The number of the line that a place of the text is in. -/
def lineAt (text : List Char) (place : Nat) : Nat :=
  1 + (text.take place).count '\n'

theorem placesFrom_cons (start : Nat) (line : List Char) {lines : List (List Char)}
    (h : lines ≠ []) :
    placesFrom start (line :: lines) =
      linePlaces start line ++ placesFrom (start + line.length + 1) lines := by
  cases lines with
  | nil => exact absurd rfl h
  | cons next lines => rfl

theorem length_linePlaces (start : Nat) (line : List Char) :
    (linePlaces start line).length = (joinedLine line).length := by
  unfold linePlaces joinedLine
  rw [← lineBody]
  dsimp only
  split
  · exact List.length_range'
  · simp

/-- The places of a line lie between its beginning and its end. -/
theorem mem_linePlaces {start place : Nat} {line : List Char} (h : place ∈ linePlaces start line) :
    start ≤ place ∧ place ≤ start + line.length := by
  have hbody := (lineBody_prefix_self line).length_le
  have hdropped := (List.dropLast_prefix (lineBody line)).length_le
  unfold linePlaces at h
  dsimp only at h
  split at h
  · rw [List.mem_range'_1] at h
    omega
  · rw [List.mem_append, List.mem_range'_1, List.mem_singleton] at h
    omega

theorem le_of_mem_placesFrom {place : Nat} {lines : List (List Char)} :
    ∀ {start : Nat}, place ∈ placesFrom start lines → start ≤ place := by
  induction lines with
  | nil =>
    intro start h
    cases h
  | cons line lines ih =>
    intro start h
    cases lines with
    | nil =>
      rw [placesFrom, List.mem_range'_1] at h
      exact h.1
    | cons next lines =>
      rw [placesFrom_cons start line (List.cons_ne_nil _ _), List.mem_append] at h
      rcases h with h | h
      · exact (mem_linePlaces h).1
      · have hle := ih h
        omega

/-! ## The order of the places -/

theorem pairwise_linePlaces (start : Nat) (line : List Char) :
    (linePlaces start line).Pairwise (· < ·) := by
  have hbody := (lineBody_prefix_self line).length_le
  unfold linePlaces
  dsimp only
  split
  · exact List.pairwise_lt_range'
  · refine List.pairwise_append.mpr
      ⟨List.pairwise_lt_range', List.pairwise_singleton _ _, fun place hplace last hlast => ?_⟩
    rw [List.mem_range'_1] at hplace
    rw [List.mem_singleton] at hlast
    omega

theorem pairwise_placesFrom (lines : List (List Char)) :
    ∀ start, (placesFrom start lines).Pairwise (· < ·) := by
  induction lines with
  | nil => exact fun _ => List.Pairwise.nil
  | cons line lines ih =>
    intro start
    cases lines with
    | nil => exact List.pairwise_lt_range'
    | cons next lines =>
      rw [placesFrom_cons start line (List.cons_ne_nil _ _)]
      refine List.pairwise_append.mpr
        ⟨pairwise_linePlaces start line, ih _, fun place hplace later hlater => ?_⟩
      have hend := (mem_linePlaces hplace).2
      have hbegin := le_of_mem_placesFrom hlater
      omega

/-- The characters of the logical text come in the order of the text. -/
theorem pairwise_places (text : List Char) : (places text).Pairwise (· < ·) :=
  pairwise_placesFrom _ 0

/-! ## The characters at the places -/

theorem map_getElem?_range' (before line after : List Char) :
    (List.range' before.length line.length).map ((before ++ line ++ after)[·]?) =
      line.map some := by
  induction line generalizing before with
  | nil => rfl
  | cons c line ih =>
    have hcons : before ++ c :: line ++ after = before ++ [c] ++ line ++ after := by simp
    have hnext := ih (before ++ [c])
    rw [List.length_append, List.length_singleton] at hnext
    rw [List.length_cons, List.range'_succ, List.map_cons, List.map_cons, hcons, hnext]
    simp

/-- A line has the characters that it leaves at their places. -/
theorem map_getElem?_linePlaces (before line after : List Char) :
    (linePlaces before.length line).map ((before ++ line ++ '\n' :: after)[·]?) =
      (joinedLine line).map some := by
  obtain ⟨dropped, hline⟩ := lineBody_prefix_self line
  unfold linePlaces joinedLine
  rw [← lineBody]
  dsimp only
  -- What the line leaves begins it, and what is dropped goes to the text after it.
  split
  · obtain ⟨slash, hbody⟩ := List.dropLast_prefix (lineBody line)
    have hmap := map_getElem?_range' before (lineBody line).dropLast
      (slash ++ dropped ++ '\n' :: after)
    rwa [List.append_assoc before, ← List.append_assoc _ (slash ++ dropped),
      ← List.append_assoc _ slash, hbody, hline, ← List.append_assoc before] at hmap
  · have hmap := map_getElem?_range' before (lineBody line) (dropped ++ '\n' :: after)
    rw [List.append_assoc before, ← List.append_assoc _ dropped, hline, ← List.append_assoc] at hmap
    rw [List.map_append, List.map_append, hmap]
    simp

theorem map_getElem?_placesFrom (lines : List (List Char)) :
    ∀ before : List Char,
      (placesFrom before.length lines).map
          (fun place => (before ++ lines.flatMap (· ++ ['\n']))[place]?) =
        (joinLines lines).map some := by
  induction lines with
  | nil => exact fun _ => rfl
  | cons line lines ih =>
    intro before
    cases lines with
    | nil =>
      have hmap := map_getElem?_range' before (line ++ ['\n']) []
      rw [List.append_nil, List.length_append] at hmap
      rwa [List.flatMap_singleton]
    | cons next lines =>
      have hnext := ih (before ++ line ++ ['\n'])
      have hline := map_getElem?_linePlaces before line ((next :: lines).flatMap (· ++ ['\n']))
      rw [placesFrom_cons _ line (List.cons_ne_nil _ _), joinLines_cons line (List.cons_ne_nil _ _),
        List.map_append, List.map_append, ← hline, ← hnext]
      simp [Nat.add_assoc]

theorem flatMap_splitOnPPrepend (text : List Char) :
    ∀ line : List Char, (text.splitOnPPrepend (· == '\n') line).flatMap (· ++ ['\n']) =
      line.reverse ++ text ++ ['\n'] := by
  induction text with
  | nil =>
    intro line
    simp
  | cons c text ih =>
    intro line
    rw [List.splitOnPPrepend_cons_eq_if]
    split
    · rename_i hbreak
      rw [← List.splitOnPPrepend_nil_right, List.flatMap_cons, ih, beq_iff_eq.mp hbreak]
      simp
    · rw [ih]
      simp

theorem flatMap_splitOn (text : List Char) :
    (text.splitOn '\n').flatMap (· ++ ['\n']) = text ++ ['\n'] :=
  flatMap_splitOnPPrepend text []

/-- The logical text has the characters of the text, with a line break at its end, that stand at the
places. -/
theorem map_getElem?_places (text : List Char) :
    (places text).map ((text ++ ['\n'])[·]?) = (logicalText text).map some := by
  have hmap := map_getElem?_placesFrom (text.splitOn '\n') []
  rwa [List.nil_append, flatMap_splitOn] at hmap

theorem length_places (text : List Char) : (places text).length = (logicalText text).length := by
  simpa using congrArg List.length (map_getElem?_places text)

/-! ## The lines of the characters -/

/-- The numbers of the lines that the characters of the logical text stand in. -/
def lineNumbers (text : List Char) : List Nat :=
  (places text).map (lineAt text)

theorem length_lineNumbers (text : List Char) :
    (lineNumbers text).length = (logicalText text).length := by
  rw [lineNumbers, List.length_map, length_places]

theorem lineAt_mono (text : List Char) {place later : Nat} (h : place ≤ later) :
    lineAt text place ≤ lineAt text later :=
  Nat.add_le_add_left ((List.take_sublist_take_left h).count_le '\n') 1

/-- The lines come in the order of the text. -/
theorem pairwise_lineNumbers (text : List Char) : (lineNumbers text).Pairwise (· ≤ ·) :=
  List.pairwise_map.mpr ((pairwise_places text).imp fun h => lineAt_mono text (Nat.le_of_lt h))

theorem le_of_mem_lineNumbers {text : List Char} {number : Nat} (h : number ∈ lineNumbers text) :
    number ≤ 1 + text.count '\n' := by
  obtain ⟨place, -, rfl⟩ := List.mem_map.mp h
  exact Nat.add_le_add_left ((List.take_sublist place text).count_le '\n') 1

/-- A part of the text without a line break is in one line, with the line break after it. -/
theorem lineAt_append {before line after : List Char} (h : '\n' ∉ line) {place : Nat}
    (hbegin : before.length ≤ place) (hend : place ≤ before.length + line.length) :
    lineAt (before ++ line ++ after) place = before.count '\n' + 1 := by
  obtain ⟨n, rfl⟩ := Nat.exists_eq_add_of_le hbegin
  have htake : (before ++ line ++ after).take (before.length + n) = before ++ line.take n := by
    rw [List.append_assoc, List.take_length_add_append, List.take_append_of_le_length (by omega)]
  have hnone : (line.take n).count '\n' = 0 :=
    List.count_eq_zero.mpr fun hmem => h (List.mem_of_mem_take hmem)
  rw [lineAt, htake, List.count_append, hnone]
  omega

theorem map_lineAt_linePlaces {before line : List Char} (h : '\n' ∉ line) (after : List Char) :
    (linePlaces before.length line).map (lineAt (before ++ line ++ after)) =
      List.replicate (joinedLine line).length (before.count '\n' + 1) := by
  rw [List.map_eq_replicate_iff.mpr, length_linePlaces]
  intro place hplace
  obtain ⟨hbegin, hend⟩ := mem_linePlaces hplace
  exact lineAt_append h hbegin hend

theorem map_lineAt_range' {before line : List Char} (h : '\n' ∉ line) :
    (List.range' before.length (line.length + 1)).map (lineAt (before ++ line)) =
      List.replicate (line.length + 1) (before.count '\n' + 1) := by
  rw [List.map_eq_replicate_iff.mpr, List.length_range']
  intro place hplace
  rw [List.mem_range'_1] at hplace
  have hline : lineAt (before ++ line ++ []) place = before.count '\n' + 1 :=
    lineAt_append h hplace.1 (by omega)
  rwa [List.append_nil] at hline

end LispShell.Lexer
