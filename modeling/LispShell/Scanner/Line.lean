set_option autoImplicit false

/-!
# Physical and logical lines

A physical line ends with a line break, in front of which a carriage return is dropped.  If the line
then ends in an odd number of backslashes, the last of them continues it: it goes together with the
line break, so that the next line follows directly.  Otherwise the line break stays.
-/

namespace LispShell.Line

/-- The text ends in an odd number of backslashes; `reversed` is the text backwards. -/
def isContinued (reversed : List Char) : Bool :=
  (reversed.takeWhile (· == '\\')).length % 2 == 1

/-- What a line whose line break was taken off leaves, backwards: the last backslash goes if it
continues the line, and else the line break comes back. -/
def splice (reversed : List Char) : List Char :=
  if isContinued reversed then reversed.tail else '\n' :: reversed

/-- A text without the carriage return at its end, backwards. -/
def dropReturn : List Char → List Char
  | '\r' :: reversed => reversed
  | reversed => reversed

/-- What a read adds to the logical text. -/
def logical (text : List Char) : List Char :=
  match text.reverse with
  | '\n' :: reversed => (splice (dropReturn reversed)).reverse
  | _ => text

/-- Dropping a carriage return lengthens nothing. -/
theorem length_dropReturn_le (reversed : List Char) :
    (dropReturn reversed).length ≤ reversed.length := by
  unfold dropReturn
  split <;> simp

/-- Splicing adds at most the line break. -/
theorem length_splice_le (reversed : List Char) :
    (splice reversed).length ≤ reversed.length + 1 := by
  unfold splice
  split
  · simp only [List.length_tail]
    omega
  · simp

/-- A read adds no more than its text. -/
theorem length_logical_le (text : List Char) : (logical text).length ≤ text.length := by
  unfold logical
  split
  next reversed h =>
    have hlength := congrArg List.length h
    simp only [List.length_reverse, List.length_cons] at hlength
    have h₁ := length_splice_le (dropReturn reversed)
    have h₂ := length_dropReturn_le reversed
    simp only [List.length_reverse]
    omega
  next => exact Nat.le_refl _

end LispShell.Line
