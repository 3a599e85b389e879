set_option autoImplicit false

/-!
# Double-quoted text

A string value is written between double quotes with five escapes: for the newline, the tab, the
carriage return, the backslash and the quote itself.  Reading knows more escapes than writing uses,
and keeps an escape that it does not know as it stands, backslash included.

The main statement is `unescape_escape`: reading back what was written gives the text again.
-/

namespace LispShell.Text

/-! ## Writing -/

/-- One character between the quotes of a written string. -/
def escapeChar (c : Char) : List Char :=
  match c with
  | '\n' => ['\\', 'n']
  | '\t' => ['\\', 't']
  | '\r' => ['\\', 'r']
  | '\\' => ['\\', '\\']
  | '"' => ['\\', '"']
  | c => [c]

/-- The text as it stands between the quotes of a written string. -/
def escape (text : List Char) : List Char :=
  text.flatMap escapeChar

/-- The text as a written string, quotes included. -/
def quote (text : List Char) : List Char :=
  '"' :: escape text ++ ['"']

/-! ## Reading -/

/-- The character that a backslash followed by this character stands for.  The code `'\x60'` is the
grave accent, which opens a command substitution. -/
def escapeValue? : Char → Option Char
  | 'n' => some '\n'
  | 't' => some '\t'
  | 'r' => some '\r'
  | '0' => some '\x00'
  | 'a' => some '\x07'
  | 'e' => some '\x1b'
  | '\\' => some '\\'
  | '"' => some '"'
  | '$' => some '$'
  | '\x60' => some '\x60'
  | _ => none

/-- The text that a quoted text denotes.  An unknown escape and a backslash at the end stay as they
are. -/
def unescape : List Char → List Char
  | '\\' :: c :: rest =>
    match escapeValue? c with
    | some d => d :: unescape rest
    | none => '\\' :: c :: unescape rest
  | c :: rest => c :: unescape rest
  | [] => []

/-- A character other than the backslash stands for itself. -/
theorem unescape_cons_of_ne {c : Char} (h : c ≠ '\\') (rest : List Char) :
    unescape (c :: rest) = c :: unescape rest := by
  rw [unescape.eq_def]
  split
  · simp_all
  · simp_all
  · simp_all

/-- One written character followed by more text reads back as that character. -/
theorem unescape_escapeChar_append (c : Char) (rest : List Char) :
    unescape (escapeChar c ++ rest) = c :: unescape rest := by
  unfold escapeChar
  split
  case h_6 hslash _ => exact unescape_cons_of_ne hslash rest
  all_goals simp [unescape, escapeValue?]

/-- Reading back a written text gives the text. -/
theorem unescape_escape (text : List Char) : unescape (escape text) = text := by
  induction text with
  | nil => simp [escape, unescape]
  | cons c text ih =>
    have step := unescape_escapeChar_append c (escape text)
    rw [ih] at step
    simpa [escape] using step

end LispShell.Text
