set_option autoImplicit false

/-!
# Reads

Input is read a line at a time.  A read gives a text and a status, and a text may come with any
status: the last line of a file without a line break arrives together with the end of the stream,
and a read that fails may have got part of its line.

A source, to whoever reads from it, is the list of the reads that it will give.  When the list is
used up every further read gives the end of the stream and no text.
-/

namespace LispShell

/-- Why a read failed. -/
inductive ReadError where
  | other
  | brokenPipe
  | notFound
  | permissionDenied
  | timedOut
  | unexpectedEnd
  | interrupted
  | invalidData
  | isDirectory
  deriving DecidableEq, Repr, Inhabited

/-- The wording of a failure. -/
def ReadError.description : ReadError → String
  | .other => "other error"
  | .brokenPipe => "broken pipe"
  | .notFound => "entity not found"
  | .permissionDenied => "permission denied"
  | .timedOut => "timed out"
  | .unexpectedEnd => "unexpected end of file"
  | .interrupted => "operation interrupted"
  | .invalidData => "invalid data"
  | .isDirectory => "is a directory"

/-- How a read ended. -/
inductive ReadStatus where
  /-- a line was read -/
  | ok
  /-- the user interrupted the input while the line was being read -/
  | interrupted
  | endOfStream
  | failed (e : ReadError)
  deriving DecidableEq, Repr, Inhabited

/-- The outcome of asking for a line. -/
structure Read where
  text : List Char
  status : ReadStatus
  deriving DecidableEq, Repr, Inhabited

namespace Read

/-! ## Scripted reads -/

/-- The text with a line break at its end, added if there is none. -/
def terminated (text : List Char) : List Char :=
  if text.getLast? = some '\n' then text else text ++ ['\n']

/-- A complete line. -/
def line (text : List Char) : Read := ⟨terminated text, .ok⟩

/-- The user interrupts the input. -/
def interrupt : Read := ⟨[], .interrupted⟩

/-- A failure without text. -/
def fail (e : ReadError) : Read := ⟨[], .failed e⟩

/-- A text that arrives together with the end of the stream. -/
def last (text : List Char) : Read := ⟨text, .endOfStream⟩

/-! ## Reading from a list of reads -/

/-- The next read, and the reads after it. -/
def next : List Read → Read × List Read
  | [] => (last [], [])
  | read :: reads => (read, reads)

/-! ## The lines of a text -/

/-- The reads that give a text line by line; `line` holds the characters since the last line break,
newest first. -/
def linesFrom (line : List Char) : List Char → List Read
  | [] => if line.isEmpty then [] else [last line.reverse]
  | c :: text =>
    if c = '\n' then ⟨(c :: line).reverse, .ok⟩ :: linesFrom [] text else linesFrom (c :: line) text

/-- The reads that give a text line by line.  A text after the last line break arrives with the end
of the stream. -/
def ofText (text : List Char) : List Read :=
  linesFrom [] text

/-- The reads of a text give it in full. -/
theorem linesFrom_flatMap_text (text line : List Char) :
    (linesFrom line text).flatMap Read.text = line.reverse ++ text := by
  induction text generalizing line with
  | nil =>
    cases line with
    | nil => simp [linesFrom]
    | cons c line => simp [linesFrom, last]
  | cons c text ih =>
    simp only [linesFrom]
    split
    · simp [ih]
    · rw [ih]; simp

/-- The reads of a text give it in full. -/
theorem flatMap_text_ofText (text : List Char) : (ofText text).flatMap Read.text = text := by
  simp [ofText, linesFrom_flatMap_text]

end Read

end LispShell
