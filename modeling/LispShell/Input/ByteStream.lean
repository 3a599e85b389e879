import LispShell.Input.Read
import LispShell.Text.Utf8

set_option autoImplicit false

/-!
# Byte streams

Files and pipes deliver bytes in pieces that have nothing to do with lines, and may fail or pause in
between.  What counts for reading lines is the order in which things arrive: the bytes, the places
where the stream says that it is at its end for now, and the failures.

A line runs up to and including a delimiter byte.  It is decoded by itself, and the reader goes on
by itself after a system call that was interrupted.
-/

namespace LispShell

/-- One thing that arrives on a byte stream. -/
inductive Arrival where
  | byte (b : UInt8)
  /-- the stream says that it is at its end; more may follow later -/
  | pause
  | failure (e : ReadError)
  deriving DecidableEq, Repr, Inhabited

/-- One delivery of the system: some bytes, none of them meaning the end for now, or a failure. -/
inductive Delivery where
  | bytes (bs : List UInt8)
  | failure (e : ReadError)
  deriving DecidableEq, Repr, Inhabited

/-- What is yet to arrive. -/
abbrev ByteStream := List Arrival

namespace ByteStream

/-- What arrives with one delivery. -/
def ofDelivery : Delivery → ByteStream
  | .bytes [] => [.pause]
  | .bytes bs => bs.map .byte
  | .failure e => [.failure e]

/-- What arrives with a sequence of deliveries. -/
def ofDeliveries (deliveries : List Delivery) : ByteStream :=
  deliveries.flatMap ofDelivery

/-- The stream of the given bytes. -/
def ofBytes (bytes : List UInt8) : ByteStream :=
  bytes.map .byte

/-! ## Reading lines -/

/-- The byte that a line ends with.  Only ASCII characters are delimiters; any other stands for the
line break. -/
def delimiterByte (delimiter : Char) : UInt8 :=
  if delimiter.toNat < 128 then UInt8.ofNat delimiter.toNat else 0x0A

/-- The line whose bytes so far are `line`, newest first, and what arrives after it. -/
def readUntil (delimiter : UInt8) (line : List UInt8) : ByteStream → Read × ByteStream
  | [] => (⟨Text.decodeUtf8 line.reverse, .endOfStream⟩, [])
  | .byte b :: rest =>
    if b = delimiter then (⟨Text.decodeUtf8 (b :: line).reverse, .ok⟩, rest)
    else readUntil delimiter (b :: line) rest
  | .pause :: rest => (⟨Text.decodeUtf8 line.reverse, .endOfStream⟩, rest)
  | .failure e :: rest =>
    if e = .interrupted then readUntil delimiter line rest
    else (⟨Text.decodeUtf8 line.reverse, .failed e⟩, rest)

/-- The next line, up to and including the delimiter, and what arrives after it. -/
def readLine (delimiter : Char) (stream : ByteStream) : Read × ByteStream :=
  readUntil (delimiterByte delimiter) [] stream

/-! ## All lines of a stream -/

/-- The reads of all lines when the bytes so far of the first are `line`, newest first. -/
def linesFrom (line : List UInt8) : ByteStream → List Read
  | [] => if line.isEmpty then [] else [⟨Text.decodeUtf8 line.reverse, .endOfStream⟩]
  | .byte b :: rest =>
    if b = 0x0A then ⟨Text.decodeUtf8 (b :: line).reverse, .ok⟩ :: linesFrom [] rest
    else linesFrom (b :: line) rest
  | .pause :: rest => ⟨Text.decodeUtf8 line.reverse, .endOfStream⟩ :: linesFrom [] rest
  | .failure e :: rest =>
    if e = .interrupted then linesFrom line rest
    else ⟨Text.decodeUtf8 line.reverse, .failed e⟩ :: linesFrom [] rest

/-- The reads of all lines of a stream, up to its last arrival. -/
def lines (stream : ByteStream) : List Read :=
  linesFrom [] stream

/-- The list of all lines gives, read by read, what reading from the stream gives. -/
theorem next_linesFrom (line : List UInt8) (stream : ByteStream) :
    Read.next (linesFrom line stream) =
      ((readUntil 0x0A line stream).1, lines (readUntil 0x0A line stream).2) := by
  induction stream generalizing line with
  | nil =>
    cases line with
    | nil => rfl
    | cons b line => simp [linesFrom, readUntil, Read.next, lines]
  | cons arrival rest ih =>
    cases arrival with
    | byte b =>
      simp only [linesFrom, readUntil]
      split
      · rfl
      · exact ih _
    | pause => rfl
    | failure e =>
      simp only [linesFrom, readUntil]
      split
      · exact ih _
      · rfl

/-- The list of all lines gives, read by read, what reading from the stream gives. -/
theorem next_lines (stream : ByteStream) :
    Read.next (lines stream) = ((readLine '\n' stream).1, lines (readLine '\n' stream).2) :=
  next_linesFrom [] stream

end ByteStream

end LispShell
