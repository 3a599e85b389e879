set_option autoImplicit false

/-!
# Texts and their bytes

Two views of a text as bytes are needed.

* Input arrives as bytes and is decoded as UTF-8.  Decoding never fails: each maximal run of bytes
  that begins a character but does not complete it, and each byte that can begin none, gives one
  replacement character.  The decoder is an automaton that takes one byte at a time; what it still
  waits for is its `Pending` state.
* Quoted tokens are cut at byte offsets.  `sliceBytes?` cuts a text there, and refuses offsets out
  of order, past the end, or inside a character.
-/

namespace LispShell.Text

/-! ## Decoding -/

/-- What the decoder waits for between two bytes. -/
inductive Pending where
  /-- the first byte of a character -/
  | first
  /-- `more + 1` further bytes of a character whose bits so far are `code`; the next of them lies
  between `low` and `high` -/
  | inside (more : Nat) (low high : UInt8) (code : Nat)
  deriving DecidableEq, Repr, Inhabited

/-- The character that stands for bytes which decode to nothing. -/
def replacement : Char := '\ufffd'

/-- The first byte of a character: the characters it completes, and what is waited for next.  The
bounds on the second byte exclude overlong forms, surrogates and codes past the last one. -/
def decodeFirst (b : UInt8) : List Char × Pending :=
  let bits := b.toNat
  if b < 0x80 then ([Char.ofNat bits], .first)
  else if b < 0xC2 then ([replacement], .first)
  else if b < 0xE0 then ([], .inside 0 0x80 0xBF (bits - 0xC0))
  else if b == 0xE0 then ([], .inside 1 0xA0 0xBF 0)
  else if b == 0xED then ([], .inside 1 0x80 0x9F 0xD)
  else if b < 0xF0 then ([], .inside 1 0x80 0xBF (bits - 0xE0))
  else if b == 0xF0 then ([], .inside 2 0x90 0xBF 0)
  else if b < 0xF4 then ([], .inside 2 0x80 0xBF (bits - 0xF0))
  else if b == 0xF4 then ([], .inside 2 0x80 0x8F 4)
  else ([replacement], .first)

/-- One more byte: the characters it completes, and what is waited for next.  A byte that cannot
continue the open character ends it, unfinished, and is taken as a first byte. -/
def decodeByte (p : Pending) (b : UInt8) : List Char × Pending :=
  match p with
  | .first => decodeFirst b
  | .inside more low high code =>
    if low ≤ b && b ≤ high then
      let code := 64 * code + (b.toNat - 0x80)
      match more with
      | 0 => ([Char.ofNat code], .first)
      | more + 1 => ([], .inside more 0x80 0xBF code)
    else
      let next := decodeFirst b
      (replacement :: next.1, next.2)

/-- What the end of the input adds: one replacement if a character was open. -/
def decodeEnd : Pending → List Char
  | .first => []
  | .inside _ _ _ _ => [replacement]

/-- The characters of the bytes from a given state on; `done` holds the characters decoded before,
newest first. -/
def decodeOnto (p : Pending) (done : List Char) : List UInt8 → List Char
  | [] => done.reverse ++ decodeEnd p
  | b :: bytes =>
    let next := decodeByte p b
    decodeOnto next.2 (next.1.reverseAux done) bytes

/-- The text that the bytes encode, with a replacement character for each part that encodes
nothing. -/
def decodeUtf8 (bytes : List UInt8) : List Char :=
  decodeOnto .first [] bytes

/-- The characters already decoded are a common front of every decoding. -/
theorem decodeOnto_eq_append (bytes : List UInt8) (p : Pending) (done : List Char) :
    decodeOnto p done bytes = done.reverse ++ decodeOnto p [] bytes := by
  induction bytes generalizing p done with
  | nil => simp [decodeOnto]
  | cons b bytes ih =>
    simp only [decodeOnto]
    rw [ih, ih _ ((decodeByte p b).1.reverseAux [])]
    simp [List.reverseAux_eq]

/-- One byte in front of a decoding: its characters come first. -/
theorem decodeOnto_cons (p : Pending) (b : UInt8) (bytes : List UInt8) :
    decodeOnto p [] (b :: bytes) =
      (decodeByte p b).1 ++ decodeOnto (decodeByte p b).2 [] bytes := by
  rw [decodeOnto, decodeOnto_eq_append]
  simp [List.reverseAux_eq]

/-! ## Cutting at byte offsets -/

/-- The number of bytes of the text. -/
def byteLength : List Char → Nat
  | [] => 0
  | c :: text => c.utf8Size + byteLength text

/-- The text after its first `n` bytes, if a character ends there. -/
def dropBytes? : Nat → List Char → Option (List Char)
  | 0, text => some text
  | _ + 1, [] => none
  | n + 1, c :: text => if c.utf8Size ≤ n + 1 then dropBytes? (n + 1 - c.utf8Size) text else none

/-- The first `n` bytes of the text, if a character ends there. -/
def takeBytes? : Nat → List Char → Option (List Char)
  | 0, _ => some []
  | _ + 1, [] => none
  | n + 1, c :: text =>
    if c.utf8Size ≤ n + 1 then (takeBytes? (n + 1 - c.utf8Size) text).map (c :: ·) else none

/-- The part of the text between two byte offsets, if both are ends of characters in this order. -/
def sliceBytes? (low high : Nat) (text : List Char) : Option (List Char) :=
  if low ≤ high then (dropBytes? low text).bind (takeBytes? (high - low)) else none

end LispShell.Text
