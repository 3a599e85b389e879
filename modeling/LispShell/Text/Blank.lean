set_option autoImplicit false

/-!
# Blank characters

Numbers and other values are read from text whose ends may carry blanks.  Which characters are
blank is the Unicode property `White_Space`: twenty-five characters, most of them outside ASCII, so
core's `Char.isWhitespace` is too narrow.  This module holds the property as a decidable predicate
and the function that removes blanks from both ends of a text.

A text is a `List Char` here and in every module below: a `String` is taken apart once, where it
enters, and put together once, where it leaves.
-/

namespace LispShell.Text

/-! ## The property -/

/-- The characters with the Unicode property `White_Space`. -/
def isBlank (c : Char) : Bool :=
  let n := c.toNat
  (0x09 ≤ n && n ≤ 0x0D) || n == 0x20 || n == 0x85 || n == 0xA0 || n == 0x1680 ||
    (0x2000 ≤ n && n ≤ 0x200A) || n == 0x2028 || n == 0x2029 || n == 0x202F || n == 0x205F ||
    n == 0x3000

/-! ## Removing blanks from the ends -/

/-- The text without the blanks it begins with. -/
def trimStart (text : List Char) : List Char :=
  text.dropWhile isBlank

/-- The text without the blanks it ends with. -/
def trimEnd (text : List Char) : List Char :=
  (text.reverse.dropWhile isBlank).reverse

/-- The text without the blanks at its two ends; blanks inside it stay. -/
def trim (text : List Char) : List Char :=
  trimEnd (trimStart text)

/-- A text that begins with no blank loses nothing at its beginning. -/
theorem trimStart_cons_of_not_blank {c : Char} {text : List Char} (h : isBlank c = false) :
    trimStart (c :: text) = c :: text := by
  simp [trimStart, h]

end LispShell.Text
