import LispShell.Token.Kind

set_option autoImplicit false

/-!
# The modes of scanning and their moves

Between two characters the scanner is in a mode, which tells what it is in the middle of.  For a
mode and the next character there is one move: the character joins what is held, is passed over,
ends a token, or stays for the next token.  The table of moves is `Mode.move`; it knows nothing of
buffers, lines or tokens given before.

A move that ends a token without its last character, `closeBefore`, is how operators and symbols
end: by the first character that does not belong to them.
-/

namespace LispShell

/-! ## Modes -/

/-- What the scanner is in the middle of. -/
inductive Mode where
  /-- between tokens -/
  | start
  /-- after `&` -/
  | ampersand
  /-- after `!` -/
  | bang
  /-- inside `!"`, and whether the last character was a backslash that escapes the next -/
  | bangDouble (escaping : Bool)
  /-- after `!>` -/
  | bangGreater
  /-- after `:` -/
  | colon
  /-- inside a comment, and whether its last character was a backslash -/
  | comment (backslash : Bool)
  /-- inside double quotes, and whether the last character was a backslash that escapes the next -/
  | doubleQuoted (escaping : Bool)
  /-- after `>` -/
  | greater
  /-- after `<` -/
  | less
  /-- after `|` or `!|` -/
  | pipe
  /-- inside single quotes -/
  | singleQuoted
  /-- inside a symbol -/
  | symbol
  deriving DecidableEq, Repr, Inhabited

/-- The mode is inside quotes. -/
def Mode.isQuoted : Mode → Bool
  | .bangDouble _ | .doubleQuoted _ | .singleQuoted => true
  | _ => false

/-- The characters that cannot be part of a symbol. -/
def endsSymbol (c : Char) : Bool :=
  ['\n', '%', '&', '\'', '(', ')', ';', '<', '@', '\x60', '|', '\t', ' ', '"', '#', ':',
    '>'].contains c

/-! ## Moves -/

/-- What is done with one character. -/
inductive Move where
  /-- it joins what is held, and the mode changes -/
  | take (next : Mode)
  /-- it is a blank between tokens -/
  | skip
  /-- it is a line break outside quotes; a comment before it is dropped -/
  | lineBreak
  /-- it is the last of a token -/
  | close (kind : TokenKind)
  /-- it comes after the last of a token -/
  | closeBefore (kind : TokenKind)
  /-- it comes after a `<` that begins nothing -/
  | reject
  deriving DecidableEq, Repr, Inhabited

namespace Mode

/-- The move on the first character of a token. -/
def firstMove (c : Char) : Move :=
  match c with
  | '\n' => .lineBreak
  | '\t' => .skip
  | ' ' => .skip
  | '%' => .close .percent
  | '(' => .close .leftParen
  | ')' => .close .rightParen
  | ';' => .close .semicolon
  | '@' => .close .atSign
  | '\x60' => .close .backtick
  | '}' => .close .rightBrace
  | '!' => .take .bang
  | '"' => .take (.doubleQuoted false)
  | '#' => .take (.comment false)
  | '&' => .take .ampersand
  | '\'' => .take .singleQuoted
  | ':' => .take .colon
  | '<' => .take .less
  | '>' => .take .greater
  | '|' => .take .pipe
  | _ => .take .symbol

/-- The move inside a symbol. -/
def symbolMove (c : Char) : Move :=
  if endsSymbol c then .closeBefore .symbol else .take .symbol

/-- The move inside double quotes, which lead to `kind` and which `inside` is the mode of. -/
def quotedMove (kind : TokenKind) (inside : Bool → Mode) (escaping : Bool) (c : Char) : Move :=
  if escaping then .take (inside false)
  else if c = '"' then .close kind
  else .take (inside (c = '\\'))

/-- The move of a mode on a character. -/
def move (m : Mode) (c : Char) : Move :=
  match m with
  | .start => firstMove c
  | .ampersand => if c = '&' then .close .andThen else .closeBefore .background
  | .bang =>
    if c = '"' then .take (.bangDouble false)
    else if c = '>' then .take .bangGreater
    else if c = '|' then .take .pipe
    else symbolMove c
  | .bangDouble escaping => quotedMove .bangDouble .bangDouble escaping c
  | .bangGreater => if c = '>' then .close .redirect else .closeBefore .redirect
  | .colon => if c = ':' then .close .cons else .closeBefore .colon
  | .comment backslash =>
    if c = '\n' && !backslash then .lineBreak else .take (.comment (c = '\\'))
  | .doubleQuoted escaping => quotedMove .doubleQuoted .doubleQuoted escaping c
  | .greater =>
    if c = '(' then .close .substitute
    else if c = '>' then .close .redirect
    else .closeBefore .redirect
  | .less => if c = '(' then .close .substitute else .reject
  | .pipe =>
    if c = '+' then .close .pipe
    else if c = '|' then .close .orElse
    else .closeBefore .pipe
  | .singleQuoted => if c = '\'' then .close .singleQuoted else .take .singleQuoted
  | .symbol => symbolMove c

/-! ## Properties of the table -/

/-- Between tokens there is nothing to close or to reject without its last character. -/
theorem firstMove_consumes (c : Char) :
    (∀ kind, firstMove c ≠ .closeBefore kind) ∧ firstMove c ≠ .reject := by
  unfold firstMove
  split <;> simp

end Mode

end LispShell
