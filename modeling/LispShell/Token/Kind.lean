set_option autoImplicit false

/-!
# Kinds of tokens

A token is punctuation, a literal, an operator or a control token.  Every kind has a number under
which a grammar knows it: punctuation the code of its character, the end of the input 0, and the
others consecutive numbers from `firstNamedId` on, past every character.

An operator has a spelling in the source and a canonical name, and `operators` lists both.
-/

namespace LispShell

/-! ## Kinds -/

/-- What a token is. -/
inductive TokenKind where
  -- punctuation, a character each
  | newline
  | percent
  | leftParen
  | rightParen
  | semicolon
  | atSign
  /-- the grave accent -/
  | backtick
  | leftBrace
  | rightBrace
  | colon
  -- literals
  | symbol
  /-- a symbol with braces in it, such as `a{b,c}` -/
  | braceExpansion
  | singleQuoted
  | doubleQuoted
  /-- double-quoted text with an exclamation mark in front -/
  | bangDouble
  -- operators
  | background
  | andThen
  | orElse
  | pipe
  | redirect
  | substitute
  | cons
  -- control
  /-- the user interrupted the input -/
  | interrupt
  | endOfInput
  deriving DecidableEq, Repr, Inhabited

namespace TokenKind

/-- The name of a kind, as the display form of a token gives it. -/
def name : TokenKind → String
  | .newline => "Newline"
  | .percent => "Percent"
  | .leftParen => "LParen"
  | .rightParen => "RParen"
  | .semicolon => "Semicolon"
  | .atSign => "At"
  | .backtick => "Backtick"
  | .leftBrace => "LBrace"
  | .rightBrace => "RBrace"
  | .colon => "Colon"
  | .symbol => "Symbol"
  | .braceExpansion => "BraceExpansion"
  | .singleQuoted => "SingleQuoted"
  | .doubleQuoted => "DoubleQuoted"
  | .bangDouble => "BangDouble"
  | .background => "Background"
  | .andThen => "AndF"
  | .orElse => "OrF"
  | .pipe => "Pipe"
  | .redirect => "Redirect"
  | .substitute => "Substitute"
  | .cons => "Cons"
  | .interrupt => "Interrupt"
  | .endOfInput => "End"

/-- All kinds, in the order of their declaration. -/
def all : List TokenKind :=
  [.newline, .percent, .leftParen, .rightParen, .semicolon, .atSign, .backtick, .leftBrace,
    .rightBrace, .colon, .symbol, .braceExpansion, .singleQuoted, .doubleQuoted, .bangDouble,
    .background, .andThen, .orElse, .pipe, .redirect, .substitute, .cons, .interrupt, .endOfInput]

/-- The list of all kinds misses none. -/
theorem mem_all (k : TokenKind) : k ∈ all := by
  cases k <;> decide

/-- The character that punctuation stands for. -/
def char? : TokenKind → Option Char
  | .newline => some '\n'
  | .percent => some '%'
  | .leftParen => some '('
  | .rightParen => some ')'
  | .semicolon => some ';'
  | .atSign => some '@'
  | .backtick => some '\x60'
  | .leftBrace => some '{'
  | .rightBrace => some '}'
  | .colon => some ':'
  | _ => none

/-- The number of the first kind that is no single character. -/
def firstNamedId : Nat := 57346

/-- The number under which a grammar knows a kind. -/
def id (k : TokenKind) : Nat :=
  match k with
  | .endOfInput => 0
  | .symbol => firstNamedId
  | .braceExpansion => firstNamedId + 1
  | .singleQuoted => firstNamedId + 2
  | .doubleQuoted => firstNamedId + 3
  | .bangDouble => firstNamedId + 4
  | .background => firstNamedId + 5
  | .andThen => firstNamedId + 6
  | .orElse => firstNamedId + 7
  | .pipe => firstNamedId + 8
  | .redirect => firstNamedId + 9
  | .substitute => firstNamedId + 10
  | .cons => firstNamedId + 11
  | .interrupt => firstNamedId + 12
  | k => (k.char?.map Char.toNat).getD 0

/-- Different kinds have different numbers. -/
theorem id_injective {j k : TokenKind} (h : j.id = k.id) : j = k := by
  cases j <;> cases k <;> first | rfl | exact absurd h (by decide)

/-- The kinds whose text is the canonical name of an operator. -/
def isOperator : TokenKind → Bool
  | .background | .andThen | .orElse | .pipe | .redirect | .substitute => true
  | _ => false

/-- After a token of this kind a line break does not end the statement. -/
def continuesLine : TokenKind → Bool
  | .orElse | .andThen | .pipe | .redirect => true
  | _ => false

/-- Only operators continue a line. -/
theorem isOperator_of_continuesLine {k : TokenKind} (h : k.continuesLine = true) :
    k.isOperator = true := by
  cases k <;> simp_all [continuesLine, isOperator]

end TokenKind

/-! ## Operators -/

/-- The spellings of the operators with their canonical names. -/
def operators : List (String × String) :=
  [("!>", "redirect-stderr"),
    ("!>>", "append-stderr"),
    ("!|", "pipe-stderr"),
    ("!|+", "channel-stderr"),
    ("&", "spawn"),
    ("&&", "and"),
    ("<", "redirect-stdin"),
    ("<(", "substitute-stdout"),
    (">", "redirect-stdout"),
    (">(", "substitute-stdin"),
    (">>", "append-stdout"),
    ("|", "pipe-stdout"),
    ("|+", "channel-stdout"),
    ("||", "or")]

/-- The canonical name of an operator's spelling. -/
def operatorName? (spelling : String) : Option String :=
  operators.lookup spelling

/-- No two operators share a spelling or a name. -/
theorem operators_nodup :
    (operators.map (·.1)).Nodup ∧ (operators.map (·.2)).Nodup := by
  decide

end LispShell
