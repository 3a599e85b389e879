import LispShell.Scanner.Drain

set_option autoImplicit false

/-!
# Runs of a scanner

A scanner is driven by calls, in any order: for the next token, for a new beginning, or to report an
error that the grammar found.  This module says what can be seen of a run, and it says so in three
degrees of detail.

* `Scanner.run` lists an `Outcome` for every call of a run: the result, what was done besides, the
  number of lines read and whether the input has ended.
* `Scanner.results` lists the results of as many calls for the next token.
* A `Lexeme` is a result without its line number.

Statements about two runs compare one of these lists.
-/

namespace LispShell

/-! ## Results without line numbers -/

/-- What a call for the next token gives, the number of the line apart. -/
inductive Lexeme where
  | token (kind : TokenKind) (text : String)
  /-- a `<` that begins nothing -/
  | unexpected
  /-- the input ended inside quotes -/
  | unterminated
  | readFault (e : ReadError)
  deriving DecidableEq, Repr, Inhabited

/-- A result without its line number. -/
def Lexeme.ofResult : Except Fault Token → Lexeme
  | .ok t => .token t.kind t.text
  | .error (.unexpected _) => .unexpected
  | .error (.unterminated _) => .unterminated
  | .error (.read e) => .readFault e

/-- The result of a call without its line number. -/
def Reply.lexeme (r : Reply) : Lexeme :=
  .ofResult r.result

/-! ## Calls -/

/-- A call of a scanner. -/
inductive Call where
  | nextToken
  | reset
  /-- the grammar reports an error at the line at hand -/
  | report (message : String)
  deriving DecidableEq, Repr, Inhabited

/-- What can be seen of one call: its result, if it is for a token, what was done besides, and what
the scanner says of itself afterwards. -/
structure Outcome where
  result : Option (Except Fault Token)
  events : List Event
  /-- the number of lines read so far -/
  line : Nat
  /-- the input has ended and all of it was scanned or dropped -/
  finished : Bool

namespace Scanner

/-- The scanner after a call. -/
def after (s : Scanner) : Call → Scanner
  | .nextToken => s.nextToken.scanner
  | .reset => s.reset
  | .report _ => s

/-- What can be seen of a call. -/
def outcome (s : Scanner) (c : Call) : Outcome where
  result :=
    match c with
    | .nextToken => some s.nextToken.result
    | .reset | .report _ => none
  events :=
    match c with
    | .nextToken => s.nextToken.events
    | .reset => []
    | .report message => [s.report message]
  line := (s.after c).line
  finished := (s.after c).isFinished

/-- What can be seen of a run of calls. -/
def run (s : Scanner) : List Call → List Outcome
  | [] => []
  | c :: calls => s.outcome c :: (s.after c).run calls

/-- The results of `n` calls for the next token. -/
def results (s : Scanner) : Nat → List (Except Fault Token)
  | 0 => []
  | n + 1 => s.nextToken.result :: s.nextToken.scanner.results n

end Scanner

end LispShell
