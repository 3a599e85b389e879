import LispShell.Input.Read
import LispShell.Scanner.Line
import LispShell.Scanner.Mode
import LispShell.Token.Basic

set_option autoImplicit false

/-!
# The scanner

A scanner gives the tokens of a shell's input one at a time.  It asks its source for a line only
when it has used up what it has, so a token may span lines: quoted text, a comment, or anything
before a line break that a backslash continues.

Of the input it keeps two pieces: `held`, the characters of the token it is in the middle of, and
`rest`, the characters that come next.  A call of `nextToken` first scans `rest`.  If that gives
neither a token nor a fault, it reads lines until one does, or until the input ends.

* An interrupted read drops everything that is held and gives an `interrupt` token.
* A failed read is tried again, once, if the scanner has a collaborator that can take the terminal
  back and this one did; otherwise it ends the input, like the end of the stream, and the call gives
  the failure.
* At the end of the input a line break is added, to end the last statement.

Everything that a call does besides giving its result is listed in `Reply.events`.
-/

namespace LispShell

/-! ## Faults and events -/

/-- Why a call gave no token. -/
inductive Fault where
  /-- a `<` that is not followed by `(` -/
  | unexpected (line : Nat)
  /-- the input ended inside quotes -/
  | unterminated (line : Nat)
  /-- a read failed -/
  | read (e : ReadError)
  deriving DecidableEq, Repr, Inhabited

/-- The wording of a fault. -/
def Fault.message : Fault → String
  | .unexpected line => "line " ++ String.ofList (Nat.toDigits 10 line) ++ ": unexpected '<'"
  | .unterminated line =>
    "line " ++ String.ofList (Nat.toDigits 10 line) ++ ": unterminated quoted text"
  | .read e => "read failed: " ++ e.description

/-- A report to whoever handles errors: which input, which line, and what. -/
structure Report where
  source : String
  line : Nat
  message : String
  deriving DecidableEq, Repr, Inhabited

/-- Something that a scanner does to its surroundings. -/
inductive Event where
  /-- it asks the source for a line -/
  | read
  /-- it asks its collaborator to take the terminal back, and gets this answer -/
  | reclaim (taken : Bool)
  /-- it reports an error -/
  | report (report : Report)
  deriving DecidableEq, Repr, Inhabited

/-! ## States -/

/-- What a scanner remembers between two calls, apart from its source. -/
structure ScanState where
  /-- the name of the input in reports -/
  name : String
  /-- the answers that the collaborator will give, after which it always refuses; `none` if there is
  no collaborator -/
  foreground : Option (List Bool)
  /-- the characters of the token at hand, newest first -/
  held : List Char
  /-- the characters that come next -/
  rest : List Char
  /-- the number of lines read -/
  line : Nat
  mode : Mode
  /-- the kind of the token given last -/
  previous : Option TokenKind
  /-- no line will be read any more -/
  finished : Bool
  deriving DecidableEq, Repr, Inhabited

/-- A scanner: its state, and the reads that its source will give. -/
structure Scanner extends ScanState where
  reads : List Read
  deriving DecidableEq, Repr, Inhabited

/-- A result, with the state after it and what was done besides. -/
structure Answer where
  result : Except Fault Token
  state : ScanState
  events : List Event
  deriving Inhabited

/-- The outcome of a call: its result, the scanner after it, and what was done besides. -/
structure Reply where
  result : Except Fault Token
  scanner : Scanner
  events : List Event
  deriving Inhabited

/-- The outcome of a call that leaves these reads to the source. -/
def Answer.toReply (a : Answer) (reads : List Read) : Reply :=
  ⟨a.result, { a.state with reads }, a.events⟩

/-- The same outcome after some earlier events. -/
def Reply.after (events : List Event) (r : Reply) : Reply :=
  { r with events := events ++ r.events }

namespace ScanState

/-- The state before anything was read. -/
def initial (name : String) (foreground : Option (List Bool)) : ScanState where
  name := name
  foreground := foreground
  held := []
  rest := []
  line := 0
  mode := .start
  previous := none
  finished := false

/-- Drops all text and begins anew; what was read stays counted, and an input that has ended stays
ended. -/
def reset (s : ScanState) : ScanState :=
  { s with held := [], rest := [], mode := .start, previous := none }

/-- The report of an error at the line at hand. -/
def reportHere (s : ScanState) (message : String) : Event :=
  .report ⟨s.name, s.line, message⟩

/-! ## Scanning what was read -/

/-- A character joins what is held.  The last line break that was read, inside single quotes, is
held as an escape, so that the quoted text can go on in the next line. -/
def hold (mode : Mode) (c : Char) (rest held : List Char) : List Char :=
  if mode == .singleQuoted && c == '\n' && rest.isEmpty then 'n' :: '\\' :: held else c :: held

/-- What scanning the characters at hand comes to. -/
inductive Progress where
  /-- they are used up -/
  | dry (mode : Mode) (held : List Char)
  /-- a token of this kind and text is complete -/
  | complete (kind : TokenKind) (text rest : List Char)
  /-- a `<` begins nothing -/
  | rejected (rest : List Char)
  deriving DecidableEq, Repr, Inhabited

/-- Scans characters in a mode, with a token of kind `previous` before them.  A line break after a
token that continues the line is passed over. -/
def scan (previous : Option TokenKind) (mode : Mode) (held : List Char) : List Char → Progress
  | [] => .dry mode held
  | c :: rest =>
    match mode.move c with
    | .take next => scan previous next (hold mode c rest held) rest
    | .skip => scan previous .start [] rest
    | .lineBreak =>
      if previous.any TokenKind.continuesLine then scan previous .start [] rest
      else .complete .newline [c] rest
    | .close kind => .complete kind (c :: held).reverse rest
    | .closeBefore kind => .complete kind held.reverse (c :: rest)
    | .reject => .rejected (c :: rest)

/-! ## Giving tokens -/

/-- The kind of a complete token: a symbol with braces is a brace by itself or a brace expansion. -/
def refinedKind (kind : TokenKind) (text : List Char) : TokenKind :=
  if kind = .symbol ∧ (text.contains '{' ∨ text.contains '}') then
    if text = ['{'] then .leftBrace
    else if text = ['}'] then .rightBrace
    else .braceExpansion
  else kind

/-- The text of a complete token: an operator goes by its canonical name. -/
def canonicalText (kind : TokenKind) (text : List Char) : String :=
  let spelling := String.ofList text
  if kind.isOperator then (operatorName? spelling).getD spelling else spelling

/-- The state after a token of this kind was given. -/
def afterToken (s : ScanState) (kind : TokenKind) (rest : List Char) : ScanState :=
  { s with held := [], rest, mode := .start, previous := some kind }

/-- Scans the characters at hand: on the right the answer that they give, on the left the state with
no characters left. -/
def scanRest (s : ScanState) : ScanState ⊕ Answer :=
  match scan s.previous s.mode s.held s.rest with
  | .dry mode held => .inl { s with mode, held, rest := [] }
  | .complete kind text rest =>
    let refined := refinedKind kind text
    .inr
      { result := .ok ⟨refined, canonicalText kind text, s.line⟩
        state := s.afterToken refined rest
        events := [] }
  | .rejected rest =>
    .inr
      { result := .error (.unexpected s.line)
        state := { s with held := [], rest, mode := .start }
        events := [s.reportHere "unexpected '<' (expected '<(')"] }

/-- The end of the input, with no characters left: a fault if it is inside quotes, and then
`endOfInput` for ever. -/
def finish (s : ScanState) : Answer :=
  if s.mode.isQuoted then
    { result := .error (.unterminated s.line)
      state := s.reset
      events := [s.reportHere "unterminated quoted text"] }
  else
    { result := .ok (.control .endOfInput s.line)
      state := { s with held := [], mode := .start, previous := none }
      events := [] }

/-! ## Reading lines -/

/-- The state after a line was read into it; `ended` tells that it is the last. -/
def fill (s : ScanState) (text : List Char) (ended : Bool) : ScanState :=
  { s with
    line := s.line + 1
    rest := Line.logical text ++ (if ended then ['\n'] else [])
    finished := s.finished || ended }

/-- Asks the collaborator, if there is one, to take the terminal back: its answer and the state
after it. -/
def reclaim (s : ScanState) : Option (Bool × ScanState) :=
  s.foreground.map fun
    | [] => (false, s)
    | taken :: answers => (taken, { s with foreground := some answers })

/-- Scans the characters at hand after the last read. -/
def conclude (s : ScanState) (reads : List Read) : Reply :=
  match s.scanRest with
  | .inl s => s.finish.toReply reads
  | .inr a => a.toReply reads

/-- The reply to a read that failed for good: the input ends here. -/
def fail (s : ScanState) (text : List Char) (e : ReadError) (reads : List Read) : Reply :=
  Answer.toReply ⟨.error (.read e), s.fill text true, []⟩ reads

/-- Reads lines, with no characters left, until there is a result.  `retried` tells that the read
before failed and is being tried again. -/
def request (s : ScanState) (retried : Bool) : List Read → Reply
  | [] => ((s.fill [] true).conclude []).after [.read]
  | ⟨text, status⟩ :: reads =>
    let r : Reply :=
      match status with
      | .ok =>
        match (s.fill text false).scanRest with
        | .inl s => s.request false reads
        | .inr a => a.toReply reads
      | .interrupted => Answer.toReply ⟨.ok (.control .interrupt s.line), s.reset, []⟩ reads
      | .endOfStream => (s.fill text true).conclude reads
      | .failed e =>
        if retried then s.fail text e reads
        else
          match s.reclaim with
          | none => s.fail text e reads
          | some (taken, s) =>
            (if taken then s.request true reads else s.fail text e reads).after [.reclaim taken]
    r.after [.read]

end ScanState

/-! ## Calls -/

namespace Scanner

/-- A scanner over the given reads. -/
def ofReads (name : String) (reads : List Read) (foreground : Option (List Bool)) : Scanner :=
  { ScanState.initial name foreground with reads }

/-- A scanner over a text. -/
def ofText (name : String) (text : List Char) : Scanner :=
  ofReads name (Read.ofText text) none

/-- The input has ended and all of it was scanned or dropped. -/
def isFinished (s : Scanner) : Bool :=
  s.finished && s.rest.isEmpty

/-- The next token or fault. -/
def nextToken (s : Scanner) : Reply :=
  match s.toScanState.scanRest with
  | .inr a => a.toReply s.reads
  | .inl state =>
    if state.finished then state.finish.toReply s.reads else state.request false s.reads

/-- Drops all text and begins anew. -/
def reset (s : Scanner) : Scanner :=
  { s with toScanState := s.toScanState.reset }

/-- The report of a problem at the line at hand. -/
def report (s : Scanner) (message : String) : Event :=
  s.toScanState.reportHere message

end Scanner

end LispShell
