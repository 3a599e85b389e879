import LispShell.Proofs.Journal

set_option autoImplicit false

/-!
# A scanner with a buffer

A scanner can keep its input in one buffer and go through it with two indices: `start`, where the
token at hand begins, and `cursor`, the character that comes next.  A line that is read goes behind
the token at hand, and the indices are counted anew.

In this form nothing keeps the indices inside the buffer but the way in which the scanner goes.  So
every access is checked here, and one beyond the buffer gives `OutOfRange` instead of a character or
a text.

A call goes in turns.  At the head of its loop it completes a token, reads a line or looks at one
character; quoted text is gone through in loops of its own.  `BufferedCall.turn` is one turn, and
`BufferedCall.complete` goes on to the end of the call.  It keeps the calls at the heads of the
loops that it comes past, so that something can be said of every one of them.

`BufferedScanner.view` is the scanner without indices that such a scanner stands for.
-/

namespace LispShell

open ScanState

/-! ## Stages -/

/-- What a scanner with a buffer is in the middle of.  Other than a mode, the stage in a comment
does not tell whether the last character was a backslash: that one is looked up in the buffer. -/
inductive Stage where
  | start
  | ampersand
  | bang
  | bangDouble
  | bangDoubleEscape
  | bangGreater
  | colon
  | comment
  | doubleQuoted
  | doubleQuotedEscape
  | greater
  | less
  | pipe
  | singleQuoted
  | symbol
  deriving DecidableEq, Repr, Inhabited

/-- The loops of a call. -/
inductive Loop where
  /-- the loop of the call itself -/
  | call
  /-- through text in double quotes -/
  | double
  /-- through text in single quotes -/
  | single
  deriving DecidableEq, Repr, Inhabited

/-- What is done with one character; `used` tells that the cursor goes past it. -/
inductive Act where
  | go (next : Stage) (used : Bool)
  /-- a token of this kind is complete -/
  | complete (kind : TokenKind) (used : Bool)
  | enter (loop : Loop)
  /-- it comes after a `<` that begins nothing -/
  | reject
  deriving DecidableEq, Repr, Inhabited

namespace Stage

/-- The stage is inside quotes. -/
def isQuoted : Stage → Bool
  | .bangDouble | .bangDoubleEscape | .doubleQuoted | .doubleQuotedEscape | .singleQuoted => true
  | _ => false

/-- What the first character of a token does. -/
def firstAct (c : Char) : Act :=
  match c with
  | '\n' => .complete .newline true
  | '%' => .complete .percent true
  | '(' => .complete .leftParen true
  | ')' => .complete .rightParen true
  | ';' => .complete .semicolon true
  | '@' => .complete .atSign true
  | '\x60' => .complete .backtick true
  | '}' => .complete .rightBrace true
  | '\t' => .go .start true
  | ' ' => .go .start true
  | '!' => .go .bang true
  | '"' => .go .doubleQuoted true
  | '#' => .go .comment true
  | '&' => .go .ampersand true
  | '\'' => .go .singleQuoted true
  | ':' => .go .colon true
  | '<' => .go .less true
  | '>' => .go .greater true
  | '|' => .go .pipe true
  | _ => .go .symbol false

/-- What a character does in a stage; `escaped` tells that in a comment a backslash comes before. -/
def act (s : Stage) (escaped : Bool) (c : Char) : Act :=
  match s with
  | .start => firstAct c
  | .ampersand => if c = '&' then .complete .andThen true else .complete .background false
  | .bang =>
    if c = '"' then .go .bangDouble true
    else if c = '>' then .go .bangGreater true
    else if c = '|' then .go .pipe true
    else .go .symbol false
  | .bangGreater => .complete .redirect (c = '>')
  | .colon => if c = ':' then .complete .cons true else .complete .colon false
  | .comment => if c = '\n' && !escaped then .go .start false else .go .comment true
  | .bangDouble | .bangDoubleEscape | .doubleQuoted | .doubleQuotedEscape => .enter .double
  | .greater => if c = '(' then .complete .substitute true else .complete .redirect (c = '>')
  | .less => if c = '(' then .complete .substitute true else .reject
  | .pipe =>
    if c = '+' then .complete .pipe true
    else if c = '|' then .complete .orElse true
    else .complete .pipe false
  | .singleQuoted => .enter .single
  | .symbol => if endsSymbol c then .complete .symbol false else .go .symbol true

/-- What a character does in double quotes. -/
def doubleAct (s : Stage) (c : Char) : Act :=
  match s with
  | .bangDoubleEscape => .go .bangDouble true
  | .doubleQuotedEscape => .go .doubleQuoted true
  | s =>
    if c = '"' then .complete (if s = .bangDouble then .bangDouble else .doubleQuoted) true
    else if c = '\\' then
      .go (if s = .bangDouble then .bangDoubleEscape else .doubleQuotedEscape) true
    else .go s true

/-- What a character does in single quotes. -/
def singleAct (c : Char) : Act :=
  if c = '\'' then .complete .singleQuoted true else .go .singleQuoted true

/-- The mode that a stage stands for, with these characters held, newest first. -/
def mode (s : Stage) (held : List Char) : Mode :=
  match s with
  | .start => .start
  | .ampersand => .ampersand
  | .bang => .bang
  | .bangDouble => .bangDouble false
  | .bangDoubleEscape => .bangDouble true
  | .bangGreater => .bangGreater
  | .colon => .colon
  | .comment => .comment (held.head? == some '\\')
  | .doubleQuoted => .doubleQuoted false
  | .doubleQuotedEscape => .doubleQuoted true
  | .greater => .greater
  | .less => .less
  | .pipe => .pipe
  | .singleQuoted => .singleQuoted
  | .symbol => .symbol

end Stage

/-! ## The buffer -/

/-- An access to the buffer that is out of range. -/
inductive OutOfRange where
  | index (i length : Nat)
  | slice (low high length : Nat)
  deriving DecidableEq, Repr, Inhabited

/-- A scanner that goes through a buffer with two indices. -/
structure BufferedScanner where
  name : String
  foreground : Option (List Bool)
  reads : List Read
  buffer : List Char
  /-- where the token at hand begins -/
  start : Nat
  /-- the character that comes next -/
  cursor : Nat
  /-- the number of lines read -/
  line : Nat
  stage : Stage
  /-- the kind of a token that is complete and was not yet given -/
  token : Option TokenKind
  /-- the kind of the token given last -/
  previous : Option TokenKind
  /-- no line will be read any more -/
  finished : Bool
  deriving DecidableEq, Repr, Inhabited

/-- A call for the next token that is under way. -/
structure BufferedCall extends BufferedScanner where
  loop : Loop
  /-- the read before failed and is being tried again -/
  retried : Bool
  deriving DecidableEq, Repr, Inhabited

/-- What a turn of a loop comes to: the call goes on, or it is over. -/
inductive Turn where
  | next (call : BufferedCall) (events : List Event)
  | over (result : Except Fault Token) (scanner : BufferedScanner) (events : List Event)

/-- What a turn does to the surroundings. -/
def Turn.events : Turn → List Event
  | .next _ events | .over _ _ events => events

namespace BufferedScanner

/-- A scanner over the given reads, before anything was read. -/
def ofReads (name : String) (reads : List Read) (foreground : Option (List Bool)) :
    BufferedScanner where
  name := name
  foreground := foreground
  reads := reads
  buffer := []
  start := 0
  cursor := 0
  line := 0
  stage := .start
  token := none
  previous := none
  finished := false

/-- Drops all text and begins anew. -/
def reset (b : BufferedScanner) : BufferedScanner :=
  { b with buffer := [], start := 0, cursor := 0, stage := .start, token := none, previous := none }

/-- The indices are in order and inside the buffer. -/
structure InRange (b : BufferedScanner) : Prop where
  start_le : b.start ≤ b.cursor
  cursor_le : b.cursor ≤ b.buffer.length

/-- The character at an index. -/
def charAt (b : BufferedScanner) (i : Nat) : Except OutOfRange Char :=
  match b.buffer[i]? with
  | some c => .ok c
  | none => .error (.index i b.buffer.length)

theorem charAt_eq_ok_iff {b : BufferedScanner} {i : Nat} {c : Char} :
    b.charAt i = .ok c ↔ b.buffer[i]? = some c := by
  unfold charAt
  cases b.buffer[i]? with
  | none => simp
  | some d => simp

theorem lt_of_charAt {b : BufferedScanner} {i : Nat} {c : Char} (h : b.charAt i = .ok c) :
    i < b.buffer.length :=
  (List.getElem?_eq_some_iff.mp (charAt_eq_ok_iff.mp h)).1

/-- The text from one index up to another. -/
def slice (b : BufferedScanner) (low high : Nat) : Except OutOfRange (List Char) :=
  if low ≤ high ∧ high ≤ b.buffer.length then .ok (b.buffer.extract low high)
  else .error (.slice low high b.buffer.length)

/-- In a comment, the character before the cursor is a backslash. -/
def isEscaped (b : BufferedScanner) : Except OutOfRange Bool :=
  if b.stage = .comment ∧ 0 < b.cursor then do
    let c ← b.charAt (b.cursor - 1)
    return c == '\\'
  else return false

/-- The line break at the end of the buffer is kept as an escape, so that text in single quotes can
go on in the next line. -/
def keepBreak (b : BufferedScanner) : BufferedScanner :=
  if b.buffer.getLast? = some '\n' then
    { b with
      buffer := b.buffer.dropLast ++ ['\\', 'n']
      cursor := (b.buffer.dropLast ++ ['\\', 'n']).length }
  else b

/-- There is a token at hand, and so there is text that a read has to keep. -/
def keepsText (b : BufferedScanner) : Prop :=
  b.stage ≠ .start ∧ b.start < b.cursor

instance (b : BufferedScanner) : Decidable b.keepsText :=
  inferInstanceAs (Decidable (_ ∧ _))

/-- The scanner after a line was read; `ended` tells that it is the last. -/
def fill (b : BufferedScanner) (text : List Char) (ended : Bool) :
    Except OutOfRange BufferedScanner := do
  let kept ← (if b.keepsText then b.slice b.start b.cursor else .ok [])
  return { b with
    buffer := kept ++ (Line.logical text ++ if ended then ['\n'] else [])
    start := 0
    cursor := if b.keepsText then b.cursor - b.start else 0
    line := b.line + 1
    finished := b.finished || ended }

/-! ### The scanner without indices -/

/-- The text of the token at hand. -/
def taken (b : BufferedScanner) : List Char :=
  b.buffer.extract b.start b.cursor

/-- The characters of the token at hand, newest first. -/
def held (b : BufferedScanner) : List Char :=
  if b.stage = .start then [] else b.taken.reverse

/-- The scanner that a scanner with a buffer stands for. -/
def view (b : BufferedScanner) : Scanner where
  name := b.name
  foreground := b.foreground
  held := b.held
  rest := b.buffer.drop b.cursor
  line := b.line
  mode := b.stage.mode b.held
  previous := b.previous
  finished := b.finished
  reads := b.reads

end BufferedScanner

/-! ## Turns -/

namespace BufferedCall

/-- A character that comes between tokens begins one. -/
def begun (p : BufferedCall) : BufferedCall :=
  { p with start := if p.stage = .start then p.cursor else p.start }

/-- Goes past a character that is used. -/
def goPast (p : BufferedCall) (used : Bool) : BufferedCall :=
  { p with cursor := p.cursor + used.toNat }

/-- The turn that an act makes.  A line break after a token that continues the line is passed
over. -/
def perform (p : BufferedCall) (a : Act) : Turn :=
  match a with
  | .go next used => .next { p.begun.goPast used with stage := next } []
  | .complete kind used =>
    if kind = .newline ∧ p.previous.any TokenKind.continuesLine = true then
      .next { p.begun.goPast used with stage := .start } []
    else .next { p.begun.goPast used with token := some kind, loop := .call } []
  | .enter loop => .next { p.begun with loop } []
  | .reject =>
    .over (.error (.unexpected p.line))
      { p.toBufferedScanner with stage := .start, start := p.cursor }
      [.report ⟨p.name, p.line, "unexpected '<' (expected '<(')"⟩]

/-- Looks at the character that comes next. -/
def look (p : BufferedCall) : Except OutOfRange Turn := do
  let c ← p.charAt p.cursor
  let escaped ← p.isEscaped
  return p.perform (p.stage.act escaped c)

/-- Leaves a loop through quoted text, at the end of the buffer. -/
def leave (p : BufferedCall) : BufferedCall :=
  { p with
    toBufferedScanner := if p.loop = .single then p.keepBreak else p.toBufferedScanner
    loop := .call }

/-- A turn of a loop through quoted text. -/
def inside (p : BufferedCall) (act : Char → Act) : Except OutOfRange Turn :=
  if p.cursor < p.buffer.length then do
    let c ← p.charAt p.cursor
    return p.perform (act c)
  else return .next p.leave []

/-- The turn that gives a token of this kind and text. -/
def give (p : BufferedCall) (kind : TokenKind) (text : List Char) : Turn :=
  let refined := refinedKind kind text
  .over (.ok ⟨refined, canonicalText kind text, p.line⟩)
    { p.toBufferedScanner with token := none, stage := .start, previous := some refined } []

/-- The end of the input. -/
def finish (p : BufferedCall) : Turn :=
  if p.stage.isQuoted then
    .over (.error (.unterminated p.line)) p.toBufferedScanner.reset
      [.report ⟨p.name, p.line, "unterminated quoted text"⟩]
  else
    .over (.ok (.control .endOfInput p.line))
      { p.toBufferedScanner with stage := .start, previous := none } []

/-- Asks the collaborator to take the terminal back, unless there is none or the read was tried
again already: its answer and the call after it. -/
def reclaim (p : BufferedCall) : Option (Bool × BufferedCall) :=
  if p.retried then none
  else
    p.foreground.map fun
      | [] => (false, p)
      | taken :: answers => (taken, { p with foreground := some answers })

/-- A read that failed for good ends the input, and the call. -/
def fail (p : BufferedCall) (text : List Char) (e : ReadError) (events : List Event) :
    Except OutOfRange Turn := do
  let b ← p.fill text true
  return .over (.error (.read e)) b events

/-- The turn after a read, which was taken from the source. -/
def afterRead (p : BufferedCall) (text : List Char) (status : ReadStatus) :
    Except OutOfRange Turn :=
  match status with
  | .ok => do
    let b ← p.fill text false
    return .next { p with toBufferedScanner := b, retried := false } [.read]
  | .interrupted =>
    return .over (.ok (.control .interrupt p.line)) p.toBufferedScanner.reset [.read]
  | .endOfStream => do
    let b ← p.fill text true
    return .next { p with toBufferedScanner := b } [.read]
  | .failed e =>
    match p.reclaim with
    | none => p.fail text e [.read]
    | some (true, p) => return .next { p with retried := true } [.read, .reclaim true]
    | some (false, p) => p.fail text e [.read, .reclaim false]

/-- Asks the source for a line. -/
def refill (p : BufferedCall) : Except OutOfRange Turn :=
  let (read, reads) := Read.next p.reads
  { p with reads }.afterRead read.text read.status

/-- One turn of the loop that the call is in. -/
def turn (p : BufferedCall) : Except OutOfRange Turn :=
  match p.loop with
  | .double => p.inside p.stage.doubleAct
  | .single => p.inside Stage.singleAct
  | .call =>
    match p.token with
    | some kind => do
      let text ← p.slice p.start p.cursor
      return p.give kind text
    | none =>
      if p.cursor < p.buffer.length then p.look
      else if p.finished then return p.finish
      else p.refill

end BufferedCall

end LispShell
