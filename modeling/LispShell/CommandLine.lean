import LispShell.Input.ByteStream
import LispShell.Scanner.Drain

set_option autoImplicit false

/-!
# The command line

The program prints the tokens of shell input, a line for each: the number of the line that the token
ended on, the token and, if asked for, the value of a literal.  Errors go to the error output and do
not stop it; it ends with the `endOfInput` token, and its exit tells whether there were errors.

The arguments choose the input: a text given on the command line goes before a file, and a file
before standard input.  Of several files the last counts.
-/

namespace LispShell.CommandLine

/-! ## Arguments -/

/-- What the arguments say. -/
structure Arguments where
  text : Option String
  file : Option String
  literals : Bool
  help : Bool
  version : Bool
  deriving DecidableEq, Repr, Inhabited

/-- No arguments. -/
def noArguments : Arguments := ⟨none, none, false, false, false⟩

/-- Reads arguments on top of those read before.  What follows `-c` is the text, however it looks;
other options that are not known are passed over. -/
def readArguments (a : Arguments) : List String → Arguments
  | [] => a
  | "-c" :: rest =>
    match rest with
    | [] => a
    | words => { a with text := some (" ".intercalate words) }
  | word :: rest =>
    readArguments
      (if word = "-l" ∨ word = "--literals" then { a with literals := true }
        else if word = "--help" ∨ word = "-h" then { a with help := true }
        else if word = "--version" ∨ word = "-V" then { a with version := true }
        else if word.toList.head? = some '-' then a
        else { a with file := some word })
      rest

/-- Where the shell input comes from. -/
inductive Input where
  | text (text : String)
  | file (path : String)
  | standardInput
  deriving DecidableEq, Repr, Inhabited

/-- What the program is to do. -/
inductive Request where
  | help
  | version
  | dump (input : Input) (literals : Bool)
  deriving DecidableEq, Repr, Inhabited

/-- What the arguments ask for. -/
def Request.ofArguments (words : List String) : Request :=
  let a := readArguments noArguments words
  if a.help then .help
  else if a.version then .version
  else
    let input : Input :=
      match a.text, a.file with
      | some text, _ => .text text
      | none, some path => .file path
      | none, none => .standardInput
    .dump input a.literals

/-! ## Output -/

/-- What a run of the program leaves behind. -/
structure Outcome where
  output : String
  errors : String
  failed : Bool
  deriving DecidableEq, Repr, Inhabited

/-- The line that is printed for a token, without its line break. -/
def tokenLine (literals : Bool) (t : Token) : String :=
  let front := String.ofList (Nat.toDigits 10 t.line) ++ "\t" ++ t.display
  match t.literal? with
  | some l => if literals then front ++ "\t=> " ++ l.render else front
  | none => front

/-- The line that a report is printed as, without its line break. -/
def reportLine (r : Report) : String :=
  r.source ++ ":" ++ String.ofList (Nat.toDigits 10 r.line) ++ ": " ++ r.message

/-- Each text ended by a line break. -/
def unlines (texts : List String) : String :=
  String.join (texts.map (· ++ "\n"))

/-- The tokens that some calls gave. -/
def tokensOf (replies : List Reply) : List Token :=
  replies.filterMap fun r => r.result.toOption

/-- The reports that some calls made. -/
def reportsOf (replies : List Reply) : List Report :=
  (replies.flatMap Reply.events).filterMap fun
    | .report r => some r
    | _ => none

/-- All tokens of a scanner, printed. -/
def dump (literals : Bool) (s : Scanner) : Outcome :=
  let replies := s.drain
  { output := unlines ((tokensOf replies).map (tokenLine literals))
    errors := unlines ((reportsOf replies).map reportLine)
    failed := replies.any fun r => !r.result.isOk }

/-! ## Running -/

/-- The name and the version of the program. -/
def versionText : String := "cellsh-scan 0.1.0"

/-- The help text. -/
def helpText : String :=
  versionText ++ " - print the tokens of shell input

USAGE:
    cellsh-scan                 Scan stdin
    cellsh-scan -c <text>       Scan the given text
    cellsh-scan <file>          Scan a file
    cellsh-scan -l, --literals  Also print the value of literal tokens
    cellsh-scan --help          Show this help message
    cellsh-scan --version       Show version

ENVIRONMENT:
    CELLSH_PROMPT               Interactive prompt (default \"> \")
    CELLSH_HISTORY              History file (default ~/.cellsh_history)
    RUST_LOG                    Log filter, e.g. cellsh=debug"

/-- A run of the program.  `file` is what opening a file gives, what arrives from it or the reason
why it cannot be opened, and `standardInput` is what arrives there.  A text given on the command
line is read from its bytes like the others. -/
def run (file : String → Except String ByteStream) (standardInput : ByteStream) :
    Request → Outcome
  | .help => ⟨unlines [helpText], "", false⟩
  | .version => ⟨unlines [versionText], "", false⟩
  | .dump (.text text) literals =>
    dump literals (Scanner.ofReads "-c" (ByteStream.ofBytes text.toUTF8.data.toList).lines none)
  | .dump (.file path) literals =>
    match file path with
    | .ok stream => dump literals (Scanner.ofReads path stream.lines none)
    | .error reason => ⟨"", unlines ["cellsh-scan: " ++ path ++ ": " ++ reason], true⟩
  | .dump .standardInput literals =>
    dump literals (Scanner.ofReads "stdin" standardInput.lines none)

end LispShell.CommandLine
