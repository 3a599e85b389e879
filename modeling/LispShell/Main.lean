import LispShell.CommandLine

set_option autoImplicit false

/-!
# The program

The outer layer: it takes the arguments, opens the input, runs the command line on it and prints
what comes out.
-/

namespace LispShell

/-- All that arrives on an open stream until it is at its end or fails. -/
partial def arrivals (read : IO ByteArray) : IO ByteStream := do
  try
    let bytes ← read
    if bytes.isEmpty then return []
    return ByteStream.ofBytes bytes.toList ++ (← arrivals read)
  catch _ => return [.failure .other]

/-- Why a file cannot be opened. -/
def openFailure : IO.Error → String
  | .noFileOrDirectory _ _ _ => "No such file or directory (os error 2)"
  | .permissionDenied _ _ _ => "Permission denied (os error 13)"
  | e => toString e

/-- What arrives from a file. -/
def openFile (path : String) : IO (Except String ByteStream) := do
  try
    let handle ← IO.FS.Handle.mk path .read
    return .ok (← arrivals (handle.read 8192))
  catch e => return .error (openFailure e)

end LispShell

open LispShell CommandLine in
/-- Runs the program and gives its exit code. -/
def main (words : List String) : IO UInt32 := do
  let request := Request.ofArguments words
  let file ←
    match request with
    | .dump (.file path) _ => openFile path
    | _ => pure (.ok [])
  let input ←
    match request with
    | .dump .standardInput _ =>
      let stream ← IO.getStdin
      arrivals (stream.read 8192)
    | _ => pure []
  let outcome := run (fun _ => file) input request
  (← IO.getStdout).putStr outcome.output
  (← IO.getStderr).putStr outcome.errors
  return if outcome.failed then 1 else 0
