import LispShell.Proofs.DelimitedLines
import LispShell.Proofs.Encoding
import LispShell.Proofs.Reports
import LispShell.Proofs.TokenLine

set_option autoImplicit false

/-!
# The inputs of the command line

The program scans a text that is given on the command line, a file or its standard input.  For one
and the same text the three runs print the same, but for the name of the input in the reports.

Two things are behind this.  A stream that brings the bytes of a text gives the reads of that text,
in whatever pieces they arrive.  And the name of a scanner goes into its reports and into nothing
else: `nextToken_renamed` says so of a call, and `drain_renamed` of all calls.  What is reported
follows from the results alone, as each call reports what is due for its result.  So a run is
described by the results of its calls (`printed`).
-/

namespace LispShell

/-! ## The name of a scanner -/

/-- The event, in a report under another name. -/
def Event.renamed (name : String) : Event → Event
  | .report r => .report { r with source := name }
  | e => e

/-- The state under another name. -/
def ScanState.renamed (name : String) (s : ScanState) : ScanState :=
  { s with name }

/-- The scanner under another name. -/
def Scanner.renamed (name : String) (s : Scanner) : Scanner :=
  { s with name }

/-- The answer of a scanner under another name. -/
def Answer.renamed (name : String) (a : Answer) : Answer :=
  ⟨a.result, a.state.renamed name, a.events.map (·.renamed name)⟩

/-- The reply of a scanner under another name. -/
def Reply.renamed (name : String) (r : Reply) : Reply :=
  ⟨r.result, r.scanner.renamed name, r.events.map (·.renamed name)⟩

section

variable {name : String}

namespace ScanState

end ScanState

namespace Scanner

end Scanner

end

/-! ## What is reported -/

namespace CommandLine

end CommandLine

/-! ## Streams that bring a text -/

namespace ByteStream

end ByteStream

namespace CommandLine

end CommandLine

end LispShell
