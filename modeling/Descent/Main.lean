import Descent.Report

/-!
# The command line

`json` reads a JSON text from standard input and prints it again; `tally` counts the digits of the
list it is given.
-/

namespace Descent

/-- The characters of a text; a surrogate becomes the replacement character. -/
def Text.toOutput (t : Text) : String :=
  String.ofList (t.map fun u => if isSurrogate u then '\uFFFD' else Char.ofNat u)

/-- Why a run stopped. -/
def Stop.message : Stop → Text
  | fault f => f.message
  | exhausted => .ofString "too many steps"
  | unknownCell => .ofString "no such deferred parser"

/-- Prints a report, or why there is none. -/
def printReport : Except Stop Text → IO UInt32
  | .ok report => do
    IO.print report.toOutput
    return 0
  | .error stop => do
    IO.eprintln stop.message.toOutput
    return 1

/-- Does what the arguments ask for. -/
def perform : List String → IO UInt32
  | "json" :: _ => do
    let text ← (← IO.getStdin).readToEnd
    printReport (Report.json (.ofString text))
  | "tally" :: text :: _ => printReport (Report.tally (.ofString text))
  | ["tally"] => printReport (Report.tally Report.sampleList)
  | _ => do
    IO.eprintln "usage: json | tally [LIST]"
    return 2

end Descent

/-- The command line. -/
def main (arguments : List String) : IO UInt32 :=
  Descent.perform arguments
