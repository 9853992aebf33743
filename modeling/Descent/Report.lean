import Descent.Call
import Descent.Json.Printer
import Descent.Json.Rules
import Descent.Tally

/-!
# Reports

What the two commands print: a JSON text read and printed again, and a tally of the digits in a
list.
-/

namespace Descent.Report

/-- Builds a grammar and calls it. -/
def parse (rules : Rules) (g : Grammar) (t : Text) : Except Stop Result :=
  match g.check with
  | .error f => .error (.fault f)
  | .ok p => (p.call rules ampleBudget { input := .value (.text t) }).result

/-- What is printed where a parse fails. -/
def failure (error : Value) : Text :=
  .ofString "Parsing Failed: " ++ error.plain ++ [Text.lineFeed]

/-- The report on a JSON text. -/
def json (t : Text) : Except Stop Text := do
  match ← parse Json.rules Json.value t with
  | .ok _ v _ =>
    return .ofString "Successfully Parsed:" ++ [Text.lineFeed] ++ Json.print 0 v ++ [Text.lineFeed]
  | .err _ e _ => return failure e

/-- The list that is tallied if none is given. -/
def sampleList : Text := .ofString "[1,2,2,9]"

/-- The entries of a context that are not zero. -/
def nonzero : Value → Value
  | .table entries => .table (entries.filter fun e => !e.2.equal (.int 0))
  | c => c

/-- The report on a list of digits. -/
def tally (t : Text) : Except Stop Text := do
  match ← parse (fun _ => none) (Tally.counter none) t with
  | .ok _ v c => return v.shown ++ [32] ++ (nonzero c).shown ++ [Text.lineFeed]
  | .err _ e _ => return failure e

end Descent.Report
