import Descent.Json.Printer
import Descent.Json.Rules
import Descent.Main
import Descent.Prelude.Callback
import Descent.Prelude.Context
import Descent.Proofs.Json.RoundTrip
import Descent.Proofs.Suffix
import Descent.Proofs.Tracking
import Descent.Report
import Descent.Session.Script
import Descent.Stream.Walk
import Descent.Tally
import Descent.Proofs.Faults
import Descent.Proofs.Neutrality
import Descent.Proofs.Locality
import Descent.Proofs.Sessions
import Descent.Proofs.Scopes
import Descent.Proofs.Traces
import Descent.Proofs.Transcription
import Descent.Proofs.Json.Termination
import Descent.Proofs.Defaults
import Descent.Proofs.BuiltOnce
import Descent.Proofs.Separated
import Descent.Proofs.Repetition
import Descent.Proofs.OneOrMore
import Descent.Proofs.Until
import Descent.Proofs.Alternatives
import Descent.Proofs.Sequencing
import Descent.Proofs.Factoring
import Descent.Proofs.Halting
import Descent.Proofs.Json.Spellings
import Descent.Proofs.Json.Numbers
import Descent.Proofs.Json.Failures
import Descent.Proofs.Tallies
import Descent.Proofs.Matching
import Descent.Proofs.Trimming
import Descent.Proofs.Places
import Descent.Proofs.Escapes
