import Forthlet.Options
import Forthlet.Prompt
import Forthlet.SelfCheck

/-!
# The program as a whole

The arguments choose between help, the self checks and the prompt. With the
verbose switch every record of the journal becomes a line of the error output.
-/
namespace Forthlet.CommandLine

/-- More steps than any run can make in practice, and still a machine word. -/
def stepBudget : Nat := 4611686018427387904

structure Outcome where
  exit : Nat
  stdout : String
  stderr : String
  deriving DecidableEq, Repr

def logLine (r : Record) : String :=
  "rforth: DEBUG: " ++ r.message ++ "\n"

def log (verbose : Bool) (journal : List Record) : String :=
  if verbose then String.join (journal.map logLine) else ""

def check (fuel : Nat) (verbose : Bool) (checks : List Check) : Outcome :=
  let verdicts := SelfCheck.run fuel checks
  ⟨SelfCheck.exitCode verdicts, SelfCheck.summary verdicts,
    log verbose (verdicts.flatMap (·.journal.toList))⟩

/-- The whole run for given arguments and given input up to its end. -/
def run (fuel : Nat) (arguments : List String) (input : List Prompt.Input) : Outcome :=
  match Options.parse arguments with
  | .help => ⟨0, Options.help, ""⟩
  | .misuse what => ⟨2, "", Options.misuse what⟩
  | .run settings =>
    if settings.test then check fuel settings.verbose SelfCheck.standard
    else
      let (shown, e) :=
        Prompt.transcript { maxDepth := settings.maxDepth } fuel Engine.fresh input
      ⟨0, Prompt.banner ++ shown, log settings.verbose e.journal.toList⟩

end Forthlet.CommandLine
