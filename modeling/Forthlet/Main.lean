import Forthlet.CommandLine

/-!
# The executable

Reads and writes for the prompt, one line at a time. What is shown and logged
is decided by the pure modules.
-/
namespace Forthlet

partial def converse (settings : Options.Settings) (e : Engine) : IO Unit := do
  let stdout ← IO.getStdout
  let stderr ← IO.getStderr
  stdout.putStr (Prompt.prompt e)
  stdout.flush
  let line ← (← IO.getStdin).getLine
  if line.isEmpty then return
  let text := if line.endsWith "\n" then (line.dropEnd 1).toString else line
  let (shown, e') :=
    Prompt.respond { maxDepth := settings.maxDepth } CommandLine.stepBudget
      { e with journal := #[] } (.line text)
  stderr.putStr (CommandLine.log settings.verbose e'.journal.toList)
  stdout.putStr shown
  converse settings e'

end Forthlet

open Forthlet in
def main (arguments : List String) : IO UInt32 := do
  match Options.parse arguments with
  | .run { test := false, verbose, maxDepth } =>
    IO.print Prompt.banner
    converse { verbose, maxDepth } Engine.fresh
    return 0
  | _ =>
    let outcome := CommandLine.run CommandLine.stepBudget arguments []
    IO.print outcome.stdout
    IO.eprint outcome.stderr
    return outcome.exit.toUInt32
