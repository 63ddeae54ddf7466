import Forthlet.Engine.Feed
import Forthlet.Text.Blank

/-!
# The interactive prompt

A prompt asks for a line, four blanks wide while a definition is open. A line
of blanks is passed over; any other is interpreted and what it printed is
shown. An interrupt drops the definition in progress and keeps the rest.
-/
namespace Forthlet.Prompt

inductive Input where
  | line (text : String)
  | interrupt
  deriving DecidableEq, Repr

def banner : String := "rforth  —  Ctrl-D to exit, WORDS to list vocabulary\n"

def prompt (e : Engine) : String :=
  if e.compiling then "    " else "ok> "

/-- What an input shows, and the state it leaves. -/
def respond (lim : Limits) (fuel : Nat) (e : Engine) : Input → String × Engine
  | .interrupt => ("\nInterrupted — stack and definitions preserved\n", e.reset)
  | .line text =>
    if Text.isBlankText text then ("", e)
    else match (Run.interpret lim fuel text).run e with
      | .ok shown e' => (if shown.isEmpty then "" else shown ++ "\n", e')
      | .error _ e' => ("", e')

/-- Everything that is shown until the inputs end, the last prompt included. -/
def transcript (lim : Limits) (fuel : Nat) (e : Engine) : List Input → String × Engine
  | [] => (prompt e, e)
  | input :: rest =>
    let (shown, e') := respond lim fuel e input
    let (later, last) := transcript lim fuel e' rest
    (prompt e ++ shown ++ later, last)

end Forthlet.Prompt
