import Forthlet.Engine.Run
import Forthlet.Token

/-!
# Reading a line

A line is cut into tokens as a whole before any of them takes effect. A token
that names a word runs it, or compiles a call to it while a definition is open;
any other token has to be a number. A colon takes the token after it as the
name of a new definition.

After a fault the engine is back in interpreting mode with no loop running,
and keeps what it had computed and defined before.
-/
namespace Forthlet

namespace Run

/-- The cell that a token stands for when it names no word. -/
def cellOf (token : String) : Except Fault Int :=
  match Numeral.parse token with
  | .error _ => .error (.undefined token)
  | .ok n => match Cell.check n with
    | .error .unprintable => .error (.undefined token)
    | r => r

def interpretToken (lim : Limits) (fuel : Nat) (token : String) : Run Unit := do
  match (← get).dict.find? token with
  | some position => word lim fuel 0 position
  | none => do push (← lift (cellOf token))

/-- While a definition is open, a token that names no entry may be its own name. -/
def compileToken (lim : Limits) (fuel : Nat) (draft : Draft) (token : String) : Run Unit := do
  let append (i : Instr Callee) : Run Unit := Primitive.setDraft (draft.append i)
  let dict := (← get).dict
  match dict.find? token with
  | some position =>
    if (dict.get? position).any Word.immediate then word lim fuel 0 position
    else append (.call (.entry position))
  | none =>
    if Text.upper token = draft.name then append (.call .itself)
    else do append (.lit (← lift (cellOf token)))

def token (lim : Limits) (fuel : Nat) (text : String) : Run Unit := do
  match (← get).draft with
  | some draft => compileToken lim fuel draft text
  | none => interpretToken lim fuel text

/-- A name has to be a token that no number is written as. -/
def startDraft (name : Option String) : Run Unit := do
  match (← get).draft, name with
  | some draft, _ => fail (.nestedColon draft.name)
  | none, none => fail .colonNeedsName
  | none, some name => match Numeral.parse name with
    | .ok _ => fail (.colonNumber name)
    | .error _ => Primitive.setDraft (Draft.start name)

def tokens (lim : Limits) (fuel : Nat) : List String → Run Unit
  | [] => pure ()
  | [":"] => startDraft none
  | ":" :: name :: rest => do
      startDraft (some name)
      tokens lim fuel rest
  | text :: rest => do
      token lim fuel text
      tokens lim fuel rest

/-- Take in one unit of input. -/
def feed (lim : Limits) (fuel : Nat) (line : String) : Run Unit := fun e =>
  match (do tokens lim fuel (← lift (Token.ofText line)) : Run Unit).run e with
  | .ok () e => .ok () e
  | .error (.fault f) e =>
    .error (.fault f) (if f.recovers then (e.note (.aborted line f)).reset else e)
  | .error .outOfFuel e => .error .outOfFuel e

/-- Take in one unit of input with an empty output and no listener; the result
is all that was printed, and then how it went. -/
def interpret (lim : Limits) (fuel : Nat) (line : String) : Run String := fun e =>
  let finish (e' : Engine) (status : Option String) : Engine :=
    let out := match status with
      | some chunk => e'.console.out.push chunk
      | none => e'.console.out
    { e' with console := ⟨out, e.console.listener⟩ }
  let report (e' : Engine) : EStateM.Result Stop Engine String :=
    .ok (String.join e'.console.out.toList) e'
  match (feed lim fuel line).run { e with console := ⟨#[], none⟩ } with
  | .ok () e' => report (finish e' (if e'.compiling then none else some " ok"))
  | .error (.fault f) e' =>
    if f.recovers then report (finish e' (some ("\n Error: " ++ f.message)))
    else .error (.fault f) (finish e' none)
  | .error .outOfFuel e' => .error .outOfFuel (finish e' none)

end Run

namespace Engine

def clearOut (e : Engine) : Engine :=
  { e with console := { e.console with out := #[] } }

/-- Start a loop from outside. -/
def pushFrame (e : Engine) (frame : Frame) : Engine :=
  { e with loops := frame :: e.loops }

/-- Add a compiled word with code given by names; each has to be known already. -/
def define (e : Engine) (name : String) (code : Array (Instr String)) : Except Fault Engine := do
  let code ← e.dict.bindCode code
  return { e with dict := e.dict.define name (.compiled code) false }

end Engine

end Forthlet
