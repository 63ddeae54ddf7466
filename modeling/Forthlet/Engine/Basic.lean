import Forthlet.Dictionary
import Forthlet.Draft
import Forthlet.Journal

/-!
# The state of an engine

An engine holds a data stack, the frames of running loops, the dictionary, the
definition in progress if there is one, what it has printed, and the journal.

`Run` is an action on that state. An action that stops early keeps the state it
reached, since words that ran before the fault have had their effect.
-/
namespace Forthlet

/-- Chunks go to the listener if there is one, and are kept otherwise. -/
structure Console where
  out : Array String
  listener : Option (Array String)
  deriving DecidableEq, Repr

namespace Console

def write (c : Console) (chunk : String) : Console :=
  match c.listener with
  | some heard => { c with listener := some (heard.push chunk) }
  | none => { c with out := c.out.push chunk }

end Console

structure Engine where
  stack : List Int
  loops : List Frame
  dict : Dictionary
  draft : Option Draft
  console : Console
  journal : Array Record
  deriving DecidableEq, Repr

namespace Engine

def fresh : Engine :=
  { stack := [], loops := [], dict := .builtins, draft := none, console := ⟨#[], none⟩,
    journal := #[] }

/-- Every chunk goes to a listener from now on. -/
def listening (e : Engine) : Engine :=
  { e with console := { e.console with listener := some #[] } }

def compiling (e : Engine) : Bool := e.draft.isSome

def note (r : Record) (e : Engine) : Engine :=
  { e with journal := e.journal.push r }

/-- Drop the definition in progress and all running loops. -/
def reset (e : Engine) : Engine :=
  let e := match e.draft with
    | some d => e.note (.discarded d.name)
    | none => e
  { e with draft := none, loops := [] }

end Engine

/-- Why an action stopped early. -/
inductive Stop where
  | fault (f : Fault)
  /-- The budget of steps is used up. -/
  | outOfFuel
  deriving DecidableEq, Repr

abbrev Run := EStateM Stop Engine

namespace Run

variable {α : Type}

def fail (f : Fault) : Run α := throw (.fault f)

def lift : Except Fault α → Run α
  | .ok a => pure a
  | .error f => fail f

def onStack (act : Stack.Act Int α) : Run α := fun e =>
  match act.run e.stack with
  | .ok a s => .ok a { e with stack := s }
  | .error f s => .error (.fault f) { e with stack := s }

def onLoops (act : Stack.Act Frame α) : Run α := fun e =>
  match act.run e.loops with
  | .ok a s => .ok a { e with loops := s }
  | .error f s => .error (.fault f) { e with loops := s }

def push (n : Int) : Run Unit := onStack (Stack.push n)

def pop : Run Int := onStack Stack.popCell

def emit (chunk : String) : Run Unit :=
  modify fun e => { e with console := e.console.write chunk }

def note (r : Record) : Run Unit := modify (Engine.note r)

/-- The decimal text of a number, which has to be short enough. -/
def decimal (n : Int) : Run String :=
  if Numeral.printable n then pure (toString n) else fail .unprintable

@[simp] theorem run_fail (f : Fault) (e : Engine) :
    (fail f : Run α).run e = .error (.fault f) e := rfl

@[simp] theorem run_lift_ok (a : α) (e : Engine) : (lift (.ok a)).run e = .ok a e := rfl

@[simp] theorem run_lift_error (f : Fault) (e : Engine) :
    (lift (.error f) : Run α).run e = .error (.fault f) e := rfl

@[simp] theorem run_push (n : Int) (e : Engine) :
    (push n).run e = .ok () { e with stack := n :: e.stack } := rfl

theorem run_pop_nil {e : Engine} (h : e.stack = []) :
    pop.run e = .error (.fault .stackUnderflow) e := by
  obtain ⟨s, _⟩ := e
  cases h
  rfl

theorem run_pop_cons {e : Engine} {n : Int} {s : List Int} (h : e.stack = n :: s) :
    pop.run e = .ok n { e with stack := s } := by
  obtain ⟨s, _⟩ := e
  cases h
  rfl

@[simp] theorem run_emit (chunk : String) (e : Engine) :
    (emit chunk).run e = .ok () { e with console := e.console.write chunk } := rfl

@[simp] theorem run_note (r : Record) (e : Engine) : (note r).run e = .ok () (e.note r) := rfl

end Run

end Forthlet
