import Forthlet.Builtin

/-!
# Words

A word is built in or a sequence of instructions with absolute jump targets. A
jump compiled forward has no target until a later word completes it. Targets
are integers: an address below zero counts back from the end of the code, and
running on from the last such address leads to the start.
-/
namespace Forthlet

/-- Calls name what they run by a value of `γ`. -/
inductive Instr (γ : Type) where
  | lit (n : Int)
  | call (callee : γ)
  | branch (target : Option Int)
  | branchIfZero (target : Option Int)
  /-- Start a loop, or jump behind it when it has no round to make. -/
  | enterLoop (exit : Option Int)
  /-- Go back for the next round while the index is below the limit. -/
  | nextLoop (back : Int)
  | index
  | unknown (op : String)
  deriving DecidableEq, Repr

namespace Instr

variable {γ δ : Type}

/-- Name the callee of a call anew. -/
def mapCallee {m : Type → Type} [Monad m] (f : γ → m δ) : Instr γ → m (Instr δ)
  | lit n => pure (lit n)
  | call c => return call (← f c)
  | branch t => pure (branch t)
  | branchIfZero t => pure (branchIfZero t)
  | enterLoop t => pure (enterLoop t)
  | nextLoop t => pure (nextLoop t)
  | index => pure index
  | unknown op => pure (unknown op)

end Instr

/-- A call is bound when it is compiled: to an entry of the dictionary by its
position, or to the word that the call itself belongs to. -/
inductive Callee where
  | entry (position : Nat)
  | itself
  deriving DecidableEq, Repr

/-- The position of the callee in code of the word at `owner`. -/
def Callee.position (owner : Nat) : Callee → Nat
  | entry k => k
  | itself => owner

abbrev Code := Array (Instr Callee)

/-- The instruction at an address, unless the address is outside the code. -/
def Code.fetch? (code : Code) : Int → Option (Instr Callee)
  | .ofNat n => code[n]?
  | .negSucc n => if n < code.size then code[code.size - 1 - n]? else none

@[simp] theorem Code.fetch?_natCast (code : Code) (n : Nat) :
    code.fetch? (n : Int) = code[n]? := rfl

inductive Body where
  | builtin (b : Builtin)
  | compiled (code : Code)
  deriving DecidableEq, Repr

structure Word where
  name : String
  body : Body
  immediate : Bool
  deriving DecidableEq, Repr

namespace Word

def isCompiled (w : Word) : Bool :=
  match w.body with
  | .builtin _ => false
  | .compiled _ => true

def kindName (w : Word) : String :=
  if w.isCompiled then "compiled" else "builtin"

def describe (w : Word) : String :=
  "<Word " ++ w.name ++ " " ++ w.kindName ++ (if w.immediate then " immediate" else "") ++ ">"

def ofBuiltin (b : Builtin) : Word :=
  ⟨b.name, .builtin b, b.isCompiling⟩

end Word

end Forthlet
