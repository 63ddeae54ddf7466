import Forthlet.Engine.Primitive

/-!
# Running words

A compiled word runs from its first instruction until control leaves its code.
Every instruction of every word costs one unit of a budget, which makes the
recurrence total; a run that is not stopped by the budget does not depend on it.
Calls that are active at the same time are bounded by `Limits`.
-/
namespace Forthlet

/-- Bounds on the number of compiled words that run inside each other. -/
structure Limits where
  maxDepth : Int := 300
  /-- What the machine that carries the engine allows, if it is bounded. -/
  nesting : Option Nat := some 480
  deriving DecidableEq, Repr

namespace Limits

/-- May a word be entered while `depth` others are running? The chosen bound comes first. -/
def checkDepth (lim : Limits) (depth : Nat) (word : String) : Except Fault Unit :=
  if lim.maxDepth ≤ depth then .error (.depthExceeded word)
  else if lim.nesting.any (· ≤ depth) then .error .nestingExceeded
  else .ok ()

end Limits

namespace Instr

variable {γ : Type}

def opName : Instr γ → String
  | lit _ => "LIT"
  | call _ => "CALL"
  | branch _ => "BRANCH"
  | branchIfZero _ => "0BRANCH"
  | enterLoop _ => "DO"
  | nextLoop _ => "LOOP"
  | index => "I"
  | unknown op => op

end Instr

namespace Run

/-- A jump without a target cannot be run. -/
def jump (i : Instr Callee) : Option Int → Run Int
  | some target => pure target
  | none => fail (.badInstruction i.opName)

/-- Run an instruction other than a call at address `ip`; the result is the next address. -/
def step (i : Instr Callee) (ip : Int) : Run Int :=
  match i with
  | .lit n => do push n; pure (ip + 1)
  | .branch target => jump i target
  | .branchIfZero target => do
      if (← pop) = 0 then jump i target else pure (ip + 1)
  | .enterLoop exit => do
      let start ← pop
      let limit ← pop
      if limit ≤ start then jump i exit
      else do
        onLoops (Stack.push ⟨start, limit⟩)
        pure (ip + 1)
  | .nextLoop back => do
      let frame ← onLoops Frame.pop
      if frame.index + 1 < frame.limit then do
        onLoops (Stack.push { frame with index := frame.index + 1 })
        pure back
      else pure (ip + 1)
  | .index => do Primitive.loopIndex; pure (ip + 1)
  | .call _ | .unknown _ => fail (.badInstruction i.opName)

/-- Run the word at a position of the dictionary while `depth` compiled words
are running; `body` runs compiled code. -/
@[inline] def enter (lim : Limits) (depth position : Nat) (body : Code → Run Unit) : Run Unit := do
  match (← get).dict.get? position with
  | none => fail (.badInstruction "CALL")
  | some w => match w.body with
    | .builtin b => Primitive.exec b
    | .compiled code => do
        lift (lim.checkDepth depth w.name)
        body code

/-- Run `code` of the word at `position` from address `ip` on, as the `depth`-th
of the words that run inside each other. -/
def code (lim : Limits) : Nat → Nat → Nat → Code → Int → Run Unit
  | 0, _, _, _, _ => throw .outOfFuel
  | fuel + 1, depth, position, instrs, ip =>
    match Code.fetch? instrs ip with
    | none => pure ()
    | some (.call callee) => do
        let target := callee.position position
        enter lim depth target fun body => code lim fuel (depth + 1) target body 0
        code lim fuel depth position instrs (ip + 1)
    | some i => do
        let next ← step i ip
        code lim fuel depth position instrs next

/-- Run the word at `position` while `depth` compiled words are running. -/
def word (lim : Limits) (fuel depth position : Nat) : Run Unit :=
  enter lim depth position fun body => code lim fuel (depth + 1) position body 0

section
variable {lim : Limits} {fuel depth position : Nat} {instrs : Code} {ip : Int}

theorem code_of_none (h : instrs.fetch? ip = none) :
    code lim (fuel + 1) depth position instrs ip = pure () := by
  rw [code]
  simp only [h]

theorem code_of_call {callee : Callee} (h : instrs.fetch? ip = some (.call callee)) :
    code lim (fuel + 1) depth position instrs ip = (do
      word lim fuel depth (callee.position position)
      code lim fuel depth position instrs (ip + 1)) := by
  rw [code]
  simp only [h]
  rfl

theorem code_of_step {i : Instr Callee} (h : instrs.fetch? ip = some i) (hi : ∀ c, i ≠ .call c) :
    code lim (fuel + 1) depth position instrs ip = (do
      code lim fuel depth position instrs (← step i ip)) := by
  rw [code]
  simp only [h]

end

end Run

end Forthlet
