import Forthlet.Engine.Run

/-!
# Bodies as trees

The body of a definition is a sequence of items, and an item is one instruction
or a conditional or a loop with bodies of its own. Such a tree has a meaning by
recursion on it alone, with no address and no jump in sight; and it has a
layout, the code that the compiling words are to produce for it.
-/
namespace Forthlet

theorem Limits.lt_of_checkDepth {lim : Limits} {depth : Nat} {name : String}
    (h : lim.checkDepth depth name = .ok ()) : (depth : Int) < lim.maxDepth := by
  by_cases hle : lim.maxDepth ≤ depth
  · simp [checkDepth, hle] at h
  · omega

/-- Too deep a call is the only fault of entering a word. -/
theorem Limits.kind_of_checkDepth {lim : Limits} {depth : Nat} {name : String} {f : Fault}
    (h : lim.checkDepth depth name = .error f) : f.kind = .stackOverflow := by
  unfold checkDepth at h
  split at h
  · cases h
    rfl
  · split at h <;> cases h
    rfl

/-- An item that takes one instruction. -/
inductive Atom where
  | lit (n : Int)
  | call (callee : Callee)
  | index
  deriving DecidableEq, Repr

namespace Atom

def instr : Atom → Instr Callee
  | lit n => .lit n
  | call callee => .call callee
  | index => .index

def eval (call : Callee → Run Unit) : Atom → Run Unit
  | lit n => Run.push n
  | .call callee => call callee
  | index => Primitive.loopIndex

end Atom

/-- A body is empty or ends in an item, after the body `before` it. -/
inductive Block where
  | empty
  | atom (before : Block) (a : Atom)
  | ifThen (before body : Block)
  | ifElse (before yes no : Block)
  | doLoop (before body : Block)
  deriving DecidableEq, Repr

namespace Block

/-- The atoms of a body at any depth. -/
def atoms : Block → List Atom
  | empty => []
  | atom b a => b.atoms ++ [a]
  | ifThen b c => b.atoms ++ c.atoms
  | ifElse b y n => b.atoms ++ y.atoms ++ n.atoms
  | doLoop b c => b.atoms ++ c.atoms

def size : Block → Nat
  | empty => 0
  | atom b _ => b.size + 1
  | ifThen b c => b.size + (c.size + 1)
  | ifElse b y n => b.size + (y.size + 1) + (n.size + 1)
  | doLoop b c => b.size + (c.size + 1) + 1

/-- The layout of a body that starts at address `base`. -/
def layout (base : Nat) : Block → List (Instr Callee)
  | empty => []
  | atom b a => b.layout base ++ [a.instr]
  | ifThen b c =>
    let test := base + b.size
    let after := test + (c.size + 1)
    b.layout base ++ (.branchIfZero (some after) :: c.layout (test + 1))
  | ifElse b y n =>
    let test := base + b.size
    let skip := test + (y.size + 1)
    let after := skip + (n.size + 1)
    b.layout base ++ (.branchIfZero (some ((skip + 1 : Nat) : Int)) :: y.layout (test + 1)) ++
      (.branch (some after) :: n.layout (skip + 1))
  | doLoop b c =>
    let start := base + b.size
    let again := start + (c.size + 1)
    b.layout base ++ (.enterLoop (some ((again + 1 : Nat) : Int)) :: c.layout (start + 1)) ++
      [.nextLoop ((start + 1 : Nat) : Int)]

@[simp] theorem length_layout (base : Nat) (b : Block) : (b.layout base).length = b.size := by
  induction b generalizing base with
  | empty => rfl
  | atom b a ih => simp [layout, size, ih]
  | ifThen b c ihb ihc => simp [layout, size, ihb, ihc]
  | ifElse b y n ihb ihy ihn => simp [layout, size, ihb, ihy, ihn]; omega
  | doLoop b c ihb ihc => simp [layout, size, ihb, ihc]; omega

/-- One round of a loop: its frame is the innermost one as long as the body runs. -/
def round (frame : Frame) (body : Run Unit) : Run Unit := do
  Run.onLoops (Stack.push frame)
  body
  let _ ← Run.onLoops Frame.pop

/-- The next `n` rounds of a loop, the first of them with index `i`. -/
def rounds (body : Run Unit) (limit : Int) : Nat → Int → Run Unit
  | 0, _ => pure ()
  | n + 1, i => do
      round ⟨i, limit⟩ body
      rounds body limit n (i + 1)

/-- The meaning of a body, given what its calls do. A loop makes one round for
each index from the start to the last number below the limit. -/
def eval (call : Callee → Run Unit) : Block → Run Unit
  | empty => pure ()
  | atom b a => do
      b.eval call
      a.eval call
  | ifThen b c => do
      b.eval call
      if (← Run.pop) ≠ 0 then c.eval call
  | ifElse b y n => do
      b.eval call
      if (← Run.pop) ≠ 0 then y.eval call else n.eval call
  | doLoop b c => do
      b.eval call
      let start ← Run.pop
      let limit ← Run.pop
      rounds (c.eval call) limit (limit - start).toNat start

/-- The second body behind the first. -/
def append (b : Block) : Block → Block
  | empty => b
  | atom c a => (b.append c).atom a
  | ifThen c d => (b.append c).ifThen d
  | ifElse c y n => (b.append c).ifElse y n
  | doLoop c d => (b.append c).doLoop d

@[simp] theorem empty_append (b : Block) : empty.append b = b := by
  induction b with
  | empty => rfl
  | atom c a ih => simp [append, ih]
  | ifThen c d ih _ | doLoop c d ih _ => simp [append, ih]
  | ifElse c y n ih _ _ => simp [append, ih]

theorem eval_append (call : Callee → Run Unit) (b c : Block) :
    (b.append c).eval call = (do b.eval call; c.eval call) := by
  induction c with
  | empty => simp [append, eval]
  | atom c a ih => simp [append, eval, ih]
  | ifThen c d ih _ | doLoop c d ih _ => simp [append, eval, ih]
  | ifElse c y n ih _ _ => simp [append, eval, ih]

/-- The meaning of the word `name` with body `b` while `depth` compiled words are
running. Other words run as they are; the word itself has the meaning of `b`
again, one level deeper. The bound on the levels ends the recursion. -/
def run (lim : Limits) (fuel : Nat) (name : String) (b : Block) (depth : Nat) : Run Unit :=
  match _ : lim.checkDepth depth name with
  | .error f => Run.fail f
  | .ok () => b.eval fun
    | .entry k => Run.word lim fuel (depth + 1) k
    | .itself => run lim fuel name b (depth + 1)
termination_by (lim.maxDepth - depth).toNat
decreasing_by
  have hd := Limits.lt_of_checkDepth ‹_›
  omega

end Block

end Forthlet
