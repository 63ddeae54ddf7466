import Forthlet.Fault

/-!
# Stacks

The top of a stack is the head of its list. An action that fails reports the
fault and leaves the stack as it stands at that moment, so a word that pops two
cells and then fails has used them up.
-/
namespace Forthlet

namespace Stack

abbrev Act (α : Type) := EStateM Fault (List α)

variable {α : Type}

def push (a : α) : Act α Unit := fun s => .ok () (a :: s)

/-- The fault tells which stack was found empty. -/
def pop (empty : Fault) : Act α α
  | [] => .error empty []
  | a :: s => .ok a s

def peek (empty : Fault) : Act α α
  | [] => .error empty []
  | a :: s => .ok a (a :: s)

def need (short : Fault) (n : Nat) : Act α Unit := fun s =>
  if s.length < n then .error short s else .ok () s

/-- A copy of the element `k` places below the top. -/
def pick (short : Fault) (k : Nat) : Act α α := fun s =>
  match s[k]? with
  | some a => .ok a s
  | none => .error short s

/-- The element `k` places below the top leaves its place. -/
def pull (short : Fault) (k : Nat) : Act α α := fun s =>
  match s[k]? with
  | some a => .ok a (s.eraseIdx k)
  | none => .error short s

/-- Replace the element `k` places below the top. -/
def put (k : Nat) (a : α) : Act α Unit := fun s => .ok () (s.set k a)

/-- Put an element in below the first `k`. -/
def tuck (k : Nat) (a : α) : Act α Unit := fun s => .ok () (s.insertIdx k a)

def discard (n : Nat) : Act α Unit := fun s => .ok () (s.drop n)

def needCells (n : Nat) : Act Int Unit := need .stackUnderflow n

def popCell : Act Int Int := pop .stackUnderflow

def peekCell : Act Int Int := peek .stackUnderflow

def pickCell (k : Nat) : Act Int Int := pick .stackUnderflow k

def pullCell (k : Nat) : Act Int Int := pull .stackUnderflow k

end Stack

/-- A running loop: its index, and the limit that the index stays below. -/
structure Frame where
  index : Int
  limit : Int
  deriving DecidableEq, Repr

namespace Frame

def pop : Stack.Act Frame Frame := Stack.pop .indexOutsideLoop

def peek : Stack.Act Frame Frame := Stack.peek .indexOutsideLoop

end Frame

end Forthlet
