import Forthlet.Stack

/-!
# Words that rearrange the stack

Before a word moves or copies anything it makes sure that all cells which it
works on are there, so with too few cells it changes nothing. The cells are
told apart by their distance from the top. `Shuffle.apply` says what a word
makes of the whole stack, and `act_eq` that it does so.
-/
namespace Forthlet

inductive Shuffle where
  | dup | drop | swap | over1 | rot | rotBack | dupNonzero
  | dup2 | drop2 | swap2 | over2
  deriving DecidableEq, Repr

namespace Shuffle

def name : Shuffle → String
  | dup => "DUP"
  | drop => "DROP"
  | swap => "SWAP"
  | over1 => "OVER"
  | rot => "ROT"
  | rotBack => "-ROT"
  | dupNonzero => "?DUP"
  | dup2 => "2DUP"
  | drop2 => "2DROP"
  | swap2 => "2SWAP"
  | over2 => "2OVER"

open Stack in
def act : Shuffle → Stack.Act Int Unit
  | dup => do push (← peekCell)
  | drop => do let _ ← popCell
  | swap => do
      needCells 2
      let a ← pickCell 1
      let b ← pickCell 0
      put 0 a
      put 1 b
  | over1 => do
      needCells 2
      push (← pickCell 1)
  | rot => do
      needCells 3
      push (← pullCell 2)
  | rotBack => do
      needCells 3
      tuck 2 (← popCell)
  | dupNonzero => do
      if (← peekCell) ≠ 0 then push (← pickCell 0)
  | dup2 => do
      needCells 2
      let a ← pickCell 1
      let b ← pickCell 0
      push a
      push b
  | drop2 => do
      needCells 2
      discard 2
  | swap2 => do
      needCells 4
      let a ← pickCell 3
      let b ← pickCell 2
      let c ← pickCell 1
      let d ← pickCell 0
      discard 4
      push c
      push d
      push a
      push b
  | over2 => do
      needCells 4
      let a ← pickCell 3
      let b ← pickCell 2
      push a
      push b

/-- The stack that a word leaves, unless there are too few cells. -/
def apply : Shuffle → List Int → Option (List Int)
  | dup, a :: s => some (a :: a :: s)
  | drop, _ :: s => some s
  | swap, b :: a :: s => some (a :: b :: s)
  | over1, b :: a :: s => some (a :: b :: a :: s)
  | rot, c :: b :: a :: s => some (a :: c :: b :: s)
  | rotBack, c :: b :: a :: s => some (b :: a :: c :: s)
  | dupNonzero, a :: s => some (if a = 0 then a :: s else a :: a :: s)
  | dup2, b :: a :: s => some (b :: a :: b :: a :: s)
  | drop2, _ :: _ :: s => some s
  | swap2, d :: c :: b :: a :: s => some (b :: a :: d :: c :: s)
  | over2, d :: c :: b :: a :: s => some (b :: a :: d :: c :: b :: a :: s)
  | _, _ => none

theorem act_eq (w : Shuffle) : w.act = fun s =>
    match w.apply s with
    | some s' => .ok () s'
    | none => .error .stackUnderflow s := by
  funext s
  cases w with
  | dup | drop => cases s <;> rfl
  | dupNonzero =>
      cases s with
      | nil => rfl
      | cons a s =>
          have hact : act dupNonzero (a :: s) =
              (if a ≠ 0 then (do Stack.push (← Stack.pickCell 0)) else pure () :
                Stack.Act Int Unit) (a :: s) := rfl
          rw [hact, apply]
          by_cases h : a = 0
          · simp only [h, ne_eq, not_true_eq_false, if_false, if_true]
            rfl
          · simp only [h, ne_eq, not_false_eq_true, if_true, if_false]
            rfl
  | swap | over1 | dup2 | drop2 =>
      match s with
      | [] | [_] | _ :: _ :: _ => rfl
  | rot | rotBack =>
      match s with
      | [] | [_] | [_, _] | _ :: _ :: _ :: _ => rfl
  | swap2 | over2 =>
      match s with
      | [] | [_] | [_, _] | [_, _, _] | _ :: _ :: _ :: _ :: _ => rfl

end Shuffle

end Forthlet
