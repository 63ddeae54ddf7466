import Forthlet.Engine.Primitive

/-!
# Stack diagrams

A stack diagram shows the cells that a word takes from the top of the stack and those that it
leaves there, the topmost at the end. The words that rearrange the stack pick cells by their
distance from the top, move them one by one and put them back in several steps. What they do in all
is their diagram: nothing below its cells is touched, and a stack with fewer cells than it takes
stays as it is.
-/
namespace Forthlet

namespace Shuffle

/-- The diagrams, with the topmost cell at the end on both sides. -/
inductive Diagram : Shuffle → List Int → List Int → Prop
  | dup (x : Int) : Diagram .dup [x] [x, x]
  | drop (x : Int) : Diagram .drop [x] []
  | swap (a b : Int) : Diagram .swap [a, b] [b, a]
  | over1 (a b : Int) : Diagram .over1 [a, b] [a, b, a]
  | rot (a b c : Int) : Diagram .rot [a, b, c] [b, c, a]
  | rotBack (a b c : Int) : Diagram .rotBack [a, b, c] [c, a, b]
  | dupNonzero {x : Int} (h : x ≠ 0) : Diagram .dupNonzero [x] [x, x]
  | keepZero : Diagram .dupNonzero [0] [0]
  | dup2 (a b : Int) : Diagram .dup2 [a, b] [a, b, a, b]
  | drop2 (a b : Int) : Diagram .drop2 [a, b] []
  | swap2 (a b c d : Int) : Diagram .swap2 [a, b, c, d] [c, d, a, b]
  | over2 (a b c d : Int) : Diagram .over2 [a, b, c, d] [a, b, c, d, a, b]

/-- How many cells the left side of the diagram names. -/
def arity : Shuffle → Nat
  | dup | drop | dupNonzero => 1
  | swap | over1 | dup2 | drop2 => 2
  | rot | rotBack => 3
  | swap2 | over2 => 4

variable {w : Shuffle} {s before after : List Int}

theorem Diagram.length (h : w.Diagram before after) : before.length = w.arity := by
  cases h <;> rfl

/-- A word does to the cells on top what its diagram shows. -/
theorem apply_of_diagram (h : w.Diagram before after) (below : List Int) :
    w.apply (before.reverse ++ below) = some (after.reverse ++ below) := by
  cases h with
  | dupNonzero h => exact congrArg some (if_neg h)
  | _ => rfl

/-- Any cells on top are the left side of a diagram. -/
theorem exists_diagram (hs : before.length = w.arity) : ∃ after, w.Diagram before after := by
  cases w with
  | dup | drop =>
      match before, hs with
      | [x], _ => exact ⟨_, by constructor⟩
  | dupNonzero =>
      match before, hs with
      | [x], _ =>
          by_cases hx : x = 0
          · exact ⟨[0], hx ▸ .keepZero⟩
          · exact ⟨[x, x], .dupNonzero hx⟩
  | swap | over1 | dup2 | drop2 =>
      match before, hs with
      | [a, b], _ => exact ⟨_, by constructor⟩
  | rot | rotBack =>
      match before, hs with
      | [a, b, c], _ => exact ⟨_, by constructor⟩
  | swap2 | over2 =>
      match before, hs with
      | [a, b, c, d], _ => exact ⟨_, by constructor⟩

theorem apply_eq_none (h : s.length < w.arity) : w.apply s = none := by
  cases w with
  | dup | drop | dupNonzero =>
      match s, h with
      | [], _ => rfl
  | swap | over1 | dup2 | drop2 =>
      match s, h with
      | [], _ | [_], _ => rfl
  | rot | rotBack =>
      match s, h with
      | [], _ | [_], _ | [_, _], _ => rfl
  | swap2 | over2 =>
      match s, h with
      | [], _ | [_], _ | [_, _], _ | [_, _, _], _ => rfl

end Shuffle

namespace Primitive

variable {e : Engine} {w : Shuffle}

theorem run_shuffle (e : Engine) (w : Shuffle) : (exec (.shuffle w)).run e =
    match w.apply e.stack with
    | some s => .ok () { e with stack := s }
    | none => .error (.fault .stackUnderflow) e := by
  rw [exec]
  unfold Run.onStack
  simp only [EStateM.run, Shuffle.act_eq]
  cases w.apply e.stack <;> rfl

theorem run_shuffle_diagram {before after below : List Int} (h : w.Diagram before after)
    (hs : e.stack = before.reverse ++ below) :
    (exec (.shuffle w)).run e = .ok () { e with stack := after.reverse ++ below } := by
  rw [run_shuffle, hs, Shuffle.apply_of_diagram h]

theorem run_shuffle_short (h : e.stack.length < w.arity) :
    (exec (.shuffle w)).run e = .error (.fault .stackUnderflow) e := by
  rw [run_shuffle, Shuffle.apply_eq_none h]

end Primitive

open Primitive

/-- Every word that rearranges the stack realizes its diagram on the cells on top, also if there are
no others, and leaves everything else in the engine as it is. It fails if and only if there are
fewer cells than its diagram takes, with a stack underflow, and the engine is then as it was. -/
theorem shuffle_realizes_diagram (w : Shuffle) (e : Engine) :
    (∀ {before after : List Int}, w.Diagram before after → ∀ below,
      e.stack = before.reverse ++ below →
      (exec (.shuffle w)).run e = .ok () { e with stack := after.reverse ++ below }) ∧
    (w.arity ≤ e.stack.length → ∃ before after below, w.Diagram before after ∧
      e.stack = before.reverse ++ below) ∧
    (∀ {before after : List Int}, w.Diagram before after → before.length = w.arity) ∧
    ((exec (.shuffle w)).run e = .error (.fault .stackUnderflow) e ↔ e.stack.length < w.arity) ∧
    ∀ {stop : Stop} {e' : Engine}, (exec (.shuffle w)).run e = .error stop e' →
      stop = .fault .stackUnderflow ∧ e' = e := by
  have hcells : w.arity ≤ e.stack.length → ∃ before after below, w.Diagram before after ∧
      e.stack = before.reverse ++ below := by
    intro hle
    have hlength : (e.stack.take w.arity).reverse.length = w.arity := by
      rw [List.length_reverse, List.length_take_of_le hle]
    obtain ⟨after, hdiagram⟩ := Shuffle.exists_diagram hlength
    refine ⟨_, after, e.stack.drop w.arity, hdiagram, ?_⟩
    rw [List.reverse_reverse, List.take_append_drop]
  refine ⟨fun h _ hs => run_shuffle_diagram h hs, hcells, fun h => h.length,
    ⟨fun hr => ?_, run_shuffle_short⟩, fun {stop e'} hr => ?_⟩
  · refine Nat.lt_of_not_le fun hle => ?_
    obtain ⟨before, after, below, hdiagram, hs⟩ := hcells hle
    rw [run_shuffle_diagram hdiagram hs] at hr
    cases hr
  · rw [run_shuffle] at hr
    split at hr <;> cases hr
    exact ⟨rfl, rfl⟩

/-- `2OVER` on four cells and nothing below them, `-ROT` with a cell below, and `2SWAP` with one
cell too few. -/
theorem shuffle_realizes_diagram_edges :
    (exec (.shuffle .over2)).run { Engine.fresh with stack := [4, 3, 2, 1] } =
      .ok () { Engine.fresh with stack := [2, 1, 4, 3, 2, 1] } ∧
    (exec (.shuffle .rotBack)).run { Engine.fresh with stack := [3, 2, 1, 9] } =
      .ok () { Engine.fresh with stack := [2, 1, 3, 9] } ∧
    (exec (.shuffle .swap2)).run { Engine.fresh with stack := [3, 2, 1] } =
      .error (.fault .stackUnderflow) { Engine.fresh with stack := [3, 2, 1] } := by
  obtain ⟨hover, -⟩ := shuffle_realizes_diagram .over2 { Engine.fresh with stack := [4, 3, 2, 1] }
  obtain ⟨hrot, -⟩ := shuffle_realizes_diagram .rotBack { Engine.fresh with stack := [3, 2, 1, 9] }
  obtain ⟨-, -, -, hshort, -⟩ :=
    shuffle_realizes_diagram .swap2 { Engine.fresh with stack := [3, 2, 1] }
  refine ⟨?_, ?_, hshort.mpr (by decide)⟩
  · exact hover (.over2 1 2 3 4) [] rfl
  · exact hrot (.rotBack 1 2 3) [9] rfl

end Forthlet
