import Mathlib.Algebra.Group.Nat.Defs
import Forthlet.Cell
import Forthlet.Shuffle

/-!
# Computing within the range of a cell

From operands within the range a word computes a result within the range, or
reports a fault that can be worded: no sum, product or quotient of two cells is
too long to print. The words without a check of their own never need one.
-/
namespace Forthlet

namespace Cell

variable {a b n : Int}

theorem inRange_ofNat {m : Nat} : InRange (.ofNat m) ↔ m < 2 ^ 63 := by
  unfold InRange least greatest
  rw [Int.ofNat_eq_natCast]
  omega

theorem inRange_negSucc {m : Nat} : InRange (.negSucc m) ↔ m < 2 ^ 63 := by
  unfold InRange least greatest
  omega

theorem inRange_flag (c : Bool) : InRange (flag c) := by
  cases c <;> decide

theorem inRange_bitNot (h : InRange n) : InRange (bitNot n) := by
  unfold InRange least greatest bitNot at *
  omega

theorem clearBits_lt {m k : Nat} (hm : m < 2 ^ 63) : clearBits m k < 2 ^ 63 :=
  Nat.xor_lt_two_pow hm (Nat.lt_of_le_of_lt Nat.and_le_left hm)

theorem inRange_bitAnd (ha : InRange a) (hb : InRange b) : InRange (bitAnd a b) := by
  cases a with
  | ofNat m =>
      rw [inRange_ofNat] at ha
      cases b with
      | ofNat k => exact inRange_ofNat.mpr (Nat.lt_of_le_of_lt Nat.and_le_left ha)
      | negSucc k => exact inRange_ofNat.mpr (clearBits_lt ha)
  | negSucc m =>
      rw [inRange_negSucc] at ha
      cases b with
      | ofNat k => exact inRange_ofNat.mpr (clearBits_lt (inRange_ofNat.mp hb))
      | negSucc k =>
          exact inRange_negSucc.mpr (Nat.or_lt_two_pow ha (inRange_negSucc.mp hb))

theorem inRange_bitOr (ha : InRange a) (hb : InRange b) : InRange (bitOr a b) := by
  cases a with
  | ofNat m =>
      rw [inRange_ofNat] at ha
      cases b with
      | ofNat k => exact inRange_ofNat.mpr (Nat.or_lt_two_pow ha (inRange_ofNat.mp hb))
      | negSucc k => exact inRange_negSucc.mpr (clearBits_lt (inRange_negSucc.mp hb))
  | negSucc m =>
      rw [inRange_negSucc] at ha
      cases b with
      | ofNat k => exact inRange_negSucc.mpr (clearBits_lt ha)
      | negSucc k => exact inRange_negSucc.mpr (Nat.lt_of_le_of_lt Nat.and_le_left ha)

/-- A remainder is no larger than the dividend and has its sign. -/
theorem inRange_tmod (ha : InRange a) : InRange (a.tmod b) := by
  have hn : (a.tmod b).natAbs ≤ a.natAbs := by
    rw [Int.natAbs_tmod]
    exact Nat.mod_le _ _
  have hp : 0 ≤ a → 0 ≤ a.tmod b := Int.tmod_nonneg b
  have hm : 0 ≤ -a → 0 ≤ -a.tmod b := by
    rw [← Int.neg_tmod]
    exact Int.tmod_nonneg b
  unfold InRange least greatest at *
  omega

/-- Twice as many binary digits as a cell has are few enough decimal ones. -/
theorem printable_of_natAbs_le (h : n.natAbs ≤ 2 ^ 128) : Numeral.printable n = true := by
  have hpow : ∀ k, 128 ≤ k → 2 ^ 128 < Nat.pow 10 k := by
    intro k hk
    calc 2 ^ 128 < 10 ^ 128 := by decide
      _ ≤ 10 ^ k := Nat.pow_le_pow_right (by decide) hk
  have hb : 2 ^ 128 < Numeral.printBound := by
    unfold Numeral.printBound
    exact hpow Numeral.decimalLimit (by decide)
  exact decide_eq_true (Nat.lt_of_le_of_lt h hb)

theorem printable_of_inRange (h : InRange n) : Numeral.printable n = true := by
  refine printable_of_natAbs_le ?_
  unfold InRange least greatest at h
  omega

/-- The check lets cells through and reports any other number that can be printed. -/
theorem check_of_natAbs_le (h : n.natAbs ≤ 2 ^ 128) :
    check n = if InRange n then .ok n else .error (.overflow n) := by
  unfold check
  rw [printable_of_natAbs_le h]
  rfl

theorem inRange_of_check {m : Int} (h : check n = .ok m) : InRange m := by
  unfold check at h
  split at h
  · next hr =>
      cases h
      exact hr
  · split at h <;> cases h

theorem check_ne_unprintable (h : n.natAbs ≤ 2 ^ 128) : check n ≠ .error .unprintable := by
  rw [check_of_natAbs_le h]
  split <;> simp

namespace Binary

theorem inRange_apply {op : Binary} (ha : InRange a) (hb : InRange b) (h : op.apply a b = .ok n) :
    InRange n := by
  cases op with
  | add | sub | mul => exact inRange_of_check h
  | div =>
      simp only [apply] at h
      split at h
      · cases h
      · exact inRange_of_check h
  | mod =>
      simp only [apply] at h
      split at h
      · cases h
      · cases h
        exact inRange_tmod ha
  | eq | lt | gt =>
      cases h
      exact inRange_flag _
  | and =>
      cases h
      exact inRange_bitAnd ha hb
  | or =>
      cases h
      exact inRange_bitOr ha hb

theorem natAbs_mul_le (ha : InRange a) (hb : InRange b) : (a * b).natAbs ≤ 2 ^ 128 := by
  have hm : a.natAbs ≤ 2 ^ 63 := by unfold InRange least greatest at ha; omega
  have hk : b.natAbs ≤ 2 ^ 63 := by unfold InRange least greatest at hb; omega
  calc (a * b).natAbs = a.natAbs * b.natAbs := Int.natAbs_mul a b
    _ ≤ 2 ^ 63 * 2 ^ 63 := Nat.mul_le_mul hm hk
    _ ≤ 2 ^ 128 := by decide

theorem apply_ne_unprintable {op : Binary} (ha : InRange a) (hb : InRange b) :
    op.apply a b ≠ .error .unprintable := by
  have hab : a.natAbs ≤ 2 ^ 63 ∧ b.natAbs ≤ 2 ^ 63 := by
    unfold InRange least greatest at ha hb
    omega
  cases op with
  | add => exact check_ne_unprintable (by omega)
  | sub => exact check_ne_unprintable (by omega)
  | mul => exact check_ne_unprintable (natAbs_mul_le ha hb)
  | div =>
      simp only [apply]
      split
      · simp
      · have hd := Int.natAbs_tdiv_le_natAbs a b
        exact check_ne_unprintable (by omega)
  | mod =>
      simp only [apply]
      split <;> simp
  | eq | lt | gt | and | or => simp [apply]

end Binary

end Cell

/-- The words that rearrange the stack put nothing on it that was not there. -/
theorem Shuffle.mem_of_apply {w : Shuffle} {s s' : List Int} (h : w.apply s = some s') :
    ∀ n ∈ s', n ∈ s := by
  intro n hn
  unfold Shuffle.apply at h
  split at h <;> cases h <;> grind

end Forthlet
