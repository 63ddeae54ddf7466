import Forthlet.Proofs.Budget
import Forthlet.Proofs.CellRange

/-!
# Exact arithmetic

The words of arithmetic compute on integers of any size and look at the range afterwards, the
bitwise ones on numbers with endless bits. On cells this is exact: what they leave is the result of
the operation on integers, or of the operation on the 64 bits of the operands, and they refuse
exactly the results that are no cells.
-/
namespace Forthlet

namespace Cell

/-- The 64 bits of a number in two's complement. -/
def bits (n : Int) : BitVec 64 := BitVec.ofInt 64 n

/-- The number itself if it is a cell, an overflow otherwise. -/
def fit (n : Int) : Except Fault Int :=
  if InRange n then .ok n else .error (.overflow n)

/-- Division toward zero: the remainder is smaller than the divisor and has the sign of the
dividend. -/
structure Divides (a b q r : Int) : Prop where
  eq : a = q * b + r
  lt : r.natAbs < b.natAbs
  sign : r = 0 ∨ r.sign = a.sign

variable {a b n q r : Int}

theorem toInt_bits (h : InRange n) : (bits n).toInt = n := by
  unfold InRange least greatest at h
  exact BitVec.toInt_ofInt_eq_self (by decide) (by omega) (by omega)

theorem bits_ofNat (m : Nat) : bits (.ofNat m) = BitVec.ofNat 64 m := BitVec.ofInt_natCast 64 m

theorem bits_negSucc (m : Nat) : bits (.negSucc m) = ~~~BitVec.ofNat 64 m :=
  BitVec.ofInt_negSucc_eq_not_ofNat

theorem ofNat_clearBits (m k : Nat) :
    BitVec.ofNat 64 (clearBits m k) = BitVec.ofNat 64 m &&& ~~~BitVec.ofNat 64 k := by
  rw [clearBits, BitVec.ofNat_xor, BitVec.ofNat_and]
  ext i hi
  simp only [BitVec.getElem_xor, BitVec.getElem_and, BitVec.getElem_not]
  cases (BitVec.ofNat 64 m)[i] <;> simp

theorem bits_bitAnd (a b : Int) : bits (bitAnd a b) = bits a &&& bits b := by
  cases a with
  | ofNat m =>
      cases b with
      | ofNat k => simp only [bitAnd, bits_ofNat, BitVec.ofNat_and]
      | negSucc k => simp only [bitAnd, bits_ofNat, bits_negSucc, ofNat_clearBits]
  | negSucc m =>
      cases b with
      | ofNat k => simp only [bitAnd, bits_ofNat, bits_negSucc, ofNat_clearBits, BitVec.and_comm]
      | negSucc k => simp only [bitAnd, bits_negSucc, BitVec.ofNat_or, BitVec.not_or]

theorem bits_bitOr (a b : Int) : bits (bitOr a b) = bits a ||| bits b := by
  cases a with
  | ofNat m =>
      cases b with
      | ofNat k => simp only [bitOr, bits_ofNat, BitVec.ofNat_or]
      | negSucc k =>
          simp only [bitOr, bits_ofNat, bits_negSucc, ofNat_clearBits, BitVec.not_and,
            BitVec.not_not, BitVec.or_comm]
  | negSucc m =>
      cases b with
      | ofNat k =>
          simp only [bitOr, bits_ofNat, bits_negSucc, ofNat_clearBits, BitVec.not_and,
            BitVec.not_not]
      | negSucc k => simp only [bitOr, bits_negSucc, BitVec.ofNat_and, BitVec.not_and]

theorem bits_bitNot (n : Int) : bits (bitNot n) = ~~~bits n := by
  cases n with
  | ofNat m =>
      have hnot : bitNot (.ofNat m) = .negSucc m := by
        unfold bitNot
        rw [Int.ofNat_eq_natCast]
        omega
      rw [hnot, bits_negSucc, bits_ofNat]
  | negSucc m =>
      have hnot : bitNot (.negSucc m) = .ofNat m := by
        unfold bitNot
        rw [Int.ofNat_eq_natCast]
        omega
      rw [hnot, bits_negSucc, bits_ofNat, BitVec.not_not]

theorem divides_tdiv (hb : b ≠ 0) : Divides a b (a.tdiv b) (a.tmod b) where
  eq := (Int.tdiv_mul_add_tmod a b).symm
  lt := by
    rw [Int.natAbs_tmod]
    exact Nat.mod_lt _ (by omega)
  sign := by
    rw [Int.sign_tmod]
    split
    · next hdvd => exact .inl (Int.tmod_eq_zero_of_dvd hdvd)
    · exact .inr rfl

/-- There is only one way to divide so. -/
theorem Divides.unique (h : Divides a b q r) : q = a.tdiv b ∧ r = a.tmod b := by
  have hb : b ≠ 0 := by
    have := h.lt
    omega
  have heq := h.eq
  have hlt := h.lt
  rw [Int.mul_comm] at heq
  rcases Int.le_total 0 a with ha | ha
  · have hr : 0 ≤ r := by
      rcases h.sign with rfl | hs
      · exact Int.le_refl 0
      · rw [← Int.sign_nonneg_iff] at ha ⊢
        omega
    obtain ⟨hq, hm⟩ := (Int.tdiv_tmod_unique ha hb (q := q) (r := r)).mpr (by omega)
    exact ⟨hq.symm, hm.symm⟩
  · have hr : r ≤ 0 := by
      rcases h.sign with rfl | hs
      · exact Int.le_refl 0
      · rw [← Int.sign_nonpos_iff] at ha ⊢
        omega
    obtain ⟨hq, hm⟩ := (Int.tdiv_tmod_unique' ha hb (q := q) (r := r)).mpr (by omega)
    exact ⟨hq.symm, hm.symm⟩

/-- Only one quotient of cells is no cell. -/
theorem inRange_tdiv_iff (ha : InRange a) (hb : b ≠ 0) :
    InRange (a.tdiv b) ↔ ¬ (a = least ∧ b = -1) := by
  constructor
  · rintro h ⟨rfl, rfl⟩
    revert h
    decide
  · intro hne
    have hdiv : (a.tdiv b).natAbs = a.natAbs / b.natAbs := Int.natAbs_tdiv a b
    unfold InRange least greatest at *
    by_cases hone : b.natAbs = 1
    · have hcases : b = 1 ∨ b = -1 := by omega
      rcases hcases with rfl | rfl
      · rw [Int.tdiv_one]
        exact ha
      · rw [Int.tdiv_neg, Int.tdiv_one]
        omega
    · have hhalf : a.natAbs / b.natAbs ≤ a.natAbs / 2 :=
        Nat.div_le_div_left (by omega) (by decide)
      omega

namespace Binary

variable (ha : InRange a) (hb : InRange b)
include ha hb

theorem apply_add : add.apply a b = fit (a + b) :=
  check_of_natAbs_le (by unfold InRange least greatest at *; omega)

theorem apply_sub : sub.apply a b = fit (a - b) :=
  check_of_natAbs_le (by unfold InRange least greatest at *; omega)

theorem apply_mul : mul.apply a b = fit (a * b) :=
  check_of_natAbs_le (natAbs_mul_le ha hb)

theorem apply_and : and.apply a b = .ok (bits a &&& bits b).toInt := by
  rw [← bits_bitAnd, toInt_bits (inRange_bitAnd ha hb)]
  rfl

theorem apply_or : or.apply a b = .ok (bits a ||| bits b).toInt := by
  rw [← bits_bitOr, toInt_bits (inRange_bitOr ha hb)]
  rfl

omit hb in
theorem apply_div (hne : b ≠ 0) : div.apply a b =
    if a = least ∧ b = -1 then .error (.overflow (a.tdiv b)) else .ok (a.tdiv b) := by
  have hsmall : (a.tdiv b).natAbs ≤ 2 ^ 128 := by
    have := Int.natAbs_tdiv_le_natAbs a b
    unfold InRange least greatest at ha
    omega
  simp only [apply, if_neg hne, check_of_natAbs_le hsmall, inRange_tdiv_iff ha hne, ite_not]

omit ha hb

theorem apply_div_zero : div.apply a 0 = .error .divisionByZero := by
  simp [apply]

theorem apply_mod_zero : mod.apply a 0 = .error .divisionByZero := by
  simp [apply]

theorem apply_mod (hne : b ≠ 0) : mod.apply a b = .ok (a.tmod b) := if_neg hne

theorem apply_eq : eq.apply a b = .ok (if a = b then -1 else 0) := by
  simp [apply, flag]

theorem apply_lt : lt.apply a b = .ok (if a < b then -1 else 0) := by
  simp [apply, flag]

theorem apply_gt : gt.apply a b = .ok (if a > b then -1 else 0) := by
  simp [apply, flag]

end Binary

end Cell

/-- How a word ends that took its operands and answers so, with the cells in `s` below them. -/
def Engine.reply (e : Engine) (s : List Int) : Except Fault Int → Outcome Unit
  | .ok n => .ok () { e with stack := n :: s }
  | .error f => .error (.fault f) { e with stack := s }

/-- The word takes two operands, which have the cells in `s` below them, and answers so. -/
def Engine.Computes (e : Engine) (s : List Int) (op : Cell.Binary) (x : Except Fault Int) : Prop :=
  (Primitive.exec (.binary op)).run e = e.reply s x

namespace Primitive

open Run

variable {e : Engine} {a b n : Int} {s : List Int}

theorem computes_apply (op : Cell.Binary) (hs : e.stack = b :: a :: s) :
    e.Computes s op (op.apply a b) := by
  unfold Engine.Computes
  have hb : pop.run e = .ok b { e with stack := a :: s } := run_pop_cons hs
  have ha : pop.run { e with stack := a :: s } = .ok a { e with stack := s } := run_pop_cons rfl
  rw [exec, binary, EStateM.run_bind, hb]
  simp only [EStateM.run_bind, ha]
  cases op.apply a b <;> rfl

/-- A word that misses an operand has used up the other one. -/
theorem run_binary_short (op : Cell.Binary) (hs : e.stack.length < 2) :
    (exec (.binary op)).run e = .error (.fault .stackUnderflow) { e with stack := [] } := by
  rw [exec, binary, EStateM.run_bind]
  match h : e.stack, hs with
  | [], _ =>
      rw [run_pop_nil h]
      simp [← h]
  | [b], _ =>
      have hb : pop.run e = .ok b { e with stack := [] } := run_pop_cons h
      rw [hb]
      simp only [EStateM.run_bind, run_pop_nil (e := { e with stack := [] }) rfl]

theorem run_bitNot (hs : e.stack = a :: s) :
    (exec .bitNot).run e = .ok () { e with stack := Cell.bitNot a :: s } := by
  rw [exec, EStateM.run_bind, run_pop_cons hs]
  rfl

/-- Whatever the fault is, two operands are used up, or all there are. -/
theorem stack_of_error {op : Cell.Binary} {stop : Stop} {e' : Engine}
    (h : (exec (.binary op)).run e = .error stop e') :
    e' = { e with stack := e.stack.drop 2 } := by
  match hs : e.stack with
  | [] | [_] =>
      rw [run_binary_short op (by simp [hs])] at h
      cases h
      rfl
  | b :: a :: s =>
      rw [computes_apply op hs] at h
      cases hop : op.apply a b with
      | ok n =>
          rw [hop] at h
          cases h
      | error f =>
          rw [hop] at h
          cases h
          rfl

end Primitive

open Cell Primitive

/-- On two cells the words of arithmetic leave the exact result if it is a cell, and report an
overflow otherwise. There is one quotient and one remainder toward zero unless the divisor is zero,
and only one quotient overflows. The bitwise words work on the 64 bits of the cells, comparisons
leave -1 or 0, and nothing but the operands is touched. A word of two operands that fails has used
them up, or the only one there was. -/
theorem arithmetic_exact (e : Engine) :
    (∀ {a b : Int} {s : List Int}, e.stack = b :: a :: s → InRange a → InRange b →
      e.Computes s .add (fit (a + b)) ∧
      e.Computes s .sub (fit (a - b)) ∧
      e.Computes s .mul (fit (a * b)) ∧
      (b = 0 → e.Computes s .div (.error .divisionByZero) ∧
        e.Computes s .mod (.error .divisionByZero)) ∧
      (b ≠ 0 → ∃ q r, Divides a b q r ∧ (∀ q' r', Divides a b q' r' → q' = q ∧ r' = r) ∧
        e.Computes s .div (if a = least ∧ b = -1 then .error (.overflow q) else .ok q) ∧
        e.Computes s .mod (.ok r)) ∧
      e.Computes s .and (.ok (bits a &&& bits b).toInt) ∧
      e.Computes s .or (.ok (bits a ||| bits b).toInt) ∧
      e.Computes s .eq (.ok (if a = b then -1 else 0)) ∧
      e.Computes s .lt (.ok (if a < b then -1 else 0)) ∧
      e.Computes s .gt (.ok (if a > b then -1 else 0))) ∧
    (∀ {a : Int} {s : List Int}, e.stack = a :: s → InRange a →
      (exec .bitNot).run e = e.reply s (.ok (~~~bits a).toInt)) ∧
    (∀ op : Binary, e.stack.length < 2 →
      (exec (.binary op)).run e = .error (.fault .stackUnderflow) { e with stack := [] }) ∧
    ∀ (op : Binary) (stop : Stop) (e' : Engine), (exec (.binary op)).run e = .error stop e' →
      e' = { e with stack := e.stack.drop 2 } := by
  refine ⟨fun {a b s} hs ha hb => ?_, fun {a s} hs ha => ?_, fun op hs => run_binary_short op hs,
    fun _ _ _ h => stack_of_error h⟩
  · have happly := fun op => computes_apply op hs
    refine ⟨?_, ?_, ?_, ?_, fun hne => ?_, ?_, ?_, ?_, ?_, ?_⟩
    · rw [← Binary.apply_add ha hb]
      exact happly .add
    · rw [← Binary.apply_sub ha hb]
      exact happly .sub
    · rw [← Binary.apply_mul ha hb]
      exact happly .mul
    · rintro rfl
      exact ⟨Binary.apply_div_zero ▸ happly .div, Binary.apply_mod_zero ▸ happly .mod⟩
    · refine ⟨a.tdiv b, a.tmod b, divides_tdiv hne, fun _ _ h => h.unique, ?_, ?_⟩
      · rw [← Binary.apply_div ha hne]
        exact happly .div
      · rw [← Binary.apply_mod hne]
        exact happly .mod
    · rw [← Binary.apply_and ha hb]
      exact happly .and
    · rw [← Binary.apply_or ha hb]
      exact happly .or
    · rw [← Binary.apply_eq]
      exact happly .eq
    · rw [← Binary.apply_lt]
      exact happly .lt
    · rw [← Binary.apply_gt]
      exact happly .gt
  · rw [run_bitNot hs, ← bits_bitNot, toInt_bits (inRange_bitNot ha)]
    rfl

/-- The quotient that overflows, on top of another cell; a division of numbers with two signs; and
a sum that misses an operand. -/
theorem arithmetic_exact_extremes :
    Engine.Computes { Engine.fresh with stack := [-1, least, 5] } [5] .div
      (.error (.overflow 9223372036854775808)) ∧
    Engine.Computes { Engine.fresh with stack := [-2, 7] } [] .div (.ok (-3)) ∧
    Engine.Computes { Engine.fresh with stack := [-2, 7] } [] .mod (.ok 1) ∧
    (exec (.binary .add)).run { Engine.fresh with stack := [4] } =
      .error (.fault .stackUnderflow) .fresh := by
  obtain ⟨hcells, -⟩ := arithmetic_exact { Engine.fresh with stack := [-1, least, 5] }
  obtain ⟨-, -, -, -, hleast, -⟩ := hcells rfl (by decide) (by decide)
  obtain ⟨q, r, -, hunique, hq, -⟩ := hleast (by decide)
  obtain ⟨rfl, rfl⟩ := hunique 9223372036854775808 0 ⟨by decide, by decide, .inl rfl⟩
  obtain ⟨hsmall, -⟩ := arithmetic_exact { Engine.fresh with stack := [-2, 7] }
  obtain ⟨-, -, -, -, hseven, -⟩ := hsmall rfl (by decide) (by decide)
  obtain ⟨q, r, -, hunique, hquotient, hrest⟩ := hseven (by decide)
  obtain ⟨rfl, rfl⟩ := hunique (-3) 1 ⟨by decide, by decide, .inr rfl⟩
  obtain ⟨-, -, hshort, -⟩ := arithmetic_exact { Engine.fresh with stack := [4] }
  exact ⟨hq, hquotient, hrest, hshort .add (by decide)⟩

end Forthlet
