import Forthlet.Proofs.Effects

/-!
# Greatest common divisors

`GCD` calls itself with the second number and the remainder, which has the sign of the first number,
until the remainder is zero. Two remainders halve the second number at least, so the calls for any
two cells stay far from the bound on the depth.
-/
namespace Forthlet

open Outcome Run

namespace Euclid

/-- How many remainders are taken until one is zero. -/
def remainders (a b : Int) : Nat :=
  if b = 0 then 0 else remainders b (a.tmod b) + 1
termination_by b.natAbs
decreasing_by
  rw [Int.natAbs_tmod]
  exact Nat.mod_lt _ (by omega)

/-- The divisor that leaves no remainder. -/
def divisor (a b : Int) : Int :=
  if b = 0 then a else divisor b (a.tmod b)
termination_by b.natAbs
decreasing_by
  rw [Int.natAbs_tmod]
  exact Nat.mod_lt _ (by omega)

variable {a b : Int}

theorem remainders_zero : remainders a 0 = 0 := by
  rw [remainders, if_pos rfl]

theorem remainders_of_ne (h : b ≠ 0) : remainders a b = remainders b (a.tmod b) + 1 := by
  rw [remainders, if_neg h]

theorem divisor_zero : divisor a 0 = a := by
  rw [divisor, if_pos rfl]

theorem divisor_of_ne (h : b ≠ 0) : divisor a b = divisor b (a.tmod b) := by
  rw [divisor, if_neg h]

theorem natAbs_divisor (a b : Int) : (divisor a b).natAbs = Int.gcd a b := by
  induction a, b using divisor.induct with
  | case1 a => rw [divisor_zero, Int.gcd_zero_right]
  | case2 a b h ih =>
      rw [divisor_of_ne h, ih, Int.gcd, Int.natAbs_tmod, Nat.gcd_comm, ← Nat.gcd_rec,
        Nat.gcd_comm, Int.gcd]

theorem inRange_divisor (ha : Cell.InRange a) (hb : Cell.InRange b) :
    Cell.InRange (divisor a b) := by
  induction a, b using divisor.induct with
  | case1 a => rwa [divisor_zero]
  | case2 a b h ih =>
      rw [divisor_of_ne h]
      exact ih hb (Cell.inRange_tmod ha)

theorem mod_lt_half {m r : Nat} (hr : 0 < r) (h : r ≤ m) : 2 * (m % r) < m := by
  have hlt := Nat.mod_lt m hr
  have hle : m % r ≤ m - r := by
    rw [Nat.mod_eq_sub_mod h]
    exact Nat.mod_le _ _
  omega

/-- Two remainders take one bit at least. -/
theorem remainders_le {k : Nat} (h : b.natAbs < 2 ^ k) : remainders a b ≤ 2 * k := by
  -- One remainder may be nearly as large as the divisor, so the induction takes two at a time.
  induction k generalizing a b with
  | zero =>
      have hb : b = 0 := by omega
      rw [hb, remainders_zero]
  | succ k ih =>
      by_cases hb : b = 0
      · rw [hb, remainders_zero]
        exact Nat.zero_le _
      · rw [remainders_of_ne hb]
        by_cases hr : a.tmod b = 0
        · rw [hr, remainders_zero]
          omega
        · have hlt : (a.tmod b).natAbs < b.natAbs := by
            rw [Int.natAbs_tmod]
            exact Nat.mod_lt _ (by omega)
          have hhalf : 2 * (b.tmod (a.tmod b)).natAbs < b.natAbs := by
            rw [Int.natAbs_tmod b]
            exact mod_lt_half (by omega) (Nat.le_of_lt hlt)
          have hrest := ih (a := a.tmod b) (b := b.tmod (a.tmod b)) (by omega)
          rw [remainders_of_ne hr]
          omega

end Euclid

/-- The body `DUP 0 = IF DROP ELSE SWAP OVER MOD GCD THEN` of the word `GCD`. -/
def Euclid.body : Block :=
  .ifElse (.ofAtoms [(Builtin.shuffle .dup).atom, .lit 0, (Builtin.binary .eq).atom])
    (.ofAtoms [(Builtin.shuffle .drop).atom])
    (.ofAtoms [(Builtin.shuffle .swap).atom, (Builtin.shuffle .over1).atom,
      (Builtin.binary .mod).atom, .call .itself])

namespace Engine.Yields

variable {e : Engine} {lim : Limits} {fuel depth : Nat} {name : String} {a b : Int} {s : List Int}
  (hd : e.dict.Equipped)
include hd

/-- On two numbers the body leaves the first one, or does with the second one and the remainder
whatever it does one level deeper. -/
theorem gcd_step {x : EStateM.Result Fault (List Int) Unit}
    (hk : lim.checkDepth depth name = .ok ()) (hzero : b = 0 → x = .ok () (a :: s))
    (hrest : b ≠ 0 →
      e.Yields (Euclid.body.run lim fuel name (depth + 1)) (a.tmod b :: b :: s) x) :
    e.Yields (Euclid.body.run lim fuel name depth) (b :: a :: s) x := by
  have hdup : e.Yields ((Builtin.shuffle .dup).atom.eval
      (Euclid.body.calls lim fuel name (depth + 1))) (b :: a :: s) (.ok () (b :: b :: a :: s)) :=
    .builtin hd (.shuffle rfl)
  have hequal : e.Yields ((Builtin.binary .eq).atom.eval
      (Euclid.body.calls lim fuel name (depth + 1))) (0 :: b :: b :: a :: s)
      (.ok () ((if b = 0 then -1 else 0) :: b :: a :: s)) :=
    .builtin hd (.binary Cell.Binary.apply_eq)
  refine .run hk (.ifElse (.cons hdup (.cons .lit (.single hequal))) ?_)
  by_cases hb : b = 0
  · subst hb
    rw [hzero rfl]
    exact .single (.builtin hd (.shuffle rfl))
  · rw [if_neg hb]
    have hswap : e.Yields ((Builtin.shuffle .swap).atom.eval
        (Euclid.body.calls lim fuel name (depth + 1))) (b :: a :: s) (.ok () (a :: b :: s)) :=
      .builtin hd (.shuffle rfl)
    have hover : e.Yields ((Builtin.shuffle .over1).atom.eval
        (Euclid.body.calls lim fuel name (depth + 1))) (a :: b :: s)
        (.ok () (b :: a :: b :: s)) := .builtin hd (.shuffle rfl)
    have hmod : e.Yields ((Builtin.binary .mod).atom.eval
        (Euclid.body.calls lim fuel name (depth + 1))) (b :: a :: b :: s)
        (.ok () (a.tmod b :: b :: s)) := .builtin hd (.binary (Cell.Binary.apply_mod hb))
    have hcall : e.Yields (Atom.eval (Euclid.body.calls lim fuel name (depth + 1)) (.call .itself))
        (a.tmod b :: b :: s) x := hrest hb
    exact .cons hswap (.cons hover (.cons hmod (.single hcall)))

theorem gcd (hk : lim.Admits name depth (Euclid.remainders a b + 1)) :
    e.Yields (Euclid.body.run lim fuel name depth) (b :: a :: s)
      (.ok () (Euclid.divisor a b :: s)) := by
  -- Each round of the recursion is a call, and takes one off those that are admitted.
  induction a, b using Euclid.divisor.induct generalizing depth with
  | case1 a =>
      rw [Euclid.divisor_zero]
      exact .gcd_step hd hk.first (fun _ => rfl) fun h => absurd rfl h
  | case2 a b h ih =>
      rw [Euclid.remainders_of_ne h] at hk
      rw [Euclid.divisor_of_ne h]
      exact .gcd_step hd hk.first (fun h' => absurd h' h) fun _ => ih hk.rest

/-- Two cells take far less calls than the default bound allows. -/
theorem gcd_of_inRange (hb : Cell.InRange b) :
    e.Yields (Euclid.body.run {} fuel name 0) (b :: a :: s) (.ok () (Euclid.divisor a b :: s)) := by
  have hbits : b.natAbs < 2 ^ 64 := by
    unfold Cell.InRange Cell.least Cell.greatest at hb
    omega
  have hroom : Limits.Roomy {} := by
    intro k hk
    cases hk
    decide
  have hle := Euclid.remainders_le (a := a) hbits
  have hmax : ((0 : Nat) + (Euclid.remainders a b + 1 : Nat) : Int) ≤ 300 := by omega
  exact .gcd hd (hroom.admits hmax)

end Engine.Yields

theorem knows_gcd : (∀ lim fuel,
    (feed lim fuel ": GCD DUP 0 = IF DROP ELSE SWAP OVER MOD GCD THEN ;").run .fresh =
      .ok () (Engine.fresh.defined "GCD" Euclid.body)) ∧
    (Engine.fresh.defined "GCD" Euclid.body).Knows "GCD" Euclid.body := by
  have hzero : Engine.fresh.dict.Reads "GCD" "0" (.atom (.lit 0)) :=
    .number (by decide +kernel) (by decide +kernel) rfl (by decide)
  have hgcd : Engine.fresh.dict.Reads "GCD" "GCD" (.atom (.call .itself)) :=
    .own (by decide) (by decide +kernel) rfl
  have hbody : List.Forall₂ (Engine.fresh.dict.Reads "GCD")
      ["DUP", "0", "=", "IF", "DROP", "ELSE", "SWAP", "OVER", "MOD", "GCD", "THEN"]
      Euclid.body.pieces :=
    .cons (.of_builtin (b := .shuffle .dup) rfl) <| .cons hzero <|
      .cons (.of_builtin (b := .binary .eq) rfl) <| .cons (.of_piece (b := .ifWord) rfl) <|
      .cons (.of_builtin (b := .shuffle .drop) rfl) <| .cons (.of_piece (b := .elseWord) rfl) <|
      .cons (.of_builtin (b := .shuffle .swap) rfl) <|
      .cons (.of_builtin (b := .shuffle .over1) rfl) <|
      .cons (.of_builtin (b := .binary .mod) rfl) <| .cons hgcd <|
      .cons (.of_piece (b := .thenWord) rfl) .nil
  have hline : Token.ofText ": GCD DUP 0 = IF DROP ELSE SWAP OVER MOD GCD THEN ;" =
      .ok (":" :: "GCD" :: (["DUP", "0", "=", "IF", "DROP", "ELSE", "SWAP", "OVER", "MOD", "GCD",
        "THEN"] ++ [";"])) := by decide +kernel
  have hname : Numeral.parse "GCD" = .error (.notANumber "GCD") := by decide +kernel
  exact Engine.knows_defined .fresh rfl Dictionary.standard_builtins Dictionary.equipped_builtins
    hname hbody hline

/-- In a fresh engine with the default bound, after the definition of `GCD`, two cells before the
name end without a fault in a cell that is their greatest common divisor up to its sign. This is so
whatever the engine did since, as long as it has defined no other word and no definition is open;
and the cells below, the running loops and all else in the engine stay as they are. -/
theorem gcd_computes : ∃ e,
    (∀ fuel, (feed {} fuel ": GCD DUP 0 = IF DROP ELSE SWAP OVER MOD GCD THEN ;").run .fresh =
      .ok () e) ∧
    ∀ e', e'.dict = e.dict → e'.draft = none → ∀ {a b : Int}, Cell.InRange a → Cell.InRange b →
      ∃ g, Cell.InRange g ∧ g.natAbs = Int.gcd a b ∧
        Settles (fun n => feed {} n (callLine [a, b] "GCD")) e'
          (.ok () { e' with stack := g :: e'.stack }) := by
  obtain ⟨hrun, hknows⟩ := knows_gcd
  refine ⟨_, hrun {}, fun e' hdict hdraft {a b} ha hb => ?_⟩
  have hknows' := hknows.of_dict hdict hdraft
  have hns : ∀ n ∈ [a, b], Cell.InRange n := by
    simp [ha, hb]
  refine ⟨Euclid.divisor a b, Euclid.inRange_divisor ha hb, Euclid.natAbs_divisor a b, ?_⟩
  exact hknows'.settles_call (by decide) (by decide) hns fun fuel =>
    .gcd_of_inRange hknows'.equipped hb

/-- A session with the word. -/
def dividing : Engine :=
  engine ((feed {} 0 ": GCD DUP 0 = IF DROP ELSE SWAP OVER MOD GCD THEN ;").run .fresh)

/-- The least cell with itself, above another one and in a running loop. What is left is the least
cell again, since its absolute value is no cell. -/
theorem gcd_computes_least :
    Settles (fun n => feed {} n "-9223372036854775808 -9223372036854775808 GCD")
      { dividing with stack := [7], loops := [⟨0, 5⟩] }
      (.ok () { dividing with stack := [-9223372036854775808, 7], loops := [⟨0, 5⟩] }) := by
  obtain ⟨e, hdefine, h⟩ := gcd_computes
  have he : dividing = e := by
    rw [dividing, hdefine]
    rfl
  have hdict : dividing.dict = e.dict := by rw [he]
  have hdraft : dividing.draft = none := by decide +kernel
  have hline : callLine [Cell.least, Cell.least] "GCD" =
      "-9223372036854775808 -9223372036854775808 GCD" := by decide +kernel
  obtain ⟨g, hg, hgcd, hsettles⟩ := h { dividing with stack := [7], loops := [⟨0, 5⟩] }
    hdict hdraft (a := Cell.least) (b := Cell.least) (by decide) (by decide)
  rw [hline] at hsettles
  have hleast : g = -9223372036854775808 := by
    rw [Int.gcd_self] at hgcd
    unfold Cell.InRange Cell.least Cell.greatest at *
    omega
  rwa [hleast] at hsettles

end Forthlet
