import Mathlib.Data.Nat.Factorial.Basic
import Forthlet.Proofs.Counter
import Forthlet.Proofs.Effects

/-!
# Factorials against the bound on the depth

`FACT` calls itself for the number before, and multiplies on the way back. So the calls reach the
bound on the depth, if they reach it, before any product is computed, and the first product that is
no cell is that of 21, whatever number was asked for. A line that is given up takes nothing away
from the depth that the next one has.
-/
namespace Forthlet

open Outcome Run

/-- The body `DUP 1 > IF DUP 1 - FACT * THEN` of the word `FACT`. -/
def Factorial.body : Block :=
  .ifThen (.ofAtoms [(Builtin.shuffle .dup).atom, .lit 1, (Builtin.binary .gt).atom])
    (.ofAtoms [(Builtin.shuffle .dup).atom, .lit 1, (Builtin.binary .sub).atom, .call .itself,
      (Builtin.binary .mul).atom])

theorem Cell.InRange.of_le {m n : Nat} (hn : InRange n) (h : m ≤ n) : InRange m := by
  unfold InRange least greatest at *
  omega

theorem Cell.inRange_factorial {n : Nat} (h : n ≤ 20) : InRange n.factorial := by
  have htwenty : InRange (Nat.factorial 20) := by decide +kernel
  exact htwenty.of_le (Nat.factorial_le h)

theorem natCast_succ_sub_one (n : Nat) : ((n + 1 : Nat) : Int) - 1 = n := by omega

namespace Engine.Yields

variable {e : Engine} {lim : Limits} {fuel depth : Nat} {name : String} {s : List Int}
  {x : EStateM.Result Fault (List Int) Unit} (hd : e.dict.Equipped)
include hd

theorem factorial_test (n : Int) (s : List Int) :
    e.Yields ((Block.ofAtoms [(Builtin.shuffle .dup).atom, .lit 1, (Builtin.binary .gt).atom]).eval
      (Factorial.body.calls lim fuel name depth)) (n :: s)
      (.ok () ((if n > 1 then -1 else 0) :: n :: s)) := by
  have hdup : e.Yields ((Builtin.shuffle .dup).atom.eval
      (Factorial.body.calls lim fuel name depth)) (n :: s) (.ok () (n :: n :: s)) :=
    .builtin hd (.shuffle rfl)
  have hgreater : e.Yields ((Builtin.binary .gt).atom.eval
      (Factorial.body.calls lim fuel name depth)) (1 :: n :: n :: s)
      (.ok () ((if n > 1 then -1 else 0) :: n :: s)) :=
    .builtin hd (.binary Cell.Binary.apply_gt)
  exact .cons hdup (.cons .lit (.single hgreater))

/-- A number that is not above one is left as it is. -/
theorem factorial_one {n : Int} (hk : lim.checkDepth depth name = .ok ()) (hn : n ≤ 1) :
    e.Yields (Factorial.body.run lim fuel name depth) (n :: s) (.ok () (n :: s)) := by
  refine .run hk (.ifThen (factorial_test hd n s) ?_)
  rw [if_neg (Int.not_lt.mpr hn)]
  exact .nil

/-- For a number above one there is a call for the number before, and a product behind it. -/
theorem factorial_step {n : Int} (hk : lim.checkDepth depth name = .ok ()) (hn : 1 < n)
    (hrange : Cell.InRange n)
    (hrest : e.Yields ((Block.ofAtoms [.call .itself, (Builtin.binary .mul).atom]).eval
      (Factorial.body.calls lim fuel name (depth + 1))) ((n - 1) :: n :: s) x) :
    e.Yields (Factorial.body.run lim fuel name depth) (n :: s) x := by
  have hbefore : Cell.InRange (n - 1) := by
    unfold Cell.InRange Cell.least Cell.greatest at *
    omega
  have hless : Cell.Binary.sub.apply n 1 = .ok (n - 1) := by
    rw [Cell.Binary.apply_sub hrange (by decide), Cell.fit, if_pos hbefore]
  have hdup : e.Yields ((Builtin.shuffle .dup).atom.eval
      (Factorial.body.calls lim fuel name (depth + 1))) (n :: s) (.ok () (n :: n :: s)) :=
    .builtin hd (.shuffle rfl)
  have hsub : e.Yields ((Builtin.binary .sub).atom.eval
      (Factorial.body.calls lim fuel name (depth + 1))) (1 :: n :: n :: s)
      (.ok () ((n - 1) :: n :: s)) := .builtin hd (.binary hless)
  refine .run hk (.ifThen (factorial_test hd n s) ?_)
  rw [if_pos hn]
  exact .cons hdup (.cons .lit (.cons hsub hrest))

variable {n : Nat}

/-- As long as there is room for all calls, the factorials up to that of 20 are computed. -/
theorem factorial (hn : 1 ≤ n) (hle : n ≤ 20) (hk : lim.Admits name depth n) :
    e.Yields (Factorial.body.run lim fuel name depth) (n :: s) (.ok () (n.factorial :: s)) := by
  induction n, hn using Nat.le_induction generalizing depth s with
  | base => exact .factorial_one hd hk.first (Int.le_refl 1)
  | succ n hn ih =>
      have hcall : e.Yields (Factorial.body.run lim fuel name (depth + 1))
          (n :: (n + 1 : Nat) :: s) (.ok () (n.factorial :: (n + 1 : Nat) :: s)) :=
        ih (by omega) hk.rest
      have hrange : Cell.InRange (n + 1 : Nat) := by
        unfold Cell.InRange Cell.least Cell.greatest
        omega
      have hmul : Cell.Binary.mul.apply (n + 1 : Nat) n.factorial = .ok (n + 1).factorial := by
        have hproduct : ((n + 1 : Nat) : Int) * n.factorial = (n + 1).factorial := by
          rw [← Int.natCast_mul, Nat.factorial_succ]
        rw [Cell.Binary.apply_mul hrange (Cell.inRange_factorial (by omega)), hproduct, Cell.fit,
          if_pos (Cell.inRange_factorial hle)]
      refine .factorial_step hd hk.first (by omega) hrange ?_
      rw [natCast_succ_sub_one]
      exact .cons hcall (.single (.builtin hd (.binary hmul)))

/-- A fault of the inner call is one of the outer call, and leaves what was below. -/
theorem factorial_error {f : Fault} (hk : lim.checkDepth depth name = .ok ()) (hn : 1 ≤ n)
    (hrange : Cell.InRange (n + 1 : Nat))
    (h : ∃ t, ∀ fuel, e.Yields (Factorial.body.run lim fuel name (depth + 1))
      (n :: (n + 1 : Nat) :: s) (.error f (t ++ ((n + 1 : Nat) : Int) :: s))) :
    ∃ t, ∀ fuel, e.Yields (Factorial.body.run lim fuel name depth) ((n + 1 : Nat) :: s)
      (.error f (t ++ s)) := by
  obtain ⟨t, ht⟩ := h
  refine ⟨t ++ [((n + 1 : Nat) : Int)], fun fuel => ?_⟩
  refine .factorial_step hd hk (by omega) hrange ?_
  rw [natCast_succ_sub_one, List.append_assoc]
  exact .cons_error (ht fuel)

/-- As long as there is room for all calls, the product for 21 is the first that is no cell. -/
theorem factorial_large (hn : 21 ≤ n) (hrange : Cell.InRange n) (hk : lim.Admits name depth n) :
    ∃ t, ∀ fuel, e.Yields (Factorial.body.run lim fuel name depth) (n :: s)
      (.error (.overflow (Nat.factorial 21)) (t ++ s)) := by
  -- The cells of the calls outside the one for 21 stay on the stack, and make up `t`.
  induction n, hn using Nat.le_induction generalizing depth s with
  | base =>
      refine ⟨[], fun fuel => ?_⟩
      have hcall : e.Yields (Factorial.body.run lim fuel name (depth + 1))
          ((20 : Nat) :: (21 : Nat) :: s) (.ok () (Nat.factorial 20 :: (21 : Nat) :: s)) :=
        .factorial hd (by decide) (Nat.le_refl _) hk.rest
      have hmul : Cell.Binary.mul.apply (21 : Nat) (Nat.factorial 20) =
          .error (.overflow (Nat.factorial 21)) := by decide +kernel
      refine .factorial_step hd hk.first (by decide) hrange ?_
      exact .cons hcall (.single (.builtin hd (.binary_error hmul)))
  | succ n hn ih =>
      exact factorial_error hd hk.first (by omega) hrange
        (ih (hrange.of_le (Nat.le_succ n)) hk.rest)

/-- Where the calls reach the bound on the depth, no product is computed. -/
theorem factorial_deep (hroom : lim.Roomy) (hn : 1 ≤ n) (hrange : Cell.InRange n)
    (hdeep : lim.maxDepth < depth + n) :
    ∃ t, ∀ fuel, e.Yields (Factorial.body.run lim fuel name depth) (n :: s)
      (.error (.depthExceeded name) (t ++ s)) := by
  induction n, hn using Nat.le_induction generalizing depth s with
  | base =>
      refine ⟨[1], fun fuel => .run_error ?_⟩
      rw [hroom.checkDepth, if_pos (by omega)]
  | succ n hn ih =>
      by_cases hle : lim.maxDepth ≤ depth
      · refine ⟨[((n + 1 : Nat) : Int)], fun fuel => .run_error ?_⟩
        rw [hroom.checkDepth, if_pos hle]
      · have hk : lim.checkDepth depth name = .ok () := by
          rw [hroom.checkDepth, if_neg hle]
        have hrest : lim.maxDepth < ((depth + 1 : Nat) : Int) + n := by omega
        exact factorial_error hd hk hn hrange (ih (hrange.of_le (Nat.le_succ n)) hrest)

end Engine.Yields

/-- What `FACT` does to a number under the bound on the depth, and that the words which run are
counted down to none again, whatever comes of it. -/
structure Engine.Factorials (e : Engine) (lim : Limits) : Prop where
  small : ∀ {n : Int}, Cell.InRange n → n ≤ 1 →
    Settles (fun k => feed lim k (callLine [n] "FACT")) e (.ok () { e with stack := n :: e.stack })
  computed : ∀ {n : Nat}, 2 ≤ n → n ≤ 20 → n ≤ lim.maxDepth →
    Settles (fun k => feed lim k (callLine [(n : Int)] "FACT")) e
      (.ok () { e with stack := n.factorial :: e.stack })
  large : ∀ {n : Nat}, Cell.InRange n → 21 ≤ n → n ≤ lim.maxDepth →
    e.GivesUp lim (callLine [(n : Int)] "FACT") (.overflow (Nat.factorial 21))
  deep : ∀ {n : Nat}, Cell.InRange n → 2 ≤ n → lim.maxDepth < n →
    e.GivesUp lim (callLine [(n : Int)] "FACT") (.depthExceeded "FACT")
  counted : ∀ (n : Int) (fuel : Nat),
    (Counted.feed lim fuel (callLine [n] "FACT")).run ⟨e, 0⟩ =
      counted 0 ((feed lim fuel (callLine [n] "FACT")).run e)

/-- The engine after any number of lines that ask for factorials, some of which may have been given
up. -/
inductive Engine.Tries (lim : Limits) (e : Engine) : Engine → Prop
  | refl : Tries lim e e
  | step {e' : Engine} {n : Int} {fuel : Nat} (h : Tries lim e e') (hn : Cell.InRange n)
      (he : Ended ((feed lim fuel (callLine [n] "FACT")).run e')) :
      Tries lim e (engine ((feed lim fuel (callLine [n] "FACT")).run e'))

namespace Engine

variable {e e' : Engine} {lim : Limits}

theorem factorials_of_knows (h : e.Knows "FACT" Factorial.body) (hlim : 1 ≤ lim.maxDepth)
    (hroom : lim.Roomy) : e.Factorials lim where
  small {n} hn hle := by
    have hns : ∀ m ∈ [n], Cell.InRange m := List.forall_mem_singleton.mpr hn
    have hk : lim.checkDepth 0 "FACT" = .ok () := by
      rw [hroom.checkDepth, if_neg (by omega)]
    exact h.settles_call (by decide) (by decide) hns fun _ => .factorial_one h.equipped hk hle
  computed {n} hn hle hmax := by
    have hrange : Cell.InRange n := by
      unfold Cell.InRange Cell.least Cell.greatest
      omega
    have hns : ∀ m ∈ [(n : Int)], Cell.InRange m := List.forall_mem_singleton.mpr hrange
    have hk : lim.Admits "FACT" 0 n := hroom.admits (by omega)
    exact h.settles_call (by decide) (by decide) hns fun _ =>
      .factorial h.equipped (by omega) hle hk
  large {n} hrange hn hmax := by
    have hns : ∀ m ∈ [(n : Int)], Cell.InRange m := List.forall_mem_singleton.mpr hrange
    have hk : lim.Admits "FACT" 0 n := hroom.admits (by omega)
    obtain ⟨t, ht⟩ := Yields.factorial_large (s := e.stack) h.equipped hn hrange hk
    exact h.givesUp (by decide) (by decide) hns rfl ht
  deep {n} hrange hn hmax := by
    have hns : ∀ m ∈ [(n : Int)], Cell.InRange m := List.forall_mem_singleton.mpr hrange
    have hover : lim.maxDepth < ((0 : Nat) : Int) + n := by omega
    obtain ⟨t, ht⟩ := Yields.factorial_deep (s := e.stack) h.equipped hroom (by omega) hrange hover
    exact h.givesUp (by decide) (by decide) hns rfl ht
  counted n fuel := counted_feed lim fuel _ e

/-- Whatever the number is, the words are the same afterwards, and no definition is open. -/
theorem Factorials.keeps (h : e.Factorials lim) (hd : e.draft = none) {n : Int}
    (hn : Cell.InRange n) : ∃ r, Settles (fun k => feed lim k (callLine [n] "FACT")) e r ∧
      (engine r).dict = e.dict ∧ (engine r).draft = none := by
  have hgivesUp : ∀ {f : Fault}, e.GivesUp lim (callLine [n] "FACT") f →
      ∃ r, Settles (fun k => feed lim k (callLine [n] "FACT")) e r ∧
        (engine r).dict = e.dict ∧ (engine r).draft = none :=
    fun ⟨_, _, hr, _, hdict, hdraft, _⟩ => ⟨_, hr, hdict, hdraft⟩
  by_cases hone : n ≤ 1
  · exact ⟨_, h.small hn hone, rfl, hd⟩
  · obtain ⟨m, rfl⟩ := Int.eq_ofNat_of_zero_le (by omega : 0 ≤ n)
    by_cases hdeep : lim.maxDepth < m
    · exact hgivesUp (h.deep hn (by omega) hdeep)
    · by_cases hlarge : 21 ≤ m
      · exact hgivesUp (h.large hn hlarge (by omega))
      · exact ⟨_, h.computed (by omega) (by omega) (by omega), rfl, hd⟩

/-- Asking for factorials leaves the word as it was. -/
theorem Tries.knows (htries : e.Tries lim e') (h : e.Knows "FACT" Factorial.body)
    (hlim : 1 ≤ lim.maxDepth) (hroom : lim.Roomy) : e'.Knows "FACT" Factorial.body := by
  induction htries with
  | refl => exact h
  | step _ hn he ih =>
      obtain ⟨r, hr, hdict, hdraft⟩ := (factorials_of_knows ih hlim hroom).keeps ih.draft hn
      rw [(settles_feed rfl he).unique hr]
      exact ih.of_dict hdict hdraft

end Engine

/-- The word may be called by its name or as the word that is being defined. -/
theorem knows_factorial {line : String}
    (hline : line = ": FACT DUP 1 > IF DUP 1 - FACT * THEN ;" ∨
      line = ": FACT DUP 1 > IF DUP 1 - RECURSE * THEN ;") :
    (∀ lim fuel, (feed lim fuel line).run .fresh =
      .ok () (Engine.fresh.defined "FACT" Factorial.body)) ∧
    (Engine.fresh.defined "FACT" Factorial.body).Knows "FACT" Factorial.body := by
  have hone : Engine.fresh.dict.Reads "FACT" "1" (.atom (.lit 1)) :=
    .number (by decide +kernel) (by decide +kernel) rfl (by decide)
  have hname : Numeral.parse "FACT" = .error (.notANumber "FACT") := by decide +kernel
  have hbody : ∀ {own : String}, Engine.fresh.dict.Reads "FACT" own (.atom (.call .itself)) →
      List.Forall₂ (Engine.fresh.dict.Reads "FACT")
        ["DUP", "1", ">", "IF", "DUP", "1", "-", own, "*", "THEN"] Factorial.body.pieces :=
    fun hown => .cons (.of_builtin (b := .shuffle .dup) rfl) <| .cons hone <|
      .cons (.of_builtin (b := .binary .gt) rfl) <| .cons (.of_piece (b := .ifWord) rfl) <|
      .cons (.of_builtin (b := .shuffle .dup) rfl) <| .cons hone <|
      .cons (.of_builtin (b := .binary .sub) rfl) <| .cons hown <|
      .cons (.of_builtin (b := .binary .mul) rfl) <| .cons (.of_piece (b := .thenWord) rfl) .nil
  rcases hline with rfl | rfl
  · have hown : Engine.fresh.dict.Reads "FACT" "FACT" (.atom (.call .itself)) :=
      .own (by decide) (by decide +kernel) rfl
    have htokens : Token.ofText ": FACT DUP 1 > IF DUP 1 - FACT * THEN ;" =
        .ok (":" :: "FACT" ::
          (["DUP", "1", ">", "IF", "DUP", "1", "-", "FACT", "*", "THEN"] ++ [";"])) := by
      decide +kernel
    exact Engine.knows_defined .fresh rfl Dictionary.standard_builtins
      Dictionary.equipped_builtins hname (hbody hown) htokens
  · have htokens : Token.ofText ": FACT DUP 1 > IF DUP 1 - RECURSE * THEN ;" =
        .ok (":" :: "FACT" ::
          (["DUP", "1", ">", "IF", "DUP", "1", "-", "RECURSE", "*", "THEN"] ++ [";"])) := by
      decide +kernel
    exact Engine.knows_defined .fresh rfl Dictionary.standard_builtins
      Dictionary.equipped_builtins hname (hbody (.of_piece (b := .recurse) rfl)) htokens

/-- In a fresh engine, after the definition of `FACT`, a number that is not above one is left as it
is. Any other number up to the bound on the depth is replaced by its factorial if that is a cell,
and ends with an overflow if it is not. A number above the bound ends with too deep a call, however
large its factorial is. And so it is after any number of such lines, failed ones among them: each
has the whole depth for itself. -/
theorem factorial_meets_bound {lim : Limits} (hlim : 1 ≤ lim.maxDepth) (hroom : lim.Roomy)
    {line : String} (hline : line = ": FACT DUP 1 > IF DUP 1 - FACT * THEN ;" ∨
      line = ": FACT DUP 1 > IF DUP 1 - RECURSE * THEN ;") :
    ∃ e, (∀ fuel, (feed lim fuel line).run .fresh = .ok () e) ∧ e.stack = [] ∧
      ∀ e', e.Tries lim e' → e'.Factorials lim := by
  obtain ⟨hrun, hknows⟩ := knows_factorial hline
  refine ⟨_, hrun lim, rfl, fun e' htries => ?_⟩
  exact Engine.factorials_of_knows (htries.knows hknows hlim hroom) hlim hroom

/-- A session with the word, where five words may run inside each other. -/
def multiplying : Engine :=
  engine ((feed ⟨5, none⟩ 0 ": FACT DUP 1 > IF DUP 1 - RECURSE * THEN ;").run .fresh)

/-- The same session after a line that was given up. -/
def exhausted : Engine := engine ((feed ⟨5, none⟩ 100 "6 FACT").run multiplying)

/-- Six calls are one too many; after that there is room for five again. -/
theorem factorial_meets_bound_five :
    multiplying.GivesUp ⟨5, none⟩ "6 FACT" (.depthExceeded "FACT") ∧
    exhausted.stack = [1, 2, 3, 4, 5, 6] ∧
    Settles (fun n => feed ⟨5, none⟩ n "5 FACT") exhausted
      (.ok () { exhausted with stack := [120, 1, 2, 3, 4, 5, 6] }) := by
  have hlim : (1 : Int) ≤ Limits.maxDepth ⟨5, none⟩ := by decide
  have hroom : Limits.Roomy ⟨5, none⟩ := nofun
  obtain ⟨e, hdefine, -, h⟩ := factorial_meets_bound hlim hroom (.inr rfl)
  have he : multiplying = e := by
    rw [multiplying, hdefine]
    rfl
  subst he
  have hfive : callLine [5] "FACT" = "5 FACT" := by decide +kernel
  have hsix : callLine [6] "FACT" = "6 FACT" := by decide +kernel
  have hstack : exhausted.stack = [1, 2, 3, 4, 5, 6] := by decide +kernel
  have htry : multiplying.Tries ⟨5, none⟩ exhausted := by
    have hended : Ended ((feed ⟨5, none⟩ 100 (callLine [6] "FACT")).run multiplying) := by
      decide +kernel
    have hstep := Engine.Tries.step .refl (by decide) hended
    rwa [hsix] at hstep
  have hdeep := (h _ .refl).deep (n := 6) (by decide) (by decide) (by decide)
  have hcomputed := (h _ htry).computed (n := 5) (by decide) (by decide) (by decide)
  refine ⟨hsix ▸ hdeep, hstack, ?_⟩
  rw [hstack] at hcomputed
  exact hfive ▸ hcomputed

end Forthlet
