import Forthlet.Proofs.Equations

/-!
# Runs and their budgets

A run that ended by itself is the same under every larger budget. So a family
of runs, one for each budget, either never ends or settles on one outcome, and
what settles is composed and compared without a budget in sight.
-/
namespace Forthlet

abbrev Outcome (α : Type) := EStateM.Result Stop Engine α

namespace Outcome

variable {α : Type}

/-- The state that a run leaves, whether it succeeded or not. -/
def engine : Outcome α → Engine
  | .ok _ e => e
  | .error _ e => e

/-- The run came to its end, so the budget did not stop it. -/
def Ended : Outcome α → Prop
  | .error .outOfFuel _ => False
  | _ => True

instance (r : Outcome α) : Decidable (Ended r) :=
  match r with
  | .ok _ _ => .isTrue trivial
  | .error (.fault _) _ => .isTrue trivial
  | .error .outOfFuel _ => .isFalse id

instance [DecidableEq α] : DecidableEq (Outcome α)
  | .ok a e, .ok b e' => decidable_of_iff (a = b ∧ e = e') (by simp)
  | .error s e, .error s' e' => decidable_of_iff (s = s' ∧ e = e') (by simp)
  | .ok _ _, .error _ _ => .isFalse nofun
  | .error _ _, .ok _ _ => .isFalse nofun

@[simp] theorem engine_error (s : Stop) (e : Engine) :
    engine (.error s e : Outcome α) = e := rfl

end Outcome

open Outcome

namespace Run

variable {α β : Type}

/-- Wherever `m` ends, `m'` ends in the same way. -/
def Extends (m m' : Run α) : Prop := ∀ e, Ended (m.run e) → m'.run e = m.run e

theorem Extends.refl (m : Run α) : Extends m m := fun _ _ => rfl

theorem Extends.bind {m m' : Run α} {f f' : α → Run β} (h : Extends m m')
    (hf : ∀ a, Extends (f a) (f' a)) : Extends (m >>= f) (m' >>= f') := by
  intro e he
  simp only [EStateM.run_bind] at he ⊢
  have hm : Ended (m.run e) := by
    cases hr : m.run e with
    | ok a e' => trivial
    | error s e' => rw [hr] at he; cases s <;> exact he
  rw [h e hm]
  cases hr : m.run e with
  | ok a e' => rw [hr] at he; exact hf a e' he
  | error s e' => rfl

theorem enter_extends {lim : Limits} {depth position : Nat} {body body' : Code → Run Unit}
    (h : ∀ c, Extends (body c) (body' c)) :
    Extends (enter lim depth position body) (enter lim depth position body') := by
  refine (Extends.refl _).bind fun e => ?_
  cases e.dict.get? position with
  | none => exact .refl _
  | some w =>
      simp only
      cases w.body with
      | builtin b => exact .refl _
      | compiled c => exact (Extends.refl _).bind fun _ => h c

theorem code_extends (lim : Limits) {fuel fuel' : Nat} (h : fuel ≤ fuel')
    (depth position : Nat) (instrs : Code) (ip : Int) :
    Extends (code lim fuel depth position instrs ip)
      (code lim fuel' depth position instrs ip) := by
  induction fuel generalizing fuel' depth position instrs ip with
  | zero => intro e he; exact he.elim
  | succ fuel ih =>
      obtain ⟨fuel', rfl⟩ : ∃ n, fuel' = n + 1 := ⟨fuel' - 1, by omega⟩
      have hle : fuel ≤ fuel' := by omega
      match hi : instrs.fetch? ip with
      | none => rw [code_of_none hi, code_of_none hi]; exact .refl _
      | some (.call callee) =>
          rw [code_of_call hi, code_of_call hi]
          exact (enter_extends fun c => ih hle _ _ _ _).bind fun _ => ih hle _ _ _ _
      | some (.lit _) | some (.branch _) | some (.branchIfZero _) | some (.enterLoop _)
      | some (.nextLoop _) | some .index | some (.unknown _) =>
          rw [code_of_step hi (by simp), code_of_step hi (by simp)]
          exact (Extends.refl _).bind fun _ => ih hle _ _ _ _

theorem word_extends (lim : Limits) {fuel fuel' : Nat} (h : fuel ≤ fuel')
    (depth position : Nat) :
    Extends (word lim fuel depth position) (word lim fuel' depth position) :=
  enter_extends fun _ => code_extends lim h _ _ _ _

theorem token_extends (lim : Limits) {fuel fuel' : Nat} (h : fuel ≤ fuel') (text : String) :
    Extends (token lim fuel text) (token lim fuel' text) := by
  refine (Extends.refl _).bind fun e => ?_
  cases e.draft with
  | none =>
      refine (Extends.refl _).bind fun e => ?_
      cases e.dict.find? text with
      | none => exact .refl _
      | some position => exact word_extends lim h 0 position
  | some d =>
      refine (Extends.refl _).bind fun e => ?_
      simp only
      cases e.dict.find? text with
      | none => exact .refl _
      | some position =>
          simp only
          split
          · exact word_extends lim h 0 position
          · exact .refl _

theorem tokens_extends (lim : Limits) {fuel fuel' : Nat} (h : fuel ≤ fuel') (ts : List String) :
    Extends (tokens lim fuel ts) (tokens lim fuel' ts) := by
  fun_induction tokens lim fuel ts with
  | case1 => exact .refl _
  | case2 => exact .refl _
  | case3 name rest ih =>
      rw [tokens]
      exact (Extends.refl _).bind fun _ => ih
  | case4 text rest hlast hname ih =>
      rw [tokens.eq_4 lim fuel' text rest hlast hname]
      exact (token_extends lim h text).bind fun _ => ih

theorem line_extends (lim : Limits) {fuel fuel' : Nat} (h : fuel ≤ fuel') (line : String) :
    Extends (do tokens lim fuel (← lift (Token.ofText line)))
      (do tokens lim fuel' (← lift (Token.ofText line))) :=
  (Extends.refl _).bind fun ts => tokens_extends lim h ts

theorem feed_extends (lim : Limits) {fuel fuel' : Nat} (h : fuel ≤ fuel') (line : String) :
    Extends (feed lim fuel line) (feed lim fuel' line) := by
  intro e he
  rw [run_feed] at he ⊢
  rw [run_feed, line_extends lim h line e ?_]
  cases hr : (do tokens lim fuel (← lift (Token.ofText line)) : Run Unit).run e with
  | ok a e' => trivial
  | error s e' =>
      cases s with
      | fault f => trivial
      | outOfFuel =>
          rw [hr] at he
          exact he

/-- From some budget on, the run ends and the outcome is always `r`. -/
def Settles (m : Nat → Run α) (e : Engine) (r : Outcome α) : Prop :=
  Ended r ∧ ∃ n, ∀ fuel, n ≤ fuel → (m fuel).run e = r

/-- One budget is large enough for both runs. -/
theorem Settles.together {β : Type} {m : Nat → Run α} {m' : Nat → Run β} {e e' : Engine}
    {r : Outcome α} {r' : Outcome β} (h : Settles m e r) (h' : Settles m' e' r') :
    ∃ fuel, (m fuel).run e = r ∧ (m' fuel).run e' = r' := by
  obtain ⟨-, n, hn⟩ := h
  obtain ⟨-, n', hn'⟩ := h'
  exact ⟨max n n', hn _ (Nat.le_max_left _ _), hn' _ (Nat.le_max_right _ _)⟩

theorem Settles.unique {m : Nat → Run α} {e : Engine} {r r' : Outcome α}
    (h : Settles m e r) (h' : Settles m e r') : r = r' := by
  obtain ⟨_, hr, hr'⟩ := h.together h'
  rw [← hr, ← hr']

/-- A run that ended shows what a family settles on that only ever extends it. -/
theorem Settles.of_ended {m : Nat → Run α} {e : Engine} {fuel : Nat}
    (h : ∀ fuel', fuel ≤ fuel' → Extends (m fuel) (m fuel')) (he : Ended ((m fuel).run e)) :
    Settles m e ((m fuel).run e) :=
  ⟨he, fuel, fun fuel' hle => h fuel' hle e he⟩

theorem settles_word {lim : Limits} {fuel depth position : Nat} {e : Engine} {r : Outcome Unit}
    (h : (word lim fuel depth position).run e = r) (hr : Ended r) :
    Settles (fun n => word lim n depth position) e r := by
  subst h
  exact .of_ended (fun _ hle => word_extends lim hle depth position) hr

theorem settles_feed {lim : Limits} {fuel : Nat} {line : String} {e : Engine} {r : Outcome Unit}
    (h : (feed lim fuel line).run e = r) (hr : Ended r) :
    Settles (fun n => feed lim n line) e r := by
  subst h
  exact .of_ended (fun _ hle => feed_extends lim hle line) hr

theorem Settles.const {m : Run α} {e : Engine} {r : Outcome α} (h : m.run e = r)
    (hr : Ended r) : Settles (fun _ => m) e r :=
  ⟨hr, 0, fun _ _ => h⟩

/-- Families that agree wherever the budget is positive settle alike. -/
theorem Settles.of_succ {m m' : Nat → Run α} {e : Engine} {r : Outcome α}
    (h : Settles m e r) (hm : ∀ n, (m' (n + 1)).run e = (m n).run e) : Settles m' e r := by
  obtain ⟨hr, n, hn⟩ := h
  refine ⟨hr, n + 1, fun fuel hle => ?_⟩
  obtain ⟨k, rfl⟩ : ∃ k, fuel = k + 1 := ⟨fuel - 1, by omega⟩
  rw [hm k, hn k (by omega)]

theorem Settles.congr {m m' : Nat → Run α} {e : Engine} {r : Outcome α}
    (h : Settles m e r) (hm : ∀ n, (m' n).run e = (m n).run e) : Settles m' e r := by
  obtain ⟨hr, n, hn⟩ := h
  exact ⟨hr, n, fun fuel hle => by rw [hm fuel, hn fuel hle]⟩

theorem Settles.bind_ok {m : Nat → Run α} {f : Nat → α → Run β} {e e' : Engine} {a : α}
    {r : Outcome β} (h : Settles m e (.ok a e')) (hf : Settles (fun n => f n a) e' r) :
    Settles (fun n => m n >>= f n) e r := by
  obtain ⟨_, n, hn⟩ := h
  obtain ⟨hr, k, hk⟩ := hf
  refine ⟨hr, max n k, fun fuel hle => ?_⟩
  rw [EStateM.run_bind, hn fuel (by omega)]
  exact hk fuel (by omega)

theorem Settles.bind_error {m : Nat → Run α} {f : Nat → α → Run β} {e e' : Engine} {s : Stop}
    (h : Settles m e (.error s e')) : Settles (fun n => m n >>= f n) e (.error s e') := by
  obtain ⟨hr, n, hn⟩ := h
  refine ⟨by cases s <;> exact hr, n, fun fuel hle => ?_⟩
  rw [EStateM.run_bind, hn fuel hle]

theorem Settles.of_bind_ok {m : Nat → Run α} {f : Nat → α → Run β} {e e' : Engine} {a : α}
    {r : Outcome β} (h : Settles (fun n => m n >>= f n) e r) (hm : Settles m e (.ok a e')) :
    Settles (fun n => f n a) e' r := by
  obtain ⟨_, n, hn⟩ := hm
  obtain ⟨hr, k, hk⟩ := h
  refine ⟨hr, max n k, fun fuel hle => ?_⟩
  rw [← hk fuel (by omega), EStateM.run_bind, hn fuel (by omega)]

/-- What follows a run may be replaced by what settles alike after it. -/
theorem Settles.bind_congr {m : Nat → Run α} {f g : Nat → α → Run β} {e : Engine}
    {r : Outcome β} {r₁ : Outcome α} (hm : Settles m e r₁)
    (hfg : ∀ a e', r₁ = .ok a e' → Settles (fun n => f n a) e' r → Settles (fun n => g n a) e' r)
    (h : Settles (fun n => m n >>= f n) e r) : Settles (fun n => m n >>= g n) e r := by
  cases r₁ with
  | error s e' =>
      rw [h.unique hm.bind_error]
      exact hm.bind_error
  | ok a e' => exact hm.bind_ok (hfg a e' rfl (h.of_bind_ok hm))

section
variable {lim : Limits} {depth position : Nat} {instrs : Code} {ip : Int} {e : Engine}
  {r : Outcome Unit}

theorem Settles.code_end (h : instrs.fetch? ip = none) :
    Settles (fun n => code lim n depth position instrs ip) e (.ok () e) := by
  have hd : Settles (fun _ => (pure () : Run Unit)) e (.ok () e) := .const rfl trivial
  refine hd.of_succ fun n => ?_
  rw [code_of_none h]

theorem Settles.code_step {i : Instr Callee} (h : instrs.fetch? ip = some i)
    (hi : ∀ c, i ≠ .call c)
    (hr : Settles (fun n => do code lim n depth position instrs (← step i ip)) e r) :
    Settles (fun n => code lim n depth position instrs ip) e r := by
  refine hr.of_succ fun n => ?_
  rw [code_of_step h hi]

theorem Settles.code_call {callee : Callee} (h : instrs.fetch? ip = some (.call callee))
    (hr : Settles (fun n => do
      word lim n depth (callee.position position)
      code lim n depth position instrs (ip + 1)) e r) :
    Settles (fun n => code lim n depth position instrs ip) e r := by
  refine hr.of_succ fun n => ?_
  rw [code_of_call h]

end

end Run

end Forthlet
