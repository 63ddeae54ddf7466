import Forthlet.Proofs.Budget
import Forthlet.Proofs.Compilation

/-!
# Counting the words that run

A run is told how many words are running that have not returned. An engine can count them itself:
one more when a word is entered, one less when it is left, with or without a fault, and none at all
when a line is given up. Both run alike, and a run that counts leaves the counter as it was.
-/
namespace Forthlet

open Outcome Run

/-- An engine and the number of compiled words that it is running. -/
structure Counting where
  engine : Engine
  depth : Nat

/-- An action that keeps the counter. -/
abbrev Counted := EStateM Stop Counting

namespace Counted

variable {α : Type}

/-- An action on the engine in which no compiled word is entered. -/
def plain (m : Run α) : Counted α := fun c =>
  match m.run c.engine with
  | .ok a engine => .ok a { c with engine }
  | .error s engine => .error s { c with engine }

/-- Count a word in, and count it out however it ends. -/
def within (m : Counted Unit) : Counted Unit := fun c =>
  match m.run { c with depth := c.depth + 1 } with
  | .ok a c' => .ok a { c' with depth := c'.depth - 1 }
  | .error s c' => .error s { c' with depth := c'.depth - 1 }

@[inline] def enter (lim : Limits) (position : Nat) (body : Code → Counted Unit) :
    Counted Unit := do
  let c ← get
  match c.engine.dict.get? position with
  | none => plain (fail (.badInstruction "CALL"))
  | some w => match w.body with
    | .builtin b => plain (Primitive.exec b)
    | .compiled code => do
        plain (lift (lim.checkDepth c.depth w.name))
        within (body code)

def code (lim : Limits) : Nat → Nat → Code → Int → Counted Unit
  | 0, _, _, _ => throw .outOfFuel
  | fuel + 1, position, instrs, ip =>
    match Code.fetch? instrs ip with
    | none => pure ()
    | some (.call callee) => do
        let target := callee.position position
        enter lim target fun body => code lim fuel target body 0
        code lim fuel position instrs (ip + 1)
    | some i => do
        let next ← plain (step i ip)
        code lim fuel position instrs next

def word (lim : Limits) (fuel position : Nat) : Counted Unit :=
  enter lim position fun body => code lim fuel position body 0

/-- Only a token that finds a word and does not compile it runs one. -/
def token (lim : Limits) (fuel : Nat) (text : String) : Counted Unit := do
  let e := (← get).engine
  match e.dict.find? text with
  | some position =>
    if !e.compiling || (e.dict.get? position).any Word.immediate then word lim fuel position
    else plain (Run.token lim fuel text)
  | none => plain (Run.token lim fuel text)

def tokens (lim : Limits) (fuel : Nat) : List String → Counted Unit
  | [] => pure ()
  | [":"] => plain (startDraft none)
  | ":" :: name :: rest => do
      plain (startDraft (some name))
      tokens lim fuel rest
  | text :: rest => do
      token lim fuel text
      tokens lim fuel rest

/-- No word is running any more when a line has been given up. -/
def feed (lim : Limits) (fuel : Nat) (line : String) : Counted Unit := fun c =>
  match (do tokens lim fuel (← plain (lift (Token.ofText line))) : Counted Unit).run c with
  | .error (.fault f) c =>
    .error (.fault f) (if f.recovers then ⟨(c.engine.note (.aborted line f)).reset, 0⟩ else c)
  | r => r

end Counted

/-- The outcome, with this number of words running. -/
def Outcome.counted {α : Type} (depth : Nat) : Outcome α → EStateM.Result Stop Counting α
  | .ok a e => .ok a ⟨e, depth⟩
  | .error s e => .error s ⟨e, depth⟩

/-- With that many words running, the action that counts ends as the one that was told so, and with
as many words running. -/
def Counts {α : Type} (depth : Nat) (m : Counted α) (m' : Run α) : Prop :=
  ∀ e, m.run ⟨e, depth⟩ = counted depth (m'.run e)

namespace Counts

variable {α β : Type} {depth : Nat} {lim : Limits} {fuel position : Nat}

theorem pure (a : α) : Counts depth (pure a) (pure a) := fun _ => rfl

theorem throw (s : Stop) : Counts depth (throw s : Counted α) (throw s) := fun _ => rfl

theorem plain (m : Run α) : Counts depth (Counted.plain m) m := by
  intro e
  have hrun : (Counted.plain m).run ⟨e, depth⟩ = (match m.run e with
      | .ok a engine => .ok a ⟨engine, depth⟩
      | .error s engine => .error s ⟨engine, depth⟩ : EStateM.Result Stop Counting α) := rfl
  rw [hrun]
  cases m.run e <;> rfl

theorem bind {m : Counted α} {m' : Run α} {f : α → Counted β} {f' : α → Run β}
    (h : Counts depth m m') (hf : ∀ a, Counts depth (f a) (f' a)) :
    Counts depth (m >>= f) (m' >>= f') := by
  intro e
  rw [EStateM.run_bind, EStateM.run_bind, h]
  cases m'.run e with
  | ok a e' => exact hf a e'
  | error s e' => rfl

/-- The word that is counted out is the one that was counted in. -/
theorem within {m : Counted Unit} {m' : Run Unit} (h : Counts (depth + 1) m m') :
    Counts depth (Counted.within m) m' := by
  intro e
  have hrun : (Counted.within m).run ⟨e, depth⟩ = (match m.run ⟨e, depth + 1⟩ with
      | .ok a c' => .ok a { c' with depth := c'.depth - 1 }
      | .error s c' => .error s { c' with depth := c'.depth - 1 } :
        EStateM.Result Stop Counting Unit) := rfl
  rw [hrun, h]
  cases m'.run e <;> rfl

theorem enter {body : Code → Counted Unit} {body' : Code → Run Unit}
    (h : ∀ c, Counts (depth + 1) (body c) (body' c)) :
    Counts depth (Counted.enter lim position body) (Run.enter lim depth position body') := by
  intro e
  unfold Counted.enter Run.enter
  simp only [EStateM.run_bind, EStateM.run_get]
  cases e.dict.get? position with
  | none => exact plain _ e
  | some w =>
      obtain ⟨name, wbody, immediate⟩ := w
      cases wbody with
      | builtin b => exact plain _ e
      | compiled c => exact (plain _).bind (fun _ => (h c).within) e

theorem code (lim : Limits) (fuel : Nat) (instrs : Code) (ip : Int) :
    Counts depth (Counted.code lim fuel position instrs ip)
      (Run.code lim fuel depth position instrs ip) := by
  induction fuel generalizing depth position instrs ip with
  | zero => exact throw _
  | succ fuel ih =>
      rw [Counted.code, Run.code]
      cases instrs.fetch? ip with
      | none => exact pure ()
      | some i =>
          cases i with
          | call callee => exact (enter fun c => ih c 0).bind fun _ => ih instrs (ip + 1)
          | _ => exact (plain _).bind fun next => ih instrs next

theorem word (lim : Limits) (fuel depth position : Nat) :
    Counts depth (Counted.word lim fuel position) (Run.word lim fuel depth position) :=
  enter fun c => code lim fuel c 0

/-- No word is running when a token is taken. -/
theorem token (lim : Limits) (fuel : Nat) (text : String) :
    Counts 0 (Counted.token lim fuel text) (Run.token lim fuel text) := by
  intro e
  unfold Counted.token
  simp only [EStateM.run_bind, EStateM.run_get]
  cases hfind : e.dict.find? text with
  | none => exact plain _ e
  | some position =>
      cases hd : e.draft with
      | none =>
          have hruns : e.compiling = false := by rw [Engine.compiling, hd, Option.isSome_none]
          rw [run_token_word hd hfind]
          simpa [hruns] using word lim fuel 0 position e
      | some d =>
          have hdraft : e.compiling = true := by rw [Engine.compiling, hd, Option.isSome_some]
          cases himmediate : (e.dict.get? position).any Word.immediate with
          | true =>
              obtain ⟨w, hget, hw⟩ := (Option.any_eq_true _ _).mp himmediate
              rw [run_token_immediate hd hfind hget hw]
              simpa [himmediate] using word lim fuel 0 position e
          | false => simpa [hdraft, himmediate] using plain (Run.token lim fuel text) e

theorem tokens (lim : Limits) (fuel : Nat) (ts : List String) :
    Counts 0 (Counted.tokens lim fuel ts) (Run.tokens lim fuel ts) := by
  induction ts using Run.tokens.induct with
  | case1 => exact pure ()
  | case2 => exact plain _
  | case3 name rest ih => exact (plain _).bind fun _ => ih
  | case4 text rest hlast hname ih =>
      rw [Counted.tokens, Run.tokens]
      · exact (token lim fuel text).bind fun _ => ih
      · exact hlast
      · exact hname
      · exact hlast
      · exact hname

end Counts

/-- An engine that counts the words that it is running takes in a line as one does whose words are
told how many they are. After the line, whether it was done or given up, it counts none. -/
theorem counted_feed (lim : Limits) (fuel : Nat) (line : String) (e : Engine) :
    (Counted.feed lim fuel line).run ⟨e, 0⟩ = counted 0 ((feed lim fuel line).run e) := by
  have hline : Counts 0 (do Counted.tokens lim fuel (← Counted.plain (lift (Token.ofText line))))
      (do tokens lim fuel (← lift (Token.ofText line))) :=
    (Counts.plain _).bind fun ts => .tokens lim fuel ts
  have hrun : (Counted.feed lim fuel line).run ⟨e, 0⟩ =
      (match (do Counted.tokens lim fuel (← Counted.plain (lift (Token.ofText line))) :
          Counted Unit).run ⟨e, 0⟩ with
        | .error (.fault f) c => .error (.fault f)
            (if f.recovers then ⟨(c.engine.note (.aborted line f)).reset, 0⟩ else c)
        | r => r) := rfl
  rw [hrun, hline e, run_feed]
  match (do tokens lim fuel (← lift (Token.ofText line)) : Run Unit).run e with
  | .ok a e' => rfl
  | .error .outOfFuel e' => rfl
  | .error (.fault f) e' =>
      simp only [counted, recover]
      split <;> rfl

end Forthlet
