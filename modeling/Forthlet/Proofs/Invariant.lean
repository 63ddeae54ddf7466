import Forthlet.Proofs.Budget

/-!
# Invariants of runs

An action keeps an invariant if it keeps it however it ends, a budget that runs
out included. With it goes a fact about the result and one about the reason for
which the action stopped early. Running words keeps whatever the instructions
and the built-in words keep.
-/
namespace Forthlet

theorem Code.mem_of_fetch? {c : Code} {ip : Int} {i : Instr Callee} (h : c.fetch? ip = some i) :
    i ∈ c := by
  cases ip with
  | ofNat n => exact Array.mem_of_getElem? h
  | negSucc n =>
      simp only [fetch?] at h
      split at h
      · exact Array.mem_of_getElem? h
      · cases h

/-- The run ended in a state with `P`, with a result that has `Q` or for a reason that has `E`. -/
def Outcome.Satisfies {α : Type} (P : Engine → Prop) (E : Stop → Prop) (Q : α → Prop) :
    Outcome α → Prop
  | .ok a e => P e ∧ Q a
  | .error s e => P e ∧ E s

theorem Outcome.Satisfies.mono {α : Type} {P : Engine → Prop} {E E' : Stop → Prop} {Q : α → Prop}
    {r : Outcome α} (h : Satisfies P E Q r) (hE : ∀ s, E s → E' s) : Satisfies P E' Q r := by
  match r, h with
  | .ok _ _, h => exact h
  | .error s _, h => exact ⟨h.1, hE s h.2⟩

namespace Run

variable {α β : Type} {P : Engine → Prop} {E : Stop → Prop}

/-- From states with `P` the action ends in states with `P`, with a result that has `Q` or
for a reason that has `E`. -/
structure Keeps (P : Engine → Prop) (E : Stop → Prop) (m : Run α) (Q : α → Prop) : Prop where
  ok : ∀ {e a e'}, P e → m.run e = .ok a e' → P e' ∧ Q a
  error : ∀ {e s e'}, P e → m.run e = .error s e' → P e' ∧ E s

namespace Keeps

variable {Q : α → Prop} {R : β → Prop} {m : Run α} {f : α → Run β}

theorem of_outcome (h : ∀ e, P e → Outcome.Satisfies P E Q (m.run e)) : Keeps P E m Q where
  ok {e a e'} he hr := by
    have hs := h e he
    rw [hr] at hs
    exact hs
  error {e s e'} he hr := by
    have hs := h e he
    rw [hr] at hs
    exact hs

theorem outcome (h : Keeps P E m Q) {e : Engine} (he : P e) : Outcome.Satisfies P E Q (m.run e) := by
  cases hr : m.run e with
  | ok a e' => exact h.ok he hr
  | error s e' => exact h.error he hr

theorem mono {E' : Stop → Prop} (h : Keeps P E m Q) (hE : ∀ s, E s → E' s) : Keeps P E' m Q :=
  .of_outcome fun _ he => (h.outcome he).mono hE

theorem engine (h : Keeps P E m Q) {e : Engine} (he : P e) : P (Outcome.engine (m.run e)) := by
  cases hr : m.run e with
  | ok a e' => exact (h.ok he hr).1
  | error s e' => exact (h.error he hr).1

theorem of_engine (h : ∀ e, P e → P (Outcome.engine (m.run e))) :
    Keeps P (fun _ => True) m fun _ => True := by
  refine .of_outcome fun e he => ?_
  have hengine := h e he
  cases hr : m.run e with
  | ok a e' =>
      rw [hr] at hengine
      exact ⟨hengine, trivial⟩
  | error s e' =>
      rw [hr] at hengine
      exact ⟨hengine, trivial⟩

theorem pure {a : α} (h : Q a) : Keeps P E (pure a : Run α) Q where
  ok he hr := by
    cases hr
    exact ⟨he, h⟩
  error _ hr := by cases hr

theorem fail {x : Fault} (h : E (.fault x)) : Keeps P E (fail x : Run α) Q where
  ok _ hr := by cases hr
  error he hr := by
    cases hr
    exact ⟨he, h⟩

theorem lift {x : Except Fault α} (hok : ∀ a, x = .ok a → Q a)
    (herror : ∀ y, x = .error y → E (.fault y)) : Keeps P E (lift x) Q := by
  cases x with
  | ok a => exact .pure (hok a rfl)
  | error y => exact .fail (herror y rfl)

theorem get : Keeps P E (get : Run Engine) P where
  ok he hr := by
    cases hr
    exact ⟨he, he⟩
  error _ hr := by cases hr

theorem modify {g : Engine → Engine} (h : ∀ e, P e → P (g e)) :
    Keeps P E (modify g : Run Unit) fun _ => True where
  ok he hr := by
    cases hr
    exact ⟨h _ he, trivial⟩
  error _ hr := by cases hr

theorem bind (h : Keeps P E m Q) (hf : ∀ a, Q a → Keeps P E (f a) R) :
    Keeps P E (m >>= f) R where
  ok he hr := by
    rw [EStateM.run_bind] at hr
    split at hr
    · next a e₁ hm =>
        obtain ⟨he₁, ha⟩ := h.ok he hm
        exact (hf a ha).ok he₁ hr
    · cases hr
  error he hr := by
    rw [EStateM.run_bind] at hr
    split at hr
    · next a e₁ hm =>
        obtain ⟨he₁, ha⟩ := h.ok he hm
        exact (hf a ha).error he₁ hr
    · next s e₁ hm =>
        cases hr
        exact h.error he hm

theorem mapM {S : β → Prop} {f : α → Run β} {l : List α} (h : ∀ a ∈ l, Keeps P E (f a) S) :
    Keeps P E (l.mapM f) fun bs => ∀ b ∈ bs, S b := by
  induction l with
  | nil => exact .pure nofun
  | cons a l ih =>
      rw [List.mapM_cons]
      refine (h a (by simp)).bind fun b hb => ?_
      refine (ih fun a ha => h a (by simp [ha])).bind fun bs hbs => ?_
      exact .pure (List.forall_mem_cons.mpr ⟨hb, hbs⟩)

theorem jump {i : Instr Callee} {target : Option Int}
    (hbad : E (.fault (.badInstruction i.opName))) : Keeps P E (jump i target) fun _ => True := by
  cases target with
  | none => exact .fail hbad
  | some target => exact .pure trivial

/-- An instruction works on the stacks only. Whatever is known of the cells and the frames on them
may be used for the frames that a loop gets: one if it has a round to make, and one for a next
round. -/
theorem step {i : Instr Callee} {ip : Int} {C : Int → Prop} {F : Frame → Prop}
    (hbad : E (.fault (.badInstruction i.opName)))
    (hpush : ∀ n, i = .lit n → Keeps P E (push n) fun _ => True) (hpop : Keeps P E pop C)
    (henter : ∀ start limit, C start → C limit → start < limit →
      Keeps P E (onLoops (Stack.push ⟨start, limit⟩)) fun _ => True)
    (hpopFrame : Keeps P E (onLoops Frame.pop) F)
    (hnext : ∀ f, F f → f.index + 1 < f.limit →
      Keeps P E (onLoops (Stack.push { f with index := f.index + 1 })) fun _ => True)
    (hindex : Keeps P E Primitive.loopIndex fun _ => True) :
    Keeps P E (step i ip) fun _ => True := by
  cases i with
  | lit n => exact (hpush n rfl).bind fun _ _ => .pure trivial
  | branch target => exact jump hbad
  | branchIfZero target =>
      refine hpop.bind fun n _ => ?_
      split
      · exact jump hbad
      · exact .pure trivial
  | enterLoop exit =>
      refine hpop.bind fun start hstart => hpop.bind fun limit hlimit => ?_
      split
      · exact jump hbad
      · next hlt =>
          have hround : start < limit := by omega
          exact (henter start limit hstart hlimit hround).bind fun _ _ => .pure trivial
  | nextLoop back =>
      refine hpopFrame.bind fun f hf => ?_
      split
      · next hlt => exact (hnext f hf hlt).bind fun _ _ => .pure trivial
      · exact .pure trivial
  | index => exact hindex.bind fun _ _ => .pure trivial
  | call _ | unknown _ => exact .fail hbad

end Keeps

section
variable {lim : Limits} {C : Code → Prop} (hfuel : E .outOfFuel)
  (hdict : ∀ {e position w c}, P e → e.dict.get? position = some w → w.body = .compiled c → C c)
  (hstep : ∀ {c i ip}, C c → i ∈ c → Keeps P E (Run.step i ip) fun _ => True)
  (hexec : ∀ b, Keeps P E (Primitive.exec b) fun _ => True)
  (hdepth : ∀ {e position w depth x}, P e → e.dict.get? position = some w →
    lim.checkDepth depth w.name = .error x → E (.fault x))
  (hcall : E (.fault (.badInstruction "CALL")))
include hdict hexec hdepth hcall

theorem Keeps.enter {depth position : Nat} {body : Code → Run Unit}
    (h : ∀ c, C c → Keeps P E (body c) fun _ => True) :
    Keeps P E (enter lim depth position body) fun _ => True := by
  refine Keeps.get.bind fun e he => ?_
  cases hw : e.dict.get? position with
  | none => exact .fail hcall
  | some w =>
      simp only
      cases hb : w.body with
      | builtin b => exact hexec b
      | compiled c =>
          have hl : Keeps P E (Run.lift (lim.checkDepth depth w.name)) fun _ => True :=
            .lift (fun _ _ => trivial) fun _ hx => hdepth he hw hx
          exact hl.bind fun _ _ => h c (hdict he hw hb)

include hfuel hstep

/-- Running code keeps what its instructions and the built-in words keep. -/
theorem Keeps.code {fuel depth position : Nat} {c : Code} {ip : Int} (hc : C c) :
    Keeps P E (code lim fuel depth position c ip) fun _ => True := by
  induction fuel generalizing depth position c ip with
  | zero =>
      refine ⟨fun _ hr => ?_, fun he hr => ?_⟩
      · cases hr
      · cases hr
        exact ⟨he, hfuel⟩
  | succ fuel ih =>
      match hi : c.fetch? ip with
      | none =>
          rw [code_of_none hi]
          exact .pure trivial
      | some (.call callee) =>
          rw [code_of_call hi]
          refine (Keeps.enter hdict hexec hdepth hcall fun c hc => ih hc).bind fun _ _ => ih hc
      | some (.lit _) | some (.branch _) | some (.branchIfZero _) | some (.enterLoop _)
      | some (.nextLoop _) | some .index | some (.unknown _) =>
          rw [code_of_step hi (by simp)]
          exact (hstep hc (Code.mem_of_fetch? hi)).bind fun _ _ => ih hc

theorem Keeps.word {fuel depth position : Nat} :
    Keeps P E (word lim fuel depth position) fun _ => True :=
  Keeps.enter hdict hexec hdepth hcall fun _ hc =>
    Keeps.code hfuel hdict hstep hexec hdepth hcall hc

end

/-- Reading tokens keeps what each of them keeps, as a token or as the name of a definition. -/
theorem Keeps.tokens {lim : Limits} {fuel : Nat} {ts : List String}
    (htoken : ∀ text ∈ ts, Keeps P E (token lim fuel text) fun _ => True)
    (hmissing : Keeps P E (startDraft none) fun _ => True)
    (hstart : ∀ name ∈ ts, Keeps P E (startDraft (some name)) fun _ => True) :
    Keeps P E (tokens lim fuel ts) fun _ => True := by
  fun_induction Run.tokens lim fuel ts with
  | case1 => exact .pure trivial
  | case2 => exact hmissing
  | case3 name rest ih =>
      refine (hstart name (by simp)).bind fun _ _ => ih (fun text h => ?_) fun other h => ?_
      · exact htoken text (by simp [h])
      · exact hstart other (by simp [h])
  | case4 text rest _ _ ih =>
      refine (htoken text (by simp)).bind fun _ _ => ih (fun other h => ?_) fun name h => ?_
      · exact htoken other (by simp [h])
      · exact hstart name (by simp [h])

/-- Feeding a text keeps what reading it keeps and what giving it up keeps. -/
theorem Keeps.feed {lim : Limits} {fuel : Nat} {text : String}
    (hline : Keeps P E (do Run.tokens lim fuel (← Run.lift (Token.ofText text))) fun _ => True)
    (habort : ∀ {e}, P e → ∀ f, P (e.note (.aborted text f)).reset) :
    Keeps P E (Run.feed lim fuel text) fun _ => True := by
  refine .of_outcome fun e he => ?_
  have hread := hline.outcome he
  rw [run_feed]
  revert hread
  generalize (do Run.tokens lim fuel (← Run.lift (Token.ofText text)) : Run Unit).run e = r
  intro hread
  match r, hread with
  | .ok _ _, hread => exact hread
  | .error .outOfFuel _, hread => exact hread
  | .error (.fault f) e', ⟨he', hf⟩ =>
      refine ⟨?_, hf⟩
      split
      · exact habort he' f
      · exact he'

end Run

end Forthlet
