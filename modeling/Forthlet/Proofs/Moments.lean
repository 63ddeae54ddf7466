import Forthlet.Proofs.Editing
import Forthlet.Proofs.Session
import Forthlet.Proofs.Targets

/-!
# The moments of a run

A run passes moments at which the code of some word is about to go on at an address. From one
moment the run comes to the next in the same code, or to the first one in a word that is called.
Over a sound dictionary every moment is inside the code of its word, with a frame for each loop
around the address; so no run meets an instruction that it cannot make sense of.
-/
namespace Forthlet

open Outcome Run

structure Moment where
  depth : Nat
  position : Nat
  instrs : Code
  ip : Int
  engine : Engine

namespace Moment

inductive Next (lim : Limits) (m : Moment) : Moment → Prop
  | step {i : Instr Callee} {next : Int} {e : Engine} (hi : m.instrs.fetch? m.ip = some i)
      (hcall : ∀ c, i ≠ .call c) (hr : (step i m.ip).run m.engine = .ok next e) :
      Next lim m { m with ip := next, engine := e }
  | enter {callee : Callee} {w : Word} {c : Code}
      (hi : m.instrs.fetch? m.ip = some (.call callee))
      (hw : m.engine.dict.get? (callee.position m.position) = some w)
      (hc : w.body = .compiled c) (hd : lim.checkDepth m.depth w.name = .ok ()) :
      Next lim m ⟨m.depth + 1, callee.position m.position, c, 0, m.engine⟩
  /-- The call has returned. -/
  | resume {callee : Callee} {fuel : Nat} {e : Engine}
      (hi : m.instrs.fetch? m.ip = some (.call callee))
      (hr : (word lim fuel m.depth (callee.position m.position)).run m.engine = .ok () e) :
      Next lim m { m with ip := m.ip + 1, engine := e }

abbrev Reaches (lim : Limits) : Moment → Moment → Prop := Relation.ReflTransGen (Next lim)

/-- The instruction at the moment fails by itself, and not in the code of a word that it calls. -/
inductive Fails (lim : Limits) (m : Moment) (f : Fault) : Prop
  | step {i : Instr Callee} {e : Engine} (hi : m.instrs.fetch? m.ip = some i)
      (hcall : ∀ c, i ≠ .call c) (hr : (step i m.ip).run m.engine = .error (.fault f) e)
  | missing {callee : Callee} (hi : m.instrs.fetch? m.ip = some (.call callee))
      (hw : m.engine.dict.get? (callee.position m.position) = none) (hf : f = .badInstruction "CALL")
  | builtin {callee : Callee} {w : Word} {b : Builtin} {e : Engine}
      (hi : m.instrs.fetch? m.ip = some (.call callee))
      (hw : m.engine.dict.get? (callee.position m.position) = some w) (hb : w.body = .builtin b)
      (hr : (Primitive.exec b).run m.engine = .error (.fault f) e)
  | depth {callee : Callee} {w : Word} {c : Code} (hi : m.instrs.fetch? m.ip = some (.call callee))
      (hw : m.engine.dict.get? (callee.position m.position) = some w)
      (hc : w.body = .compiled c) (hd : lim.checkDepth m.depth w.name = .error f)

section
variable {lim : Limits} {fuel : Nat} {m : Moment} {f : Fault} {e : Engine}

/-- A run that fails comes to a moment at which an instruction fails with the same fault. -/
theorem exists_fails
    (h : (code lim fuel m.depth m.position m.instrs m.ip).run m.engine = .error (.fault f) e) :
    ∃ m', Reaches lim m m' ∧ m'.Fails lim f := by
  induction fuel generalizing m e with
  | zero => cases h
  | succ fuel ih =>
      match hi : m.instrs.fetch? m.ip with
      | none =>
          rw [code_of_none hi] at h
          cases h
      | some (.call callee) =>
          rw [code_of_call hi, EStateM.run_bind] at h
          cases hw : (word lim fuel m.depth (callee.position m.position)).run m.engine with
          | ok a e₁ =>
              rw [hw] at h
              obtain ⟨m', hm', hf⟩ := ih (m := { m with ip := m.ip + 1, engine := e₁ }) h
              exact ⟨m', hm'.head (.resume hi hw), hf⟩
          | error s e₁ =>
              rw [hw] at h
              cases h
              cases hg : m.engine.dict.get? (callee.position m.position) with
              | none =>
                  rw [run_word_missing hg] at hw
                  cases hw
                  exact ⟨m, .refl, .missing hi hg rfl⟩
              | some w =>
                  cases hb : w.body with
                  | builtin b =>
                      rw [run_word_builtin hg hb] at hw
                      exact ⟨m, .refl, .builtin hi hg hb hw⟩
                  | compiled c =>
                      rw [run_word_compiled hg hb] at hw
                      cases hd : lim.checkDepth m.depth w.name with
                      | error x =>
                          rw [hd] at hw
                          cases hw
                          exact ⟨m, .refl, .depth hi hg hb hd⟩
                      | ok _ =>
                          rw [hd] at hw
                          obtain ⟨m', hm', hf⟩ := ih
                            (m := ⟨m.depth + 1, callee.position m.position, c, 0, m.engine⟩) hw
                          exact ⟨m', hm'.head (.enter hi hg hb hd), hf⟩
      | some (.lit _) | some (.branch _) | some (.branchIfZero _) | some (.enterLoop _)
      | some (.nextLoop _) | some .index | some (.unknown _) =>
          rw [code_of_step hi (by simp), EStateM.run_bind] at h
          split at h
          · next next e₁ hr =>
              obtain ⟨m', hm', hf⟩ := ih (m := { m with ip := next, engine := e₁ }) h
              exact ⟨m', hm'.head (.step hi (by simp) hr), hf⟩
          · next s e₁ hr =>
              cases h
              exact ⟨m, .refl, .step hi (by simp) hr⟩

end

end Moment

/-- The outcome of an instruction: the next address is inside the code, with a frame for each
loop around it, or the instruction fails as built-in words do. -/
def Outcome.Lands (instrs : Code) (level : Nat → Nat) (e : Engine) : Outcome Int → Prop
  | .ok next e' =>
      e.SameProgram e' ∧ ∃ n : Nat, next = (n : Int) ∧ n ≤ instrs.size ∧ level n ≤ e'.loops.length
  | .error s _ => s.IsPrimitive

namespace Run

variable {instrs : Code} {level : Nat → Nat} {a : Nat} {e₀ e : Engine}

theorem lands_pop {f : Int → Run Int} (he : e₀.SameProgram e)
    (h : ∀ n e', e₀.SameProgram e' → e'.loops = e.loops →
      Lands instrs level e₀ ((f n).run e')) :
    Lands instrs level e₀ ((pop >>= f).run e) := by
  cases hs : e.stack with
  | nil =>
      rw [EStateM.run_bind, run_pop_nil hs]
      exact ⟨_, rfl, rfl⟩
  | cons n s =>
      rw [EStateM.run_bind, run_pop_cons hs]
      exact h n _ (he.trans ⟨rfl, rfl⟩) rfl

/-- Where the frames suffice for the loops around an instruction that flows, they suffice where
it leads. -/
theorem lands_step {i : Instr Callee} (hi : i.Flows instrs level a) (hcall : ∀ c, i ≠ .call c)
    (ha : a < instrs.size) (hl : level a ≤ e.loops.length) :
    Lands instrs level e ((step i a).run e) := by
  cases i with
  | lit n =>
      have hnext : level (a + 1) = level a := hi
      exact ⟨⟨rfl, rfl⟩, a + 1, rfl, ha, hnext ▸ hl⟩
  | call c => exact absurd rfl (hcall c)
  | unknown op => exact hi.elim
  | branch target =>
      obtain ⟨t, rfl, -, ht, hlevel⟩ := hi
      exact ⟨.refl e, t, rfl, ht, hlevel ▸ hl⟩
  | branchIfZero target =>
      obtain ⟨hnext, t, rfl, -, ht, hlevel⟩ := hi
      refine lands_pop (.refl e) fun n e' hs hloops => ?_
      rw [← hloops] at hl
      split
      · exact ⟨hs, t, rfl, ht, hlevel ▸ hl⟩
      · exact ⟨hs, a + 1, rfl, ha, hnext ▸ hl⟩
  | enterLoop exit =>
      obtain ⟨hnext, l, rfl, -, hlast, hlevel⟩ := hi
      obtain ⟨hlt, -⟩ := Array.getElem?_eq_some_iff.mp hlast
      refine lands_pop (.refl e) fun start e₁ hs₁ hloops₁ => ?_
      refine lands_pop hs₁ fun limit e₂ hs₂ hloops₂ => ?_
      rw [← hloops₁, ← hloops₂] at hl
      split
      · exact ⟨hs₂, l + 1, rfl, hlt, hlevel ▸ hl⟩
      · exact ⟨hs₂.trans ⟨rfl, rfl⟩, a + 1, rfl, ha, hnext ▸ Nat.succ_le_succ hl⟩
  | nextLoop back =>
      obtain ⟨hnext, d, rfl, hlt, -, hlevel⟩ := hi
      cases hs : e.loops with
      | nil =>
          rw [hs, hnext] at hl
          cases hl
      | cons f loops =>
          rw [hs] at hl
          simp only [step]
          rw [EStateM.run_bind, run_popFrame hs]
          simp only
          split
          · exact ⟨⟨rfl, rfl⟩, d + 1, rfl, by omega, hlevel ▸ hl⟩
          · rw [hnext] at hl
            exact ⟨⟨rfl, rfl⟩, a + 1, rfl, ha, Nat.le_of_succ_le_succ hl⟩
  | index =>
      have hnext : level (a + 1) = level a := hi
      simp only [step]
      rw [EStateM.run_bind]
      have hn := Tame.loopIndex.neat e
      cases hr : Primitive.loopIndex.run e with
      | ok _ e' =>
          rw [hr] at hn
          exact ⟨hn.1, a + 1, rfl, ha, by rw [hn.2, hnext]; exact hl⟩
      | error s e' =>
          exact ((KeepsEdits.lasting e.program).toCalm.loopIndex.error .refl hr).2.isPrimitive

end Run

namespace Moment

/-- The moment is inside the code of a compiled word that is laid out from the body `b`. -/
structure Inside (m : Moment) (b : Block) : Prop where
  dict : m.engine.dict.Sound
  code : m.instrs = (b.layout 0).toArray
  word : ∃ w, m.engine.dict.get? m.position = some w ∧ w.body = .compiled m.instrs
  address : ∃ a : Nat, m.ip = (a : Int) ∧ a ≤ m.instrs.size ∧ b.level a ≤ m.engine.loops.length

namespace Inside

variable {lim : Limits} {m m' : Moment} {b : Block} {i : Instr Callee}

theorem callable {callee : Callee} (h : m.Inside b)
    (hi : m.instrs.fetch? m.ip = some (.call callee)) :
    m.engine.dict.Callable (callee.position m.position) := by
  obtain ⟨w, hw, hc⟩ := h.word
  exact h.dict.callable_of_calls ⟨w, _, callee, hw, hc, Code.mem_of_fetch? hi, rfl⟩

/-- The instruction at the moment flows. -/
theorem flows (h : m.Inside b) (hi : m.instrs.fetch? m.ip = some i) :
    ∃ a : Nat, m.ip = (a : Int) ∧ a < m.instrs.size ∧ b.level a ≤ m.engine.loops.length ∧
      i.Flows m.instrs b.level a := by
  obtain ⟨a, ha, -, hl⟩ := h.address
  rw [ha, Code.fetch?_natCast] at hi
  obtain ⟨hlt, -⟩ := Array.getElem?_eq_some_iff.mp hi
  have hcode := h.code
  refine ⟨a, ha, hlt, hl, ?_⟩
  rw [hcode] at hi ⊢
  exact Block.flows_of_layout hi

/-- The entry is where it was and has the same code, though it may have been marked. -/
theorem word_of_sameProgram {e : Engine} (h : m.Inside b) (hs : m.engine.SameProgram e) :
    ∃ w, e.dict.get? m.position = some w ∧ w.body = .compiled m.instrs := by
  obtain ⟨w, hw, hc⟩ := h.word
  obtain ⟨w', hw', hu⟩ := Dictionary.get?_of_unmarked hs.dict hw
  exact ⟨w', hw', (Word.body_of_unmarked hu).trans hc⟩

theorem next (h : m.Inside b) (hn : Next lim m m') : ∃ b', m'.Inside b' := by
  cases hn with
  | @step i next e hi hcall hr =>
      obtain ⟨a, ha, hlt, hl, hf⟩ := h.flows hi
      have hlands := lands_step hf hcall hlt hl
      rw [← ha, hr] at hlands
      obtain ⟨hs, hnext⟩ := hlands
      exact ⟨b, h.dict.of_unmarked hs.dict, h.code, h.word_of_sameProgram hs, hnext⟩
  | @enter callee w c hi hw hc hd =>
      obtain ⟨b', rfl, -⟩ := h.dict.compiled hw hc
      exact ⟨b', h.dict, rfl, ⟨w, hw, hc⟩, 0, rfl, Nat.zero_le _, by simp⟩
  | @resume callee fuel e hi hr =>
      obtain ⟨a, ha, hlt, hl, hf⟩ := h.flows hi
      have hnext : b.level (a + 1) = b.level a := hf
      have hneat := neat_word h.dict (h.callable hi) hr trivial
      refine ⟨b, h.dict.of_unmarked hneat.1.dict, h.code, h.word_of_sameProgram hneat.1, a + 1, ?_,
        hlt, ?_⟩
      · simp only [ha, Int.natCast_add, Int.cast_ofNat_Int]
      · rw [hneat.2, hnext]
        exact hl

theorem reaches (h : m.Inside b) (hr : Reaches lim m m') : ∃ b', m'.Inside b' := by
  induction hr with
  | refl => exact ⟨b, h⟩
  | tail _ hn ih =>
      obtain ⟨b', h'⟩ := ih
      exact h'.next hn

/-- The end of a loop finds its frame. -/
theorem loops_ne_nil {back : Int} (h : m.Inside b)
    (hi : m.instrs.fetch? m.ip = some (.nextLoop back)) : m.engine.loops ≠ [] := by
  obtain ⟨a, -, -, hl, hnext, -⟩ := h.flows hi
  intro hnil
  rw [hnil, hnext] at hl
  cases hl

/-- What fails is a built-in word, or a call that is too deep. -/
theorem not_badInstruction {op : String} (h : m.Inside b) :
    ¬m.Fails lim (.badInstruction op) := by
  intro hf
  cases hf with
  | @step i e hi hcall hr =>
      obtain ⟨a, ha, hlt, hl, hf⟩ := h.flows hi
      have hlands := lands_step hf hcall hlt hl
      rw [← ha, hr] at hlands
      obtain ⟨f, hf, hp⟩ := hlands
      cases hf
      cases hp
  | missing hi hw hf =>
      obtain ⟨w, hw', -⟩ := h.callable hi
      rw [hw] at hw'
      cases hw'
  | @builtin callee w b' e hi hw hb hr =>
      obtain ⟨-, hraised⟩ := ((KeepsEdits.lasting _).exec b').error .refl hr
      obtain ⟨f, hf, hp⟩ := hraised.isPrimitive
      cases hf
      cases hp
  | depth hi hw hc hd => cases Limits.kind_of_checkDepth hd

end Inside

end Moment

section
variable {lim : Limits} {position : Nat} {w : Word} {b : Block} (e : Engine) (hd : e.dict.Sound)
  (hw : e.dict.get? position = some w) (hc : w.body = .compiled (b.layout 0).toArray)
include hd hw hc

/-- A word starts inside its code. -/
theorem Moment.inside_start (depth : Nat) :
    Moment.Inside ⟨depth, position, (b.layout 0).toArray, 0, e⟩ b :=
  ⟨hd, rfl, ⟨w, hw, hc⟩, 0, rfl, Nat.zero_le _, by simp⟩

theorem Run.word_ne_badInstruction {fuel depth : Nat} {op : String} {e' : Engine} :
    (word lim fuel depth position).run e ≠ .error (.fault (.badInstruction op)) e' := by
  intro hr
  rw [run_word_compiled hw hc, EStateM.run_bind] at hr
  cases hk : lim.checkDepth depth w.name with
  | error f =>
      rw [hk] at hr
      cases hr
      cases Limits.kind_of_checkDepth hk
  | ok _ =>
      rw [hk] at hr
      obtain ⟨m, hm, hf⟩ := Moment.exists_fails
        (m := ⟨depth + 1, position, (b.layout 0).toArray, 0, e⟩) hr
      obtain ⟨b', hb'⟩ := (Moment.inside_start e hd hw hc (depth + 1)).reaches hm
      exact hb'.not_badInstruction hf

end

/-- In every state of a session the jumps of finished code and of the definition in progress are
well formed. So no run of a compiled word, from any stacks and at any depth, leaves the code that
it is in, finds the end of a loop without a frame or meets a bad instruction. -/
theorem jumps_stay_inside {e : Engine} (h : Reachable e) :
    (∀ {d : Draft}, e.draft = some d → d.WellFormed) ∧
    ∀ {position : Nat} {w : Word} {c : Code}, e.dict.get? position = some w →
      w.body = .compiled c → c.WellFormed ∧
        ∀ (lim : Limits) (depth : Nat) (stack : List Int) (loops : List Frame),
          (∀ {m : Moment},
            Moment.Reaches lim ⟨depth, position, c, 0, { e with stack, loops }⟩ m →
              0 ≤ m.ip ∧ m.ip ≤ m.instrs.size ∧
                ∀ back, m.instrs.fetch? m.ip = some (.nextLoop back) → m.engine.loops ≠ []) ∧
          ∀ (fuel : Nat) (op : String) (e' : Engine),
            (word lim fuel depth position).run { e with stack, loops } ≠
              .error (.fault (.badInstruction op)) e' := by
  have hsound := h.ready.sound
  refine ⟨fun {d} hd => ?_, fun {position w c} hw hc => ?_⟩
  · obtain ⟨o, ho, -⟩ := hsound.draft hd
    rw [ho]
    exact o.wellFormed_draft d.name
  · obtain ⟨b, rfl, -⟩ := hsound.dict.compiled hw hc
    refine ⟨b.wellFormed_layout, fun lim depth stack loops => ⟨fun {m} hm => ?_, fun _ _ _ => ?_⟩⟩
    · have hstart := Moment.inside_start { e with stack, loops } hsound.dict hw hc depth
      obtain ⟨b', hb'⟩ := hstart.reaches hm
      obtain ⟨a, ha, hle, -⟩ := hb'.address
      exact ⟨by omega, by omega, fun back hi => hb'.loops_ne_nil hi⟩
    · exact word_ne_badInstruction { e with stack, loops } hsound.dict hw hc

/-- A session that defines a word with a conditional in a loop and leaves a definition open. -/
def openInLoop : Engine :=
  engine ((feed {} 100 ": X DO I IF 1 ELSE 2 THEN LOOP ; : Y DO IF 3 ELSE").run .fresh)

theorem jumps_stay_inside_openInLoop :
    openInLoop.draft = some ⟨"Y", #[.enterLoop none, .branchIfZero (some 4), .lit 3, .branch none],
      [⟨.elseWord, 3⟩, ⟨.doWord, 0⟩]⟩ ∧
    (∀ d, openInLoop.draft = some d → d.WellFormed) ∧
    Code.WellFormed #[.enterLoop (some 7), .index, .branchIfZero (some 5), .lit 1,
      .branch (some 6), .lit 2, .nextLoop 1] ∧
    ∀ fuel op e', (word {} fuel 0 36).run { openInLoop with stack := [0, 2], loops := [] } ≠
      .error (.fault (.badInstruction op)) e' := by
  have hreach : Reachable openInLoop := .feed _ _ _ .fresh (by decide +kernel)
  have hw : openInLoop.dict.get? 36 = some ⟨"X", .compiled #[.enterLoop (some 7), .index,
      .branchIfZero (some 5), .lit 1, .branch (some 6), .lit 2, .nextLoop 1], false⟩ := by
    decide +kernel
  obtain ⟨hdraft, hcode⟩ := jumps_stay_inside hreach
  obtain ⟨hwf, hrun⟩ := hcode hw rfl
  exact ⟨by decide +kernel, fun d hd => hdraft hd, hwf, (hrun {} 0 [0, 2] []).2⟩

end Forthlet
