import Forthlet.Proofs.Moments

/-!
# Cells and frames at every moment

Only numbers that are read and the results of arithmetic are checked. Everything else that puts a
number somewhere relies on what is there already: the numbers are cells, and the index of every
running loop is below its limit, so that it can be counted up once more. This holds between two
tokens, at every moment within a word and when a fault stops a run.
-/
namespace Forthlet

open Outcome Run

/-- All numbers are cells, and every running loop is in a round that it had to make. -/
structure Engine.Bounded (e : Engine) : Prop where
  ranged : e.Ranged
  running : ∀ f ∈ e.loops, f.index < f.limit

/-- Below its limit an index can be counted up. -/
theorem Engine.Bounded.inRange_succ {e : Engine} (h : e.Bounded) {f : Frame} (hf : f ∈ e.loops) :
    Cell.InRange (f.index + 1) := by
  have hlt := h.running f hf
  obtain ⟨hindex, hlimit⟩ := h.ranged.loops f hf
  unfold Cell.InRange at hindex hlimit ⊢
  omega

theorem Engine.Ready.bounded {e : Engine} (h : e.Ready) : e.Bounded where
  ranged := h.ranged
  running f hf := by
    rw [h.loops] at hf
    cases hf

theorem Engine.Bounded.withConsole {e : Engine} (h : e.Bounded) (console : Console) :
    Bounded { e with console } :=
  ⟨⟨h.ranged.stack, h.ranged.loops, h.ranged.dict, h.ranged.draft⟩, h.running⟩

namespace Run

/-- The action keeps every running loop below its limit, however it ends. -/
abbrev KeepsRunning {α : Type} (m : Run α) : Prop :=
  Keeps (fun e => ∀ f ∈ e.loops, f.index < f.limit) (fun _ => True) m fun _ => True

namespace KeepsRunning

variable {lim : Limits} {fuel : Nat}

/-- Only loops that have a round to make start or go on. -/
theorem lasting : Lasting fun e => ∀ f ∈ e.loops, f.index < f.limit where
  withStack h _ := h
  write h _ := h
  pushFrame h _ hf := List.forall_mem_cons.mpr ⟨hf, h⟩
  popFrame h hl := by
    rw [hl] at h
    exact (List.forall_mem_cons.mp h).2
  take h _ _ _ := h
  finish h _ _ := h
  mark h _ := h

theorem exec (b : Builtin) : KeepsRunning (Primitive.exec b) :=
  (lasting.exec b).mono fun _ _ => trivial

theorem step (i : Instr Callee) (ip : Int) : KeepsRunning (step i ip) :=
  (lasting.step i ip).mono fun _ _ => trivial

theorem word {depth position : Nat} : KeepsRunning (word lim fuel depth position) :=
  lasting.word.mono fun _ _ => trivial

theorem tokens (ts : List String) : KeepsRunning (tokens lim fuel ts) :=
  (lasting.tokens fun _ _ _ _ h _ _ => h).mono fun _ _ => trivial

end KeepsRunning

end Run

namespace Engine.Bounded

variable {e : Engine} {lim : Limits} {fuel : Nat}

theorem exec (h : e.Bounded) (b : Builtin) : (engine ((Primitive.exec b).run e)).Bounded :=
  ⟨(KeepsRange.exec b).engine h.ranged, (KeepsRunning.exec b).engine h.running⟩

theorem step {c : Code} {i : Instr Callee} (h : e.Bounded) (hc : c.Ranged) (hi : i ∈ c) (ip : Int) :
    (engine ((Run.step i ip).run e)).Bounded :=
  ⟨(KeepsRange.step hc hi).engine h.ranged, (KeepsRunning.step i ip).engine h.running⟩

theorem word (h : e.Bounded) (depth position : Nat) :
    (engine ((Run.word lim fuel depth position).run e)).Bounded :=
  ⟨KeepsRange.word.engine h.ranged, KeepsRunning.word.engine h.running⟩

theorem tokens (h : e.Bounded) (ts : List String) :
    (engine ((Run.tokens lim fuel ts).run e)).Bounded :=
  ⟨(KeepsRange.tokens ts).engine h.ranged, (KeepsRunning.tokens ts).engine h.running⟩

end Engine.Bounded

namespace Moment

variable {lim : Limits} {m m' : Moment}

/-- All numbers that the run may meet are cells, those in its code included. -/
structure Bounded (m : Moment) : Prop where
  engine : m.engine.Bounded
  instrs : m.instrs.Ranged

theorem Bounded.next (h : m.Bounded) (hn : Next lim m m') : m'.Bounded := by
  cases hn with
  | @step i next e hi hcall hr =>
      have he := h.engine.step h.instrs (Code.mem_of_fetch? hi) m.ip
      rw [hr] at he
      exact ⟨he, h.instrs⟩
  | enter hi hw hc hd => exact ⟨h.engine, h.engine.ranged.dict hw hc⟩
  | @resume callee fuel e hi hr =>
      have he : (Outcome.engine ((word lim fuel m.depth (callee.position m.position)).run
          m.engine)).Bounded := h.engine.word _ _
      rw [hr] at he
      exact ⟨he, h.instrs⟩

theorem Bounded.reaches (h : m.Bounded) (hr : Reaches lim m m') : m'.Bounded := by
  induction hr with
  | refl => exact h
  | tail _ hn ih => exact ih.next hn

end Moment

/-- The states that a run over tokens passes. -/
inductive Run.Passes (lim : Limits) (e : Engine) (ts : List String) : Engine → Prop
  | between {us vs : List String} {fuel : Nat} {e₁ : Engine} (hts : ts = us ++ vs)
      (hr : (tokens lim fuel us).run e = .ok () e₁) : Passes lim e ts e₁
  /-- A token runs a compiled word, and the run of the word comes to this moment. -/
  | within {us vs : List String} {text : String} {fuel position : Nat} {e₁ : Engine} {w : Word}
      {c : Code} {m : Moment} (hts : ts = us ++ text :: vs)
      (hr : (tokens lim fuel us).run e = .ok () e₁) (hcolon : text ≠ ":")
      (hf : e₁.dict.find? text = some position) (hw : e₁.dict.get? position = some w)
      (hc : w.body = .compiled c) (hnow : e₁.draft = none ∨ w.immediate = true)
      (hd : lim.checkDepth 0 w.name = .ok ())
      (hm : Moment.Reaches lim ⟨1, position, c, 0, e₁⟩ m) : Passes lim e ts m.engine
  /-- The run fails, and this is the state at that moment. -/
  | stopped {fuel : Nat} {s : Stop} {e₁ : Engine} (hr : (tokens lim fuel ts).run e = .error s e₁) :
      Passes lim e ts e₁

theorem Engine.Bounded.passes {lim : Limits} {e e' : Engine} {ts : List String} (h : e.Bounded)
    (hp : Passes lim e ts e') : e'.Bounded := by
  have htokens : ∀ fuel us, (engine ((Run.tokens lim fuel us).run e)).Bounded :=
    fun fuel us => h.tokens us
  cases hp with
  | @between us _ fuel _ _ hr =>
      have he := htokens fuel us
      rwa [hr] at he
  | @within us _ _ fuel position e₁ _ c m _ hr _ _ hw hc _ _ hm =>
      have he := htokens fuel us
      rw [hr] at he
      have hstart : Moment.Bounded ⟨1, position, c, 0, e₁⟩ := ⟨he, he.ranged.dict hw hc⟩
      exact (hstart.reaches hm).engine
  | @stopped fuel _ _ hr =>
      have he := htokens fuel ts
      rwa [hr] at he

/-- In every state of a session and at every moment while a text is taken in, all numbers are cells
and every running loop is below its limit, so that counting it up stays within the range. Whatever
built-in word runs at such a moment leaves it so, and no number is ever too long to print. -/
theorem numbers_are_cells {e : Engine} (h : Reachable e) :
    e.Bounded ∧
    (∀ (lim : Limits) (console : Console) (ts : List String) {e' : Engine},
      Passes lim { e with console } ts e' →
        e'.Bounded ∧ (∀ f ∈ e'.loops, Cell.InRange (f.index + 1)) ∧
        ∀ b : Builtin, (engine ((Primitive.exec b).run e')).Bounded ∧
          ∀ e'', (Primitive.exec b).run e' ≠ .error (.fault .unprintable) e'') ∧
    (∀ (lim : Limits) (fuel : Nat) (line : String) (e' : Engine),
      (feed lim fuel line).run e ≠ .error (.fault .unprintable) e') ∧
    ∀ (lim : Limits) (fuel : Nat) (line : String) (f : Fault) (e' : Engine),
      (interpret lim fuel line).run e ≠ .error (.fault f) e' := by
  have hready := h.ready
  refine ⟨hready.bounded, fun lim console ts e' hp => ?_, fun lim fuel line e' hr => ?_,
    fun lim fuel line f e' hr => ?_⟩
  · have he' : e'.Bounded := (hready.bounded.withConsole console).passes hp
    refine ⟨he', fun f hf => he'.inRange_succ hf, fun b => ⟨he'.exec b, fun e'' hr => ?_⟩⟩
    exact ((KeepsRange.exec b).error he'.ranged hr).2 rfl
  · obtain ⟨hrecovers, -⟩ := fault_of_feed hready hr
    cases hrecovers
  · exact interpret_ne_error hready hr

/-- A session that defines a word with a loop. -/
def counting : Engine := engine ((feed {} 100 ": X 2 0 DO I LOOP ;").run .fresh)

/-- The second round of the loop is a moment of the session. -/
theorem numbers_are_cells_counting :
    ∃ m : Moment, Passes {} counting ["X"] m.engine ∧ m.ip = 3 ∧ m.engine.stack = [0] ∧
      m.engine.loops = [⟨1, 2⟩] ∧ m.engine.Bounded := by
  have hreach : Reachable counting := .feed _ _ _ .fresh (by decide +kernel)
  have hw : counting.dict.get? 36 = some ⟨"X", .compiled #[.lit 2, .lit 0, .enterLoop (some 5),
      .index, .nextLoop 3], false⟩ := by
    decide +kernel
  have hstacks : counting = { counting with stack := [], loops := [] } := by decide +kernel
  let m (ip : Int) (stack : List Int) (loops : List Frame) : Moment :=
    ⟨1, 36, #[.lit 2, .lit 0, .enterLoop (some 5), .index, .nextLoop 3], ip,
      { counting with stack, loops }⟩
  have hrun : Moment.Reaches {} (m 0 [] []) (m 3 [0] [⟨1, 2⟩]) := by
    have h₁ : Moment.Next {} (m 0 [] []) (m 1 [2] []) := .step rfl nofun rfl
    have h₂ : Moment.Next {} (m 1 [2] []) (m 2 [0, 2] []) := .step rfl nofun rfl
    have h₃ : Moment.Next {} (m 2 [0, 2] []) (m 3 [] [⟨0, 2⟩]) := .step rfl nofun rfl
    have h₄ : Moment.Next {} (m 3 [] [⟨0, 2⟩]) (m 4 [0] [⟨0, 2⟩]) := .step rfl nofun rfl
    have h₅ : Moment.Next {} (m 4 [0] [⟨0, 2⟩]) (m 3 [0] [⟨1, 2⟩]) := .step rfl nofun rfl
    exact .head h₁ (.head h₂ (.head h₃ (.head h₄ (.single h₅))))
  have hpasses : Passes {} counting ["X"] (m 3 [0] [⟨1, 2⟩]).engine := by
    have hts : ["X"] = [] ++ "X" :: [] := rfl
    have hbefore : (tokens {} 0 []).run counting = .ok () counting := rfl
    apply Passes.within hts hbefore (by decide) (by decide +kernel) hw rfl
      (.inl (by decide +kernel)) rfl
    rw [hstacks]
    exact hrun
  exact ⟨_, hpasses, rfl, rfl, rfl, ((numbers_are_cells hreach).2.1 {} _ _ hpasses).1⟩

end Forthlet
