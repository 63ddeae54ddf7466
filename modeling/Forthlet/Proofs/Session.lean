import Forthlet.Proofs.Compilation
import Forthlet.Proofs.Range

/-!
# Sessions

A session starts with a fresh engine and takes in texts one after the other,
under bounds that may change between them. Whatever the texts are, each of them
is done with at some point, and the engine is then ready for the next: its words
and its definition in progress are sound, its numbers are cells, and no loop is
left running.
-/
namespace Forthlet

open Outcome

/-- The states between the texts of a session. -/
inductive Reachable : Engine → Prop
  | fresh : Reachable .fresh
  | listening : Reachable Engine.fresh.listening
  | feed {e : Engine} (lim : Limits) (fuel : Nat) (line : String) (h : Reachable e)
      (he : Ended ((Run.feed lim fuel line).run e)) :
      Reachable (engine ((Run.feed lim fuel line).run e))
  | interpret {e : Engine} (lim : Limits) (fuel : Nat) (line : String) (h : Reachable e)
      (he : Ended ((Run.interpret lim fuel line).run e)) :
      Reachable (engine ((Run.interpret lim fuel line).run e))

/-- What every text of a session finds and leaves behind. -/
structure Engine.Ready (e : Engine) : Prop where
  sound : e.Sound
  ranged : e.Ranged
  loops : e.loops = []

namespace Engine

theorem ready_fresh : Engine.fresh.Ready where
  sound := ⟨Dictionary.sound_builtins, nofun⟩
  ranged := {
    stack := nofun
    loops := nofun
    dict := fun {_ w c} hw hc => by
      obtain ⟨b, rfl⟩ := Dictionary.ofBuiltin_of_get? hw
      cases hc
    draft := nofun }
  loops := rfl

theorem Ready.withConsole {e : Engine} (h : e.Ready) (console : Console) :
    Ready { e with console } where
  sound := ⟨h.sound.dict, h.sound.draft⟩
  ranged := ⟨h.ranged.stack, h.ranged.loops, h.ranged.dict, h.ranged.draft⟩
  loops := h.loops

/-- An engine that starts over is ready, whatever it was doing. -/
theorem Ready.reset {e : Engine} (hs : e.Sound) (hr : e.Ranged) : e.reset.Ready where
  sound := ⟨e.reset_dict ▸ hs.dict, nofun⟩
  ranged := ⟨e.reset_stack ▸ hr.stack, nofun, e.reset_dict ▸ hr.dict, nofun⟩
  loops := rfl

end Engine

namespace Run

variable {e : Engine}

theorem Settles.recover {r : Outcome Unit} {lim : Limits} {line : String}
    (h : Settles (fun n => do tokens lim n (← lift (Token.ofText line))) e r) :
    Settles (fun n => feed lim n line) e (recover line r) := by
  obtain ⟨hr, n, hn⟩ := h
  refine ⟨?_, n, fun fuel hle => by rw [run_feed, hn fuel hle]⟩
  match r, hr with
  | .ok a e', _ => trivial
  | .error (.fault f) e', _ => trivial

/-- A text is done with at some point, and the engine is then ready for the next one. -/
theorem feed_ready (h : e.Ready) (lim : Limits) (line : String) :
    ∃ r, Settles (fun n => feed lim n line) e r ∧ (engine r).Ready := by
  obtain ⟨r, hr, hs, hl⟩ := Proceeds.line lim line h.sound
  refine ⟨_, hr.recover, ?_⟩
  obtain ⟨hended, n, hn⟩ := hr
  have hrun := hn n (Nat.le_refl n)
  have hranged : (engine r).Ranged := hrun ▸ (KeepsRange.line lim n line).engine h.ranged
  cases r with
  | ok a e' => exact ⟨hs, hranged, (hl e' rfl).trans h.loops⟩
  | error s e' =>
      cases s with
      | outOfFuel => exact hended.elim
      | fault f =>
          -- Numbers in range can be printed, so no fault stops the engine for good.
          obtain ⟨_, hw⟩ := (KeepsRange.line lim n line).error h.ranged hrun
          simp only [recover, hw.recovers, if_true, engine_error]
          have hnote : (e'.note (.aborted line f)).Ranged :=
            ⟨hranged.stack, hranged.loops, hranged.dict, hranged.draft⟩
          exact .reset ⟨hs.dict, hs.draft⟩ hnote

/-- A text that fails is given up where it failed. -/
theorem fault_of_feed {lim : Limits} {fuel : Nat} {line : String} {e' : Engine} {f : Fault}
    (h : e.Ready) (hr : (feed lim fuel line).run e = .error (.fault f) e') :
    f.recovers = true ∧ ∃ e₁,
      (do tokens lim fuel (← lift (Token.ofText line)) : Run Unit).run e = .error (.fault f) e₁ ∧
      e' = (e₁.note (.aborted line f)).reset := by
  rw [run_feed] at hr
  cases hline : (do tokens lim fuel (← lift (Token.ofText line)) : Run Unit).run e with
  | ok a e₁ =>
      rw [hline] at hr
      cases hr
  | error s e₁ =>
      rw [hline] at hr
      cases s with
      | outOfFuel => cases hr
      | fault x =>
          obtain ⟨-, hw⟩ := (KeepsRange.line lim fuel line).error h.ranged hline
          simp only [recover, hw.recovers, if_true] at hr
          cases hr
          exact ⟨hw.recovers, e₁, rfl, rfl⟩

/-- What a feed leaves when it ends is what it settles on. -/
theorem ready_of_feed (h : e.Ready) {lim : Limits} {fuel : Nat} {line : String}
    (he : Ended ((feed lim fuel line).run e)) : (engine ((feed lim fuel line).run e)).Ready := by
  obtain ⟨r, hr, hready⟩ := feed_ready h lim line
  rw [(settles_feed rfl he).unique hr]
  exact hready

theorem ready_of_interpret (h : e.Ready) {lim : Limits} {fuel : Nat} {line : String}
    (he : Ended ((interpret lim fuel line).run e)) :
    (engine ((interpret lim fuel line).run e)).Ready := by
  have hfeed : Ended ((feed lim fuel line).run { e with console := ⟨#[], none⟩ }) →
      (engine ((feed lim fuel line).run { e with console := ⟨#[], none⟩ })).Ready :=
    ready_of_feed (h.withConsole _)
  unfold interpret at he ⊢
  simp only [EStateM.run] at he hfeed ⊢
  split
  · next e' hr =>
      rw [hr] at hfeed
      exact (hfeed trivial).withConsole _
  · next f e' hr =>
      rw [hr] at hfeed
      split <;> exact (hfeed trivial).withConsole _
  · next e' hr =>
      rw [hr] at he
      exact he.elim

/-- Taking in a text for its output has an answer whenever it ends. -/
theorem interpret_ne_error {lim : Limits} {fuel : Nat} {line : String} {e' : Engine} {f : Fault}
    (h : e.Ready) : (interpret lim fuel line).run e ≠ .error (.fault f) e' := by
  intro hr
  unfold interpret at hr
  simp only [EStateM.run] at hr
  split at hr
  · cases hr
  · next x e₁ hfeed =>
      obtain ⟨hrecovers, -⟩ := fault_of_feed (h.withConsole _) hfeed
      rw [if_pos hrecovers] at hr
      cases hr
  · cases hr

end Run

theorem Reachable.ready {e : Engine} (h : Reachable e) : e.Ready := by
  induction h with
  | fresh => exact Engine.ready_fresh
  | listening => exact Engine.ready_fresh.withConsole _
  | feed lim fuel line h he ih => exact Run.ready_of_feed ih he
  | interpret lim fuel line h he ih => exact Run.ready_of_interpret ih he

open Run

/-- From every state of a session every text is done with in a bounded number of
steps, with success or with a fault, whatever the bounds on the depth are. -/
theorem feed_terminates {e : Engine} (h : Reachable e) (lim : Limits) (text : String) :
    ∃ r, Settles (fun n => feed lim n text) e r := by
  obtain ⟨r, hr, _⟩ := feed_ready h.ready lim text
  exact ⟨r, hr⟩

/-- A word that calls itself without end is stopped by the bound on the depth. -/
theorem feed_terminates_endless :
    ∃ r, Settles (fun n => feed {} n ": X RECURSE ; X") .fresh r :=
  feed_terminates .fresh {} ": X RECURSE ; X"

/-- A compiled word that returns leaves the frames of the loops around it as they
were, and between two texts no loop is running. -/
theorem loops_restored {e : Engine} (h : Reachable e) :
    (∀ {position : Nat} {w : Word} {c : Code}, e.dict.get? position = some w →
      w.body = .compiled c → ∀ (lim : Limits) (fuel depth : Nat) (stack : List Int)
        (loops : List Frame) (e' : Engine),
        (word lim fuel depth position).run { e with stack, loops } = .ok () e' →
        e'.loops = loops) ∧
    e.loops = [] ∧
    (∀ (lim : Limits) (fuel : Nat) (line : String), Ended ((feed lim fuel line).run e) →
      (engine ((feed lim fuel line).run e)).loops = []) ∧
    ∀ (lim : Limits) (fuel : Nat) (line : String), Ended ((interpret lim fuel line).run e) →
      (engine ((interpret lim fuel line).run e)).loops = [] := by
  refine ⟨fun {position w c} hw hc lim fuel depth stack loops e' hr => ?_, h.ready.loops,
    fun lim fuel line he => (Reachable.feed lim fuel line h he).ready.loops,
    fun lim fuel line he => (Reachable.interpret lim fuel line h he).ready.loops⟩
  have hcall : e.dict.Callable position := ⟨w, hw, fun b hb => by rw [hc] at hb; cases hb⟩
  have halike : Alike (fun n => word lim n depth position) (fun n => word lim n depth position)
      { e with stack, loops } := word_alike h.ready.sound.dict hcall
  obtain ⟨r, hs, _, hn⟩ := halike
  rw [← (settles_word hr trivial).unique hs] at hn
  exact hn.2

/-- A session with a word that loops, and loops again within the loop. -/
def nested : Engine :=
  engine ((feed {} 100 ": X 2 0 DO 3 1 DO I LOOP LOOP ;").run .fresh)

theorem reachable_nested : Reachable nested :=
  .feed _ _ _ .fresh (by decide +kernel)

theorem loops_restored_nested :
    (word {} 100 0 36).run { nested with stack := [], loops := [⟨7, 9⟩] } =
      .ok () { nested with stack := [2, 1, 2, 1], loops := [⟨7, 9⟩] } ∧
    ∀ e', (word {} 100 0 36).run { nested with stack := [], loops := [⟨7, 9⟩] } = .ok () e' →
      e'.loops = [⟨7, 9⟩] := by
  have hw : nested.dict.get? 36 = some ⟨"X", .compiled #[.lit 2, .lit 0, .enterLoop (some 9),
      .lit 3, .lit 1, .enterLoop (some 8), .index, .nextLoop 6, .nextLoop 3], false⟩ := by
    decide +kernel
  refine ⟨by decide +kernel, fun e' hr => ?_⟩
  exact (loops_restored reachable_nested).1 hw rfl {} 100 0 [] [⟨7, 9⟩] e' hr

end Forthlet
