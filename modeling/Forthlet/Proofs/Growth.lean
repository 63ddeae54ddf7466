import Forthlet.Proofs.Editing
import Forthlet.Proofs.Session

/-!
# Dictionaries only grow

A dictionary changes in two ways: a compiled word joins it whose calls go to older
entries or to the word itself, or the newest entry is marked to run at once. So an
entry keeps its position, name and code for good, and its mark is only ever set,
while the entry is the newest. This holds of all hosts: they may feed texts, add
compiled words of their own that call any entry at all, the compiling words
included, and start loops from outside.
-/
namespace Forthlet

open Outcome

/-- Calls in code of the word at `owner` go to older entries, or to the word itself. -/
def Code.Backward (c : Code) (owner : Nat) : Prop :=
  ∀ k, .call (.entry k) ∈ c → k < owner

theorem Code.Backward.mono {c : Code} {m n : Nat} (h : c.Backward m) (hle : m ≤ n) :
    c.Backward n :=
  fun k hk => Nat.lt_of_lt_of_le (h k hk) hle

namespace Dictionary

inductive Change (d : Dictionary) : Dictionary → Prop
  | add (name : String) {code : Code} (h : code.Backward d.size) :
      Change d (d.add ⟨name, .compiled code, false⟩)
  | mark {name : String} {d' : Dictionary} (h : d.markLatest = .ok (name, d')) : Change d d'

abbrev Grows : Dictionary → Dictionary → Prop := Relation.ReflTransGen Change

/-- Calls in the code of every entry go to older entries, or to the entry itself. -/
def Backward (d : Dictionary) : Prop :=
  ∀ {position : Nat} {w : Word} {code : Code}, d.get? position = some w →
    w.body = .compiled code → code.Backward position

/-- Between two moments the entry `w` stayed what it was, unless it was the newest one and
compiled, and was marked. -/
structure Retains (newest : Prop) (w w' : Word) : Prop where
  name : w'.name = w.name
  body : w'.body = w.body
  immediate : w'.immediate = w.immediate ∨
    (w.isCompiled = true ∧ w.immediate = false ∧ w'.immediate = true ∧ newest)

variable {d d' : Dictionary} {position : Nat} {w : Word}

theorem Retains.unmarked {newest : Prop} {w' : Word} (h : Retains newest w w') :
    w'.unmarked = w.unmarked := by
  have hc : w'.isCompiled = w.isCompiled := by
    rw [Word.isCompiled, Word.isCompiled, h.body]
  have hi : (w'.immediate && !w'.isCompiled) = (w.immediate && !w.isCompiled) := by
    rw [hc]
    rcases h.immediate with hi | ⟨hi, -⟩
    · rw [hi]
    · simp [hi]
  rw [Word.unmarked, Word.unmarked, h.name, h.body, hi]

theorem size_add (d : Dictionary) (w : Word) : (d.add w).size = d.size + 1 := Array.size_push w

/-- Only the newest entry is marked, and only if it was compiled. -/
theorem markLatest_ok {name : String} (h : d.markLatest = .ok (name, d')) :
    ∃ w, d.entries.back? = some w ∧ w.isCompiled = true ∧ w.name = name ∧
      d'.entries = d.entries.pop.push { w with immediate := true } := by
  unfold markLatest at h
  split at h
  · next w hw =>
      split at h
      · next hc =>
          cases h
          exact ⟨w, hw, hc, rfl, rfl⟩
      · cases h
  · cases h

theorem size_markLatest {name : String} (h : d.markLatest = .ok (name, d')) :
    d'.size = d.size := by
  obtain ⟨w, hw, -, -, hd'⟩ := markLatest_ok h
  have hd := congrArg Array.size (entries_of_back? hw)
  rw [size, hd', size, hd]
  simp

theorem get?_markLatest {name : String} (h : d.markLatest = .ok (name, d'))
    (hw : d.get? position = some w) :
    ∃ w', d'.get? position = some w' ∧ Retains (position + 1 = d.size) w w' := by
  obtain ⟨v, hv, hc, -, hd'⟩ := markLatest_ok h
  have hd := entries_of_back? hv
  have hsize : d.size = d.entries.pop.size + 1 := by
    rw [size, hd]
    simp
  rw [get?, hd, Array.getElem?_push] at hw
  rw [get?, hd', Array.getElem?_push]
  by_cases hp : position = d.entries.pop.size
  · rw [if_pos hp] at hw ⊢
    cases hw
    refine ⟨_, rfl, rfl, rfl, ?_⟩
    cases hi : w.immediate with
    | true => exact .inl rfl
    | false => exact .inr ⟨hc, rfl, rfl, by omega⟩
  · rw [if_neg hp] at hw ⊢
    exact ⟨w, hw, rfl, rfl, .inl rfl⟩

namespace Change

theorem size_le (h : d.Change d') : d.size ≤ d'.size := by
  cases h with
  | add name h =>
      rw [size_add]
      exact Nat.le_succ _
  | mark h => exact Nat.le_of_eq (size_markLatest h).symm

theorem retains (h : d.Change d') (hw : d.get? position = some w) :
    ∃ w', d'.get? position = some w' ∧ Retains (position + 1 = d.size) w w' := by
  cases h with
  | add name h =>
      refine ⟨w, ?_, rfl, rfl, .inl rfl⟩
      rw [get?_add, if_neg (Nat.ne_of_lt (get?_lt hw)), hw]
  | mark h => exact get?_markLatest h hw

theorem backward (h : d.Change d') (hd : d.Backward) : d'.Backward := by
  intro position w' code hw' hc
  cases h with
  | add name h =>
      rw [get?_add] at hw'
      split at hw'
      · next hp =>
          cases hw'
          cases hc
          rw [hp]
          exact h
      · exact hd hw' hc
  | mark h =>
      obtain ⟨w, hw, hu⟩ := get?_of_unmarked (unmarked_markLatest h).symm hw'
      exact hd hw ((Word.body_of_unmarked hu).trans hc)

end Change

namespace Grows

theorem size_le (h : d.Grows d') : d.size ≤ d'.size := by
  induction h with
  | refl => exact Nat.le_refl _
  | tail _ hc ih => exact Nat.le_trans ih hc.size_le

/-- An entry that was not the newest at the start never is the newest again. -/
theorem retains (h : d.Grows d') (hw : d.get? position = some w) :
    ∃ w', d'.get? position = some w' ∧ Retains (position + 1 = d.size) w w' := by
  induction h with
  | refl => exact ⟨w, hw, rfl, rfl, .inl rfl⟩
  | @tail d₁ d₂ hg hc ih =>
      obtain ⟨w₁, hw₁, h₁⟩ := ih
      obtain ⟨w₂, hw₂, h₂⟩ := hc.retains hw₁
      have hold : position + 1 = d₁.size → position + 1 = d.size := by
        intro hn
        have hlt := get?_lt hw
        have hle := Grows.size_le hg
        omega
      have hcompiled : w₁.isCompiled = w.isCompiled := by
        rw [Word.isCompiled, Word.isCompiled, h₁.body]
      refine ⟨w₂, hw₂, h₂.name.trans h₁.name, h₂.body.trans h₁.body, ?_⟩
      rcases h₂.immediate with h₂ | ⟨hc₂, hf₂, ht₂, hn₂⟩
      · rw [h₂]
        exact h₁.immediate
      · rcases h₁.immediate with h₁ | ⟨-, -, ht₁, -⟩
        · rw [h₁] at hf₂
          rw [hcompiled] at hc₂
          exact .inr ⟨hc₂, hf₂, ht₂, hold hn₂⟩
        · rw [ht₁] at hf₂
          cases hf₂

end Grows

theorem backward_builtins : builtins.Backward := by
  intro position w code hw hc
  obtain ⟨b, rfl⟩ := ofBuiltin_of_get? hw
  cases hc

/-- Where all calls go backward, they go to entries. -/
theorem Backward.calls (h : d.Backward) {target : Nat} (hc : d.Calls position target) :
    target ≤ position ∧ ∃ w, d.get? target = some w := by
  obtain ⟨w, code, callee, hw, hb, hcall, rfl⟩ := hc
  cases callee with
  | itself => exact ⟨Nat.le_refl _, w, hw⟩
  | entry k =>
      have hlt : k < position := h hw hb k hcall
      have hsize : k < d.entries.size := Nat.lt_trans hlt (get?_lt hw)
      exact ⟨Nat.le_of_lt hlt, _, Array.getElem?_eq_getElem hsize⟩

end Dictionary

/-- All calls of a program go backward, those of the definition in progress as those of an entry
that is still to come. -/
structure Program.Backward (p : Program) : Prop where
  dict : p.dict.Backward
  draft : ∀ {d}, p.draft = some d → d.code.Backward p.dict.size

namespace Program

variable {p p' : Program}

/-- An edit lets the dictionary grow, and keeps all calls backward. -/
theorem Edit.grows (h : p.Edit p') (hp : p.Backward) :
    p.dict.Grows p'.dict ∧ p'.Backward := by
  cases h with
  | mark hm =>
      have hc : p.dict.Change _ := .mark hm
      refine ⟨.single hc, hc.backward hp.dict, fun hd => ?_⟩
      exact (hp.draft hd).mono hc.size_le
  | start _ hd =>
      refine ⟨.refl, hp.dict, fun hd => ?_⟩
      cases hd
      intro k hk
      exact absurd hk (Array.not_mem_empty _)
  | @take d d' piece hd hl ht =>
      refine ⟨.refl, hp.dict, fun hd' => ?_⟩
      cases hd'
      intro k hk
      rcases Draft.mem_of_take ht hk with hk | ⟨a, rfl, ha⟩ | hj
      · exact hp.draft hd k hk
      · cases a with
        | call c =>
            cases ha
            obtain ⟨w, hw, -⟩ := hl
            exact Dictionary.get?_lt hw
        | lit _ | index => cases ha
      · cases hj
  | @finish d w hd hw =>
      unfold Draft.finish at hw
      split at hw <;> cases hw
      have hc : p.dict.Change _ := .add d.name (hp.draft hd)
      exact ⟨.single hc, hc.backward hp.dict, nofun⟩
  | drop => exact ⟨.refl, hp.dict, nofun⟩

theorem Edits.grows (h : p.Edits p') (hp : p.Backward) :
    p.dict.Grows p'.dict ∧ p'.Backward := by
  induction h with
  | refl => exact ⟨.refl, hp⟩
  | tail _ he ih =>
      obtain ⟨hg, hb⟩ := ih
      obtain ⟨hg', hb'⟩ := he.grows hb
      exact ⟨hg.trans hg', hb'⟩

end Program

namespace Engine

/-- One text of a session is taken in to its end, with success or with a fault. -/
inductive Takes (e : Engine) : Engine → Prop
  | feed (lim : Limits) (fuel : Nat) (line : String)
      (he : Ended ((Run.feed lim fuel line).run e)) :
      Takes e (engine ((Run.feed lim fuel line).run e))
  | interpret (lim : Limits) (fuel : Nat) (line : String)
      (he : Ended ((Run.interpret lim fuel line).run e)) :
      Takes e (engine ((Run.interpret lim fuel line).run e))

theorem Takes.edits {e e' : Engine} (h : e.Takes e') : e.program.Edits e'.program := by
  cases h with
  | feed lim fuel line he => exact Run.edits_feed lim fuel line e
  | interpret lim fuel line he => exact Run.edits_interpret lim fuel line e

/-- What a host may do to its engine. -/
inductive Hosts (e : Engine) : Engine → Prop
  | takes {e' : Engine} (h : e.Takes e') : Hosts e e'
  | define {e' : Engine} (name : String) (code : Array (Instr String))
      (h : e.define name code = .ok e') : Hosts e e'
  /-- An unknown name in the code; nothing is added. -/
  | defineFails {f : Fault} (name : String) (code : Array (Instr String))
      (h : e.define name code = .error f) : Hosts e e
  | pushFrame (frame : Frame) : Hosts e (e.pushFrame frame)
  | clearOut : Hosts e e.clearOut

end Engine

/-- The states of an engine that is run by a host. -/
inductive Hosted : Engine → Prop
  | fresh : Hosted .fresh
  | listening : Hosted Engine.fresh.listening
  | step {e e' : Engine} (h : Hosted e) (hs : e.Hosts e') : Hosted e'

namespace Dictionary

variable {d : Dictionary}

theorem lt_of_lookup {name : String} {position : Nat} (h : d.lookup name = .ok position) :
    position < d.size := by
  unfold lookup at h
  split at h
  · next hf =>
      cases h
      obtain ⟨w, hw, -⟩ := get?_of_find? hf
      exact get?_lt hw
  · cases h

/-- What a traversal yields, it makes of the elements one by one. -/
theorem exists_of_mem_mapM {α β : Type} {f : α → Except Fault β} {as : List α} {bs : List β}
    {b : β} (h : as.mapM f = .ok bs) (hb : b ∈ bs) : ∃ a ∈ as, f a = .ok b := by
  induction as generalizing bs with
  | nil =>
      cases h
      cases hb
  | cons a as ih =>
      rw [List.mapM_cons] at h
      cases ha : f a with
      | error x =>
          rw [ha] at h
          cases h
      | ok c =>
          cases has : as.mapM f with
          | error x =>
              rw [ha, has] at h
              cases h
          | ok cs =>
              rw [ha, has] at h
              cases h
              rcases List.mem_cons.mp hb with rfl | hb
              · exact ⟨a, by simp, ha⟩
              · obtain ⟨a', ha', hf⟩ := ih has hb
                exact ⟨a', by simp [ha'], hf⟩

/-- Names are bound to entries that are there already. -/
theorem backward_bindCode {code : Array (Instr String)} {c : Code} (h : d.bindCode code = .ok c) :
    c.Backward d.size := by
  intro k hk
  rw [bindCode, Array.mapM_eq_mapM_toList] at h
  cases hl : code.toList.mapM
      (Instr.mapCallee fun name => return Callee.entry (← d.lookup name)) with
  | error f =>
      rw [hl] at h
      cases h
  | ok is =>
      rw [hl] at h
      cases h
      obtain ⟨i, -, hi⟩ := exists_of_mem_mapM hl (List.mem_toArray.mp hk)
      cases i with
      | call name =>
          cases hn : d.lookup name with
          | error f =>
              simp only [Instr.mapCallee, hn] at hi
              cases hi
          | ok position =>
              simp only [Instr.mapCallee, hn] at hi
              cases hi
              exact lt_of_lookup hn
      | lit _ | branch _ | branchIfZero _ | enterLoop _ | nextLoop _ | index | unknown _ =>
          cases hi

end Dictionary

namespace Engine

variable {e e' : Engine}

theorem Hosts.grows (h : e.Hosts e') (hb : e.program.Backward) :
    e.dict.Grows e'.dict ∧ e'.program.Backward := by
  cases h with
  | takes h => exact Program.Edits.grows h.edits hb
  | define name code h =>
      cases hc : e.dict.bindCode code with
      | error f =>
          rw [Engine.define, hc] at h
          cases h
      | ok c =>
          rw [Engine.define, hc] at h
          cases h
          have hchange : e.dict.Change (e.dict.define name (.compiled c) false) :=
            .add _ (Dictionary.backward_bindCode hc)
          refine ⟨.single hchange, hchange.backward hb.dict, fun hd => ?_⟩
          exact (hb.draft hd).mono hchange.size_le
  | defineFails name code h => exact ⟨.refl, hb⟩
  | pushFrame frame => exact ⟨.refl, hb.dict, hb.draft⟩
  | clearOut => exact ⟨.refl, hb.dict, hb.draft⟩

end Engine

theorem Hosted.backward {e : Engine} (h : Hosted e) : e.program.Backward := by
  induction h with
  | fresh => exact ⟨Dictionary.backward_builtins, nofun⟩
  | listening => exact ⟨Dictionary.backward_builtins, nofun⟩
  | step _ hs ih => exact (hs.grows ih).2

theorem Reachable.hosted {e : Engine} (h : Reachable e) : Hosted e := by
  induction h with
  | fresh => exact .fresh
  | listening => exact .listening
  | feed lim fuel line _ he ih => exact .step ih (.takes (.feed lim fuel line he))
  | interpret lim fuel line _ he ih => exact .step ih (.takes (.interpret lim fuel line he))

/-- A property that reading keeps holds in all states of a session if it does at the start. -/
theorem Reachable.abides {P : Engine → Prop} {e : Engine} (hP : Run.Abiding P) (hfresh : P .fresh)
    (h : Reachable e) : P e := by
  induction h with
  | fresh => exact hfresh
  | listening => exact hP.withConsole hfresh _
  | feed lim fuel line _ _ ih => exact hP.feed lim fuel line ih
  | interpret lim fuel line _ _ ih => exact hP.interpret lim fuel line ih

/-- Texts only let the dictionary grow. -/
theorem Reachable.grows {e e' : Engine} (h : Reachable e)
    (hs : Relation.ReflTransGen Engine.Takes e e') : e.dict.Grows e'.dict := by
  have hedits : e.program.Edits e'.program :=
    hs.lift' Engine.program fun _ _ ht => Engine.Takes.edits ht
  exact (hedits.grows h.hosted.backward).1

/-- Whatever a host does, the entries of its engine stay where they are, with their names and
their code. Of the old entries only the newest may change, by the mark that `IMMEDIATE` sets on a
compiled word, and calls only go to older entries or back to the word itself. -/
theorem entries_frozen {e e' : Engine} (h : Hosted e) (hs : e.Hosts e') :
    (∀ {position : Nat} {w : Word}, e.dict.get? position = some w →
      ∃ w', e'.dict.get? position = some w' ∧
        Dictionary.Retains (position + 1 = e.dict.size) w w') ∧
    e.dict.Grows e'.dict ∧
    ∀ {position : Nat} {w : Word} {code : Code} {callee : Callee},
      e'.dict.get? position = some w → w.body = .compiled code → .call callee ∈ code →
        callee.position position ≤ position ∧
          (callee.position position = position → callee = .itself) := by
  obtain ⟨hg, hb⟩ := hs.grows h.backward
  refine ⟨fun hw => hg.retains hw, hg, fun {position w code callee} hw hc hcall => ?_⟩
  cases callee with
  | itself => exact ⟨Nat.le_refl _, fun _ => rfl⟩
  | entry k =>
      have hlt : k < position := hb.dict hw hc k hcall
      exact ⟨Nat.le_of_lt hlt, fun he => absurd he (Nat.ne_of_lt hlt)⟩

/-- An engine with a compiled word that ends the definition in progress, which only a host can
add. -/
def stoppable : Engine :=
  { Engine.fresh with
    dict := Dictionary.builtins.add ⟨"STOP", .compiled #[.call (.entry 0)], false⟩ }

theorem hosted_stoppable : Hosted stoppable := by
  have hdefine : (Engine.fresh.define "STOP" #[.call ";"]).toOption = some stoppable := by
    decide +kernel
  cases hd : Engine.fresh.define "STOP" #[.call ";"] with
  | error f =>
      rw [hd] at hdefine
      cases hdefine
  | ok e =>
      rw [hd] at hdefine
      cases hdefine
      exact .step .fresh (.define _ _ hd)

/-- One text marks the word, ends a definition from within it and marks the new word. -/
theorem entries_frozen_stoppable :
    ∃ e', stoppable.Hosts e' ∧ e'.dict.size = stoppable.dict.size + 1 ∧
      e'.dict.get? 37 = some ⟨"A", .compiled #[.lit 1], true⟩ ∧
      ∃ w', e'.dict.get? 36 = some w' ∧ w'.immediate = true ∧
        Dictionary.Retains (36 + 1 = stoppable.dict.size)
          ⟨"STOP", .compiled #[.call (.entry 0)], false⟩ w' := by
  let e' := engine ((Run.feed {} 100 "IMMEDIATE : A 1 STOP IMMEDIATE").run stoppable)
  have hs : stoppable.Hosts e' := .takes (.feed _ _ _ (by decide +kernel))
  have hstop : stoppable.dict.get? 36 =
      some ⟨"STOP", .compiled #[.call (.entry 0)], false⟩ := by decide +kernel
  obtain ⟨w', hw', hr⟩ := (entries_frozen hosted_stoppable hs).1 hstop
  have hmark : e'.dict.get? 36 =
      some ⟨"STOP", .compiled #[.call (.entry 0)], true⟩ := by decide +kernel
  refine ⟨e', hs, by decide +kernel, by decide +kernel, w', hw', ?_, hr⟩
  rw [hmark] at hw'
  cases hw'
  rfl

end Forthlet
