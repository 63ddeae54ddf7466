import Mathlib.Logic.Relation
import Forthlet.Proofs.Lasting

/-!
# What can happen to a program

The program of an engine is its dictionary together with the definition in
progress. Whatever is read or run, and however that ends, the program changes by
edits of five kinds only. What edits keep therefore holds along every run.
-/
namespace Forthlet

open Outcome

structure Program where
  dict : Dictionary
  draft : Option Draft

def Engine.program (e : Engine) : Program := ⟨e.dict, e.draft⟩

@[simp] theorem Engine.program_reset (e : Engine) : e.reset.program = ⟨e.dict, none⟩ := by
  unfold reset
  cases e.draft <;> rfl

namespace Program

inductive Edit (p : Program) : Program → Prop
  /-- `IMMEDIATE` marks the newest entry. -/
  | mark {name : String} {dict : Dictionary} (h : p.dict.markLatest = .ok (name, dict)) :
      Edit p ⟨dict, p.draft⟩
  /-- A colon starts a definition, under any name but a number. -/
  | start {name : String} {x : Numeral.Error} (hn : Numeral.parse name = .error x)
      (h : p.draft = none) : Edit p ⟨p.dict, some (.start name)⟩
  /-- A token or a compiling word adds a piece to the definition. -/
  | take {d d' : Draft} {piece : Piece} (h : p.draft = some d) (hp : piece.Linked p.dict)
      (ht : d.take piece = .ok d') : Edit p ⟨p.dict, some d'⟩
  /-- `;` makes the definition an entry. -/
  | finish {d : Draft} {w : Word} (h : p.draft = some d) (hw : d.finish = .ok w) :
      Edit p ⟨p.dict.add w, none⟩
  /-- A fault drops the definition. -/
  | drop : Edit p ⟨p.dict, none⟩

abbrev Edits : Program → Program → Prop := Relation.ReflTransGen Edit

variable {p p' : Program} {position : Nat} {w : Word}

/-- An edit leaves every entry as it is, up to its mark. -/
theorem Edit.entry (h : p.Edit p') (hw : p.dict.get? position = some w) :
    ∃ w', p'.dict.get? position = some w' ∧ w'.unmarked = w.unmarked := by
  cases h with
  | mark hm => exact Dictionary.get?_of_unmarked (Dictionary.unmarked_markLatest hm) hw
  | start _ _ | take _ _ _ | drop => exact ⟨w, hw, rfl⟩
  | finish _ _ =>
      refine ⟨w, ?_, rfl⟩
      rw [Dictionary.get?_add, if_neg (Nat.ne_of_lt (Dictionary.get?_lt hw)), hw]

theorem Edits.entry (h : p.Edits p') (hw : p.dict.get? position = some w) :
    ∃ w', p'.dict.get? position = some w' ∧ w'.unmarked = w.unmarked := by
  induction h with
  | refl => exact ⟨w, hw, rfl⟩
  | tail _ he ih =>
      obtain ⟨w₁, hw₁, hu₁⟩ := ih
      obtain ⟨w₂, hw₂, hu₂⟩ := he.entry hw₁
      exact ⟨w₂, hw₂, hu₂.trans hu₁⟩

end Program

namespace Run

variable {α : Type}

/-- The action changes the program `p` by edits, and it does not stop as a text that ends too
early does. -/
abbrev KeepsEdits (p : Program) (m : Run α) : Prop := Lasting.Kept (fun e => p.Edits e.program) m

namespace KeepsEdits

variable {p : Program}

/-- Whatever runs changes the program by edits. -/
theorem lasting (p : Program) : Lasting fun e => p.Edits e.program where
  withStack h _ := h
  write h _ := h
  pushFrame h _ _ := h
  popFrame h _ := h
  take h hd hp ht := h.tail (.take hd hp ht)
  finish h hd hw := h.tail (.finish hd hw)
  mark h hm := h.tail (.mark hm)

theorem token {lim : Limits} {fuel : Nat} (text : String) : KeepsEdits p (token lim fuel text) :=
  (lasting p).token text

theorem startDraft (name : String) : KeepsEdits p (startDraft (some name)) :=
  Lasting.startDraft fun h hd hn => h.tail (.start hn hd)

theorem tokens {lim : Limits} {fuel : Nat} (ts : List String) :
    Keeps (fun e => p.Edits e.program) (fun s => s ≠ .fault .openComment) (tokens lim fuel ts)
      fun _ => True :=
  (lasting p).tokens fun _ _ _ _ h hd hn => h.tail (.start hn hd)

/-- Whatever is read does so as well. -/
theorem abiding (p : Program) : Abiding fun e => p.Edits e.program where
  toLasting := lasting p
  start h hd _ hn := h.tail (.start hn hd)
  abort {e} h line f := by
    have hdrop : e.program.Edit (e.note (.aborted line f)).reset.program := by
      rw [Engine.program_reset]
      exact .drop
    exact h.tail hdrop
  withConsole h _ := h

end KeepsEdits

section
variable (lim : Limits) (fuel : Nat) (line : String) (e : Engine)

/-- Whatever a text does to the program, it does by edits. -/
theorem edits_feed : e.program.Edits (engine ((feed lim fuel line).run e)).program :=
  (KeepsEdits.abiding e.program).feed lim fuel line .refl

theorem edits_interpret :
    e.program.Edits (engine ((interpret lim fuel line).run e)).program :=
  (KeepsEdits.abiding e.program).interpret lim fuel line .refl

end

end Run

end Forthlet
