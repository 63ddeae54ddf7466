import Forthlet.Proofs.Budget
import Forthlet.Proofs.Entries

/-!
# What running a word leaves alone

A word that runs may change the stacks, what was printed, the journal and the
marks of compiled words. It changes neither the code of any word nor the
definition in progress, and when it succeeds the same loops are running as
before. The compiling words are the exception; no compiled code calls them.
-/
namespace Forthlet

/-- The code of all words and the definition in progress are the same in both states. -/
structure Engine.SameProgram (e e' : Engine) : Prop where
  dict : e'.dict.unmarked = e.dict.unmarked
  draft : e'.draft = e.draft

namespace Engine.SameProgram

variable {e e' e'' : Engine}

theorem refl (e : Engine) : e.SameProgram e := ⟨rfl, rfl⟩

theorem trans (h : e.SameProgram e') (h' : e'.SameProgram e'') : e.SameProgram e'' :=
  ⟨h'.dict.trans h.dict, h'.draft.trans h.draft⟩

end Engine.SameProgram

open Outcome

/-- A run from `e` ended so: with the program of `e` and, if it succeeded, with its loops. -/
def Neat {α : Type} (e : Engine) : Outcome α → Prop
  | .ok _ e' => e.SameProgram e' ∧ e'.loops = e.loops
  | .error (.fault _) e' => e.SameProgram e'
  | .error .outOfFuel _ => False

namespace Neat

variable {α : Type} {e e' : Engine} {r : Outcome α}

theorem ended (h : Neat e r) : Ended r := by
  match r, h with
  | .ok _ _, _ => trivial
  | .error (.fault _) _, _ => trivial

theorem sameProgram (h : Neat e r) : e.SameProgram (engine r) := by
  match r, h with
  | .ok _ _, h => exact h.1
  | .error (.fault _) _, h => exact h

theorem trans (he : e.SameProgram e') (hl : e'.loops = e.loops) (h : Neat e' r) : Neat e r := by
  match r, h with
  | .ok _ _, h => exact ⟨he.trans h.1, h.2.trans hl⟩
  | .error (.fault _) _, h => exact he.trans h

end Neat

namespace Run

variable {α β : Type}

/-- From every state the action ends neatly. -/
structure Tame (m : Run α) : Prop where
  neat : ∀ e, Neat e (m.run e)

namespace Tame

theorem pure (a : α) : Tame (pure a : Run α) := ⟨fun e => ⟨.refl e, rfl⟩⟩

theorem fail (f : Fault) : Tame (fail f : Run α) := ⟨fun e => .refl e⟩

theorem lift (x : Except Fault α) : Tame (lift x) := by
  cases x with
  | ok a => exact .pure a
  | error f => exact .fail f

theorem get : Tame (get : Run Engine) := ⟨fun e => ⟨.refl e, rfl⟩⟩

theorem bind {m : Run α} {f : α → Run β} (h : Tame m) (hf : ∀ a, Tame (f a)) :
    Tame (m >>= f) := by
  refine ⟨fun e => ?_⟩
  have he := h.neat e
  rw [EStateM.run_bind]
  cases hr : m.run e with
  | ok a e' =>
      rw [hr] at he
      exact ((hf a).neat e').trans he.1 he.2
  | error s e' =>
      rw [hr] at he
      cases s <;> exact he

theorem onStack (act : Stack.Act Int α) : Tame (onStack act) := by
  refine ⟨fun e => ?_⟩
  unfold Run.onStack
  simp only [EStateM.run]
  split <;> first | exact ⟨⟨rfl, rfl⟩, rfl⟩ | exact ⟨rfl, rfl⟩

theorem push (n : Int) : Tame (push n) := onStack _

theorem pop : Tame pop := onStack _

theorem emit (chunk : String) : Tame (emit chunk) := ⟨fun _ => ⟨⟨rfl, rfl⟩, rfl⟩⟩

theorem decimal (n : Int) : Tame (decimal n) := by
  unfold Run.decimal
  split
  · exact .pure _
  · exact .fail _

theorem mapM {f : α → Run β} (h : ∀ a, Tame (f a)) (l : List α) : Tame (l.mapM f) := by
  induction l with
  | nil => exact .pure _
  | cons a l ih =>
      rw [List.mapM_cons]
      exact (h a).bind fun _ => ih.bind fun _ => .pure _

/-- Looking at the frame of the innermost loop leaves the frames as they are. -/
theorem loopIndex : Tame Primitive.loopIndex := by
  have hp : Tame (onLoops Frame.peek) := by
    refine ⟨fun e => ?_⟩
    cases hl : e.loops with
    | nil => simpa [onLoops, Frame.peek, Stack.peek, EStateM.run, hl, Neat] using
        (⟨rfl, rfl⟩ : e.SameProgram { e with loops := [] })
    | cons f s => simpa [onLoops, Frame.peek, Stack.peek, EStateM.run, hl, Neat] using
        (⟨rfl, rfl⟩ : e.SameProgram { e with loops := f :: s })
  exact hp.bind fun _ => push _

theorem markLatest : Tame Primitive.markLatest := by
  refine ⟨fun e => ?_⟩
  cases hm : e.dict.markLatest with
  | error f =>
      rw [Primitive.run_markLatest_error hm]
      exact .refl e
  | ok p =>
      rw [Primitive.run_markLatest_ok hm]
      exact ⟨⟨Dictionary.unmarked_markLatest hm, rfl⟩, rfl⟩

theorem binary (op : Cell.Binary) : Tame (Primitive.binary op) :=
  pop.bind fun _ => pop.bind fun _ => (lift _).bind fun _ => push _

theorem printTop : Tame Primitive.printTop := by
  unfold Primitive.printTop
  exact bind pop fun n => bind (decimal n) fun _ => emit _

theorem printStack : Tame Primitive.printStack := by
  unfold Primitive.printStack
  exact bind get fun _ => bind (mapM decimal _) fun _ => emit _

/-- No word but a compiling one touches the definition in progress. -/
theorem exec {b : Builtin} (h : b.isCompiling = false) : Tame (Primitive.exec b) := by
  cases b with
  | semicolon | recurse | literal | ifWord | elseWord | thenWord | doWord | loopWord | index =>
      cases h
  | markImmediate => exact markLatest
  | binary op => exact binary op
  | bitNot => exact pop.bind fun _ => push _
  | shuffle w => exact onStack _
  | print => exact printTop
  | newline => exact emit _
  | printStack => exact printStack
  | listWords => exact get.bind fun _ => emit _

end Tame

/-- Both families settle on one outcome, and that outcome is neat. -/
def Alike (m m' : Nat → Run α) (e : Engine) : Prop :=
  ∃ r, Settles m e r ∧ Settles m' e r ∧ Neat e r

namespace Alike

variable {m m' : Nat → Run α} {e : Engine}

theorem of_tame {m : Run α} (h : Tame m) (e : Engine) : Alike (fun _ => m) (fun _ => m) e := by
  have hn := h.neat e
  exact ⟨m.run e, .const rfl hn.ended, .const rfl hn.ended, hn⟩

theorem bind {f f' : Nat → α → Run β} (h : Alike m m' e)
    (hf : ∀ a e', e.SameProgram e' → e'.loops = e.loops →
      Alike (fun n => f n a) (fun n => f' n a) e') :
    Alike (fun n => m n >>= f n) (fun n => m' n >>= f' n) e := by
  obtain ⟨r, hm, hm', hn⟩ := h
  cases r with
  | ok a e' =>
      obtain ⟨s, hs, hs', hsn⟩ := hf a e' hn.1 hn.2
      exact ⟨s, hm.bind_ok hs, hm'.bind_ok hs', hsn.trans hn.1 hn.2⟩
  | error s e' =>
      refine ⟨.error s e', hm.bind_error, hm'.bind_error, ?_⟩
      cases s <;> exact hn

theorem left (h : Alike m m' e) : Alike m m e := by
  obtain ⟨r, hm, _, hn⟩ := h
  exact ⟨r, hm, hm, hn⟩

theorem settles_bind {f g : Nat → α → Run β} {r : Outcome β} (h : Alike m m' e)
    (hfg : ∀ a e', e.SameProgram e' → e'.loops = e.loops →
      Settles (fun n => f n a) e' r → Settles (fun n => g n a) e' r)
    (hr : Settles (fun n => m n >>= f n) e r) : Settles (fun n => m n >>= g n) e r := by
  obtain ⟨r₁, hm, _, hn⟩ := h
  refine hm.bind_congr (fun a e' ha hf => ?_) hr
  subst ha
  exact hfg a e' hn.1 hn.2 hf

/-- Families that settle wherever these two do are alike as well. -/
theorem of_settles {m₁ m₁' : Nat → Run α} (h : Alike m m' e)
    (h₁ : ∀ {r}, Settles m e r → Settles m₁ e r)
    (h₁' : ∀ {r}, Settles m' e r → Settles m₁' e r) : Alike m₁ m₁' e := by
  obtain ⟨r, hm, hm', hn⟩ := h
  exact ⟨r, h₁ hm, h₁' hm', hn⟩

end Alike

end Run

end Forthlet
