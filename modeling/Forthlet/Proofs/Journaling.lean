import Forthlet.Proofs.Compilation
import Forthlet.Proofs.Twins

/-!
# What is printed and recorded is never read

A run looks at the stacks, at the words and at the definition in progress, and at nothing else. So
engines that differ in nothing but their journals take in texts alike, one after the other: they
answer the same, they record the same, and they still differ in nothing but what had been
recorded before.
-/
namespace Forthlet

open Outcome

namespace Run

/-- Related states have the same stacks and the same program, and stay related when these change
alike, whatever is printed or recorded. -/
structure Mute (R : Engine → Engine → Prop) : Prop extends Blind R where
  dict : ∀ {e e'}, R e e' → e'.dict = e.dict
  draft : ∀ {e e'}, R e e' → e'.draft = e.draft
  withDict : ∀ {e e'}, R e e' → ∀ dict, R { e with dict } { e' with dict }
  withDraft : ∀ {e e'}, R e e' → ∀ draft, R { e with draft } { e' with draft }
  note : ∀ {e e'}, R e e' → ∀ r, R (e.note r) (e'.note r)

namespace Mute

/-- A relation that leaves only consoles and journals free, if it holds between them whatever is
printed and recorded. -/
theorem of_sinks {R : Engine → Engine → Prop}
    {S : Console → Array Record → Console → Array Record → Prop}
    (hR : ∀ {e e'}, R e e' ↔ ∃ console journal, e' = { e with console, journal } ∧
      S e.console e.journal console journal)
    (hwrite : ∀ {c j c' j'}, S c j c' j' → ∀ chunk, S (c.write chunk) j (c'.write chunk) j')
    (hnote : ∀ {c j c' j'}, S c j c' j' → ∀ r, S c (j.push r) c' (j'.push r)) : Mute R where
  stack he := by
    obtain ⟨_, _, rfl, -⟩ := hR.mp he
    rfl
  loops he := by
    obtain ⟨_, _, rfl, -⟩ := hR.mp he
    rfl
  dict he := by
    obtain ⟨_, _, rfl, -⟩ := hR.mp he
    rfl
  draft he := by
    obtain ⟨_, _, rfl, -⟩ := hR.mp he
    rfl
  withStack he stack := by
    obtain ⟨console, journal, rfl, hs⟩ := hR.mp he
    exact hR.mpr ⟨console, journal, rfl, hs⟩
  withLoops he loops := by
    obtain ⟨console, journal, rfl, hs⟩ := hR.mp he
    exact hR.mpr ⟨console, journal, rfl, hs⟩
  withDict he dict := by
    obtain ⟨console, journal, rfl, hs⟩ := hR.mp he
    exact hR.mpr ⟨console, journal, rfl, hs⟩
  withDraft he draft := by
    obtain ⟨console, journal, rfl, hs⟩ := hR.mp he
    exact hR.mpr ⟨console, journal, rfl, hs⟩
  write he chunk := by
    obtain ⟨console, journal, rfl, hs⟩ := hR.mp he
    exact hR.mpr ⟨console.write chunk, journal, rfl, hwrite hs chunk⟩
  note he r := by
    obtain ⟨console, journal, rfl, hs⟩ := hR.mp he
    exact hR.mpr ⟨console, journal.push r, rfl, hnote hs r⟩

variable {R : Engine → Engine → Prop} (hR : Mute R) {lim : Limits} {fuel : Nat}
include hR

theorem shares : Shares R where
  dict := hR.dict
  draft := hR.draft
  withDict := hR.withDict
  withDraft := hR.withDraft
  note := hR.note

theorem reset {e e' : Engine} (h : R e e') : R e.reset e'.reset := hR.shares.reset hR.withLoops h

theorem carries : Carries (fun _ => False) R where
  toShares := hR.shares
  toWorks := hR.works _
  withLoops := hR.withLoops

theorem word {depth position : Nat} :
    Twins R (word lim fuel depth position) (word lim fuel depth position) Eq :=
  (hR.carries.leads.word (.refl _ lim) rfl trivial).twins

theorem tokens (ts : List String) : Twins R (tokens lim fuel ts) (tokens lim fuel ts) Eq :=
  (hR.carries.tokens (.refl _ lim) rfl ts).twins

/-- An abandoned line is recorded, and otherwise forgotten. -/
theorem feed (line : String) : Twins R (feed lim fuel line) (feed lim fuel line) Eq :=
  (hR.carries.feed (.refl _ lim) rfl line).twins

end Mute

end Run

/-- Only the journals differ, and since they were `j` and `j'` the same was recorded. -/
def Engine.Shadows (j j' : Array Record) (e e' : Engine) : Prop :=
  ∃ rs, e.journal = j ++ rs ∧ e' = { e with journal := j' ++ rs }

namespace Engine.Shadows

theorem refl (j' : Array Record) (e : Engine) :
    Shadows e.journal j' e { e with journal := j' } :=
  ⟨#[], by simp, by simp⟩

theorem mute (j j' : Array Record) : Run.Mute (Shadows j j') := by
  refine .of_sinks
    (S := fun c k c' k' => c' = c ∧ ∃ rs : Array Record, k = j ++ rs ∧ k' = j' ++ rs)
    (fun {e e'} => ⟨?_, ?_⟩) ?_ ?_
  · rintro ⟨rs, hrs, rfl⟩
    exact ⟨_, _, rfl, rfl, rs, hrs, rfl⟩
  · rintro ⟨_, _, rfl, rfl, rs, hrs, rfl⟩
    exact ⟨rs, hrs, rfl⟩
  · rintro c k _ k' ⟨rfl, hrs⟩ chunk
    exact ⟨rfl, hrs⟩
  · rintro c k _ k' ⟨hc, rs, rfl, rfl⟩ r
    exact ⟨hc, rs.push r, by simp, by simp⟩

end Engine.Shadows

namespace Run

/-- The action does not look at the journal. -/
abbrev Unread {α : Type} (m : Run α) : Prop :=
  ∀ j j', Twins (Engine.Shadows j j') m m Eq

namespace Unread

variable {α β : Type}

theorem of_mute {m : Run α} (h : ∀ {R}, Mute R → Twins R m m Eq) : Unread m :=
  fun j j' => h (Engine.Shadows.mute j j')

theorem pure (a : α) : Unread (pure a : Run α) := fun _ _ => .pure a

theorem bind {m : Run α} {f : α → Run β} (h : Unread m) (hf : ∀ a, Unread (f a)) :
    Unread (m >>= f) :=
  fun j j' => (h j j').bind_eq fun a => hf a j j'

theorem feed (lim : Limits) (fuel : Nat) (line : String) : Unread (feed lim fuel line) :=
  of_mute fun h => h.feed line

theorem interpret (lim : Limits) (fuel : Nat) (line : String) :
    Unread (interpret lim fuel line) := by
  rintro j j' e e' ⟨rs, hrs, rfl⟩
  have hfeed := feed lim fuel line j j' { e with console := ⟨#[], none⟩ } _ ⟨rs, hrs, rfl⟩
  unfold Run.interpret
  simp only [EStateM.run] at hfeed ⊢
  revert hfeed
  generalize Run.feed lim fuel line _ = r
  generalize Run.feed lim fuel line _ = r'
  intro hfeed
  cases hfeed with
  | ok h hq =>
      obtain ⟨rs, hrs, rfl⟩ := h
      exact .ok ⟨rs, hrs, rfl⟩ rfl
  | @error s _ _ h =>
      obtain ⟨rs, hrs, rfl⟩ := h
      cases s with
      | outOfFuel => exact .error ⟨rs, hrs, rfl⟩
      | fault f =>
          simp only
          split
          · exact .ok ⟨rs, hrs, rfl⟩ rfl
          · exact .error ⟨rs, hrs, rfl⟩

end Unread

end Run

/-- What an engine may be given to take in, with the bounds that hold then. -/
inductive Input where
  | feed (lim : Limits) (line : String)
  | interpret (lim : Limits) (line : String)

def Input.run (fuel : Nat) : Input → Run (Option String)
  | feed lim line => do
      Run.feed lim fuel line
      return none
  | interpret lim line => return some (← Run.interpret lim fuel line)

/-- What the host gets to know of an outcome. -/
def Outcome.answer {α : Type} : Outcome α → Except Stop α
  | .ok a _ => .ok a
  | .error s _ => .error s

/-- Take in one input after the other, however the earlier ones ended; the result is what was
answered, and the state in the end. -/
def Engine.session (fuel : Nat) : List Input → Engine → List (Except Stop (Option String)) × Engine
  | [], e => ([], e)
  | input :: inputs, e =>
    let r := (input.run fuel).run e
    let later := session fuel inputs (engine r)
    (answer r :: later.1, later.2)

theorem Input.unread (fuel : Nat) (input : Input) : Run.Unread (input.run fuel) := by
  cases input with
  | feed lim line => exact Run.Unread.bind (.feed lim fuel line) fun _ => .pure _
  | interpret lim line => exact Run.Unread.bind (.interpret lim fuel line) fun _ => .pure _

/-- A whole session goes as it would with another journal. -/
theorem Engine.Shadows.session {j j' : Array Record} {e e' : Engine} (h : Shadows j j' e e')
    (fuel : Nat) (inputs : List Input) :
    (e'.session fuel inputs).1 = (e.session fuel inputs).1 ∧
      Shadows j j' (e.session fuel inputs).2 (e'.session fuel inputs).2 := by
  induction inputs generalizing e e' with
  | nil => exact ⟨rfl, h⟩
  | cons input inputs ih =>
      have htwin := input.unread fuel j j' e e' h
      simp only [Engine.session]
      revert htwin
      generalize EStateM.run _ e = r
      generalize EStateM.run _ e' = r'
      intro htwin
      cases htwin with
      | ok h hq =>
          subst hq
          obtain ⟨hanswers, hend⟩ := ih h
          exact ⟨congrArg (List.cons _) hanswers, hend⟩
      | error h =>
          obtain ⟨hanswers, hend⟩ := ih h
          exact ⟨congrArg (List.cons _) hanswers, hend⟩

end Forthlet
