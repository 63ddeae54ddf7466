import Forthlet.Proofs.Following

/-!
# Room for calls

The bounds on the depth decide whether a compiled word may be entered, and nothing else. So a run
that was never refused a call is the same with any more room: with a larger bound, or with fewer
words around it.
-/
namespace Forthlet

open Outcome

/-- There was no room for a call. -/
def Stop.IsOverflow (s : Stop) : Prop := ∃ f, s = .fault f ∧ f.kind = .stackOverflow

theorem Stop.isOverflow_of_checkDepth {lim : Limits} {depth : Nat} {name : String} {f : Fault}
    (h : lim.checkDepth depth name = .error f) : IsOverflow (.fault f) :=
  ⟨f, rfl, Limits.kind_of_checkDepth h⟩

namespace Limits

variable {lim lim' : Limits}

/-- What is not refused at some depth is not refused under a larger bound at a lesser depth. -/
theorem checkDepth_mono {depth depth' : Nat} (hmax : lim.maxDepth ≤ lim'.maxDepth)
    (hnesting : lim'.nesting = lim.nesting) (hle : depth' ≤ depth) {name : String}
    (h : lim.checkDepth depth name = .ok ()) : lim'.checkDepth depth' name = .ok () := by
  unfold checkDepth at h ⊢
  rw [hnesting]
  split at h
  · cases h
  · split at h
    · cases h
    · next hdepth hroom =>
        rw [if_neg (by omega), if_neg]
        cases hn : lim.nesting with
        | none => simp
        | some n =>
            simp only [hn, Option.any_some, decide_eq_true_eq] at hroom ⊢
            omega

theorem grants_of_le {D : Nat → Nat → Prop} (hmax : lim.maxDepth ≤ lim'.maxDepth)
    (hnesting : lim'.nesting = lim.nesting)
    (hsucc : ∀ {depth depth'}, D depth depth' → D (depth + 1) (depth' + 1))
    (hle : ∀ {depth depth'}, D depth depth' → depth' ≤ depth) :
    lim.Grants Stop.IsOverflow lim' D where
  succ := hsucc
  check {depth depth'} name hd := by
    cases h : lim.checkDepth depth name with
    | ok _ => exact .inl (checkDepth_mono hmax hnesting (hle hd) h)
    | error f => exact .inr ⟨f, rfl, Stop.isOverflow_of_checkDepth h⟩

end Limits

namespace Run

/-- A text that ends without a stack overflow ends the same way under every larger bound on the
depth: with success or with the same fault, and with the same engine. -/
theorem larger_bound_agrees {lim lim' : Limits} (hmax : lim.maxDepth ≤ lim'.maxDepth)
    (hnesting : lim'.nesting = lim.nesting) {e : Engine} {line : String} {r : Outcome Unit}
    (h : Settles (fun n => feed lim n line) e r)
    (hr : ∀ f e', r = .error (.fault f) e' → f.kind ≠ .stackOverflow) :
    Settles (fun n => feed lim' n line) e r := by
  have hgrants : lim.Grants Stop.IsOverflow lim' Eq := by
    apply Limits.grants_of_le hmax hnesting
    · rintro depth _ rfl
      rfl
    · rintro depth _ rfl
      exact Nat.le_refl _
  obtain ⟨hended, n, hn⟩ := h
  refine ⟨hended, n, fun fuel hle => ?_⟩
  have hrun := hn fuel hle
  have hfeed : Follows Stop.IsOverflow Eq (feed lim fuel line) (feed lim' fuel line) Eq :=
    (Carries.refl _).feed hgrants rfl line
  rcases hfeed e e rfl with htwin | hstop
  · rw [htwin.eq, hrun]
  · rw [hrun] at hstop
    obtain ⟨_, e', rfl, f, rfl, hf⟩ := hstop.exists_error
    exact absurd hf (hr f e' rfl)

/-- A session with three words that call each other; the innermost prints and then fails. -/
def stacked : Engine :=
  engine ((feed {} 100 ": A 1 . 7 0 / ; : B A ; : C B ;").run .fresh)

/-- A bound of two refuses the innermost word, a bound of three lets it fail by itself, and so
does a bound of a thousand. -/
theorem larger_bound_agrees_stacked :
    ∃ e₂ e₃, (feed { maxDepth := 2 } 100 "C").run stacked =
        .error (.fault (.depthExceeded "A")) e₂ ∧
      (feed { maxDepth := 3 } 100 "C").run stacked = .error (.fault .divisionByZero) e₃ ∧
      e₃.console.out = #["1 "] ∧
      Settles (fun n => feed { maxDepth := 1000 } n "C") stacked
        (.error (.fault .divisionByZero) e₃) := by
  let e₂ := engine ((feed { maxDepth := 2 } 100 "C").run stacked)
  let e₃ := engine ((feed { maxDepth := 3 } 100 "C").run stacked)
  have h₂ : (feed { maxDepth := 2 } 100 "C").run stacked =
      .error (.fault (.depthExceeded "A")) e₂ := by decide +kernel
  have h₃ : (feed { maxDepth := 3 } 100 "C").run stacked =
      .error (.fault .divisionByZero) e₃ := by decide +kernel
  have hmax : Limits.maxDepth { maxDepth := 3 } ≤ Limits.maxDepth { maxDepth := 1000 } := by decide
  have hnesting : Limits.nesting { maxDepth := 1000 } = Limits.nesting { maxDepth := 3 } := rfl
  refine ⟨e₂, e₃, h₂, h₃, by decide +kernel, ?_⟩
  apply larger_bound_agrees hmax hnesting (settles_feed h₃ trivial)
  intro f e' h
  cases h
  decide

end Run

end Forthlet
