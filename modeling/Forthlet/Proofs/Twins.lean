import Forthlet.Proofs.Following

/-!
# Two runs side by side

Two runs are compared through a relation of their states: from related states both
actions end in related states, for the same reason or with related results. A word
that runs looks at the stacks and at the entries that it calls, and a relation that
fixes those is kept by every word. The relation that ignores nothing but the journal
is kept by whole texts: what is recorded there never matters.
-/
namespace Forthlet

open Outcome

namespace Run

variable {α β : Type} {R : Engine → Engine → Prop}

/-- From related states both actions end in related states, with results related by `Q` or for
the same reason. -/
def Twins (R : Engine → Engine → Prop) (m m' : Run α) (Q : α → α → Prop) : Prop :=
  ∀ e e', R e e' → Twin R Q (m.run e) (m'.run e')

/-- The first run is never stopped for a reason that lets the second one go its own way. -/
theorem Follows.twins {m m' : Run α} {Q : α → α → Prop}
    (h : Follows (fun _ => False) R m m' Q) : Twins R m m' Q := by
  intro e e' he
  rcases h e e' he with h | h
  · exact h
  · obtain ⟨_, _, _, hs⟩ := h.exists_error
    exact hs.elim

namespace Twins

theorem follows {X : Stop → Prop} {m m' : Run α} {Q : α → α → Prop} (h : Twins R m m' Q) :
    Follows X R m m' Q :=
  fun e e' he => .inl (h e e' he)

theorem pure (a : α) : Twins R (pure a) (pure a) Eq := fun _ _ h => .ok h rfl

theorem get : Twins R get get R := fun _ _ h => .ok h h

theorem modify {g g' : Engine → Engine} (h : ∀ e e', R e e' → R (g e) (g' e')) :
    Twins R (modify g : Run Unit) (modify g') Eq :=
  fun e e' he => .ok (h e e' he) rfl

theorem bind {m m' : Run α} {f f' : α → Run β} {P : α → α → Prop} {Q : β → β → Prop}
    (h : Twins R m m' P) (hf : ∀ a b, P a b → Twins R (f a) (f' b) Q) :
    Twins R (m >>= f) (m' >>= f') Q := by
  have hfollows : Follows (fun _ => False) R (m >>= f) (m' >>= f') Q :=
    h.follows.bind fun a b hab => (hf a b hab).follows
  exact hfollows.twins

/-- The common case: the first results are the same. -/
theorem bind_eq {m m' : Run α} {f f' : α → Run β} {Q : β → β → Prop}
    (h : Twins R m m' Eq) (hf : ∀ a, Twins R (f a) (f' a) Q) : Twins R (m >>= f) (m' >>= f') Q := by
  refine h.bind fun a b hab => ?_
  subst hab
  exact hf a

end Twins

/-- Related states have the same stacks, and stay related when the stacks change alike or the
same is printed. -/
structure Blind (R : Engine → Engine → Prop) : Prop where
  stack : ∀ {e e'}, R e e' → e'.stack = e.stack
  loops : ∀ {e e'}, R e e' → e'.loops = e.loops
  withStack : ∀ {e e'}, R e e' → ∀ stack, R { e with stack } { e' with stack }
  withLoops : ∀ {e e'}, R e e' → ∀ loops, R { e with loops } { e' with loops }
  write : ∀ {e e'}, R e e' → ∀ chunk,
    R { e with console := e.console.write chunk } { e' with console := e'.console.write chunk }

namespace Twins

section
variable (hR : Blind R)
include hR

theorem onStack (act : Stack.Act Int α) : Twins R (onStack act) (onStack act) Eq := by
  intro e e' he
  unfold Run.onStack
  simp only [EStateM.run, hR.stack he]
  split
  · exact .ok (hR.withStack he _) rfl
  · exact .error (hR.withStack he _)

theorem onLoops (act : Stack.Act Frame α) : Twins R (onLoops act) (onLoops act) Eq := by
  intro e e' he
  unfold Run.onLoops
  simp only [EStateM.run, hR.loops he]
  split
  · exact .ok (hR.withLoops he _) rfl
  · exact .error (hR.withLoops he _)

theorem push (n : Int) : Twins R (push n) (push n) Eq := onStack hR _

theorem pop : Twins R pop pop Eq := onStack hR _

theorem emit (chunk : String) : Twins R (emit chunk) (emit chunk) Eq :=
  modify fun _ _ he => hR.write he chunk

end

end Twins

theorem Blind.works (hR : Blind R) (X : Stop → Prop) : Works X R where
  onLoops act := (Twins.onLoops hR act).follows
  push n := (Twins.push hR n).follows
  pop := (Twins.pop hR).follows
  shuffle w := (Twins.onStack hR w.act).follows
  emit chunk := (Twins.emit hR chunk).follows
  printStack := by
    unfold Primitive.printStack
    refine Follows.get.bind fun e e' he => ?_
    simp only [hR.stack he]
    exact Follows.bind_eq (.mapM .decimal _) fun _ => (Twins.emit hR _).follows

namespace Twins

section
variable (hR : Blind R)
include hR

theorem loopIndex : Twins R Primitive.loopIndex Primitive.loopIndex Eq :=
  (hR.works _).loopIndex.twins

/-- A built-in word that looks at nothing but the stacks. -/
theorem exec {b : Builtin} (hb : b.isCompiling = false) (hm : b ≠ .markImmediate)
    (hl : b ≠ .listWords) : Twins R (Primitive.exec b) (Primitive.exec b) Eq :=
  ((hR.works _).exec hb hm hl).twins

end

end Twins

/-- Related states agree on the entries in `S`, up to marks. The calls in those entries stay in
`S`, and the built-in words in `S` run alike. -/
structure Sees (R : Engine → Engine → Prop) (S : Nat → Prop) : Prop where
  blind : Blind R
  entry : ∀ {e e' position}, R e e' → S position →
    (e'.dict.get? position).map Word.unmarked = (e.dict.get? position).map Word.unmarked
  call : ∀ {e e' position w c callee}, R e e' → S position → e.dict.get? position = some w →
    w.body = .compiled c → .call callee ∈ c → S (callee.position position)
  exec : ∀ {e e' position w b}, R e e' → S position → e.dict.get? position = some w →
    w.body = .builtin b → Twin R Eq ((Primitive.exec b).run e) ((Primitive.exec b).run e')

theorem Sees.leads {S : Nat → Prop} (hS : Sees R S) : Leads (fun _ => False) R S where
  entry := hS.entry
  call := hS.call
  exec he hp hw hb := .inl (hS.exec he hp hw hb)
  step := (hS.blind.works _).step

namespace Twins

section
variable {S : Nat → Prop} (hS : Sees R S)
include hS

/-- One of the runs may be deeper than the other, if its bounds allow for that. -/
theorem word_shift {lim lim' : Limits} {shift fuel depth position : Nat}
    (hdepth : ∀ depth name, lim'.checkDepth (shift + depth) name = lim.checkDepth depth name)
    (hp : S position) :
    Twins R (word lim fuel depth position) (word lim' fuel (shift + depth) position) Eq := by
  have hgrants : lim.Grants (fun _ => False) lim' fun depth depth' => depth' = shift + depth := by
    constructor
    · rintro depth _ rfl
      rfl
    · rintro depth _ name rfl
      exact .inl (hdepth depth name)
  exact (hS.leads.word hgrants rfl hp).twins

theorem word {lim : Limits} {fuel depth position : Nat} (hp : S position) :
    Twins R (word lim fuel depth position) (word lim fuel depth position) Eq :=
  (hS.leads.word (.refl _ lim) rfl hp).twins

end

end Twins

end Run

end Forthlet
