import Forthlet.Proofs.Editing

/-!
# One run follows another

Two runs start in related states. The second follows the first if they end in related states, for
the same reason or with related results, unless the first was stopped for one of some given
reasons; nothing is said about the second then. Words, tokens and whole texts follow each other
wherever the instructions and the built-in words do and there is room for the calls.
-/
namespace Forthlet

namespace Outcome

variable {α : Type}

/-- Both runs ended in related states, with related results or for the same reason. -/
inductive Twin (R : Engine → Engine → Prop) (Q : α → α → Prop) : Outcome α → Outcome α → Prop
  | ok {a b : α} {e e' : Engine} (h : R e e') (hq : Q a b) : Twin R Q (.ok a e) (.ok b e')
  | error {s : Stop} {e e' : Engine} (h : R e e') : Twin R Q (.error s e) (.error s e')

/-- The run was stopped for a reason in `X`. -/
def StoppedBy (X : Stop → Prop) : Outcome α → Prop
  | .ok _ _ => False
  | .error s _ => X s

theorem StoppedBy.exists_error {X : Stop → Prop} {r : Outcome α} (h : StoppedBy X r) :
    ∃ s e, r = .error s e ∧ X s := by
  cases r with
  | ok a e => exact h.elim
  | error s e => exact ⟨s, e, rfl, h⟩

theorem Twin.eq {r r' : Outcome α} (h : Twin Eq Eq r r') : r' = r := by
  cases h with
  | ok h hq => rw [h, hq]
  | error h => rw [h]

end Outcome

open Outcome

namespace Run

variable {α β : Type} {X : Stop → Prop} {R : Engine → Engine → Prop}

/-- From related states both actions end alike, unless the first is stopped for a reason in `X`. -/
def Follows (X : Stop → Prop) (R : Engine → Engine → Prop) (m m' : Run α) (Q : α → α → Prop) :
    Prop :=
  ∀ e e', R e e' → Twin R Q (m.run e) (m'.run e') ∨ StoppedBy X (m.run e)

namespace Follows

/-- Every action follows itself from the same state. -/
theorem refl (m : Run α) : Follows X Eq m m Eq := by
  rintro e _ rfl
  left
  cases m.run e with
  | ok a e' => exact .ok rfl rfl
  | error s e' => exact .error rfl

theorem pure (a : α) : Follows X R (pure a) (pure a) Eq := fun _ _ h => .inl (.ok h rfl)

theorem fail (f : Fault) : Follows X R (fail f : Run α) (fail f) Eq := fun _ _ h => .inl (.error h)

theorem lift_of {x x' : Except Fault α} (h : x' = x ∨ ∃ f, x = .error f ∧ X (.fault f)) :
    Follows X R (lift x) (lift x') Eq := by
  rcases h with rfl | ⟨f, rfl, hf⟩
  · cases x' with
    | ok a => exact pure a
    | error f => exact fail f
  · exact fun _ _ _ => .inr hf

theorem lift (x : Except Fault α) : Follows X R (lift x) (lift x) Eq := lift_of (.inl rfl)

theorem get : Follows X R get get R := fun _ _ h => .inl (.ok h h)

theorem modify {g g' : Engine → Engine} (h : ∀ e e', R e e' → R (g e) (g' e')) :
    Follows X R (modify g : Run Unit) (modify g') Eq :=
  fun e e' he => .inl (.ok (h e e' he) rfl)

theorem bind {m m' : Run α} {f f' : α → Run β} {P : α → α → Prop} {Q : β → β → Prop}
    (h : Follows X R m m' P) (hf : ∀ a b, P a b → Follows X R (f a) (f' b) Q) :
    Follows X R (m >>= f) (m' >>= f') Q := by
  intro e e' he
  have hm := h e e' he
  rw [EStateM.run_bind, EStateM.run_bind]
  revert hm
  generalize m.run e = r
  generalize m'.run e' = r'
  rintro (hm | hm)
  · cases hm with
    | ok h₁ ha => exact hf _ _ ha _ _ h₁
    | error h₁ => exact .inl (.error h₁)
  · obtain ⟨s, e₁, rfl, hs⟩ := hm.exists_error
    exact .inr hs

/-- The common case: the first results are the same. -/
theorem bind_eq {m m' : Run α} {f f' : α → Run β} {Q : β → β → Prop}
    (h : Follows X R m m' Eq) (hf : ∀ a, Follows X R (f a) (f' a) Q) :
    Follows X R (m >>= f) (m' >>= f') Q := by
  refine h.bind fun a b hab => ?_
  subst hab
  exact hf a

end Follows

/-- The actions that words and instructions are made of follow themselves, as long as they look at
nothing but the stacks. -/
structure Works (X : Stop → Prop) (R : Engine → Engine → Prop) : Prop where
  onLoops : ∀ {α : Type} (act : Stack.Act Frame α), Follows X R (onLoops act) (onLoops act) Eq
  push : ∀ n, Follows X R (push n) (push n) Eq
  pop : Follows X R pop pop Eq
  shuffle : ∀ w : Shuffle, Follows X R (onStack w.act) (onStack w.act) Eq
  emit : ∀ chunk, Follows X R (emit chunk) (emit chunk) Eq
  printStack : Follows X R Primitive.printStack Primitive.printStack Eq

namespace Follows

theorem decimal (n : Int) : Follows X R (decimal n) (decimal n) Eq := by
  unfold Run.decimal
  split
  · exact pure _
  · exact fail _

theorem mapM {f : α → Run β} (h : ∀ a, Follows X R (f a) (f a) Eq) (l : List α) :
    Follows X R (l.mapM f) (l.mapM f) Eq := by
  induction l with
  | nil => exact pure _
  | cons a l ih =>
      rw [List.mapM_cons]
      exact (h a).bind_eq fun _ => ih.bind_eq fun _ => pure _

theorem jump (i : Instr Callee) (target : Option Int) :
    Follows X R (jump i target) (jump i target) Eq := by
  cases target with
  | none => exact fail _
  | some target => exact pure _

end Follows

namespace Works

theorem refl (X : Stop → Prop) : Works X Eq where
  onLoops _ := .refl _
  push _ := .refl _
  pop := .refl _
  shuffle _ := .refl _
  emit _ := .refl _
  printStack := .refl _

variable (hR : Works X R)
include hR

theorem loopIndex : Follows X R Primitive.loopIndex Primitive.loopIndex Eq :=
  (hR.onLoops _).bind_eq fun _ => hR.push _

theorem binary (op : Cell.Binary) :
    Follows X R (Primitive.binary op) (Primitive.binary op) Eq :=
  hR.pop.bind_eq fun _ => hR.pop.bind_eq fun _ => (Follows.lift _).bind_eq fun _ => hR.push _

theorem printTop : Follows X R Primitive.printTop Primitive.printTop Eq := by
  unfold Primitive.printTop
  exact hR.pop.bind_eq fun n => Follows.bind_eq (.decimal n) fun _ => hR.emit _

/-- A built-in word that looks at nothing but the stacks. -/
theorem exec {b : Builtin} (hb : b.isCompiling = false) (hm : b ≠ .markImmediate)
    (hl : b ≠ .listWords) : Follows X R (Primitive.exec b) (Primitive.exec b) Eq := by
  cases b with
  | semicolon | recurse | literal | ifWord | elseWord | thenWord | doWord | loopWord | index =>
      cases hb
  | markImmediate => exact absurd rfl hm
  | listWords => exact absurd rfl hl
  | binary op => exact hR.binary op
  | bitNot => exact hR.pop.bind_eq fun _ => hR.push _
  | shuffle w => exact hR.shuffle w
  | print => exact hR.printTop
  | newline => exact hR.emit _
  | printStack => exact hR.printStack

theorem step (i : Instr Callee) (ip : Int) : Follows X R (step i ip) (step i ip) Eq := by
  cases i with
  | lit n => exact (hR.push n).bind_eq fun _ => .pure _
  | branch target => exact .jump _ target
  | branchIfZero target =>
      refine hR.pop.bind_eq fun n => ?_
      split
      · exact .jump _ target
      · exact .pure _
  | enterLoop exit =>
      refine hR.pop.bind_eq fun start => hR.pop.bind_eq fun limit => ?_
      split
      · exact .jump _ exit
      · exact (hR.onLoops _).bind_eq fun _ => .pure _
  | nextLoop back =>
      refine (hR.onLoops _).bind_eq fun f => ?_
      split
      · exact (hR.onLoops _).bind_eq fun _ => .pure _
      · exact .pure _
  | index => exact hR.loopIndex.bind_eq fun _ => .pure _
  | call _ | unknown _ => exact .fail _

end Works

end Run

/-- Where one run has room for a call at some depth, so has the other at the depth that belongs to
it, unless the first is stopped there for a reason in `X`. -/
structure Limits.Grants (X : Stop → Prop) (lim lim' : Limits) (D : Nat → Nat → Prop) : Prop where
  succ : ∀ {depth depth'}, D depth depth' → D (depth + 1) (depth' + 1)
  check : ∀ {depth depth'} name, D depth depth' →
    lim'.checkDepth depth' name = lim.checkDepth depth name ∨
      ∃ f, lim.checkDepth depth name = .error f ∧ X (.fault f)

theorem Limits.Grants.refl (X : Stop → Prop) (lim : Limits) : Grants X lim lim Eq where
  succ h := congrArg _ h
  check _ h := .inl (by rw [h])

namespace Run

/-- Related states agree on the entries in `S`, up to marks. The calls in those entries stay in
`S`, and the built-in words in `S` follow themselves, as do all instructions. -/
structure Leads (X : Stop → Prop) (R : Engine → Engine → Prop) (S : Nat → Prop) : Prop where
  entry : ∀ {e e' position}, R e e' → S position →
    (e'.dict.get? position).map Word.unmarked = (e.dict.get? position).map Word.unmarked
  call : ∀ {e e' position w c callee}, R e e' → S position → e.dict.get? position = some w →
    w.body = .compiled c → .call callee ∈ c → S (callee.position position)
  exec : ∀ {e e' position w b}, R e e' → S position → e.dict.get? position = some w →
    w.body = .builtin b →
    Twin R Eq ((Primitive.exec b).run e) ((Primitive.exec b).run e') ∨
      StoppedBy X ((Primitive.exec b).run e)
  step : ∀ i ip, Follows X R (step i ip) (step i ip) Eq

namespace Leads

variable {X : Stop → Prop} {R : Engine → Engine → Prop} {S : Nat → Prop} (hS : Leads X R S)
  {lim lim' : Limits} {D : Nat → Nat → Prop} (hD : lim.Grants X lim' D) {fuel : Nat}
include hS hD

/-- A word in `S` follows itself if the code of all words in `S` does. -/
theorem word_of_code {depth depth' position : Nat} (hd : D depth depth') (hp : S position)
    (hcode : ∀ {c}, (∀ callee, .call callee ∈ c → S (callee.position position)) →
      Follows X R (code lim fuel (depth + 1) position c 0)
        (code lim' fuel (depth' + 1) position c 0) Eq) :
    Follows X R (word lim fuel depth position) (word lim' fuel depth' position) Eq := by
  intro e e' he
  have hentry := hS.entry he hp
  cases hw : e.dict.get? position with
  | none =>
      have hw' : e'.dict.get? position = none := by
        rw [hw] at hentry
        exact Option.map_eq_none_iff.mp hentry
      rw [run_word_missing hw, run_word_missing hw']
      exact .inl (.error he)
  | some w =>
      obtain ⟨w', hw', hu⟩ : ∃ w', e'.dict.get? position = some w' ∧ w'.unmarked = w.unmarked := by
        rw [hw] at hentry
        exact Option.map_eq_some_iff.mp hentry
      cases hb : w.body with
      | builtin b =>
          rw [run_word_builtin hw hb, run_word_builtin hw' ((Word.body_of_unmarked hu).trans hb)]
          exact hS.exec he hp hw hb
      | compiled c =>
          rw [run_word_compiled hw hb,
            run_word_compiled hw' ((Word.body_of_unmarked hu).trans hb), Word.name_of_unmarked hu]
          have hrest := hcode fun callee hc => hS.call he hp hw hb hc
          exact (Follows.lift_of (hD.check w.name hd)).bind_eq (fun _ => hrest) e e' he

theorem code {depth depth' position : Nat} {c : Code} {ip : Int} (hd : D depth depth')
    (hc : ∀ callee, .call callee ∈ c → S (callee.position position)) :
    Follows X R (code lim fuel depth position c ip) (code lim' fuel depth' position c ip) Eq := by
  induction fuel generalizing depth depth' position c ip with
  | zero => exact fun _ _ h => .inl (.error h)
  | succ fuel ih =>
      match hi : c.fetch? ip with
      | none =>
          rw [code_of_none hi, code_of_none hi]
          exact .pure ()
      | some (.call callee) =>
          rw [code_of_call hi, code_of_call hi]
          have hword : Follows X R (Run.word lim fuel depth (callee.position position))
              (Run.word lim' fuel depth' (callee.position position)) Eq :=
            hS.word_of_code hD hd (hc callee (Code.mem_of_fetch? hi)) (ih (hD.succ hd))
          exact hword.bind_eq fun _ => ih hd hc
      | some (.lit _) | some (.branch _) | some (.branchIfZero _) | some (.enterLoop _)
      | some (.nextLoop _) | some .index | some (.unknown _) =>
          rw [code_of_step hi (by simp), code_of_step hi (by simp)]
          exact (hS.step _ ip).bind_eq fun _ => ih hd hc

theorem word {depth depth' position : Nat} (hd : D depth depth') (hp : S position) :
    Follows X R (word lim fuel depth position) (word lim' fuel depth' position) Eq :=
  hS.word_of_code hD hd hp fun hc => hS.code hD (hD.succ hd) hc

end Leads

/-- Related states have the same program, and stay related when it changes alike and when the same
is recorded. -/
structure Shares (R : Engine → Engine → Prop) : Prop where
  dict : ∀ {e e'}, R e e' → e'.dict = e.dict
  draft : ∀ {e e'}, R e e' → e'.draft = e.draft
  withDict : ∀ {e e'}, R e e' → ∀ dict, R { e with dict } { e' with dict }
  withDraft : ∀ {e e'}, R e e' → ∀ draft, R { e with draft } { e' with draft }
  note : ∀ {e e'}, R e e' → ∀ r, R (e.note r) (e'.note r)

namespace Shares

variable {X : Stop → Prop} {R : Engine → Engine → Prop} (hR : Shares R)
include hR

theorem reset (hloops : ∀ {e e'}, R e e' → ∀ loops, R { e with loops } { e' with loops })
    {e e' : Engine} (h : R e e') : R e.reset e'.reset := by
  simp only [Engine.reset, hR.draft h]
  cases e.draft with
  | none => exact hloops (hR.withDraft h none) []
  | some d => exact hloops (hR.withDraft (hR.note h (.discarded d.name)) none) []

theorem setDraft (d : Draft) : Follows X R (Primitive.setDraft d) (Primitive.setDraft d) Eq :=
  .modify fun _ _ he => hR.withDraft he (some d)

theorem draftFor (b : Builtin) :
    Follows X R (Primitive.draftFor b) (Primitive.draftFor b) Eq := by
  refine Follows.get.bind fun e e' he => ?_
  simp only [hR.draft he]
  cases e.draft with
  | none => exact .fail _
  | some d => exact .pure d

theorem editDraft (b : Builtin) (edit : Draft → Except Fault Draft) :
    Follows X R (Primitive.editDraft b edit) (Primitive.editDraft b edit) Eq := by
  unfold Primitive.editDraft
  exact (hR.draftFor b).bind_eq fun d => (Follows.lift _).bind_eq fun _ => hR.setDraft _

theorem finishDraft : Follows X R Primitive.finishDraft Primitive.finishDraft Eq := by
  refine Follows.get.bind fun e e' he => ?_
  simp only [hR.draft he]
  cases e.draft with
  | none => exact .fail _
  | some d =>
      refine (Follows.lift d.finish).bind_eq fun w => Follows.bind_eq (.modify fun e e' he => ?_)
        fun _ => .modify fun _ _ he => hR.note he _
      rw [hR.dict he]
      exact hR.withDraft (hR.withDict he (e.dict.add w)) none

theorem markLatest : Follows X R Primitive.markLatest Primitive.markLatest Eq := by
  refine Follows.get.bind fun e e' he => ?_
  rw [hR.dict he]
  refine (Follows.lift _).bind_eq fun r => Follows.bind_eq (.modify fun e e' he => ?_)
    fun _ => .modify fun _ _ he => hR.note he _
  exact hR.withDict he r.2

/-- All built-in words follow themselves, those that edit the program included. -/
theorem exec (hW : Works X R) (b : Builtin) :
    Follows X R (Primitive.exec b) (Primitive.exec b) Eq := by
  cases b with
  | semicolon => exact hR.finishDraft
  | markImmediate => exact hR.markLatest
  | recurse | ifWord | elseWord | thenWord | doWord | loopWord => exact hR.editDraft _ _
  | literal =>
      refine (hR.draftFor .literal).bind_eq fun d => ?_
      exact hW.pop.bind_eq fun n => hR.setDraft _
  | index =>
      refine Follows.get.bind fun e e' he => ?_
      simp only [hR.draft he]
      cases e.draft with
      | none => exact hW.loopIndex
      | some d => exact hR.setDraft _
  | listWords =>
      refine Follows.get.bind fun e e' he => ?_
      rw [hR.dict he]
      exact hW.emit _
  | binary _ | bitNot | shuffle _ | print | newline | printStack =>
      exact hW.exec rfl (by simp) (by simp)

theorem startDraft (name : Option String) :
    Follows X R (startDraft name) (startDraft name) Eq := by
  refine Follows.get.bind fun e e' he => ?_
  simp only [hR.draft he]
  cases e.draft with
  | some d => exact .fail _
  | none =>
      cases name with
      | none => exact .fail _
      | some name =>
          simp only
          split
          · exact .fail _
          · exact hR.setDraft _

end Shares

/-- Lines that fail alike are given up alike, if giving up keeps the relation. -/
theorem twin_recover_of {R : Engine → Engine → Prop} {line line' : String} {r r' : Outcome Unit}
    (h : Twin R Eq r r') (hR : ∀ {e e'} (f : Fault), R e e' →
      R (e.note (.aborted line f)).reset (e'.note (.aborted line' f)).reset) :
    Twin R Eq (recover line r) (recover line' r') := by
  cases h with
  | ok h hq => exact .ok h hq
  | @error s e e' h =>
      cases s with
      | outOfFuel => exact .error h
      | fault f =>
          simp only [recover]
          split
          · exact .error (hR f h)
          · exact .error h

/-- Related states share their program, and what words do to the stacks follows itself. -/
structure Carries (X : Stop → Prop) (R : Engine → Engine → Prop) : Prop extends
    Shares R, Works X R where
  withLoops : ∀ {e e'}, R e e' → ∀ loops, R { e with loops } { e' with loops }

namespace Carries

theorem refl (X : Stop → Prop) : Carries X Eq where
  dict h := by rw [h]
  draft h := by rw [h]
  withDict h dict := by rw [h]
  withDraft h draft := by rw [h]
  note h r := by rw [h]
  withLoops h loops := by rw [h]
  toWorks := .refl X

variable {X : Stop → Prop} {R : Engine → Engine → Prop} (hR : Carries X R)
include hR

theorem leads : Leads X R fun _ => True where
  entry he _ := by rw [hR.dict he]
  call _ _ _ _ _ := trivial
  exec he _ _ _ := hR.toShares.exec hR.toWorks _ _ _ he
  step := hR.step

variable {lim lim' : Limits} {D : Nat → Nat → Prop} (hD : lim.Grants X lim' D) (h₀ : D 0 0)
  {fuel : Nat}
include hD h₀

theorem interpretToken (text : String) :
    Follows X R (interpretToken lim fuel text) (interpretToken lim' fuel text) Eq := by
  refine Follows.get.bind fun e e' he => ?_
  simp only [hR.dict he]
  cases e.dict.find? text with
  | some position => exact hR.leads.word hD h₀ trivial
  | none => exact (Follows.lift _).bind_eq fun n => hR.push n

theorem compileToken (d : Draft) (text : String) :
    Follows X R (compileToken lim fuel d text) (compileToken lim' fuel d text) Eq := by
  refine Follows.get.bind fun e e' he => ?_
  simp only [hR.dict he]
  cases e.dict.find? text with
  | some position =>
      simp only
      split
      · exact hR.leads.word hD h₀ trivial
      · exact hR.setDraft _
  | none =>
      simp only
      split
      · exact hR.setDraft _
      · exact (Follows.lift _).bind_eq fun _ => hR.setDraft _

theorem token (text : String) :
    Follows X R (token lim fuel text) (token lim' fuel text) Eq := by
  refine Follows.get.bind fun e e' he => ?_
  simp only [hR.draft he]
  cases e.draft with
  | some d => exact hR.compileToken hD h₀ d text
  | none => exact hR.interpretToken hD h₀ text

theorem tokens (ts : List String) :
    Follows X R (tokens lim fuel ts) (tokens lim' fuel ts) Eq := by
  fun_induction Run.tokens lim fuel ts with
  | case1 => exact .pure _
  | case2 => exact hR.startDraft none
  | case3 name rest ih =>
      rw [Run.tokens]
      exact (hR.startDraft (some name)).bind_eq fun _ => ih
  | case4 text rest hlast hname ih =>
      rw [Run.tokens.eq_4 lim' fuel text rest hlast hname]
      exact (hR.token hD h₀ text).bind_eq fun _ => ih

/-- A line that is given up stays stopped for the reason for which it was. -/
theorem feed (line : String) : Follows X R (feed lim fuel line) (feed lim' fuel line) Eq := by
  intro e e' he
  have hline : Follows X R (do Run.tokens lim fuel (← Run.lift (Token.ofText line)))
      (do Run.tokens lim' fuel (← Run.lift (Token.ofText line))) Eq :=
    (Follows.lift _).bind_eq fun ts => hR.tokens hD h₀ ts
  rw [run_feed, run_feed]
  rcases hline e e' he with htwin | hstop
  · exact .inl (twin_recover_of htwin fun f h => hR.reset hR.withLoops (hR.note h _))
  · obtain ⟨s, e₁, hr, hs⟩ := hstop.exists_error
    right
    rw [hr]
    cases s <;> exact hs

end Carries

end Run

end Forthlet
