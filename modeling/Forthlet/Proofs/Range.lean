import Forthlet.Proofs.CellRange
import Forthlet.Proofs.Entries
import Forthlet.Proofs.Invariant
import Forthlet.Proofs.Outline

/-!
# All numbers are cells

Every number on the data stack, in a loop frame or in code is within the range
of a cell, at every moment of every run. So no number is ever too long to print,
and every fault is one after which the engine recovers.
-/
namespace Forthlet

def Code.Ranged (c : Code) : Prop := ∀ n, .lit n ∈ c → Cell.InRange n

namespace Code.Ranged

variable {c : Code} {i : Instr Callee}

theorem push (h : c.Ranged) (hi : ∀ n, i = .lit n → Cell.InRange n) :
    Ranged (c.push i) := by
  intro n hn
  rcases Array.mem_push.mp hn with hn | hn
  · exact h n hn
  · exact hi n hn.symm

end Code.Ranged

namespace Draft

variable {d d' : Draft} {p : Piece}

/-- Apart from literals no piece brings a number into the code. -/
theorem ranged_take (h : d.code.Ranged) (hp : ∀ n, p = .atom (.lit n) → Cell.InRange n)
    (hd : d.take p = .ok d') : d'.code.Ranged := by
  intro n hn
  rcases mem_of_take hd hn with hn | ⟨a, rfl, ha⟩ | ht
  · exact h n hn
  · cases a with
    | lit m =>
        cases ha
        exact hp n rfl
    | call _ | index => cases ha
  · cases ht

theorem take_ne_unprintable (d : Draft) (p : Piece) : d.take p ≠ .error .unprintable := by
  cases p with
  | atom a => simp [take]
  | ifWord | doWord => simp [take]
  | elseWord | thenWord | loopWord =>
      simp only [take, turnElse, closeThen, closeLoop]
      split <;> simp

end Draft

namespace Stack

variable {α β : Type} {R : α → Prop}

/-- Elements with `R` only leave elements with `R`, and a result with `Q` or a fault that can be
worded. -/
structure Keeps (R : α → Prop) (act : Act α β) (Q : β → Prop) : Prop where
  ok : ∀ {s b s'}, (∀ a ∈ s, R a) → act.run s = .ok b s' → (∀ a ∈ s', R a) ∧ Q b
  error : ∀ {s f s'}, (∀ a ∈ s, R a) → act.run s = .error f s' →
    (∀ a ∈ s', R a) ∧ f ≠ .unprintable

theorem Keeps.push {a : α} (h : R a) : Keeps R (push a) fun _ => True where
  ok hs hr := by
    cases hr
    exact ⟨List.forall_mem_cons.mpr ⟨h, hs⟩, trivial⟩
  error _ hr := by cases hr

theorem Keeps.pop {empty : Fault} (h : empty ≠ .unprintable) : Keeps R (pop empty) R where
  ok {s a s'} hs hr := by
    cases s with
    | nil => cases hr
    | cons b s =>
        cases hr
        exact (List.forall_mem_cons.mp hs).symm
  error {s f s'} hs hr := by
    cases s with
    | nil =>
        cases hr
        exact ⟨hs, h⟩
    | cons b s => cases hr

theorem Keeps.peek {empty : Fault} (h : empty ≠ .unprintable) : Keeps R (peek empty) R where
  ok {s a s'} hs hr := by
    cases s with
    | nil => cases hr
    | cons b s =>
        cases hr
        exact ⟨hs, hs a (by simp)⟩
  error {s f s'} hs hr := by
    cases s with
    | nil =>
        cases hr
        exact ⟨hs, h⟩
    | cons b s => cases hr

theorem Keeps.shuffle {R : Int → Prop} (w : Shuffle) : Keeps R w.act fun _ => True where
  ok {s a s'} hs hr := by
    cases hw : w.apply s with
    | none => simp [Shuffle.act_eq, EStateM.run, hw] at hr
    | some t =>
        simp only [Shuffle.act_eq, EStateM.run, hw] at hr
        cases hr
        exact ⟨fun n hn => hs n (Shuffle.mem_of_apply hw n hn), trivial⟩
  error {s f s'} hs hr := by
    cases hw : w.apply s with
    | none =>
        simp only [Shuffle.act_eq, EStateM.run, hw] at hr
        cases hr
        exact ⟨hs, by simp⟩
    | some t => simp [Shuffle.act_eq, EStateM.run, hw] at hr

end Stack

def Frame.InRange (f : Frame) : Prop := Cell.InRange f.index ∧ Cell.InRange f.limit

structure Engine.Ranged (e : Engine) : Prop where
  stack : ∀ n ∈ e.stack, Cell.InRange n
  loops : ∀ f ∈ e.loops, f.InRange
  dict : ∀ {position w c}, e.dict.get? position = some w → w.body = .compiled c → c.Ranged
  draft : ∀ {d}, e.draft = some d → d.code.Ranged

/-- A fault is one that can be worded, and no budget counts as a fault. -/
def Stop.Worded (s : Stop) : Prop := s ≠ .fault .unprintable

theorem Stop.Worded.recovers {f : Fault} (h : Worded (.fault f)) : f.recovers = true := by
  cases f with
  | unprintable => exact absurd rfl h
  | _ => rfl

namespace Run

/-- The action keeps all numbers in range, has a result with `Q`, and no fault is unprintable. -/
abbrev KeepsRange {α : Type} (m : Run α) (Q : α → Prop) : Prop :=
  Keeps Engine.Ranged Stop.Worded m Q

namespace KeepsRange

open Keeps

theorem onStack {α : Type} {act : Stack.Act Int α} {Q : α → Prop}
    (h : Stack.Keeps Cell.InRange act Q) : KeepsRange (onStack act) Q where
  ok {e a e'} he hr := by
    simp only [Run.onStack, EStateM.run] at hr
    split at hr <;> cases hr
    next s ha =>
      obtain ⟨hs, hq⟩ := h.ok he.stack ha
      exact ⟨{ he with stack := hs }, hq⟩
  error {e s e'} he hr := by
    simp only [Run.onStack, EStateM.run] at hr
    split at hr <;> cases hr
    next f s ha =>
      obtain ⟨hs, hf⟩ := h.error he.stack ha
      exact ⟨{ he with stack := hs }, by simpa [Stop.Worded] using hf⟩

theorem onLoops {α : Type} {act : Stack.Act Frame α} {Q : α → Prop}
    (h : Stack.Keeps Frame.InRange act Q) : KeepsRange (onLoops act) Q where
  ok {e a e'} he hr := by
    simp only [Run.onLoops, EStateM.run] at hr
    split at hr <;> cases hr
    next s ha =>
      obtain ⟨hs, hq⟩ := h.ok he.loops ha
      exact ⟨{ he with loops := hs }, hq⟩
  error {e s e'} he hr := by
    simp only [Run.onLoops, EStateM.run] at hr
    split at hr <;> cases hr
    next f s ha =>
      obtain ⟨hs, hf⟩ := h.error he.loops ha
      exact ⟨{ he with loops := hs }, by simpa [Stop.Worded] using hf⟩

theorem push {n : Int} (h : Cell.InRange n) : KeepsRange (push n) fun _ => True :=
  onStack (.push h)

theorem pop : KeepsRange pop Cell.InRange := onStack (.pop (by simp))

theorem pushFrame {f : Frame} (h : f.InRange) :
    KeepsRange (Run.onLoops (Stack.push f)) fun _ => True := onLoops (.push h)

theorem popFrame : KeepsRange (Run.onLoops Frame.pop) Frame.InRange := onLoops (.pop (by simp))

theorem loopIndex : KeepsRange Primitive.loopIndex fun _ => True := by
  have hpeek : KeepsRange (Run.onLoops Frame.peek) Frame.InRange := onLoops (.peek (by simp))
  exact hpeek.bind fun _ h => push h.1

/-- What does not touch the numbers keeps them in range. -/
theorem modify {g : Engine → Engine} (h : ∀ e, (g e).stack = e.stack ∧ (g e).loops = e.loops ∧
    (g e).dict = e.dict ∧ (g e).draft = e.draft) :
    KeepsRange (modify g : Run Unit) fun _ => True := by
  refine Keeps.modify fun e he => ?_
  obtain ⟨hs, hl, hd, ht⟩ := h e
  exact ⟨hs ▸ he.stack, hl ▸ he.loops, hd ▸ he.dict, ht ▸ he.draft⟩

theorem emit (chunk : String) : KeepsRange (emit chunk) fun _ => True :=
  modify fun _ => ⟨rfl, rfl, rfl, rfl⟩

theorem note (r : Record) : KeepsRange (note r) fun _ => True :=
  modify fun _ => ⟨rfl, rfl, rfl, rfl⟩

theorem setDraft {d : Draft} (h : d.code.Ranged) :
    KeepsRange (Primitive.setDraft d) fun _ => True := by
  refine Keeps.modify fun e he => { he with draft := fun hd => ?_ }
  cases hd
  exact h

theorem decimal {n : Int} (h : Cell.InRange n) : KeepsRange (decimal n) fun _ => True := by
  unfold Run.decimal
  rw [if_pos (Cell.printable_of_inRange h)]
  exact .pure trivial

theorem binary (op : Cell.Binary) : KeepsRange (Primitive.binary op) fun _ => True := by
  refine pop.bind fun b hb => pop.bind fun a ha => ?_
  have hl : KeepsRange (lift (op.apply a b)) Cell.InRange :=
    .lift (fun _ h => Cell.Binary.inRange_apply ha hb h) fun y h => by
      intro hy
      cases hy
      exact Cell.Binary.apply_ne_unprintable ha hb h
  exact hl.bind fun _ hn => push hn

theorem printTop : KeepsRange Primitive.printTop fun _ => True := by
  unfold Primitive.printTop
  exact Keeps.bind pop fun n hn => Keeps.bind (decimal hn) fun _ _ => emit _

theorem printStack : KeepsRange Primitive.printStack fun _ => True := by
  unfold Primitive.printStack
  refine Keeps.bind .get fun e he => ?_
  refine Keeps.bind (.mapM fun n hn => decimal (he.stack n (List.mem_reverse.mp hn))) fun _ _ => ?_
  exact emit _

theorem draftFor (b : Builtin) :
    KeepsRange (Primitive.draftFor b) fun d => d.code.Ranged := by
  refine Keeps.get.bind fun e he => ?_
  cases hd : e.draft with
  | none => exact .fail (by simp [Stop.Worded])
  | some d => exact .pure (he.draft hd)

/-- A compiling word that adds a piece keeps the code in range. -/
theorem editDraft {b : Builtin} {p : Piece} (hp : ∀ n, p ≠ .atom (.lit n)) :
    KeepsRange (Primitive.editDraft b fun d => d.take p) fun _ => True := by
  refine (draftFor b).bind fun d hd => ?_
  have hl : KeepsRange (lift (d.take p)) fun d' => d'.code.Ranged :=
    .lift (fun d' h => Draft.ranged_take hd (fun n hn => absurd hn (hp n)) h) fun y h => by
      rintro hy
      cases hy
      exact d.take_ne_unprintable p h
  exact hl.bind fun _ hd' => setDraft hd'

theorem finishDraft : KeepsRange Primitive.finishDraft fun _ => True := by
  refine Keeps.get.bind fun e he => ?_
  cases hd : e.draft with
  | none => exact .fail (by simp [Stop.Worded])
  | some d =>
      have hl : KeepsRange (lift d.finish) fun w => ∀ c, w.body = .compiled c → c.Ranged := by
        refine .lift (fun w hw => ?_) fun y hy => ?_
        · unfold Draft.finish at hw
          split at hw
          · cases hw
          · cases hw
            intro c hc
            cases hc
            exact he.draft hd
        · unfold Draft.finish at hy
          split at hy <;> cases hy
          simp [Stop.Worded]
      refine hl.bind fun w hw => Keeps.bind (.modify fun e' he' => ?_) fun _ _ => note _
      refine { he' with dict := fun {p v c} hv hc => ?_, draft := fun h => by cases h }
      rw [Dictionary.get?_add] at hv
      split at hv
      · cases hv
        exact hw c hc
      · exact he'.dict hv hc

theorem markLatest : KeepsRange Primitive.markLatest fun _ => True where
  ok {e a e'} he hr := by
    cases hm : e.dict.markLatest with
    | error f => rw [Primitive.run_markLatest_error hm] at hr; cases hr
    | ok p =>
        rw [Primitive.run_markLatest_ok hm] at hr
        cases hr
        refine ⟨⟨he.stack, he.loops, fun {position w c} hw hc => ?_, he.draft⟩, trivial⟩
        obtain ⟨v, hv, hu⟩ :=
          Dictionary.get?_of_unmarked (Dictionary.unmarked_markLatest hm).symm hw
        exact he.dict hv ((Word.body_of_unmarked hu).trans hc)
  error {e s e'} he hr := by
    cases hm : e.dict.markLatest with
    | error f =>
        rw [Primitive.run_markLatest_error hm, Dictionary.markLatest_error hm] at hr
        cases hr
        exact ⟨he, by simp [Stop.Worded]⟩
    | ok p => rw [Primitive.run_markLatest_ok hm] at hr; cases hr

theorem exec (b : Builtin) : KeepsRange (Primitive.exec b) fun _ => True := by
  cases b with
  | semicolon => exact finishDraft
  | markImmediate => exact markLatest
  | recurse => exact editDraft (p := .atom (.call .itself)) (by simp)
  | literal =>
      refine (draftFor .literal).bind fun d hd => Keeps.bind pop fun n hn => setDraft (hd.push ?_)
      intro m hm
      cases hm
      exact hn
  | ifWord => exact editDraft (p := .ifWord) (by simp)
  | elseWord => exact editDraft (p := .elseWord) (by simp)
  | thenWord => exact editDraft (p := .thenWord) (by simp)
  | doWord => exact editDraft (p := .doWord) (by simp)
  | loopWord => exact editDraft (p := .loopWord) (by simp)
  | index =>
      refine Keeps.get.bind fun e he => ?_
      cases hd : e.draft with
      | none => exact loopIndex
      | some d => exact setDraft ((he.draft hd).push (by simp))
  | binary op => exact binary op
  | bitNot => exact pop.bind fun _ hn => push (Cell.inRange_bitNot hn)
  | shuffle w => exact onStack (.shuffle w)
  | print => exact printTop
  | newline => exact emit _
  | printStack => exact printStack
  | listWords => exact Keeps.get.bind fun _ _ => emit _

/-- A loop goes on only while its next index is below the limit, which is a cell. -/
theorem step {c : Code} {i : Instr Callee} {ip : Int} (hc : c.Ranged) (hi : i ∈ c) :
    KeepsRange (step i ip) fun _ => True := by
  have hnext : ∀ f : Frame, f.InRange → f.index + 1 < f.limit → Cell.InRange (f.index + 1) := by
    intro f hf hlt
    unfold Frame.InRange Cell.InRange at hf
    unfold Cell.InRange
    omega
  refine Keeps.step (by simp [Stop.Worded]) (fun n hn => push (hc n (hn ▸ hi))) pop
    (fun start limit hs hl _ => ?_) popFrame (fun f hf hlt => ?_) loopIndex
  · exact pushFrame ⟨hs, hl⟩
  · exact pushFrame ⟨hnext f hf hlt, hf.2⟩

theorem word {lim : Limits} {fuel depth position : Nat} :
    KeepsRange (word lim fuel depth position) fun _ => True := by
  refine Keeps.word (C := Code.Ranged) (by simp [Stop.Worded]) (fun he => he.dict) step exec ?_
    (by simp [Stop.Worded])
  intro e position w depth x _ _ hx hs
  cases hs
  cases Limits.kind_of_checkDepth hx

theorem cellOf (text : String) : KeepsRange (lift (cellOf text)) Cell.InRange := by
  refine .lift (fun n h => ?_) fun x h hx => ?_
  · unfold Run.cellOf at h
    split at h
    · cases h
    · split at h
      · cases h
      · exact Cell.inRange_of_check h
  · cases hx
    unfold Run.cellOf at h
    split at h
    · cases h
    · split at h
      · cases h
      · next hne => exact hne h

theorem token {lim : Limits} {fuel : Nat} {text : String} :
    KeepsRange (token lim fuel text) fun _ => True := by
  refine Keeps.get.bind fun e he => ?_
  cases hd : e.draft with
  | none =>
      refine Keeps.get.bind fun e' _ => ?_
      cases e'.dict.find? text with
      | none => exact (cellOf text).bind fun _ hn => push hn
      | some position => exact word
  | some d =>
      have hc := he.draft hd
      refine Keeps.get.bind fun e' _ => ?_
      simp only
      cases e'.dict.find? text with
      | none =>
          simp only
          split
          · exact setDraft (hc.push (by simp))
          · refine (cellOf text).bind fun n hn => setDraft (hc.push ?_)
            intro m hm
            cases hm
            exact hn
      | some position =>
          simp only
          split
          · exact word
          · exact setDraft (hc.push (by simp))

theorem startDraft (name : Option String) : KeepsRange (startDraft name) fun _ => True := by
  refine Keeps.get.bind fun e _ => ?_
  cases e.draft with
  | some d => exact .fail (by simp [Stop.Worded])
  | none =>
      cases name with
      | none => exact .fail (by simp [Stop.Worded])
      | some name =>
          simp only
          split
          · exact .fail (by simp [Stop.Worded])
          · exact setDraft nofun

theorem tokens {lim : Limits} {fuel : Nat} (ts : List String) :
    KeepsRange (tokens lim fuel ts) fun _ => True :=
  Keeps.tokens (fun _ _ => token) (startDraft none) fun name _ => startDraft (some name)

theorem line (lim : Limits) (fuel : Nat) (line : String) :
    KeepsRange (do Run.tokens lim fuel (← lift (Token.ofText line))) fun _ => True := by
  have hl : KeepsRange (lift (Token.ofText line)) fun _ => True := by
    refine .lift (fun _ _ => trivial) fun x hx => ?_
    unfold Token.ofText at hx
    simp only at hx
    split at hx <;> cases hx
    simp [Stop.Worded]
  exact hl.bind fun ts _ => tokens ts

end KeepsRange

end Run

end Forthlet
