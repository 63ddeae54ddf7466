import Forthlet.Proofs.Compilation
import Forthlet.Proofs.Invariant
import Forthlet.Proofs.Spacing

/-!
# What outlasts every run

A property of the engine outlasts whatever is run if it outlasts the few things that can happen:
the stacks change, something is printed, a piece joins the definition in progress, the definition
becomes an entry, the newest entry is marked. If a definition may start and be given up as well, the
property outlasts whatever is read. No later proof looks at the built-in words again for that.
-/
namespace Forthlet

open Outcome

/-- An entry is called only if it is there and does not run at once. -/
def Piece.Linked (dict : Dictionary) : Piece → Prop
  | .atom (.call (.entry k)) => ∃ w, dict.get? k = some w ∧ w.immediate = false
  | _ => True

theorem Builtin.linked_of_piece? {b : Builtin} {p : Piece} (h : b.piece? = some p)
    (dict : Dictionary) : p.Linked dict := by
  cases b <;> cases h <;> trivial

/-- The faults that a built-in word raises by itself. The others arise when a text is read or
when a compiled word is entered. -/
def Fault.isPrimitive : Fault → Bool
  | stackUnderflow | divisionByZero | overflow _ | unprintable | indexOutsideLoop
  | compileOnly _ | elseWithoutIf | thenWithoutIf | loopWithoutDo | unfinished _ _
  | straySemicolon | nothingToMark => true
  | _ => false

def Stop.IsPrimitive (s : Stop) : Prop := ∃ f, s = .fault f ∧ f.isPrimitive = true

/-- These do not name the definition in progress. -/
def Fault.isPlain : Fault → Bool
  | unfinished _ _ => false
  | f => f.isPrimitive

/-- A built-in word raised the fault. If it names the definition in progress, the state had `P`. -/
inductive Stop.Raised (P : Engine → Prop) : Stop → Prop
  | plain {f : Fault} (h : f.isPlain = true) : Raised P (.fault f)
  | unfinished {e : Engine} {d : Draft} (he : P e) (hd : e.draft = some d) (opener : Opener) :
      Raised P (.fault (.unfinished opener d.name))

theorem Stop.Raised.isPrimitive {P : Engine → Prop} {s : Stop} (h : s.Raised P) :
    s.IsPrimitive := by
  cases h with
  | @plain f h =>
      refine ⟨f, rfl, ?_⟩
      cases f <;> first | exact h | rfl
  | unfinished _ _ _ => exact ⟨_, rfl, rfl⟩

/-- The text ended too early, within a comment or after a colon. -/
def Stop.isTruncation : Stop → Bool
  | .fault .openComment | .fault .colonNeedsName => true
  | _ => false

theorem Stop.Raised.isTruncation {P : Engine → Prop} {s : Stop} (h : s.Raised P) :
    s.isTruncation = false := by
  obtain ⟨f, rfl, hf⟩ := h.isPrimitive
  cases f <;> first | rfl | cases hf

theorem Stop.ne_openComment_of_isTruncation {s : Stop} (h : s.isTruncation = false) :
    s ≠ .fault .openComment := by
  rintro rfl
  cases h

theorem Cell.Binary.isPlain_of_apply {op : Binary} {a b : Int} {f : Fault}
    (h : op.apply a b = .error f) : f.isPlain = true := by
  have hcheck : ∀ n, check n = .error f → f.isPlain = true := by
    intro n hn
    unfold check at hn
    split at hn
    · cases hn
    · split at hn <;> cases hn <;> rfl
  cases op with
  | add | sub | mul => exact hcheck _ h
  | div =>
      simp only [apply] at h
      split at h
      · cases h
        rfl
      · exact hcheck _ h
  | mod =>
      simp only [apply] at h
      split at h <;> cases h
      rfl
  | eq | lt | gt | and | or => cases h

namespace Draft

variable {d : Draft} {f : Fault}

theorem isPlain_of_take {p : Piece} (h : d.take p = .error f) : f.isPlain = true := by
  cases p with
  | atom a => cases h
  | ifWord | doWord => cases h
  | elseWord | thenWord | loopWord =>
      simp only [take, turnElse, closeThen, closeLoop] at h
      split at h <;> cases h
      rfl

theorem finish_error (h : d.finish = .error f) : ∃ opener, f = .unfinished opener d.name := by
  unfold finish at h
  split at h <;> cases h
  exact ⟨_, rfl⟩

end Draft

/-- What a built-in word may print. -/
inductive Engine.Prints (e : Engine) : String → Prop
  | number (n : Int) : Prints e (toString n ++ " ")
  | newline : Prints e "\n"
  | cells (count : Nat) {texts : List String} (h : ∀ t ∈ texts, ∃ n : Int, t = toString n) :
      Prints e ("<" ++ toString count ++ "> " ++ String.join (texts.map (· ++ " ")))
  | names : Prints e ("  ".intercalate e.dict.names)

namespace Run

variable {α : Type}

/-- The property does not depend on the data stack, and what is printed keeps it. -/
structure Calm (P : Engine → Prop) : Prop where
  withStack : ∀ {e}, P e → ∀ stack, P { e with stack }
  write : ∀ {e chunk}, P e → e.Prints chunk → P { e with console := e.console.write chunk }

namespace Calm

variable {P : Engine → Prop}

/-- The action keeps the property and fails as built-in words do. -/
abbrev Kept (P : Engine → Prop) (m : Run α) : Prop := Keeps P (Stop.Raised P) m fun _ => True

theorem lift {x : Except Fault α} (h : ∀ f, x = .error f → f.isPlain = true) :
    Kept P (lift x) :=
  Keeps.lift (fun _ _ => trivial) fun f hf => .plain (h f hf)

theorem decimal (n : Int) :
    Keeps P (Stop.Raised P) (decimal n) fun text => ∃ m : Int, text = toString m := by
  unfold Run.decimal
  split
  · exact .pure ⟨n, rfl⟩
  · exact .fail (.plain rfl)

/-- Looking at the frame of the innermost loop leaves the frames as they are. -/
theorem peekFrame : Kept P (onLoops Frame.peek) where
  ok {e a e'} he hr := by
    obtain ⟨_, loops, _, _, _, _⟩ := e
    cases loops <;> cases hr
    exact ⟨he, trivial⟩
  error {e s e'} he hr := by
    obtain ⟨_, loops, _, _, _, _⟩ := e
    cases loops <;> cases hr
    exact ⟨he, .plain rfl⟩

section
variable (hP : Calm P)
include hP

theorem onStack {act : Stack.Act Int α}
    (h : ∀ {s f s'}, act.run s = .error f s' → f.isPlain = true) : Kept P (onStack act) where
  ok {e a e'} he hr := by
    simp only [Run.onStack, EStateM.run] at hr
    split at hr <;> cases hr
    exact ⟨hP.withStack he _, trivial⟩
  error {e s e'} he hr := by
    simp only [Run.onStack, EStateM.run] at hr
    split at hr <;> cases hr
    next f s hf => exact ⟨hP.withStack he s, .plain (h hf)⟩

theorem push (n : Int) : Kept P (push n) := onStack hP fun h => by cases h

theorem pop : Kept P pop := onStack hP fun {s f s'} h => by
  cases s <;> cases h
  rfl

theorem loopIndex : Kept P Primitive.loopIndex := peekFrame.bind fun _ _ => push hP _

theorem emit {chunk : String} (h : ∀ e : Engine, e.Prints chunk) : Kept P (emit chunk) :=
  .modify fun e he => hP.write he (h e)

theorem binary (op : Cell.Binary) : Kept P (Primitive.binary op) := by
  refine (pop hP).bind fun b _ => (pop hP).bind fun a _ => ?_
  have hl : Kept P (Run.lift (op.apply a b)) :=
    lift fun _ hf => Cell.Binary.isPlain_of_apply hf
  exact hl.bind fun _ _ => push hP _

theorem printTop : Kept P Primitive.printTop := by
  unfold Primitive.printTop
  refine Keeps.bind (pop hP) fun n _ => Keeps.bind (decimal n) fun text htext => ?_
  obtain ⟨m, rfl⟩ := htext
  exact emit hP fun _ => .number m

theorem printStack : Kept P Primitive.printStack := by
  unfold Primitive.printStack
  refine Keeps.bind .get fun _ _ => Keeps.bind (.mapM fun n _ => decimal n) fun _ htexts => ?_
  exact emit hP fun _ => .cells _ htexts

theorem listWords : Kept P (Primitive.exec .listWords) :=
  .of_outcome fun _ he => ⟨hP.write he .names, trivial⟩

theorem shuffle (w : Shuffle) : Kept P (Run.onStack w.act) := onStack hP fun {s f s'} h => by
  cases hw : w.apply s with
  | some t => simp [Shuffle.act_eq, EStateM.run, hw] at h
  | none =>
      simp only [Shuffle.act_eq, EStateM.run, hw] at h
      cases h
      rfl

/-- Apart from the compiling words and `IMMEDIATE` the built-in words compute and print. -/
theorem exec {b : Builtin} (hb : b.isCompiling = false) (hm : b ≠ .markImmediate) :
    Kept P (Primitive.exec b) := by
  cases b with
  | semicolon | recurse | literal | ifWord | elseWord | thenWord | doWord | loopWord | index =>
      cases hb
  | markImmediate => exact absurd rfl hm
  | binary op => exact binary hP op
  | bitNot => exact (pop hP).bind fun _ _ => push hP _
  | shuffle w => exact shuffle hP w
  | print => exact printTop hP
  | newline => exact emit hP fun _ => .newline
  | printStack => exact printStack hP
  | listWords => exact listWords hP

end

end Calm

/-- The property outlasts everything that can run: loops that come and go, pieces that join the
definition in progress, its end and the mark of the newest word, each of the last two with its
record. -/
structure Lasting (P : Engine → Prop) : Prop extends Calm P where
  pushFrame : ∀ {e}, P e → ∀ f : Frame, f.index < f.limit → P { e with loops := f :: e.loops }
  popFrame : ∀ {e f loops}, P e → e.loops = f :: loops → P { e with loops }
  take : ∀ {e d d' piece}, P e → e.draft = some d → Piece.Linked e.dict piece →
    d.take piece = .ok d' → P { e with draft := some d' }
  finish : ∀ {e d w}, P e → e.draft = some d → d.finish = .ok w →
    P (Engine.note (.defined d.name d.code.size) { e with dict := e.dict.add w, draft := none })
  mark : ∀ {e name dict}, P e → e.dict.markLatest = .ok (name, dict) →
    P (Engine.note (.marked name) { e with dict })

namespace Lasting

variable {P : Engine → Prop} {e : Engine}

/-- An outcome with the property, or with a fault of a built-in word. -/
abbrev Lasts (P : Engine → Prop) (r : Outcome α) : Prop :=
  Satisfies P (Stop.Raised P) (fun _ => True) r

theorem plain {f : Fault} (he : P e) (hf : f.isPlain = true) :
    Lasts P (.error (.fault f) e : Outcome α) :=
  ⟨he, .plain hf⟩

section
variable (hP : Lasting P)
include hP

/-- A piece is taken or refused. -/
theorem compile {d : Draft} {piece : Piece} (he : P e) (hd : e.draft = some d)
    (hp : piece.Linked e.dict) : Lasts P ((Run.compile d piece).run e) := by
  cases ht : d.take piece with
  | error f =>
      rw [run_compile_error ht]
      exact plain he (Draft.isPlain_of_take ht)
  | ok d' =>
      rw [run_compile_ok ht]
      exact ⟨hP.take he hd hp ht, trivial⟩

theorem finishDraft (he : P e) : Lasts P (Primitive.finishDraft.run e) := by
  cases hd : e.draft with
  | none =>
      rw [Primitive.run_finishDraft_none hd]
      exact plain he rfl
  | some d =>
      cases hw : d.finish with
      | error f =>
          obtain ⟨opener, rfl⟩ := Draft.finish_error hw
          rw [Primitive.run_finishDraft_error hd hw]
          exact ⟨he, .unfinished he hd opener⟩
      | ok w =>
          rw [Primitive.run_finishDraft_ok hd hw]
          exact ⟨hP.finish he hd hw, trivial⟩

theorem markLatest (he : P e) : Lasts P (Primitive.markLatest.run e) := by
  cases hm : e.dict.markLatest with
  | error f =>
      rw [Primitive.run_markLatest_error hm]
      exact plain he (by rw [Dictionary.markLatest_error hm]; rfl)
  | ok r =>
      rw [Primitive.run_markLatest_ok hm]
      exact ⟨hP.mark he hm, trivial⟩

theorem literal {d : Draft} (he : P e) (hd : e.draft = some d) :
    Lasts P ((Primitive.exec .literal).run e) := by
  rw [Primitive.run_exec_literal hd, EStateM.run_bind]
  cases hs : e.stack with
  | nil =>
      rw [run_pop_nil hs]
      exact plain he rfl
  | cons n s =>
      rw [run_pop_cons hs]
      have hlit : Piece.Linked e.dict (.atom (.lit n)) := trivial
      exact ⟨hP.take (hP.withStack he s) hd hlit rfl, trivial⟩

theorem exec (b : Builtin) : Calm.Kept P (Primitive.exec b) := by
  refine .of_outcome fun e he => ?_
  cases acts e b with
  | finish => exact hP.finishDraft he
  | literal hd => exact hP.literal he hd
  | piece hd hp =>
      rw [run_exec_piece hp hd]
      exact hP.compile he hd (Builtin.linked_of_piece? hp _)
  | index hd =>
      rw [Primitive.run_exec_index_none hd]
      exact hP.toCalm.loopIndex.outcome he
  | refused hr =>
      rw [hr]
      exact plain he rfl
  | plain hb =>
      by_cases hm : b = .markImmediate
      · subst hm
        exact hP.markLatest he
      · exact (hP.toCalm.exec hb hm).outcome he

end

end Lasting

/-- What a token does: it runs a word, adds a piece to the definition in progress, pushes a number,
or is none that could be pushed or added. -/
inductive TokenActs (lim : Limits) (fuel : Nat) (e : Engine) (text : String) : Prop
  | runs {position : Nat} {w : Word} (hw : e.dict.get? position = some w)
      (hr : (token lim fuel text).run e = (word lim fuel 0 position).run e) :
      TokenActs lim fuel e text
  | adds {d : Draft} {piece : Piece} (hd : e.draft = some d) (hl : piece.Linked e.dict)
      (hr : (token lim fuel text).run e = (compile d piece).run e) : TokenActs lim fuel e text
  | pushes {n : Int} (hr : (token lim fuel text).run e = (push n).run e) :
      TokenActs lim fuel e text
  | refused {f : Fault} (hf : cellOf text = .error f)
      (hr : (token lim fuel text).run e = .error (.fault f) e) : TokenActs lim fuel e text

theorem token_acts (lim : Limits) (fuel : Nat) (e : Engine) (text : String) :
    TokenActs lim fuel e text := by
  cases hd : e.draft with
  | none =>
      cases hf : e.dict.find? text with
      | some k =>
          obtain ⟨w, hw, -⟩ := Dictionary.get?_of_find? hf
          exact .runs hw (run_token_word hd hf)
      | none =>
          have hr : (token lim fuel text).run e = _ := run_token_number hd hf
          cases hc : cellOf text with
          | error f =>
              rw [hc] at hr
              exact .refused hc hr
          | ok n =>
              rw [hc] at hr
              exact .pushes hr
  | some d =>
      cases hf : e.dict.find? text with
      | some k =>
          obtain ⟨w, hw, -⟩ := Dictionary.get?_of_find? hf
          cases hi : w.immediate with
          | true => exact .runs hw (run_token_immediate hd hf hw hi)
          | false =>
              have hl : Piece.Linked e.dict (.atom (.call (.entry k))) := ⟨w, hw, hi⟩
              exact .adds hd hl (run_token_call hd hf hw hi)
      | none =>
          by_cases hn : Text.upper text = d.name
          · have hl : Piece.Linked e.dict (.atom (.call .itself)) := trivial
            exact .adds hd hl (run_token_own hd hf hn)
          · have hr : (token lim fuel text).run e = _ := run_token_literal hd hf hn
            cases hc : cellOf text with
            | error f =>
                rw [hc] at hr
                exact .refused hc hr
            | ok n =>
                rw [hc] at hr
                have hl : Piece.Linked e.dict (.atom (.lit n)) := trivial
                exact .adds hd hl hr

/-- What is neither a word nor a cell is unknown, or a number beyond the cells. -/
theorem cellOf_error {text : String} {f : Fault} (h : cellOf text = .error f) :
    f = .undefined text ∨ ∃ n, f = .overflow n := by
  unfold cellOf at h
  split at h
  · cases h
    exact .inl rfl
  · next n _ =>
      split at h
      · cases h
        exact .inl rfl
      · next hne =>
          have hf : f ≠ .unprintable := fun hf => hne (hf ▸ h)
          unfold Cell.check at h
          split at h
          · cases h
          · split at h <;> cases h
            · exact .inr ⟨n, rfl⟩
            · exact absurd rfl hf

/-- The action keeps the property, and it does not stop as a text that ends too early does. -/
abbrev Lasting.Kept (P : Engine → Prop) (m : Run α) : Prop :=
  Keeps P (fun s => s.isTruncation = false) m fun _ => True

theorem Calm.Kept.lasting {P : Engine → Prop} {m : Run α} (h : Calm.Kept P m) :
    Lasting.Kept P m :=
  h.mono fun _ => Stop.Raised.isTruncation

namespace Lasting

variable {P : Engine → Prop}

theorem cellOf {text : String} {f : Fault} (h : cellOf text = .error f) :
    (Stop.fault f).isTruncation = false := by
  rcases cellOf_error h with rfl | ⟨n, rfl⟩ <;> rfl

/-- Under a name that is no number a definition starts, if none is open. -/
theorem startDraft {name : String}
    (h : ∀ {e x}, P e → e.draft = none → Numeral.parse name = .error x →
      P { e with draft := some (.start name) }) :
    Kept P (startDraft (some name)) := by
  refine .of_outcome fun e he => ?_
  cases hd : e.draft with
  | some d =>
      rw [run_startDraft_some hd]
      exact ⟨he, rfl⟩
  | none =>
      cases hn : Numeral.parse name with
      | ok n =>
          rw [run_startDraft_number hd hn]
          exact ⟨he, rfl⟩
      | error x =>
          rw [run_startDraft_ok hd hn]
          exact ⟨h he hd hn, trivial⟩

section
variable (hP : Lasting P) {lim : Limits} {fuel : Nat}
include hP

/-- An instruction stops as built-in words do, or because it is none that can be run. -/
theorem step_of {E : Stop → Prop} (hE : ∀ s, Stop.Raised P s → E s) {i : Instr Callee}
    (hbad : E (.fault (.badInstruction i.opName))) (ip : Int) :
    Keeps P E (step i ip) fun _ => True := by
  have hpop : Calm.Kept P (onLoops Frame.pop) := by
    refine .of_outcome fun e he => ?_
    cases hl : e.loops with
    | nil =>
        rw [run_popFrame_nil hl]
        exact plain he rfl
    | cons f loops =>
        rw [run_popFrame hl]
        exact ⟨hP.popFrame he hl, trivial⟩
  have hpush : ∀ f : Frame, f.index < f.limit → Calm.Kept P (onLoops (Stack.push f)) :=
    fun f hf => .of_outcome fun e he => ⟨hP.pushFrame he f hf, trivial⟩
  exact Keeps.step hbad (fun n _ => (hP.toCalm.push n).mono hE) (hP.toCalm.pop.mono hE)
    (fun start limit _ _ hlt => (hpush ⟨start, limit⟩ hlt).mono hE) (hpop.mono hE)
    (fun f _ hlt => (hpush { f with index := f.index + 1 } hlt).mono hE)
    (hP.toCalm.loopIndex.mono hE)

theorem step (i : Instr Callee) (ip : Int) : Kept P (step i ip) :=
  hP.step_of (fun _ => Stop.Raised.isTruncation) rfl ip

theorem word {depth position : Nat} : Kept P (word lim fuel depth position) := by
  refine Keeps.word (C := fun _ => True) ?_ (fun _ _ _ => trivial) (fun _ _ => hP.step _ _)
    (fun b => (hP.exec b).lasting) (fun {e position w depth x} _ _ hx => ?_) ?_
  · rfl
  · have hk := Limits.kind_of_checkDepth hx
    cases x <;> first | rfl | cases hk
  · rfl

theorem token (text : String) : Kept P (token lim fuel text) := by
  refine .of_outcome fun e he => ?_
  cases token_acts lim fuel e text with
  | runs _ hr =>
      rw [hr]
      exact hP.word.outcome he
  | adds hd hl hr =>
      rw [hr]
      exact (hP.compile he hd hl).mono fun _ => Stop.Raised.isTruncation
  | pushes hr =>
      rw [hr]
      exact (hP.toCalm.push _).lasting.outcome he
  | refused hf hr =>
      rw [hr]
      exact ⟨he, cellOf hf⟩

/-- No token stops as an open comment does. -/
theorem tokens {ts : List String}
    (hstart : ∀ name ∈ ts, ∀ {e x}, P e → e.draft = none → Numeral.parse name = .error x →
      P { e with draft := some (.start name) }) :
    Keeps P (fun s => s ≠ .fault .openComment) (tokens lim fuel ts) fun _ => True := by
  have hmissing : Keeps P (fun s => s ≠ .fault .openComment) (Run.startDraft none)
      fun _ => True := by
    refine .of_outcome fun e he => ?_
    cases hd : e.draft with
    | some d =>
        rw [run_startDraft_some hd]
        exact ⟨he, by simp⟩
    | none =>
        rw [run_startDraft_missing hd]
        exact ⟨he, by simp⟩
  refine Keeps.tokens (fun text _ => ?_) hmissing fun name hname => ?_
  · exact (hP.token text).mono fun _ => Stop.ne_openComment_of_isTruncation
  · exact (startDraft (hstart name hname)).mono fun _ => Stop.ne_openComment_of_isTruncation

/-- A whole text keeps the property if the tokens that may start a definition do. -/
theorem line (lim : Limits) (fuel : Nat) (text : String) {e : Engine}
    (hstart : ∀ {e name x}, P e → e.draft = none → Token.IsToken name →
      Numeral.parse name = .error x → P { e with draft := some (.start name) }) (he : P e) :
    P (Outcome.engine
      ((do Run.tokens lim fuel (← lift (Token.ofText text)) : Run Unit).run e)) := by
  cases hts : Token.ofText text with
  | error f => exact he
  | ok ts =>
      have hkept : Keeps P (fun s => s ≠ .fault .openComment) (Run.tokens lim fuel ts)
          fun _ => True :=
        hP.tokens fun _ hname _ _ h hd hn => hstart h hd (Token.isToken_of_ofText hts hname) hn
      exact hkept.engine he

end

end Lasting

/-- The property outlasts the reading of whole texts as well, where a token may start a definition
and a fault ends one. -/
structure Abiding (P : Engine → Prop) : Prop extends Lasting P where
  start : ∀ {e name x}, P e → e.draft = none → Token.IsToken name →
    Numeral.parse name = .error x → P { e with draft := some (.start name) }
  abort : ∀ {e}, P e → ∀ line f, P (e.note (.aborted line f)).reset
  withConsole : ∀ {e}, P e → ∀ console, P { e with console }

namespace Abiding

variable {P : Engine → Prop} (hP : Abiding P) (lim : Limits) (fuel : Nat) (text : String)
  {e : Engine}
include hP

theorem line (he : P e) :
    P (engine ((do tokens lim fuel (← lift (Token.ofText text)) : Run Unit).run e)) :=
  hP.toLasting.line lim fuel text hP.start he

theorem feed (he : P e) : P (engine ((feed lim fuel text).run e)) := by
  have hline : Keeps P (fun _ => True)
      (do tokens lim fuel (← lift (Token.ofText text))) fun _ => True :=
    .of_engine fun _ he => hP.line lim fuel text he
  exact (Keeps.feed hline fun he f => hP.abort he text f).engine he

theorem interpret (he : P e) : P (engine ((interpret lim fuel text).run e)) := by
  have hfeed := hP.feed lim fuel text (hP.withConsole he ⟨#[], none⟩)
  unfold Run.interpret
  simp only [EStateM.run] at hfeed ⊢
  split
  · next e' hr =>
      rw [hr] at hfeed
      exact hP.withConsole hfeed _
  · next f e' hr =>
      rw [hr] at hfeed
      split <;> exact hP.withConsole hfeed _
  · next e' hr =>
      rw [hr] at hfeed
      exact hP.withConsole hfeed _

end Abiding

end Run

end Forthlet
