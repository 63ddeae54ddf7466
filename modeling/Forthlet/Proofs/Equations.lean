import Forthlet.Engine.Feed

/-!
# Runs of single actions

What an action does from a state of a known form, one equation for each form
that later proofs meet.
-/
namespace Forthlet

namespace Engine

@[simp] theorem reset_dict (e : Engine) : e.reset.dict = e.dict := by
  unfold reset
  cases e.draft <;> rfl

@[simp] theorem reset_stack (e : Engine) : e.reset.stack = e.stack := by
  unfold reset
  cases e.draft <;> rfl

@[simp] theorem reset_console (e : Engine) : e.reset.console = e.console := by
  unfold reset
  cases e.draft <;> rfl

end Engine

namespace Primitive

open Run

theorem run_markLatest_ok {e : Engine} {name : String} {dict : Dictionary}
    (h : e.dict.markLatest = .ok (name, dict)) :
    markLatest.run e = .ok () (Engine.note (.marked name) { e with dict }) := by
  have hr : markLatest.run e = (do
      let r ← lift e.dict.markLatest
      modify fun e => { e with dict := r.2 }
      note (.marked r.1) : Run Unit).run e := rfl
  rw [hr, h]
  rfl

theorem run_markLatest_error {e : Engine} {f : Fault} (h : e.dict.markLatest = .error f) :
    markLatest.run e = .error (.fault f) e := by
  have hr : markLatest.run e = (do
      let r ← lift e.dict.markLatest
      modify fun e => { e with dict := r.2 }
      note (.marked r.1) : Run Unit).run e := rfl
  rw [hr, h]
  rfl

section
variable {e : Engine} {d : Draft}

theorem run_finishDraft_none (hd : e.draft = none) :
    finishDraft.run e = .error (.fault .straySemicolon) e := by
  obtain ⟨_, _, _, _, _, _⟩ := e
  cases hd
  rfl

theorem run_finishDraft_error {f : Fault} (hd : e.draft = some d) (hf : d.finish = .error f) :
    finishDraft.run e = .error (.fault f) e := by
  have hr : finishDraft.run e = (do
      let w ← lift d.finish
      modify fun e => { e with dict := e.dict.add w, draft := none }
      note (.defined d.name d.code.size) : Run Unit).run e := by
    simp [finishDraft, hd]
  rw [hr, hf]
  rfl

theorem run_finishDraft_ok {w : Word} (hd : e.draft = some d) (hw : d.finish = .ok w) :
    finishDraft.run e = .ok () (Engine.note (.defined d.name d.code.size)
      { e with dict := e.dict.add w, draft := none }) := by
  have hr : finishDraft.run e = (do
      let w ← lift d.finish
      modify fun e => { e with dict := e.dict.add w, draft := none }
      note (.defined d.name d.code.size) : Run Unit).run e := by
    simp [finishDraft, hd]
  rw [hr, hw]
  rfl

/-- A compiling word other than `;` and `I` refuses to work without a definition in progress. -/
theorem run_exec_none {b : Builtin} (hd : e.draft = none) (hb : b.isCompiling = true)
    (hs : b ≠ .semicolon) (hi : b ≠ .index) :
    (exec b).run e = .error (.fault (.compileOnly b.name)) e := by
  obtain ⟨_, _, _, _, _, _⟩ := e
  cases hd
  cases b <;> first | contradiction | rfl

theorem run_exec_index_none (hd : e.draft = none) :
    (exec .index).run e = loopIndex.run e := by
  obtain ⟨_, _, _, _, _, _⟩ := e
  cases hd
  rfl

theorem run_exec_literal (hd : e.draft = some d) :
    (exec .literal).run e = (do setDraft (d.append (.lit (← pop))) : Run Unit).run e := by
  obtain ⟨_, _, _, _, _, _⟩ := e
  cases hd
  rfl

end

end Primitive

namespace Run

theorem run_pushFrame (frame : Frame) (e : Engine) :
    (onLoops (Stack.push frame)).run e = .ok () { e with loops := frame :: e.loops } := rfl

theorem run_popFrame {e : Engine} {frame : Frame} {loops : List Frame}
    (h : e.loops = frame :: loops) :
    (onLoops Frame.pop).run e = .ok frame { e with loops } := by
  obtain ⟨_, _, _⟩ := e
  cases h
  rfl

theorem run_popFrame_nil {e : Engine} (h : e.loops = []) :
    (onLoops Frame.pop).run e = .error (.fault .indexOutsideLoop) e := by
  obtain ⟨_, _, _⟩ := e
  cases h
  rfl

section
variable {lim : Limits} {fuel depth position : Nat} {w : Word} {e : Engine}

theorem run_word_missing (hw : e.dict.get? position = none) :
    (word lim fuel depth position).run e = (fail (.badInstruction "CALL") : Run Unit).run e := by
  simp [word, enter, hw]

theorem run_word_builtin {b : Builtin} (hw : e.dict.get? position = some w)
    (hb : w.body = .builtin b) :
    (word lim fuel depth position).run e = (Primitive.exec b).run e := by
  simp [word, enter, hw, hb]

theorem run_word_compiled {c : Code} (hw : e.dict.get? position = some w)
    (hc : w.body = .compiled c) :
    (word lim fuel depth position).run e = (do
      lift (lim.checkDepth depth w.name)
      code lim fuel (depth + 1) position c 0 : Run Unit).run e := by
  simp [word, enter, hw, hc]

end

section
variable {e : Engine} {name : String}

theorem run_startDraft_some {d : Draft} (hd : e.draft = some d) (name : Option String) :
    (startDraft name).run e = .error (.fault (.nestedColon d.name)) e := by
  simp [startDraft, hd]

theorem run_startDraft_missing (hd : e.draft = none) :
    (startDraft none).run e = .error (.fault .colonNeedsName) e := by
  simp [startDraft, hd]

theorem run_startDraft_number {n : Int} (hd : e.draft = none) (hn : Numeral.parse name = .ok n) :
    (startDraft (some name)).run e = .error (.fault (.colonNumber name)) e := by
  simp [startDraft, hd, hn]

theorem run_startDraft_ok {x : Numeral.Error} (hd : e.draft = none)
    (hn : Numeral.parse name = .error x) :
    (startDraft (some name)).run e = .ok () { e with draft := some (Draft.start name) } := by
  simp [startDraft, hd, hn, Primitive.setDraft]

end

theorem tokens_cons {lim : Limits} {fuel : Nat} {text : String} (h : text ≠ ":")
    (rest : List String) :
    tokens lim fuel (text :: rest) = (do
      token lim fuel text
      tokens lim fuel rest) := by
  rw [tokens]
  · simp [h]
  · simp [h]

/-- What a feed makes of the outcome of its tokens. -/
def recover (line : String) : EStateM.Result Stop Engine Unit → EStateM.Result Stop Engine Unit
  | .error (.fault f) e =>
    .error (.fault f) (if f.recovers then (e.note (.aborted line f)).reset else e)
  | r => r

theorem run_feed (lim : Limits) (fuel : Nat) (line : String) (e : Engine) :
    (feed lim fuel line).run e =
      recover line ((do tokens lim fuel (← lift (Token.ofText line)) : Run Unit).run e) := by
  simp only [feed, EStateM.run, recover]
  split <;> simp [*]

end Run

end Forthlet
