import Forthlet.Proofs.Outline
import Forthlet.Proofs.Soundness

/-!
# Sound compilation

The definition in progress is always the draft of an outline whose calls go to
words that may be called: only pieces of a body are ever added to it. So every
token settles, whether it runs a word or compiles one, and the engine stays
sound however that ends.
-/
namespace Forthlet

open Outcome

def Piece.Sound (dict : Dictionary) : Piece → Prop
  | .atom a => a.Sound dict
  | _ => True

def Draft.Sound (dict : Dictionary) (d : Draft) : Prop :=
  ∃ o : Outline, d = o.draft d.name ∧ ∀ a ∈ o.atoms, a.Sound dict

namespace Draft.Sound

variable {dict dict' : Dictionary} {d d' : Draft}

theorem start (dict : Dictionary) (name : String) : (Draft.start name).Sound dict :=
  ⟨.start, rfl, by simp [Outline.atoms, Outline.start, Block.atoms]⟩

theorem of_unmarked (h : dict'.unmarked = dict.unmarked) (hd : d.Sound dict) :
    d.Sound dict' := by
  obtain ⟨o, ho, ha⟩ := hd
  exact ⟨o, ho, fun a hm => (ha a hm).of_unmarked h⟩

theorem take {p : Piece} (h : d.Sound dict) (hp : p.Sound dict) (ht : d.take p = .ok d') :
    d'.Sound dict := by
  obtain ⟨o, ho, ha⟩ := h
  rw [ho, Outline.draft_take] at ht
  cases hp' : o.take p with
  | error f =>
      rw [hp'] at ht
      cases ht
  | ok o' =>
      rw [hp'] at ht
      cases ht
      refine ⟨o', rfl, fun a hm => ?_⟩
      rcases Outline.mem_atoms_of_take hp' hm with hm | rfl
      · exact ha a hm
      · exact hp

/-- What is finished is the layout of a body. -/
theorem finish {w : Word} (h : d.Sound dict) (hf : d.finish = .ok w) :
    ∃ b : Block, w = ⟨d.name, .compiled (b.layout 0).toArray, false⟩ ∧
      ∀ a ∈ b.atoms, a.Sound dict := by
  obtain ⟨⟨bs, b⟩, ho, ha⟩ := h
  rw [ho] at hf
  match bs with
  | [] =>
      cases hf
      exact ⟨b, rfl, fun a hm => ha a (by simpa [Outline.atoms] using hm)⟩
  | .ifThen _ :: _ | .ifElse _ _ :: _ | .doLoop _ :: _ => cases hf

end Draft.Sound

structure Engine.Sound (e : Engine) : Prop where
  dict : e.dict.Sound
  draft : ∀ {d}, e.draft = some d → d.Sound e.dict

namespace Engine.Sound

variable {e e' : Engine}

theorem of_sameProgram (h : e.Sound) (hs : e.SameProgram e') : e'.Sound where
  dict := h.dict.of_unmarked hs.dict
  draft hd := (h.draft (hs.draft ▸ hd)).of_unmarked hs.dict

theorem withDraft {d : Draft} (h : e.Sound) (hd : d.Sound e.dict) :
    Sound { e with draft := some d } where
  dict := h.dict
  draft hd' := by
    cases hd'
    exact hd

/-- The finished word joins the dictionary. -/
theorem finish {d : Draft} {w : Word} (h : e.Sound) (hd : e.draft = some d)
    (hw : d.finish = .ok w) : Sound { e with dict := e.dict.add w, draft := none } where
  dict := by
    obtain ⟨b, rfl, ha⟩ := (h.draft hd).finish hw
    exact h.dict.add ha _ _
  draft hd' := by cases hd'

end Engine.Sound

/-- The piece that a compiling word adds to the definition in progress. `;` ends the
definition instead, and what `LITERAL` adds depends on the data stack. -/
def Builtin.piece? : Builtin → Option Piece
  | .recurse => some (.atom (.call .itself))
  | .ifWord => some .ifWord
  | .elseWord => some .elseWord
  | .thenWord => some .thenWord
  | .doWord => some .doWord
  | .loopWord => some .loopWord
  | .index => some (.atom .index)
  | _ => none

theorem Builtin.sound_of_piece? {b : Builtin} {p : Piece} (h : b.piece? = some p)
    (dict : Dictionary) : p.Sound dict := by
  cases b <;> cases h <;> trivial

theorem Builtin.isCompiling_of_piece? {b : Builtin} {p : Piece} (h : b.piece? = some p) :
    b.isCompiling = true := by
  cases b <;> first | rfl | cases h

/-- A compiling word ends the definition, compiles a number or adds a fixed piece. -/
theorem Builtin.compiling_cases {b : Builtin} (h : b.isCompiling = true) :
    b = .semicolon ∨ b = .literal ∨ ∃ p, b.piece? = some p := by
  cases b <;> simp_all [isCompiling, piece?]

namespace Run

/-- Add a piece of a body to a definition in progress. -/
def compile (d : Draft) (p : Piece) : Run Unit := do
  Primitive.setDraft (← lift (d.take p))

section
variable {d d' : Draft} {p : Piece} {e : Engine}

theorem run_compile_ok (h : d.take p = .ok d') :
    (compile d p).run e = .ok () { e with draft := some d' } := by
  rw [compile, h]
  rfl

theorem run_compile_error {f : Fault} (h : d.take p = .error f) :
    (compile d p).run e = .error (.fault f) e := by
  rw [compile, h]
  rfl

theorem run_exec_piece {b : Builtin} (hb : b.piece? = some p) (hd : e.draft = some d) :
    (Primitive.exec b).run e = (compile d p).run e := by
  obtain ⟨_, _, _, _, _, _⟩ := e
  cases hd
  cases b <;> cases hb <;> rfl

end

/-- What a built-in word is about to do in the state that it finds. -/
inductive Acts (e : Engine) : Builtin → Prop
  | finish : Acts e .semicolon
  | literal {d : Draft} (hd : e.draft = some d) : Acts e .literal
  | piece {b : Builtin} {d : Draft} {p : Piece} (hd : e.draft = some d)
      (hp : b.piece? = some p) : Acts e b
  | index (hd : e.draft = none) : Acts e .index
  | refused {b : Builtin}
      (hr : (Primitive.exec b).run e = .error (.fault (.compileOnly b.name)) e) : Acts e b
  | plain {b : Builtin} (hb : b.isCompiling = false) : Acts e b

theorem acts (e : Engine) (b : Builtin) : Acts e b := by
  by_cases hb : b.isCompiling = true
  · cases hd : e.draft with
    | none =>
        by_cases hs : b = .semicolon
        · subst hs
          exact .finish
        by_cases hi : b = .index
        · subst hi
          exact .index hd
        · exact .refused (Primitive.run_exec_none hd hb hs hi)
    | some d =>
        rcases Builtin.compiling_cases hb with rfl | rfl | ⟨p, hp⟩
        · exact .finish
        · exact .literal hd
        · exact .piece hd hp
  · exact .plain (by simpa using hb)

section
variable {lim : Limits} {fuel position : Nat} {text : String} {w : Word} {d : Draft} {e : Engine}

theorem run_token_word (hd : e.draft = none) (hf : e.dict.find? text = some position) :
    (token lim fuel text).run e = (word lim fuel 0 position).run e := by
  simp [token, interpretToken, hd, hf]

theorem run_token_number (hd : e.draft = none) (hf : e.dict.find? text = none) :
    (token lim fuel text).run e = (do push (← lift (cellOf text)) : Run Unit).run e := by
  simp [token, interpretToken, hd, hf]

theorem run_token_immediate (hd : e.draft = some d) (hf : e.dict.find? text = some position)
    (hw : e.dict.get? position = some w) (hi : w.immediate = true) :
    (token lim fuel text).run e = (word lim fuel 0 position).run e := by
  simp [token, compileToken, hd, hf, hw, hi]

theorem run_token_call (hd : e.draft = some d) (hf : e.dict.find? text = some position)
    (hw : e.dict.get? position = some w) (hi : w.immediate = false) :
    (token lim fuel text).run e = (compile d (.atom (.call (.entry position)))).run e := by
  simp [token, compileToken, hd, hf, hw, hi, compile, Draft.take, Atom.instr]

theorem run_token_own (hd : e.draft = some d) (hf : e.dict.find? text = none)
    (hn : Text.upper text = d.name) :
    (token lim fuel text).run e = (compile d (.atom (.call .itself))).run e := by
  simp [token, compileToken, hd, hf, hn, compile, Draft.take, Atom.instr]

theorem run_token_literal (hd : e.draft = some d) (hf : e.dict.find? text = none)
    (hn : Text.upper text ≠ d.name) :
    (token lim fuel text).run e =
      (do compile d (.atom (.lit (← lift (cellOf text)))) : Run Unit).run e := by
  simp [token, compileToken, hd, hf, hn, compile, Draft.take, Atom.instr]

end

/-- The action settles. It leaves a sound engine, with the same loops if it succeeds. -/
def Proceeds (m : Nat → Run Unit) (e : Engine) : Prop :=
  ∃ r, Settles m e r ∧ (engine r).Sound ∧ ∀ e', r = .ok () e' → e'.loops = e.loops

namespace Proceeds

variable {m m' : Nat → Run Unit} {e e' : Engine}

theorem ok {m : Run Unit} (h : m.run e = .ok () e') (hs : e'.Sound) (hl : e'.loops = e.loops) :
    Proceeds (fun _ => m) e := by
  refine ⟨_, .const h trivial, hs, fun e'' he => ?_⟩
  cases he
  exact hl

theorem error {m : Run Unit} {f : Fault} (h : m.run e = .error (.fault f) e') (hs : e'.Sound) :
    Proceeds (fun _ => m) e :=
  ⟨_, .const h trivial, hs, nofun⟩

theorem of_alike (h : Alike m m' e) (he : e.Sound) : Proceeds m e := by
  obtain ⟨r, hm, _, hn⟩ := h
  refine ⟨r, hm, he.of_sameProgram hn.sameProgram, fun e' hr => ?_⟩
  subst hr
  exact hn.2

theorem bind (h : Proceeds m e)
    (hm : ∀ e', e'.Sound → e'.loops = e.loops → Proceeds m' e') :
    Proceeds (fun n => do m n; m' n) e := by
  obtain ⟨r, hr, hs, hl⟩ := h
  cases r with
  | error s e' => exact ⟨_, hr.bind_error, hs, nofun⟩
  | ok a e' =>
      have hl' := hl e' rfl
      obtain ⟨r', hr', hs', hk⟩ := hm e' hs hl'
      exact ⟨r', hr.bind_ok hr', hs', fun e'' he => (hk e'' he).trans hl'⟩

theorem bind_alike {α : Type} {a a' : Nat → Run α} {f : Nat → α → Run Unit} (h : Alike a a' e)
    (he : e.Sound) (hf : ∀ x e', e.SameProgram e' → e'.loops = e.loops →
      Proceeds (fun n => f n x) e') :
    Proceeds (fun n => a n >>= f n) e := by
  obtain ⟨r, hr, _, hn⟩ := h
  cases r with
  | error s e' => exact ⟨_, hr.bind_error, he.of_sameProgram hn.sameProgram, nofun⟩
  | ok x e' =>
      obtain ⟨r', hr', hs, hk⟩ := hf x e' hn.1 hn.2
      exact ⟨r', hr.bind_ok hr', hs, fun e'' h' => (hk e'' h').trans hn.2⟩

/-- A run that ended did what the action settles on, and left a sound engine. -/
theorem sound_of_run {fuel : Nat} {r : Outcome Unit} (h : Proceeds m e)
    (hm : ∀ fuel', fuel ≤ fuel' → Extends (m fuel) (m fuel')) (hr : (m fuel).run e = r)
    (hended : Ended r) : (engine r).Sound := by
  obtain ⟨r', hr', hs, -⟩ := h
  subst hr
  rw [(Settles.of_ended hm hended).unique hr']
  exact hs

theorem congr (h : Proceeds m e) (hm : ∀ n, (m' n).run e = (m n).run e) : Proceeds m' e := by
  obtain ⟨r, hr, hs, hl⟩ := h
  exact ⟨r, hr.congr hm, hs, hl⟩

theorem compile {d : Draft} {p : Piece} (he : e.Sound) (hd : e.draft = some d)
    (hp : p.Sound e.dict) : Proceeds (fun _ => compile d p) e := by
  cases ht : d.take p with
  | error f => exact .error (run_compile_error ht) he
  | ok d' => exact .ok (run_compile_ok ht) (he.withDraft ((he.draft hd).take hp ht)) rfl

theorem finishDraft (he : e.Sound) : Proceeds (fun _ => Primitive.finishDraft) e := by
  cases hd : e.draft with
  | none => exact .error (Primitive.run_finishDraft_none hd) he
  | some d =>
      cases hw : d.finish with
      | error f => exact .error (Primitive.run_finishDraft_error hd hw) he
      | ok w =>
          have hf := he.finish hd hw
          exact .ok (Primitive.run_finishDraft_ok hd hw) ⟨hf.dict, hf.draft⟩ rfl

theorem literal {d : Draft} (he : e.Sound) (hd : e.draft = some d) :
    Proceeds (fun _ => Primitive.exec .literal) e := by
  have hr : Proceeds (fun _ => do Run.compile d (.atom (.lit (← pop)))) e :=
    bind_alike (.of_tame .pop e) he fun n e' hs _ =>
      .compile (he.of_sameProgram hs) (hs.draft.trans hd) trivial
  exact hr.congr fun _ => Primitive.run_exec_literal hd

/-- A built-in word proceeds, and a compiling one does with a definition open or not. -/
theorem exec (he : e.Sound) (b : Builtin) : Proceeds (fun _ => Primitive.exec b) e := by
  cases acts e b with
  | finish => exact finishDraft he
  | literal hd => exact literal he hd
  | piece hd hp =>
      exact (compile he hd (Builtin.sound_of_piece? hp _)).congr fun _ => run_exec_piece hp hd
  | index hd =>
      exact (of_alike (.of_tame .loopIndex e) he).congr fun _ => Primitive.run_exec_index_none hd
  | refused hr => exact .error hr he
  | plain hb => exact of_alike (.of_tame (.exec hb) e) he

/-- Any entry of a sound dictionary proceeds. -/
theorem word (lim : Limits) (depth position : Nat) (he : e.Sound) :
    Proceeds (fun n => word lim n depth position) e := by
  cases hw : e.dict.get? position with
  | none => exact (error (run_fail _ e) he).congr fun _ => run_word_missing hw
  | some w =>
      cases hb : w.body with
      | builtin b => exact (exec he b).congr fun _ => run_word_builtin hw hb
      | compiled c =>
          exact of_alike (word_alike he.dict (Dictionary.callable_of_compiled hw hb)) he

/-- A token proceeds: it runs a word, or it adds a sound piece to the definition. -/
theorem token (lim : Limits) (text : String) (he : e.Sound) :
    Proceeds (fun n => token lim n text) e := by
  cases hd : e.draft with
  | none =>
      cases hf : e.dict.find? text with
      | some p => exact (word lim 0 p he).congr fun _ => run_token_word hd hf
      | none =>
          have hn : Proceeds (fun _ => do push (← lift (cellOf text))) e :=
            of_alike (.of_tame ((Tame.lift _).bind fun _ => .push _) e) he
          exact hn.congr fun _ => run_token_number hd hf
  | some d =>
      cases hf : e.dict.find? text with
      | some p =>
          obtain ⟨w, hw, _⟩ := Dictionary.get?_of_find? hf
          cases hi : w.immediate with
          | true => exact (word lim 0 p he).congr fun _ => run_token_immediate hd hf hw hi
          | false =>
              have hc : Piece.Sound e.dict (.atom (.call (.entry p))) := he.dict.callable hw hi
              exact (compile he hd hc).congr fun _ => run_token_call hd hf hw hi
      | none =>
          by_cases hn : Text.upper text = d.name
          · have hc : Piece.Sound e.dict (.atom (.call .itself)) := trivial
            exact (compile he hd hc).congr fun _ => run_token_own hd hf hn
          · have hl : Proceeds (fun _ => do
                Run.compile d (.atom (.lit (← lift (cellOf text))))) e :=
              bind_alike (.of_tame (.lift _) e) he fun _ e' hs _ =>
                compile (he.of_sameProgram hs) (hs.draft.trans hd) trivial
            exact hl.congr fun _ => run_token_literal hd hf hn

theorem startDraft (name : Option String) (he : e.Sound) :
    Proceeds (fun _ => startDraft name) e := by
  cases hd : e.draft with
  | some d => exact error (run_startDraft_some hd name) he
  | none =>
      cases name with
      | none => exact error (run_startDraft_missing hd) he
      | some name =>
          cases hn : Numeral.parse name with
          | ok n => exact error (run_startDraft_number hd hn) he
          | error x => exact ok (run_startDraft_ok hd hn) (he.withDraft (.start _ _)) rfl

/-- The tokens of a text proceed, one after the other. -/
theorem tokens (lim : Limits) (ts : List String) (he : e.Sound) :
    Proceeds (fun n => tokens lim n ts) e := by
  induction ts using tokens.induct generalizing e with
  | case1 => exact ok rfl he rfl
  | case2 => exact startDraft none he
  | case3 name rest ih => exact (startDraft (some name) he).bind fun e' he' _ => ih he'
  | case4 text rest hlast hname ih =>
      have hr : Proceeds (fun n => do
          Run.token lim n text
          Run.tokens lim n rest) e := (token lim text he).bind fun e' he' _ => ih he'
      exact hr.congr fun n => by rw [tokens.eq_4 lim n text rest hlast hname]

theorem line (lim : Limits) (line : String) (he : e.Sound) :
    Proceeds (fun n => do Run.tokens lim n (← lift (Token.ofText line))) e :=
  bind_alike (.of_tame (.lift _) e) he fun ts _ hs _ => tokens lim ts (he.of_sameProgram hs)

end Proceeds

end Run

end Forthlet
