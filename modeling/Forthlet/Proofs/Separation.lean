import Forthlet.Proofs.Lines
import Forthlet.Proofs.Targets
import Forthlet.Proofs.Vocabulary

/-!
# Compile time and run time

The compiling words work on the definition in progress, and no compiled code calls them. So a
compiled word that runs in the midst of a definition leaves the definition as it was: it runs when
its name is read, nothing is compiled for it, and what it computed gets into the definition only by
a `LITERAL` behind it, as the same number would if it were written there.
-/
namespace Forthlet

open Outcome Run

namespace Outline

theorem mem_atoms_of_mem_opening {bs : List Bracket} {c : Callee} (h : .call c ∈ opening bs) :
    .call c ∈ bs.flatMap Bracket.atoms := by
  induction bs with
  | nil => cases h
  | cons B bs ih =>
      have hlayout : ∀ base, .call c ∈ B.layout base → .call c ∈ B.atoms := by
        intro base hB
        cases B with
        | ifThen b | doLoop b => exact Block.mem_atoms_of_mem_layout hB
        | ifElse b y =>
            simp only [Bracket.layout, List.mem_append, List.mem_cons, reduceCtorEq,
              false_or] at hB
            exact List.mem_append.mpr
              (hB.imp Block.mem_atoms_of_mem_layout Block.mem_atoms_of_mem_layout)
      have hjump : Instr.call c ≠ B.opener.jump := by
        cases B <;> simp [Bracket.opener, Opener.jump]
      rw [opening_cons, List.mem_append, List.mem_append, List.mem_singleton] at h
      rw [List.flatMap_cons, List.mem_append]
      rcases h with (h | h) | h
      · exact .inr (ih h)
      · exact .inl (hlayout _ h)
      · exact absurd h hjump

/-- Every call in the code of an outline is one of its atoms. -/
theorem mem_atoms_of_mem_code {o : Outline} {c : Callee} (h : .call c ∈ o.code) :
    .call c ∈ o.atoms := by
  rcases List.mem_append.mp h with h | h
  · exact List.mem_append_left _ (mem_atoms_of_mem_opening h)
  · exact List.mem_append_right _ (Block.mem_atoms_of_mem_layout h)

end Outline

/-- The definition in progress calls only words that may be called. -/
theorem Draft.Sound.callable {dict : Dictionary} {d : Draft} {k : Nat} (h : d.Sound dict)
    (hk : .call (.entry k) ∈ d.code) : dict.Callable k := by
  obtain ⟨o, ho, ha⟩ := h
  rw [ho] at hk
  exact ha _ (Outline.mem_atoms_of_mem_code (List.mem_toArray.mp hk))

namespace Engine

/-- The states differ in nothing but what was printed and recorded. -/
def SameButOutput (e e' : Engine) : Prop := ∃ console journal, e' = { e with console, journal }

theorem SameButOutput.mute : Mute SameButOutput :=
  .of_sinks (S := fun _ _ _ _ => True) (by simp [SameButOutput]) (fun h _ => h) fun h _ => h

end Engine

namespace Run

variable {lim : Limits} {fuel : Nat}

theorem Mute.feedAll {R : Engine → Engine → Prop} (hR : Mute R) (lines : List String) :
    Twins R (feedAll lim fuel lines) (feedAll lim fuel lines) Eq := by
  induction lines with
  | nil => exact .pure ()
  | cons line lines ih => exact (hR.feed line).bind_eq fun _ => ih

/-- Which line was given up only shows in the journal. -/
theorem twin_recover_output {r r' : Outcome Unit} (line line' : String)
    (h : Twin Engine.SameButOutput Eq r r') :
    Twin Engine.SameButOutput Eq (recover line r) (recover line' r') := by
  apply twin_recover_of h
  rintro e _ f ⟨console, journal, rfl⟩
  apply Engine.SameButOutput.mute.reset
  exact ⟨console, journal.push (.aborted line' f), rfl⟩

/-- Lines whose tokens end alike are followed by whatever texts alike. -/
theorem twin_feedAll {line line' : String} {ts ts' : List String} {e : Engine}
    (hline : Token.ofText line = .ok ts) (hline' : Token.ofText line' = .ok ts')
    (h : Twin Engine.SameButOutput Eq ((tokens lim fuel ts).run e) ((tokens lim fuel ts').run e))
    (more : List String) :
    Twin Engine.SameButOutput Eq ((feedAll lim fuel (line :: more)).run e)
      ((feedAll lim fuel (line' :: more)).run e) := by
  have hfeed := twin_recover_output line line' h
  rw [← run_feed_of_ofText hline, ← run_feed_of_ofText hline'] at hfeed
  rw [feedAll, feedAll, EStateM.run_bind, EStateM.run_bind]
  revert hfeed
  generalize (feed lim fuel line).run e = r
  generalize (feed lim fuel line').run e = r'
  intro hfeed
  cases hfeed with
  | ok h hq => exact Engine.SameButOutput.mute.feedAll more _ _ h
  | error h => exact .error h

end Run

namespace Engine

/-- Behind the tokens `us` the definition `d` is in progress, and `text` is the name of a compiled
word that runs at once. -/
structure Meets (lim : Limits) (fuel : Nat) (e : Engine) (us : List String) (e₁ : Engine) (d : Draft)
    (text : String) (position : Nat) : Prop where
  before : (tokens lim fuel us).run e = .ok () e₁
  draft : e₁.draft = some d
  colon : text ≠ ":"
  find : e₁.dict.find? text = some position
  word : ∃ w c, e₁.dict.get? position = some w ∧ w.body = .compiled c ∧ w.immediate = true

/-- What a compiled word that runs at once does to the definition `d` that its name is in. -/
structure Expands (lim : Limits) (fuel : Nat) (e : Engine) (us : List String) (e₁ : Engine)
    (d : Draft) (text : String) (position : Nat) : Prop where
  /-- The word ends, and however it ends the program is the same but for marks. -/
  settles : ∃ r, Settles (fun n => Run.word lim n 0 position) e₁ r ∧ e₁.SameProgram (engine r)
  /-- Its name runs it once, and the tokens behind the name are read from where it leads. -/
  once : ∀ rest, (tokens lim fuel (us ++ text :: rest)).run e =
    (do Run.word lim fuel 0 position; tokens lim fuel rest : Run Unit).run e₁
  returns : ∀ {e₂}, (Run.word lim fuel 0 position).run e₁ = .ok () e₂ →
    e₂.draft = some d ∧ e₂.dict.unmarked = e₁.dict.unmarked ∧ e₂.loops = e₁.loops
  /-- `LITERAL` compiles the cell that the word left on top. -/
  literal : ∀ {e₂ lit k v s}, (Run.word lim fuel 0 position).run e₁ = .ok () e₂ →
    e₂.dict.find? lit = some k → e₂.dict.get? k = some (Word.ofBuiltin .literal) →
    e₂.stack = v :: s → Cell.InRange v ∧
      ∀ rest, (tokens lim fuel (us ++ text :: lit :: rest)).run e =
        (tokens lim fuel rest).run { e₂ with stack := s, draft := some (d.append (.lit v)) }
  /-- If the word does no more than to push a cell, its name and `LITERAL` may be replaced by the
  number. -/
  number : ∀ {e₂ lit k v num}, (Run.word lim fuel 0 position).run e₁ = .ok () e₂ →
    e₂.dict.find? lit = some k → e₂.dict.get? k = some (Word.ofBuiltin .literal) →
    e₂.stack = v :: e₁.stack → e₂.dict = e₁.dict →
    Numeral.parse num = .ok v → e₁.dict.find? num = none → Text.upper num ≠ d.name →
    ∀ {line line' rest}, Token.ofText line = .ok (us ++ text :: lit :: rest) →
      Token.ofText line' = .ok (us ++ num :: rest) →
      ∀ more, Twin SameButOutput Eq ((feedAll lim fuel (line :: more)).run e)
        ((feedAll lim fuel (line' :: more)).run e)

end Engine

namespace Engine.Meets

variable {lim : Limits} {fuel position k : Nat} {e e₁ e₂ : Engine} {us : List String} {d : Draft}
  {text lit num : String} {v : Int} {s : List Int}

theorem sound (h : Engine.Meets lim fuel e us e₁ d text position) (he : e.Sound) : e₁.Sound :=
  (Proceeds.tokens lim us he).sound_of_run (fun _ hle => tokens_extends lim hle us) h.before trivial

theorem alike (h : Engine.Meets lim fuel e us e₁ d text position) (he : e.Sound) :
    Alike (fun n => Run.word lim n 0 position) (fun n => Run.word lim n 0 position) e₁ := by
  obtain ⟨w, c, hw, hc, -⟩ := h.word
  exact word_alike (h.sound he).dict (Dictionary.callable_of_compiled hw hc)

theorem once (h : Engine.Meets lim fuel e us e₁ d text position) (rest : List String) :
    (tokens lim fuel (us ++ text :: rest)).run e =
      (do Run.word lim fuel 0 position; tokens lim fuel rest : Run Unit).run e₁ := by
  obtain ⟨w, c, hw, -, hi⟩ := h.word
  rw [run_tokens_append h.before, tokens_cons h.colon, EStateM.run_bind, EStateM.run_bind,
    run_token_immediate h.draft h.find hw hi]

theorem neat (h : Engine.Meets lim fuel e us e₁ d text position) (he : e.Sound)
    (hr : (Run.word lim fuel 0 position).run e₁ = .ok () e₂) :
    e₁.SameProgram e₂ ∧ e₂.loops = e₁.loops := by
  obtain ⟨w, c, hw, hc, -⟩ := h.word
  exact neat_word (h.sound he).dict (Dictionary.callable_of_compiled hw hc) hr trivial

/-- What the word left on top is a cell, and `LITERAL` compiles it. -/
theorem run_literal (h : Engine.Meets lim fuel e us e₁ d text position) (he : e.Sound)
    (hr : (Run.word lim fuel 0 position).run e₁ = .ok () e₂) (hk : e₂.dict.find? lit = some k)
    (hw : e₂.dict.get? k = some (Word.ofBuiltin .literal)) (hs : e₂.stack = v :: s)
    (rest : List String) :
    (tokens lim fuel (us ++ text :: lit :: rest)).run e =
      (tokens lim fuel rest).run { e₂ with stack := s, draft := some (d.append (.lit v)) } := by
  have hd : e₂.draft = some d := (h.neat he hr).1.draft.trans h.draft
  have hcolon : lit ≠ ":" := by
    rintro rfl
    obtain ⟨w, hw', hname⟩ := Dictionary.get?_of_find? hk
    rw [hw] at hw'
    cases hw'
    exact absurd hname (by decide +kernel)
  have hlit : (token lim fuel lit).run e₂ =
      .ok () { e₂ with stack := s, draft := some (d.append (.lit v)) } := by
    rw [run_token_immediate hd hk hw rfl, run_word_builtin hw rfl, Primitive.run_exec_literal hd,
      EStateM.run_bind, run_pop_cons hs]
    rfl
  rw [h.once, EStateM.run_bind, hr]
  simp only
  rw [run_tokens_cons hcolon, hlit]

/-- A number at the place of the name is compiled as well. -/
theorem run_number (h : Engine.Meets lim fuel e us e₁ d text position)
    (hparse : Numeral.parse num = .ok v) (hrange : Cell.InRange v)
    (hfind : e₁.dict.find? num = none) (hname : Text.upper num ≠ d.name) (rest : List String) :
    (tokens lim fuel (us ++ num :: rest)).run e =
      (tokens lim fuel rest).run { e₁ with draft := some (d.append (.lit v)) } := by
  have hcolon : num ≠ ":" := by
    rintro rfl
    exact Dictionary.Reads.parse_colon hparse
  have hnum : (token lim fuel num).run e₁ = .ok () { e₁ with draft := some (d.append (.lit v)) } := by
    rw [run_token_literal h.draft hfind hname, cellOf_of_parse hparse hrange]
    rfl
  rw [run_tokens_append h.before, run_tokens_cons hcolon, hnum]

theorem inRange_top (h : Engine.Meets lim fuel e us e₁ d text position) (he : e.Ranged)
    (hr : (Run.word lim fuel 0 position).run e₁ = .ok () e₂) (hs : e₂.stack = v :: s) :
    Cell.InRange v := by
  have he₁ : e₁.Ranged := ((KeepsRange.tokens us).ok he h.before).1
  have he₂ : e₂.Ranged := (KeepsRange.word.ok he₁ hr).1
  exact he₂.stack v (by simp [hs])

theorem expands (h : Engine.Meets lim fuel e us e₁ d text position) (he : e.Ready) :
    Engine.Expands lim fuel e us e₁ d text position where
  settles := by
    obtain ⟨r, hr, -, hn⟩ := h.alike he.sound
    exact ⟨r, hr, hn.sameProgram⟩
  once := h.once
  returns hr := by
    obtain ⟨hs, hl⟩ := h.neat he.sound hr
    exact ⟨hs.draft.trans h.draft, hs.dict, hl⟩
  literal hr hk hw hs :=
    ⟨h.inRange_top he.ranged hr hs, fun rest => h.run_literal he.sound hr hk hw hs rest⟩
  number {e₂ lit k v num} hr hk hw hs hdict hparse hfind hname line line' rest hline hline' more := by
    refine twin_feedAll hline hline' ?_ more
    rw [h.run_literal he.sound hr hk hw hs,
      h.run_number hparse (h.inRange_top he.ranged hr hs) hfind hname]
    -- The word gave back the loops and the definition, so only the output can tell the two apart.
    have hsame : Engine.SameButOutput
        { e₂ with stack := e₁.stack, draft := some (d.append (.lit v)) }
        { e₁ with draft := some (d.append (.lit v)) } := by
      refine ⟨e₁.console, e₁.journal, ?_⟩
      rw [hdict, (h.neat he.sound hr).2]
    exact Engine.SameButOutput.mute.tokens rest _ _ hsame

end Engine.Meets

/-- In every state of a session no call goes to a compiling word. So a compiled word that runs,
from any stacks and at any depth, keeps the entries and the definition in progress, whether it
returns or fails; and where its name stands in a definition that it is to run at once for, it runs
there, once, and leaves it to `LITERAL` to compile what it computed. -/
theorem run_time_apart {e : Engine} (h : Reachable e) :
    (∀ {position target : Nat}, e.dict.Calls position target → e.dict.Callable target) ∧
    (∀ {d : Draft} {k : Nat}, e.draft = some d → .call (.entry k) ∈ d.code → e.dict.Callable k) ∧
    (∀ {position : Nat} {w : Word} {c : Code}, e.dict.get? position = some w →
      w.body = .compiled c → ∀ (lim : Limits) (depth : Nat) (stack : List Int)
        (loops : List Frame), ∃ r,
        Settles (fun n => word lim n depth position) { e with stack, loops } r ∧
        Engine.SameProgram { e with stack, loops } (engine r)) ∧
    ∀ {lim : Limits} {fuel : Nat} {us : List String} {e₁ : Engine} {d : Draft} {text : String}
      {position : Nat}, Engine.Meets lim fuel e us e₁ d text position →
        Engine.Expands lim fuel e us e₁ d text position := by
  have hsound := h.ready.sound
  refine ⟨hsound.dict.callable_of_calls, fun hd hk => (hsound.draft hd).callable hk,
    fun {position w c} hw hc lim depth stack loops => ?_, fun hm => hm.expands h.ready⟩
  have halike : Alike (fun n => word lim n depth position) (fun n => word lim n depth position)
      { e with stack, loops } := word_alike hsound.dict (Dictionary.callable_of_compiled hw hc)
  obtain ⟨r, hr, -, hn⟩ := halike
  exact ⟨r, hr, hn.sameProgram⟩

/-- A session with a word that runs at once and pushes a number. -/
def fiving : Engine := engine ((feed {} 100 ": FIVE 5 ; IMMEDIATE").run .fresh)

theorem run_time_apart_fiving :
    (engine ((feed {} 100 ": TEN FIVE LITERAL 2 * ;").run fiving)).dict.get? 37 =
      some ⟨"TEN", .compiled #[.lit 5, .lit 2, .call (.entry 12)], false⟩ ∧
    ∀ more, Twin Engine.SameButOutput Eq
      ((feedAll {} 100 (": TEN FIVE LITERAL 2 * ;" :: more)).run fiving)
      ((feedAll {} 100 (": TEN 5 2 * ;" :: more)).run fiving) := by
  have hreach : Reachable fiving := .feed _ _ _ .fresh (by decide +kernel)
  have hword : fiving.dict.get? 36 = some ⟨"FIVE", .compiled #[.lit 5], true⟩ := by decide +kernel
  have hmeets : Engine.Meets {} 100 fiving [":", "TEN"]
      { fiving with draft := some ⟨"TEN", #[], []⟩ } ⟨"TEN", #[], []⟩ "FIVE" 36 :=
    ⟨by decide +kernel, rfl, by decide, by decide +kernel, _, _, hword, rfl, rfl⟩
  have hrun : (word {} 100 0 36).run { fiving with draft := some ⟨"TEN", #[], []⟩ } =
      .ok () { fiving with stack := [5], draft := some ⟨"TEN", #[], []⟩ } := by decide +kernel
  have hline : Token.ofText ": TEN FIVE LITERAL 2 * ;" =
      .ok ([":", "TEN"] ++ "FIVE" :: "LITERAL" :: ["2", "*", ";"]) := by decide +kernel
  have hline' : Token.ofText ": TEN 5 2 * ;" = .ok ([":", "TEN"] ++ "5" :: ["2", "*", ";"]) := by
    decide +kernel
  refine ⟨by decide +kernel, fun more => ?_⟩
  exact ((run_time_apart hreach).2.2.2 hmeets).number (k := 3) (v := 5) hrun (by decide +kernel)
    (by decide +kernel) (by decide +kernel) rfl (by decide +kernel) (by decide +kernel)
    (by decide +kernel) hline hline' more

end Forthlet
