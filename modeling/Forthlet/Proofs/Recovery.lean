import Forthlet.Proofs.Growth
import Forthlet.Proofs.Journaling

/-!
# Recovery

A text that fails may have had effects before: words ran, and definitions were finished. What it
leaves behind is told by the tokens that were taken up until then. The definition in progress and
the running loops are gone, the entries are the old ones and those whose `;` was reached, and from
then on the engine is a fresh one that got these entries and the rest of the state.
-/
namespace Forthlet

open Outcome Run

namespace Engine

variable (lim : Limits) (fuel : Nat)

/-- The tokens that are taken up until one of them fails; a name is taken up by its colon. -/
def consumed (e : Engine) : List String → List String
  | [] => []
  | [":"] => [":"]
  | ":" :: name :: rest =>
    match (startDraft (some name)).run e with
    | .ok _ e' => ":" :: name :: consumed e' rest
    | .error _ _ => if e.compiling then [":"] else [":", name]
  | text :: rest =>
    match (token lim fuel text).run e with
    | .ok _ e' => text :: consumed e' rest
    | .error _ _ => [text]

/-- The word that is finished when the token is `;`, under whatever name. -/
def closes (e : Engine) (text : String) : Option Word := do
  let d ← e.draft
  let w ← (e.dict.find? text).bind e.dict.get?
  if w.body = .builtin .semicolon then d.finish.toOption else none

/-- The words that are finished until a token fails. -/
def closings (e : Engine) : List String → List Word
  | [] => []
  | [":"] => []
  | ":" :: name :: rest =>
    match (startDraft (some name)).run e with
    | .ok _ e' => closings e' rest
    | .error _ _ => []
  | text :: rest =>
    (e.closes text).toList ++
      match (token lim fuel text).run e with
      | .ok _ e' => closings e' rest
      | .error _ _ => []

section
variable {e : Engine} {text : String}

theorem closes_of_draft (hd : e.draft = none) : e.closes text = none := by
  simp [closes, hd]

theorem closes_of_find? (hf : e.dict.find? text = none) : e.closes text = none := by
  cases hd : e.draft <;> simp [closes, hd, hf]

theorem closes_of_word {d : Draft} {position : Nat} {w : Word} (hd : e.draft = some d)
    (hf : e.dict.find? text = some position) (hw : e.dict.get? position = some w) :
    e.closes text = if w.body = .builtin .semicolon then d.finish.toOption else none := by
  simp [closes, hd, hf, hw]

end

theorem consumed_isPrefix (ts : List String) (e : Engine) : e.consumed lim fuel ts <+: ts := by
  fun_induction consumed lim fuel e ts with
  | case1 => exact List.prefix_refl _
  | case2 => exact List.prefix_refl _
  | case3 e name rest _ e' _ ih => simpa using ih
  | case4 e name rest _ _ _ hd => simp
  | case5 e name rest _ _ _ hd => simp
  | case6 e text rest _ _ _ e' _ ih => simpa using ih
  | case7 e text rest => simp

end Engine

namespace Run

variable {lim : Limits} {fuel : Nat} {e e' : Engine} {f : Fault}

/-- Within a definition a colon fails, whatever follows it. -/
theorem run_tokens_nested {d : Draft} (hd : e.draft = some d) (rest : List String) :
    (tokens lim fuel (":" :: rest)).run e = .error (.fault (.nestedColon d.name)) e := by
  cases rest with
  | nil => exact run_startDraft_some hd none
  | cons name rest =>
      rw [tokens, EStateM.run_bind, run_startDraft_some hd]

theorem run_tokens_colon_cons (name : String) (rest : List String) :
    (tokens lim fuel (":" :: name :: rest)).run e =
      match (startDraft (some name)).run e with
      | .ok _ e' => (tokens lim fuel rest).run e'
      | .error s e' => .error s e' := by
  rw [tokens, EStateM.run_bind]
  cases (startDraft (some name)).run e <;> rfl

theorem run_tokens_cons {text : String} (h : text ≠ ":") (rest : List String) :
    (tokens lim fuel (text :: rest)).run e =
      match (token lim fuel text).run e with
      | .ok _ e' => (tokens lim fuel rest).run e'
      | .error s e' => .error s e' := by
  rw [tokens_cons h, EStateM.run_bind]
  cases (token lim fuel text).run e <;> rfl

theorem run_tokens_singleton {text : String} (h : text ≠ ":") :
    (tokens lim fuel [text]).run e = (token lim fuel text).run e := by
  rw [run_tokens_cons h]
  cases (token lim fuel text).run e <;> rfl

/-- What the cases of the recursion on tokens leave for a token that stands for itself. -/
theorem ne_colon {text : String} {rest : List String} (hlast : text = ":" → rest = [] → False)
    (hname : ∀ name rest', text = ":" → rest = name :: rest' → False) : text ≠ ":" := by
  intro h
  cases rest with
  | nil => exact hlast h rfl
  | cons name rest => exact hname name rest h rfl

/-- A run that fails depends on nothing behind the tokens that it took up, unless it fails for
want of a name. -/
theorem run_tokens_of_consumed {ts ts' : List String}
    (hr : (tokens lim fuel ts).run e = .error (.fault f) e') (hf : f ≠ .colonNeedsName)
    (hp : e.consumed lim fuel ts <+: ts') : (tokens lim fuel ts').run e = .error (.fault f) e' := by
  fun_induction Engine.consumed lim fuel e ts generalizing ts' with
  | case1 => cases hr
  | case2 e =>
      obtain ⟨rest, rfl⟩ := hp
      cases hd : e.draft with
      | none =>
          rw [tokens, run_startDraft_missing hd] at hr
          cases hr
          exact absurd rfl hf
      | some d =>
          rw [run_tokens_nested hd] at hr
          rw [← hr]
          exact run_tokens_nested hd rest
  | case3 e name rest _ e₁ hstart ih =>
      obtain ⟨rest', rfl⟩ := hp
      rw [run_tokens_colon_cons, hstart] at hr
      rw [List.cons_append, List.cons_append, run_tokens_colon_cons, hstart]
      exact ih hr (List.prefix_append _ _)
  | case4 e name rest s e₁ hstart hc =>
      obtain ⟨rest', rfl⟩ := hp
      obtain ⟨d, hd⟩ := Option.isSome_iff_exists.mp hc
      rw [run_tokens_nested hd] at hr
      rw [← hr]
      exact run_tokens_nested hd rest'
  | case5 e name rest s e₁ hstart hc =>
      obtain ⟨rest', rfl⟩ := hp
      rw [run_tokens_colon_cons, hstart] at hr
      rw [List.cons_append, List.cons_append, run_tokens_colon_cons, hstart]
      exact hr
  | case6 e text rest hlast hname _ e₁ htoken ih =>
      have hne := ne_colon hlast hname
      obtain ⟨rest', rfl⟩ := hp
      rw [run_tokens_cons hne, htoken] at hr
      rw [List.cons_append, run_tokens_cons hne, htoken]
      exact ih hr (List.prefix_append _ _)
  | case7 e text rest hlast hname s e₁ htoken =>
      have hne := ne_colon hlast hname
      obtain ⟨rest', rfl⟩ := hp
      rw [run_tokens_cons hne, htoken] at hr
      rw [List.cons_append, run_tokens_cons hne, htoken]
      exact hr

/-- A name is wanting only where the tokens end. -/
theorem consumed_of_colonNeedsName {ts : List String}
    (hr : (tokens lim fuel ts).run e = .error (.fault .colonNeedsName) e') :
    e.consumed lim fuel ts = ts := by
  fun_induction Engine.consumed lim fuel e ts with
  | case1 => rfl
  | case2 => rfl
  | case3 e name rest _ e₁ hstart ih =>
      rw [run_tokens_colon_cons, hstart] at hr
      rw [ih hr]
  | case4 e name rest s e₁ hstart hc =>
      obtain ⟨d, hd⟩ := Option.isSome_iff_exists.mp hc
      rw [run_tokens_nested hd] at hr
      cases hr
  | case5 e name rest s e₁ hstart hc =>
      rw [run_tokens_colon_cons, hstart] at hr
      cases hr
      cases ((KeepsEdits.startDraft name).error .refl hstart).2
  | case6 e text rest hlast hname _ e₁ htoken ih =>
      rw [run_tokens_cons (ne_colon hlast hname), htoken] at hr
      rw [ih hr]
  | case7 e text rest hlast hname s e₁ htoken =>
      rw [run_tokens_cons (ne_colon hlast hname), htoken] at hr
      cases hr
      cases ((KeepsEdits.token text).error .refl htoken).2

theorem dict_compile (d : Draft) (p : Piece) : (engine ((compile d p).run e)).dict = e.dict := by
  rw [compile]
  cases d.take p <;> rfl

/-- A built-in word other than `;` adds no entry. -/
theorem unmarked_exec {b : Builtin} (hb : b ≠ .semicolon) (e : Engine) :
    (engine ((Primitive.exec b).run e)).dict.unmarked = e.dict.unmarked := by
  cases acts e b with
  | finish => exact absurd rfl hb
  | literal hd =>
      rw [Primitive.run_exec_literal hd, EStateM.run_bind]
      cases hs : e.stack with
      | nil =>
          rw [run_pop_nil hs]
          rfl
      | cons n s =>
          rw [run_pop_cons hs]
          rfl
  | piece hd hp =>
      rw [run_exec_piece hp hd, dict_compile]
  | index hd =>
      rw [Primitive.run_exec_index_none hd]
      exact (Tame.loopIndex.neat e).sameProgram.dict
  | refused hr =>
      rw [hr]
      rfl
  | plain hb => exact ((Tame.exec hb).neat e).sameProgram.dict

/-- A word other than `;` adds no entry. -/
theorem unmarked_word {position : Nat} {w : Word} (he : e.dict.Sound)
    (hw : e.dict.get? position = some w) (hs : w.body ≠ .builtin .semicolon)
    (hended : Ended ((word lim fuel 0 position).run e)) :
    (engine ((word lim fuel 0 position).run e)).dict.unmarked = e.dict.unmarked := by
  cases hb : w.body with
  | builtin b =>
      rw [run_word_builtin hw hb]
      exact unmarked_exec (fun h => hs (h ▸ hb)) e
  | compiled c =>
      exact (neat_word he (Dictionary.callable_of_compiled hw hb) rfl hended).sameProgram.dict

/-- What is finished joins the entries, and is not marked yet. -/
theorem unmarked_finishDraft {d : Draft} (hd : e.draft = some d) :
    (engine (Primitive.finishDraft.run e)).dict.unmarked.toList =
      e.dict.unmarked.toList ++ d.finish.toOption.toList := by
  cases hw : d.finish with
  | error f =>
      rw [Primitive.run_finishDraft_error hd hw]
      simp [Except.toOption]
  | ok w =>
      have hunmarked : w.unmarked = w := by
        unfold Draft.finish at hw
        split at hw <;> cases hw
        rfl
      rw [Primitive.run_finishDraft_ok hd hw]
      simp [Except.toOption, engine, Engine.note, Dictionary.unmarked, Dictionary.add, hunmarked]

/-- A token adds the entry that it closes, if it closes one. -/
theorem unmarked_token {text : String} (he : e.Sound)
    (hended : Ended ((token lim fuel text).run e)) :
    (engine ((token lim fuel text).run e)).dict.unmarked.toList =
      e.dict.unmarked.toList ++ (e.closes text).toList := by
  cases hf : e.dict.find? text with
  | none =>
      rw [Engine.closes_of_find? hf]
      cases hd : e.draft with
      | none =>
          rw [run_token_number hd hf]
          cases cellOf text <;> simp [engine]
      | some d =>
          by_cases hn : Text.upper text = d.name
          · rw [run_token_own hd hf hn, dict_compile]
            simp
          · rw [run_token_literal hd hf hn]
            cases cellOf text with
            | error f => simp [engine]
            | ok n =>
                have hr : (do compile d (.atom (.lit (← lift (.ok n)))) : Run Unit).run e =
                    (compile d (.atom (.lit n))).run e := rfl
                rw [hr, dict_compile]
                simp
  | some k =>
      obtain ⟨w, hw, -⟩ := Dictionary.get?_of_find? hf
      cases hd : e.draft with
      | none =>
          rw [Engine.closes_of_draft hd]
          rw [run_token_word hd hf] at hended ⊢
          by_cases hs : w.body = .builtin .semicolon
          · have hr : (Primitive.exec .semicolon).run e = .error (.fault .straySemicolon) e :=
              Primitive.run_finishDraft_none hd
            rw [run_word_builtin hw hs, hr]
            simp
          · rw [unmarked_word he.dict hw hs hended]
            simp
      | some d =>
          rw [Engine.closes_of_word hd hf hw]
          cases hi : w.immediate with
          | false =>
              have hs : w.body ≠ .builtin .semicolon := by
                intro hs
                rw [he.dict.builtin hw hs] at hi
                cases hi
              rw [run_token_call hd hf hw hi, dict_compile, if_neg hs]
              simp
          | true =>
              rw [run_token_immediate hd hf hw hi] at hended ⊢
              by_cases hs : w.body = .builtin .semicolon
              · rw [run_word_builtin hw hs, if_pos hs]
                exact unmarked_finishDraft hd
              · rw [unmarked_word he.dict hw hs hended, if_neg hs]
                simp

theorem sound_of_token {text : String} (he : e.Sound)
    (hr : (token lim fuel text).run e = .ok () e') : e'.Sound :=
  (Proceeds.token lim text he).sound_of_run (fun _ hle => token_extends lim hle text) hr trivial

theorem startDraft_ok {name : String} {a : Unit}
    (hr : (startDraft (some name)).run e = .ok a e') :
    e' = { e with draft := some (Draft.start name) } := by
  cases hd : e.draft with
  | some d =>
      rw [run_startDraft_some hd] at hr
      cases hr
  | none =>
      cases hn : Numeral.parse name with
      | ok n =>
          rw [run_startDraft_number hd hn] at hr
          cases hr
      | error x =>
          rw [run_startDraft_ok hd hn] at hr
          cases hr
          rfl

theorem startDraft_error {name : Option String} {s : Stop}
    (hr : (startDraft name).run e = .error s e') : e' = e := by
  cases hd : e.draft with
  | some d =>
      rw [run_startDraft_some hd] at hr
      cases hr
      rfl
  | none =>
      cases name with
      | none =>
          rw [run_startDraft_missing hd] at hr
          cases hr
          rfl
      | some name =>
          cases hn : Numeral.parse name with
          | ok n =>
              rw [run_startDraft_number hd hn] at hr
              cases hr
              rfl
          | error x =>
              rw [run_startDraft_ok hd hn] at hr
              cases hr

/-- The entries after a run over tokens are the old ones and those that were closed. -/
theorem unmarked_tokens {ts : List String} (he : e.Sound)
    (hended : Ended ((tokens lim fuel ts).run e)) :
    (engine ((tokens lim fuel ts).run e)).dict.unmarked.toList =
      e.dict.unmarked.toList ++ e.closings lim fuel ts := by
  fun_induction Engine.closings lim fuel e ts with
  | case1 => simp [tokens, engine]
  | case2 e =>
      rw [tokens]
      cases hd : e.draft with
      | none =>
          rw [run_startDraft_missing hd]
          simp
      | some d =>
          rw [run_startDraft_some hd]
          simp
  | case3 e name rest _ e₁ hstart ih =>
      rw [run_tokens_colon_cons, hstart] at hended ⊢
      cases startDraft_ok hstart
      exact ih (he.withDraft (.start _ _)) hended
  | case4 e name rest s e₁ hstart =>
      rw [run_tokens_colon_cons, hstart]
      cases startDraft_error hstart
      simp
  | case5 e text rest hlast hname ih =>
      have hne := ne_colon hlast hname
      rw [run_tokens_cons hne] at hended ⊢
      have htoken : Ended ((token lim fuel text).run e) → _ := unmarked_token he
      cases hr : (token lim fuel text).run e with
      | ok a e₁ =>
          rw [hr] at hended htoken
          calc (engine ((tokens lim fuel rest).run e₁)).dict.unmarked.toList
              = e₁.dict.unmarked.toList ++ e₁.closings lim fuel rest :=
                ih e₁ (sound_of_token he hr) hended
            _ = e.dict.unmarked.toList ++ (e.closes text).toList ++
                  e₁.closings lim fuel rest := by rw [← htoken trivial]; rfl
            _ = _ := List.append_assoc _ _ _
      | error s e₁ =>
          rw [hr] at hended htoken
          simpa using htoken hended

end Run

/-- The tokens of a text, and none if it leaves a comment open. -/
def Token.all (text : String) : List String := (ofText text).toOption.getD []

theorem Token.ofText_error {text : String} {f : Fault} (h : ofText text = .error f) :
    f = .openComment := by
  simp only [ofText] at h
  split at h <;> cases h
  rfl

theorem Fault.eq_openComment {f : Fault} (h : f.kind = .malformedComment) : f = .openComment := by
  cases f <;> first | rfl | cases h

namespace Engine

/-- Nothing is open, nothing runs and nothing was recorded, but the words, the cells and what was
printed are still there. -/
def anew (e : Engine) : Engine :=
  { fresh with stack := e.stack, dict := e.dict, console := e.console }

/-- An engine that has dropped everything is a fresh one with another journal. -/
theorem shadows_anew {e : Engine} (hd : e.draft = none) (hl : e.loops = []) :
    Shadows e.journal #[] e e.anew := by
  have h : e.anew = { e with journal := #[] } := by
    obtain ⟨_, _, _, _, _, _⟩ := e
    cases hd
    cases hl
    rfl
  rw [h]
  exact .refl #[] e

/-- What is recorded before a reset only shows in the journal. -/
theorem exists_reset_note (e : Engine) (r r' : Record) :
    ∃ journal, (e.note r').reset = { (e.note r).reset with journal } := by
  unfold reset note
  cases e.draft with
  | none => exact ⟨_, rfl⟩
  | some d => exact ⟨_, rfl⟩

/-- How a text that fails with `f` leaves an engine that was in the state `e` before. -/
structure Recovers (lim : Limits) (fuel : Nat) (e : Engine) (line : String) (f : Fault)
    (e' : Engine) : Prop where
  draft : e'.draft = none
  loops : e'.loops = []
  /-- Whatever comes later, a fresh engine with the same words, cells and chunks answers the same. -/
  later : ∀ (fuel' : Nat) (inputs : List Input),
    (e'.anew.session fuel' inputs).1 = (e'.session fuel' inputs).1 ∧
      Shadows e'.journal #[] (e'.session fuel' inputs).2 (e'.anew.session fuel' inputs).2
  entries : e'.dict.unmarked.toList =
    e.dict.unmarked.toList ++ e.closings lim fuel (Token.all line)
  grows : e.dict.Grows e'.dict
  /-- All calls go to entries, and none to the definition that was given up. -/
  calls : ∀ {position target : Nat}, e'.dict.Calls position target →
    target ≤ position ∧ ∃ w, e'.dict.get? target = some w
  consumed : e.consumed lim fuel (Token.all line) <+: Token.all line
  /-- What follows the tokens that were taken up does not matter. -/
  rest : f.kind ≠ .malformedComment → f ≠ .colonNeedsName →
    ∀ {line' : String} {ts : List String}, Token.ofText line' = .ok ts →
      e.consumed lim fuel (Token.all line) <+: ts →
        ∃ journal, (feed lim fuel line').run e = .error (.fault f) { e' with journal }
  /-- A name is wanting only where the text ends. -/
  needsName : f = .colonNeedsName → e.consumed lim fuel (Token.all line) = Token.all line
  comment : f.kind = .malformedComment →
    e'.stack = e.stack ∧ e'.dict = e.dict ∧ e'.console = e.console

end Engine

namespace Run

variable {lim : Limits} {fuel : Nat} {line : String} {e e' : Engine} {f : Fault}

/-- Either a comment is open and no token has had an effect, or one of the tokens failed. -/
theorem fault_of_line {e₁ : Engine}
    (hr : (do tokens lim fuel (← lift (Token.ofText line)) : Run Unit).run e =
      .error (.fault f) e₁) :
    (f = .openComment ∧ e₁ = e ∧ Token.all line = []) ∨
      (f ≠ .openComment ∧ (tokens lim fuel (Token.all line)).run e = .error (.fault f) e₁) := by
  cases hts : Token.ofText line with
  | error x =>
      rw [hts] at hr
      cases hr
      exact .inl ⟨Token.ofText_error hts, rfl, by rw [Token.all, hts]; rfl⟩
  | ok ts =>
      have hall : Token.all line = ts := by
        rw [Token.all, hts]
        rfl
      rw [hts] at hr
      refine .inr ⟨?_, hall ▸ hr⟩
      rintro rfl
      exact ((KeepsEdits.tokens ts).error .refl hr).2 rfl

end Run

/-- After every text that fails the engine is ready for the next one. It is a fresh one but for the
words, the cells and what was printed; only the definitions whose `;` came before the fault are new
words; and nothing behind the token that failed has had an effect. -/
theorem feed_recovers {e e' : Engine} (h : Reachable e) {lim : Limits} {fuel : Nat} {line : String}
    {f : Fault} (hr : (feed lim fuel line).run e = .error (.fault f) e') :
    Engine.Recovers lim fuel e line f e' := by
  have htakes : e.Takes e' := by
    have hfeed := Engine.Takes.feed (e := e) lim fuel line (by rw [hr]; trivial)
    rwa [hr] at hfeed
  have hbackward := (Program.Edits.grows htakes.edits h.hosted.backward).2
  obtain ⟨hf, e₁, hline, rfl⟩ := fault_of_feed h.ready hr
  have hfault := fault_of_line hline
  have hdict : (e₁.note (.aborted line f)).reset.dict = e₁.dict := Engine.reset_dict _
  refine {
    draft := rfl
    loops := rfl
    later := (Engine.shadows_anew rfl rfl).session
    entries := ?_
    grows := h.grows (.single htakes)
    calls := Dictionary.Backward.calls hbackward.dict
    consumed := e.consumed_isPrefix lim fuel _
    rest := fun hk hname {line' ts} hts hp => ?_
    needsName := ?_
    comment := fun hk => ?_ }
  · rcases hfault with ⟨-, rfl, hall⟩ | ⟨-, hrun⟩
    · rw [hdict, hall, Engine.closings, List.append_nil]
    · have hended : Ended ((tokens lim fuel (Token.all line)).run e) := by
        rw [hrun]
        trivial
      have hentries := unmarked_tokens h.ready.sound hended
      rw [hrun] at hentries
      rw [hdict]
      exact hentries
  · rcases hfault with ⟨rfl, -, -⟩ | ⟨-, hrun⟩
    · exact absurd rfl hk
    · obtain ⟨journal, hj⟩ := Engine.exists_reset_note e₁ (.aborted line f) (.aborted line' f)
      have hline' : (do tokens lim fuel (← lift (Token.ofText line')) : Run Unit).run e =
          .error (.fault f) e₁ := by
        rw [hts]
        exact run_tokens_of_consumed hrun hname hp
      refine ⟨journal, ?_⟩
      rw [run_feed, hline', ← hj]
      simp only [recover, hf, if_true]
  · rintro rfl
    rcases hfault with ⟨hf, -, -⟩ | ⟨-, hrun⟩
    · cases hf
    · exact consumed_of_colonNeedsName hrun
  · obtain rfl := Fault.eq_openComment hk
    rcases hfault with ⟨-, rfl, -⟩ | ⟨hne, -⟩
    · exact ⟨Engine.reset_stack _, hdict, by unfold Engine.reset Engine.note; split <;> rfl⟩
    · exact absurd rfl hne

/-- A session whose first text defines a word, runs it and fails within the next definition. -/
def givenUp : Engine :=
  engine ((feed {} 100 ": SQ DUP * ; 3 SQ : BAD 1 FOO 7").run .fresh)

theorem feed_recovers_givenUp :
    givenUp.stack = [9] ∧
    Engine.fresh.consumed {} 100 (Token.all ": SQ DUP * ; 3 SQ : BAD 1 FOO 7") =
      [":", "SQ", "DUP", "*", ";", "3", "SQ", ":", "BAD", "1", "FOO"] ∧
    Engine.fresh.closings {} 100 (Token.all ": SQ DUP * ; 3 SQ : BAD 1 FOO 7") =
      [⟨"SQ", .compiled #[.call (.entry 21), .call (.entry 12)], false⟩] ∧
    Engine.Recovers {} 100 .fresh ": SQ DUP * ; 3 SQ : BAD 1 FOO 7" (.undefined "FOO") givenUp := by
  refine ⟨by decide +kernel, by decide +kernel, by decide +kernel, ?_⟩
  exact feed_recovers .fresh (by decide +kernel)

end Forthlet
