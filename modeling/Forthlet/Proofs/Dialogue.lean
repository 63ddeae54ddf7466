import Mathlib.Data.List.Induction
import Forthlet.Prompt
import Forthlet.Proofs.Printing

/-!
# The prompt and what it passes over

The prompt interprets one line after the other and passes over blank ones. A line without tokens
would leave the engine as it is, but for the output that is kept, so it may be passed over. Blanks
are those of Unicode, though, and separators are those of ASCII: a line may be blank and hold a
token all the same, and such a line is lost. Of all other lines none is.
-/
namespace Forthlet

open Outcome Run

namespace Engine

/-- Interpret lines one after the other, however each of them goes. -/
def interpretAll (lim : Limits) (fuel : Nat) (lines : List String) (e : Engine) : Engine :=
  lines.foldl (fun e line => engine ((interpret lim fuel line).run e)) e

/-- The states differ in nothing but the chunks that are kept. -/
def SameButKept (e e' : Engine) : Prop :=
  ∃ out, e' = { e with console := ⟨out, e.console.listener⟩ }

theorem SameButKept.refl (e : Engine) : e.SameButKept e := ⟨e.console.out, rfl⟩

section
variable {e e' : Engine} {lim : Limits} {fuel : Nat} {line : String} {result : String}

/-- A report does not depend on the chunks that were kept. -/
theorem SameButKept.run_interpret (h : e.SameButKept e') :
    (interpret lim fuel line).run e' = (interpret lim fuel line).run e := by
  obtain ⟨out, rfl⟩ := h
  rfl

/-- A line without tokens only replaces the chunks that were kept. -/
theorem SameButKept.of_no_tokens (hts : Token.ofText line = .ok [])
    (hr : (interpret lim fuel line).run e = .ok result e') : e'.SameButKept e := by
  have hfeed : (feed lim fuel line).run { e with console := ⟨#[], none⟩ } =
      .ok () { e with console := ⟨#[], none⟩ } := by
    rw [run_feed, hts]
    rfl
  unfold interpret at hr
  simp only [EStateM.run] at hr hfeed
  rw [hfeed] at hr
  cases hr
  exact ⟨e.console.out, rfl⟩

end

section
variable {e : Engine} {lim : Limits} {fuel : Nat} {before lines : List String} {line : String}

theorem interpretAll_concat {result : String} {e' : Engine}
    (hr : (interpret lim fuel line).run (e.interpretAll lim fuel lines) = .ok result e') :
    e.interpretAll lim fuel (lines ++ [line]) = e' := by
  rw [interpretAll, List.foldl_append, List.foldl_cons, List.foldl_nil]
  exact congrArg engine hr

/-- When its turn comes, each of the lines gets a report. -/
def AnswersAll (lim : Limits) (fuel : Nat) (lines : List String) (e : Engine) : Prop :=
  ∀ before line after, lines = before ++ line :: after →
    ∃ result e', (interpret lim fuel line).run (e.interpretAll lim fuel before) = .ok result e'

theorem AnswersAll.isPrefix (h : e.AnswersAll lim fuel lines) (hp : before <+: lines) :
    e.AnswersAll lim fuel before := by
  obtain ⟨rest, rfl⟩ := hp
  intro earlier text later hsplit
  exact h earlier text (later ++ rest) (by rw [hsplit, List.append_assoc, List.cons_append])

/-- From every state of a session a line is done with at some point and reported on. -/
theorem exists_report (h : Reachable e) (lim : Limits) (line : String) :
    ∃ result e', Reachable e' ∧ Settles (fun n => interpret lim n line) e (.ok result e') := by
  obtain ⟨r, ⟨hended, n, hn⟩, -⟩ := feed_ready (h.ready.withConsole ⟨#[], none⟩) lim line
  have hreport : ∀ fuel, n ≤ fuel → (interpret lim fuel line).run e = _ :=
    fun fuel hle => run_interpret h.ready (hn fuel hle) hended
  have hended' : Ended ((interpret lim n line).run e) := by
    rw [hreport n (Nat.le_refl n)]
    trivial
  have hreach := Reachable.interpret lim n line h hended'
  rw [hreport n (Nat.le_refl n)] at hreach
  exact ⟨_, _, hreach, trivial, n, hreport⟩

/-- From some budget on, each line gets its report. -/
theorem exists_answersAll (h : Reachable e) (lim : Limits) (lines : List String) :
    ∃ n, ∀ fuel, n ≤ fuel → e.AnswersAll lim fuel lines := by
  induction lines generalizing e with
  | nil =>
      refine ⟨0, fun fuel _ before line after hsplit => ?_⟩
      simp at hsplit
  | cons first lines ih =>
      obtain ⟨result, e', he', -, n, hn⟩ := exists_report h lim first
      obtain ⟨k, hk⟩ := ih he'
      refine ⟨max n k, fun fuel hle before line after hsplit => ?_⟩
      have hfirst := hn fuel (by omega)
      rcases List.cons_eq_append_iff.mp hsplit with ⟨rfl, heq⟩ | ⟨before, rfl, hlines⟩
      · cases heq
        exact ⟨result, e', hfirst⟩
      · rw [interpretAll, List.foldl_cons, hfirst]
        exact hk fuel (by omega) before line after hlines

end

end Engine

namespace Prompt

variable {lim : Limits} {fuel : Nat} {e e' s : Engine} {line result : String}

/-- What the prompt shows for a line with this report. -/
def shown (line result : String) : String :=
  if Text.isBlankText line || result.isEmpty then "" else result ++ "\n"

/-- The prompt answers a line as interpreting it would, or passes over a line that would change
nothing. -/
theorem respond_line (h : e.SameButKept s)
    (hblank : Text.isBlankText line = true → Token.ofText line = .ok [])
    (hr : (interpret lim fuel line).run e = .ok result e') :
    ∃ s', respond lim fuel s (.line line) = (shown line result, s') ∧ e'.SameButKept s' := by
  rw [← h.run_interpret] at hr
  cases hb : Text.isBlankText line with
  | true => exact ⟨s, by simp [respond, shown, hb], .of_no_tokens (hblank hb) hr⟩
  | false => exact ⟨e', by simp [respond, shown, hb, hr], .refl e'⟩

/-- The last input is answered in the state that the others leave. -/
theorem transcript_concat (e : Engine) (inputs : List Input) (input : Input) :
    transcript lim fuel e (inputs ++ [input]) =
      ((transcript lim fuel e inputs).1 ++
          (respond lim fuel (transcript lim fuel e inputs).2 input).1 ++
          prompt (respond lim fuel (transcript lim fuel e inputs).2 input).2,
        (respond lim fuel (transcript lim fuel e inputs).2 input).2) := by
  induction inputs generalizing e with
  | nil => simp [transcript]
  | cons first inputs ih =>
      simp only [List.cons_append, transcript, ih]
      simp [String.append_assoc]

/-- A transcript ends with the prompt for the state that it leaves. -/
theorem exists_transcript (lim : Limits) (fuel : Nat) (e : Engine) (inputs : List Input) :
    ∃ earlier, (transcript lim fuel e inputs).1 =
      earlier ++ prompt (transcript lim fuel e inputs).2 := by
  induction inputs using List.reverseRecOn with
  | nil => exact ⟨"", by simp [transcript]⟩
  | append_singleton inputs input _ =>
      rw [transcript_concat]
      exact ⟨_, rfl⟩

theorem prompt_eq (h : e.SameButKept s) : prompt s = prompt e := by
  obtain ⟨out, rfl⟩ := h
  rfl

/-- The prompt follows the reports on all lines. -/
theorem follows_interpretAll {lines : List String}
    (hblank : ∀ line ∈ lines, Text.isBlankText line = true → Token.ofText line = .ok [])
    (hall : e.AnswersAll lim fuel lines) :
    (e.interpretAll lim fuel lines).SameButKept (transcript lim fuel e (lines.map .line)).2 := by
  induction lines using List.reverseRecOn with
  | nil => exact .refl e
  | append_singleton lines line ih =>
      have hbefore := ih (fun text hmem => hblank text (List.mem_append_left _ hmem))
        (hall.isPrefix (List.prefix_append _ _))
      obtain ⟨result, e', hr⟩ := hall lines line [] rfl
      obtain ⟨s', hrespond, hs'⟩ := respond_line hbefore (hblank line (by simp)) hr
      rw [Engine.interpretAll_concat hr, List.map_append, List.map_singleton, transcript_concat,
        hrespond]
      exact hs'

end Prompt

/-- The prompt takes its engine through the states that it has when every line is interpreted in
its turn, up to the output that is kept; before each line it shows the prompt for that state, and
after it what the line printed. It passes over a line in silence only if there is no token in it,
provided that all blank lines are without tokens. -/
theorem prompt_loses_no_line {e : Engine} (h : Reachable e) (lim : Limits) {lines : List String}
    (hblank : ∀ line ∈ lines, Text.isBlankText line = true → Token.ofText line = .ok []) :
    ∃ n, ∀ fuel, n ≤ fuel → ∀ before line after, lines = before ++ line :: after →
      ∃ result e' earlier shown,
        (interpret lim fuel line).run (e.interpretAll lim fuel before) = .ok result e' ∧
        (e.interpretAll lim fuel before).SameButKept
          (Prompt.transcript lim fuel e (before.map .line)).2 ∧
        e'.SameButKept (Prompt.transcript lim fuel e ((before ++ [line]).map .line)).2 ∧
        (Prompt.transcript lim fuel e (before.map .line)).1 =
          earlier ++ Prompt.prompt (e.interpretAll lim fuel before) ∧
        (Prompt.transcript lim fuel e ((before ++ [line]).map .line)).1 =
          earlier ++ Prompt.prompt (e.interpretAll lim fuel before) ++ shown ++
            Prompt.prompt e' ∧
        (shown = "" ∨ shown = result ++ "\n") ∧
        (Token.ofText line ≠ .ok [] → result ≠ "" → shown = result ++ "\n") := by
  obtain ⟨n, hn⟩ := Engine.exists_answersAll h lim lines
  refine ⟨n, fun fuel hle before line after hsplit => ?_⟩
  have hall := hn fuel hle
  obtain ⟨result, e', hr⟩ := hall before line after hsplit
  have hmem : ∀ text ∈ before, text ∈ lines := fun text htext =>
    hsplit ▸ List.mem_append_left _ htext
  have hkept := Prompt.follows_interpretAll (fun text htext => hblank text (hmem text htext))
    (hall.isPrefix ⟨line :: after, hsplit.symm⟩)
  obtain ⟨s', hrespond, hs'⟩ :=
    Prompt.respond_line hkept (hblank line (by simp [hsplit])) hr
  obtain ⟨earlier, hearlier⟩ := Prompt.exists_transcript lim fuel e (before.map .line)
  rw [Prompt.prompt_eq hkept] at hearlier
  refine ⟨result, e', earlier, Prompt.shown line result, hr, hkept, ?_, hearlier, ?_, ?_, ?_⟩
  · rw [List.map_append, List.map_singleton, Prompt.transcript_concat, hrespond]
    exact hs'
  · rw [List.map_append, List.map_singleton, Prompt.transcript_concat, hrespond, hearlier,
      Prompt.prompt_eq hs']
  · unfold Prompt.shown
    split
    · exact .inl rfl
    · exact .inr rfl
  · intro htokens hresult
    have hb : Text.isBlankText line = false :=
      Bool.eq_false_iff.mpr fun hb => htokens (hblank line (by simp [hsplit]) hb)
    have hne : result.isEmpty = false := by simpa using hresult
    rw [Prompt.shown, hb, hne]
    rfl

/-- A definition over three lines, one of them blank, its use and an unknown name. -/
def conversation : List String := [": SQ DUP", " ", "* ;", "3 SQ .", "FOO"]

theorem prompt_loses_no_line_conversation :
    (Prompt.transcript {} 100 .fresh (conversation.map .line)).1 =
      "ok>          ok\nok> 9  ok\nok> \n Error: Undefined: FOO\nok> " ∧
    ∃ n, ∀ fuel, n ≤ fuel → ∃ result e' earlier shown,
      (interpret {} fuel "* ;").run (Engine.fresh.interpretAll {} fuel [": SQ DUP", " "]) =
        .ok result e' ∧
      e'.SameButKept
        (Prompt.transcript {} fuel .fresh ([": SQ DUP", " ", "* ;"].map .line)).2 ∧
      (Prompt.transcript {} fuel .fresh ([": SQ DUP", " ", "* ;"].map .line)).1 =
        earlier ++ Prompt.prompt (Engine.fresh.interpretAll {} fuel [": SQ DUP", " "]) ++ shown ++
          Prompt.prompt e' := by
  have hblank : ∀ line ∈ conversation,
      Text.isBlankText line = true → Token.ofText line = .ok [] := by decide +kernel
  obtain ⟨n, hn⟩ := prompt_loses_no_line .fresh {} hblank
  refine ⟨by decide +kernel, n, fun fuel hle => ?_⟩
  obtain ⟨result, e', earlier, shown, hr, -, hs, -, ht, -⟩ :=
    hn fuel hle [": SQ DUP", " "] "* ;" ["3 SQ .", "FOO"] rfl
  exact ⟨result, e', earlier, shown, hr, hs, ht⟩

/-- A word is defined under a name that is a blank, but no separator, and is then called. -/
def blankNamed : List String := [": \u00a0 5 ;", "\u00a0"]

/-- The call is a blank line, and lost. -/
theorem prompt_loses_blank_name :
    ¬ ∀ (lines : List String) (fuel : Nat), Engine.fresh.AnswersAll {} fuel lines →
      (Engine.fresh.interpretAll {} fuel lines).SameButKept
        (Prompt.transcript {} fuel .fresh (lines.map .line)).2 := by
  intro hall
  have hfirst : (interpret {} 100 ": \u00a0 5 ;").run .fresh =
      .ok " ok" (Engine.fresh.interpretAll {} 100 [": \u00a0 5 ;"]) := by decide +kernel
  have hsecond : (interpret {} 100 "\u00a0").run
      (Engine.fresh.interpretAll {} 100 [": \u00a0 5 ;"]) =
        .ok " ok" (Engine.fresh.interpretAll {} 100 blankNamed) := by decide +kernel
  have hanswers : Engine.fresh.AnswersAll {} 100 blankNamed := by
    intro before line after hsplit
    rcases List.cons_eq_append_iff.mp hsplit with ⟨rfl, heq⟩ | ⟨before, rfl, hrest⟩
    · cases heq
      exact ⟨_, _, hfirst⟩
    · obtain ⟨rfl, heq⟩ := List.singleton_eq_append_iff.mp hrest |>.resolve_right (by simp)
      cases heq
      exact ⟨_, _, hsecond⟩
  obtain ⟨out, hout⟩ := hall blankNamed 100 hanswers
  have hfold : (Engine.fresh.interpretAll {} 100 blankNamed).stack = [5] := by decide +kernel
  have hprompt : (Prompt.transcript {} 100 .fresh (blankNamed.map .line)).2.stack = [] := by
    decide +kernel
  rw [hout, hfold] at hprompt
  cases hprompt

end Forthlet
