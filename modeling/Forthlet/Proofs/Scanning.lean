import Mathlib.Data.List.Induction
import Forthlet.Token

/-!
# Reading tokens by single characters

The reader jumps from token to token and over whole comments. An automaton with four modes does
the same by looking at one character after the other: it stands between tokens, in a token, in
parentheses or in a comment to the end of the line. What it does with a text that follows another
one depends on the mode alone that the first text leads to, so the laws of joined texts are read
off it.
-/
namespace Forthlet.Token

/-- Where the automaton stands. -/
inductive Mode where
  | gap
  /-- In a token that starts with these characters. -/
  | word (text : List Char)
  | parens
  | line
  deriving DecidableEq, Repr

namespace Mode

/-- The mode after a character outside comments, where `text` is the token in progress. -/
def outside (text : List Char) (c : Char) : Mode :=
  if isSeparator c then .gap
  else if c = '(' then .parens
  else if c = '\\' then .line
  else .word (text ++ [c])

def step : Mode → Char → Mode
  | gap, c => outside [] c
  | word text, c => outside text c
  | parens, c => if c = ')' then .gap else .parens
  | line, c => if c = '\n' then .gap else .line

/-- The token in progress, if there is one. -/
def pending : Mode → List String
  | word text => [String.ofList text]
  | _ => []

/-- What ends the comment, if there is one. -/
def stop? : Mode → Option Char
  | parens => some ')'
  | line => some '\n'
  | _ => none

end Mode

/-- The tokens that are complete, and where the automaton stands behind them. -/
structure Scan where
  tokens : List String
  mode : Mode
  deriving DecidableEq, Repr

namespace Scan

def start : Scan := ⟨[], .gap⟩

/-- The tokens so far, if the one in progress ends here. -/
def flush (s : Scan) : List String := s.tokens ++ s.mode.pending

/-- A token in progress is complete when it meets a character that is none of its own. -/
def step (s : Scan) (c : Char) : Scan :=
  ⟨if isWordChar c then s.tokens else s.flush, s.mode.step c⟩

def run (s : Scan) (cs : List Char) : Scan := cs.foldl step s

/-- The end of the text ends a token and a comment to the end of the line, but no parentheses. -/
def reading (s : Scan) : Reading := ⟨s.flush, s.mode = .parens⟩

end Scan

/-- The automaton, from the start of a text to its end. -/
def scan (cs : List Char) : Scan := Scan.start.run cs

theorem isWordChar_eq_true {c : Char} :
    isWordChar c = true ↔ ¬ isSeparator c = true ∧ c ≠ '(' ∧ c ≠ '\\' := by
  simp [isWordChar, and_assoc]

/-- What ends a token. -/
theorem stop_cases {c : Char} (h : isWordChar c = false) :
    isSeparator c = true ∨ c = '(' ∨ c = '\\' := by
  simp only [isWordChar, Bool.not_eq_false', Bool.or_eq_true, decide_eq_true_eq, or_assoc] at h
  exact h

namespace Mode

variable {c : Char} {text : List Char}

@[simp] theorem pending_gap : pending gap = [] := rfl

@[simp] theorem pending_word (text : List Char) :
    pending (word text) = [String.ofList text] := rfl

theorem outside_word (h : isWordChar c = true) : outside text c = .word (text ++ [c]) := by
  obtain ⟨hs, hp, hb⟩ := isWordChar_eq_true.mp h
  rw [outside, if_neg hs, if_neg hp, if_neg hb]

/-- What ends a token leads to the same mode, whatever the token was. -/
theorem outside_stop (h : isWordChar c = false) (text' : List Char) :
    outside text c = outside text' c := by
  rcases stop_cases h with hs | rfl | rfl
  · rw [outside, outside, if_pos hs, if_pos hs]
  · rfl
  · rfl

/-- What ends a token starts no other one. -/
theorem pending_outside (h : isWordChar c = false) : (outside text c).pending = [] := by
  rcases stop_cases h with hs | rfl | rfl
  · rw [outside, if_pos hs, pending_gap]
  · rfl
  · rfl

theorem outside_ne_parens (h : c ≠ '(') : outside text c ≠ .parens := by
  unfold outside
  split
  · nofun
  · split <;> nofun

/-- In a comment only its end is seen. -/
theorem step_of_stop? {m : Mode} {stop : Char} (h : m.stop? = some stop) (c : Char) :
    m.step c = if c = stop then .gap else m := by
  cases m <;> cases h <;> rfl

theorem pending_of_stop? {m : Mode} {stop : Char} (h : m.stop? = some stop) : m.pending = [] := by
  cases m <;> cases h <;> rfl

end Mode

namespace Scan

variable {s : Scan} {ts : List String} {c : Char} {cs text : List Char}

@[simp] theorem run_nil (s : Scan) : s.run [] = s := rfl

@[simp] theorem run_cons (s : Scan) (c : Char) (cs : List Char) :
    s.run (c :: cs) = (s.step c).run cs := rfl

theorem run_append (s : Scan) (cs ds : List Char) : s.run (cs ++ ds) = (s.run cs).run ds :=
  List.foldl_append

@[simp] theorem flush_gap (ts : List String) : flush ⟨ts, .gap⟩ = ts := List.append_nil ts

/-- A character of a token continues it, or starts one. -/
theorem step_word (h : isWordChar c = true) :
    step ⟨ts, .word text⟩ c = ⟨ts, .word (text ++ [c])⟩ := by
  rw [step, if_pos h, Mode.step, Mode.outside_word h]

/-- A character between tokens ends the one in progress. -/
theorem step_stop (hc : isWordChar c = false) (hp : s.mode ≠ .parens) (hl : s.mode ≠ .line) :
    s.step c = step ⟨s.flush, .gap⟩ c := by
  obtain ⟨ts, mode⟩ := s
  cases mode with
  | gap => simp [step]
  | word text => simp [step, hc, Mode.step, Mode.outside_stop hc []]
  | parens => exact absurd rfl hp
  | line => exact absurd rfl hl

theorem run_word (h : ∀ c ∈ cs, isWordChar c = true) :
    run ⟨ts, .word text⟩ cs = ⟨ts, .word (text ++ cs)⟩ := by
  induction cs generalizing text with
  | nil => simp
  | cons c cs ih =>
      obtain ⟨hc, hcs⟩ := List.forall_mem_cons.mp h
      rw [run_cons, step_word hc, ih hcs, List.append_assoc, List.singleton_append]

theorem step_gap_word (h : isWordChar c = true) : step ⟨ts, .gap⟩ c = ⟨ts, .word [c]⟩ := by
  rw [step, if_pos h, Mode.step, Mode.outside_word h, List.nil_append]

section
variable {m : Mode} {stop : Char} (hm : m.stop? = some stop)
include hm

theorem step_comment (c : Char) : step ⟨ts, m⟩ c = ⟨ts, if c = stop then .gap else m⟩ := by
  simp [step, flush, Mode.pending_of_stop? hm, Mode.step_of_stop? hm]

theorem run_open_comment (h : stop ∉ cs) : run ⟨ts, m⟩ cs = ⟨ts, m⟩ := by
  induction cs with
  | nil => rfl
  | cons c cs ih =>
      obtain ⟨hc, hcs⟩ := List.ne_and_not_mem_of_not_mem_cons h
      rw [run_cons, step_comment hm, if_neg (Ne.symm hc), ih hcs]

theorem run_comment (h : stop ∉ cs) (more : List Char) :
    run ⟨ts, m⟩ (cs ++ stop :: more) = run ⟨ts, .gap⟩ more := by
  rw [run_append, run_open_comment hm h, run_cons, step_comment hm, if_pos rfl]

end

theorem step_separator (h : isSeparator c = true) : step ⟨ts, .gap⟩ c = ⟨ts, .gap⟩ := by
  have hc : isWordChar c = false := by simp [isWordChar, h]
  simp [step, hc, Mode.step, Mode.outside, h]

theorem step_open_parens (ts : List String) : step ⟨ts, .gap⟩ '(' = ⟨ts, .parens⟩ := by
  simp [step, isWordChar, Mode.step, Mode.outside, isSeparator]

theorem step_backslash (ts : List String) : step ⟨ts, .gap⟩ '\\' = ⟨ts, .line⟩ := by
  simp [step, isWordChar, Mode.step, Mode.outside, isSeparator]

/-- A token ends where the first character stands that is none of its own. -/
theorem reading_run_word (ts : List String) (text cs : List Char) :
    (run ⟨ts, .word text⟩ cs).reading =
      (run ⟨ts ++ [String.ofList (text ++ cs.takeWhile isWordChar)], .gap⟩
        (cs.dropWhile isWordChar)).reading := by
  induction cs generalizing text with
  | nil => simp [reading, flush, Mode.pending]
  | cons c cs ih =>
      by_cases hc : isWordChar c = true
      · rw [run_cons, step_word hc, ih, List.takeWhile_cons_of_pos hc,
          List.dropWhile_cons_of_pos hc, List.append_assoc, List.singleton_append]
      · rw [run_cons, step_stop (Bool.eq_false_iff.mpr hc) (by simp) (by simp),
          List.takeWhile_cons_of_neg hc, List.dropWhile_cons_of_neg hc, List.append_nil]
        rfl

/-- A comment to the end of the line leaves the line end behind, which is a separator. -/
theorem reading_run_line (ts : List String) (cs : List Char) :
    (run ⟨ts, .line⟩ cs).reading = (run ⟨ts, .gap⟩ (cs.dropWhile (· ≠ '\n'))).reading := by
  induction cs with
  | nil => rfl
  | cons c cs ih =>
      rw [run_cons, step_comment rfl]
      by_cases hc : c = '\n'
      · rw [if_pos hc, List.dropWhile_cons_of_neg (by simp [hc]), run_cons, hc,
          step_separator rfl]
      · rw [if_neg hc, ih, List.dropWhile_cons_of_pos (by simp [hc])]

/-- Where the reader looks for the next token, the automaton comes to its end. -/
theorem reading_run_gap (ts : List String) (cs : List Char) :
    (run ⟨ts, .gap⟩ cs).reading = match next cs with
      | .finished => ⟨ts, false⟩
      | .unclosed => ⟨ts, true⟩
      | .word text rest => (run ⟨ts ++ [String.ofList text], .gap⟩ rest).reading := by
  fun_induction next cs with
  | case1 => simp [reading]
  | case2 c cs hs ih => rw [run_cons, step_separator hs, ih]
  | case3 cs hclosed hs ih =>
      obtain ⟨ds, more, rfl, hds⟩ := List.eq_append_cons_of_mem (List.contains_iff_mem.mp hclosed)
      have hdrop : (ds ++ ')' :: more).dropWhile (· ≠ ')') = ')' :: more := by
        have hne : ∀ d ∈ ds, d ≠ ')' := fun d hd h => hds (h ▸ hd)
        rw [List.dropWhile_append_of_pos (by simpa using hne)]
        rfl
      rw [hdrop] at ih ⊢
      rw [run_cons, step_open_parens, run_comment rfl hds]
      exact ih
  | case4 cs hclosed hs =>
      have hcs : ')' ∉ cs := fun h => hclosed (List.contains_iff_mem.mpr h)
      rw [run_cons, step_open_parens, run_open_comment rfl hcs]
      simp [reading, flush, Mode.pending]
  | case5 cs hs hp ih => rw [run_cons, step_backslash, reading_run_line, ih]
  | case6 c cs hs hp hb =>
      have hc : isWordChar c = true := isWordChar_eq_true.mpr ⟨hs, hp, hb⟩
      rw [run_cons, step_gap_word hc, reading_run_word]
      rfl

end Scan

/-- The automaton goes through the tokens as the reader does. -/
theorem reading_run (ts : List String) (cs : List Char) :
    (Scan.run ⟨ts, .gap⟩ cs).reading = ⟨ts ++ (read cs).tokens, (read cs).unclosed⟩ := by
  -- Each token leaves a shorter text.
  induction hn : cs.length using Nat.strongRecOn generalizing ts cs with
  | ind n ih =>
      rw [read_eq, Scan.reading_run_gap]
      cases hcs : next cs with
      | finished => simp
      | unclosed => simp
      | word text rest =>
          simp only
          rw [ih rest.length (hn ▸ next_rest_lt hcs) _ rest rfl, List.append_assoc,
            List.singleton_append]

theorem read_eq_reading (cs : List Char) : read cs = (scan cs).reading :=
  (reading_run [] cs).symm

section
variable {cs u v : List Char}

theorem scan_append (cs ds : List Char) : scan (cs ++ ds) = (scan cs).run ds :=
  Scan.run_append _ cs ds

theorem read_append (cs ds : List Char) : read (cs ++ ds) = ((scan cs).run ds).reading := by
  rw [read_eq_reading, scan_append]

theorem unclosed_eq_false_iff : (read cs).unclosed = false ↔ (scan cs).mode ≠ .parens := by
  rw [read_eq_reading]
  exact decide_eq_false_iff_not

theorem ofText_error_iff :
    ofText (String.ofList cs) = .error .openComment ↔ (scan cs).mode = .parens := by
  rw [ofText, String.toList_ofList]
  by_cases h : (read cs).unclosed = true
  · rw [if_pos h]
    rw [read_eq_reading] at h
    simpa using of_decide_eq_true h
  · rw [if_neg h]
    simpa using unclosed_eq_false_iff.mp (Bool.eq_false_iff.mpr h)

/-- Outside comments a parenthesis ends the token in progress, and hides what follows. -/
theorem scan_unclosed (hp : (scan u).mode ≠ .parens) (hl : (scan u).mode ≠ .line)
    (hv : ')' ∉ v) : scan (u ++ '(' :: v) = ⟨(scan u).flush, .parens⟩ := by
  rw [scan_append, Scan.run_cons, Scan.step_stop rfl hp hl, Scan.step_open_parens,
    Scan.run_open_comment rfl hv]

/-- The automaton is in parentheses if they were opened and did not end. -/
theorem exists_open_of_parens (h : (scan cs).mode = .parens) :
    ∃ u v, cs = u ++ '(' :: v ∧ ')' ∉ v ∧ (scan u).mode ≠ .parens ∧ (scan u).mode ≠ .line := by
  induction cs using List.reverseRecOn with
  | nil => cases h
  | append_singleton cs c ih =>
      have hstep : (scan cs).mode.step c = .parens := by
        rw [scan_append] at h
        exact h
      by_cases hp : (scan cs).mode = .parens
      · obtain ⟨u, v, rfl, hv, hu⟩ := ih hp
        have hc : ')' ≠ c := by
          rintro rfl
          rw [hp] at hstep
          cases hstep
        exact ⟨u, v ++ [c], by simp, by simp [hv, hc], hu⟩
      · by_cases hl : (scan cs).mode = .line
        · rw [hl, Mode.step] at hstep
          split at hstep <;> cases hstep
        · have hc : c = '(' := by
            cases hm : (scan cs).mode with
            | parens => exact absurd hm hp
            | line => exact absurd hm hl
            | gap | word text =>
                rw [hm, Mode.step] at hstep
                by_contra hc
                exact Mode.outside_ne_parens hc hstep
          exact ⟨cs, [], by rw [hc], by simp, hp, hl⟩

/-- Stopping early yields the first of all tokens, and misses the open comment if there is one,
unless it asks for more tokens than there are. -/
theorem readFirst_eq (k : Nat) (cs : List Char) :
    readFirst k cs =
      ⟨(read cs).tokens.take k, (read cs).unclosed && decide ((read cs).tokens.length < k)⟩ := by
  induction k generalizing cs with
  | zero => simp [readFirst]
  | succ k ih =>
      rw [readFirst, read_eq cs]
      cases next cs with
      | finished => simp
      | unclosed => simp
      | word text rest => simp [ih rest]

/-- The tokens of a text are those that the automaton finds, and a comment is left open if the
automaton ends in parentheses. This is so if the text goes on, from a place outside comments, with
a parenthesis that is not closed any more, and the tokens are those before this place. To ask for
some tokens only yields the first ones, and meets the open comment only if there are fewer; so a
text has no tokens beyond these. -/
theorem reads_as_automaton (cs : List Char) :
    read cs = (scan cs).reading ∧
    (ofText (String.ofList cs) = .error .openComment ↔ (scan cs).mode = .parens) ∧
    ((scan cs).mode = .parens ↔
      ∃ u v, cs = u ++ '(' :: v ∧ ')' ∉ v ∧ (read u).unclosed = false ∧
        (scan u).mode ≠ .line) ∧
    (∀ u v, cs = u ++ '(' :: v → ')' ∉ v → (read u).unclosed = false →
      (scan u).mode ≠ .line → (read cs).tokens = (read u).tokens) ∧
    ∀ k, readFirst k cs =
      ⟨(read cs).tokens.take k, (read cs).unclosed && decide ((read cs).tokens.length < k)⟩ := by
  refine ⟨read_eq_reading cs, ofText_error_iff, ⟨fun h => ?_, ?_⟩, ?_, fun k => readFirst_eq k cs⟩
  · obtain ⟨u, v, hcs, hv, hp, hl⟩ := exists_open_of_parens h
    exact ⟨u, v, hcs, hv, unclosed_eq_false_iff.mpr hp, hl⟩
  · rintro ⟨u, v, rfl, hv, hu, hl⟩
    rw [scan_unclosed (unclosed_eq_false_iff.mp hu) hl hv]
  · rintro u v rfl hv hu hl
    rw [read_eq_reading, read_eq_reading u, scan_unclosed (unclosed_eq_false_iff.mp hu) hl hv]
    exact List.append_nil _

/-- Parentheses that are hidden by a backslash, and others that are not closed. -/
theorem reads_as_automaton_unclosed :
    read "1 \\ (\n2(3 ( 4".toList = ⟨["1", "2"], true⟩ ∧
    (read "1 \\ (\n2(3 ( 4".toList).tokens = (read "1 \\ (\n2".toList).tokens := by
  refine ⟨by decide +kernel, ?_⟩
  obtain ⟨-, -, -, htokens, -⟩ := reads_as_automaton "1 \\ (\n2(3 ( 4".toList
  exact htokens _ "3 ( 4".toList (by decide +kernel) (by decide +kernel) (by decide +kernel)
    (by decide +kernel)

end

end Forthlet.Token
