import Forthlet.Proofs.Scanning

/-!
# Separators, comments and what stands between them

A line end separates what stands before it from what follows, and a closed comment is no more than
a separator. Tokens that are joined by separators are read back. So of a text only its tokens
matter, and they hold all of its characters but the separators and the comments.
-/
namespace Forthlet.Token

namespace Scan

variable {s : Scan} {c : Char}

/-- Outside comments a separator ends the token in progress, and nothing more. -/
theorem step_separator_flush (hp : s.mode ≠ .parens) (hl : s.mode ≠ .line)
    (hc : isSeparator c = true) : s.step c = ⟨s.flush, .gap⟩ := by
  have hstop : isWordChar c = false := by simp [isWordChar, hc]
  rw [step_stop hstop hp hl, step_separator hc]

/-- A line end ends a comment to the end of the line as well. -/
theorem step_newline (hp : s.mode ≠ .parens) : s.step '\n' = ⟨s.flush, .gap⟩ := by
  obtain ⟨ts, mode⟩ := s
  by_cases hl : mode = .line
  · subst hl
    rw [step_comment rfl, if_pos rfl]
    simp [flush, Mode.pending]
  · exact step_separator_flush hp hl rfl

end Scan

section
variable {a : List Char}

theorem tokens_eq_flush (cs : List Char) : (read cs).tokens = (scan cs).flush := by
  rw [read_eq_reading]
  rfl

/-- The tokens of a text with closed comments come before those of what follows the line end. -/
theorem read_append_newline (ha : (read a).unclosed = false) (b : List Char) :
    read (a ++ '\n' :: b) = ⟨(read a).tokens ++ (read b).tokens, (read b).unclosed⟩ := by
  rw [read_append, Scan.run_cons, Scan.step_newline (unclosed_eq_false_iff.mp ha), reading_run,
    tokens_eq_flush a]

/-- What follows a place outside comments, behind a separator there. -/
theorem read_append_blank (ha : (read a).unclosed = false) (hl : (scan a).mode ≠ .line)
    (b : List Char) : read (a ++ ' ' :: b) = (Scan.run ⟨(scan a).flush, .gap⟩ b).reading := by
  rw [read_append, Scan.run_cons,
    Scan.step_separator_flush (unclosed_eq_false_iff.mp ha) hl rfl]

/-- Behind a text that leaves no parentheses open, a line end separates its tokens from those of
what follows, which may end in an error of its own. A closed comment that starts outside of one
does there what a single blank does. -/
theorem comments_are_blanks (ha : (read a).unclosed = false) (b : List Char) :
    read (a ++ '\n' :: b) = ⟨(read a).tokens ++ (read b).tokens, (read b).unclosed⟩ ∧
    ((scan a).mode ≠ .line →
      (∀ c, ')' ∉ c → read (a ++ '(' :: c ++ ')' :: b) = read (a ++ ' ' :: b)) ∧
      ∀ c, '\n' ∉ c → read (a ++ '\\' :: c ++ '\n' :: b) = read (a ++ ' ' :: b)) := by
  refine ⟨read_append_newline ha b, fun hl => ⟨fun c hc => ?_, fun c hc => ?_⟩⟩
  · rw [read_append_blank ha hl, List.append_assoc, List.cons_append, read_append, Scan.run_cons,
      Scan.step_stop rfl (unclosed_eq_false_iff.mp ha) hl, Scan.step_open_parens,
      Scan.run_comment rfl hc]
  · rw [read_append_blank ha hl, List.append_assoc, List.cons_append, read_append, Scan.run_cons,
      Scan.step_stop rfl (unclosed_eq_false_iff.mp ha) hl, Scan.step_backslash,
      Scan.run_comment rfl hc]

/-- The comment ends at the first parenthesis, and the text it stands in goes on as after a
blank. -/
theorem comments_are_blanks_unclosed :
    read "1 DUP( a ( b \\ )* ( c".toList = ⟨["1", "DUP", "*"], true⟩ ∧
    read "1 DUP( a ( b \\ )* ( c".toList = read "1 DUP * ( c".toList := by
  refine ⟨by decide +kernel, ?_⟩
  have ha : (read "1 DUP".toList).unclosed = false := by decide +kernel
  obtain ⟨hparens, -⟩ := (comments_are_blanks ha "* ( c".toList).2 (by decide +kernel)
  exact hparens " a ( b \\ ".toList (by decide +kernel)

end

/-- What can be a token. -/
def IsToken (t : String) : Prop := t ≠ "" ∧ ∀ c ∈ t.toList, isWordChar c = true

instance : DecidablePred IsToken := fun t =>
  decidable_of_iff (t ≠ "" ∧ t.toList.all isWordChar = true) (by simp [IsToken])

/-- Tokens with separators between any two of them. -/
inductive Spaced : List String → List Char → Prop
  | nil : Spaced [] []
  | single (t : String) : Spaced [t] t.toList
  | cons {t u : String} {ts : List String} {blanks cs : List Char} (hne : blanks ≠ [])
      (hblanks : ∀ c ∈ blanks, isSeparator c = true) (h : Spaced (u :: ts) cs) :
      Spaced (t :: u :: ts) (t.toList ++ blanks ++ cs)

/-- The characters of a text that are no separators and stand in no comment. Within a comment the
first argument is the character that ends it. -/
def visible : Option Char → List Char → List Char
  | _, [] => []
  | some stop, c :: cs => visible (if c = stop then none else some stop) cs
  | none, c :: cs =>
    if isSeparator c then visible none cs
    else if c = '(' then visible (some ')') cs
    else if c = '\\' then visible (some '\n') cs
    else c :: visible none cs

theorem isToken_ofList {cs : List Char} :
    IsToken (String.ofList cs) ↔ cs ≠ [] ∧ ∀ c ∈ cs, isWordChar c = true := by
  simp [IsToken]

@[simp] theorem visible_nil (stop : Option Char) : visible stop [] = [] := by
  cases stop <;> rfl

/-- What is left of a character that is in no token. -/
theorem visible_of_stop {c : Char} (hc : isWordChar c = false) (text cs : List Char) :
    visible none (c :: cs) = visible (Mode.outside text c).stop? cs := by
  rcases stop_cases hc with hs | rfl | rfl
  · rw [visible, Mode.outside, if_pos hs, if_pos hs]
    rfl
  · rfl
  · rfl

theorem visible_word {c : Char} (hc : isWordChar c = true) (cs : List Char) :
    visible none (c :: cs) = c :: visible none cs := by
  obtain ⟨hs, hp, hb⟩ := isWordChar_eq_true.mp hc
  rw [visible, if_neg hs, if_neg hp, if_neg hb]

namespace Scan

variable {s : Scan} {ts us : List String} {c : Char} {cs : List Char}

theorem flush_step_comment {m : Mode} {stop : Char} (hm : m.stop? = some stop) :
    (step ⟨ts, m⟩ c).flush = flush ⟨ts, m⟩ := by
  rw [step_comment hm]
  split <;> simp [flush, Mode.pending_of_stop? hm]

/-- Only the characters of tokens are kept. -/
theorem flush_step_stop (hc : isWordChar c = false) : (s.step c).flush = s.flush := by
  obtain ⟨ts, mode⟩ := s
  cases mode with
  | gap | word text => simp [step, flush, hc, Mode.step, Mode.pending_outside hc]
  | parens | line => exact flush_step_comment rfl

theorem isToken_step (h : ∀ t ∈ s.flush, IsToken t) (c : Char) :
    ∀ t ∈ (s.step c).flush, IsToken t := by
  obtain ⟨ts, mode⟩ := s
  by_cases hc : isWordChar c = true
  · cases mode with
    | gap =>
        have hone : IsToken (String.ofList [c]) := isToken_ofList.mpr (by simp [hc])
        rw [flush_gap] at h
        rw [step_gap_word hc]
        exact List.forall_mem_append.mpr ⟨h, by simpa using hone⟩
    | word text =>
        obtain ⟨hts, htext⟩ := List.forall_mem_append.mp h
        have hmore : IsToken (String.ofList (text ++ [c])) := by
          obtain ⟨-, hall⟩ := isToken_ofList.mp (htext (String.ofList text) (by simp))
          exact isToken_ofList.mpr ⟨by simp, List.forall_mem_append.mpr ⟨hall, by simp [hc]⟩⟩
        rw [step_word hc]
        exact List.forall_mem_append.mpr ⟨hts, by simpa using hmore⟩
    | parens | line =>
        rw [flush_step_comment rfl]
        exact h
  · rw [flush_step_stop (Bool.eq_false_iff.mpr hc)]
    exact h

theorem isToken_run (h : ∀ t ∈ s.flush, IsToken t) (cs : List Char) :
    ∀ t ∈ (s.run cs).flush, IsToken t := by
  induction cs generalizing s with
  | nil => exact h
  | cons c cs ih => exact ih (isToken_step h c)

theorem run_token {t : String} (ht : IsToken t) (us : List String) :
    run ⟨us, .gap⟩ t.toList = ⟨us, .word t.toList⟩ := by
  obtain ⟨hne, hall⟩ := ht
  cases ht : t.toList with
  | nil => exact absurd (String.toList_eq_nil_iff.mp ht) hne
  | cons c cs =>
      rw [ht] at hall
      obtain ⟨hc, hcs⟩ := List.forall_mem_cons.mp hall
      rw [run_cons, step_gap_word hc, run_word hcs, List.singleton_append]

theorem run_blanks {blanks : List Char} (hne : blanks ≠ [])
    (h : ∀ c ∈ blanks, isSeparator c = true) (hp : s.mode ≠ .parens) (hl : s.mode ≠ .line) :
    s.run blanks = ⟨s.flush, .gap⟩ := by
  have hgap : ∀ {us : List String} {cs : List Char}, (∀ c ∈ cs, isSeparator c = true) →
      run ⟨us, .gap⟩ cs = ⟨us, .gap⟩ := by
    intro us cs hcs
    induction cs with
    | nil => rfl
    | cons c cs ih =>
        obtain ⟨hc, hcs⟩ := List.forall_mem_cons.mp hcs
        rw [run_cons, step_separator hc, ih hcs]
  cases blanks with
  | nil => exact absurd rfl hne
  | cons c cs =>
      obtain ⟨hc, hcs⟩ := List.forall_mem_cons.mp h
      rw [run_cons, step_separator_flush hp hl hc, hgap hcs]

/-- Each token is complete when its separators begin. -/
theorem reading_run_spaced {cs : List Char} (h : Spaced ts cs) (hts : ∀ t ∈ ts, IsToken t)
    (us : List String) : (run ⟨us, .gap⟩ cs).reading = ⟨us ++ ts, false⟩ := by
  induction h generalizing us with
  | nil => simp [reading]
  | single t =>
      rw [run_token (hts t (by simp))]
      simp [reading, flush]
  | @cons t u ts blanks cs hne hblanks _ ih =>
      obtain ⟨ht, hts⟩ := List.forall_mem_cons.mp hts
      rw [run_append, run_append, run_token ht, run_blanks hne hblanks (by simp) (by simp), ih hts]
      simp [flush]

/-- A character is taken up by a token, or it is a separator or part of a comment. -/
theorem flatMap_flush_step (s : Scan) (c : Char) (cs : List Char) :
    (s.step c).flush.flatMap String.toList ++ visible (s.step c).mode.stop? cs =
      s.flush.flatMap String.toList ++ visible s.mode.stop? (c :: cs) := by
  obtain ⟨ts, mode⟩ := s
  have hcomment : ∀ {stop : Char}, mode.stop? = some stop →
      (step ⟨ts, mode⟩ c).flush.flatMap String.toList ++
          visible (step ⟨ts, mode⟩ c).mode.stop? cs =
        (flush ⟨ts, mode⟩).flatMap String.toList ++ visible mode.stop? (c :: cs) := by
    intro stop hm
    rw [flush_step_comment hm, step_comment hm, hm, visible]
    split
    · rfl
    · rw [hm]
  by_cases hc : isWordChar c = true
  · cases mode with
    | gap =>
        rw [step_gap_word hc]
        simp [flush, Mode.stop?, visible_word hc]
    | word text =>
        rw [step_word hc]
        simp [flush, Mode.stop?, visible_word hc]
    | parens | line => exact hcomment rfl
  · have hstop := Bool.eq_false_iff.mpr hc
    cases mode with
    | gap =>
        rw [flush_step_stop hstop]
        exact congrArg _ (visible_of_stop hstop [] cs).symm
    | word text =>
        rw [flush_step_stop hstop]
        exact congrArg _ (visible_of_stop hstop text cs).symm
    | parens | line => exact hcomment rfl

/-- All visible characters end up in tokens. -/
theorem flatMap_flush_run (s : Scan) (cs : List Char) :
    (s.run cs).flush.flatMap String.toList =
      s.flush.flatMap String.toList ++ visible s.mode.stop? cs := by
  induction cs generalizing s with
  | nil => simp
  | cons c cs ih => rw [run_cons, ih, flatMap_flush_step]

end Scan

theorem spaced_intercalate (ts : List String) : Spaced ts (" ".intercalate ts).toList := by
  induction ts with
  | nil => exact .nil
  | cons t ts ih =>
      cases ts with
      | nil => exact .single t
      | cons u ts =>
          have hblank : ∀ c ∈ [' '], isSeparator c = true := by simp [isSeparator]
          simpa [String.intercalate_cons_cons] using Spaced.cons (t := t) (by simp) hblank ih

theorem isToken_of_mem_read {cs : List Char} {t : String} (ht : t ∈ (read cs).tokens) :
    IsToken t := by
  rw [tokens_eq_flush] at ht
  exact Scan.isToken_run (s := .start) (by simp [Scan.start]) cs t ht

theorem isToken_of_ofText {text t : String} {ts : List String} (h : ofText text = .ok ts)
    (ht : t ∈ ts) : IsToken t := by
  unfold ofText at h
  simp only at h
  split at h <;> cases h
  exact isToken_of_mem_read ht

theorem read_of_spaced {ts : List String} {cs : List Char} (h : Spaced ts cs)
    (hts : ∀ t ∈ ts, IsToken t) : read cs = ⟨ts, false⟩ := by
  rw [read_eq_reading]
  exact Scan.reading_run_spaced h hts []

/-- Tokens are not empty and hold no separator and no mark that opens a comment; and whatever
tokens are joined by separators, reading yields them again. So reading what was read, joined by
single blanks, changes nothing. The tokens of a text, one after the other, are the text without
its separators and its comments. -/
theorem tokens_round_trip :
    (∀ cs, ∀ t ∈ (read cs).tokens, IsToken t) ∧
    (∀ {ts : List String} {cs : List Char}, Spaced ts cs → (∀ t ∈ ts, IsToken t) →
      read cs = ⟨ts, false⟩) ∧
    ∀ cs, ((read cs).unclosed = false →
        read (" ".intercalate (read cs).tokens).toList = read cs) ∧
      (read cs).tokens.flatMap String.toList = visible none cs := by
  refine ⟨fun _ _ ht => isToken_of_mem_read ht, read_of_spaced, fun cs => ⟨fun h => ?_, ?_⟩⟩
  · rw [read_of_spaced (spaced_intercalate _) fun _ ht => isToken_of_mem_read ht, ← h]
  · rw [tokens_eq_flush]
    exact Scan.flatMap_flush_run .start cs

/-- A text with comments right beside tokens, and tokens with several separators between them. -/
theorem tokens_round_trip_squaring :
    Spaced [":", "SQ", "DUP"] ":\tSQ \nDUP".toList ∧
    read ":\tSQ \nDUP".toList = ⟨[":", "SQ", "DUP"], false⟩ ∧
    read ": SQ( n - n*n )DUP * ; \\ twice".toList = ⟨[":", "SQ", "DUP", "*", ";"], false⟩ ∧
    visible none ": SQ( n - n*n )DUP * ; \\ twice".toList = ":SQDUP*;".toList ∧
    read (" ".intercalate (read ": SQ( n - n*n )DUP * ; \\ twice".toList).tokens).toList =
      read ": SQ( n - n*n )DUP * ; \\ twice".toList := by
  have hspaced : Spaced [":", "SQ", "DUP"] ":\tSQ \nDUP".toList := by
    have hjoined : ":\tSQ \nDUP".toList =
        ":".toList ++ ['\t'] ++ ("SQ".toList ++ [' ', '\n'] ++ "DUP".toList) := by decide +kernel
    have hfirst : ∀ c ∈ ['\t'], isSeparator c = true := by simp [isSeparator]
    have hsecond : ∀ c ∈ [' ', '\n'], isSeparator c = true := by simp [isSeparator]
    rw [hjoined]
    exact .cons (by simp) hfirst (.cons (by simp) hsecond (.single "DUP"))
  refine ⟨hspaced, tokens_round_trip.2.1 hspaced (by decide +kernel), by decide +kernel,
    by decide +kernel, ?_⟩
  exact (tokens_round_trip.2.2 _).1 (by decide +kernel)

end Forthlet.Token
