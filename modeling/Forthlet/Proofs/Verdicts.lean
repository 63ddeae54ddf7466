import Mathlib.Data.List.Forall2
import Forthlet.CommandLine
import Forthlet.Proofs.Printing
import Forthlet.Proofs.Wording

/-!
# What the self checks count

A check gets the report of a text and cuts the status off its end. What is left is what the text
printed and, if it failed, the message, since nothing else that is said ends like the status. Only
the message about an unknown word that is spelled like the status loses that word. So apart from
such words a check passes if and only if its text says what is expected, and the summary counts just
these checks.
-/
namespace Forthlet

open Outcome Run

namespace Outcome

/-- What a text says: all that it prints, and the message if it fails. -/
def told : Outcome Unit → String
  | .error (.fault f) e => String.join e.console.out.toList ++ ("\n Error: " ++ f.message)
  | .error .outOfFuel e | .ok _ e => String.join e.console.out.toList

/-- The text fails on an unknown word that is spelled like the status of a report. -/
def UnknownOk (r : Outcome Unit) : Prop :=
  ∃ text e, r = .error (.fault (.undefined text)) e ∧ Text.trimEnd text = "ok"

theorem unknownOk_fault {f : Fault} {e : Engine} : UnknownOk (.error (.fault f) e) ↔
    ∃ text, f = .undefined text ∧ Text.trimEnd text = "ok" := by
  constructor
  · rintro ⟨text, _, heq, htext⟩
    cases heq
    exact ⟨text, rfl, htext⟩
  · rintro ⟨text, rfl, htext⟩
    exact ⟨text, e, rfl, htext⟩

end Outcome

/-- The verdict on a check whose source comes to the outcome `r`: the check passes if and only if
the source says what is expected, blanks at the end aside. Where the source fails on a word spelled
like the status, what is expected does not pass. -/
structure Verdict.Deserved (v : Verdict) (c : Check) (r : Outcome Unit) : Prop where
  check : v.check = c
  passed_iff : ¬ r.UnknownOk → (v.passed = true ↔
    Text.trimEnd c.expected = Text.trimEnd r.told)
  fails : r.UnknownOk → Text.trimEnd c.expected = Text.trimEnd r.told → v.passed = false

namespace Check

variable {s : String}

/-- Only blanks are cut if and only if the last word is not that of the status. -/
theorem dropStatus_eq_trimEnd_iff : dropStatus s = Text.trimEnd s ↔ ¬ Text.EndsInOk s := by
  rw [Text.endsInOk_iff]
  simp only [dropStatus]
  split
  · next hsuffix =>
      obtain ⟨cs, hcs⟩ := List.isSuffixOf_iff_suffix.mp hsuffix
      refine iff_of_false (fun heq => ?_) (not_not_intro (.inr ⟨cs, hcs.symm⟩))
      -- Three characters are gone, and cutting blanks does not bring them back.
      have hle := Text.length_trimEnd_le
        (String.ofList ((Text.trimEnd s).toList.take ((Text.trimEnd s).toList.length - 3)))
      rw [heq, String.toList_ofList, ← hcs, List.length_take] at hle
      simp only [List.length_append, List.length_cons, List.length_nil] at hle
      omega
  · next hsuffix =>
      split
      · next hwhole =>
          refine iff_of_false (fun heq => ?_) (not_not_intro (.inl hwhole))
          rw [← heq] at hwhole
          cases hwhole
      · next hwhole =>
          refine iff_of_true String.ofList_toList ?_
          rintro (hok | ⟨cs, hcs⟩)
          · exact hwhole hok
          · exact hsuffix (List.isSuffixOf_iff_suffix.mpr ⟨cs, hcs.symm⟩)

/-- The status itself is cut, and with it the blanks before it. -/
theorem dropStatus_status (s : String) : dropStatus (s ++ " ok") = Text.trimEnd s := by
  have htrim : (Text.trimEnd (s ++ " ok")).toList = s.toList ++ [' ', 'o', 'k'] := by
    rw [Text.trimEnd_append (c := 'k') (by decide), String.toList_append]
    rfl
  simp only [dropStatus]
  rw [htrim, if_pos (by simp)]
  simp

/-- Feeding the source to a fresh engine comes to the outcome `r`. -/
def LeadsTo (c : Check) (r : Outcome Unit) : Prop :=
  Settles (fun n => feed {} n c.source) .fresh r

variable {c : Check} {r : Outcome Unit}

theorem exists_leadsTo (c : Check) : ∃ r, c.LeadsTo r := by
  obtain ⟨r, hr, -⟩ := feed_ready Engine.ready_fresh {} c.source
  exact ⟨r, hr⟩

/-- With enough steps the check gets the report of its source without the status. -/
theorem LeadsTo.run (h : c.LeadsTo r) : ∃ n, ∀ fuel, n ≤ fuel → Check.run fuel c =
    ⟨c, dropStatus (String.join ((engine r).console.out.toList ++ r.status)),
      (engine r).journal⟩ := by
  obtain ⟨hended, n, hn⟩ := h
  refine ⟨n, fun fuel hle => ?_⟩
  rw [Check.run, run_interpret Engine.ready_fresh (hn fuel hle) hended]

theorem LeadsTo.capital (h : c.LeadsTo r) :
    Satisfies Engine.Capital Stop.Quotes (fun _ => True) r := by
  obtain ⟨-, n, hn⟩ := h
  rw [← hn n (Nat.le_refl n)]
  exact (KeepsCapital.feed {} n c.source).outcome .fresh

theorem not_endsInOk_out {e : Engine} (h : e.Capital) :
    ¬ Text.EndsInOk (String.join e.console.out.toList) := fun hok =>
  (Text.Capital.join fun chunk hchunk =>
    h.printed chunk (Array.mem_toList_iff.mp hchunk)).last?_ne hok.last?

/-- Without the status a report is what the source says, but for a word spelled like the status. -/
theorem LeadsTo.dropStatus_eq_iff (h : c.LeadsTo r) :
    dropStatus (String.join ((engine r).console.out.toList ++ r.status)) = Text.trimEnd r.told ↔
      ¬ r.UnknownOk := by
  rw [String.join_append]
  match r, h.1, h.capital with
  | .ok _ e, _, ⟨he, _⟩ =>
      refine iff_of_true ?_ nofun
      cases hc : e.compiling with
      | true =>
          have hstatus : String.join (status (.ok () e)) = "" := by simp [status, hc]
          rw [hstatus, String.append_empty]
          exact dropStatus_eq_trimEnd_iff.mpr (not_endsInOk_out he)
      | false =>
          have hstatus : String.join (status (.ok () e)) = " ok" := by simp [status, hc]
          rw [hstatus]
          exact dropStatus_status _
  | .error (.fault f) e, _, ⟨_, hf⟩ =>
      have hstatus : String.join (status (.error (.fault f) e)) = "\n Error: " ++ f.message := by
        simp [status]
      rw [hstatus, engine_error, told, dropStatus_eq_trimEnd_iff, Fault.endsInOk_message hf,
        unknownOk_fault]

theorem LeadsTo.deserved (h : c.LeadsTo r) :
    ∃ n, ∀ fuel, n ≤ fuel → (Check.run fuel c).Deserved c r := by
  obtain ⟨n, hn⟩ := h.run
  refine ⟨n, fun fuel hle => ?_⟩
  rw [hn fuel hle]
  refine ⟨rfl, fun hr => ?_, fun hr hexpected => ?_⟩
  · simp only [Verdict.passed, decide_eq_true_iff]
    rw [h.dropStatus_eq_iff.mpr hr]
    exact eq_comm
  · simp only [Verdict.passed, decide_eq_false_iff_not]
    exact fun heq => h.dropStatus_eq_iff.mp (heq.trans hexpected) hr

/-- Every source comes to an outcome, and its check gets the verdict by it. -/
theorem exists_deserved (c : Check) :
    ∃ n, ∀ fuel, n ≤ fuel → ∃ r, c.LeadsTo r ∧ (Check.run fuel c).Deserved c r := by
  obtain ⟨r, hr⟩ := c.exists_leadsTo
  obtain ⟨n, hn⟩ := hr.deserved
  exact ⟨n, fun fuel hle => ⟨r, hr, hn fuel hle⟩⟩

theorem check_run (fuel : Nat) (c : Check) : (Check.run fuel c).check = c := by
  unfold Check.run
  split <;> rfl

end Check

namespace SelfCheck

/-- The verdicts that are reported, in order. -/
def failed (verdicts : List Verdict) : List Verdict := verdicts.filter fun v => !v.passed

section
variable (verdicts : List Verdict)

theorem join_report : String.join (verdicts.map Verdict.report) =
    String.join ((failed verdicts).map Verdict.report) := by
  induction verdicts with
  | nil => rfl
  | cons v verdicts ih =>
      rw [List.map_cons, String.join_cons, ih]
      cases hv : v.passed with
      | true =>
          have hreport : v.report = "" := if_pos hv
          have hfailed : failed (v :: verdicts) = failed verdicts :=
            List.filter_cons_of_neg (by simp [hv])
          rw [hreport, hfailed, String.empty_append]
      | false =>
          have hfailed : failed (v :: verdicts) = v :: failed verdicts :=
            List.filter_cons_of_pos (by simp [hv])
          rw [hfailed, List.map_cons, String.join_cons]

theorem exists_report {report : String} (h : report ∈ (failed verdicts).map Verdict.report) :
    ∃ text, report = "  FAIL: " ++ text := by
  obtain ⟨v, hv, rfl⟩ := List.mem_map.mp h
  have hfailed : v.passed = false := by simpa using List.of_mem_filter hv
  rw [Verdict.report, if_neg (by simp [hfailed])]
  simp only [String.append_assoc]
  exact ⟨_, rfl⟩

theorem passed_add_failed : passed verdicts + (failed verdicts).length = verdicts.length := by
  rw [failed, ← List.countP_eq_length_filter, passed,
    List.length_eq_countP_add_countP Verdict.passed]
  simp

theorem exitCode_eq_zero_iff : exitCode verdicts = 0 ↔ ∀ v ∈ verdicts, v.passed = true := by
  rw [exitCode, passed, ← List.countP_eq_length]
  split <;> simp [*]

end

/-- The verdicts stand in the order of the checks. -/
theorem forall₂_run {R : Check → Verdict → Prop} {fuel : Nat} {checks : List Check} :
    List.Forall₂ R checks (run fuel checks) ↔ ∀ c ∈ checks, R c (Check.run fuel c) := by
  rw [run, List.forall₂_map_right_iff, List.forall₂_same]

/-- One number of steps is enough for all checks of a list. -/
theorem exists_budget {P : Nat → Check → Prop} {checks : List Check}
    (h : ∀ c ∈ checks, ∃ n, ∀ fuel, n ≤ fuel → P fuel c) :
    ∃ n, ∀ fuel, n ≤ fuel → ∀ c ∈ checks, P fuel c := by
  induction checks with
  | nil => exact ⟨0, fun _ _ => nofun⟩
  | cons c checks ih =>
      obtain ⟨hc, hchecks⟩ := List.forall_mem_cons.mp h
      obtain ⟨n, hn⟩ := hc
      obtain ⟨m, hm⟩ := ih hchecks
      refine ⟨max n m, fun fuel hle => List.forall_mem_cons.mpr ⟨?_, ?_⟩⟩
      · exact hn fuel (Nat.le_trans (Nat.le_max_left n m) hle)
      · exact hm fuel (Nat.le_trans (Nat.le_max_right n m) hle)

end SelfCheck

/-- Given enough steps, every check gets the verdict that its source deserves: it passes if and only
if the source says what is expected, blanks at the end aside. Sources that fail on an unknown word
spelled like the status are the exception, and there what is expected does not pass. A verdict does
not depend on the other checks. The summary counts the checks that passed and reports the others,
in the order of the checks, and the exit code is zero if all of them passed; this is all that the
program does when it is asked for its self checks. -/
theorem checks_counted (checks : List Check) :
    (∃ n, ∀ fuel, n ≤ fuel → List.Forall₂ (fun c v => ∃ r, c.LeadsTo r ∧ v.Deserved c r)
      checks (SelfCheck.run fuel checks)) ∧
    (∀ (fuel : Nat) (others : List Check) (i j : Nat), checks[i]? = others[j]? →
      (SelfCheck.run fuel checks)[i]? = (SelfCheck.run fuel others)[j]?) ∧
    (∀ (fuel : Nat) (verbose : Bool),
      let verdicts := SelfCheck.run fuel checks
      let reports := (SelfCheck.failed verdicts).map Verdict.report
      (CommandLine.check fuel verbose checks).stdout =
        "Tests: " ++ toString (SelfCheck.passed verdicts) ++ "/" ++ toString checks.length ++
          " passed\n" ++ String.join reports ∧
      (∀ report ∈ reports, ∃ text, report = "  FAIL: " ++ text) ∧
      SelfCheck.passed verdicts + reports.length = checks.length ∧
      ((SelfCheck.failed verdicts).map Verdict.check).Sublist checks ∧
      ((CommandLine.check fuel verbose checks).exit = 0 ↔ ∀ v ∈ verdicts, v.passed = true)) ∧
    ∀ (fuel : Nat) (input : List Prompt.Input),
      CommandLine.run fuel ["--test"] input =
        CommandLine.check fuel false SelfCheck.standard := by
  refine ⟨?_, fun fuel others i j h => ?_, fun fuel verbose => ⟨?_, ?_, ?_, ?_, ?_⟩,
    fun fuel input => ?_⟩
  · obtain ⟨n, hn⟩ := SelfCheck.exists_budget fun c (_ : c ∈ checks) => c.exists_deserved
    exact ⟨n, fun fuel hle => SelfCheck.forall₂_run.mpr (hn fuel hle)⟩
  · rw [SelfCheck.run, SelfCheck.run, List.getElem?_map, List.getElem?_map, h]
  · rw [CommandLine.check, SelfCheck.summary, SelfCheck.join_report]
    simp only [SelfCheck.run, List.length_map]
  · exact fun _ => SelfCheck.exists_report _
  · rw [List.length_map, SelfCheck.passed_add_failed, SelfCheck.run, List.length_map]
  · have hsame : (SelfCheck.run fuel checks).map Verdict.check = checks := by
      rw [SelfCheck.run, List.map_map]
      exact List.map_id'' (Check.check_run fuel) checks
    have hsub := (List.filter_sublist (p := fun v => !v.passed)
      (l := SelfCheck.run fuel checks)).map Verdict.check
    rwa [hsame] at hsub
  · exact SelfCheck.exitCode_eq_zero_iff _
  · have hparse : Options.parse ["--test"] = .run { test := true } := by decide
    rw [CommandLine.run, hparse]
    rfl

/-- The message ends in the letters of the status, but not in its word. -/
def bookish : Check := ⟨"1 . book", "1 \n Error: Undefined: book\n"⟩

/-- The status is expected. -/
def wishful : Check := ⟨"2 .", "2 ok"⟩

/-- The unknown word is spelled like the status. -/
def okay : Check := ⟨"ok", "\n Error: Undefined: ok"⟩

theorem leadsTo_okay : ∃ e, okay.LeadsTo (.error (.fault (.undefined "ok")) e) ∧
    Text.trimEnd okay.expected =
      Text.trimEnd (told (.error (.fault (.undefined "ok")) e)) := by
  have hrun : (feed {} 0 okay.source).run .fresh = .error (.fault (.undefined "ok"))
      (engine ((feed {} 0 okay.source).run .fresh)) := by decide +kernel
  exact ⟨_, settles_feed hrun trivial, by decide +kernel⟩

theorem checks_counted_mixed :
    ∃ fuel, let verdicts := SelfCheck.run fuel [bookish, wishful, okay]
      verdicts.map Verdict.passed = [true, false, false] ∧
      (CommandLine.check fuel false [bookish, wishful, okay]).exit ≠ 0 ∧
      verdicts[1]? = (SelfCheck.run fuel [wishful])[0]? := by
  obtain ⟨⟨n, hn⟩, hsame, hsummary, -⟩ := checks_counted [bookish, wishful, okay]
  have hdeserved : ∀ c ∈ [bookish, wishful, okay], ∀ r, c.LeadsTo r →
      (Check.run n c).Deserved c r := by
    intro c hc r hr
    obtain ⟨r', hr', hd⟩ := SelfCheck.forall₂_run.mp (hn n (Nat.le_refl n)) c hc
    rwa [hr.unique hr']
  have hbookish : (Check.run n bookish).passed = true := by
    have hrun : (feed {} 100 bookish.source).run .fresh = .error (.fault (.undefined "book"))
        (engine ((feed {} 100 bookish.source).run .fresh)) := by decide +kernel
    refine ((hdeserved bookish (by simp) _ (settles_feed hrun trivial)).passed_iff ?_).mpr
      (by decide +kernel)
    rw [unknownOk_fault]
    rintro ⟨_, heq, htext⟩
    cases heq
    exact absurd htext (by decide)
  have hwishful : (Check.run n wishful).passed = false := by
    have hrun : (feed {} 100 wishful.source).run .fresh =
        .ok () (engine ((feed {} 100 wishful.source).run .fresh)) := by decide +kernel
    have hiff := (hdeserved wishful (by simp) _ (settles_feed hrun trivial)).passed_iff nofun
    exact Bool.eq_false_iff.mpr (mt hiff.mp (by decide +kernel))
  have hokay : (Check.run n okay).passed = false := by
    obtain ⟨e, hleads, hexpected⟩ := leadsTo_okay
    exact (hdeserved okay (by simp) _ hleads).fails ⟨"ok", e, rfl, by decide⟩ hexpected
  obtain ⟨-, -, -, -, hexit⟩ := hsummary n false
  refine ⟨n, ?_, fun h => ?_, hsame n [wishful] 1 0 rfl⟩
  · simp only [SelfCheck.run, List.map_cons, List.map_nil, hbookish, hwishful, hokay]
  · have hpassed := hexit.mp h (Check.run n wishful) (by simp [SelfCheck.run])
    rw [hwishful] at hpassed
    cases hpassed

/-- What its source says is expected, and still this check never passes. -/
theorem check_miscounted_okay :
    ¬ ∃ n, ∀ fuel, n ≤ fuel → List.Forall₂ (fun c v => ∃ r, c.LeadsTo r ∧
        (v.passed = true ↔ Text.trimEnd c.expected = Text.trimEnd r.told))
      [okay] (SelfCheck.run fuel [okay]) := by
  rintro ⟨n, hn⟩
  obtain ⟨e, hleads, hexpected⟩ := leadsTo_okay
  obtain ⟨m, hm⟩ := hleads.deserved
  have hfails : (Check.run (max n m) okay).passed = false :=
    (hm _ (Nat.le_max_right n m)).fails ⟨"ok", e, rfl, by decide⟩ hexpected
  obtain ⟨r, hr, hiff⟩ :=
    SelfCheck.forall₂_run.mp (hn _ (Nat.le_max_left n m)) okay (by simp)
  rw [hr.unique hleads, hfails] at hiff
  cases hiff.mpr hexpected

end Forthlet
