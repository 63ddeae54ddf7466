import Forthlet.Proofs.Digits
import Forthlet.Proofs.Naming
import Forthlet.Proofs.Recovery

/-!
# Numbers beyond the cells

A token that is in no dictionary is a number or it is unknown. A number that fits in a cell is
pushed or compiled, and one beyond the cells is an overflow, which is reported with the number in
decimal digits. But a number in base sixteen can have more decimal digits than can be written. Then
no such report can be made, and the token counts as unknown.
-/
namespace Forthlet

open Run

namespace Engine

/-- The token is no colon, no word and not the name of the word that is being defined. -/
structure Unfound (e : Engine) (text : String) : Prop where
  ne_colon : text ≠ ":"
  find : e.dict.find? text = none
  ne_name : ∀ {d}, e.draft = some d → Text.upper text ≠ d.name

/-- The token is reported as a word that is not known. -/
def Unknown (e : Engine) (lim : Limits) (fuel : Nat) (text : String) : Prop :=
  ∃ name e', (tokens lim fuel [text]).run e = .error (.fault (.undefined name)) e'

/-- The number is pushed, or compiled while a definition is open. -/
def withNumber (e : Engine) (n : Int) : Engine :=
  match e.draft with
  | none => { e with stack := n :: e.stack }
  | some d => { e with draft := some (d.append (.lit n)) }

variable {e : Engine}

theorem withNumber_none (hd : e.draft = none) (n : Int) :
    e.withNumber n = { e with stack := n :: e.stack } := by
  unfold withNumber
  split
  · rfl
  · next hd' =>
      rw [hd] at hd'
      cases hd'

theorem withNumber_some {d : Draft} (hd : e.draft = some d) (n : Int) :
    e.withNumber n = { e with draft := some (d.append (.lit n)) } := by
  unfold withNumber
  split
  · next hd' =>
      rw [hd] at hd'
      cases hd'
  · next hd' =>
      rw [hd] at hd'
      cases hd'
      rfl

end Engine

section
variable {e : Engine} {lim : Limits} {fuel : Nat} {text : String}

namespace Run

theorem cellOf_of_parse_error {x : Numeral.Error} (hx : Numeral.parse text = .error x) :
    cellOf text = .error (.undefined text) := by
  unfold cellOf
  rw [hx]

/-- Unknown are the texts that are no number, and the numbers that cannot be written. -/
theorem cellOf_eq_undefined_iff {name : String} : cellOf text = .error (.undefined name) ↔
    text = name ∧ ∀ n, Numeral.parse text = .ok n → Numeral.printable n = false := by
  cases hparse : Numeral.parse text with
  | error x => simp [cellOf_of_parse_error hparse]
  | ok n =>
      by_cases hn : Cell.InRange n
      · simp [cellOf_of_parse hparse hn, Cell.printable_of_inRange hn]
      · rw [cellOf_of_parse_out hparse hn, rejection]
        cases hp : Numeral.printable n <;> simp [hp]

/-- The colon refuses every number as a name, also one that is too large for a cell. -/
theorem startDraft_refuses_iff (hd : e.draft = none) :
    (startDraft (some text)).run e = .error (.fault (.colonNumber text)) e ↔
      ∃ n, Numeral.parse text = .ok n := by
  cases hparse : Numeral.parse text with
  | ok n => simp [run_startDraft_number hd hparse]
  | error x => simp [run_startDraft_ok hd hparse]

end Run

namespace Engine.Unfound

theorem run_token (h : e.Unfound text) :
    (token lim fuel text).run e = match cellOf text with
      | .ok n => .ok () (e.withNumber n)
      | .error f => .error (.fault f) e := by
  cases hd : e.draft with
  | none =>
      simp only [run_token_number hd h.find, withNumber_none hd]
      cases cellOf text <;> rfl
  | some d =>
      simp only [run_token_literal hd h.find (h.ne_name hd), withNumber_some hd]
      cases cellOf text <;> rfl

theorem run_tokens (h : e.Unfound text) :
    (tokens lim fuel [text]).run e = match cellOf text with
      | .ok n => .ok () (e.withNumber n)
      | .error f => .error (.fault f) e := by
  rw [run_tokens_singleton h.ne_colon, h.run_token]

theorem unknown_iff (h : e.Unfound text) : e.Unknown lim fuel text ↔
    ∀ n, Numeral.parse text = .ok n → Numeral.printable n = false := by
  constructor
  · rintro ⟨name, e', hrun⟩
    rw [h.run_tokens] at hrun
    split at hrun
    · cases hrun
    · next f hcell =>
        cases hrun
        exact (cellOf_eq_undefined_iff.mp hcell).2
  · intro hall
    refine ⟨text, e, ?_⟩
    rw [h.run_tokens, cellOf_eq_undefined_iff.mpr ⟨rfl, hall⟩]

end Engine.Unfound

/-- No word has a number for its name, unless two `F`s stand together in it. -/
theorem Program.Named.unfound {n : Int} (h : e.program.Named) (hn : Numeral.parse text = .ok n)
    (hff : ¬ ['F', 'F'] <:+: (Text.upper text).toList) : e.Unfound text := by
  refine ⟨?_, h.find?_eq_none hn hff, fun hd => (h.draft hd).ne_upper hn hff⟩
  rintro rfl
  exact Dictionary.Reads.parse_colon hn

/-- Characters of numbers that are no letters, and no digits of other scripts. -/
def Numeral.letterless : List Char := "$-0123456789".toList

theorem Program.Named.unfound_of_letterless {n : Int} (h : e.program.Named)
    (hn : Numeral.parse text = .ok n) (hcs : ∀ c ∈ text.toList, c ∈ Numeral.letterless) :
    e.Unfound text := by
  have hupper : Numeral.letterless.all fun c => Text.upperChar c = [c] := by decide
  have hletter : 'F' ∉ Numeral.letterless := by decide
  refine h.unfound hn fun hff => ?_
  rw [Text.upper_eq_self fun c hc =>
    of_decide_eq_true (List.all_eq_true.mp hupper c (hcs c hc))] at hff
  exact hletter (hcs 'F' (hff.subset (by simp)))

/-- A number that is in no dictionary is pushed or compiled if it fits in a cell, and it is an
overflow if it does not and can be written. All other tokens there are unknown words. So those that
cannot be unknown are the names that the colon refuses as numbers, if the number can be written. -/
theorem overflow_reported (h : e.Unfound text) (lim : Limits) (fuel : Nat) :
    (∀ n, Numeral.parse text = .ok n → Cell.InRange n →
      (tokens lim fuel [text]).run e = .ok () (e.withNumber n)) ∧
    (∀ n, Numeral.parse text = .ok n → ¬ Cell.InRange n → Numeral.printable n = true →
      (tokens lim fuel [text]).run e = .error (.fault (.overflow n)) e) ∧
    (e.Unknown lim fuel text ↔
      ∀ n, Numeral.parse text = .ok n → Numeral.printable n = false) ∧
    ∀ {e' : Engine}, e'.draft = none → (¬ e.Unknown lim fuel text ↔
      (startDraft (some text)).run e' = .error (.fault (.colonNumber text)) e' ∧
      ∀ n, Numeral.parse text = .ok n → Numeral.printable n = true) := by
  refine ⟨fun n hparse hn => ?_, fun n hparse hn hp => ?_, h.unknown_iff, fun {e'} hd => ?_⟩
  · rw [h.run_tokens, cellOf_of_parse hparse hn]
  · rw [h.run_tokens, cellOf_of_parse_out hparse hn, rejection, if_pos hp]
  · rw [h.unknown_iff, startDraft_refuses_iff hd]
    cases hparse : Numeral.parse text with
    | ok n => simp
    | error x => simp

end

/-- A session with a definition that is still open. -/
def unfinished : Engine := Outcome.engine ((feed {} 0 ": X 2").run .fresh)

theorem reachable_unfinished : Reachable unfinished := .feed _ _ _ .fresh (by decide +kernel)

/-- The negative number next to the cells, and the last cell on the other side. -/
theorem overflow_reported_unfinished :
    (tokens {} 0 ["-$8000000000000001"]).run unfinished =
      .error (.fault (.overflow (-9223372036854775809))) unfinished ∧
    (tokens {} 0 ["9223372036854775807"]).run unfinished =
      .ok () (unfinished.withNumber 9223372036854775807) ∧
    ¬ unfinished.Unknown {} 0 "-$8000000000000001" := by
  have hbeyond : Numeral.parse "-$8000000000000001" = .ok (-9223372036854775809) := by decide
  have hlast : Numeral.parse "9223372036854775807" = .ok 9223372036854775807 := by decide
  have hprints : Numeral.printable (-9223372036854775809) = true := by decide +kernel
  obtain ⟨-, hoverflow, hunknown, -⟩ :=
    overflow_reported (reachable_unfinished.named.unfound hbeyond (by decide +kernel)) {} 0
  obtain ⟨hpushed, -⟩ :=
    overflow_reported (reachable_unfinished.named.unfound hlast (by decide +kernel)) {} 0
  refine ⟨hoverflow _ hbeyond (by decide) hprints, hpushed _ hlast (by decide), fun hmissed => ?_⟩
  rw [hunknown.mp hmissed _ hbeyond] at hprints
  cases hprints

namespace Numeral

/-- Sixteen to this power, as it is written in base sixteen. -/
def powerText (k : Nat) : String := String.ofList ('$' :: '1' :: List.replicate k '0')

theorem parse_powerText (k : Nat) : parse (powerText k) = .ok ((16 ^ k : Nat) : Int) := by
  have hdigits : List.Forall₂ IsHexDigit ('1' :: List.replicate k '0') (1 :: List.replicate k 0) :=
    .cons (by decide) (forall₂_isHexDigit_zeros k)
  have hmark : ['$'] ∈ hexMarks := by decide
  have hspells := Spells.hex hmark (List.cons_ne_nil _ _) hdigits
  rw [List.reverse_cons, List.reverse_replicate, Nat.ofDigits_append, Nat.ofDigits_replicate_zero,
    List.length_replicate, Nat.ofDigits_singleton, Nat.zero_add, Nat.mul_one] at hspells
  rw [parse_eq_ok_iff, powerText, String.toList_ofList]
  exact .plain hspells

theorem mem_powerText {k : Nat} {c : Char} (h : c ∈ (powerText k).toList) : c ∈ letterless := by
  rw [powerText, String.toList_ofList, List.mem_cons, List.mem_cons, List.mem_replicate] at h
  rcases h with rfl | rfl | ⟨-, rfl⟩ <;> decide

theorem printable_power {k : Nat} (hk : printBound ≤ 16 ^ k) :
    printable ((16 ^ k : Nat) : Int) = false :=
  decide_eq_false (Nat.not_lt.mpr hk)

end Numeral

/-- A number too large to be written in decimal digits is no overflow, but an unknown word. -/
theorem large_number_unknown :
    ¬ ∀ e : Engine, Reachable e → ∀ text, e.Unfound text → ∀ n, Numeral.parse text = .ok n →
      ¬ Cell.InRange n → ∀ lim fuel,
        (tokens lim fuel [text]).run e = .error (.fault (.overflow n)) e := by
  intro hall
  -- The power stays a variable in the argument, so that nothing evaluates it on the way.
  have hsmall : ∀ k, ¬ Numeral.printBound ≤ 16 ^ k := by
    intro k hk
    have hn := Numeral.parse_powerText k
    have hprints := Numeral.printable_power hk
    have hunfound : Engine.Unfound .fresh (Numeral.powerText k) :=
      Reachable.fresh.named.unfound_of_letterless hn fun c => Numeral.mem_powerText
    have hout : ¬ Cell.InRange (16 ^ k : Nat) := fun hin => by
      rw [Cell.printable_of_inRange hin] at hprints
      cases hprints
    have hrun := hall .fresh .fresh _ hunfound _ hn hout {} 0
    rw [hunfound.run_tokens, cellOf_of_parse_out hn hout, rejection, hprints] at hrun
    cases hrun
  exact hsmall 3572 (by decide +kernel)

end Forthlet
