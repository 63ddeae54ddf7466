import Mathlib.Data.List.Infix
import Forthlet.Proofs.Growth
import Forthlet.Proofs.Vocabulary

/-!
# Names and numbers

A token that a number is written as is refused as a name. But names are compared in upper case,
and the upper case of a name that was accepted may be the upper case of a number. That takes a
character with two letters for its upper case, and among the characters of numbers these can only
be two `F`s next to each other. All other numbers keep their meaning, whatever is defined.
-/
namespace Forthlet

open Outcome

namespace Text

/-- What does not tell a small letter from the capital one does not tell any case apart. -/
theorem apply_toUpper {β : Type} {f : Char → β}
    (h : ∀ k < 26, f (Char.ofNat (97 + k)).toUpper = f (Char.ofNat (97 + k))) (c : Char) :
    f c.toUpper = f c := by
  by_cases hc : 'a'.val ≤ c.val ∧ c.val ≤ 'z'.val
  · obtain ⟨hlow, hhigh⟩ : 97 ≤ c.toNat ∧ c.toNat ≤ 122 := hc
    have hf := h (c.toNat - 97) (by omega)
    rwa [Nat.add_sub_cancel' hlow, Char.ofNat_toNat] at hf
  · exact congrArg f (dif_neg hc)

theorem toNat_ofNat {n : Nat} (h : n.isValidChar) : (Char.ofNat n).toNat = n := by
  rw [Char.ofNat, dif_pos h]
  rfl

theorem toUpper_of_le {c : Char} (h : 0x80 ≤ c.toNat) : c.toUpper = c := by
  apply dif_neg
  rintro ⟨-, hz⟩
  have hnat : c.toNat ≤ 122 := hz
  omega

theorem toUpper_toUpper (c : Char) : c.toUpper.toUpper = c.toUpper :=
  apply_toUpper (by decide) c

/-- Among the decimal digits, those of ASCII come long before all others. -/
theorem digitZero_cases {z : Nat} (hz : z ∈ digitZeros) : z = 0x30 ∨ 0x660 ≤ z := by
  have hall : ∀ z ∈ digitZeros, z = 0x30 ∨ 0x660 ≤ z := by decide
  exact hall z hz

theorem decimalValue?_eq_none {c : Char} (h : 0x3A ≤ c.toNat ∧ c.toNat < 0x660) :
    decimalValue? c = none := by
  refine Option.map_eq_none_iff.mpr (List.find?_eq_none.mpr fun z hz => ?_)
  have hcases := digitZero_cases hz
  simp only [Bool.and_eq_true, decide_eq_true_eq]
  omega

/-- Letters of ASCII are no digits. -/
theorem decimalValue?_toUpper (c : Char) : decimalValue? c.toUpper = decimalValue? c := by
  apply apply_toUpper
  intro k hk
  have hrange : ∀ k < 26, 0x3A ≤ (Char.ofNat (97 + k)).toNat ∧
      (Char.ofNat (97 + k)).toNat < 0x660 ∧ 0x3A ≤ (Char.ofNat (97 + k)).toUpper.toNat ∧
      (Char.ofNat (97 + k)).toUpper.toNat < 0x660 := by decide
  obtain ⟨hlow, hhigh, hlow', hhigh'⟩ := hrange k hk
  rw [decimalValue?_eq_none ⟨hlow, hhigh⟩, decimalValue?_eq_none ⟨hlow', hhigh'⟩]

theorem isDigitSign_toUpper (c : Char) : isDigitSign c.toUpper = isDigitSign c := by
  have hsigns : digitSigns.contains c.toUpper = digitSigns.contains c :=
    apply_toUpper (by decide) c
  rw [isDigitSign, isDigitSign, decimalValue?_toUpper, hsigns]

end Text

namespace Numeral

open Text

theorem hexValue?_toUpper (c : Char) : hexValue? c.toUpper = hexValue? c :=
  apply_toUpper (by decide) c

theorem splitSign_cons (c d : Char) (cs : List Char) :
    splitSign (c :: d :: cs) = if c == '-' then (true, d :: cs) else (false, c :: d :: cs) := by
  split
  · next h =>
      cases beq_iff_eq.mp h
      rfl
  · next h =>
      unfold splitSign
      split
      · next heq =>
          cases heq
          exact absurd rfl h
      · rfl

theorem splitSign_map_toUpper (cs : List Char) :
    splitSign (cs.map Char.toUpper) = ((splitSign cs).1, (splitSign cs).2.map Char.toUpper) := by
  match cs with
  | [] => rfl
  | [c] =>
      unfold splitSign
      simp
  | c :: d :: cs =>
      have hminus : (c.toUpper == '-') = (c == '-') :=
        apply_toUpper (f := (· == '-')) (by decide) c
      rw [List.map_cons, List.map_cons, splitSign_cons, splitSign_cons, hminus]
      split <;> rfl

/-- The digits of a hexadecimal number are those behind its mark. -/
theorem hexBody?_cons (c : Char) (cs : List Char) :
    hexBody? (c :: cs) =
      if c == '$' then some cs
      else if c == '0' && cs.head?.any fun d => d == 'x' || d == 'X' then some cs.tail
      else none := by
  unfold hexBody?
  split
  · next h =>
      cases h
      rfl
  · next h =>
      cases h
      rfl
  · next h =>
      cases h
      rfl
  · next hdollar hx hX =>
      rw [if_neg, if_neg]
      · rintro hmark
        obtain ⟨hzero, hhead⟩ := Bool.and_eq_true_iff.mp hmark
        cases beq_iff_eq.mp hzero
        cases cs with
        | nil => cases hhead
        | cons d ds =>
            rcases Bool.or_eq_true_iff.mp hhead with hd | hd
            · exact hx ds (by rw [beq_iff_eq.mp hd])
            · exact hX ds (by rw [beq_iff_eq.mp hd])
      · rintro hc
        exact hdollar cs (by rw [beq_iff_eq.mp hc])

theorem hexBody?_map_toUpper (cs : List Char) :
    hexBody? (cs.map Char.toUpper) = (hexBody? cs).map (List.map Char.toUpper) := by
  cases cs with
  | nil => rfl
  | cons c cs =>
      have hdollar : (c.toUpper == '$') = (c == '$') :=
        apply_toUpper (f := (· == '$')) (by decide) c
      have hzero : (c.toUpper == '0') = (c == '0') :=
        apply_toUpper (f := (· == '0')) (by decide) c
      have hmark : (fun d : Char => d.toUpper == 'x' || d.toUpper == 'X') =
          fun d => d == 'x' || d == 'X' :=
        funext fun d => apply_toUpper (f := fun d => d == 'x' || d == 'X') (by decide) d
      rw [List.map_cons, hexBody?_cons, hexBody?_cons, hdollar, hzero, List.head?_map,
        Option.any_map, hmark, ← List.map_tail]
      split
      · rfl
      · split <;> rfl

/-- Small and capital letters say the same. -/
theorem magnitude_map_toUpper (cs : List Char) :
    magnitude (cs.map Char.toUpper) = magnitude cs := by
  have hhex : ∀ cs : List Char, (cs.map Char.toUpper).mapM hexValue? = cs.mapM hexValue? := by
    intro cs
    rw [List.mapM_map]
    exact congrArg (List.mapM · cs) (funext hexValue?_toUpper)
  have hdec : ∀ cs : List Char, (cs.map Char.toUpper).mapM decimalValue? = cs.mapM decimalValue? := by
    intro cs
    rw [List.mapM_map]
    exact congrArg (List.mapM · cs) (funext decimalValue?_toUpper)
  have hall : (cs.map Char.toUpper).all isDigitSign = cs.all isDigitSign := by
    simp [Function.comp_def, isDigitSign_toUpper]
  unfold magnitude
  rw [hexBody?_map_toUpper]
  cases hexBody? cs with
  | some digits => simp only [Option.map_some, List.isEmpty_map, hhex]
  | none => simp only [Option.map_none, List.isEmpty_map, hdec, hall, List.length_map]

/-- Texts that differ in the case of letters only are both numbers or both none. -/
theorem parse_of_map_toUpper {text text' : String} {n : Int} (hn : parse text = .ok n)
    (h : text'.toList.map Char.toUpper = text.toList.map Char.toUpper) : parse text' = .ok n := by
  have hsplit := splitSign_map_toUpper text'.toList
  rw [h, splitSign_map_toUpper] at hsplit
  obtain ⟨hsign, hbody⟩ := Prod.mk.inj hsplit
  have hmagnitude : magnitude (splitSign text'.toList).2 = magnitude (splitSign text.toList).2 := by
    rw [← magnitude_map_toUpper, ← hbody, magnitude_map_toUpper]
  unfold parse at hn ⊢
  simp only [hmagnitude, ← hsign] at hn ⊢
  cases hm : magnitude (splitSign text.toList).2 with
  | value m =>
      rw [hm] at hn
      exact hn
  | unreadable =>
      rw [hm] at hn
      cases hn
  | malformed =>
      rw [hm] at hn
      cases hn

/-- The characters that a number can be written with, up to case. -/
def isMark (c : Char) : Bool :=
  c.toUpper == '-' || c.toUpper == '$' || c.toUpper == 'X' || (hexValue? c).isSome ||
    (decimalValue? c).isSome

theorem isMark_toUpper (c : Char) : isMark c.toUpper = isMark c := by
  rw [isMark, isMark, toUpper_toUpper, hexValue?_toUpper, decimalValue?_toUpper]

theorem isMark_of_spells {cs : List Char} {n : Nat} (h : Spells cs n) :
    ∀ c ∈ cs, isMark c = true := by
  intro c hc
  cases h with
  | hex hmark hne hdigits =>
      have hmarks : ∀ mark ∈ hexMarks, mark.all isMark = true := by decide
      rcases List.mem_append.mp hc with hc | hc
      · exact List.all_eq_true.mp (hmarks _ hmark) c hc
      · obtain ⟨d, hd⟩ := exists_of_forall₂ hdigits.flip hc
        simp [isMark, hexValue?_eq_some_iff.mpr hd]
  | decimal hne hlength hdigits =>
      obtain ⟨d, hd⟩ := exists_of_forall₂ hdigits.flip hc
      simp [isMark, decimalValue?_eq_some_iff.mpr hd]

/-- A number is written in such characters. -/
theorem isMark_of_parse {text : String} {n : Int} (h : parse text = .ok n) :
    ∀ c ∈ text.toList, isMark c = true := by
  have hwrites := parse_eq_ok_iff.mp h
  generalize text.toList = cs at hwrites ⊢
  cases hwrites with
  | plain hspells => exact isMark_of_spells hspells
  | negative hspells => exact List.forall_mem_cons.mpr ⟨by decide, isMark_of_spells hspells⟩

/-- Beyond ASCII only decimal digits are among these characters. -/
theorem exists_digitZero {c : Char} (h : isMark c = true) (hc : 0x80 ≤ c.toNat) :
    ∃ z ∈ digitZeros, z ≤ c.toNat ∧ c.toNat < z + 10 := by
  have hne : ∀ d : Char, d.toNat < 0x80 → (c == d) = false := by
    intro d hd
    rw [beq_eq_false_iff_ne]
    rintro rfl
    omega
  have hdecimal : (decimalValue? c).isSome := by
    simpa [isMark, toUpper_of_le hc, hne '-' (by decide), hne '$' (by decide),
      hne 'X' (by decide), hexValue?_eq_none hc] using h
  obtain ⟨z, hz⟩ := Option.isSome_iff_exists.mp (Option.isSome_map.symm.trans hdecimal)
  refine ⟨z, List.mem_of_find?_eq_some hz, ?_⟩
  simpa using List.find?_some hz

/-- No such character is a letter from `G` to `W`, or stands between ASCII and the digits of other
scripts. -/
theorem isMark_eq_false {n : Nat} (h : 0x46 < n ∧ n < 0x58 ∨ 0x80 ≤ n ∧ n < 0x660) :
    isMark (Char.ofNat n) = false := by
  rcases h with ⟨hlow, hhigh⟩ | ⟨hlow, hhigh⟩
  · have hdecimal : decimalValue? (Char.ofNat n) = none := by
      have hnat : (Char.ofNat n).toNat = n := toNat_ofNat (.inl (by omega))
      exact decimalValue?_eq_none (by omega)
    have hall : ∀ n < 0x58, 0x46 < n → (Char.ofNat n).toUpper ≠ '-' ∧ (Char.ofNat n).toUpper ≠ '$' ∧
        (Char.ofNat n).toUpper ≠ 'X' ∧ hexValue? (Char.ofNat n) = none := by decide
    obtain ⟨hminus, hdollar, hx, hhex⟩ := hall n hhigh hlow
    simp [isMark, hminus, hdollar, hx, hhex, hdecimal]
  · have hnat : (Char.ofNat n).toNat = n := toNat_ofNat (.inl (by omega))
    refine Bool.eq_false_iff.mpr fun hm => ?_
    obtain ⟨z, hz, hle, hlt⟩ := exists_digitZero hm (by omega)
    have hcases := digitZero_cases hz
    omega

end Numeral

namespace Text

open Numeral

/-- Only `F`s are alone in the longer upper case of a character. -/
theorem expansions_marks : ∀ r ∈ upperExpansions, r.2 = [0x46, 0x46] ∨
    ∃ n ∈ r.2, 0x46 < n ∧ n < 0x58 ∨ 0x80 ≤ n ∧ n < 0x660 := by
  decide

/-- Ranges without decimal digits. The characters beyond ASCII with an upper case of their own
are in them, and so is their upper case. -/
def letterBlocks : Ranges :=
  [(0x3A, 0x65F), (0x10A0, 0x13FF), (0x1C80, 0x2D2D), (0xA640, 0xA7F6), (0xAB53, 0xABBF),
   (0xFB00, 0xFB17), (0xFF21, 0x1044F), (0x104B0, 0x10CF2), (0x118A0, 0x118DF),
   (0x16E40, 0x16E7F), (0x1E900, 0x1E943)]

theorem blocks_digits {first last z : Nat} (hb : (first, last) ∈ letterBlocks)
    (hz : z ∈ digitZeros) : last < z ∨ z + 10 ≤ first := by
  have hall : ∀ b ∈ letterBlocks, ∀ z ∈ digitZeros, b.2 < z ∨ z + 10 ≤ b.1 := by decide
  exact hall _ hb z hz

theorem expansions_digits {n z : Nat} {images : List Nat} (hr : (n, images) ∈ upperExpansions)
    (hz : z ∈ digitZeros) : n < z ∨ z + 10 ≤ n := by
  have hall : ∀ r ∈ upperExpansions, ∃ b ∈ letterBlocks, b.1 ≤ r.1 ∧ r.1 ≤ b.2 := by
    decide
  obtain ⟨⟨first, last⟩, hb, hfirst, hlast⟩ := hall _ hr
  have hout := blocks_digits hb hz
  simp only at hfirst hlast
  omega

section
variable {first last stride image : Nat} (hr : (first, last, stride, image) ∈ upperRuns)
include hr

theorem runs_marks : (0x80 ≤ image ∧ image + (last - first) < 0xD800) ∨
    (0xDFFF < image ∧ image + (last - first) < 0x110000) ∨
    (first = last ∧ 0x46 < image ∧ image < 0x58) := by
  have hall : ∀ r ∈ upperRuns, (0x80 ≤ r.2.2.2 ∧ r.2.2.2 + (r.2.1 - r.1) < 0xD800) ∨
      (0xDFFF < r.2.2.2 ∧ r.2.2.2 + (r.2.1 - r.1) < 0x110000) ∨
      (r.1 = r.2.1 ∧ 0x46 < r.2.2.2 ∧ r.2.2.2 < 0x58) := by decide +kernel
  exact hall _ hr

/-- Decimal digits have no upper case of their own, and are not the upper case of anything. -/
theorem runs_digits {z : Nat} (hz : z ∈ digitZeros) : (last < z ∨ z + 10 ≤ first) ∧
    (image + (last - first) < z ∨ z + 10 ≤ image) := by
  have hall : ∀ r ∈ upperRuns, (∃ b ∈ letterBlocks, b.1 ≤ r.1 ∧ r.2.1 ≤ b.2) ∧
      ∃ b ∈ letterBlocks, b.1 ≤ r.2.2.2 ∧ r.2.2.2 + (r.2.1 - r.1) ≤ b.2 := by decide +kernel
  obtain ⟨⟨⟨low, high⟩, hb, hlow, hhigh⟩, ⟨⟨low', high'⟩, hb', hlow', hhigh'⟩⟩ := hall _ hr
  have hout := blocks_digits hb hz
  have hout' := blocks_digits hb' hz
  simp only at hlow hhigh hlow' hhigh'
  omega

end

/-- The upper case of a character by its run is no mark of a number beyond ASCII. -/
theorem isMark_runImage {n m : Nat} (h : runImage? n = some m) : isMark (Char.ofNat m) = false := by
  obtain ⟨⟨first, last, stride, image⟩, hr, him⟩ := List.exists_of_findSome?_eq_some h
  simp only at him
  split at him
  · next hn =>
      cases him
      obtain ⟨hfirst, hlast, -⟩ := hn
      have hlong : 0x80 ≤ image + (n - first) → (image + (n - first)).isValidChar →
          isMark (Char.ofNat (image + (n - first))) = false := by
        intro hmin hvalid
        have hnat := toNat_ofNat hvalid
        refine Bool.eq_false_iff.mpr fun hm => ?_
        obtain ⟨z, hz, hle, hlt⟩ := exists_digitZero hm (by omega)
        have hout := runs_digits hr hz
        omega
      rcases runs_marks hr with ⟨hmin, hmax⟩ | ⟨hmin, hmax⟩ | ⟨heq, hletter⟩
      · exact hlong (by omega) (.inl (by omega))
      · exact hlong (by omega) (.inr ⟨by omega, by omega⟩)
      · have hzero : n - first = 0 := by omega
        rw [hzero]
        exact isMark_eq_false (.inl hletter)
  · cases him

/-- Only ASCII letters among the characters of numbers have an upper case of their own. -/
theorem upperChar_of_isMark {c : Char} (h : isMark c = true) : upperChar c = [c.toUpper] := by
  unfold upperChar
  split
  · rfl
  · next hc =>
      obtain ⟨z, hz, hle, hlt⟩ := exists_digitZero h (by omega)
      have hexpansion : upperExpansions.lookup c.toNat = none := by
        refine List.lookup_eq_none_iff.mpr fun ⟨n, images⟩ hr => bne_iff_ne.mpr fun heq => ?_
        have hout := expansions_digits hr hz
        simp only at heq
        omega
      have hrun : runImage? c.toNat = none := by
        refine List.findSome?_eq_none_iff.mpr fun ⟨first, last, stride, image⟩ hr => if_neg ?_
        rintro ⟨hfirst, hlast, -⟩
        have hout := runs_digits hr hz
        omega
      rw [hexpansion, hrun, toUpper_of_le (by omega)]

theorem mem_upperExpansions {c : Char} {images : List Nat}
    (h : upperExpansions.lookup c.toNat = some images) : (c.toNat, images) ∈ upperExpansions := by
  obtain ⟨l₁, l₂, hl, -⟩ := List.lookup_eq_some_iff.mp h
  rw [hl]
  simp

/-- The upper case of a character is that of ASCII, an expansion, the image under a run, or the
character itself. -/
theorem upperChar_cases (c : Char) :
    (c.toNat < 0x80 ∧ upperChar c = [c.toUpper]) ∨
    (∃ images, (c.toNat, images) ∈ upperExpansions ∧ upperChar c = images.map Char.ofNat) ∨
    (∃ n, runImage? c.toNat = some n ∧ upperChar c = [Char.ofNat n]) ∨
    (0x80 ≤ c.toNat ∧ upperChar c = [c]) := by
  by_cases hc : c.toNat < 0x80
  · exact .inl ⟨hc, if_pos hc⟩
  · right
    cases himages : upperExpansions.lookup c.toNat with
    | some images =>
        refine .inl ⟨images, mem_upperExpansions himages, ?_⟩
        simp only [upperChar, if_neg hc, himages]
    | none =>
        right
        cases hrun : runImage? c.toNat with
        | some n =>
            refine .inl ⟨n, rfl, ?_⟩
            simp only [upperChar, if_neg hc, himages, hrun]
        | none =>
            refine .inr ⟨Nat.le_of_not_lt hc, ?_⟩
            simp only [upperChar, if_neg hc, himages, hrun]

/-- A character whose upper case can stand in a number is an ASCII letter, has no upper case of
its own, or is the ligature of two small `f`s. -/
theorem upperChar_of_marks {c : Char} (h : ∀ t ∈ upperChar c, isMark t = true) :
    upperChar c = [c.toUpper] ∨ upperChar c = ['F', 'F'] := by
  rcases upperChar_cases c with ⟨-, hupper⟩ | ⟨images, hmem, hupper⟩ | ⟨n, hrun, hupper⟩ |
    ⟨hc, hupper⟩
  · exact .inl hupper
  · rw [hupper] at h ⊢
    rcases expansions_marks _ hmem with heq | ⟨n, hn, hm⟩
    · cases heq
      exact .inr rfl
    · have hmark := h _ (List.mem_map_of_mem hn)
      rw [isMark_eq_false hm] at hmark
      cases hmark
  · have hmark := h (Char.ofNat n) (by simp [hupper])
    rw [isMark_runImage hrun] at hmark
    cases hmark
  · left
    rw [hupper, toUpper_of_le hc]

/-- Characters whose upper case is written like a number, with no two `F`s together, differ from
it in the case of ASCII letters only. -/
theorem map_toUpper_of_flatMap {cs ts : List Char} (h : cs.flatMap upperChar = ts)
    (hm : ∀ t ∈ ts, isMark t = true) (hff : ¬ ['F', 'F'] <:+: ts) : cs.map Char.toUpper = ts := by
  induction cs generalizing ts with
  | nil => exact h
  | cons c cs ih =>
      rw [List.flatMap_cons] at h
      subst h
      have hhead : ∀ t ∈ upperChar c, isMark t = true :=
        fun t ht => hm t (List.mem_append_left _ ht)
      have htail : ∀ t ∈ cs.flatMap upperChar, isMark t = true :=
        fun t ht => hm t (List.mem_append_right _ ht)
      rcases upperChar_of_marks hhead with hc | hc
      · have hff' : ¬ ['F', 'F'] <:+: cs.flatMap upperChar := fun hi =>
          hff (hi.trans (List.suffix_append _ _).isInfix)
        rw [List.map_cons, hc, ih rfl htail hff', List.singleton_append]
      · rw [hc] at hff
        exact absurd (List.prefix_append _ _).isInfix hff

theorem toList_upper (s : String) : (upper s).toList = s.toList.flatMap upperChar := by
  simp [upper]

theorem upper_eq_self {s : String} (h : ∀ c ∈ s.toList, upperChar c = [c]) : upper s = s := by
  rw [← String.toList_inj, toList_upper, List.flatMap_congr h, List.flatMap_singleton']

end Text

namespace Numeral

open Text

/-- What has the upper case of a number, without two `F`s together, is that number. -/
theorem parse_of_upper {text name : String} {n : Int}
    (hn : parse text = .ok n) (h : upper name = upper text)
    (hff : ¬ ['F', 'F'] <:+: (upper text).toList) : parse name = .ok n := by
  have hmarks := isMark_of_parse hn
  have htext : (upper text).toList = text.toList.map Char.toUpper := by
    rw [toList_upper, List.map_eq_flatMap]
    exact List.flatMap_congr fun c hc => upperChar_of_isMark (hmarks c hc)
  have hupper : ∀ t ∈ (upper text).toList, isMark t = true := by
    rw [htext]
    intro t ht
    obtain ⟨c, hc, rfl⟩ := List.mem_map.mp ht
    rw [isMark_toUpper]
    exact hmarks c hc
  have hname : name.toList.flatMap upperChar = (upper text).toList := by
    rw [← toList_upper, h]
  exact parse_of_map_toUpper hn ((map_toUpper_of_flatMap hname hupper hff).trans htext)

end Numeral

/-- An entry can have this name if some token with it for its upper case is no number. -/
def Dictionary.Nameable (name : String) : Prop :=
  ∃ text x, Numeral.parse text = .error x ∧ name = Text.upper text

theorem Builtin.nameable (b : Builtin) : Dictionary.Nameable b.name := by
  have hall : ∀ b ∈ Builtin.all, (Numeral.parse b.name).toOption = none := by decide
  have hparse := hall b b.mem_all
  cases hx : Numeral.parse b.name with
  | error x => exact ⟨b.name, x, hx, b.upper_name.symm⟩
  | ok n =>
      rw [hx] at hparse
      cases hparse

theorem Draft.name_of_take {d d' : Draft} {p : Piece} (h : d.take p = .ok d') :
    d'.name = d.name := by
  cases p with
  | atom a | ifWord | doWord =>
      cases h
      rfl
  | elseWord | thenWord | loopWord =>
      simp only [take, turnElse, closeThen, closeLoop] at h
      split at h <;> cases h <;> rfl

theorem Draft.name_of_finish {d : Draft} {w : Word} (h : d.finish = .ok w) : w.name = d.name := by
  unfold finish at h
  split at h <;> cases h
  rfl

namespace Program

/-- All names of the program passed the check of the colon, as they were written. -/
structure Named (p : Program) : Prop where
  dict : ∀ {position w}, p.dict.get? position = some w → Dictionary.Nameable w.name
  draft : ∀ {d}, p.draft = some d → Dictionary.Nameable d.name

theorem Edit.named {p p' : Program} (h : p.Edit p') (hp : p.Named) : p'.Named := by
  cases h with
  | mark hm =>
      refine ⟨fun {position w'} hw' => ?_, hp.draft⟩
      obtain ⟨w, hw, hu⟩ := Dictionary.get?_of_unmarked (Dictionary.unmarked_markLatest hm).symm hw'
      rw [← Word.name_of_unmarked hu]
      exact hp.dict hw
  | @start name x hn hd =>
      refine ⟨hp.dict, fun hd => ?_⟩
      cases hd
      exact ⟨name, x, hn, rfl⟩
  | take hd hl ht =>
      refine ⟨hp.dict, fun hd' => ?_⟩
      cases hd'
      rw [Draft.name_of_take ht]
      exact hp.draft hd
  | finish hd hw =>
      refine ⟨fun {position v} hv => ?_, nofun⟩
      rw [Dictionary.get?_add] at hv
      split at hv
      · cases hv
        rw [Draft.name_of_finish hw]
        exact hp.draft hd
      · exact hp.dict hv
  | drop => exact ⟨hp.dict, nofun⟩

theorem Edits.named {p p' : Program} (h : p.Edits p') (hp : p.Named) : p'.Named := by
  induction h with
  | refl => exact hp
  | tail _ he ih => exact he.named ih

end Program

theorem Reachable.named {e : Engine} (h : Reachable e) : e.program.Named := by
  have hbuiltins : Program.Named ⟨.builtins, none⟩ := by
    refine ⟨fun {position w} hw => ?_, nofun⟩
    obtain ⟨b, rfl⟩ := Dictionary.ofBuiltin_of_get? hw
    exact b.nameable
  have hedits : Program.Edits ⟨.builtins, none⟩ e.program :=
    h.abides (Run.KeepsEdits.abiding _) .refl
  exact hedits.named hbuiltins

section
variable {text : String} {n : Int}

/-- A number without two `F`s together does not have the upper case of a name. -/
theorem Dictionary.Nameable.ne_upper {name : String} (h : Nameable name)
    (hn : Numeral.parse text = .ok n) (hff : ¬ ['F', 'F'] <:+: (Text.upper text).toList) :
    Text.upper text ≠ name := by
  obtain ⟨written, x, hx, rfl⟩ := h
  intro heq
  rw [Numeral.parse_of_upper hn heq.symm hff] at hx
  cases hx

theorem Program.Named.find?_eq_none {p : Program} (h : p.Named) (hn : Numeral.parse text = .ok n)
    (hff : ¬ ['F', 'F'] <:+: (Text.upper text).toList) : p.dict.find? text = none := by
  cases hfind : p.dict.find? text with
  | none => rfl
  | some position =>
      obtain ⟨w, hw, hname⟩ := Dictionary.get?_of_find? hfind
      exact absurd hname.symm ((h.dict hw).ne_upper hn hff)

end

namespace Run

variable {lim : Limits} {fuel : Nat} {e : Engine} {text : String} {n : Int}

/-- A number beyond the cells is refused, with its value if that can be printed. -/
def rejection (text : String) (n : Int) : Fault :=
  if Numeral.printable n then .overflow n else .undefined text

theorem cellOf_of_parse_out (hn : Numeral.parse text = .ok n) (h : ¬ Cell.InRange n) :
    cellOf text = .error (rejection text n) := by
  unfold cellOf
  simp only [hn, Cell.check, if_neg h, rejection]
  cases Numeral.printable n <;> rfl

end Run

/-- The token is the number `n`: it is pushed, or compiled while a definition is open, and one
beyond the cells is refused. -/
structure Engine.Denotes (e : Engine) (text : String) (n : Int) : Prop where
  pushed : ∀ lim fuel, e.draft = none → Cell.InRange n →
    (Run.token lim fuel text).run e = .ok () { e with stack := n :: e.stack }
  compiled : ∀ lim fuel {d}, e.draft = some d → Cell.InRange n →
    (Run.token lim fuel text).run e = .ok () { e with draft := some (d.append (.lit n)) }
  refused : ∀ lim fuel, ¬ Cell.InRange n →
    (Run.token lim fuel text).run e = .error (.fault (Run.rejection text n)) e

/-- In every state of a session a number is found under no name and means itself, unless two `F`s
stand together in it. -/
theorem numbers_unshadowed {e : Engine} (h : Reachable e) {text : String} {n : Int}
    (hn : Numeral.parse text = .ok n) (hff : ¬ ['F', 'F'] <:+: (Text.upper text).toList) :
    e.dict.find? text = none ∧ e.Denotes text n := by
  have hfind : e.dict.find? text = none := h.named.find?_eq_none hn hff
  refine ⟨hfind, fun lim fuel hd hr => ?_, fun lim fuel d hd hr => ?_, fun lim fuel hr => ?_⟩
  · rw [Run.run_token_number hd hfind, Run.cellOf_of_parse hn hr]
    rfl
  · have hown : Text.upper text ≠ d.name := (h.named.draft hd).ne_upper hn hff
    rw [Run.run_token_literal hd hfind hown, Run.cellOf_of_parse hn hr]
    rfl
  · have hcell := Run.cellOf_of_parse_out hn hr
    cases hd : e.draft with
    | none =>
        rw [Run.run_token_number hd hfind, hcell]
        rfl
    | some d =>
        have hown : Text.upper text ≠ d.name := (h.named.draft hd).ne_upper hn hff
        rw [Run.run_token_literal hd hfind hown, hcell]
        rfl

/-- A session whose last word is called like a number in capitals, and the number is no more. -/
def ligature : Engine := engine ((Run.feed {} 100 ": 0x\ufb00 1 ;").run .fresh)

theorem reachable_ligature : Reachable ligature := .feed _ _ _ .fresh (by decide +kernel)

/-- Other numbers stay what they are, in hexadecimal as well. -/
theorem numbers_unshadowed_ligature :
    ligature.dict.find? "-0xfE" = none ∧
    (Run.token {} 0 "-0xfE").run ligature = .ok () { ligature with stack := [-254] } := by
  have hn : Numeral.parse "-0xfE" = .ok (-254) := by decide
  obtain ⟨hfind, hmeans⟩ :=
    numbers_unshadowed reachable_ligature hn (by decide +kernel)
  refine ⟨hfind, ?_⟩
  rw [hmeans.pushed {} 0 (by decide +kernel) (by decide)]
  decide +kernel

/-- With two `F`s a number can be shadowed. -/
theorem number_shadowed_ligature :
    ¬ ∀ e : Engine, Reachable e → ∀ (text : String) (n : Int), Numeral.parse text = .ok n →
      e.dict.find? text = none ∧ e.Denotes text n := by
  intro hall
  have hn : Numeral.parse "0xff" = .ok 255 := by decide
  have hfound : ligature.dict.find? "0xff" = some 36 := by decide +kernel
  obtain ⟨hfind, -⟩ := hall ligature reachable_ligature "0xff" 255 hn
  rw [hfound] at hfind
  cases hfind

end Forthlet
