import Mathlib.Data.List.Forall2
import Mathlib.Data.Nat.Digits.Defs
import Forthlet.Numeral

/-!
# Numbers as they are written

The reader of numerals looks for a sign, then for a mark, and then for digits one by one. Beside it
stands a grammar that says what the numerals are and which number each of them is: `Spells` without
a sign and `Writes` with one. A digit is told by its place in the row of its script, or by how it is
printed, and the number is `Nat.ofDigits` of them. The reader accepts what is written in this
grammar and nothing else, so it reads back whatever is printed, in base ten and in base sixteen.
-/
namespace Forthlet

/-- What is related to a list element by element, is related to one of the elements. -/
theorem exists_of_forall₂ {α β : Type} {R : α → β → Prop} {as : List α} {bs : List β} {b : β}
    (h : List.Forall₂ R as bs) (hb : b ∈ bs) : ∃ a, R a b := by
  induction h with
  | nil => cases hb
  | cons hr _ ih =>
      rcases List.mem_cons.mp hb with rfl | hb
      · exact ⟨_, hr⟩
      · exact ih hb

namespace Numeral

/-- The character is this digit of base sixteen, in either case. -/
def IsHexDigit (c : Char) (d : Nat) : Prop :=
  d < 16 ∧ c.toLower = Nat.digitChar d

/-- The character is this decimal digit in the row of some script. -/
def IsDecimalDigit (c : Char) (d : Nat) : Prop :=
  d < 10 ∧ ∃ first ∈ Text.digitZeros, c.toNat = first + d

instance (c : Char) (d : Nat) : Decidable (IsHexDigit c d) :=
  inferInstanceAs (Decidable (_ ∧ _))

instance (c : Char) (d : Nat) : Decidable (IsDecimalDigit c d) :=
  inferInstanceAs (Decidable (_ ∧ _))

/-- What tells that the digits are hexadecimal. -/
def hexMarks : List (List Char) := [['0', 'x'], ['0', 'X'], ['$']]

/-- The numeral without a sign is this number: hexadecimal digits behind a mark, as many as one
likes, or decimal digits of any scripts, as many as can be read. -/
inductive Spells : List Char → Nat → Prop
  | hex {mark digits : List Char} {ds : List Nat} (hmark : mark ∈ hexMarks) (hne : digits ≠ [])
      (hdigits : List.Forall₂ IsHexDigit digits ds) :
      Spells (mark ++ digits) (Nat.ofDigits 16 ds.reverse)
  | decimal {digits : List Char} {ds : List Nat} (hne : digits ≠ [])
      (hlength : digits.length ≤ decimalLimit)
      (hdigits : List.Forall₂ IsDecimalDigit digits ds) :
      Spells digits (Nat.ofDigits 10 ds.reverse)

/-- The numeral is this number; a single minus sign may stand before it. -/
inductive Writes : List Char → Int → Prop
  | plain {cs : List Char} {n : Nat} (h : Spells cs n) : Writes cs n
  | negative {cs : List Char} {n : Nat} (h : Spells cs n) : Writes ('-' :: cs) (-n)

/-- The sign that is printed before a number. -/
def sign (n : Int) : List Char := if n < 0 then ['-'] else []

section
variable {c : Char} {d : Nat}

theorem hexValue?_eq_none (h : 0x80 ≤ c.toNat) : hexValue? c = none := by
  have hdigit : c.isDigit = false := by
    have hnine : ¬ c.toNat ≤ 57 := by omega
    have : ¬ c.val ≤ 57 := hnine
    simp [Char.isDigit, this]
  have hlower : ¬ c ≤ 'f' := fun hle => by
    have : c.toNat ≤ 102 := hle
    omega
  have hupper : ¬ c ≤ 'F' := fun hle => by
    have : c.toNat ≤ 70 := hle
    omega
  simp [hexValue?, hdigit, hlower, hupper]

theorem toLower_of_le (h : 0x80 ≤ c.toNat) : c.toLower = c := by
  apply dif_neg
  rintro ⟨-, hz⟩
  have hnat : c.toNat ≤ 90 := hz
  omega

theorem hexValue?_eq_some_iff : hexValue? c = some d ↔ IsHexDigit c d := by
  by_cases hc : c.toNat < 0x80
  · have hsmall : ∀ k < 0x80, ∀ d ∈ hexValue? (Char.ofNat k), d < 16 := by decide
    have hall : ∀ k < 0x80, ∀ d < 16, hexValue? (Char.ofNat k) = some d ↔
        (Char.ofNat k).toLower = Nat.digitChar d := by decide
    have hvalue := hall c.toNat hc
    have hlt := hsmall c.toNat hc
    rw [Char.ofNat_toNat] at hvalue hlt
    constructor
    · intro h
      exact ⟨hlt d h, (hvalue d (hlt d h)).mp h⟩
    · rintro ⟨hd, h⟩
      exact (hvalue d hd).mpr h
  · have hascii : ∀ d < 16, (Nat.digitChar d).toNat < 0x80 := by decide
    constructor
    · intro h
      rw [hexValue?_eq_none (by omega)] at h
      cases h
    · rintro ⟨hd, h⟩
      rw [toLower_of_le (by omega)] at h
      exact absurd (h ▸ hascii d hd) hc

/-- The rows of the scripts do not overlap, so a digit has one value. -/
theorem decimalValue?_eq_some_iff : Text.decimalValue? c = some d ↔ IsDecimalDigit c d := by
  constructor
  · intro h
    obtain ⟨first, hfind, rfl⟩ := Option.map_eq_some_iff.mp h
    have hrow := List.find?_some hfind
    simp only [Bool.and_eq_true, decide_eq_true_eq] at hrow
    exact ⟨by omega, first, List.mem_of_find?_eq_some hfind, by omega⟩
  · rintro ⟨hd, first, hfirst, hc⟩
    have hapart : ∀ a ∈ Text.digitZeros, ∀ b ∈ Text.digitZeros,
        a < b + 10 → b < a + 10 → a = b := by decide +kernel
    have hsome : (Text.digitZeros.find? fun first =>
        first ≤ c.toNat && c.toNat < first + 10).isSome := by
      refine List.find?_isSome.mpr ⟨first, hfirst, ?_⟩
      simp only [Bool.and_eq_true, decide_eq_true_eq]
      omega
    obtain ⟨found, hfind⟩ := Option.isSome_iff_exists.mp hsome
    have hrow := List.find?_some hfind
    simp only [Bool.and_eq_true, decide_eq_true_eq] at hrow
    obtain rfl : found = first :=
      hapart found (List.mem_of_find?_eq_some hfind) first hfirst (by omega) (by omega)
    refine Option.map_eq_some_iff.mpr ⟨found, hfind, by omega⟩

end

theorem mapM_eq_some_iff {α β : Type} {f : α → Option β} {as : List α} {bs : List β} :
    as.mapM f = some bs ↔ List.Forall₂ (fun a b => f a = some b) as bs := by
  induction as generalizing bs with
  | nil => simp [eq_comm]
  | cons a as ih =>
      rw [List.mapM_cons, List.forall₂_cons_left_iff]
      constructor
      · intro h
        obtain ⟨b, hb, h⟩ := Option.bind_eq_some_iff.mp h
        obtain ⟨bs, hbs, h⟩ := Option.bind_eq_some_iff.mp h
        cases h
        exact ⟨b, bs, hb, ih.mp hbs, rfl⟩
      · rintro ⟨b, bs, hb, hbs, rfl⟩
        rw [hb, ih.mpr hbs]
        rfl

theorem ofDigits_eq (base : Nat) (digits : List Nat) :
    ofDigits base digits = Nat.ofDigits base digits.reverse := by
  rw [Nat.ofDigits_eq_foldr, List.foldr_reverse, ofDigits]
  simp [Nat.mul_comm, Nat.add_comm]

section
variable {cs digits : List Char} {n : Nat}

theorem hexBody?_eq_some_iff :
    hexBody? cs = some digits ↔ ∃ mark ∈ hexMarks, cs = mark ++ digits := by
  constructor
  · intro h
    unfold hexBody? at h
    split at h <;> cases h
    · exact ⟨['$'], by decide, rfl⟩
    · exact ⟨['0', 'x'], by decide, rfl⟩
    · exact ⟨['0', 'X'], by decide, rfl⟩
  · rintro ⟨mark, hmark, rfl⟩
    simp only [hexMarks, List.mem_cons, List.not_mem_nil, or_false] at hmark
    rcases hmark with rfl | rfl | rfl <;> rfl

/-- Decimal digits hold no mark of hexadecimal ones. -/
theorem hexBody?_of_decimal {ds : List Nat} (h : List.Forall₂ IsDecimalDigit cs ds) :
    hexBody? cs = none := by
  have hmarks : ∀ mark ∈ hexMarks, mark.any fun c => (Text.decimalValue? c).isNone := by
    decide +kernel
  refine Option.eq_none_iff_forall_ne_some.mpr fun digits hd => ?_
  obtain ⟨mark, hmark, rfl⟩ := hexBody?_eq_some_iff.mp hd
  obtain ⟨c, hc, hnone⟩ := List.any_eq_true.mp (hmarks mark hmark)
  obtain ⟨d, hd⟩ := exists_of_forall₂ h.flip (List.mem_append_left digits hc)
  rw [decimalValue?_eq_some_iff.mpr hd] at hnone
  cases hnone

theorem mapM_hexValue? {ds : List Nat} :
    cs.mapM hexValue? = some ds ↔ List.Forall₂ IsHexDigit cs ds := by
  simp only [mapM_eq_some_iff, hexValue?_eq_some_iff]

theorem mapM_decimalValue? {ds : List Nat} :
    cs.mapM Text.decimalValue? = some ds ↔ List.Forall₂ IsDecimalDigit cs ds := by
  simp only [mapM_eq_some_iff, decimalValue?_eq_some_iff]

theorem magnitude_eq_value_iff : magnitude cs = .value n ↔ Spells cs n := by
  constructor
  · intro h
    unfold magnitude at h
    split at h
    · next digits hb =>
        obtain ⟨mark, hmark, rfl⟩ := hexBody?_eq_some_iff.mp hb
        split at h
        · cases h
        · next hne =>
            split at h
            · next ds hds =>
                cases h
                rw [ofDigits_eq]
                exact .hex hmark (by simpa using hne) (mapM_hexValue?.mp hds)
            · cases h
    · split at h
      · cases h
      · next hsigns =>
          split at h
          · cases h
          · next hlength =>
              split at h
              · next ds hds =>
                  cases h
                  rw [ofDigits_eq]
                  refine .decimal ?_ (by omega) (mapM_decimalValue?.mp hds)
                  rintro rfl
                  exact hsigns rfl
              · cases h
  · intro h
    cases h with
    | @hex mark digits ds hmark hne hdigits =>
        have hbody : hexBody? (mark ++ digits) = some digits :=
          hexBody?_eq_some_iff.mpr ⟨mark, hmark, rfl⟩
        simp only [magnitude, hbody, List.isEmpty_eq_false_iff.mpr hne, mapM_hexValue?.mpr hdigits,
          ofDigits_eq]
        rfl
    | @decimal _ ds hne hlength hdigits =>
        have hsigns : cs.all Text.isDigitSign = true := by
          refine List.all_eq_true.mpr fun c hc => ?_
          obtain ⟨d, hd⟩ := exists_of_forall₂ hdigits.flip hc
          simp [Text.isDigitSign, decimalValue?_eq_some_iff.mpr hd]
        simp only [magnitude, hexBody?_of_decimal hdigits, List.isEmpty_eq_false_iff.mpr hne,
          hsigns, if_neg (Nat.not_lt.mpr hlength), mapM_decimalValue?.mpr hdigits, ofDigits_eq]
        rfl

/-- A numeral without a sign starts with no minus sign. -/
theorem Spells.head?_ne (h : Spells cs n) : cs ≠ [] ∧ cs.head? ≠ some '-' := by
  cases h with
  | @hex mark digits ds hmark hne hdigits =>
      simp only [hexMarks, List.mem_cons, List.not_mem_nil, or_false] at hmark
      rcases hmark with rfl | rfl | rfl <;> simp
  | @decimal _ ds hne hlength hdigits =>
      refine ⟨hne, fun hminus => ?_⟩
      have hnone : Text.decimalValue? '-' = none := by decide +kernel
      obtain ⟨d, hd⟩ := exists_of_forall₂ hdigits.flip (List.mem_of_head? hminus)
      rw [decimalValue?_eq_some_iff.mpr hd] at hnone
      cases hnone

theorem splitSign_minus (h : cs ≠ []) : splitSign ('-' :: cs) = (true, cs) := by
  cases cs with
  | nil => exact absurd rfl h
  | cons c cs => rfl

/-- A sign is split off only where one stands before something else. -/
theorem splitSign_cases (cs : List Char) :
    (∃ body, cs = '-' :: body ∧ splitSign cs = (true, body)) ∨ splitSign cs = (false, cs) := by
  unfold splitSign
  split
  · exact .inl ⟨_, rfl, rfl⟩
  · exact .inr rfl

theorem splitSign_of_head? (h : cs.head? ≠ some '-') : splitSign cs = (false, cs) := by
  rcases splitSign_cases cs with ⟨body, rfl, -⟩ | hsplit
  · exact absurd rfl h
  · exact hsplit

end

/-- The reader takes the numerals of the grammar for what they are, and refuses all other texts. -/
theorem parse_eq_ok_iff {text : String} {n : Int} :
    parse text = .ok n ↔ Writes text.toList n := by
  constructor
  · intro h
    unfold parse at h
    rcases splitSign_cases text.toList with ⟨body, htext, hsplit⟩ | hsplit
    · rw [hsplit] at h
      simp only at h
      split at h
      · next m hm =>
          cases h
          rw [htext]
          exact .negative (magnitude_eq_value_iff.mp hm)
      · cases h
      · cases h
    · rw [hsplit] at h
      simp only at h
      split at h
      · next m hm =>
          cases h
          exact .plain (magnitude_eq_value_iff.mp hm)
      · cases h
      · cases h
  · intro h
    unfold parse
    generalize text.toList = cs at h ⊢
    cases h with
    | plain h => simp [splitSign_of_head? h.head?_ne.2, magnitude_eq_value_iff.mpr h]
    | negative h => simp [splitSign_minus h.head?_ne.1, magnitude_eq_value_iff.mpr h]

/-- What is printed for a number are digits below the base, with the number for their value. -/
theorem exists_toDigits {b : Nat} (hb : 1 < b) (m : Nat) :
    ∃ ds : List Nat, Nat.toDigits b m = ds.map Nat.digitChar ∧ (∀ d ∈ ds, d < b) ∧
      Nat.ofDigits b ds.reverse = m := by
  induction m using Nat.base_induction b hb with
  | single d hd => exact ⟨[d], Nat.toDigits_of_lt_base hd, by simpa, by simp⟩
  | digit m d hd hm ih =>
      obtain ⟨ds, htext, hlt, hvalue⟩ := ih
      refine ⟨ds ++ [d], ?_, ?_, ?_⟩
      · rw [← Nat.toDigits_append_toDigits hb hm hd, htext, Nat.toDigits_of_lt_base hd,
          List.map_append, List.map_singleton]
      · exact List.forall_mem_append.mpr ⟨hlt, by simpa⟩
      · rw [List.reverse_append, List.reverse_singleton, List.singleton_append, Nat.ofDigits_cons,
          hvalue]
        omega

theorem forall₂_isHexDigit {digits : List Char} {ds : List Nat} (hlt : ∀ d ∈ ds, d < 16)
    (h : digits.map Char.toLower = ds.map Nat.digitChar) : List.Forall₂ IsHexDigit digits ds := by
  have hmaps : List.Forall₂ Eq (digits.map Char.toLower) (ds.map Nat.digitChar) := by
    rw [h]
    exact List.forall₂_refl _
  rw [List.forall₂_map_left_iff, List.forall₂_map_right_iff] at hmaps
  exact ((List.forall₂_and_left _ _).mpr ⟨hlt, hmaps.flip⟩).flip

theorem forall₂_isHexDigit_zeros (k : Nat) :
    List.Forall₂ IsHexDigit (List.replicate k '0') (List.replicate k 0) :=
  forall₂_isHexDigit (fun d hd => by simp [List.eq_of_mem_replicate hd]) (by simp)

theorem isDecimalDigit_digitChar {d : Nat} (h : d < 10) : IsDecimalDigit (Nat.digitChar d) d :=
  ⟨h, 0x30, by decide, Nat.toNat_digitChar_of_lt_ten h⟩

/-- Zeros before the digits and the case of letters make no difference. -/
theorem spells_hex {mark digits : List Char} {m : Nat} (hmark : mark ∈ hexMarks) (zeros : Nat)
    (hdigits : digits.map Char.toLower = Nat.toDigits 16 m) :
    Spells (mark ++ (List.replicate zeros '0' ++ digits)) m := by
  obtain ⟨ds, htext, hlt, hvalue⟩ := exists_toDigits (b := 16) (by decide) m
  rw [htext] at hdigits
  have hne : List.replicate zeros '0' ++ digits ≠ [] := by
    have : digits ≠ [] := by
      rintro rfl
      exact Nat.toDigits_ne_nil (htext.trans hdigits.symm)
    simp [this]
  have hall : List.Forall₂ IsHexDigit (List.replicate zeros '0' ++ digits)
      (List.replicate zeros 0 ++ ds) :=
    List.rel_append (forall₂_isHexDigit_zeros zeros) (forall₂_isHexDigit hlt hdigits)
  have hspells := Spells.hex hmark hne hall
  rwa [List.reverse_append, List.reverse_replicate, Nat.ofDigits_append_replicate_zero,
    hvalue] at hspells

theorem spells_decimal {m : Nat} (h : (Nat.toDigits 10 m).length ≤ decimalLimit) :
    Spells (Nat.toDigits 10 m) m := by
  obtain ⟨ds, htext, hlt, hvalue⟩ := exists_toDigits (b := 10) (by decide) m
  have hall : List.Forall₂ IsDecimalDigit (Nat.toDigits 10 m) ds := by
    rw [htext, List.forall₂_map_left_iff, List.forall₂_same]
    exact fun d hd => isDecimalDigit_digitChar (hlt d hd)
  have hspells := Spells.decimal Nat.toDigits_ne_nil h hall
  rwa [hvalue] at hspells

/-- A numeral of the absolute value with the sign before it. -/
theorem writes_sign {cs : List Char} {n : Int} (h : Spells cs n.natAbs) :
    Writes (sign n ++ cs) n := by
  unfold sign
  split
  · next hneg =>
      have hn : n = -(n.natAbs : Int) := by omega
      have hwrites := Writes.negative h
      rwa [← hn] at hwrites
  · next hneg =>
      have hn : (n.natAbs : Int) = n := by omega
      have hwrites := Writes.plain h
      rwa [hn] at hwrites

theorem toList_toString (n : Int) : (toString n).toList = sign n ++ Nat.toDigits 10 n.natAbs := by
  rw [Int.toString_eq_repr, Int.repr_eq_if, sign]
  split
  · next h =>
      rw [if_neg (by omega), Nat.toList_repr, List.nil_append]
      congr 1
      omega
  · next h =>
      rw [if_pos (by omega), String.toList_append, Nat.toList_repr]
      congr 2
      omega

theorem printable_iff {n : Int} :
    printable n = true ↔ (Nat.toDigits 10 n.natAbs).length ≤ decimalLimit := by
  have hbound : ∀ k, 0 < k →
      (n.natAbs < Nat.pow 10 k ↔ (Nat.toDigits 10 n.natAbs).length ≤ k) :=
    fun k hk => (Nat.length_toDigits_le_iff (by decide) hk).symm
  unfold printable printBound
  rw [decide_eq_true_iff]
  exact hbound decimalLimit (by decide)

/-- What is printed for a number is read back. -/
theorem parse_toString {n : Int} (h : printable n = true) : parse (toString n) = .ok n := by
  rw [parse_eq_ok_iff, toList_toString]
  exact writes_sign (spells_decimal (printable_iff.mp h))

/-- Exactly the numerals of the grammar are read, each as the number it is, and all other texts are
refused. So a number is read back from its hexadecimal digits in letters of any case, behind its
sign, any mark and any zeros; and from its decimal digits, unless there are too many of them. -/
theorem reads_numerals :
    (∀ (text : String) (n : Int), parse text = .ok n ↔ Writes text.toList n) ∧
    (∀ text : String, (∃ x, parse text = .error x) ↔ ∀ n, ¬ Writes text.toList n) ∧
    (∀ (n : Int) (mark digits : List Char) (zeros : Nat), mark ∈ hexMarks →
      digits.map Char.toLower = Nat.toDigits 16 n.natAbs →
      parse (String.ofList (sign n ++ (mark ++ (List.replicate zeros '0' ++ digits)))) = .ok n) ∧
    ∀ n : Int, (Nat.toDigits 10 n.natAbs).length ≤ decimalLimit → parse (toString n) = .ok n := by
  refine ⟨fun _ _ => parse_eq_ok_iff, fun text => ?_, fun n mark digits zeros hmark hdigits => ?_,
    fun n h => parse_toString (printable_iff.mpr h)⟩
  · cases hparse : parse text with
    | ok m => simpa using ⟨m, parse_eq_ok_iff.mp hparse⟩
    | error x =>
        refine iff_of_true ⟨x, rfl⟩ fun n hn => ?_
        rw [parse_eq_ok_iff.mpr hn] at hparse
        cases hparse
  · rw [parse_eq_ok_iff, String.toList_ofList]
    exact writes_sign (spells_hex hmark zeros hdigits)

/-- Digits of two scripts in one numeral, letters of both cases behind zeros, and two signs. -/
theorem reads_numerals_mixed :
    parse "-\u06635" = .ok (-35) ∧ parse "-0X00fF" = .ok (-255) ∧
    parse (toString (-120)) = .ok (-120) ∧ ∃ x, parse "--5" = .error x := by
  obtain ⟨hreads, hrefuses, hhex, hdecimal⟩ := reads_numerals
  refine ⟨?_, ?_, hdecimal (-120) (by decide), ?_⟩
  · have hdigits : List.Forall₂ IsDecimalDigit ['\u0663', '5'] [3, 5] :=
      .cons (by decide) (.cons (by decide) .nil)
    exact (hreads _ _).mpr (.negative (.decimal (by simp) (by decide) hdigits))
  · exact hhex (-255) ['0', 'X'] ['f', 'F'] 2 (by decide) (by decide)
  · refine (hrefuses "--5").mpr fun n hn => ?_
    have hparse := (hreads "--5" n).mpr hn
    have hnone : (parse "--5").toOption = none := by decide
    rw [hparse] at hnone
    cases hnone

end Numeral

end Forthlet
