import Forthlet.Proofs.Naming

/-!
# Upper case is final

No character that stands in the upper case of another one has an upper case of its own, so a text in
upper case is not changed any further. The tables of case have too many entries to compare each with
each. The code points on both sides are the bits of two numbers instead, which have none in common.
-/
namespace Forthlet.Text

/-- The numbers of a list as the bits of one number. -/
def bitSet (ns : List Nat) : Nat := ns.foldr (fun n bits => bits ||| 1 <<< n) 0

theorem testBit_bitSet {n : Nat} {ns : List Nat} (h : n ∈ ns) : (bitSet ns).testBit n = true := by
  induction ns with
  | nil => cases h
  | cons k ns ih =>
      rw [bitSet, List.foldr_cons, Nat.testBit_or]
      rcases List.mem_cons.mp h with rfl | h
      · simp
      · rw [← bitSet, ih h, Bool.true_or]

theorem notMem_of_bitSet {n : Nat} {ns ms : List Nat} (h : bitSet ns &&& bitSet ms = 0)
    (hn : n ∈ ns) : n ∉ ms := by
  intro hm
  have hbit : (bitSet ns &&& bitSet ms).testBit n = true := by
    rw [Nat.testBit_and, testBit_bitSet hn, testBit_bitSet hm, Bool.and_true]
  rw [h, Nat.zero_testBit] at hbit
  cases hbit

/-- As many code points as a run has, with the same distances, from `start` on. -/
def runPoints (first last stride start : Nat) : List Nat :=
  ((List.range (last - first + 1)).filter fun k => k % stride = 0).map (start + ·)

/-- The code points beyond ASCII that have an upper case of their own. -/
def upperSources : List Nat :=
  upperExpansions.map Prod.fst ++
    upperRuns.flatMap fun (first, last, stride, _) => runPoints first last stride first

/-- The code points in their upper cases. -/
def upperImages : List Nat :=
  upperExpansions.flatMap Prod.snd ++
    upperRuns.flatMap fun (first, last, stride, image) => runPoints first last stride image

theorem mem_runPoints {first last stride start n : Nat}
    (h : first ≤ n ∧ n ≤ last ∧ (n - first) % stride = 0) :
    start + (n - first) ∈ runPoints first last stride start := by
  obtain ⟨hfirst, hlast, hstride⟩ := h
  have hrange : n - first ∈ List.range (last - first + 1) := List.mem_range.mpr (by omega)
  exact List.mem_map_of_mem (List.mem_filter.mpr ⟨hrange, decide_eq_true hstride⟩)

theorem lookup_eq_none {n : Nat} (h : n ∉ upperSources) : upperExpansions.lookup n = none := by
  refine List.lookup_eq_none_iff.mpr fun r hr => bne_iff_ne.mpr ?_
  rintro rfl
  exact h (List.mem_append_left _ (List.mem_map_of_mem hr))

theorem runImage?_eq_none {n : Nat} (h : n ∉ upperSources) : runImage? n = none := by
  refine List.findSome?_eq_none_iff.mpr fun ⟨first, last, stride, image⟩ hr => if_neg fun hn => ?_
  have hpoint : first + (n - first) ∈ runPoints first last stride first := mem_runPoints hn
  rw [Nat.add_sub_cancel' hn.1] at hpoint
  exact h (List.mem_append_right _ (List.mem_flatMap.mpr ⟨_, hr, hpoint⟩))

theorem mem_upperImages_of_run {n m : Nat} (h : runImage? n = some m) : m ∈ upperImages := by
  obtain ⟨⟨first, last, stride, image⟩, hr, him⟩ := List.exists_of_findSome?_eq_some h
  simp only at him
  split at him
  · next hn =>
      cases him
      exact List.mem_append_right _ (List.mem_flatMap.mpr ⟨_, hr, mem_runPoints hn⟩)
  · cases him

theorem upperChar_of_image {n : Nat} (h : n ∈ upperImages) :
    upperChar (Char.ofNat n) = [Char.ofNat n] := by
  by_cases hvalid : n.isValidChar
  · by_cases hn : n < 0x80
    · have hascii : (upperImages.filter (· < 0x80)).all
          fun n => (Char.ofNat n).toUpper = Char.ofNat n := by decide +kernel
      have hfixed := List.all_eq_true.mp hascii n (List.mem_filter.mpr ⟨h, decide_eq_true hn⟩)
      rw [upperChar, toNat_ofNat hvalid, if_pos hn, of_decide_eq_true hfixed]
    · have hdisjoint : bitSet upperImages &&& bitSet upperSources = 0 := by decide +kernel
      have hsource := notMem_of_bitSet hdisjoint h
      simp only [upperChar, toNat_ofNat hvalid, if_neg hn, lookup_eq_none hsource,
        runImage?_eq_none hsource]
  · rw [Char.ofNat, dif_neg hvalid]
    decide

theorem upperChar_of_mem {c t : Char} (h : t ∈ upperChar c) : upperChar t = [t] := by
  rcases upperChar_cases c with ⟨hc, hupper⟩ | ⟨images, hmem, hupper⟩ | ⟨n, hrun, hupper⟩ |
    ⟨-, hupper⟩
  · rw [hupper, List.mem_singleton] at h
    have hsame : decide (c.toUpper.toNat < 0x80) = decide (c.toNat < 0x80) :=
      apply_toUpper (f := fun c => decide (c.toNat < 0x80)) (by decide) c
    have hascii : c.toUpper.toNat < 0x80 :=
      of_decide_eq_true (hsame.trans (decide_eq_true hc))
    rw [h, upperChar, if_pos hascii, toUpper_toUpper]
  · rw [hupper] at h
    obtain ⟨n, hn, rfl⟩ := List.mem_map.mp h
    have himage : n ∈ upperExpansions.flatMap Prod.snd := List.mem_flatMap.mpr ⟨_, hmem, hn⟩
    exact upperChar_of_image (List.mem_append_left _ himage)
  · rw [hupper, List.mem_singleton] at h
    exact h ▸ upperChar_of_image (mem_upperImages_of_run hrun)
  · rw [hupper, List.mem_singleton] at h
    rw [h, hupper]

/-- No character of the text has another upper case. -/
def Capital (s : String) : Prop := ∀ c ∈ s.toList, upperChar c = [c]

instance : DecidablePred Capital := fun s =>
  decidable_of_iff (s.toList.all fun c => upperChar c = [c]) (by simp [Capital])

theorem capital_upper (s : String) : Capital (upper s) := by
  intro t ht
  rw [toList_upper] at ht
  obtain ⟨c, -, hc⟩ := List.mem_flatMap.mp ht
  exact upperChar_of_mem hc

theorem upper_upper (s : String) : upper (upper s) = upper s := upper_eq_self (capital_upper s)

end Forthlet.Text
