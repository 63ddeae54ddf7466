import Forthlet.Dictionary

/-!
# Entries of a dictionary

Adding a word leaves all positions as they are, and marking one leaves all names
and bodies. What does not depend on the marks of compiled words is a property of
the unmarked entries.
-/
namespace Forthlet

namespace Word

/-- The word without the mark that `IMMEDIATE` leaves on a compiled word. -/
def unmarked (w : Word) : Word := { w with immediate := w.immediate && !w.isCompiled }

@[simp] theorem unmarked_name (w : Word) : w.unmarked.name = w.name := rfl

@[simp] theorem unmarked_body (w : Word) : w.unmarked.body = w.body := rfl

theorem unmarked_of_builtin {w : Word} {b : Builtin} (h : w.body = .builtin b) :
    w.unmarked = w := by
  obtain ⟨name, body, immediate⟩ := w
  cases h
  simp [unmarked, isCompiled]

theorem name_of_unmarked {w w' : Word} (h : w'.unmarked = w.unmarked) : w'.name = w.name := by
  rw [← unmarked_name, h, unmarked_name]

theorem body_of_unmarked {w w' : Word} (h : w'.unmarked = w.unmarked) : w'.body = w.body := by
  rw [← unmarked_body, h, unmarked_body]

end Word

namespace Dictionary

/-- The entries without the marks of compiled words. -/
def unmarked (d : Dictionary) : Array Word := d.entries.map Word.unmarked

theorem unmarked_getElem? (d : Dictionary) (position : Nat) :
    d.unmarked[position]? = (d.get? position).map Word.unmarked := by
  simp [unmarked, get?]

theorem entries_of_back? {d : Dictionary} {w : Word} (h : d.entries.back? = some w) :
    d.entries = d.entries.pop.push w := by
  obtain ⟨xs, hxs⟩ := Array.back?_eq_some_iff.mp h
  rw [hxs, Array.pop_push]

theorem markLatest_error {d : Dictionary} {f : Fault} (h : d.markLatest = .error f) :
    f = .nothingToMark := by
  unfold markLatest at h
  split at h
  · split at h
    · cases h
    · cases h
      rfl
  · cases h
    rfl

/-- Marking a word changes none of the unmarked entries. -/
theorem unmarked_markLatest {d d' : Dictionary} {name : String}
    (h : d.markLatest = .ok (name, d')) : d'.unmarked = d.unmarked := by
  unfold markLatest at h
  split at h
  · next w hw =>
    split at h
    · next hc =>
      cases h
      have hm : Word.unmarked { w with immediate := true } = w.unmarked := by
        have hc' : Word.isCompiled { w with immediate := true } = true := hc
        simp [Word.unmarked, hc, hc']
      calc (d.entries.pop.push { w with immediate := true }).map Word.unmarked
          = (d.entries.pop.map Word.unmarked).push w.unmarked := by rw [Array.map_push, hm]
        _ = (d.entries.pop.push w).map Word.unmarked := by rw [Array.map_push]
        _ = d.unmarked := by rw [← entries_of_back? hw, unmarked]
    · cases h
  · cases h

theorem get?_of_unmarked {d d' : Dictionary} {position : Nat} {w : Word}
    (h : d'.unmarked = d.unmarked) (hw : d.get? position = some w) :
    ∃ w', d'.get? position = some w' ∧ w'.unmarked = w.unmarked := by
  have hu : (d'.get? position).map Word.unmarked = some w.unmarked := by
    rw [← unmarked_getElem?, h, unmarked_getElem?, hw]
    rfl
  exact Option.map_eq_some_iff.mp hu

theorem get?_lt {d : Dictionary} {position : Nat} {w : Word} (h : d.get? position = some w) :
    position < d.size := by
  obtain ⟨hlt, _⟩ := Array.getElem?_eq_some_iff.mp h
  exact hlt

theorem get?_add (d : Dictionary) (w : Word) (position : Nat) :
    (d.add w).get? position = if position = d.size then some w else d.get? position := by
  exact Array.getElem?_push

theorem get?_of_findBelow {d : Dictionary} {name : String} {n position : Nat}
    (h : d.findBelow name n = some position) : (d.get? position).map Word.name = some name := by
  induction n with
  | zero => cases h
  | succ n ih =>
      rw [findBelow] at h
      split at h
      · next hn =>
          cases h
          exact hn
      · exact ih h

theorem get?_of_find? {d : Dictionary} {name : String} {position : Nat}
    (h : d.find? name = some position) :
    ∃ w, d.get? position = some w ∧ w.name = Text.upper name :=
  Option.map_eq_some_iff.mp (get?_of_findBelow h)

/-- The newest entry of a name is the one that is found under it. -/
theorem find?_of_newest {d : Dictionary} {text : String} {position : Nat} {w : Word}
    (hw : d.get? position = some w) (hname : w.name = Text.upper text)
    (hnew : ∀ {p v}, position < p → d.get? p = some v → v.name ≠ Text.upper text) :
    d.find? text = some position := by
  have hbelow : ∀ n, position < n → d.findBelow (Text.upper text) n = some position := by
    intro n
    induction n with
    | zero => exact fun h => absurd h (Nat.not_lt_zero _)
    | succ n ih =>
        intro h
        rw [findBelow]
        rcases Nat.lt_succ_iff_lt_or_eq.mp h with hlt | rfl
        · have hother : (d.get? n).map Word.name ≠ some (Text.upper text) := by
            intro hn
            obtain ⟨v, hv, hname⟩ := Option.map_eq_some_iff.mp hn
            exact hnew hlt hv hname
          rw [if_neg hother, ih hlt]
        · rw [hw, Option.map_some, hname, if_pos rfl]
  exact hbelow d.size (get?_lt hw)

/-- A new word is the one that its name finds. -/
theorem find?_add {d : Dictionary} {w : Word} {name : String} (h : w.name = Text.upper name) :
    (d.add w).find? name = some d.size := by
  have hsize : (d.add w).size = d.size + 1 := Array.size_push w
  have hget : (d.add w).get? d.size = some w := by rw [get?_add, if_pos rfl]
  rw [find?, hsize, findBelow, hget, Option.map_some, h, if_pos rfl]

end Dictionary

end Forthlet
