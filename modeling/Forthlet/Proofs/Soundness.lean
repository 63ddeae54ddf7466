import Forthlet.Proofs.Execution

/-!
# Sound dictionaries

A dictionary is sound if each compiled entry is the layout of some body and the
calls in it go to words that may be called, which the compiling words are not.
Over a sound dictionary every word settles, since loops make a number of rounds
that is known when they start and calls only nest up to the bound on the depth.
-/
namespace Forthlet

namespace Dictionary

/-- Compiled code may call the entry at this position. -/
def Callable (d : Dictionary) (position : Nat) : Prop :=
  ∃ w, d.get? position = some w ∧ ∀ b, w.body = .builtin b → b.isCompiling = false

end Dictionary

/-- A call of an entry goes to one that may be called. -/
def Atom.Sound (d : Dictionary) : Atom → Prop
  | .call (.entry k) => d.Callable k
  | _ => True

namespace Dictionary

structure Sound (d : Dictionary) : Prop where
  builtin : ∀ {position w b}, d.get? position = some w → w.body = .builtin b →
    w = Word.ofBuiltin b
  compiled : ∀ {position w code}, d.get? position = some w → w.body = .compiled code →
    ∃ b : Block, code = (b.layout 0).toArray ∧ ∀ a ∈ b.atoms, a.Sound d

variable {d d' : Dictionary} {position : Nat} {w : Word}

theorem Callable.of_unmarked (h : d'.unmarked = d.unmarked) (hc : d.Callable position) :
    d'.Callable position := by
  obtain ⟨w, hw, hb⟩ := hc
  obtain ⟨w', hw', hu⟩ := get?_of_unmarked h hw
  exact ⟨w', hw', fun b h' => hb b (Word.body_of_unmarked hu ▸ h')⟩

end Dictionary

theorem Atom.Sound.of_unmarked {d d' : Dictionary} {a : Atom} (h : d'.unmarked = d.unmarked)
    (ha : a.Sound d) : a.Sound d' := by
  match a, ha with
  | .call (.entry _), ha => exact Dictionary.Callable.of_unmarked h ha
  | .call .itself, _ | .lit _, _ | .index, _ => trivial

namespace Dictionary

variable {d d' : Dictionary}

/-- The marks of compiled words do not matter. -/
theorem Sound.of_unmarked (h : d'.unmarked = d.unmarked) (hd : d.Sound) : d'.Sound where
  builtin := by
    intro p w b hw hb
    obtain ⟨w', hw', hu⟩ := get?_of_unmarked h.symm hw
    have hb' : w'.body = .builtin b := (Word.body_of_unmarked hu).trans hb
    rw [← hd.builtin hw' hb', ← Word.unmarked_of_builtin hb, ← Word.unmarked_of_builtin hb', hu]
  compiled := by
    intro p w code hw hc
    obtain ⟨w', hw', hu⟩ := get?_of_unmarked h.symm hw
    obtain ⟨b, hb, ha⟩ := hd.compiled hw' ((Word.body_of_unmarked hu).trans hc)
    exact ⟨b, hb, fun a hm => (ha a hm).of_unmarked h⟩

/-- A word that is not marked to run at once may be called. -/
theorem Sound.callable {position : Nat} {w : Word} (hd : d.Sound)
    (hw : d.get? position = some w) (hi : w.immediate = false) : d.Callable position := by
  refine ⟨w, hw, fun b hb => ?_⟩
  rw [hd.builtin hw hb] at hi
  exact hi

theorem callable_of_compiled {position : Nat} {w : Word} {code : Code}
    (hw : d.get? position = some w) (hc : w.body = .compiled code) : d.Callable position := by
  refine ⟨w, hw, fun b hb => ?_⟩
  rw [hc] at hb
  cases hb

theorem Callable.add {position : Nat} (h : d.Callable position) (w : Word) :
    (d.add w).Callable position := by
  obtain ⟨v, hv, hb⟩ := h
  refine ⟨v, ?_, hb⟩
  rw [get?_add, if_neg (Nat.ne_of_lt (get?_lt hv)), hv]

end Dictionary

theorem Atom.Sound.add {d : Dictionary} {a : Atom} (h : a.Sound d) (w : Word) :
    a.Sound (d.add w) := by
  match a, h with
  | .call (.entry _), h => exact Dictionary.Callable.add h w
  | .call .itself, _ | .lit _, _ | .index, _ => trivial

/-- A new word laid out from a sound body keeps the dictionary sound. -/
theorem Dictionary.Sound.add {d : Dictionary} {b : Block} (h : d.Sound)
    (hb : ∀ a ∈ b.atoms, a.Sound d) (name : String) (immediate : Bool) :
    (d.add ⟨name, .compiled (b.layout 0).toArray, immediate⟩).Sound where
  builtin := by
    intro p w c hw hc
    rw [get?_add] at hw
    split at hw
    · cases hw
      cases hc
    · exact h.builtin hw hc
  compiled := by
    intro p w code hw hc
    rw [get?_add] at hw
    split at hw
    · cases hw
      cases hc
      exact ⟨b, rfl, fun a ha => (hb a ha).add _⟩
    · obtain ⟨c, hcode, ha⟩ := h.compiled hw hc
      exact ⟨c, hcode, fun a hm => (ha a hm).add _⟩

/-- The code of one entry calls the other. -/
def Dictionary.Calls (d : Dictionary) (position target : Nat) : Prop :=
  ∃ w code callee, d.get? position = some w ∧ w.body = .compiled code ∧ .call callee ∈ code ∧
    callee.position position = target

theorem Block.mem_atoms_of_mem_layout {b : Block} {base : Nat} {c : Callee}
    (h : .call c ∈ b.layout base) : .call c ∈ b.atoms := by
  induction b generalizing base with
  | empty => cases h
  | atom b a ih =>
      simp only [layout, List.mem_append, List.mem_singleton] at h
      rcases h with h | h
      · simp [atoms, ih h]
      · cases a with
        | call c' =>
            cases h
            simp [atoms]
        | lit _ | index => cases h
  | ifThen b c ihb ihc =>
      simp only [layout, List.mem_append, List.mem_cons, reduceCtorEq, false_or] at h
      rcases h with h | h
      · simp [atoms, ihb h]
      · simp [atoms, ihc h]
  | ifElse b y n ihb ihy ihn =>
      simp only [layout, List.mem_append, List.mem_cons, reduceCtorEq, false_or] at h
      rcases h with (h | h) | h
      · simp [atoms, ihb h]
      · simp [atoms, ihy h]
      · simp [atoms, ihn h]
  | doLoop b c ihb ihc =>
      simp only [layout, List.mem_append, List.mem_cons, List.not_mem_nil, reduceCtorEq, false_or,
        or_false] at h
      rcases h with h | h
      · simp [atoms, ihb h]
      · simp [atoms, ihc h]

/-- Compiled code calls only words that may be called. -/
theorem Dictionary.Sound.callable_of_calls {d : Dictionary} (hd : d.Sound) {position target : Nat}
    (h : d.Calls position target) : d.Callable target := by
  obtain ⟨w, code, callee, hw, hc, hcall, rfl⟩ := h
  obtain ⟨b, rfl, hb⟩ := hd.compiled hw hc
  cases callee with
  | entry k => exact hb _ (Block.mem_atoms_of_mem_layout (List.mem_toArray.mp hcall))
  | itself => exact Dictionary.callable_of_compiled hw hc

theorem Dictionary.ofBuiltin_of_get? {position : Nat} {w : Word}
    (h : builtins.get? position = some w) : ∃ b, w = Word.ofBuiltin b := by
  have hm : w ∈ Builtin.all.map Word.ofBuiltin :=
    List.mem_of_getElem? (by simpa [get?, builtins] using h)
  obtain ⟨b, _, hb⟩ := List.mem_map.mp hm
  exact ⟨b, hb.symm⟩

theorem Dictionary.sound_builtins : Dictionary.builtins.Sound where
  builtin := by
    intro p w b hw hb
    obtain ⟨c, rfl⟩ := ofBuiltin_of_get? hw
    cases hb
    rfl
  compiled := by
    intro p w code hw hc
    obtain ⟨c, rfl⟩ := ofBuiltin_of_get? hw
    cases hc

theorem Block.run_eq (lim : Limits) (fuel : Nat) (name : String) (b : Block) (depth : Nat) :
    b.run lim fuel name depth = (do
      Run.lift (lim.checkDepth depth name)
      b.eval fun
        | .entry k => Run.word lim fuel (depth + 1) k
        | .itself => b.run lim fuel name (depth + 1)) := by
  rw [Block.run]
  split
  · next f h => rw [h]; rfl
  · next h => rw [h]; rfl

namespace Run

variable {lim : Limits} {depth position : Nat} {w : Word} {b : Block} {e : Engine}

/-- The layout of a body, run from its start to its end, settles on what the body means. -/
theorem settles_layout {r : Outcome Unit} {e₀ : Engine}
    (hcall : ∀ c, .call c ∈ b.atoms → ∀ e, e₀.SameProgram e →
      Alike (fun n => callIn lim depth position n c) (fun n => callIn lim depth position n c) e)
    (he : e₀.SameProgram e) (h : Settles (fun n => b.eval (callIn lim depth position n)) e r) :
    Settles (fun n => code lim n depth position (b.layout 0).toArray 0) e r := by
  have hend : Code.fetch? (b.layout 0).toArray ((0 + b.size : Nat) : Int) = none := by simp
  have hb : Code.Holds (b.layout 0).toArray 0 (b.layout 0) := Code.holds_toArray _
  refine (Block.realizes_of_holds hb hcall).settles he ?_
  cases r with
  | ok a e' => exact h.bind_ok (.code_end hend)
  | error s e' => exact h.bind_error

theorem builtin_alike {c : Builtin} (hw : e.dict.get? position = some w)
    (hb : w.body = .builtin c) (hc : c.isCompiling = false) :
    Alike (fun n => word lim n depth position) (fun n => word lim n depth position) e := by
  have hn := (Tame.exec hc).neat e
  have hs : Settles (fun n => word lim n depth position) e ((Primitive.exec c).run e) :=
    (Settles.const rfl hn.ended).congr fun _ => run_word_builtin hw hb
  exact ⟨_, hs, hs, hn⟩

/-- A word settles on what its body means, if the words that it calls settle on what they are
said to do. -/
theorem word_alike_eval {call : Nat → Callee → Run Unit} (hw : e.dict.get? position = some w)
    (hc : w.body = .compiled (b.layout 0).toArray)
    (hcall : lim.checkDepth depth w.name = .ok () → ∀ c, .call c ∈ b.atoms → ∀ e',
      e.SameProgram e' →
        Alike (fun n => callIn lim (depth + 1) position n c) (fun n => call n c) e') :
    Alike (fun n => word lim n depth position)
      (fun n => do lift (lim.checkDepth depth w.name); b.eval (call n)) e := by
  cases hk : lim.checkDepth depth w.name with
  | error f =>
      have hfail : Settles (fun _ => (fail f : Run Unit)) e (.error (.fault f) e) :=
        .const rfl trivial
      refine ⟨_, hfail.congr fun k => ?_, hfail.congr fun k => ?_, .refl e⟩
      · rw [run_word_compiled hw hc, hk]
        rfl
      · rfl
  | ok _ =>
      refine (Block.eval_alike (hcall hk) (.refl e)).of_settles (fun hr => ?_) fun hr => ?_
      · have hcode := settles_layout (fun c hm e' hs => (hcall hk c hm e' hs).left) (.refl e) hr
        refine hcode.congr fun k => ?_
        rw [run_word_compiled hw hc, hk]
        rfl
      · exact hr.congr fun k => rfl

/-- A word settles on what its body means. The induction is on the levels that the
bound on the depth leaves; on one level the callees decide. -/
theorem word_alike_run (hd : e.dict.Sound) (hw : e.dict.get? position = some w)
    (hc : w.body = .compiled (b.layout 0).toArray) (hb : ∀ a ∈ b.atoms, a.Sound e.dict) :
    Alike (fun n => word lim n depth position) (fun n => b.run lim n w.name depth) e := by
  induction hn : (lim.maxDepth - depth).toNat using Nat.strongRecOn
    generalizing depth position w b e with
  | ind n ih =>
    simp only [Block.run_eq lim _ w.name b depth]
    refine word_alike_eval hw hc fun hk c hm e' hs => ?_
    have hlt := Limits.lt_of_checkDepth hk
    have hd' := hd.of_unmarked hs.dict
    cases c with
    | entry k =>
        obtain ⟨v, hv, hnb⟩ := (hb _ hm).of_unmarked hs.dict
        cases hvb : v.body with
        | builtin c => exact builtin_alike hv hvb (hnb c hvb)
        | compiled code =>
            obtain ⟨b', rfl, hb'⟩ := hd'.compiled hv hvb
            exact (ih _ (by omega) hd' hv hvb hb' rfl).left
    | itself =>
        -- The word is found again where it was, though it may have been marked since.
        obtain ⟨w', hw', hu⟩ := Dictionary.get?_of_unmarked hs.dict hw
        have hc' := (Word.body_of_unmarked hu).trans hc
        have hb' : ∀ a ∈ b.atoms, a.Sound e'.dict :=
          fun a ha => (hb a ha).of_unmarked hs.dict
        rw [← Word.name_of_unmarked hu]
        exact ih _ (by omega) hd' hw' hc' hb' rfl

/-- Over a sound dictionary every word that may be called ends, and neatly. -/
theorem word_alike (hd : e.dict.Sound) (hp : e.dict.Callable position) :
    Alike (fun n => word lim n depth position) (fun n => word lim n depth position) e := by
  obtain ⟨w, hw, hnb⟩ := hp
  cases hb : w.body with
  | builtin c => exact builtin_alike hw hb (hnb c hb)
  | compiled code =>
      obtain ⟨b, rfl, ha⟩ := hd.compiled hw hb
      exact (word_alike_run hd hw hb ha).left

/-- Whatever ended was neat. -/
theorem neat_word {fuel : Nat} {r : Outcome Unit} (hd : e.dict.Sound)
    (hp : e.dict.Callable position) (hr : (word lim fuel depth position).run e = r)
    (hended : Outcome.Ended r) : Neat e r := by
  have halike : Alike (fun n => word lim n depth position) (fun n => word lim n depth position) e :=
    word_alike hd hp
  obtain ⟨r', hr', -, hn⟩ := halike
  rw [(settles_word hr hended).unique hr']
  exact hn

end Run

end Forthlet
