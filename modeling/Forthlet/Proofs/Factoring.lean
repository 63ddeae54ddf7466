import Mathlib.Logic.Function.Basic
import Forthlet.Proofs.Agreement
import Forthlet.Proofs.Inlines
import Forthlet.Proofs.Room

/-!
# Factoring is transparent

A word that was defined from some tokens can be called, or its tokens can be written in the place
of the call. The two ways compile to different code, run at different depths, and share the loops
that are running; but as long as there is room for the call, they have the same effect.
-/
namespace Forthlet

open Outcome Run

/-- Only one word adds a call of its own. -/
theorem Builtin.eq_recurse_of_piece? {b : Builtin} {callee : Callee}
    (h : b.piece? = some (.atom (.call callee))) : b = .recurse := by
  cases b <;> cases h
  rfl

namespace Dictionary

/-- What a token stands for in the body of the word `name`, where it does not stand for that word
itself: a number, a call of a word that does not run at once, the index of a loop or a mark of
control flow. -/
inductive Plain (d : Dictionary) (name : String) : String → Piece → Prop
  | number {text : String} {n : Int} (hfind : d.find? text = none)
      (hname : Text.upper text ≠ Text.upper name) (hparse : Numeral.parse text = .ok n)
      (hrange : Cell.InRange n) : Plain d name text (.atom (.lit n))
  | word {text : String} {position : Nat} {w : Word} (hcolon : text ≠ ":")
      (hfind : d.find? text = some position) (hget : d.get? position = some w)
      (himmediate : w.immediate = false) : Plain d name text (.atom (.call (.entry position)))
  | control {text : String} {position : Nat} {b : Builtin} {p : Piece}
      (hfind : d.find? text = some position) (hget : d.get? position = some (Word.ofBuiltin b))
      (hpiece : b.piece? = some p) (hself : b ≠ .recurse) : Plain d name text p

variable {d : Dictionary} {name text : String} {p : Piece} {ts : List String} {b : Block}

theorem Plain.adds (h : d.Plain name text p) : d.Adds name text p := by
  cases h with
  | number hfind hname hparse hrange => exact .number hfind hname hparse hrange
  | word hcolon hfind hget himmediate => exact .word hcolon hfind hget himmediate
  | control hfind hget hpiece _ => exact .builtin hfind hget hpiece

/-- A call goes to an entry that does not run at once. -/
theorem Plain.entry {callee : Callee} (h : d.Plain name text (.atom (.call callee))) :
    ∃ k w, callee = .entry k ∧ d.get? k = some w ∧ w.immediate = false := by
  cases h with
  | word _ _ hget himmediate => exact ⟨_, _, rfl, hget, himmediate⟩
  | control _ _ hpiece hself => exact absurd (Builtin.eq_recurse_of_piece? hpiece) hself

/-- All calls in a body of such tokens do. -/
theorem Plain.calls (h : List.Forall₂ (d.Plain name) ts b.pieces) {callee : Callee}
    (hc : .call callee ∈ b.atoms) :
    ∃ k w, callee = .entry k ∧ d.get? k = some w ∧ w.immediate = false := by
  obtain ⟨t, ht⟩ := exists_of_forall₂ h (Block.mem_pieces_of_mem_atoms hc)
  exact ht.entry

/-- A token that names a compiled word calls it. -/
theorem Plain.piece_of_compiled {position : Nat} {w : Word} {code : Code}
    (h : d.Plain name text p) (hfind : d.find? text = some position)
    (hget : d.get? position = some w) (hc : w.body = .compiled code) :
    p = .atom (.call (.entry position)) := by
  cases h with
  | number hnone _ _ _ =>
      rw [hfind] at hnone
      cases hnone
  | word _ hfind' _ _ =>
      rw [hfind] at hfind'
      cases hfind'
      rfl
  | control hfind' hget' _ _ =>
      rw [hfind] at hfind'
      cases hfind'
      rw [hget] at hget'
      cases hget'
      cases hc

theorem Sound.callable_of_plain (hd : d.Sound) (h : List.Forall₂ (d.Plain name) ts b.pieces)
    {callee : Callee} (hc : .call callee ∈ b.atoms) : ∃ k, callee = .entry k ∧ d.Callable k := by
  obtain ⟨k, w, rfl, hw, hi⟩ := Plain.calls h hc
  exact ⟨k, rfl, hd.callable hw hi⟩

theorem Sound.sound_of_plain (hd : d.Sound) (h : List.Forall₂ (d.Plain name) ts b.pieces) :
    ∀ a ∈ b.atoms, a.Sound d := by
  intro a ha
  cases a with
  | lit _ | index => trivial
  | call callee =>
      obtain ⟨k, rfl, hk⟩ := hd.callable_of_plain h ha
      exact hk

end Dictionary

namespace Engine

/-- The entry at this position was defined from the tokens `us`, which stood for the pieces of `b`
at that time. The definition began between any two tokens that were read, and whatever was read
and run since then has edited the program. -/
inductive DefinedFrom (us : List String) (b : Block) (e : Engine) : Nat → Prop
  | intro {e₀ e₁ : Engine} {name : String} {lim : Limits} {fuel k : Nat}
      (hk : e₀.dict.find? ";" = some k)
      (hsemicolon : e₀.dict.get? k = some (Word.ofBuiltin .semicolon))
      (hbody : List.Forall₂ (e₀.dict.Plain name) us b.pieces)
      (hrun : (tokens lim fuel (":" :: name :: (us ++ [";"]))).run e₀ = .ok () e₁)
      (hsince : e₁.program.Edits e.program) : DefinedFrom us b e e₀.dict.size

/-- The entry is still there, its code is that of the body, and its calls go to older entries. -/
theorem DefinedFrom.entry {us : List String} {b : Block} {e : Engine} {position : Nat}
    (h : e.DefinedFrom us b position) :
    (∃ w, e.dict.get? position = some w ∧ w.body = .compiled (b.layout 0).toArray) ∧
    ∀ {callee : Callee}, .call callee ∈ b.atoms → ∃ k, callee = .entry k ∧ k < position := by
  cases h with
  | @intro e₀ e₁ name lim fuel k hk hsemicolon hbody hrun hsince =>
      constructor
      · have hstart : ∃ x, e₀.draft = none ∧ Numeral.parse name = .error x := by
          rw [tokens, EStateM.run_bind] at hrun
          cases hd : e₀.draft with
          | some d =>
              rw [run_startDraft_some hd] at hrun
              cases hrun
          | none =>
              cases hn : Numeral.parse name with
              | ok n =>
                  rw [run_startDraft_number hd hn] at hrun
                  cases hrun
              | error x => exact ⟨x, rfl, rfl⟩
        obtain ⟨x, hd, hn⟩ := hstart
        have hadds := hbody.imp fun _ _ ht => ht.adds
        rw [run_tokens_define hd hk hsemicolon hn hadds] at hrun
        cases hrun
        obtain ⟨w, hw, hu⟩ := hsince.entry (e₀.get?_defined name b)
        exact ⟨w, hw, Word.body_of_unmarked hu⟩
      · intro callee hc
        obtain ⟨k, w, rfl, hw, -⟩ := Dictionary.Plain.calls hbody hc
        exact ⟨k, rfl, Dictionary.get?_lt hw⟩

/-- The same effect, over dictionaries that differ in their newest words. -/
structure Beside (d : Dictionary) (w w' : Word) (c : Console) (e e' : Engine) : Prop
    extends SameEffect c c e e' where
  dicts : ∃ marked, e.dict = d.add { w with immediate := marked } ∧
    e'.dict = d.add { w' with immediate := marked }

end Engine

namespace Dictionary

variable {d : Dictionary} {w w' : Word}

theorem names_add (h : w'.name = w.name) : (d.add w').names = (d.add w).names := by
  simp [names, add, h]

theorem markLatest_add (hc : w.isCompiled = true) :
    (d.add w).markLatest = .ok (w.name, d.add { w with immediate := true }) := by
  simp [markLatest, add, hc]

end Dictionary

namespace Engine.Beside

variable {d : Dictionary} {w w' : Word} {c : Console}

theorem blind (d : Dictionary) (w w' : Word) (c : Console) : Blind (Beside d w w' c) where
  stack h := h.stack
  loops h := h.loops
  withStack h stack := ⟨(SameEffect.blind c c).withStack h.toSameEffect stack, h.dicts⟩
  withLoops h loops := ⟨(SameEffect.blind c c).withLoops h.toSameEffect loops, h.dicts⟩
  write h chunk := ⟨(SameEffect.blind c c).write h.toSameEffect chunk, h.dicts⟩

theorem listWords (hname : w'.name = w.name) (c : Console) :
    Twins (Beside d w w' c) (Primitive.exec .listWords) (Primitive.exec .listWords) Eq := by
  refine Twins.get.bind fun e e' he => ?_
  obtain ⟨marked, hdict, hdict'⟩ := he.dicts
  have hnames : e'.dict.names = e.dict.names := by
    rw [hdict, hdict']
    exact Dictionary.names_add hname
  rw [hnames]
  exact Twins.emit (blind d w w' c) _

section
variable (hw : w.isCompiled = true) (hw' : w'.isCompiled = true)
include hw hw'

/-- Both newest words are marked. -/
theorem markLatest (c : Console) : Twins (Beside d w w' c) Primitive.markLatest
    Primitive.markLatest Eq := by
  intro e e' he
  obtain ⟨marked, hdict, hdict'⟩ := he.dicts
  have hm : e.dict.markLatest = .ok (w.name, d.add { w with immediate := true }) := by
    rw [hdict]
    exact Dictionary.markLatest_add hw
  have hm' : e'.dict.markLatest = .ok (w'.name, d.add { w' with immediate := true }) := by
    rw [hdict']
    exact Dictionary.markLatest_add hw'
  rw [Primitive.run_markLatest_ok hm, Primitive.run_markLatest_ok hm']
  exact .ok ⟨⟨he.stack, he.loops, he.printed⟩, true, rfl, rfl⟩ rfl

/-- The older entries are the same, and what they may call does not see the newest word. -/
theorem leads (hd : d.Sound) (hname : w'.name = w.name) (X : Stop → Prop) (c : Console) :
    Leads X (Beside d w w' c) d.Callable where
  entry {e e' position} he hp := by
    obtain ⟨marked, hdict, hdict'⟩ := he.dicts
    obtain ⟨v, hv, -⟩ := hp
    have hne := Nat.ne_of_lt (Dictionary.get?_lt hv)
    rw [hdict, hdict', Dictionary.get?_add, Dictionary.get?_add, if_neg hne, if_neg hne]
  call {e e' position v code callee} he hp hv hc hcall := by
    obtain ⟨marked, hdict, -⟩ := he.dicts
    obtain ⟨v', hv', -⟩ := hp
    have hne := Nat.ne_of_lt (Dictionary.get?_lt hv')
    rw [hdict, Dictionary.get?_add, if_neg hne] at hv
    exact hd.callable_of_calls ⟨v, code, callee, hv, hc, hcall, rfl⟩
  exec {e e' position v b} he hp hv hb := by
    obtain ⟨marked, hdict, -⟩ := he.dicts
    obtain ⟨v', hv', hcallable⟩ := hp
    have hne := Nat.ne_of_lt (Dictionary.get?_lt hv')
    rw [hdict, Dictionary.get?_add, if_neg hne, hv'] at hv
    cases hv
    by_cases hl : b = .listWords
    · subst hl
      exact .inl (listWords hname c e e' he)
    · by_cases hm : b = .markImmediate
      · subst hm
        exact .inl (markLatest hw hw' c e e' he)
      · exact ((blind d w w' c).works X).exec (hcallable b hb) hm hl e e' he
  step := ((blind d w w' c).works X).step

end

end Engine.Beside

namespace Run

section
variable {lim : Limits} {depth position : Nat} {w : Word} {b : Block}

/-- What the calls in a word do, one of them by the body of the word that it goes to. -/
def callOpened (lim : Limits) (fuel depth owner position : Nat) (name : String) (b : Block) :
    Callee → Run Unit :=
  Function.update (callIn lim depth owner fuel) (.entry position) (b.run lim fuel name depth)

/-- A word settles on what its body means, with one of its callees by its own body. -/
theorem word_alike_opened {e : Engine} {owner : Nat} {v : Word} {c : Block} (hd : e.dict.Sound)
    (hv : e.dict.get? owner = some v) (hc : v.body = .compiled (c.layout 0).toArray)
    (hcalls : ∀ x, .call x ∈ c.atoms → ∃ k, x = .entry k ∧ e.dict.Callable k)
    (hw : e.dict.get? position = some w) (hbody : w.body = .compiled (b.layout 0).toArray)
    (hb : ∀ a ∈ b.atoms, a.Sound e.dict) :
    Alike (fun n => word lim n depth owner) (fun n => do
      lift (lim.checkDepth depth v.name)
      c.eval (callOpened lim n (depth + 1) owner position w.name b)) e := by
  refine word_alike_eval hv hc fun _ x hx e' hs => ?_
  obtain ⟨k, rfl, hk⟩ := hcalls x hx
  have hd' := hd.of_unmarked hs.dict
  by_cases hp : k = position
  · subst hp
    obtain ⟨w', hw', hu⟩ := Dictionary.get?_of_unmarked hs.dict hw
    have hbody' := (Word.body_of_unmarked hu).trans hbody
    have hb' : ∀ a ∈ b.atoms, a.Sound e'.dict := fun a ha => (hb a ha).of_unmarked hs.dict
    simp only [callOpened, Function.update_self, ← Word.name_of_unmarked hu]
    exact word_alike_run hd' hw' hbody' hb'
  · have hne : Callee.entry k ≠ .entry position := fun h => hp (Callee.entry.inj h)
    simp only [callOpened, Function.update_of_ne hne]
    exact word_alike hd' (hk.of_unmarked hs.dict)

end

section
variable {R : Engine → Engine → Prop} {S : Nat → Prop} (hR : Works Stop.IsOverflow R)
  (hS : Leads Stop.IsOverflow R S) {lim : Limits} {fuel depth position : Nat} {b : Block}
  (hb : ∀ x, .call x ∈ b.atoms → ∃ k, x = .entry k ∧ k < position ∧ S k)
include hR hS hb

/-- The body of a word is followed by itself. -/
theorem Works.run (name : String) :
    Follows Stop.IsOverflow R (b.run lim fuel name depth) (b.run lim fuel name depth) Eq := by
  rw [Block.run_eq]
  refine (Follows.lift _).bind_eq fun _ => hR.eval_same fun x hx => ?_
  obtain ⟨k, rfl, -, hk⟩ := hb x hx
  exact hS.word (.refl _ lim) rfl hk

/-- What a word does is what its body does in the caller, one level above, where there is more
room. -/
theorem Works.run_inline (name : String) (owner : Nat) :
    Follows Stop.IsOverflow R (b.run lim fuel name depth)
      (b.eval (callOpened lim fuel depth owner position name b)) Eq := by
  have hgrants : lim.Grants Stop.IsOverflow lim fun deep high => deep = high + 1 := by
    apply Limits.grants_of_le (Int.le_refl _) rfl
    · rintro _ high rfl
      rfl
    · rintro _ high rfl
      exact Nat.le_succ _
  rw [Block.run_eq]
  cases hk : lim.checkDepth depth name with
  | error f => exact fun _ _ _ => .inr (Stop.isOverflow_of_checkDepth hk)
  | ok _ =>
      refine hR.eval_same fun x hx => ?_
      obtain ⟨k, rfl, hlt, hk⟩ := hb x hx
      have hne : Callee.entry k ≠ .entry position := by
        intro h
        cases h
        exact Nat.lt_irrefl _ hlt
      rw [callOpened, Function.update_of_ne hne]
      exact hS.word hgrants rfl hk

/-- The body of a caller is followed by the one with the body of the callee in place of calls. -/
theorem Works.eval_opened {c c' : Block} (name : String) (owner : Nat)
    (hc : ∀ x, .call x ∈ c.atoms → ∃ k, x = .entry k ∧ S k)
    (h : c.Inlines (fun x d => x = .entry position ∧ d = b) c') :
    Follows Stop.IsOverflow R (c.eval (callOpened lim fuel depth owner position name b))
      (c'.eval (callOpened lim fuel depth owner position name b)) Eq := by
  have hopened : callOpened lim fuel depth owner position name b (.entry position) =
      b.run lim fuel name depth := Function.update_self _ _ _
  refine hR.eval h (fun x hx => ?_) ?_
  · obtain ⟨k, rfl, hk⟩ := hc x hx
    by_cases hp : k = position
    · subst hp
      rw [hopened]
      exact hR.run hS hb name
    · have hne : Callee.entry k ≠ .entry position := fun h => hp (Callee.entry.inj h)
      rw [callOpened, Function.update_of_ne hne]
      exact hS.word (.refl _ lim) rfl hk
  · rintro _ _ - ⟨rfl, rfl⟩
    rw [hopened]
    exact hR.run_inline hS hb name owner

end

end Run

/-- Where one of the tokens of a body calls a compiled word, those of another body may stand. -/
theorem Dictionary.Plain.exists_inlined {d : Dictionary} {name text : String}
    {us ps qs : List String} {b c : Block} {position : Nat} {w : Word} {code : Code}
    (hfind : d.find? text = some position) (hw : d.get? position = some w)
    (hbody : w.body = .compiled code) (hus : List.Forall₂ (d.Plain name) us b.pieces)
    (hcaller : List.Forall₂ (d.Plain name) (ps ++ text :: qs) c.pieces) :
    ∃ c', c.Inlines (fun x y => x = .entry position ∧ y = b) c' ∧
      List.Forall₂ (d.Plain name) (ps ++ us ++ qs) c'.pieces := by
  have hps := List.forall₂_take ps.length hcaller
  have hrest := List.forall₂_drop ps.length hcaller
  rw [List.take_left] at hps
  rw [List.drop_left] at hrest
  obtain ⟨p, rs, htext, hqs, hpieces⟩ := List.forall₂_cons_left_iff.mp hrest
  rw [htext.piece_of_compiled hfind hw hbody] at hpieces
  have hc : c.pieces = c.pieces.take ps.length ++ .atom (.call (.entry position)) :: rs := by
    rw [← hpieces, List.take_append_drop]
  have hcallee : (Callee.entry position = .entry position) ∧ b = b := ⟨rfl, rfl⟩
  obtain ⟨c', hc', hinlines⟩ :=
    Block.exists_inlined (D := fun x y => x = .entry position ∧ y = b) hc hcallee
  refine ⟨c', hinlines, ?_⟩
  rw [hc']
  exact List.rel_append (List.rel_append hps hus) hqs

/-- A word that has just been defined settles on what its body means, with the calls of another
word by the body of that word. -/
theorem alike_defined {d : Dictionary} (hd : d.Sound) {name : String} {ts us : List String}
    {b c : Block} (hc : List.Forall₂ (d.Plain name) ts c.pieces)
    (hus : List.Forall₂ (d.Plain name) us b.pieces) {position : Nat} {w : Word}
    (hw : d.get? position = some w) (hbody : w.body = .compiled (b.layout 0).toArray) {e : Engine}
    (he : e.dict = d.add (c.toWord name)) (lim : Limits) (depth : Nat) :
    Alike (fun n => word lim n depth d.size) (fun n => do
      lift (lim.checkDepth depth (c.toWord name).name)
      c.eval (callOpened lim n (depth + 1) d.size position w.name b)) e := by
  have hsound : e.dict.Sound := by
    rw [he]
    exact hd.add (hd.sound_of_plain hc) _ _
  have hnew : e.dict.get? d.size = some (c.toWord name) := by
    rw [he, Dictionary.get?_add, if_pos rfl]
  have hold : e.dict.get? position = some w := by
    rw [he, Dictionary.get?_add, if_neg (Nat.ne_of_lt (Dictionary.get?_lt hw)), hw]
  have hcalls : ∀ x, .call x ∈ c.atoms → ∃ k, x = .entry k ∧ e.dict.Callable k := by
    intro x hx
    obtain ⟨k, rfl, hk⟩ := hd.callable_of_plain hc hx
    exact ⟨k, rfl, he ▸ hk.add _⟩
  have hb : ∀ a ∈ b.atoms, a.Sound e.dict := fun a ha => he ▸ (hd.sound_of_plain hus a ha).add _
  exact word_alike_opened hsound hnew rfl hcalls hold hbody hb

/-- Words with and without the replacement follow each other. -/
theorem Engine.Beside.follows_opened {d : Dictionary} (hd : d.Sound) {name : String}
    {us ts : List String} {b c c' : Block} {position : Nat}
    (hus : List.Forall₂ (d.Plain name) us b.pieces)
    (hold : ∀ {callee : Callee}, .call callee ∈ b.atoms → ∃ k, callee = .entry k ∧ k < position)
    (hcaller : List.Forall₂ (d.Plain name) ts c.pieces)
    (h : c.Inlines (fun x y => x = .entry position ∧ y = b) c') (callee : String)
    (console : Console) (lim : Limits) (fuel depth : Nat) :
    Follows Stop.IsOverflow (Engine.Beside d (c.toWord name) (c'.toWord name) console)
      (do
        lift (lim.checkDepth depth (c.toWord name).name)
        c.eval (callOpened lim fuel (depth + 1) d.size position callee b))
      (do
        lift (lim.checkDepth depth (c'.toWord name).name)
        c'.eval (callOpened lim fuel (depth + 1) d.size position callee b)) Eq := by
  have hworks : Works Stop.IsOverflow (Engine.Beside d (c.toWord name) (c'.toWord name) console) :=
    (blind _ _ _ _).works _
  have hcompiled : ∀ b : Block, (b.toWord name).isCompiled = true := fun _ => rfl
  have hleads : Leads Stop.IsOverflow (Engine.Beside d (c.toWord name) (c'.toWord name) console)
      d.Callable := leads (hcompiled c) (hcompiled c') hd rfl _ _
  have hb : ∀ x, .call x ∈ b.atoms → ∃ k, x = .entry k ∧ k < position ∧ d.Callable k := by
    intro x hx
    obtain ⟨k, rfl, hlt⟩ := hold hx
    obtain ⟨l, heq, hl⟩ := hd.callable_of_plain hus hx
    cases heq
    exact ⟨k, rfl, hlt, hl⟩
  have hc : ∀ x, .call x ∈ c.atoms → ∃ k, x = .entry k ∧ d.Callable k :=
    fun x hx => hd.callable_of_plain hcaller hx
  exact (Follows.lift _).bind_eq fun _ => hworks.eval_opened hleads hb callee d.size hc h

/-- Factoring. A word was defined from the tokens `us`, and these stand for what they stood for
then. Of two words that could be defined now under one name, one calls that word between other
tokens, and the other has `us` in the place of the call. Whatever is on the stacks and however deep
they run, both have the same effect and end alike, unless there is no room for a call in the
first. -/
theorem factoring_transparent {e : Engine} (h : Reachable e) (hd : e.draft = none) {k : Nat}
    (hk : e.dict.find? ";" = some k) (hsemicolon : e.dict.get? k = some (Word.ofBuiltin .semicolon))
    {us : List String} {b : Block} {position : Nat} (hdefined : e.DefinedFrom us b position)
    {name : String} {x : Numeral.Error} (hn : Numeral.parse name = .error x)
    (hus : List.Forall₂ (e.dict.Plain name) us b.pieces) {ps qs : List String} {text : String}
    {c : Block} (hfind : e.dict.find? text = some position)
    (hcaller : List.Forall₂ (e.dict.Plain name) (ps ++ text :: qs) c.pieces)
    {line line' : String}
    (hline : Token.ofText line = .ok (":" :: name :: ((ps ++ text :: qs) ++ [";"])))
    (hline' : Token.ofText line' = .ok (":" :: name :: ((ps ++ us ++ qs) ++ [";"])))
    (lim : Limits) (fuel : Nat) :
    ∃ e₁ e₁', (feed lim fuel line).run e = .ok () e₁ ∧ (feed lim fuel line').run e = .ok () e₁' ∧
      e₁.dict.find? name = some e.dict.size ∧ e₁'.dict.find? name = some e.dict.size ∧
      ∀ (lim : Limits) (depth : Nat) (stack : List Int) (loops : List Frame), ∃ r r',
        Settles (fun n => word lim n depth e.dict.size) { e₁ with stack, loops } r ∧
        Settles (fun n => word lim n depth e.dict.size) { e₁' with stack, loops } r' ∧
        (StoppedBy Stop.IsOverflow r ∨ Twin (Engine.SameEffect e.console e.console) Eq r r') := by
  have hsound := h.ready.sound
  obtain ⟨⟨w, hw, hbody⟩, hold⟩ := hdefined.entry
  obtain ⟨c', hinlines, hcaller'⟩ := Dictionary.Plain.exists_inlined hfind hw hbody hus hcaller
  have hadds := hcaller.imp fun _ _ ht => ht.adds
  have hadds' := hcaller'.imp fun _ _ ht => ht.adds
  refine ⟨e.defined name c, e.defined name c', run_feed_define hd hk hsemicolon hn hadds hline _ _,
    run_feed_define hd hk hsemicolon hn hadds' hline' _ _, Dictionary.find?_add rfl,
    Dictionary.find?_add rfl, fun lim depth stack loops => ?_⟩
  have hd' : { e.defined name c with stack, loops }.dict = e.dict.add (c.toWord name) := rfl
  have hd'' : { e.defined name c' with stack, loops }.dict = e.dict.add (c'.toWord name) := rfl
  obtain ⟨r, hr, hopened, -⟩ := alike_defined hsound.dict hcaller hus hw hbody hd' lim depth
  obtain ⟨r', hr', hopened', -⟩ := alike_defined hsound.dict hcaller' hus hw hbody hd'' lim depth
  refine ⟨r, r', hr, hr', ?_⟩
  obtain ⟨n, hrun, hrun'⟩ := hopened.together hopened'
  have hfollows : Follows Stop.IsOverflow
      (Engine.Beside e.dict (c.toWord name) (c'.toWord name) e.console) _ _ Eq :=
    Engine.Beside.follows_opened hsound.dict hus hold hcaller hinlines w.name e.console lim n depth
  have hstart : Engine.Beside e.dict (c.toWord name) (c'.toWord name) e.console
      { e.defined name c with stack, loops } { e.defined name c' with stack, loops } :=
    ⟨⟨rfl, rfl, [], rfl, rfl⟩, false, rfl, rfl⟩
  have hends := hfollows _ _ hstart
  rw [hrun, hrun'] at hends
  rcases hends with htwin | hstop
  · exact .inr (htwin.mono fun _ _ hbeside => hbeside.toSameEffect)
  · exact .inl hstop

/-- A session that defines a word which prints the index of a loop around it. -/
def showing : Engine := engine ((feed {} 100 ": SHOW I . ;").run .fresh)

/-- The body `I .`, with the position of `.` in a fresh engine. -/
def showIndex : Block := .atom (.atom .empty .index) (.call (.entry 32))

/-- The body `3 0 DO SHOW LOOP`. -/
def showThree : Block :=
  .doLoop (.atom (.atom .empty (.lit 3)) (.lit 0)) (.atom .empty (.call (.entry 36)))

/-- In a loop the word sees the index as its body does. -/
theorem factoring_transparent_showing :
    (engine ((feed {} 100 ": ALL 3 0 DO SHOW LOOP ; ALL").run showing)).console.out =
      #["0 ", "1 ", "2 "] ∧
    ∃ e₁ e₁', (feed {} 0 ": ALL 3 0 DO SHOW LOOP ;").run showing = .ok () e₁ ∧
      (feed {} 0 ": ALL 3 0 DO I . LOOP ;").run showing = .ok () e₁' ∧
      e₁.dict.find? "ALL" = some 37 ∧ e₁'.dict.find? "ALL" = some 37 ∧
      ∀ (lim : Limits) (depth : Nat) (stack : List Int) (loops : List Frame), ∃ r r',
        Settles (fun n => word lim n depth 37) { e₁ with stack, loops } r ∧
        Settles (fun n => word lim n depth 37) { e₁' with stack, loops } r' ∧
        (StoppedBy Stop.IsOverflow r ∨
          Twin (Engine.SameEffect showing.console showing.console) Eq r r') := by
  have hreach : Reachable showing := .feed _ _ _ .fresh (by decide +kernel)
  have hsize : showing.dict.size = 37 := by decide +kernel
  have hend : showing.dict.find? ";" = some 0 := by decide +kernel
  have hshow : showing.dict.get? 36 = some ⟨"SHOW", .compiled #[.index, .call (.entry 32)], false⟩ := by
    decide +kernel
  have hprint : showing.dict.get? 32 = some (Word.ofBuiltin .print) := by decide +kernel
  have hindex : showing.dict.find? "I" = some 9 := by decide +kernel
  have hindexWord : showing.dict.get? 9 = some (Word.ofBuiltin .index) := by decide +kernel
  have hdo : showing.dict.find? "DO" = some 7 := by decide +kernel
  have hdoWord : showing.dict.get? 7 = some (Word.ofBuiltin .doWord) := by decide +kernel
  have hloop : showing.dict.find? "LOOP" = some 8 := by decide +kernel
  have hloopWord : showing.dict.get? 8 = some (Word.ofBuiltin .loopWord) := by decide +kernel
  have hname : Numeral.parse "ALL" = .error (.notANumber "ALL") := rfl
  have hthen : List.Forall₂ (Engine.fresh.dict.Plain "SHOW") ["I", "."] showIndex.pieces := by
    have hindex : Engine.fresh.dict.find? "I" = some 9 := by decide +kernel
    have hprint : Engine.fresh.dict.find? "." = some 32 := by decide +kernel
    constructor
    · exact .control hindex rfl rfl (by decide)
    constructor
    · exact .word (by decide) hprint rfl rfl
    · constructor
  have hdefined : showing.DefinedFrom ["I", "."] showIndex Engine.fresh.dict.size := by
    have hrun : (tokens {} 100 (":" :: "SHOW" :: (["I", "."] ++ [";"]))).run .fresh =
        .ok () showing := by decide +kernel
    have hend : Engine.fresh.dict.find? ";" = some 0 := by decide +kernel
    exact .intro hend rfl hthen hrun .refl
  have hnow : List.Forall₂ (showing.dict.Plain "ALL") ["I", "."] showIndex.pieces := by
    constructor
    · exact .control hindex hindexWord rfl (by decide)
    constructor
    · exact .word (by decide) (by decide +kernel) hprint rfl
    · constructor
  have hcaller : List.Forall₂ (showing.dict.Plain "ALL") (["3", "0", "DO"] ++ "SHOW" :: ["LOOP"])
      showThree.pieces := by
    constructor
    · exact .number (by decide +kernel) (by decide +kernel) rfl (by decide)
    constructor
    · exact .number (by decide +kernel) (by decide +kernel) rfl (by decide)
    constructor
    · exact .control hdo hdoWord rfl (by decide)
    constructor
    · exact .word (by decide) (by decide +kernel) hshow rfl
    constructor
    · exact .control hloop hloopWord rfl (by decide)
    · constructor
  have hline : Token.ofText ": ALL 3 0 DO SHOW LOOP ;" =
      .ok (":" :: "ALL" :: ((["3", "0", "DO"] ++ "SHOW" :: ["LOOP"]) ++ [";"])) := by decide +kernel
  have hline' : Token.ofText ": ALL 3 0 DO I . LOOP ;" =
      .ok (":" :: "ALL" :: ((["3", "0", "DO"] ++ ["I", "."] ++ ["LOOP"]) ++ [";"])) := by
    decide +kernel
  refine ⟨by decide +kernel, ?_⟩
  have hfactored := factoring_transparent hreach (by decide +kernel) hend (by decide +kernel)
    hdefined hname hnow (by decide +kernel) hcaller hline hline' {} 0
  rwa [hsize] at hfactored

end Forthlet
