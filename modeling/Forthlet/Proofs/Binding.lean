import Forthlet.Proofs.Growth
import Forthlet.Proofs.Twins

/-!
# Early binding

A compiled word keeps doing what it did when its definition ended. Whatever texts
follow, with names redefined, definitions refused or one left open, it runs from any
stacks at any depth as before. Only `WORDS` and `IMMEDIATE` look at the dictionary
when they run, so the words that may end up calling those are left aside.
-/
namespace Forthlet

open Outcome Run

namespace Dictionary

/-- A chain of calls leads from one entry to the other. -/
abbrev CallsAlong (d : Dictionary) : Nat → Nat → Prop := Relation.ReflTransGen d.Calls

/-- No chain of calls leads from the entry to a word that looks at the dictionary. -/
def SelfContained (d : Dictionary) (position : Nat) : Prop :=
  ∀ {target : Nat} {w : Word}, d.CallsAlong position target → d.get? target = some w →
    w.body ≠ .builtin .listWords ∧ w.body ≠ .builtin .markImmediate

section
variable {d : Dictionary} {position : Nat}

theorem selfContained_of_calls {w : Word} (hw : d.get? position = some w)
    (hlist : w.body ≠ .builtin .listWords) (hmark : w.body ≠ .builtin .markImmediate)
    (h : ∀ target, d.Calls position target → d.SelfContained target) : d.SelfContained position := by
  intro target w' ht hw'
  rcases ht.cases_head with rfl | ⟨k, hc, hk⟩
  · rw [hw] at hw'
    cases hw'
    exact ⟨hlist, hmark⟩
  · exact h k hc hk hw'

/-- A builtin calls nothing. -/
theorem selfContained_of_builtin {b : Builtin} (hw : d.get? position = some (Word.ofBuiltin b))
    (hlist : b ≠ .listWords) (hmark : b ≠ .markImmediate) : d.SelfContained position := by
  apply selfContained_of_calls hw
  · exact fun h => hlist (Body.builtin.inj h)
  · exact fun h => hmark (Body.builtin.inj h)
  · rintro target ⟨w, code, callee, hw', hcode, -, -⟩
    rw [hw] at hw'
    cases hw'
    cases hcode

end

end Dictionary

theorem Dictionary.Sound.callable_of_callsAlong {d : Dictionary} (hd : d.Sound)
    {position target : Nat} (hp : d.Callable position) (h : d.CallsAlong position target) :
    d.Callable target := by
  induction h with
  | refl => exact hp
  | tail _ hc _ => exact hd.callable_of_calls hc

/-- Print chunks one after the other. -/
def Console.writes (c : Console) (chunks : List String) : Console := chunks.foldl write c

/-- The stacks are the same, and since the consoles were `c` and `c'` the same was printed. -/
structure Engine.SameEffect (c c' : Console) (e e' : Engine) : Prop where
  stack : e'.stack = e.stack
  loops : e'.loops = e.loops
  printed : ∃ chunks, e.console = c.writes chunks ∧ e'.console = c'.writes chunks

theorem Engine.SameEffect.blind (c c' : Console) : Blind (SameEffect c c') where
  stack h := h.stack
  loops h := h.loops
  withStack h stack := ⟨rfl, h.loops, h.printed⟩
  withLoops h loops := ⟨h.stack, rfl, h.printed⟩
  write {e e'} h chunk := by
    obtain ⟨chunks, hc, hc'⟩ := h.printed
    refine ⟨h.stack, h.loops, chunks ++ [chunk], ?_, ?_⟩
    · simp [Console.writes, hc]
    · simp [Console.writes, hc']

/-- The same effect, with two given dictionaries. -/
structure Engine.SameEffectIn (d d' : Dictionary) (c c' : Console) (e e' : Engine) : Prop
    extends SameEffect c c' e e' where
  dict : e.dict = d
  dict' : e'.dict = d'

theorem Engine.SameEffectIn.blind (d d' : Dictionary) (c c' : Console) :
    Blind (SameEffectIn d d' c c') where
  stack h := h.stack
  loops h := h.loops
  withStack h stack := ⟨(SameEffect.blind c c').withStack h.toSameEffect stack, h.dict, h.dict'⟩
  withLoops h loops := ⟨(SameEffect.blind c c').withLoops h.toSameEffect loops, h.dict, h.dict'⟩
  write h chunk := ⟨(SameEffect.blind c c').write h.toSameEffect chunk, h.dict, h.dict'⟩

/-- Entries that are still there in another dictionary are seen alike, as long as what they call
is among them and none of them looks at the dictionary. -/
theorem Run.Sees.of_retained {R : Engine → Engine → Prop} {S : Nat → Prop} {d d' : Dictionary}
    (hB : Blind R) (hR : ∀ {e e'}, R e e' → e.dict = d ∧ e'.dict = d')
    (hkept : ∀ {k w}, d.get? k = some w → ∃ w', d'.get? k = some w' ∧ w'.unmarked = w.unmarked)
    (hcalls : ∀ {k l}, S k → d.Calls k l → S l)
    (hS : ∀ {k}, S k → d.Callable k ∧ d.SelfContained k) : Sees R S where
  blind := hB
  entry {e e' target} he ht := by
    obtain ⟨hd, hd'⟩ := hR he
    obtain ⟨w, hw, -⟩ := (hS ht).1
    obtain ⟨w', hw', hu⟩ := hkept hw
    rw [hd, hd', hw, hw', Option.map_some, Option.map_some, hu]
  call {e e' target w code callee} he ht hw hc hcall := by
    rw [(hR he).1] at hw
    exact hcalls ht ⟨w, code, callee, hw, hc, hcall, rfl⟩
  exec {e e' target w b} he ht hw hb := by
    rw [(hR he).1] at hw
    obtain ⟨⟨v, hv, hcallable⟩, hfree⟩ := hS ht
    obtain ⟨hl, hm⟩ := hfree .refl hw
    rw [hw] at hv
    cases hv
    refine Twins.exec hB (hcallable b hb) ?_ ?_ e e' he
    · rintro rfl
      exact hm hb
    · rintro rfl
      exact hl hb

/-- What the entry calls is still there in a dictionary that has grown. -/
theorem Engine.SameEffectIn.sees {d d' : Dictionary} {c c' : Console} {position : Nat}
    (hd : d.Sound) (hp : d.Callable position) (hfree : d.SelfContained position)
    (hg : d.Grows d') :
    Sees (SameEffectIn d d' c c') (d.CallsAlong position) := by
  refine .of_retained (SameEffectIn.blind d d' c c') (fun he => ⟨he.dict, he.dict'⟩)
    (fun hw => ?_) (fun ht hc => ht.tail hc) fun ht => ⟨hd.callable_of_callsAlong hp ht, ?_⟩
  · obtain ⟨w', hw', hr⟩ := hg.retains hw
    exact ⟨w', hw', hr.unmarked⟩
  · exact fun ht' hw => hfree (ht.trans ht') hw

theorem Outcome.Twin.mono {α : Type} {R S : Engine → Engine → Prop} {Q : α → α → Prop}
    {r r' : Outcome α} (h : Twin R Q r r') (hRS : ∀ e e', R e e' → S e e') : Twin S Q r r' := by
  cases h with
  | ok h hq => exact .ok (hRS _ _ h) hq
  | error h => exact .error (hRS _ _ h)

/-- Whatever texts follow, a compiled word that is self-contained stays what it was: from the same
stacks, at the same depth and with the same budget, it ends with the same stacks, has printed the
same, and fails for the same reason if it fails. -/
theorem early_bound {e e' : Engine} (h : Reachable e)
    (hs : Relation.ReflTransGen Engine.Takes e e') {position : Nat} {w : Word} {code : Code}
    (hw : e.dict.get? position = some w) (hc : w.body = .compiled code)
    (hfree : e.dict.SelfContained position) :
    (∃ w', e'.dict.get? position = some w' ∧ w'.name = w.name ∧ w'.body = w.body) ∧
    ∀ (lim : Limits) (fuel depth : Nat) (stack : List Int) (loops : List Frame),
      Twin (Engine.SameEffect e.console e'.console) Eq
        ((word lim fuel depth position).run { e with stack, loops })
        ((word lim fuel depth position).run { e' with stack, loops }) := by
  have hg := h.grows hs
  constructor
  · obtain ⟨w', hw', hr⟩ := hg.retains hw
    exact ⟨w', hw', hr.name, hr.body⟩
  · intro lim fuel depth stack loops
    have hcall : e.dict.Callable position := Dictionary.callable_of_compiled hw hc
    have hsees : Sees (Engine.SameEffectIn e.dict e'.dict e.console e'.console)
        (e.dict.CallsAlong position) :=
      Engine.SameEffectIn.sees h.ready.sound.dict hcall hfree hg
    have hstart : Engine.SameEffectIn e.dict e'.dict e.console e'.console
        { e with stack, loops } { e' with stack, loops } :=
      ⟨⟨rfl, rfl, [], rfl, rfl⟩, rfl, rfl⟩
    have hword : Twins _ (word lim fuel depth position) (word lim fuel depth position) Eq :=
      Twins.word hsees .refl
    exact (hword _ _ hstart).mono fun _ _ he => he.toSameEffect

/-- A session that defines a word. -/
def squaring : Engine := engine ((feed {} 100 ": SQ DUP * ;").run .fresh)

/-- The same session, after the names in the word and its own name were redefined. -/
def redefined : Engine :=
  engine ((feed {} 100 ": DUP 0 ; : * + ; : SQ DUP ; : OPEN IF").run squaring)

theorem selfContained_squaring : squaring.dict.SelfContained 36 := by
  have hsq : squaring.dict.get? 36 =
      some ⟨"SQ", .compiled #[.call (.entry 21), .call (.entry 12)], false⟩ := by decide +kernel
  have hdup : squaring.dict.get? 21 = some (Word.ofBuiltin (.shuffle .dup)) := by decide +kernel
  have hmul : squaring.dict.get? 12 = some (Word.ofBuiltin (.binary .mul)) := by decide +kernel
  apply Dictionary.selfContained_of_calls hsq (by decide) (by decide)
  rintro target ⟨w, code, callee, hw, hcode, hcall, rfl⟩
  rw [hsq] at hw
  cases hw
  cases hcode
  simp only [List.mem_toArray, List.mem_cons, List.not_mem_nil, or_false] at hcall
  rcases hcall with hcall | hcall
  · cases hcall
    exact Dictionary.selfContained_of_builtin hdup (by decide) (by decide)
  · cases hcall
    exact Dictionary.selfContained_of_builtin hmul (by decide) (by decide)

theorem early_bound_squaring :
    squaring.dict.find? "SQ" = some 36 ∧ redefined.dict.find? "SQ" ≠ some 36 ∧
    (word {} 100 0 36).run { redefined with stack := [7], loops := [] } =
      .ok () { redefined with stack := [49], loops := [] } ∧
    Twin (Engine.SameEffect squaring.console redefined.console) Eq
      ((word {} 100 0 36).run { squaring with stack := [7], loops := [] })
      ((word {} 100 0 36).run { redefined with stack := [7], loops := [] }) := by
  have hreach : Reachable squaring := .feed _ _ _ .fresh (by decide +kernel)
  have hs : Relation.ReflTransGen Engine.Takes squaring redefined :=
    .single (.feed _ _ _ (by decide +kernel))
  have hw : squaring.dict.get? 36 =
      some ⟨"SQ", .compiled #[.call (.entry 21), .call (.entry 12)], false⟩ := by decide +kernel
  refine ⟨by decide +kernel, by decide +kernel, by decide +kernel, ?_⟩
  exact (early_bound hreach hs hw rfl selfContained_squaring).2 {} 100 0 [7] []

end Forthlet
