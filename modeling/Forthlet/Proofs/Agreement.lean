import Forthlet.Proofs.Binding
import Forthlet.Proofs.Lines
import Forthlet.Proofs.Refinement

/-!
# Interpreting agrees with compiling and running

A sequence of tokens is either run as it is read, or compiled into a word that is then called. Both
do the same if every token stands for a number, for the index of a loop or for a word that does not
look at the dictionary. The call of the new word takes one level of depth, so its bound has to be
one higher. The machine that carries the engine may have no room for that level; it then stops the
second run, and the two agree up to there.
-/
namespace Forthlet

open Outcome Run

namespace Limits

/-- The second bounds leave room for one word more. -/
structure Deeper (lim lim' : Limits) : Prop where
  first : ∀ name, lim'.checkDepth 0 name = .ok ()
  rest : ∀ depth name, lim'.checkDepth (1 + depth) name = lim.checkDepth depth name

section
variable {m : Nat} {nesting : Option Nat}

theorem maxDepth_shift (depth : Nat) :
    ((m + 1 : Int) ≤ ((1 + depth : Nat) : Int)) = ((m : Int) ≤ (depth : Int)) := by
  apply propext
  omega

theorem deeper_map (m : Nat) (nesting : Option Nat) :
    Deeper ⟨m, nesting⟩ ⟨m + 1, nesting.map (· + 1)⟩ := by
  constructor
  · intro name
    cases nesting <;> simp [checkDepth]
  · intro depth name
    cases nesting with
    | none => simp only [checkDepth, maxDepth_shift, Option.map_none, Option.any_none]
    | some n =>
        have hroom : (n + 1 ≤ 1 + depth) = (n ≤ depth) := by
          apply propext
          omega
        simp only [checkDepth, maxDepth_shift, Option.map_some, Option.any_some, hroom]

/-- Where the chosen bound is reached first, that of the machine does not matter. -/
theorem deeper_of_lt (h : ∀ n, nesting = some n → m < n) :
    Deeper ⟨m, nesting⟩ ⟨m + 1, nesting⟩ := by
  constructor
  · intro name
    cases nesting with
    | none => simp [checkDepth]
    | some n =>
        have hn : n ≠ 0 := by
          have := h n rfl
          omega
        simp [checkDepth, hn]
  · intro depth name
    simp only [checkDepth, maxDepth_shift]
    by_cases hm : (m : Int) ≤ (depth : Int)
    · rw [if_pos hm, if_pos hm]
    · rw [if_neg hm, if_neg hm]
      cases nesting with
      | none => rfl
      | some n =>
          have := h n rfl
          have hn : ¬n ≤ depth := by omega
          have hn' : ¬n ≤ 1 + depth := by omega
          simp [hn, hn']

/-- More room in the machine only makes a difference where the machine has none left. -/
theorem checkDepth_map (m nesting) (depth : Nat) (name : String) :
    checkDepth ⟨m, nesting.map (· + 1)⟩ depth name = checkDepth ⟨m, nesting⟩ depth name ∨
      checkDepth ⟨m, nesting⟩ depth name = .error .nestingExceeded := by
  cases nesting with
  | none => exact .inl rfl
  | some n =>
      by_cases hm : m ≤ (depth : Int)
      · left
        simp [checkDepth, hm]
      · by_cases hn : n ≤ depth
        · right
          simp [checkDepth, hm, hn]
        · left
          have hn' : ¬n + 1 ≤ depth := by omega
          simp [checkDepth, hm, hn, hn']

end

end Limits

namespace Run

/-- The action ends as `m'` does, unless the machine stops it. -/
def Fits {α : Type} (m m' : Run α) : Prop :=
  ∀ e, m'.run e = m.run e ∨ ∃ e', m.run e = .error (.fault .nestingExceeded) e'

theorem Fits.word {lim lim' : Limits} {fuel depth position : Nat}
    (h : ∀ depth name, lim'.checkDepth depth name = lim.checkDepth depth name ∨
      lim.checkDepth depth name = .error .nestingExceeded) :
    Fits (Run.word lim fuel depth position) (Run.word lim' fuel depth position) := by
  have hgrants : lim.Grants (· = .fault .nestingExceeded) lim' Eq := by
    constructor
    · rintro depth _ rfl
      rfl
    · rintro depth _ name rfl
      exact (h depth name).imp_right fun hn => ⟨_, hn, rfl⟩
  intro e
  have hword : Follows (· = .fault .nestingExceeded) Eq (Run.word lim fuel depth position)
      (Run.word lim' fuel depth position) Eq :=
    (Carries.refl _).leads.word hgrants rfl trivial
  rcases hword e e rfl with htwin | hstop
  · exact .inl htwin.eq
  · obtain ⟨s, e', hr, rfl⟩ := hstop.exists_error
    exact .inr ⟨e', hr⟩

end Run

/-- What a token stands for at the top level as well as in a definition. -/
inductive Dictionary.Direct (d : Dictionary) : String → Atom → Prop
  | number {text : String} {n : Int} (hfind : d.find? text = none)
      (hparse : Numeral.parse text = .ok n) (hrange : Cell.InRange n) : Direct d text (.lit n)
  | index {text : String} {position : Nat} (hfind : d.find? text = some position)
      (hget : d.get? position = some (Word.ofBuiltin .index)) : Direct d text .index
  | word {text : String} {position : Nat} {w : Word} (hcolon : text ≠ ":")
      (hfind : d.find? text = some position) (hget : d.get? position = some w)
      (himmediate : w.immediate = false) (hfree : d.SelfContained position) :
      Direct d text (.call (.entry position))

theorem Dictionary.Direct.ne_colon {d : Dictionary} {text : String} {a : Atom}
    (h : d.Direct text a) : text ≠ ":" := by
  rintro rfl
  cases h with
  | number _ hparse _ => exact Reads.parse_colon hparse
  | index hfind hget =>
      obtain ⟨w, hw, hname⟩ := get?_of_find? hfind
      rw [hget] at hw
      cases hw
      exact absurd hname (by decide +kernel)
  | word hcolon _ _ _ _ => exact hcolon rfl

namespace Block

/-- A body without conditionals and loops. -/
def ofAtoms (as : List Atom) : Block := as.foldl atom empty

theorem atoms_foldl (b : Block) (as : List Atom) : (as.foldl atom b).atoms = b.atoms ++ as := by
  induction as generalizing b with
  | nil => simp
  | cons a as ih => simp [ih, atoms]

theorem eval_foldl (call : Callee → Run Unit) (b : Block) (as : List Atom) :
    (as.foldl atom b).eval call = (do b.eval call; as.forM (Atom.eval call)) := by
  induction as generalizing b with
  | nil => simp
  | cons a as ih => simp [ih, eval]

theorem pieces_foldl (b : Block) (as : List Atom) :
    (as.foldl atom b).pieces = b.pieces ++ as.map .atom := by
  induction as generalizing b with
  | nil => simp
  | cons a as ih => simp [ih, pieces]

theorem pieces_ofAtoms (as : List Atom) : (ofAtoms as).pieces = as.map .atom := pieces_foldl _ _

@[simp] theorem atoms_ofAtoms (as : List Atom) : (ofAtoms as).atoms = as := atoms_foldl _ _

@[simp] theorem eval_ofAtoms (call : Callee → Run Unit) (as : List Atom) :
    (ofAtoms as).eval call = as.forM (Atom.eval call) := by
  rw [ofAtoms, eval_foldl]
  rfl

end Block

/-- In a definition the token adds its atom. -/
theorem Dictionary.Direct.adds {d : Dictionary} {name text : String} {a : Atom}
    (h : d.Direct text a) (hname : Text.upper text ≠ Text.upper name) :
    d.Adds name text (.atom a) := by
  cases h with
  | number hfind hparse hrange => exact .number hfind hname hparse hrange
  | index hfind hget => exact .builtin hfind hget rfl
  | word hcolon hfind hget himmediate hfree => exact .word hcolon hfind hget himmediate

/-- In a definition the tokens add the pieces of a body without conditionals and loops. -/
theorem Dictionary.Direct.adds_pieces {d : Dictionary} {name : String} {ts : List String}
    {as : List Atom} (h : List.Forall₂ d.Direct ts as)
    (hname : ∀ t ∈ ts, Text.upper t ≠ Text.upper name) :
    List.Forall₂ (d.Adds name) ts (Block.ofAtoms as).pieces := by
  rw [Block.pieces_ofAtoms]
  induction h with
  | nil => exact .nil
  | cons ht _ ih =>
      rw [List.forall_mem_cons] at hname
      exact .cons (ht.adds hname.1) (ih hname.2)

/-- The same effect, with two given dictionaries and no definition in progress in the first state. -/
structure Engine.Abreast (d d' : Dictionary) (c : Console) (e e' : Engine) : Prop
    extends SameEffectIn d d' c c e e' where
  draft : e.draft = none

namespace Engine.Abreast

variable {d d' : Dictionary} {c : Console}

theorem blind (d d' : Dictionary) (c : Console) : Blind (Abreast d d' c) where
  stack h := h.stack
  loops h := h.loops
  withStack h stack := ⟨(SameEffectIn.blind d d' c c).withStack h.toSameEffectIn stack, h.draft⟩
  withLoops h loops := ⟨(SameEffectIn.blind d d' c c).withLoops h.toSameEffectIn loops, h.draft⟩
  write h chunk := ⟨(SameEffectIn.blind d d' c c).write h.toSameEffectIn chunk, h.draft⟩

/-- Old words are seen alike when a word has joined them. -/
theorem sees (hd : d.Sound) (w : Word) (c : Console) :
    Sees (Abreast d (d.add w) c) fun k => d.Callable k ∧ d.SelfContained k := by
  apply Sees.of_retained (blind d (d.add w) c) (fun he => ⟨he.dict, he.dict'⟩)
  · intro k v hv
    refine ⟨v, ?_, rfl⟩
    rw [Dictionary.get?_add, if_neg (Nat.ne_of_lt (Dictionary.get?_lt hv)), hv]
  · intro k l hk hc
    exact ⟨hd.callable_of_calls hc, fun ht hw => hk.2 (.head hc ht) hw⟩
  · exact fun hk => hk

end Engine.Abreast

namespace Run.Twins

variable {d : Dictionary} {w : Word} {c : Console} {lim lim' : Limits} {fuel position : Nat}

/-- A token runs as its atom does in code, one level deeper. -/
theorem direct {text : String} {a : Atom} (hd : d.Sound) (hlim : lim.Deeper lim')
    (h : d.Direct text a) :
    Twins (Engine.Abreast d (d.add w) c) (token lim fuel text)
      (a.eval (callIn lim' 1 position fuel)) Eq := by
  intro e e' he
  have hblind := Engine.Abreast.blind d (d.add w) c
  have hdict := he.dict
  cases h with
  | number hfind hparse hrange =>
      rw [run_token_number he.draft (hdict ▸ hfind), cellOf_of_parse hparse hrange]
      exact Twins.push hblind _ e e' he
  | index hfind hget =>
      rw [run_token_word he.draft (hdict ▸ hfind), run_word_builtin (hdict ▸ hget) rfl,
        Primitive.run_exec_index_none he.draft]
      exact Twins.loopIndex hblind e e' he
  | word hcolon hfind hget himmediate hfree =>
      rw [run_token_word he.draft (hdict ▸ hfind)]
      exact Twins.word_shift (Engine.Abreast.sees hd w c) hlim.rest
        ⟨hd.callable hget himmediate, hfree⟩ e e' he

theorem directs {ts : List String} {as : List Atom} (hd : d.Sound) (hlim : lim.Deeper lim')
    (h : List.Forall₂ d.Direct ts as) :
    Twins (Engine.Abreast d (d.add w) c) (tokens lim fuel ts)
      (as.forM (Atom.eval (callIn lim' 1 position fuel))) Eq := by
  induction h with
  | nil => exact .pure ()
  | cons ht _ ih =>
      rw [tokens_cons ht.ne_colon]
      exact (direct hd hlim ht).bind_eq fun _ => ih

end Run.Twins

/-- Every call in a body of such tokens goes to a word that may be called. -/
theorem Dictionary.Sound.sound_of_direct {d : Dictionary} {ts : List String} {as : List Atom}
    (hd : d.Sound) (h : List.Forall₂ d.Direct ts as) : ∀ a ∈ as, a.Sound d := by
  induction h with
  | nil => exact fun _ ha => absurd ha (List.not_mem_nil)
  | cons ht _ ih =>
      rw [List.forall_mem_cons]
      refine ⟨?_, ih⟩
      cases ht with
      | number _ _ _ | index _ _ => trivial
      | word _ _ hget himmediate _ => exact hd.callable hget himmediate

section
variable {e : Engine} {name : String} {b : Block}

theorem Engine.sound_defined (he : e.Sound) (hd : e.draft = none)
    (hb : ∀ a ∈ b.atoms, a.Sound e.dict) : (e.defined name b).Sound where
  dict := he.dict.add hb _ _
  draft hd' := by
    have hnone : (e.defined name b).draft = none := hd
    rw [hnone] at hd'
    cases hd'

theorem Engine.get?_defined (e : Engine) (name : String) (b : Block) :
    (e.defined name b).dict.get? e.dict.size = some (b.toWord name) := by
  rw [Engine.defined, Engine.note, Dictionary.get?_add, if_pos rfl]

/-- The name of a word that was just defined runs it. -/
theorem Run.run_tokens_defined (hd : e.draft = none) (hcolon : name ≠ ":") (b : Block)
    (lim : Limits) (fuel : Nat) : (tokens lim fuel [name]).run (e.defined name b) =
      (word lim fuel 0 e.dict.size).run (e.defined name b) := by
  have hdraft : (e.defined name b).draft = none := hd
  rw [run_tokens_singleton hcolon, run_token_word hdraft (Dictionary.find?_add rfl)]

/-- The call of a word that was just defined settles on what its body means. -/
theorem exists_settles_defined {lim : Limits} (he : e.Sound) (hd : e.draft = none)
    (hb : ∀ a ∈ b.atoms, a.Sound e.dict) (hcolon : name ≠ ":")
    (hfirst : ∀ name, lim.checkDepth 0 name = .ok ()) :
    ∃ r, Settles (fun n => b.eval (callIn lim 1 e.dict.size n)) (e.defined name b) r ∧
      Settles (fun n => tokens lim n [name]) (e.defined name b) r := by
  have hget := e.get?_defined name b
  have hsound : (e.defined name b).dict.Sound := (Engine.sound_defined he hd hb).dict
  have hcall : ∀ c, .call c ∈ b.atoms → ∀ e', (e.defined name b).SameProgram e' →
      Alike (fun n => callIn lim 1 e.dict.size n c) (fun n => callIn lim 1 e.dict.size n c) e' := by
    intro c hc e' hs
    have hcallable : (e.defined name b).dict.Callable (c.position e.dict.size) := by
      cases c with
      | entry k => exact Dictionary.Callable.add (hb _ hc) _
      | itself => exact Dictionary.callable_of_compiled hget rfl
    exact word_alike (hsound.of_unmarked hs.dict) (hcallable.of_unmarked hs.dict)
  obtain ⟨r, hword, heval, -⟩ := word_alike_eval hget rfl fun _ => hcall
  refine ⟨r, heval.congr fun n => ?_, hword.congr fun n => ?_⟩
  · rw [hfirst]
    rfl
  · rw [run_tokens_defined hd hcolon]

end

theorem Engine.SameEffect.giveUp {c c' : Console} {e e' : Engine} (h : SameEffect c c' e e')
    (x y : Record) : SameEffect c c' (e.note x).reset (e'.note y).reset where
  stack := by
    rw [reset_stack, reset_stack]
    exact h.stack
  loops := rfl
  printed := by
    rw [reset_console, reset_console]
    exact h.printed

/-- With room for one word more, calling the word that was defined by the tokens does what the
tokens do. -/
theorem exists_twin_defined {lim lim' : Limits} {e : Engine} {name : String} {ts : List String}
    {as : List Atom} (he : e.Sound) (hd : e.draft = none) (hcolon : name ≠ ":")
    (hlim : lim.Deeper lim') (hts : List.Forall₂ e.dict.Direct ts as) :
    ∃ r r', Settles (fun n => tokens lim n ts) e r ∧
      Settles (fun n => tokens lim' n [name]) (e.defined name (.ofAtoms as)) r' ∧
      Twin (Engine.SameEffect e.console e.console) Eq r r' := by
  have hb : ∀ a ∈ (Block.ofAtoms as).atoms, a.Sound e.dict := by
    rw [Block.atoms_ofAtoms]
    exact he.dict.sound_of_direct hts
  obtain ⟨r, hr, -, -⟩ := Proceeds.tokens lim ts he
  obtain ⟨r', heval, hr'⟩ := exists_settles_defined he hd hb hcolon hlim.first
  refine ⟨r, r', hr, hr', ?_⟩
  obtain ⟨fuel, hrun, hrun'⟩ := hr.together heval
  have hstart : Engine.Abreast e.dict (e.dict.add ((Block.ofAtoms as).toWord name)) e.console e
      (e.defined name (.ofAtoms as)) :=
    ⟨⟨⟨rfl, rfl, [], rfl, rfl⟩, rfl, rfl⟩, hd⟩
  have htwins : Twins (Engine.Abreast e.dict (e.dict.add ((Block.ofAtoms as).toWord name)) e.console)
      (tokens lim fuel ts) (as.forM (Atom.eval (callIn lim' 1 e.dict.size fuel))) Eq :=
    Twins.directs he.dict hlim hts
  have htwin := htwins _ _ hstart
  rw [← Block.eval_ofAtoms, hrun, hrun'] at htwin
  exact htwin.mono fun _ _ h => h.toSameEffect

/-- A machine with room for one word more does what it did, unless it was stopped there. -/
theorem settles_defined_map {e : Engine} {name : String} {b : Block} {m : Nat}
    {nesting : Option Nat} {r : Outcome Unit} (he : e.Sound) (hd : e.draft = none)
    (hb : ∀ a ∈ b.atoms, a.Sound e.dict) (hcolon : name ≠ ":")
    (h : Settles (fun n => tokens ⟨m, nesting.map (· + 1)⟩ n [name]) (e.defined name b) r) :
    ∃ r', Settles (fun n => tokens ⟨m, nesting⟩ n [name]) (e.defined name b) r' ∧
      (r = r' ∨ ∃ e', r' = .error (.fault .nestingExceeded) e') := by
  obtain ⟨r', hr', -, -⟩ := Proceeds.tokens ⟨m, nesting⟩ [name] (Engine.sound_defined he hd hb)
  refine ⟨r', hr', ?_⟩
  obtain ⟨fuel, hrun, hrun'⟩ := h.together hr'
  have hfits : Fits (word ⟨m, nesting⟩ fuel 0 e.dict.size)
      (word ⟨m, nesting.map (· + 1)⟩ fuel 0 e.dict.size) :=
    Fits.word (Limits.checkDepth_map m nesting)
  have hends := hfits (e.defined name b)
  rw [← run_tokens_defined hd hcolon, ← run_tokens_defined hd hcolon, hrun, hrun'] at hends
  exact hends

/-- Feeding a sequence of tokens has the effect of defining a word with this body and calling it
with a bound that is one higher: the same stacks and the same output, or the same fault with these
as they were at that moment. If the machine has no room for the bound that was chosen, it may be
the call that it stops. -/
theorem interpreting_agrees {e : Engine} {name line define call : String} {ts : List String}
    {as : List Atom} {k : Nat} {x : Numeral.Error} (h : Reachable e) (hd : e.draft = none)
    (hk : e.dict.find? ";" = some k) (hsemicolon : e.dict.get? k = some (Word.ofBuiltin .semicolon))
    (hts : List.Forall₂ e.dict.Direct ts as) (hn : Numeral.parse name = .error x)
    (hcolon : name ≠ ":") (hname : ∀ t ∈ ts, Text.upper t ≠ Text.upper name)
    (hline : Token.ofText line = .ok ts)
    (hdefine : Token.ofText define = .ok (":" :: name :: (ts ++ [";"])))
    (hcall : Token.ofText call = .ok [name]) (m : Nat) (nesting : Option Nat) :
    ∃ r e₁ r', Settles (fun n => feed ⟨m, nesting⟩ n line) e r ∧
      (∀ fuel, (feed ⟨m + 1, nesting⟩ fuel define).run e = .ok () e₁) ∧
      Settles (fun n => feed ⟨m + 1, nesting⟩ n call) e₁ r' ∧
      (Twin (Engine.SameEffect e.console e.console) Eq r r' ∨
        ∃ n e', nesting = some n ∧ n ≤ m ∧ r' = .error (.fault .nestingExceeded) e') := by
  have hsound := h.ready.sound
  have hdefined : ∀ fuel, (feed ⟨m + 1, nesting⟩ fuel define).run e =
      .ok () (e.defined name (.ofAtoms as)) := by
    intro fuel
    exact run_feed_define hd hk hsemicolon hn (Dictionary.Direct.adds_pieces hts hname) hdefine _ _
  have hgiveUp : ∀ {r r' : Outcome Unit}, Twin (Engine.SameEffect e.console e.console) Eq r r' →
      Twin (Engine.SameEffect e.console e.console) Eq (recover line r) (recover call r') :=
    fun htwin => twin_recover_of htwin fun f hs => hs.giveUp _ _
  by_cases hroom : ∀ n, nesting = some n → m < n
  · obtain ⟨r, r', hr, hr', htwin⟩ :=
      exists_twin_defined hsound hd hcolon (Limits.deeper_of_lt hroom) hts
    exact ⟨_, _, _, hr.feed hline, hdefined, hr'.feed hcall, .inl (hgiveUp htwin)⟩
  · obtain ⟨r, r₁, hr, hr₁, htwin⟩ :=
      exists_twin_defined hsound hd hcolon (Limits.deeper_map m nesting) hts
    have hb : ∀ a ∈ (Block.ofAtoms as).atoms, a.Sound e.dict := by
      rw [Block.atoms_ofAtoms]
      exact hsound.dict.sound_of_direct hts
    obtain ⟨r', hr', hends⟩ := settles_defined_map hsound hd hb hcolon hr₁
    refine ⟨_, _, _, hr.feed hline, hdefined, hr'.feed hcall, ?_⟩
    rcases hends with rfl | ⟨e', rfl⟩
    · exact .inl (hgiveUp htwin)
    · right
      simp only [not_forall] at hroom
      obtain ⟨n, hnesting, hle⟩ := hroom
      exact ⟨n, _, hnesting, Nat.le_of_not_lt hle, rfl⟩

/-- The sequence prints a number and then fails, since no loop is running. -/
theorem interpreting_agrees_squaring :
    squaring.draft = none ∧
    (engine ((feed ⟨1, some 480⟩ 100 "3 SQ . I").run squaring)).console.out = #["9 "] ∧
    ∃ r e₁ r', Settles (fun n => feed ⟨1, some 480⟩ n "3 SQ . I") squaring r ∧
      (∀ fuel, (feed ⟨2, some 480⟩ fuel ": T 3 SQ . I ;").run squaring = .ok () e₁) ∧
      Settles (fun n => feed ⟨2, some 480⟩ n "T") e₁ r' ∧
      Twin (Engine.SameEffect squaring.console squaring.console) Eq r r' := by
  have hreach : Reachable squaring := .feed _ _ _ .fresh (by decide +kernel)
  have hend : squaring.dict.find? ";" = some 0 := by decide +kernel
  have hprint : squaring.dict.get? 32 = some (Word.ofBuiltin .print) := by decide +kernel
  have hsq : squaring.dict.get? 36 =
      some ⟨"SQ", .compiled #[.call (.entry 21), .call (.entry 12)], false⟩ := by decide +kernel
  have hindex : squaring.dict.get? 9 = some (Word.ofBuiltin .index) := by decide +kernel
  have hname : Numeral.parse "T" = .error (.notANumber "T") := by decide +kernel
  have hline : Token.ofText "3 SQ . I" = .ok ["3", "SQ", ".", "I"] := by decide +kernel
  have hdefine : Token.ofText ": T 3 SQ . I ;" = .ok [":", "T", "3", "SQ", ".", "I", ";"] := by
    decide +kernel
  have hcall : Token.ofText "T" = .ok ["T"] := by decide +kernel
  have hts : List.Forall₂ squaring.dict.Direct ["3", "SQ", ".", "I"]
      [.lit 3, .call (.entry 36), .call (.entry 32), .index] := by
    constructor
    · exact .number (by decide +kernel) (by decide +kernel) (by decide)
    constructor
    · exact .word (by decide) (by decide +kernel) hsq rfl selfContained_squaring
    constructor
    · exact .word (by decide) (by decide +kernel) hprint rfl
        (Dictionary.selfContained_of_builtin hprint (by decide) (by decide))
    constructor
    · exact .index (by decide +kernel) hindex
    · constructor
  obtain ⟨r, e₁, r', hr, he₁, hr', h⟩ := interpreting_agrees hreach (by decide +kernel) hend
    (by decide +kernel) hts hname (by decide) (by decide +kernel) hline hdefine hcall 1 (some 480)
  refine ⟨by decide +kernel, by decide +kernel, r, e₁, r', hr, he₁, hr', ?_⟩
  rcases h with htwin | ⟨n, _, hnesting, hle, -⟩
  · exact htwin
  · cases hnesting
    exact absurd hle (by decide)

end Forthlet
