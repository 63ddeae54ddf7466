import Mathlib.Data.List.Forall2
import Forthlet.Proofs.Binding

/-!
# Cells underneath

Words take cells from the top of the stack and put cells there, and a word that finds too few of
them fails. So a text that does not fail for that reason does the same when there are more cells
underneath, and leaves them as they are. Only `.S` shows them.
-/
namespace Forthlet

open Outcome Run

/-- What `.S` prints about a stack. -/
def Stack.listing (s : List Int) : String :=
  "<" ++ toString s.length ++ "> " ++ String.join (s.reverse.map fun n => toString n ++ " ")

/-- What was printed with the cells in `deep` underneath, and what is printed without them. -/
inductive Reprints (deep : List Int) : String → String → Prop
  | same (chunk : String) : Reprints deep chunk chunk
  | listing (s : List Int) : Reprints deep (Stack.listing s) (Stack.listing (s ++ deep))

/-- The second state has the cells in `deep` below its stack, and since both consoles were `c` the
same was printed but for what `.S` shows. There is no other difference. -/
structure Engine.Above (deep : List Int) (c : Console) (e e' : Engine) : Prop where
  stack : e'.stack = e.stack ++ deep
  loops : e'.loops = e.loops
  dict : e'.dict = e.dict
  draft : e'.draft = e.draft
  journal : e'.journal = e.journal
  printed : ∃ chunks chunks', e.console = c.writes chunks ∧ e'.console = c.writes chunks' ∧
    List.Forall₂ (Reprints deep) chunks chunks'

namespace Engine.Above

variable {deep : List Int} {c : Console} {e e' : Engine}

theorem shares (deep : List Int) (c : Console) : Shares (Above deep c) where
  dict h := h.dict
  draft h := h.draft
  withDict h _ := ⟨h.stack, h.loops, rfl, h.draft, h.journal, h.printed⟩
  withDraft h _ := ⟨h.stack, h.loops, h.dict, rfl, h.journal, h.printed⟩
  note h r := ⟨h.stack, h.loops, h.dict, h.draft, congrArg (Array.push · r) h.journal, h.printed⟩

theorem withStack (h : Above deep c e e') (s : List Int) :
    Above deep c { e with stack := s } { e' with stack := s ++ deep } :=
  ⟨rfl, h.loops, h.dict, h.draft, h.journal, h.printed⟩

theorem withLoops (h : Above deep c e e') (loops : List Frame) :
    Above deep c { e with loops } { e' with loops } :=
  ⟨h.stack, rfl, h.dict, h.draft, h.journal, h.printed⟩

theorem write (h : Above deep c e e') {chunk chunk' : String} (hc : Reprints deep chunk chunk') :
    Above deep c { e with console := e.console.write chunk }
      { e' with console := e'.console.write chunk' } := by
  obtain ⟨chunks, chunks', hp, hp', hall⟩ := h.printed
  refine ⟨h.stack, h.loops, h.dict, h.draft, h.journal, chunks ++ [chunk], chunks' ++ [chunk'],
    ?_, ?_, ?_⟩
  · simp [Console.writes, hp]
  · simp [Console.writes, hp']
  · exact List.rel_append hall (.cons hc .nil)

end Engine.Above

/-- Whatever the action finds on the stack, it does the same with the cells in `deep` below, or it
misses a cell. -/
def Stack.Act.Framed {α : Type} (deep : List Int) (act : Stack.Act Int α) : Prop :=
  ∀ s, match act.run s with
    | .ok a s' => act.run (s ++ deep) = .ok a (s' ++ deep)
    | .error f _ => f = .stackUnderflow

namespace Stack.Act.Framed

variable {deep : List Int}

theorem push (n : Int) : Framed deep (Stack.push n) := fun _ => rfl

theorem popCell : Framed deep Stack.popCell := by
  intro s
  cases s with
  | nil => rfl
  | cons n s => rfl

end Stack.Act.Framed

namespace Shuffle

/-- The diagram of a word only shows the cells on top. -/
theorem apply_append {w : Shuffle} {s t : List Int} (h : w.apply s = some t) (deep : List Int) :
    w.apply (s ++ deep) = some (t ++ deep) := by
  unfold apply at h
  split at h <;> cases h
  all_goals simp [apply]
  split <;> rfl

theorem framed (deep : List Int) (w : Shuffle) : Stack.Act.Framed deep w.act := by
  intro s
  cases h : w.apply s with
  | none => simp [act_eq, EStateM.run, h]
  | some t => simp [act_eq, EStateM.run, h, apply_append h deep]

end Shuffle

namespace Run

/-- The run misses a cell. -/
abbrev Misses (s : Stop) : Prop := s = .fault .stackUnderflow

theorem run_mapM_decimal (ns : List Int) (e : Engine) :
    (ns.mapM decimal).run e = if ns.all Numeral.printable then .ok (ns.map toString) e
      else .error (.fault .unprintable) e := by
  induction ns with
  | nil => rfl
  | cons n ns ih =>
      rw [List.mapM_cons, EStateM.run_bind, decimal]
      by_cases hn : Numeral.printable n = true
      · rw [if_pos hn, EStateM.run_pure]
        simp only [EStateM.run_bind, ih]
        cases hns : ns.all Numeral.printable with
        | true => simp [hn, hns]
        | false => simp [hns]
      · simp [hn]

theorem run_printStack (e : Engine) :
    Primitive.printStack.run e = if e.stack.all Numeral.printable then
      .ok () { e with console := e.console.write (Stack.listing e.stack) }
      else .error (.fault .unprintable) e := by
  have hrun : Primitive.printStack.run e = (do
      let texts ← e.stack.reverse.mapM decimal
      emit ("<" ++ toString e.stack.length ++ "> " ++ String.join (texts.map (· ++ " "))) :
        Run Unit).run e := rfl
  rw [hrun, EStateM.run_bind, run_mapM_decimal, List.all_reverse]
  cases h : e.stack.all Numeral.printable with
  | true => simp [Stack.listing, Function.comp_def]
  | false => rfl

end Run

namespace Engine.Above

variable {α : Type} {deep : List Int} {c : Console}

/-- The action does the same with the cells underneath, or it misses a cell. -/
abbrev Sinks (deep : List Int) (c : Console) (m : Run α) : Prop :=
  Follows Misses (Above deep c) m m Eq

theorem onStack {act : Stack.Act Int α} (h : act.Framed deep) : Sinks deep c (onStack act) := by
  intro e e' he
  have hact := h e.stack
  simp only [Run.onStack, EStateM.run, he.stack] at hact ⊢
  cases hr : act e.stack with
  | ok a s =>
      rw [hr] at hact
      simp only [hact]
      exact .inl (.ok (he.withStack s) rfl)
  | error f s =>
      rw [hr] at hact
      exact .inr (congrArg Stop.fault hact)

theorem onLoops (act : Stack.Act Frame α) : Sinks deep c (onLoops act) := by
  intro e e' he
  simp only [Run.onLoops, EStateM.run, he.loops]
  left
  cases act e.loops with
  | ok a loops => exact .ok (he.withLoops loops) rfl
  | error f loops => exact .error (he.withLoops loops)

/-- The cells underneath can be printed, so a listing fails for the same cell or not at all. -/
theorem printStack (h : ∀ n ∈ deep, Numeral.printable n = true) :
    Sinks deep c Primitive.printStack := by
  intro e e' he
  have hdeep : deep.all Numeral.printable = true := List.all_eq_true.mpr h
  have hall : e'.stack.all Numeral.printable = e.stack.all Numeral.printable := by
    rw [he.stack, List.all_append, hdeep, Bool.and_true]
  have hwrite := he.write (.listing e.stack)
  rw [← he.stack] at hwrite
  left
  rw [run_printStack, run_printStack, hall]
  split
  · exact .ok hwrite rfl
  · exact .error he

theorem works (h : ∀ n ∈ deep, Numeral.printable n = true) (c : Console) :
    Works Misses (Above deep c) where
  onLoops := onLoops
  push n := onStack (.push n)
  pop := onStack .popCell
  shuffle w := onStack (w.framed deep)
  emit chunk := .modify fun _ _ he => he.write (.same chunk)
  printStack := printStack h

theorem carries (h : ∀ n ∈ deep, Numeral.printable n = true) (c : Console) :
    Carries Misses (Above deep c) where
  toShares := shares deep c
  toWorks := works h c
  withLoops := withLoops

end Engine.Above

theorem Engine.Ready.withStack {e : Engine} (h : e.Ready) {stack : List Int}
    (hs : ∀ n ∈ stack, Cell.InRange n) : Ready { e with stack } where
  sound := ⟨h.sound.dict, h.sound.draft⟩
  ranged := ⟨hs, h.ranged.loops, h.ranged.dict, h.ranged.draft⟩
  loops := h.loops

/-- A text does the same with more cells underneath, and leaves them underneath, whether it
succeeds or fails; unless it fails since it misses a cell. -/
theorem feed_above {e : Engine} (h : Reachable e) {deep : List Int}
    (hdeep : ∀ n ∈ deep, Cell.InRange n) (lim : Limits) (line : String) :
    ∃ r r', Settles (fun n => feed lim n line) e r ∧
      Settles (fun n => feed lim n line) { e with stack := e.stack ++ deep } r' ∧
      (Twin (Engine.Above deep e.console) Eq r r' ∨
        ∃ e', r = .error (.fault .stackUnderflow) e') := by
  have hstack : ∀ n ∈ e.stack ++ deep, Cell.InRange n := by
    intro n hn
    rcases List.mem_append.mp hn with hn | hn
    · exact h.ready.ranged.stack n hn
    · exact hdeep n hn
  obtain ⟨r, hr, -⟩ := feed_ready h.ready lim line
  obtain ⟨r', hr', -⟩ := feed_ready (h.ready.withStack hstack) lim line
  refine ⟨r, r', hr, hr', ?_⟩
  obtain ⟨fuel, hrun, hrun'⟩ := hr.together hr'
  have hstart : Engine.Above deep e.console e { e with stack := e.stack ++ deep } :=
    ⟨rfl, rfl, rfl, rfl, rfl, [], [], rfl, rfl, .nil⟩
  have hprintable : ∀ n ∈ deep, Numeral.printable n = true :=
    fun n hn => Cell.printable_of_inRange (hdeep n hn)
  have hfeed : Follows Misses (Engine.Above deep e.console) (feed lim fuel line)
      (feed lim fuel line) Eq :=
    (Engine.Above.carries hprintable e.console).feed (.refl _ lim) rfl line
  have hends := hfeed _ _ hstart
  rw [hrun, hrun'] at hends
  refine hends.imp_right fun hstop => ?_
  obtain ⟨_, e', rfl, rfl⟩ := hstop.exists_error
  exact ⟨e', rfl⟩

/-- The text lists the stack and then fails, with two cells underneath as well as without. -/
theorem feed_above_squaring :
    ∃ e₁ e₂, (feed {} 100 "3 SQ .S 5 0 /").run squaring = .error (.fault .divisionByZero) e₁ ∧
      (feed {} 100 "3 SQ .S 5 0 /").run { squaring with stack := squaring.stack ++ [7, 8] } =
        .error (.fault .divisionByZero) e₂ ∧
      e₁.console.out = #["<1> 9 "] ∧ e₂.console.out = #["<3> 8 7 9 "] ∧
      Engine.Above [7, 8] squaring.console e₁ e₂ := by
  let e₁ := engine ((feed {} 100 "3 SQ .S 5 0 /").run squaring)
  let e₂ := engine ((feed {} 100 "3 SQ .S 5 0 /").run
    { squaring with stack := squaring.stack ++ [7, 8] })
  have h₁ : (feed {} 100 "3 SQ .S 5 0 /").run squaring =
      .error (.fault .divisionByZero) e₁ := by decide +kernel
  have h₂ : (feed {} 100 "3 SQ .S 5 0 /").run { squaring with stack := squaring.stack ++ [7, 8] } =
      .error (.fault .divisionByZero) e₂ := by decide +kernel
  have hreach : Reachable squaring := .feed _ _ _ .fresh (by decide +kernel)
  have hdeep : ∀ n ∈ [7, 8], Cell.InRange n := by decide
  refine ⟨e₁, e₂, h₁, h₂, by decide +kernel, by decide +kernel, ?_⟩
  obtain ⟨r, r', hr, hr', hends⟩ := feed_above hreach hdeep {} "3 SQ .S 5 0 /"
  cases hr.unique (settles_feed h₁ trivial)
  cases hr'.unique (settles_feed h₂ trivial)
  rcases hends with htwin | ⟨_, h⟩
  · cases htwin with
    | error habove => exact habove
  · cases h

end Forthlet
