import Forthlet.Proofs.Binding
import Forthlet.Proofs.Bounds
import Forthlet.Proofs.Journaling

/-!
# Where the output goes

Nothing that runs looks at what was printed. So a listener gets exactly the chunks that would have
been kept without it, and everything else goes the same way. A report is made of these chunks as
well: it sets the listener aside, keeps what the text prints and adds how the text went.
-/
namespace Forthlet

open Outcome Run

namespace Console

/-- Without a listener the chunks are kept behind those that were kept before. -/
theorem writes_none (out : Array String) (chunks : List String) :
    writes ⟨out, none⟩ chunks = ⟨out ++ chunks.toArray, none⟩ := by
  induction chunks generalizing out with
  | nil => simp [writes]
  | cons chunk chunks ih =>
      have hrest := ih (out.push chunk)
      simp only [writes, List.foldl_cons, write] at hrest ⊢
      simp [hrest]

/-- A listener gets the chunks in order, and nothing is kept. -/
theorem writes_some (out heard : Array String) (chunks : List String) :
    writes ⟨out, some heard⟩ chunks = ⟨out, some (heard ++ chunks.toArray)⟩ := by
  induction chunks generalizing heard with
  | nil => simp [writes]
  | cons chunk chunks ih =>
      have hrest := ih (heard.push chunk)
      simp only [writes, List.foldl_cons, write] at hrest ⊢
      simp [hrest]

end Console

/-- The states differ in nothing but their consoles, and since these were `c` and `c'` the same was
printed on both. -/
def Engine.PrintsAlike (c c' : Console) (e e' : Engine) : Prop :=
  ∃ chunks, e.console = c.writes chunks ∧ e' = { e with console := c'.writes chunks }

namespace Engine.PrintsAlike

variable {c c' : Console}

theorem start (c c' : Console) (e : Engine) :
    PrintsAlike c c' { e with console := c } { e with console := c' } :=
  ⟨[], rfl, rfl⟩

theorem mute (c c' : Console) : Mute (PrintsAlike c c') := by
  refine .of_sinks
    (S := fun d j d' j' => j' = j ∧ ∃ chunks, d = c.writes chunks ∧ d' = c'.writes chunks)
    (fun {e e'} => ⟨?_, ?_⟩) ?_ ?_
  · rintro ⟨chunks, hc, rfl⟩
    exact ⟨_, _, rfl, rfl, chunks, hc, rfl⟩
  · rintro ⟨_, _, rfl, rfl, chunks, hc, rfl⟩
    exact ⟨chunks, hc, rfl⟩
  · rintro d j d' j' ⟨hj, chunks, rfl, rfl⟩ chunk
    exact ⟨hj, chunks ++ [chunk], by simp [Console.writes], by simp [Console.writes]⟩
  · rintro d j d' _ ⟨rfl, hc⟩ r
    exact ⟨rfl, hc⟩

end Engine.PrintsAlike

namespace Outcome

variable {α : Type} {R : Engine → Engine → Prop} {Q : α → α → Prop} {r : Outcome α}

theorem Twin.of_ok {a : α} {e : Engine} (h : Twin R Q (.ok a e) r) :
    ∃ b e', r = .ok b e' ∧ R e e' ∧ Q a b := by
  cases h with
  | ok he hq => exact ⟨_, _, rfl, he, hq⟩

theorem Twin.of_error {s : Stop} {e : Engine} (h : Twin R Q (.error s e) r) :
    ∃ e', r = .error s e' ∧ R e e' := by
  cases h with
  | error he => exact ⟨_, rfl, he⟩

/-- The outcome on another console. -/
def withConsole (c : Console) : Outcome α → Outcome α
  | .ok a e => .ok a { e with console := c }
  | .error s e => .error s { e with console := c }

theorem Ended.withConsole (h : Ended r) (c : Console) : Ended (r.withConsole c) := by
  match r, h with
  | .ok _ _, _ => trivial
  | .error (.fault _) _, _ => trivial

/-- Runs that print alike have the same outcome, up to the console. -/
theorem Twin.eq_withConsole {c c' : Console} {r' : Outcome α}
    (h : Twin (Engine.PrintsAlike c c') Eq r r') :
    ∃ chunks, (engine r).console = c.writes chunks ∧ r' = r.withConsole (c'.writes chunks) := by
  cases h with
  | ok he hq =>
      obtain ⟨chunks, hc, rfl⟩ := he
      subst hq
      exact ⟨chunks, hc, rfl⟩
  | error he =>
      obtain ⟨chunks, hc, rfl⟩ := he
      exact ⟨chunks, hc, rfl⟩

/-- What a report adds to the chunks that were printed. -/
def status : Outcome Unit → List String
  | .ok _ e => if e.compiling then [] else [" ok"]
  | .error (.fault f) _ => ["\n Error: " ++ f.message]
  | .error .outOfFuel _ => []

theorem engine_withConsole (c : Console) (r : Outcome α) :
    engine (r.withConsole c) = { engine r with console := c } := by
  cases r <;> rfl

theorem status_withConsole (c : Console) (r : Outcome Unit) :
    (r.withConsole c).status = r.status := by
  match r with
  | .ok _ _ | .error (.fault _) _ | .error .outOfFuel _ => rfl

end Outcome

namespace Run.Mute

variable {R : Engine → Engine → Prop} (hR : Mute R) {lim : Limits}
include hR

/-- From related moments a run comes to related moments. -/
theorem next {m m₁ : Moment} {e : Engine} (h : m.Next lim m₁) (he : R m.engine e) :
    ∃ e₁, Moment.Next lim { m with engine := e } { m₁ with engine := e₁ } ∧ R m₁.engine e₁ := by
  cases h with
  | @step i next e₁ hi hcall hr =>
      have htwin := (hR.carries.step i m.ip).twins _ _ he
      rw [hr] at htwin
      obtain ⟨_, e₂, hr', he', rfl⟩ := htwin.of_ok
      exact ⟨e₂, .step hi hcall hr', he'⟩
  | @enter callee w c hi hw hc hd =>
      have hw' : e.dict.get? (callee.position m.position) = some w := by
        rw [hR.dict he]
        exact hw
      exact ⟨e, .enter hi hw' hc hd, he⟩
  | @resume callee fuel e₁ hi hr =>
      have hword : Twins R (Run.word lim fuel m.depth (callee.position m.position))
          (Run.word lim fuel m.depth (callee.position m.position)) Eq := hR.word
      have htwin := hword _ _ he
      rw [hr] at htwin
      obtain ⟨_, e₂, hr', he', -⟩ := htwin.of_ok
      exact ⟨e₂, .resume hi hr', he'⟩

theorem reaches {m m₁ : Moment} {e : Engine} (h : m.Reaches lim m₁) (he : R m.engine e) :
    ∃ e₁, Moment.Reaches lim { m with engine := e } { m₁ with engine := e₁ } ∧
      R m₁.engine e₁ := by
  induction h with
  | refl => exact ⟨e, .refl, he⟩
  | tail _ hn ih =>
      obtain ⟨e₁, hr, he₁⟩ := ih
      obtain ⟨e₂, hn', he₂⟩ := hR.next hn he₁
      exact ⟨e₂, hr.tail hn', he₂⟩

/-- From related states a text passes related states. -/
theorem passes {e e' e₁ : Engine} {ts : List String} (h : Passes lim e ts e₁) (he : R e e') :
    ∃ e₁', Passes lim e' ts e₁' ∧ R e₁ e₁' := by
  have htokens : ∀ (fuel : Nat) (us : List String),
      Twins R (Run.tokens lim fuel us) (Run.tokens lim fuel us) Eq := fun _ us => hR.tokens us
  cases h with
  | @between us vs fuel e₁ hts hr =>
      have htwin := htokens fuel us _ _ he
      rw [hr] at htwin
      obtain ⟨_, e₂, hr', he', -⟩ := htwin.of_ok
      exact ⟨e₂, .between hts hr', he'⟩
  | @within us vs text fuel position e₂ w c m hts hr hcolon hf hw hc hnow hd hm =>
      have htwin := htokens fuel us _ _ he
      rw [hr] at htwin
      obtain ⟨_, e₂', hr', he', -⟩ := htwin.of_ok
      rw [← hR.dict he'] at hf hw
      rw [← hR.draft he'] at hnow
      obtain ⟨e₃, hm', he₃⟩ := hR.reaches hm he'
      exact ⟨e₃, .within hts hr' hcolon hf hw hc hnow hd hm', he₃⟩
  | @stopped fuel s e₁ hr =>
      have htwin := htokens fuel ts _ _ he
      rw [hr] at htwin
      obtain ⟨e₂, hr', he'⟩ := htwin.of_error
      exact ⟨e₂, .stopped hr', he'⟩

end Run.Mute

namespace Run

variable {lim : Limits} {fuel : Nat} {line : String} {e : Engine} {r : Outcome Unit}

/-- A report is what the text prints with nothing kept before, and how it went. -/
theorem run_interpret (he : e.Ready)
    (hr : (feed lim fuel line).run { e with console := ⟨#[], none⟩ } = r) (hended : Ended r) :
    (interpret lim fuel line).run e =
      .ok (String.join ((engine r).console.out.toList ++ r.status))
        { engine r with
          console := ⟨(engine r).console.out ++ r.status.toArray, e.console.listener⟩ } := by
  have hready := he.withConsole ⟨#[], none⟩
  unfold interpret
  match r, hended with
  | .ok _ e₁, _ =>
      simp only [EStateM.run] at hr ⊢
      rw [hr]
      cases hc : e₁.compiling <;> simp [engine, status, hc]
  | .error (.fault f) e₁, _ =>
      obtain ⟨hrecovers, -⟩ := fault_of_feed hready hr
      simp only [EStateM.run] at hr ⊢
      rw [hr]
      simp [engine, status, hrecovers]

theorem interpret_extends (lim : Limits) {fuel fuel' : Nat} (h : fuel ≤ fuel') (line : String) :
    Extends (interpret lim fuel line) (interpret lim fuel' line) := by
  intro e he
  have hfeed : Ended ((feed lim fuel line).run { e with console := ⟨#[], none⟩ }) := by
    unfold interpret at he
    simp only [EStateM.run] at he ⊢
    split at he
    · next e' hr =>
        rw [hr]
        trivial
    · next f e' hr =>
        rw [hr]
        trivial
    · exact he.elim
  have hsame := feed_extends lim h line _ hfeed
  unfold interpret
  simp only [EStateM.run] at hsame ⊢
  rw [hsame]

theorem settles_interpret {r : Outcome String} (h : (interpret lim fuel line).run e = r)
    (hr : Ended r) : Settles (fun n => interpret lim n line) e r := by
  subst h
  exact .of_ended (fun _ hle => interpret_extends lim hle line) hr

/-- Where feeding a text comes to an end, there is a report about it, and it leaves what feeding
leaves but for the console. -/
theorem settles_interpret_of_feed (he : e.Ready) (h : Settles (fun n => feed lim n line) e r) :
    ∃ chunks console, Settles (fun n => interpret lim n line) e
      (.ok (String.join (chunks ++ r.status)) { engine r with console }) := by
  obtain ⟨hended, n, hn⟩ := h
  have hsame : Twins (Engine.PrintsAlike e.console ⟨#[], none⟩) (feed lim n line)
      (feed lim n line) Eq := (Engine.PrintsAlike.mute _ _).feed line
  have htwin := hsame _ _ (.start e.console ⟨#[], none⟩ e)
  rw [hn n (Nat.le_refl n)] at htwin
  obtain ⟨chunks, -, hquiet⟩ := htwin.eq_withConsole
  have hrun := run_interpret he hquiet (hended.withConsole _)
  rw [status_withConsole, engine_withConsole] at hrun
  exact ⟨_, _, settles_interpret hrun trivial⟩

/-- However a report ends, the listener is there as before and was told nothing. -/
theorem listener_interpret (lim : Limits) (fuel : Nat) (line : String) (e : Engine) :
    (engine ((interpret lim fuel line).run e)).console.listener = e.console.listener := by
  unfold interpret
  simp only [EStateM.run]
  split
  · rfl
  · split <;> rfl
  · rfl

end Run

/-- A text goes the same way with a listener as without one: it passes the same states and ends
alike. The listener gets the chunks that are otherwise kept, in the same order, up to a fault if
there is one. A report has an answer for every text, which is made of the same chunks and of how
the text went. It leaves the rest of the state as feeding the text does, and the listener as it
was. -/
theorem output_routes_agree {e : Engine} (h : Reachable e) (lim : Limits) (line : String) :
    (∀ {c c' : Console} {ts : List String} {e₁ : Engine},
      Passes lim { e with console := c } ts e₁ →
        ∃ chunks, e₁.console = c.writes chunks ∧
          Passes lim { e with console := c' } ts { e₁ with console := c'.writes chunks }) ∧
    (∃ (r : Outcome Unit) (chunks : List String),
      (∀ out, Settles (fun n => feed lim n line) { e with console := ⟨out, none⟩ }
        (r.withConsole ⟨out ++ chunks.toArray, none⟩)) ∧
      (∀ out heard, Settles (fun n => feed lim n line) { e with console := ⟨out, some heard⟩ }
        (r.withConsole ⟨out, some (heard ++ chunks.toArray)⟩)) ∧
      ∀ console, Settles (fun n => interpret lim n line) { e with console }
        (.ok (String.join (chunks ++ r.status))
          { engine r with
            console := ⟨chunks.toArray ++ r.status.toArray, console.listener⟩ })) ∧
    ∀ (fuel : Nat) (console : Console),
      (engine ((interpret lim fuel line).run { e with console })).console.listener =
        console.listener := by
  refine ⟨fun {c c' ts e₁} hp => ?_, ?_, fun fuel console => listener_interpret lim fuel line _⟩
  · obtain ⟨_, hp', chunks, hc, rfl⟩ :=
      (Engine.PrintsAlike.mute c c').passes hp (.start c c' e)
    exact ⟨chunks, hc, hp'⟩
  · obtain ⟨r, ⟨hended, n, hn⟩, -⟩ := feed_ready (h.ready.withConsole ⟨#[], none⟩) lim line
    -- What is kept where nothing was kept before are the chunks.
    have hfeed : ∀ c : Console, Settles (fun n => feed lim n line) { e with console := c }
        (r.withConsole (c.writes (engine r).console.out.toList)) := by
      intro c
      refine ⟨hended.withConsole _, n, fun fuel hle => ?_⟩
      have hsame : Twins (Engine.PrintsAlike ⟨#[], none⟩ c) (feed lim fuel line)
          (feed lim fuel line) Eq := (Engine.PrintsAlike.mute _ c).feed line
      have htwin := hsame _ _ (.start _ c e)
      rw [hn fuel hle] at htwin
      obtain ⟨chunks, hc, hr⟩ := htwin.eq_withConsole
      rw [hr, hc, Console.writes_none]
      simp
    refine ⟨r, (engine r).console.out.toList, fun out => ?_, fun out heard => ?_,
      fun console => ⟨trivial, n, fun fuel hle => ?_⟩⟩
    · rw [← Console.writes_none]
      exact hfeed _
    · rw [← Console.writes_some]
      exact hfeed _
    · rw [run_interpret (h.ready.withConsole console) (hn fuel hle) hended, Array.toArray_toList]

/-- A number is printed and a fault follows: a listener is told the number although the text fails,
and the report holds it as well. -/
theorem output_routes_agree_squaring :
    ∃ e₁, e₁.console = ⟨#["7", "9 "], none⟩ ∧
      Passes {} { squaring with console := ⟨#["7"], none⟩ } ["3", "SQ", ".", "FOO"] e₁ ∧
      (∃ chunks, e₁.console = Console.writes ⟨#["7"], none⟩ chunks ∧
        Passes {} { squaring with console := ⟨#["7"], some #[]⟩ } ["3", "SQ", ".", "FOO"]
          { e₁ with console := Console.writes ⟨#["7"], some #[]⟩ chunks }) ∧
      ∃ (r : Outcome Unit) (chunks : List String),
        (∀ out heard, Settles (fun n => feed {} n "3 SQ . FOO")
          { squaring with console := ⟨out, some heard⟩ }
          (r.withConsole ⟨out, some (heard ++ chunks.toArray)⟩)) ∧
        String.join (chunks ++ r.status) = "9 \n Error: Undefined: FOO" := by
  let start : Engine := { squaring with console := ⟨#["7"], none⟩ }
  have hreach : Reachable squaring := .feed _ _ _ .fresh (by decide +kernel)
  have hts : ["3", "SQ", ".", "FOO"] = ["3", "SQ", "."] ++ ["FOO"] := rfl
  have hrun : (tokens {} 100 ["3", "SQ", "."]).run start =
      .ok () (engine ((tokens {} 100 ["3", "SQ", "."]).run start)) := by decide +kernel
  have hresult : (interpret {} 100 "3 SQ . FOO").run squaring =
      .ok "9 \n Error: Undefined: FOO"
        (engine ((interpret {} 100 "3 SQ . FOO").run squaring)) := by decide +kernel
  obtain ⟨hpasses, ⟨r, chunks, -, hheard, hreport⟩, -⟩ :=
    output_routes_agree hreach {} "3 SQ . FOO"
  have hsame := (hreport squaring.console).unique (settles_interpret hresult trivial)
  refine ⟨_, by decide +kernel, .between hts hrun, hpasses (.between hts hrun), r, chunks, hheard,
    ?_⟩
  injection hsame

end Forthlet
