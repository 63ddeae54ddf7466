import Forthlet.Proofs.Lines
import Forthlet.Proofs.Naming

/-!
# The case of letters

Capital and small letters of ASCII are told apart nowhere: not when a text is cut into tokens, not
in a number and not in a name. A token as it was written appears only in a message. So sessions
whose texts differ in nothing but the case of such letters go alike, call by call.
-/
namespace Forthlet

open Outcome Run

namespace Text

/-- The texts differ in the case of ASCII letters only. -/
def SameButCase (s t : String) : Prop :=
  s.toList.map Char.toUpper = t.toList.map Char.toUpper

instance (s t : String) : Decidable (SameButCase s t) :=
  inferInstanceAs (Decidable (_ = _))

namespace SameButCase

variable {s t s' t' : String}

theorem refl (s : String) : SameButCase s s := rfl

theorem append (h : SameButCase s t) (h' : SameButCase s' t') :
    SameButCase (s ++ s') (t ++ t') := by
  unfold SameButCase at h h' ⊢
  rw [String.toList_append, String.toList_append, List.map_append, List.map_append, h, h']

end SameButCase

theorem upperChar_toUpper (c : Char) : upperChar c.toUpper = upperChar c :=
  apply_toUpper (by decide) c

/-- The upper case of a text is that of its capitals. -/
theorem SameButCase.upper_eq {s t : String} (h : SameButCase s t) : upper s = upper t := by
  have hmap : ∀ cs : List Char, (cs.map Char.toUpper).flatMap upperChar = cs.flatMap upperChar := by
    intro cs
    rw [List.flatMap_map]
    exact List.flatMap_congr fun c _ => upperChar_toUpper c
  rw [upper, upper, ← hmap s.toList, ← hmap t.toList, h]

/-- No letter becomes a character that is none. -/
theorem toUpper_eq_iff {d : Char} (hd : d.isAlpha = false) (c : Char) :
    c.toUpper = d ↔ c = d := by
  have hletters : ∀ k < 26, (Char.ofNat (97 + k)).toUpper.isAlpha = true ∧
      (Char.ofNat (97 + k)).isAlpha = true := by decide
  have hne : ∀ x : Char, x.isAlpha = true → (x == d) = false := by
    intro x hx
    rw [beq_eq_false_iff_ne]
    rintro rfl
    rw [hd] at hx
    cases hx
  have hsame : (c.toUpper == d) = (c == d) := by
    refine apply_toUpper (f := (· == d)) (fun k hk => ?_) c
    obtain ⟨hcapital, hsmall⟩ := hletters k hk
    rw [hne _ hcapital, hne _ hsmall]
  rw [← beq_iff_eq, hsame, beq_iff_eq]

/-- A text without letters is written in one way only. -/
theorem SameButCase.eq_of_isAlpha {s t : String} (h : SameButCase s t)
    (hs : ∀ c ∈ s.toList, c.isAlpha = false) : t = s := by
  have hmap : ∀ cs ds : List Char, cs.map Char.toUpper = ds.map Char.toUpper →
      (∀ c ∈ cs, c.isAlpha = false) → ds = cs := by
    intro cs
    induction cs with
    | nil => exact fun ds hd _ => List.map_eq_nil_iff.mp hd.symm
    | cons c cs ih =>
        intro ds hd hc
        obtain ⟨d, ds, rfl, hhead, htail⟩ := List.map_eq_cons_iff.mp hd.symm
        obtain ⟨hc, hcs⟩ := List.forall_mem_cons.mp hc
        have hcapital : c.toUpper = c := (toUpper_eq_iff hc c).mpr rfl
        rw [(toUpper_eq_iff hc d).mp (hhead.trans hcapital), ih ds htail.symm hcs]
  exact String.toList_inj.mp (hmap _ _ h hs)

theorem SameButCase.eq_colon {t : String} (h : SameButCase ":" t) : t = ":" := by
  apply h.eq_of_isAlpha
  simp

theorem SameButCase.ne_colon {s t : String} (h : SameButCase s t) (hs : s ≠ ":") : t ≠ ":" := by
  rintro rfl
  exact hs (SameButCase.eq_colon h.symm)

end Text

open Text

namespace Token

theorem isSeparator_toUpper (c : Char) : isSeparator c.toUpper = isSeparator c :=
  apply_toUpper (by decide) c

theorem isWordChar_toUpper (c : Char) : isWordChar c.toUpper = isWordChar c :=
  apply_toUpper (by decide) c

/-- The same token and the same rest, in capitals. -/
def Next.capitals : Next → Next
  | .finished => .finished
  | .unclosed => .unclosed
  | .word text rest => .word (text.map Char.toUpper) (rest.map Char.toUpper)

section
variable {p : Char → Bool} (hp : ∀ c, p c.toUpper = p c) (cs : List Char)
include hp

theorem takeWhile_map_toUpper :
    (cs.map Char.toUpper).takeWhile p = (cs.takeWhile p).map Char.toUpper := by
  rw [List.takeWhile_map]
  exact congrArg (fun q => (cs.takeWhile q).map Char.toUpper) (funext hp)

theorem dropWhile_map_toUpper :
    (cs.map Char.toUpper).dropWhile p = (cs.dropWhile p).map Char.toUpper := by
  rw [List.dropWhile_map]
  exact congrArg (fun q => (cs.dropWhile q).map Char.toUpper) (funext hp)

end

/-- Cutting off a token does not look at the case of letters. -/
theorem next_map_toUpper (cs : List Char) :
    next (cs.map Char.toUpper) = (next cs).capitals := by
  have hopen := toUpper_eq_iff (d := '(') rfl
  have hclose := toUpper_eq_iff (d := ')') rfl
  have hslash := toUpper_eq_iff (d := '\\') rfl
  have hnewline := toUpper_eq_iff (d := '\n') rfl
  have hcontains : ∀ cs : List Char, (cs.map Char.toUpper).contains ')' = cs.contains ')' := by
    intro cs
    rw [Bool.eq_iff_iff, List.contains_iff_mem, List.contains_iff_mem, List.mem_map]
    refine ⟨fun ⟨c, hc, hupper⟩ => ?_, fun h => ⟨')', h, rfl⟩⟩
    rwa [← (hclose c).mp hupper]
  fun_induction next cs with
  | case1 => simp [next, Next.capitals]
  | case2 c cs hc ih =>
      rw [List.map_cons, next, isSeparator_toUpper, if_pos hc]
      exact ih
  | case3 cs hclosed hc ih =>
      rw [List.map_cons, next, isSeparator_toUpper, if_neg hc, if_pos ((hopen _).mpr rfl),
        hcontains, if_pos hclosed, dropWhile_map_toUpper (by simp [hclose]), ← List.map_tail]
      exact ih
  | case4 cs hclosed hc =>
      rw [List.map_cons, next, isSeparator_toUpper, if_neg hc, if_pos ((hopen _).mpr rfl),
        hcontains, if_neg hclosed]
      rfl
  | case5 cs hc hp ih =>
      rw [List.map_cons, next, isSeparator_toUpper, if_neg hc, if_neg ((hopen _).not.mpr hp),
        if_pos ((hslash _).mpr rfl), dropWhile_map_toUpper (by simp [hnewline])]
      exact ih
  | case6 c cs hc hp hb =>
      rw [List.map_cons, next, isSeparator_toUpper, if_neg hc, if_neg ((hopen c).not.mpr hp),
        if_neg ((hslash c).not.mpr hb), takeWhile_map_toUpper isWordChar_toUpper,
        dropWhile_map_toUpper isWordChar_toUpper]
      rfl

/-- Texts that differ in the case of letters have as many tokens, and these differ likewise. -/
theorem read_sameButCase {cs ds : List Char} (h : cs.map Char.toUpper = ds.map Char.toUpper) :
    List.Forall₂ SameButCase (read cs).tokens (read ds).tokens ∧
      (read ds).unclosed = (read cs).unclosed := by
  -- Each token leaves a shorter text.
  induction hn : cs.length using Nat.strongRecOn generalizing cs ds with
  | ind n ih =>
    have hnext : (next ds).capitals = (next cs).capitals := by
      rw [← next_map_toUpper, ← h, next_map_toUpper]
    rw [read_eq cs, read_eq ds]
    cases hcs : next cs with
    | finished =>
        rw [hcs] at hnext
        cases hds : next ds <;> rw [hds] at hnext <;> cases hnext
        exact ⟨.nil, rfl⟩
    | unclosed =>
        rw [hcs] at hnext
        cases hds : next ds <;> rw [hds] at hnext <;> cases hnext
        exact ⟨.nil, rfl⟩
    | word text rest =>
        rw [hcs] at hnext
        cases hds : next ds with
        | finished | unclosed =>
            rw [hds] at hnext
            cases hnext
        | word text' rest' =>
            rw [hds] at hnext
            obtain ⟨htext, hrest⟩ := Next.word.inj hnext
            obtain ⟨htokens, hunclosed⟩ := ih rest.length (hn ▸ next_rest_lt hcs) hrest.symm rfl
            refine ⟨.cons ?_ htokens, hunclosed⟩
            simpa [SameButCase] using htext.symm

/-- Such texts are both refused, or both yield such tokens. -/
theorem ofText_sameButCase {s t : String} (h : SameButCase s t) :
    (ofText s = .error .openComment ∧ ofText t = .error .openComment) ∨
      ∃ us vs, ofText s = .ok us ∧ ofText t = .ok vs ∧ List.Forall₂ SameButCase us vs := by
  obtain ⟨htokens, hunclosed⟩ := read_sameButCase h
  simp only [ofText, hunclosed]
  cases (read s.toList).unclosed with
  | true => exact .inl ⟨rfl, rfl⟩
  | false => exact .inr ⟨_, _, rfl, rfl, htokens⟩

end Token

/-- The faults are of one kind, and their messages differ in the case of letters only. -/
structure Fault.SameButCase (f g : Fault) : Prop where
  kind : g.kind = f.kind
  message : Text.SameButCase f.message g.message

theorem Fault.SameButCase.refl (f : Fault) : f.SameButCase f := ⟨rfl, .refl _⟩

theorem Fault.SameButCase.recovers {f g : Fault} (h : f.SameButCase g) :
    g.recovers = f.recovers := by
  rw [Fault.recovers, Fault.recovers, h.kind]

/-- The outcomes differ in nothing but what was recorded and how names are written in a message. -/
inductive Outcome.Respelt {α : Type} : Outcome α → Outcome α → Prop
  | ok {a : α} {e e' : Engine} (h : e.SameButJournal e') : Respelt (.ok a e) (.ok a e')
  | fault {f g : Fault} {e e' : Engine} (hf : f.SameButCase g) (h : e.SameButJournal e') :
      Respelt (.error (.fault f) e) (.error (.fault g) e')
  | outOfFuel {e e' : Engine} (h : e.SameButJournal e') :
      Respelt (.error .outOfFuel e) (.error .outOfFuel e')

namespace Engine.SameButJournal

theorem mute : Mute SameButJournal :=
  .of_sinks (S := fun c _ c' _ => c' = c) (by simp [SameButJournal]) (fun h chunk => by rw [h])
    fun h _ => h

/-- Different records leave the states as alike as they were. -/
theorem note_note {e e' : Engine} (h : e.SameButJournal e') (r r' : Record) :
    (e.note r).SameButJournal (e'.note r') := by
  obtain ⟨journal, rfl⟩ := h
  exact ⟨journal.push r', rfl⟩

end Engine.SameButJournal

namespace Outcome

variable {α : Type} {r r' : Outcome α}

theorem Twin.respelt (h : Twin Engine.SameButJournal Eq r r') : Respelt r r' := by
  cases h with
  | ok h hq =>
      subst hq
      exact .ok h
  | @error s e e' h =>
      cases s with
      | fault f => exact .fault (.refl f) h
      | outOfFuel => exact .outOfFuel h

theorem Respelt.engine (h : Respelt r r') : (engine r).SameButJournal (engine r') := by
  cases h with
  | ok h | fault _ h | outOfFuel h => exact h

/-- Giving up a line that failed records it as it was written. -/
theorem Respelt.recover {r r' : Outcome Unit} (h : Respelt r r') (line line' : String) :
    Respelt (recover line r) (recover line' r') := by
  cases h with
  | ok h => exact .ok h
  | outOfFuel h => exact .outOfFuel h
  | fault hf h =>
      simp only [Run.recover, hf.recovers]
      split
      · exact .fault hf (Engine.SameButJournal.mute.reset (h.note_note _ _))
      · exact .fault hf h

end Outcome

namespace Run

variable {α β : Type}

/-- From states that differ in their journals, both actions have such outcomes. -/
def Respells (m m' : Run α) : Prop :=
  ∀ e e', e.SameButJournal e' → Respelt (m.run e) (m'.run e')

theorem Twins.respells {m m' : Run α} (h : Twins Engine.SameButJournal m m' Eq) : Respells m m' :=
  fun e e' he => (h e e' he).respelt

theorem Respells.bind {m m' : Run α} {f f' : α → Run β} (h : Respells m m')
    (hf : ∀ a, Respells (f a) (f' a)) : Respells (m >>= f) (m' >>= f') := by
  intro e e' he
  have hm := h e e' he
  rw [EStateM.run_bind, EStateM.run_bind]
  revert hm
  generalize m.run e = r
  generalize m'.run e' = r'
  intro hm
  cases hm with
  | ok he => exact hf _ _ _ he
  | fault hf he => exact .fault hf he
  | outOfFuel he => exact .outOfFuel he

/-- What comes next may depend on the states. -/
theorem Respells.get {f f' : Engine → Run α}
    (h : ∀ e e', e.SameButJournal e' → Respells (f e) (f' e')) :
    Respells (get >>= f) (get >>= f') :=
  fun e e' he => h e e' he e e' he

theorem Respells.fail {f g : Fault} (h : f.SameButCase g) :
    Respells (fail f : Run α) (Run.fail g) :=
  fun _ _ he => .fault h he

theorem respells_setDraft (d : Draft) :
    Respells (Primitive.setDraft d) (Primitive.setDraft d) :=
  (Engine.SameButJournal.mute.shares.setDraft d).twins.respells

section
variable {lim : Limits} {fuel : Nat} {s t : String} (h : SameButCase s t)
include h

/-- A token is the same number in either case, or the same absence of a number. -/
theorem cellOf_sameButCase : cellOf t = cellOf s ∨
    (cellOf s = .error (.undefined s) ∧ cellOf t = .error (.undefined t)) := by
  unfold cellOf
  cases hs : Numeral.parse s with
  | ok n =>
      rw [Numeral.parse_of_map_toUpper hs h.symm]
      simp only
      split
      · exact .inr ⟨rfl, rfl⟩
      · exact .inl rfl
  | error x =>
      cases ht : Numeral.parse t with
      | ok n =>
          rw [Numeral.parse_of_map_toUpper ht h] at hs
          cases hs
      | error y => exact .inr ⟨rfl, rfl⟩

theorem respells_cellOf : Respells (lift (cellOf s)) (lift (cellOf t)) := by
  intro e e' he
  rcases cellOf_sameButCase h with heq | ⟨hs, ht⟩
  · rw [heq]
    cases cellOf s with
    | ok n => exact .ok he
    | error f => exact .fault (.refl f) he
  · rw [hs, ht]
    exact .fault ⟨rfl, .append (.refl "Undefined: ") h⟩ he

theorem find?_sameButCase (d : Dictionary) : d.find? t = d.find? s := by
  rw [Dictionary.find?, Dictionary.find?, h.upper_eq]

theorem respells_interpretToken :
    Respells (interpretToken lim fuel s) (interpretToken lim fuel t) := by
  refine .get fun e e' he => ?_
  simp only [Engine.SameButJournal.mute.dict he, find?_sameButCase h]
  cases e.dict.find? s with
  | some position => exact Engine.SameButJournal.mute.word.respells
  | none =>
      refine (respells_cellOf h).bind fun n => ?_
      exact (Twins.push Engine.SameButJournal.mute.toBlind n).respells

theorem respells_compileToken (d : Draft) :
    Respells (compileToken lim fuel d s) (compileToken lim fuel d t) := by
  refine .get fun e e' he => ?_
  simp only [Engine.SameButJournal.mute.dict he, find?_sameButCase h, h.upper_eq]
  cases e.dict.find? s with
  | some position =>
      simp only
      split
      · exact Engine.SameButJournal.mute.word.respells
      · exact respells_setDraft _
  | none =>
      simp only
      split
      · exact respells_setDraft _
      · exact (respells_cellOf h).bind fun _ => respells_setDraft _

/-- A token means the same in either case. -/
theorem respells_token : Respells (token lim fuel s) (token lim fuel t) := by
  refine .get fun e e' he => ?_
  simp only [Engine.SameButJournal.mute.draft he]
  cases e.draft with
  | some d => exact respells_compileToken h d
  | none => exact respells_interpretToken h

/-- A name is refused in either case or in none, and kept in upper case. -/
theorem respells_startDraft : Respells (startDraft (some s)) (startDraft (some t)) := by
  refine .get fun e e' he => ?_
  simp only [Engine.SameButJournal.mute.draft he]
  cases e.draft with
  | some d => exact .fail (.refl _)
  | none =>
      simp only
      cases hs : Numeral.parse s with
      | ok n =>
          rw [Numeral.parse_of_map_toUpper hs h.symm]
          exact .fail ⟨rfl, .append (.refl ": cannot define a number: ") h⟩
      | error x =>
          cases ht : Numeral.parse t with
          | ok n =>
              rw [Numeral.parse_of_map_toUpper ht h] at hs
              cases hs
          | error y =>
              simp only [Draft.start, h.upper_eq]
              exact respells_setDraft _

end

section
variable {lim : Limits} {fuel : Nat}

theorem respells_tokens {us vs : List String} (h : List.Forall₂ SameButCase us vs) :
    Respells (tokens lim fuel us) (tokens lim fuel vs) := by
  fun_induction tokens lim fuel us generalizing vs with
  | case1 =>
      cases h
      exact (Twins.pure ()).respells
  | case2 =>
      obtain ⟨v, vs, hv, hrest, rfl⟩ := List.forall₂_cons_left_iff.mp h
      cases hrest
      rw [hv.eq_colon, tokens]
      exact (Engine.SameButJournal.mute.shares.startDraft none).twins.respells
  | case3 name rest ih =>
      obtain ⟨v, _, hv, hbehind, rfl⟩ := List.forall₂_cons_left_iff.mp h
      obtain ⟨name', vs, hname, hrest, rfl⟩ := List.forall₂_cons_left_iff.mp hbehind
      rw [hv.eq_colon, tokens]
      exact (respells_startDraft hname).bind fun _ => ih hrest
  | case4 text rest hlast hname ih =>
      obtain ⟨v, vs, hv, hrest, rfl⟩ := List.forall₂_cons_left_iff.mp h
      rw [tokens_cons (hv.ne_colon (ne_colon hlast hname))]
      exact (respells_token hv).bind fun _ => ih hrest

theorem respells_feed {s t : String} (h : SameButCase s t) :
    Respells (feed lim fuel s) (feed lim fuel t) := by
  have hline : Respells (do tokens lim fuel (← lift (Token.ofText s)))
      (do tokens lim fuel (← lift (Token.ofText t))) := by
    rcases Token.ofText_sameButCase h with ⟨hs, ht⟩ | ⟨us, vs, hs, ht, hts⟩
    · rw [hs, ht]
      exact .fail (.refl _)
    · rw [hs, ht]
      exact respells_tokens hts
  intro e e' he
  rw [run_feed, run_feed]
  exact (hline e e' he).recover s t

end

end Run

namespace Engine

/-- How each of the texts ends that are taken in one after the other. -/
def feeds (lim : Limits) (fuel : Nat) : List String → Engine → List (Outcome Unit)
  | [], _ => []
  | text :: texts, e =>
    let r := (feed lim fuel text).run e
    r :: feeds lim fuel texts (engine r)

variable {e e' : Engine} {lim : Limits}

/-- From some budget on, all texts are done with. -/
theorem exists_feeds (h : Reachable e) (lim : Limits) (texts : List String) :
    ∃ rs n, (∀ r ∈ rs, Ended r) ∧ ∀ fuel, n ≤ fuel → e.feeds lim fuel texts = rs := by
  induction texts generalizing e with
  | nil => exact ⟨[], 0, nofun, fun _ _ => rfl⟩
  | cons text texts ih =>
      obtain ⟨r, hended, n, hn⟩ := feed_terminates h lim text
      have hnext : Reachable (engine r) := by
        have hr := hn n (Nat.le_refl n)
        exact hr ▸ .feed lim n text h (hr ▸ hended)
      obtain ⟨rs, k, hall, hk⟩ := ih hnext
      refine ⟨r :: rs, max n k, List.forall_mem_cons.mpr ⟨hended, hall⟩, fun fuel hle => ?_⟩
      simp only [feeds, hn fuel (by omega), hk fuel (by omega)]

theorem respelt_feeds {fuel : Nat} {texts texts' : List String}
    (h : List.Forall₂ SameButCase texts texts') (he : e.SameButJournal e') :
    List.Forall₂ Respelt (e.feeds lim fuel texts) (e'.feeds lim fuel texts') := by
  induction h generalizing e e' with
  | nil => exact .nil
  | @cons text text' _ _ ht _ ih =>
      have hr : Respelt ((feed lim fuel text).run e) ((feed lim fuel text').run e') :=
        respells_feed ht e e' he
      exact .cons hr (ih hr.engine)

end Engine

/-- Sessions go on alike from a state, call by call, if their texts differ in nothing but the case
of ASCII letters: all calls come to an end, with the same stacks, words, definition in progress and
output, and they succeed alike or fail for the same kind of reason, with messages that differ in
the case of letters only. -/
theorem case_of_letters_ignored {e : Engine} (h : Reachable e) (lim : Limits)
    {texts texts' : List String} (hs : List.Forall₂ Text.SameButCase texts texts') :
    ∃ (rs rs' : List (Outcome Unit)) (n : Nat),
      (∀ fuel, n ≤ fuel →
        e.feeds lim fuel texts = rs ∧ e.feeds lim fuel texts' = rs') ∧
      (∀ r ∈ rs, Ended r) ∧ (∀ r ∈ rs', Ended r) ∧ List.Forall₂ Respelt rs rs' := by
  obtain ⟨rs, n, hall, hn⟩ := Engine.exists_feeds h lim texts
  obtain ⟨rs', k, hall', hk⟩ := Engine.exists_feeds h lim texts'
  refine ⟨rs, rs', max n k, fun fuel hle => ⟨hn fuel (by omega), hk fuel (by omega)⟩, hall,
    hall', ?_⟩
  rw [← hn (max n k) (by omega), ← hk (max n k) (by omega)]
  exact Engine.respelt_feeds hs ⟨_, rfl⟩

/-- A definition with a comment, its use with a hexadecimal number, a number in place of a name
and an unknown name. -/
def spelled : List String := [": Sq dup * ; ( a Word )", "0xaF sq .", ": 0xFf 1 ;", "foo"]

def respelled : List String := [": sQ DUP * ; ( A word )", "0XAf Sq .", ": 0XfF 1 ;", "Foo"]

theorem case_of_letters_ignored_respelled :
    (Engine.fresh.feeds {} 100 spelled).map answer =
        [.ok (), .ok (), .error (.fault (.colonNumber "0xFf")), .error (.fault (.undefined "foo"))] ∧
      (Engine.fresh.feeds {} 100 respelled).map answer =
        [.ok (), .ok (), .error (.fault (.colonNumber "0XfF")), .error (.fault (.undefined "Foo"))] ∧
      List.Forall₂ Text.SameButCase spelled respelled ∧
      ∃ (rs rs' : List (Outcome Unit)) (n : Nat),
        (∀ fuel, n ≤ fuel → Engine.fresh.feeds {} fuel spelled = rs ∧
          Engine.fresh.feeds {} fuel respelled = rs') ∧
        (∀ r ∈ rs, Ended r) ∧ (∀ r ∈ rs', Ended r) ∧ List.Forall₂ Respelt rs rs' := by
  have hs : List.Forall₂ Text.SameButCase spelled respelled :=
    .cons (by decide +kernel) (.cons (by decide +kernel) (.cons (by decide +kernel)
      (.cons (by decide +kernel) .nil)))
  exact ⟨by decide +kernel, by decide +kernel, hs, case_of_letters_ignored .fresh {} hs⟩

end Forthlet
