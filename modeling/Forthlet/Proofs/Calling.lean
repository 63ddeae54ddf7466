import Forthlet.Proofs.Spelling

/-!
# Calling a definition by its name

A colon takes any token as a name that no number is written as. What it defines is found under all
spellings of the name with the same upper case: a token with one of them runs the word, or compiles
a call to it within a definition, until a newer entry has the name. The colon itself is a name as
well, but a colon is never looked up, so that a word with this name can only be run by another.
-/
namespace Forthlet

open Outcome Run

namespace Text

theorem upperChar_ne_nil (c : Char) : upperChar c ≠ [] := by
  rcases upperChar_cases c with ⟨-, hupper⟩ | ⟨images, hmem, hupper⟩ | ⟨n, -, hupper⟩ | ⟨-, hupper⟩
  · exact hupper ▸ List.cons_ne_nil _ _
  · have hall : ∀ r ∈ upperExpansions, r.2 ≠ [] := by decide
    rw [hupper]
    exact fun hnil => hall _ hmem (List.map_eq_nil_iff.mp hnil)
  · exact hupper ▸ List.cons_ne_nil _ _
  · exact hupper ▸ List.cons_ne_nil _ _

/-- Signs before the letters of ASCII are the upper case of nothing else. -/
theorem eq_of_mem_upperChar {c t : Char} (ht : t.toNat < 0x41) (h : t ∈ upperChar c) : c = t := by
  have hne : ∀ n, 0x41 ≤ n → n.isValidChar → t ≠ Char.ofNat n := by
    rintro n hn hvalid rfl
    rw [toNat_ofNat hvalid] at ht
    omega
  rcases upperChar_cases c with ⟨-, hupper⟩ | ⟨images, hmem, hupper⟩ | ⟨n, hn, hupper⟩ | ⟨-, hupper⟩
  · have halpha : t.isAlpha = false := by
      have hcapital : ¬ 65 ≤ t.val := fun hle => by
        have hnat : 65 ≤ t.toNat := hle
        omega
      have hsmall : ¬ 97 ≤ t.val := fun hle => by
        have hnat : 97 ≤ t.toNat := hle
        omega
      have hlarge : t.isUpper = false := decide_eq_false fun h => hcapital h.1
      have hlower : t.isLower = false := Bool.and_eq_false_iff.mpr (.inl (decide_eq_false hsmall))
      exact Bool.or_eq_false_iff.mpr ⟨hlarge, hlower⟩
    rw [hupper] at h
    exact (toUpper_eq_iff halpha c).mp (List.mem_singleton.mp h).symm
  · have hall : ∀ r ∈ upperExpansions, ∀ n ∈ r.2, 0x41 ≤ n ∧ n < 0xD800 := by decide
    rw [hupper] at h
    obtain ⟨n, hn, rfl⟩ := List.mem_map.mp h
    obtain ⟨hmin, hmax⟩ := hall _ hmem n hn
    exact absurd rfl (hne n hmin (.inl hmax))
  · obtain ⟨⟨first, last, stride, image⟩, hr, him⟩ := List.exists_of_findSome?_eq_some hn
    simp only at him
    split at him
    · next hrange =>
        cases him
        have hmarks := runs_marks hr
        rw [hupper] at h
        refine absurd (List.mem_singleton.mp h) (hne _ (by omega) ?_)
        rcases hmarks with ⟨-, hmax⟩ | ⟨hmin, hmax⟩ | ⟨heq, -, hmax⟩
        · exact .inl (by omega)
        · exact .inr ⟨by omega, by omega⟩
        · exact .inl (by omega)
    · cases him
  · rw [hupper] at h
    exact (List.mem_singleton.mp h).symm

theorem eq_of_flatMap_upperChar {cs ts : List Char} (h : cs.flatMap upperChar = ts)
    (ht : ∀ t ∈ ts, t.toNat < 0x41) : cs = ts := by
  induction cs generalizing ts with
  | nil => exact h
  | cons c cs ih =>
      rw [List.flatMap_cons] at h
      subst h
      have hall : ∀ t ∈ upperChar c, c = t := fun t hmem =>
        eq_of_mem_upperChar (ht t (List.mem_append_left _ hmem)) hmem
      have hlow : c.toNat < 0x80 := by
        obtain ⟨t, hmem⟩ := List.exists_mem_of_ne_nil _ (upperChar_ne_nil c)
        have hless := ht t (List.mem_append_left _ hmem)
        rw [← hall t hmem] at hless
        omega
      have hupper : upperChar c = [c.toUpper] := if_pos hlow
      have hsame : c = c.toUpper := hall _ (by simp [hupper])
      rw [hupper, ← hsame, ← ih rfl fun t hmem => ht t (List.mem_append_right _ hmem)]
      rfl

/-- No other text has the upper case of a colon. -/
theorem eq_colon_of_upper {s : String} (h : upper s = ":") : s = ":" := by
  apply String.toList_inj.mp
  apply eq_of_flatMap_upperChar
  · rw [← toList_upper, h]
  · simp

end Text

namespace Dictionary

theorem size_unmarked (d : Dictionary) : d.unmarked.size = d.size := Array.size_map

end Dictionary

theorem Draft.body_of_finish {d : Draft} {w : Word} (h : d.finish = .ok w) :
    w.body = .compiled d.code := by
  unfold finish at h
  split at h <;> cases h
  rfl

namespace Engine

/-- What a token that is read may do to the program. -/
inductive Advances (e e' : Engine) : Prop
  /-- It finishes the definition in progress. -/
  | finished {d : Draft} {w : Word} (hd : e.draft = some d) (hw : d.finish = .ok w)
      (dict : e'.dict = e.dict.add w) (draft : e'.draft = none)
  /-- It leaves all entries as they are, up to marks, and the definition under its name. -/
  | kept (dict : e'.dict.unmarked = e.dict.unmarked)
      (draft : e'.draft.map Draft.name = e.draft.map Draft.name)

end Engine

namespace Run

variable {lim : Limits} {fuel : Nat} {e e' : Engine}

theorem advances_of_neat {r : Outcome Unit} (h : Neat e r) (hr : r = .ok () e') :
    e.Advances e' := by
  subst hr
  obtain ⟨⟨hdict, hdraft⟩, -⟩ := h
  exact .kept hdict (by rw [hdraft])

theorem advances_compile {d : Draft} {p : Piece} (hd : e.draft = some d)
    (hr : (compile d p).run e = .ok () e') : e.Advances e' := by
  cases ht : d.take p with
  | error f =>
      rw [run_compile_error ht] at hr
      cases hr
  | ok d' =>
      rw [run_compile_ok ht] at hr
      cases hr
      refine .kept rfl ?_
      rw [hd, Option.map_some, Option.map_some, Draft.name_of_take ht]

theorem advances_finishDraft (hr : Primitive.finishDraft.run e = .ok () e') : e.Advances e' := by
  cases hd : e.draft with
  | none =>
      rw [Primitive.run_finishDraft_none hd] at hr
      cases hr
  | some d =>
      cases hw : d.finish with
      | error f =>
          rw [Primitive.run_finishDraft_error hd hw] at hr
          cases hr
      | ok w =>
          rw [Primitive.run_finishDraft_ok hd hw] at hr
          cases hr
          exact .finished hd hw rfl rfl

theorem advances_literal {d : Draft} (hd : e.draft = some d)
    (hr : (Primitive.exec .literal).run e = .ok () e') : e.Advances e' := by
  rw [Primitive.run_exec_literal hd, EStateM.run_bind] at hr
  cases hs : e.stack with
  | nil =>
      rw [run_pop_nil hs] at hr
      cases hr
  | cons n s =>
      rw [run_pop_cons hs] at hr
      cases hr
      exact .kept rfl (by rw [hd]; rfl)

theorem advances_exec {b : Builtin} (hr : (Primitive.exec b).run e = .ok () e') :
    e.Advances e' := by
  cases acts e b with
  | finish => exact advances_finishDraft hr
  | literal hd => exact advances_literal hd hr
  | piece hd hp =>
      rw [run_exec_piece hp hd] at hr
      exact advances_compile hd hr
  | index hd =>
      rw [Primitive.run_exec_index_none hd] at hr
      exact advances_of_neat (Tame.loopIndex.neat e) hr
  | refused hrefused =>
      rw [hrefused] at hr
      cases hr
  | plain hb => exact advances_of_neat ((Tame.exec hb).neat e) hr

theorem advances_word {position : Nat} {w : Word} (he : e.Sound)
    (hw : e.dict.get? position = some w)
    (hr : (word lim fuel 0 position).run e = .ok () e') : e.Advances e' := by
  cases hb : w.body with
  | builtin b =>
      rw [run_word_builtin hw hb] at hr
      exact advances_exec hr
  | compiled c =>
      have hcallable := Dictionary.callable_of_compiled hw hb
      exact advances_of_neat (neat_word he.dict hcallable rfl (by rw [hr]; trivial)) hr

theorem advances_token {text : String} (he : e.Sound)
    (hr : (token lim fuel text).run e = .ok () e') : e.Advances e' := by
  cases token_acts lim fuel e text with
  | runs hw hacts => exact advances_word he hw (hacts ▸ hr)
  | adds hd _ hacts => exact advances_compile hd (hacts ▸ hr)
  | pushes hacts =>
      rw [hacts] at hr
      cases hr
      exact .kept rfl rfl
  | refused _ hacts =>
      rw [hacts] at hr
      cases hr

theorem edits_tokens {us : List String} (hr : (tokens lim fuel us).run e = .ok () e') :
    e.program.Edits e'.program :=
  ((KeepsEdits.tokens us).ok .refl hr).1

/-- Only a colon opens a definition. -/
theorem draft_of_tokens {us : List String} (he : e.Sound) (hd : e.draft = none) (hcolon : ":" ∉ us)
    (hr : (tokens lim fuel us).run e = .ok () e') : e'.draft = none := by
  induction us generalizing e with
  | nil =>
      cases hr
      exact hd
  | cons text rest ih =>
      obtain ⟨hne, hrest⟩ := List.ne_and_not_mem_of_not_mem_cons hcolon
      rw [run_tokens_cons hne.symm] at hr
      cases htoken : (token lim fuel text).run e with
      | error s e₁ =>
          rw [htoken] at hr
          cases hr
      | ok a e₁ =>
          rw [htoken] at hr
          refine ih (sound_of_token he htoken) ?_ hrest hr
          cases advances_token he htoken with
          | finished _ _ _ hnone => exact hnone
          | kept _ hname =>
              rw [hd] at hname
              exact Option.map_eq_none_iff.mp hname

/-- The first entry that comes to be while a definition is open is this definition, and it is the
last one to be open unless another colon follows. -/
theorem entry_of_draft {us : List String} {d : Draft} (he : e.Sound) (hd : e.draft = some d)
    (hr : (tokens lim fuel us).run e = .ok () e') (hmore : e.dict.size < e'.dict.size) :
    (∃ w c, e'.dict.get? e.dict.size = some w ∧ w.name = d.name ∧ w.body = .compiled c) ∧
      (":" ∉ us → e'.draft = none) := by
  induction us generalizing e d with
  | nil =>
      cases hr
      exact absurd hmore (Nat.lt_irrefl _)
  | cons text rest ih =>
      by_cases hcolon : text = ":"
      · subst hcolon
        rw [run_tokens_nested hd] at hr
        cases hr
      rw [run_tokens_cons hcolon] at hr
      cases htoken : (token lim fuel text).run e with
      | error s e₁ =>
          rw [htoken] at hr
          cases hr
      | ok a e₁ =>
          rw [htoken] at hr
          have he₁ := sound_of_token he htoken
          cases advances_token he htoken with
          | @finished d' w hd' hw hdict hnone =>
              rw [hd] at hd'
              cases hd'
              have hget : e₁.dict.get? e.dict.size = some w := by
                rw [hdict, Dictionary.get?_add, if_pos rfl]
              obtain ⟨w', hw', hu⟩ := (edits_tokens hr).entry hget
              refine ⟨⟨w', d.code, hw', ?_, ?_⟩, fun h => ?_⟩
              · rw [Word.name_of_unmarked hu, Draft.name_of_finish hw]
              · rw [Word.body_of_unmarked hu, Draft.body_of_finish hw]
              · exact draft_of_tokens he₁ hnone (List.not_mem_of_not_mem_cons h) hr
          | kept hdict hname =>
              rw [hd, Option.map_some] at hname
              obtain ⟨d₁, hd₁, hname₁⟩ := Option.map_eq_some_iff.mp hname
              have hsize : e₁.dict.size = e.dict.size := by
                rw [← Dictionary.size_unmarked, hdict, Dictionary.size_unmarked]
              obtain ⟨⟨w, c, hw, hn, hc⟩, hnone⟩ := ih he₁ hd₁ hr (hsize ▸ hmore)
              exact ⟨⟨w, c, hsize ▸ hw, hn.trans hname₁, hc⟩,
                fun h => hnone (List.not_mem_of_not_mem_cons h)⟩

end Run

/-- The token stands for the entry at this position: it runs the word, or compiles a call to it
while a definition is open and the word is not one that is run at once. -/
structure Engine.Invokes (e : Engine) (text : String) (position : Nat) : Prop where
  runs : e.draft = none → ∀ lim fuel rest, (tokens lim fuel (text :: rest)).run e =
    (do word lim fuel 0 position; tokens lim fuel rest : Run Unit).run e
  calls : ∀ {d w}, e.draft = some d → e.dict.get? position = some w → w.immediate = false →
    ∀ lim fuel rest, (tokens lim fuel (text :: rest)).run e =
      (tokens lim fuel rest).run { e with draft := some (d.append (.call (.entry position))) }
  runsAtOnce : ∀ {d w}, e.draft = some d → e.dict.get? position = some w → w.immediate = true →
    ∀ lim fuel rest, (tokens lim fuel (text :: rest)).run e =
      (do word lim fuel 0 position; tokens lim fuel rest : Run Unit).run e

theorem Engine.invokes_of_find? {e : Engine} {text : String} {position : Nat} (hne : text ≠ ":")
    (hf : e.dict.find? text = some position) : e.Invokes text position where
  runs hd lim fuel rest := by
    rw [tokens_cons hne, EStateM.run_bind, EStateM.run_bind, run_token_word hd hf]
  calls hd hw hi lim fuel rest := by
    rw [tokens_cons hne, EStateM.run_bind, run_token_call hd hf hw hi]
    rfl
  runsAtOnce hd hw hi lim fuel rest := by
    rw [tokens_cons hne, EStateM.run_bind, EStateM.run_bind, run_token_immediate hd hf hw hi]

/-- What a text defines first is the word of the name that it begins with. -/
theorem entry_of_accepted {e e' : Engine} {lim : Limits} {fuel : Nat} {line name : String}
    {rest : List String} (he : e.Sound) (hts : Token.ofText line = .ok (":" :: name :: rest))
    (hr : (feed lim fuel line).run e = .ok () e') (hmore : e.dict.size < e'.dict.size) :
    (∃ w c, e'.dict.get? e.dict.size = some w ∧ w.name = Text.upper name ∧
      w.body = .compiled c) ∧ (":" ∉ rest → e'.draft = none) := by
  obtain ⟨ts, hts', hrun⟩ := tokens_of_feed hr
  rw [hts] at hts'
  cases hts'
  rw [run_tokens_colon_cons] at hrun
  cases hstart : (startDraft (some name)).run e with
  | error s e₁ =>
      rw [hstart] at hrun
      cases hrun
  | ok a e₁ =>
      rw [hstart] at hrun
      cases startDraft_ok hstart
      exact entry_of_draft (he.withDraft (.start _ _)) rfl hrun hmore

/-- A text that opens a definition and adds one entry adds the word of this name, and the name
stands for it: a token with the same upper case runs the word, or compiles a call to it in a later
definition, as long as no newer entry has the name. The only exception is the name `:`. -/
theorem accepted_name_invokes {e e' : Engine} {lim : Limits} {fuel : Nat} {line name : String}
    {rest : List String} (h : Reachable e) (hname : name ≠ ":")
    (hts : Token.ofText line = .ok (":" :: name :: rest))
    (hr : (feed lim fuel line).run e = .ok () e') (hone : e'.dict.size = e.dict.size + 1) :
    ∃ w c, e'.dict.get? e.dict.size = some w ∧ w.name = Text.upper name ∧
      w.body = .compiled c ∧ (":" ∉ rest → e'.draft = none) ∧
      (∀ {text : String}, Text.upper text = Text.upper name →
        e'.Invokes text e.dict.size ∧
        ∀ {line' : String} (lim' : Limits) (fuel' : Nat), e'.draft = none →
          Token.ofText line' = .ok [text] → (feed lim' fuel' line').run e' =
            recover line' ((word lim' fuel' 0 e.dict.size).run e')) ∧
      ∀ {e₁ e₂ : Engine} {us : List String} (lim' : Limits) (fuel' : Nat) (console : Console),
        Relation.ReflTransGen Engine.Takes e' e₁ →
        (tokens lim' fuel' us).run { e₁ with console } = .ok () e₂ →
        (∀ {p v}, e.dict.size < p → e₂.dict.get? p = some v → v.name ≠ Text.upper name) →
          (∃ w', e₂.dict.get? e.dict.size = some w' ∧ w'.name = w.name ∧ w'.body = w.body) ∧
          ∀ {text : String}, Text.upper text = Text.upper name → e₂.Invokes text e.dict.size := by
  obtain ⟨⟨w, c, hw, hwname, hbody⟩, hclosed⟩ :=
    entry_of_accepted h.ready.sound hts hr (by omega)
  have hne : ∀ {text : String}, Text.upper text = Text.upper name → text ≠ ":" := by
    rintro text htext rfl
    exact hname (Text.eq_colon_of_upper htext.symm)
  refine ⟨w, c, hw, hwname, hbody, hclosed, fun {text} htext => ?_,
    fun {e₁ e₂ us} lim' fuel' console htakes hus hnew => ?_⟩
  · have hfind : e'.dict.find? text = some e.dict.size := by
      refine Dictionary.find?_of_newest hw (hwname.trans htext.symm) fun {p v} hp hv => ?_
      have hlt := Dictionary.get?_lt hv
      omega
    have hinvokes := Engine.invokes_of_find? (hne htext) hfind
    refine ⟨hinvokes, fun {line'} lim' fuel' hd' hline' => ?_⟩
    rw [run_feed_of_ofText hline', run_tokens_singleton (hne htext), run_token_word hd' hfind]
  · have hearlier : e'.program.Edits e₁.program :=
      htakes.lift' Engine.program fun _ _ ht => Engine.Takes.edits ht
    have hlater : Program.Edits (Engine.program { e₁ with console }) e₂.program :=
      edits_tokens hus
    have hedits : e'.program.Edits e₂.program := hearlier.trans hlater
    obtain ⟨w', hw', hu⟩ := hedits.entry hw
    have hsame := Word.name_of_unmarked hu
    refine ⟨⟨w', hw', hsame, Word.body_of_unmarked hu⟩, fun {text} htext => ?_⟩
    refine Engine.invokes_of_find? (hne htext) (Dictionary.find?_of_newest hw' ?_ ?_)
    · rw [hsame, hwname, htext]
    · rw [htext]
      exact hnew

/-- A session with a word whose name has an upper case of another length. -/
def street : Engine := engine ((feed {} 100 ": Straße 7 ;").run .fresh)

/-- The same session while a later definition is open. -/
def streetOpen : Engine :=
  engine ((tokens {} 100 [":", "U"]).run (engine ((feed {} 100 ": T 1 ;").run street)))

theorem accepted_name_invokes_street :
    Text.upper "strasse" = Text.upper "Straße" ∧
    (feed {} 100 "strasse").run street = recover "strasse" ((word {} 100 0 36).run street) ∧
    streetOpen.draft = some ⟨"U", #[], []⟩ ∧ streetOpen.Invokes "strasse" 36 := by
  have hts : Token.ofText ": Straße 7 ;" = .ok [":", "Straße", "7", ";"] := by decide +kernel
  have hr : (feed {} 100 ": Straße 7 ;").run .fresh = .ok () street := by decide +kernel
  have hline : Token.ofText "strasse" = .ok ["strasse"] := by decide +kernel
  have hupper : Text.upper "strasse" = Text.upper "Straße" := by decide +kernel
  obtain ⟨w, c, -, -, -, hclosed, hnow, hlater⟩ :=
    accepted_name_invokes .fresh (by decide) hts hr (by decide +kernel)
  have htakes : Relation.ReflTransGen Engine.Takes street
      (engine ((feed {} 100 ": T 1 ;").run street)) :=
    .single (.feed _ _ _ (by decide +kernel))
  have hopen : (tokens {} 100 [":", "U"]).run (engine ((feed {} 100 ": T 1 ;").run street)) =
      .ok () streetOpen := by decide +kernel
  have hnew : ∀ {p v}, 36 < p → streetOpen.dict.get? p = some v →
      v.name ≠ Text.upper "Straße" := by
    intro p v hp hv
    have hsize : streetOpen.dict.size = 38 := by decide +kernel
    have hlt := Dictionary.get?_lt hv
    obtain rfl : p = 37 := by omega
    have hget : streetOpen.dict.get? 37 = some ⟨"T", .compiled #[.lit 1], false⟩ := by
      decide +kernel
    rw [hget] at hv
    cases hv
    decide +kernel
  exact ⟨hupper, (hnow hupper).2 {} 100 (hclosed (by decide)) hline, by decide +kernel,
    (hlater {} 100 _ htakes hopen hnew).2 hupper⟩

/-- A session with a word whose name is a colon. -/
def colonNamed : Engine := engine ((feed {} 100 ": : 1 ;").run .fresh)

/-- The exception is one: the word is accepted, and the colon asks for a name. -/
theorem accepted_colon_not_invoked :
    ¬ ∀ (e e' : Engine) (lim : Limits) (fuel : Nat) (line name : String) (rest : List String),
      Reachable e → Token.ofText line = .ok (":" :: name :: rest) →
      (feed lim fuel line).run e = .ok () e' → e'.dict.size = e.dict.size + 1 →
      e'.draft = none → ∀ line' : String, Token.ofText line' = .ok [name] →
        (feed lim fuel line').run e' = recover line' ((word lim fuel 0 e.dict.size).run e') := by
  intro hall
  have hts : Token.ofText ": : 1 ;" = .ok [":", ":", "1", ";"] := by decide +kernel
  have hr : (feed {} 100 ": : 1 ;").run .fresh = .ok () colonNamed := by decide +kernel
  have hsame := hall .fresh colonNamed {} 100 ": : 1 ;" ":" ["1", ";"] .fresh hts hr
    (by decide +kernel) (by decide +kernel) ":" (by decide +kernel)
  have hword : (word {} 100 0 Engine.fresh.dict.size).run colonNamed =
      .ok () { colonNamed with stack := [1] } := by decide +kernel
  rw [hword] at hsame
  have hfeed : answer ((feed {} 100 ":").run colonNamed) =
      .error (.fault .colonNeedsName) := by decide +kernel
  rw [hsame] at hfeed
  cases hfeed

end Forthlet
