import Forthlet.Proofs.Calling
import Forthlet.Proofs.Printing

/-!
# The journal as a history

A reader of the journal has nothing but its lines. They are enough to know which words there are:
a line for each definition and for each mark, in the order in which they happened, from wherever
they were caused. Lines about what was abandoned change nothing. The calls can be told apart as
well, because a call that fails closes with the line of its failure, and no other call has one.
-/
namespace Forthlet

open Outcome Run

/-- What a reader of the journal knows of an entry; a built-in word has no size. -/
structure Listed where
  name : String
  size : Option Nat
  immediate : Bool
  deriving DecidableEq, Repr

def Word.listed (w : Word) : Listed where
  name := w.name
  size := match w.body with
    | .builtin _ => none
    | .compiled c => some c.size
  immediate := w.immediate

/-- All entries, shadowed ones included, the oldest first. -/
def Dictionary.listed (d : Dictionary) : List Listed := d.entries.toList.map Word.listed

namespace Listed

/-- The parts of a line between its blanks. -/
def fields (line : String) : List String := (line.toList.splitOn ' ').map String.ofList

/-- Mark the last entry, if it has this name. -/
def mark (entries : List Listed) (name : String) : Option (List Listed) :=
  match entries.getLast? with
  | some last =>
    if last.name = name then some (entries.dropLast ++ [{ last with immediate := true }]) else none
  | none => none

/-- What a line says about the entries. There is no answer if it marks a word that is not the
last. -/
def follow (entries : List Listed) (line : String) : Option (List Listed) :=
  match fields line with
  | ["defined", name, size, "instructions)"] =>
    some (entries ++ [⟨name, some (Nat.ofDigitChars 10 (size.toList.drop 1) 0), false⟩])
  | [name, "marked", "immediate"] => mark entries name
  | _ => some entries

def replay (entries : List Listed) (lines : List String) : Option (List Listed) :=
  lines.foldlM follow entries

theorem replay_concat (entries : List Listed) (lines : List String) (line : String) :
    replay entries (lines ++ [line]) = (replay entries lines).bind fun es => follow es line := by
  simp [replay, List.foldlM_append]

theorem mark_concat {w : Listed} (entries : List Listed) :
    mark (entries ++ [w]) w.name = some (entries ++ [{ w with immediate := true }]) := by
  simp [mark]

theorem fields_append {a : String} (ha : ' ' ∉ a.toList) (b : String) :
    fields (a ++ (" " ++ b)) = a :: fields b := by
  have hsplit := List.splitOn_append_cons_self_of_not_mem ha b.toList
  simp [fields, hsplit]

theorem fields_of_notMem {a : String} (ha : ' ' ∉ a.toList) : fields a = [a] := by
  simp [fields, List.splitOn_eq_singleton ha]

theorem follow_defined (entries : List Listed) {name : String} (hname : ' ' ∉ name.toList)
    (size : Nat) :
    follow entries (Record.defined name size).message =
      some (entries ++ [⟨name, some size, false⟩]) := by
  have htext : (toString size).toList = Nat.toDigits 10 size := by
    rw [Nat.toString_eq_ofList_toDigits, String.toList_ofList]
  have hdigits : ' ' ∉ ("(" ++ toString size).toList := by
    rw [String.toList_append, List.mem_append, htext]
    rintro (h | h)
    · exact absurd h (by decide)
    · cases Nat.isDigit_of_mem_toDigits (b := 10) (by decide) (by decide) h
  have hline : (Record.defined name size).message =
      "defined" ++ (" " ++ (name ++ (" " ++ ("(" ++ toString size ++
        (" " ++ "instructions)"))))) := by
    change "defined " ++ name ++ " (" ++ toString size ++ " instructions)" = _
    rw [← String.toList_inj]
    simp
  have hfields : fields (Record.defined name size).message =
      ["defined", name, "(" ++ toString size, "instructions)"] := by
    rw [hline, fields_append (by decide), fields_append hname, fields_append hdigits,
      fields_of_notMem (by decide)]
  have hsize : Nat.ofDigitChars 10 (("(" ++ toString size).toList.drop 1) 0 = size := by
    simp [Nat.ofDigitChars_ten_toDigits]
  rw [follow, hfields]
  simp only [hsize]

theorem follow_marked (entries : List Listed) {name : String} (hname : ' ' ∉ name.toList) :
    follow entries (Record.marked name).message = mark entries name := by
  have hline : (Record.marked name).message =
      name ++ (" " ++ ("marked" ++ (" " ++ "immediate"))) := by
    change name ++ " marked immediate" = _
    rw [← String.toList_inj]
    simp
  have hfields : fields (Record.marked name).message = [name, "marked", "immediate"] := by
    rw [hline, fields_append hname, fields_append (by decide), fields_of_notMem (by decide)]
  rw [follow, hfields]
  simp

theorem follow_aborted (entries : List Listed) (line : String) (f : Fault) :
    follow entries (Record.aborted line f).message = some entries := by
  have hline : (Record.aborted line f).message =
      "aborted" ++ (" " ++ ("line" ++ (" " ++
        (Text.quote line ++ ": " ++ Record.causeText f)))) := by
    change "aborted line " ++ Text.quote line ++ ": " ++ Record.causeText f = _
    rw [← String.toList_inj]
    simp
  rw [follow, hline, fields_append (by decide), fields_append (by decide)]
  simp

theorem follow_discarded (entries : List Listed) (name : String) :
    follow entries (Record.discarded name).message = some entries := by
  have hline : (Record.discarded name).message =
      "discarding" ++ (" " ++ ("partial" ++ (" " ++ ("definition of " ++ name)))) := by
    change "discarding partial definition of " ++ name = _
    rw [← String.toList_inj]
    simp
  rw [follow, hline, fields_append (by decide), fields_append (by decide)]
  simp

end Listed

namespace Dictionary

variable {d d' : Dictionary}

theorem listed_add (d : Dictionary) (w : Word) : (d.add w).listed = d.listed ++ [w.listed] := by
  simp [listed, add]

/-- A mark goes to the last entry of the list, under its name. -/
theorem mark_listed {name : String} (h : d.markLatest = .ok (name, d')) :
    Listed.mark d.listed name = some d'.listed := by
  obtain ⟨w, hw, -, rfl, hd'⟩ := markLatest_ok h
  have hbefore : d.listed = d.entries.pop.toList.map Word.listed ++ [w.listed] := by
    rw [listed, entries_of_back? hw]
    simp
  have hafter : d'.listed =
      d.entries.pop.toList.map Word.listed ++ [{ w.listed with immediate := true }] := by
    rw [listed, hd']
    simp [Word.listed]
  rw [hbefore, hafter]
  exact Listed.mark_concat _

end Dictionary

theorem Draft.listed_of_finish {d : Draft} {w : Word} (h : d.finish = .ok w) :
    w.listed = ⟨d.name, some d.code.size, false⟩ := by
  unfold finish at h
  split at h <;> cases h
  rfl

/-- The upper case of a token has no blank in it. -/
theorem Token.IsToken.notMem_upper {t : String} (h : IsToken t) : ' ' ∉ (Text.upper t).toList := by
  intro hmem
  rw [Text.toList_upper] at hmem
  obtain ⟨c, hc, hblank⟩ := List.mem_flatMap.mp hmem
  have hword := h.2 c hc
  rw [Text.eq_of_mem_upperChar (by decide) hblank] at hword
  cases hword

/-- Whoever reads these lines knows the entries of the program. That the lines can be read depends
on its names. -/
structure Program.Told (lines : List String) (p : Program) : Prop where
  replay : Listed.replay Dictionary.builtins.listed lines = some p.dict.listed
  entries : ∀ w ∈ p.dict.entries, ' ' ∉ w.name.toList
  draft : ∀ {d}, p.draft = some d → ' ' ∉ d.name.toList

namespace Program.Told

variable {lines : List String} {p : Program}

/-- One more line is followed from where the earlier ones led. -/
theorem replay_concat (h : p.Told lines) {line : String} {entries : List Listed}
    (hline : Listed.follow p.dict.listed line = some entries) :
    Listed.replay Dictionary.builtins.listed (lines ++ [line]) = some entries := by
  rw [Listed.replay_concat, h.replay]
  exact hline

theorem builtins : Told [] ⟨.builtins, none⟩ where
  replay := rfl
  entries w hw := by
    obtain ⟨position, hget⟩ := Array.mem_iff_getElem?.mp hw
    obtain ⟨b, rfl⟩ := Dictionary.ofBuiltin_of_get? hget
    have hall : ∀ b ∈ Builtin.all, ' ' ∉ b.name.toList := by decide
    exact hall b b.mem_all
  draft := nofun

theorem start {name : String} (h : p.Told lines) (hname : Token.IsToken name) :
    Told lines ⟨p.dict, some (.start name)⟩ where
  replay := h.replay
  entries := h.entries
  draft hd := by
    cases hd
    exact hname.notMem_upper

theorem take {d d' : Draft} {piece : Piece} (h : p.Told lines) (hd : p.draft = some d)
    (ht : d.take piece = .ok d') : Told lines ⟨p.dict, some d'⟩ where
  replay := h.replay
  entries := h.entries
  draft hd' := by
    cases hd'
    rw [Draft.name_of_take ht]
    exact h.draft hd

theorem finish {d : Draft} {w : Word} (h : p.Told lines) (hd : p.draft = some d)
    (hw : d.finish = .ok w) :
    Told (lines ++ [(Record.defined d.name d.code.size).message]) ⟨p.dict.add w, none⟩ where
  replay := by
    rw [Dictionary.listed_add, Draft.listed_of_finish hw]
    exact h.replay_concat (Listed.follow_defined _ (h.draft hd) _)
  entries v hv := by
    rcases Array.mem_push.mp hv with hv | rfl
    · exact h.entries v hv
    · rw [Draft.name_of_finish hw]
      exact h.draft hd
  draft := nofun

theorem mark {name : String} {dict : Dictionary} (h : p.Told lines)
    (hm : p.dict.markLatest = .ok (name, dict)) :
    Told (lines ++ [(Record.marked name).message]) ⟨dict, p.draft⟩ := by
  obtain ⟨w, hw, -, rfl, hdict⟩ := Dictionary.markLatest_ok hm
  have hname := h.entries w (Array.mem_of_back? hw)
  refine ⟨h.replay_concat ?_, fun v hv => ?_, h.draft⟩
  · rw [Listed.follow_marked _ hname, Dictionary.mark_listed hm]
  · rw [hdict] at hv
    rcases Array.mem_push.mp hv with hv | rfl
    · refine h.entries v ?_
      rw [Dictionary.entries_of_back? hw]
      exact Array.mem_push_of_mem w hv
    · exact hname

theorem abort (h : p.Told lines) (line : String) (f : Fault) :
    Told (lines ++ [(Record.aborted line f).message]) ⟨p.dict, none⟩ :=
  ⟨h.replay_concat (Listed.follow_aborted _ line f), h.entries, nofun⟩

theorem discard (h : p.Told lines) (name : String) :
    Told (lines ++ [(Record.discarded name).message]) ⟨p.dict, none⟩ :=
  ⟨h.replay_concat (Listed.follow_discarded _ name), h.entries, nofun⟩

end Program.Told

/-- The lines of the journal. -/
def Engine.log (e : Engine) : List String := e.journal.toList.map Record.message

@[simp] theorem Engine.log_note (e : Engine) (r : Record) :
    (e.note r).log = e.log ++ [r.message] := by
  simp [log, note]

theorem Program.Told.abiding : Abiding fun e => e.program.Told e.log where
  withStack h _ := h
  write h _ := h
  pushFrame h _ _ := h
  popFrame h _ := h
  take h hd _ ht := h.take hd ht
  finish h hd hw := by
    rw [Engine.log_note]
    exact h.finish hd hw
  mark h hm := by
    rw [Engine.log_note]
    exact h.mark hm
  start h _ hname _ := h.start hname
  abort {e} h line f := by
    have haborted := h.abort line f
    rw [← Engine.log_note] at haborted
    unfold Engine.reset
    split
    · next d _ =>
        have hdiscarded := haborted.discard d.name
        rw [← Engine.log_note] at hdiscarded
        exact hdiscarded
    · exact haborted
  withConsole h _ := h

/-- A record of something that happened to the entries. -/
def Record.isChange : Record → Bool
  | .defined _ _ | .marked _ => true
  | .aborted _ _ | .discarded _ => false

/-- Since the journal was `j`, there were only changes of the entries. -/
def Engine.ChangedSince (j : Array Record) (e : Engine) : Prop :=
  ∃ rs : Array Record, e.journal = j ++ rs ∧ ∀ r ∈ rs, r.isChange = true

theorem Engine.ChangedSince.note {j : Array Record} {e e' : Engine} {r : Record}
    (h : e.ChangedSince j) (hr : r.isChange = true) (hj : e'.journal = e.journal.push r) :
    e'.ChangedSince j := by
  obtain ⟨rs, hrs, hall⟩ := h
  refine ⟨rs.push r, by rw [hj, hrs, Array.push_append], fun s hs => ?_⟩
  rcases Array.mem_push.mp hs with hs | rfl
  · exact hall s hs
  · exact hr

theorem Engine.ChangedSince.lasting (j : Array Record) : Lasting (ChangedSince j) where
  withStack h _ := h
  write h _ := h
  pushFrame h _ _ := h
  popFrame h _ := h
  take h _ _ _ := h
  finish h _ _ := h.note rfl rfl
  mark h _ := h.note rfl rfl

/-- What is recorded at the end of a text: that it failed, and what was open then. -/
def Outcome.closing (line : String) : Outcome Unit → List Record
  | .error (.fault f) e => .aborted line f :: (e.draft.map fun d => .discarded d.name).toList
  | _ => []

namespace Run

theorem changedSince_line (lim : Limits) (fuel : Nat) (line : String) (e : Engine) :
    (engine ((do tokens lim fuel (← lift (Token.ofText line)) : Run Unit).run e)).ChangedSince
      e.journal :=
  (Engine.ChangedSince.lasting e.journal).line lim fuel line (fun h _ _ _ => h) ⟨#[], by simp⟩

/-- A failure is recorded after everything else, and with it what it leaves unfinished. -/
theorem journal_recover {line : String} {r : Outcome Unit}
    (hr : Satisfies Engine.Ranged Stop.Worded (fun _ => True) r) :
    (engine (recover line r)).journal.toList = (engine r).journal.toList ++ r.closing line := by
  match r, hr with
  | .ok _ e', _ => simp [recover, engine, closing]
  | .error .outOfFuel e', _ => simp [recover, engine, closing]
  | .error (.fault f) e', hr =>
      simp only [recover, hr.2.recovers, if_true, engine_error, closing]
      cases hd : e'.draft with
      | none => simp [Engine.reset, Engine.note, hd]
      | some d => simp [Engine.reset, Engine.note, hd]

end Run

/-- Reading the journal line by line gives the names, the sizes and the marks of all entries, from
the built-in words on. Every text comes to an end: what it defines and marks is recorded as it
happens, and then, if it fails, that it failed and which definition was open at that moment. A
report about a text leaves the same records. -/
theorem journal_tells_entries {e : Engine} (h : Reachable e) :
    Listed.replay Dictionary.builtins.listed e.log = some e.dict.listed ∧
    ∀ (lim : Limits) (line : String), ∃ (r : Outcome Unit) (rs : List Record)
        (chunks : List String) (console : Console),
      Settles (fun n => do tokens lim n (← lift (Token.ofText line))) e r ∧
      Settles (fun n => feed lim n line) e (recover line r) ∧
      Settles (fun n => interpret lim n line) e
        (.ok (String.join (chunks ++ status (recover line r)))
          { engine (recover line r) with console }) ∧
      (engine (recover line r)).journal.toList = e.journal.toList ++ rs ++ r.closing line ∧
      ∀ record ∈ rs, record.isChange = true := by
  refine ⟨(h.abides Program.Told.abiding .builtins).replay, fun lim line => ?_⟩
  obtain ⟨r, hr, -⟩ := Proceeds.line lim line h.ready.sound
  obtain ⟨chunks, console, hreport⟩ := settles_interpret_of_feed h.ready hr.recover
  obtain ⟨n, hn⟩ := hr.2
  have hrun := hn n (Nat.le_refl n)
  have hworded := (KeepsRange.line lim n line).outcome h.ready.ranged
  obtain ⟨rs, hrs, hchanges⟩ := changedSince_line lim n line e
  rw [hrun] at hworded hrs
  refine ⟨r, rs.toList, chunks, console, hr, hr.recover, hreport, ?_, fun record hmem => ?_⟩
  · rw [journal_recover hworded, hrs, Array.toList_append]
  · exact hchanges record (Array.mem_toList_iff.mp hmem)

/-- A session that defines a word and marks it, the mark coming from within the next definition. -/
def remarked : Engine :=
  engine ((feed {} 100 ": M IMMEDIATE ; IMMEDIATE : X 7 ; : Y M 8").run .fresh)

/-- The journal of the session, and what a text adds that first finishes the open definition and
then fails within another one. -/
theorem journal_tells_entries_remarked :
    remarked.log = ["defined M (1 instructions)", "M marked immediate",
      "defined X (1 instructions)", "X marked immediate"] ∧
    Listed.replay Dictionary.builtins.listed remarked.log = some remarked.dict.listed ∧
    remarked.dict.listed.drop 36 = [⟨"M", some 1, true⟩, ⟨"X", some 1, true⟩] ∧
    ∃ rs : List Record, (∀ record ∈ rs, record.isChange = true) ∧
      (engine ((feed {} 100 "; : Z FOO").run remarked)).journal.toList =
        remarked.journal.toList ++ rs ++ [.aborted "; : Z FOO" (.undefined "FOO"),
          .discarded "Z"] := by
  have hreach : Reachable remarked := .feed _ _ _ .fresh (by decide +kernel)
  obtain ⟨hreplay, htexts⟩ := journal_tells_entries hreach
  obtain ⟨r, rs, chunks, console, hline, hfeed, -, hjournal, hchanges⟩ := htexts {} "; : Z FOO"
  let line : Run Unit := do tokens {} 100 (← lift (Token.ofText "; : Z FOO"))
  have hr : r = line.run remarked :=
    hline.unique (.of_ended (fun _ hle => line_extends {} hle _) (by decide +kernel))
  have hclosing : r.closing "; : Z FOO" =
      [.aborted "; : Z FOO" (.undefined "FOO"), .discarded "Z"] := by
    rw [hr]
    decide +kernel
  have hsame : (feed {} 100 "; : Z FOO").run remarked = recover "; : Z FOO" r :=
    (settles_feed rfl (by decide +kernel)).unique hfeed
  exact ⟨by decide +kernel, hreplay, by decide +kernel, rs, hchanges,
    by rw [hsame, hjournal, hclosing]⟩

end Forthlet
