import Mathlib.Data.List.TakeWhile
import Forthlet.Text.Blank
import Forthlet.Proofs.Capitals
import Forthlet.Proofs.ReadBack

/-!
# What is printed and what a fault says

A report on a text that went well ends in the status ` ok`. Nothing else that an engine says ends
like that, but for one message. All that is printed is in upper case: numbers have none, and names
are kept in it. A fault quotes such names as well, or a number. An unknown word, though, is quoted
as it was written, and it may be spelled like the status.
-/
namespace Forthlet

open Outcome Run

namespace Text

variable {s t : String} {l : List String} {c : Char}

namespace Capital

theorem append (hs : Capital s) (ht : Capital t) : Capital (s ++ t) := by
  intro c hc
  rw [String.toList_append] at hc
  exact (List.mem_append.mp hc).elim (hs c) (ht c)

theorem join (h : ∀ s ∈ l, Capital s) : Capital (String.join l) := by
  intro c hc
  rw [String.toList_join] at hc
  obtain ⟨s, hs, hc⟩ := List.mem_flatMap.mp hc
  exact h s hs c hc

theorem intercalate (hs : Capital s) (h : ∀ t ∈ l, Capital t) : Capital (s.intercalate l) := by
  induction l with
  | nil =>
      rw [String.intercalate_nil]
      exact nofun
  | cons t l ih =>
      obtain ⟨ht, hl⟩ := List.forall_mem_cons.mp h
      cases l with
      | nil =>
          rw [String.intercalate_singleton]
          exact ht
      | cons u l =>
          rw [String.intercalate_cons_cons]
          exact (ht.append hs).append (ih hl)

theorem toString (n : Int) : Capital (toString n) := by
  have hall : Numeral.letterless.all fun c => upperChar c = [c] := by decide
  intro c hc
  simpa using List.all_eq_true.mp hall c (Numeral.mem_toString hc)

end Capital

/-- The last character that is no blank. -/
def last? (s : String) : Option Char := (s.toList.reverse.dropWhile isBlank).head?

theorem mem_of_last? (h : last? s = some c) : c ∈ s.toList :=
  List.mem_reverse.mp ((List.dropWhile_sublist _).mem (List.mem_of_head? h))

/-- Unlike the status of a report, no text in upper case ends in a small letter. -/
theorem Capital.last?_ne (h : Capital s) : last? s ≠ some 'k' := fun hlast =>
  absurd (h 'k' (mem_of_last? hlast)) (by decide)

theorem toList_trimEnd (s : String) :
    (trimEnd s).toList = (s.toList.reverse.dropWhile isBlank).reverse :=
  String.toList_ofList

theorem length_trimEnd_le (s : String) : (trimEnd s).toList.length ≤ s.toList.length := by
  have hle := (List.dropWhile_sublist isBlank (l := s.toList.reverse)).length_le
  rwa [← List.length_reverse, ← toList_trimEnd, List.length_reverse] at hle

theorem getLast?_trimEnd (s : String) : (trimEnd s).toList.getLast? = last? s := by
  rw [toList_trimEnd, List.getLast?_reverse, last?]

/-- Blanks at the end are cut. -/
theorem trimEnd_append_blank (h : last? t = none) : trimEnd (s ++ t) = trimEnd s := by
  have hblank : ∀ c ∈ t.toList.reverse, isBlank c = true :=
    List.dropWhile_eq_nil_iff.mp (List.head?_eq_none_iff.mp h)
  rw [← String.toList_inj, toList_trimEnd, toList_trimEnd, String.toList_append,
    List.reverse_append, List.dropWhile_append_of_pos hblank]

/-- What stands before a character that is no blank stays. -/
theorem trimEnd_append (h : last? t = some c) : trimEnd (s ++ t) = s ++ trimEnd t := by
  have hne : t.toList.reverse.dropWhile isBlank ≠ [] := by
    intro hnil
    rw [last?, hnil] at h
    cases h
  rw [← String.toList_inj, String.toList_append, toList_trimEnd, toList_trimEnd,
    String.toList_append, List.reverse_append, List.dropWhile_append, if_neg (by simpa using hne)]
  simp

theorem last?_append (s t : String) : last? (s ++ t) = (last? t).or (last? s) := by
  cases h : last? t with
  | none => rw [← getLast?_trimEnd, trimEnd_append_blank h, getLast?_trimEnd, Option.none_or]
  | some c =>
      rw [← getLast?_trimEnd, trimEnd_append h, String.toList_append, List.getLast?_append,
        getLast?_trimEnd, h, Option.some_or, Option.some_or]

theorem last?_append_ne (hs : last? s ≠ some c) (ht : last? t ≠ some c) :
    last? (s ++ t) ≠ some c := by
  rw [last?_append]
  cases hlast : last? t with
  | none => exact hs
  | some d => rwa [Option.some_or, ← hlast]

/-- What stands behind the last blank, when the blanks at the end are cut. -/
def lastWord (s : String) : List Char :=
  ((trimEnd s).toList.reverse.takeWhile (· ≠ ' ')).reverse

/-- The last word is the one that reports success. -/
def EndsInOk (s : String) : Prop := lastWord s = ['o', 'k']

instance : DecidablePred EndsInOk := fun s =>
  inferInstanceAs (Decidable (lastWord s = ['o', 'k']))

theorem endsInOk_iff : EndsInOk s ↔ (trimEnd s).toList = ['o', 'k'] ∨
    ∃ cs, (trimEnd s).toList = cs ++ [' ', 'o', 'k'] := by
  constructor
  · intro h
    have hword := congrArg List.reverse h
    rw [lastWord, List.reverse_reverse] at hword
    rw [← List.reverse_reverse (trimEnd s).toList]
    -- Only the last word matters from here on; what it was cut from would be computed.
    generalize (trimEnd s).toList.reverse = cs at hword ⊢
    have hsplit := List.takeWhile_append_dropWhile (p := (· ≠ ' ')) (l := cs)
    have hhead := List.head?_dropWhile_not (· ≠ ' ') cs
    rw [hword] at hsplit
    cases hrest : cs.dropWhile (· ≠ ' ') with
    | nil =>
        rw [hrest] at hsplit
        exact .inl (by rw [← hsplit]; rfl)
    | cons c ds =>
        rw [hrest] at hsplit hhead
        have hblank : c = ' ' := by simpa using hhead
        refine .inr ⟨ds.reverse, ?_⟩
        rw [← hsplit, hblank]
        simp
  · rintro (h | ⟨cs, h⟩)
    · rw [EndsInOk, lastWord, h]
      decide
    · rw [EndsInOk, lastWord, h]
      simp

theorem EndsInOk.last? (h : EndsInOk s) : last? s = some 'k' := by
  rw [← getLast?_trimEnd]
  rcases endsInOk_iff.mp h with h | ⟨cs, h⟩
  · rw [h]
    rfl
  · rw [h, List.getLast?_append]
    rfl

theorem endsInOk_append_blank (h : Text.last? t = none) : EndsInOk (s ++ t) ↔ EndsInOk s := by
  rw [EndsInOk, lastWord, trimEnd_append_blank h, ← lastWord, ← EndsInOk]

/-- What stands before a blank does not matter. -/
theorem endsInOk_append (h : ' ' ∈ (trimEnd t).toList) : EndsInOk (s ++ t) ↔ EndsInOk t := by
  obtain ⟨c, hlast⟩ : ∃ c, Text.last? t = some c := by
    rw [← getLast?_trimEnd]
    exact ⟨_, List.getLast?_eq_some_getLast (List.ne_nil_of_mem h)⟩
  have hblank : ¬ ∀ c ∈ (trimEnd t).toList.reverse, decide (c ≠ ' ') = true := fun hall =>
    absurd (hall ' ' (List.mem_reverse.mpr h)) (by decide)
  have hshort : ((trimEnd t).toList.reverse.takeWhile (· ≠ ' ')).length ≠
      (trimEnd t).toList.reverse.length := fun hlength =>
    hblank (List.takeWhile_eq_self_iff.mp
      ((List.takeWhile_prefix _).eq_of_length hlength))
  rw [EndsInOk, EndsInOk, lastWord, lastWord, trimEnd_append hlast, String.toList_append,
    List.reverse_append, List.takeWhile_append, if_neg hshort]

/-- A word at the end is the last one if it is not blank. -/
theorem endsInOk_append_word (h : ' ' ∉ t.toList) (hs : ¬ EndsInOk s) :
    EndsInOk (s ++ " " ++ t) ↔ trimEnd t = "ok" := by
  cases hlast : Text.last? t with
  | none =>
      have hempty : trimEnd t = "" := by
        rw [← String.toList_eq_nil_iff, ← List.getLast?_eq_none_iff, getLast?_trimEnd, hlast]
      rw [endsInOk_append_blank hlast, endsInOk_append_blank rfl, hempty]
      exact iff_of_false hs (by decide)
  | some c =>
      have hword : ∀ c ∈ (trimEnd t).toList.reverse, decide (c ≠ ' ') = true := by
        intro c hc
        rw [toList_trimEnd, List.reverse_reverse] at hc
        have hmem : c ∈ t.toList := List.mem_reverse.mp ((List.dropWhile_sublist _).mem hc)
        exact decide_eq_true fun hblank => h (hblank ▸ hmem)
      have hok : "ok".toList = ['o', 'k'] := rfl
      rw [EndsInOk, lastWord, trimEnd_append hlast, String.toList_append, List.reverse_append,
        List.takeWhile_append_of_pos hword, ← String.toList_inj, hok]
      simp

/-- What does not end in its letter is not the last word. -/
theorem not_endsInOk_append (hs : ¬ EndsInOk s) (ht : Text.last? t ≠ some 'k') :
    ¬ EndsInOk (s ++ t) := by
  cases hlast : Text.last? t with
  | none =>
      rw [endsInOk_append_blank hlast]
      exact hs
  | some c =>
      intro hok
      have hk := hok.last?
      rw [last?_append, hlast, Option.some_or] at hk
      exact ht (hlast.trans hk)

end Text

theorem Numeral.last?_ne {text : String} {n : Int} (h : parse text = .ok n) :
    Text.last? text ≠ some 'k' := by
  intro hlast
  have hmark := isMark_of_parse h 'k' (Text.mem_of_last? hlast)
  have hupper : Char.toUpper 'k' = Char.ofNat 0x4B := by decide
  rw [← isMark_toUpper, hupper, isMark_eq_false (.inl (by decide))] at hmark
  cases hmark

namespace Fault

/-- A message quotes a token, a number, or a text in upper case. -/
def Quotes : Fault → Prop
  | undefined text => Token.IsToken text
  | depthExceeded name | unfinished _ name | nestedColon name | badInstruction name =>
      Text.Capital name
  | colonNumber token => ∃ n, Numeral.parse token = .ok n
  | _ => True

/-- Apart from an unknown word, only `mark` at the end of a message has that letter. -/
theorem last?_message_ne {f : Fault} (h : f.Quotes) (hword : ∀ text, f ≠ .undefined text)
    (hmark : f ≠ .nothingToMark) : Text.last? f.message ≠ some 'k' := by
  cases f with
  | undefined text => exact absurd rfl (hword text)
  | nothingToMark => exact absurd rfl hmark
  | depthExceeded name | nestedColon name | badInstruction name =>
      exact Text.last?_append_ne (by decide) (Text.Capital.last?_ne h)
  | unfinished opener name =>
      have hopener : Text.last? (opener.name ++ " without matching end in ") ≠ some 'k' := by
        cases opener <;> decide
      exact Text.last?_append_ne hopener (Text.Capital.last?_ne h)
  | colonNumber token =>
      obtain ⟨n, hn⟩ := h
      exact Text.last?_append_ne (by decide) (Numeral.last?_ne hn)
  | overflow n =>
      have hn : Text.last? (toString n) ≠ some 'k' := (Text.Capital.toString n).last?_ne
      exact Text.last?_append_ne (Text.last?_append_ne (by decide) hn) (by decide)
  | compileOnly name =>
      have hlast : Text.last? " is only valid inside a definition" = some 'n' := by decide
      have hmessage : (compileOnly name).message = name ++ " is only valid inside a definition" :=
        rfl
      rw [hmessage, Text.last?_append, hlast, Option.some_or]
      decide
  | stackUnderflow | nestingExceeded | divisionByZero | elseWithoutIf | thenWithoutIf
  | loopWithoutDo | indexOutsideLoop | colonNeedsName | straySemicolon | openComment
  | unprintable => decide

/-- An unknown word is quoted at the end of its message. -/
theorem endsInOk_undefined {text : String} (h : Token.IsToken text) (s : String) :
    Text.EndsInOk (s ++ ("\n Error: " ++ (undefined text).message)) ↔
      Text.trimEnd text = "ok" := by
  have hblank : ' ' ∉ text.toList := fun hmem => absurd (h.2 ' ' hmem) (by decide)
  have hcut : ∀ a b c d : String, a ++ b = c ++ d →
      s ++ (a ++ (b ++ text)) = s ++ c ++ d ++ text := by
    intro a b c d hab
    rw [← @String.append_assoc a, hab, String.append_assoc, String.append_assoc,
      String.append_assoc]
  have hmessage : (undefined text).message = "Undefined: " ++ text := rfl
  have hstart : ¬ Text.EndsInOk (s ++ "\n Error: Undefined:") := by
    rw [Text.endsInOk_append (by decide)]
    decide
  rw [hmessage, hcut "\n Error: " "Undefined: " "\n Error: Undefined:" " " (by decide),
    Text.endsInOk_append_word hblank hstart]

/-- The message about an unknown word is the only one that may end like a report of success. -/
theorem endsInOk_message {f : Fault} (h : f.Quotes) (s : String) :
    Text.EndsInOk (s ++ ("\n Error: " ++ f.message)) ↔
      ∃ text, f = .undefined text ∧ Text.trimEnd text = "ok" := by
  by_cases hword : ∃ text, f = .undefined text
  · obtain ⟨text, rfl⟩ := hword
    rw [endsInOk_undefined h]
    refine ⟨fun hok => ⟨text, rfl, hok⟩, fun ⟨_, heq, hok⟩ => ?_⟩
    cases heq
    exact hok
  · refine iff_of_false ?_ fun ⟨text, hf, _⟩ => hword ⟨text, hf⟩
    by_cases hmark : f = .nothingToMark
    · subst hmark
      rw [← String.append_assoc, Text.endsInOk_append (by decide)]
      decide
    · have hstart : ¬ Text.EndsInOk (s ++ "\n Error: ") := by
        rw [Text.endsInOk_append (by decide)]
        decide
      have hlast := last?_message_ne h (fun text hf => hword ⟨text, hf⟩) hmark
      rw [← String.append_assoc]
      exact Text.not_endsInOk_append hstart hlast

end Fault

/-- Every instruction of the code is one that can run. -/
def Code.Known (c : Code) : Prop := ∀ op, .unknown op ∉ c

theorem Code.Known.capital {c : Code} {i : Instr Callee} (h : c.Known) (hi : i ∈ c) :
    Text.Capital i.opName := by
  cases i with
  | unknown op => exact absurd hi (h op)
  | lit _ | call _ | branch _ | branchIfZero _ | enterLoop _ | nextLoop _ | index =>
      rw [Instr.opName]
      decide

theorem Dictionary.Nameable.capital {name : String} (h : Nameable name) : Text.Capital name := by
  obtain ⟨text, -, -, rfl⟩ := h
  exact Text.capital_upper text

namespace Program

variable {p p' : Program}

structure Known (p : Program) : Prop where
  dict : ∀ {position w c}, p.dict.get? position = some w → w.body = .compiled c → c.Known
  draft : ∀ {d}, p.draft = some d → d.code.Known

/-- What joins a definition is a part of a body, or a jump. -/
theorem Edit.known (h : p.Edit p') (hp : p.Known) : p'.Known := by
  cases h with
  | mark hm =>
      refine ⟨fun {position w' c} hw' hc => ?_, hp.draft⟩
      obtain ⟨w, hw, hu⟩ := Dictionary.get?_of_unmarked (Dictionary.unmarked_markLatest hm).symm hw'
      exact hp.dict hw ((Word.body_of_unmarked hu).trans hc)
  | start _ _ =>
      refine ⟨hp.dict, fun hd => ?_⟩
      cases hd
      exact fun _ => Array.not_mem_empty _
  | take hd _ ht =>
      refine ⟨hp.dict, fun hd' => ?_⟩
      cases hd'
      intro op hop
      rcases Draft.mem_of_take ht hop with hop | ⟨a, -, ha⟩ | hjump
      · exact hp.draft hd op hop
      · cases a <;> cases ha
      · cases hjump
  | @finish d w hd hw =>
      unfold Draft.finish at hw
      split at hw <;> cases hw
      refine ⟨fun {position v c} hv hc => ?_, nofun⟩
      rw [Dictionary.get?_add] at hv
      split at hv
      · cases hv
        cases hc
        exact hp.draft hd
      · exact hp.dict hv hc
  | drop => exact ⟨hp.dict, nofun⟩

end Program

/-- The names of the program are in upper case, all its code can run, and all that was printed is in
upper case as well. -/
structure Engine.Capital (e : Engine) : Prop where
  named : e.program.Named
  known : e.program.Known
  printed : ∀ chunk ∈ e.console.out, Text.Capital chunk

namespace Engine.Capital

variable {e e' : Engine}

theorem fresh : Engine.fresh.Capital where
  named := Reachable.fresh.named
  known := {
    dict := fun {_ w c} hw hc => by
      obtain ⟨b, rfl⟩ := Dictionary.ofBuiltin_of_get? hw
      cases hc
    draft := nofun }
  printed := fun _ h => absurd h (Array.not_mem_empty _)

theorem edit (h : e.Capital) (hedit : e.program.Edit e'.program)
    (hout : e'.console.out = e.console.out) : e'.Capital where
  named := hedit.named h.named
  known := hedit.known h.known
  printed := hout ▸ h.printed

theorem of_prints {chunk : String} (h : e.Prints chunk) (he : e.Capital) : Text.Capital chunk := by
  cases h with
  | number n => exact (Text.Capital.toString n).append (by decide)
  | newline => decide
  | cells count htexts =>
      have hcount : Text.Capital (toString count) := Text.Capital.toString (count : Int)
      refine (((by decide : Text.Capital "<").append hcount).append (by decide)).append ?_
      refine .join fun s hs => ?_
      obtain ⟨t, ht, rfl⟩ := List.mem_map.mp hs
      obtain ⟨n, rfl⟩ := htexts t ht
      exact (Text.Capital.toString n).append (by decide)
  | names =>
      refine .intercalate (by decide) fun name hname => ?_
      obtain ⟨w, hw, rfl⟩ := List.mem_map.mp (List.mem_eraseDups.mp hname)
      obtain ⟨position, hposition⟩ :=
        Array.getElem?_of_mem (Array.mem_toList_iff.mp (List.mem_reverse.mp hw))
      exact (he.named.dict hposition).capital

theorem lasting : Lasting Engine.Capital where
  withStack h _ := ⟨h.named, h.known, h.printed⟩
  write {e chunk} h hchunk := by
    refine ⟨h.named, h.known, fun c hc => ?_⟩
    simp only [Console.write] at hc
    split at hc
    · exact h.printed c hc
    · rcases Array.mem_push.mp hc with hc | rfl
      · exact h.printed c hc
      · exact of_prints hchunk h
  pushFrame h _ _ := ⟨h.named, h.known, h.printed⟩
  popFrame h _ := ⟨h.named, h.known, h.printed⟩
  take h hd hp ht := h.edit (.take hd hp ht) rfl
  finish h hd hw := h.edit (.finish hd hw) rfl
  mark h hm := h.edit (.mark hm) rfl

end Engine.Capital

def Stop.Quotes : Stop → Prop
  | .fault f => f.Quotes
  | .outOfFuel => True

theorem Stop.Raised.quotes {s : Stop} (h : s.Raised Engine.Capital) : s.Quotes := by
  cases h with
  | @plain f _ => cases f <;> trivial
  | unfinished he hd _ => exact (he.named.draft hd).capital

namespace Run

/-- The action keeps all names and all that is printed in upper case, and quotes nothing else but
tokens and numbers. -/
abbrev KeepsCapital {α : Type} (m : Run α) : Prop :=
  Keeps Engine.Capital Stop.Quotes m fun _ => True

namespace KeepsCapital

variable {lim : Limits} {fuel : Nat}

theorem word {depth position : Nat} : KeepsCapital (word lim fuel depth position) := by
  refine Keeps.word (C := Code.Known) trivial (fun he => he.known.dict)
    (fun hc hi => Engine.Capital.lasting.step_of (fun _ => Stop.Raised.quotes) (hc.capital hi) _)
    (fun b => (Engine.Capital.lasting.exec b).mono fun _ => Stop.Raised.quotes)
    (fun he hw hx => ?_) ?_
  · unfold Limits.checkDepth at hx
    split at hx
    · cases hx
      exact (he.named.dict hw).capital
    · split at hx <;> cases hx
      trivial
  · have hcall : Text.Capital "CALL" := by decide
    exact hcall

theorem token {text : String} (htext : Token.IsToken text) :
    KeepsCapital (token lim fuel text) := by
  refine .of_outcome fun e he => ?_
  cases token_acts lim fuel e text with
  | runs _ hr =>
      rw [hr]
      exact word.outcome he
  | adds hd hl hr =>
      rw [hr]
      exact (Engine.Capital.lasting.compile he hd hl).mono fun _ => Stop.Raised.quotes
  | pushes hr =>
      rw [hr]
      exact ((Engine.Capital.lasting.toCalm.push _).mono fun _ => Stop.Raised.quotes).outcome he
  | refused hf hr =>
      rw [hr]
      rcases cellOf_error hf with rfl | ⟨n, rfl⟩
      · exact ⟨he, htext⟩
      · exact ⟨he, trivial⟩

theorem startDraft (name : Option String) : KeepsCapital (startDraft name) := by
  refine .of_outcome fun e he => ?_
  cases hd : e.draft with
  | some d =>
      rw [run_startDraft_some hd]
      exact ⟨he, (he.named.draft hd).capital⟩
  | none =>
      cases name with
      | none =>
          rw [run_startDraft_missing hd]
          exact ⟨he, trivial⟩
      | some name =>
          cases hn : Numeral.parse name with
          | ok n =>
              rw [run_startDraft_number hd hn]
              exact ⟨he, n, hn⟩
          | error x =>
              rw [run_startDraft_ok hd hn]
              exact ⟨he.edit (.start hn hd) rfl, trivial⟩

theorem line (lim : Limits) (fuel : Nat) (text : String) :
    KeepsCapital (do tokens lim fuel (← lift (Token.ofText text))) := by
  cases hts : Token.ofText text with
  | error f =>
      refine .fail ?_
      unfold Token.ofText at hts
      simp only at hts
      split at hts <;> cases hts
      trivial
  | ok ts =>
      exact Keeps.tokens (fun _ ht => token (Token.isToken_of_ofText hts ht)) (startDraft none)
        fun name _ => startDraft (some name)

theorem feed (lim : Limits) (fuel : Nat) (text : String) : KeepsCapital (feed lim fuel text) := by
  refine Keeps.feed (line lim fuel text) fun he f => ?_
  refine he.edit ?_ (congrArg Console.out (Engine.reset_console _))
  rw [Engine.program_reset]
  exact .drop

end KeepsCapital

end Run

end Forthlet
