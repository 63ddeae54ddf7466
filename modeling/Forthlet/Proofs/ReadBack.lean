import Forthlet.Proofs.Lines
import Forthlet.Proofs.Overflow
import Forthlet.Proofs.Underneath

/-!
# Reading back what was printed

A cell is printed in decimal digits, and a blank behind it. Digits are no letters, so no session has
a word by that name, and the text is the number again wherever it is read. The cells that `.S` lists
are on the stack again once the list is read, without the count in front of it.
-/
namespace Forthlet

open Outcome Run

namespace Token

variable {t : String} {cs : List Char}

/-- A blank ends a token, and is left to what follows. -/
theorem next_token (ht : IsToken t) (cs : List Char) :
    next (t.toList ++ ' ' :: cs) = .word t.toList (' ' :: cs) := by
  obtain ⟨hne, hall⟩ := ht
  cases htext : t.toList with
  | nil => exact absurd (String.toList_eq_nil_iff.mp htext) hne
  | cons c text =>
      rw [htext] at hall
      obtain ⟨hc, htail⟩ := List.forall_mem_cons.mp hall
      obtain ⟨hs, hp, hb⟩ := isWordChar_eq_true.mp hc
      rw [List.cons_append, next, if_neg hs, if_neg hp, if_neg hb,
        List.takeWhile_append_of_pos htail, List.dropWhile_append_of_pos htail]
      simp [isWordChar, isSeparator]

theorem read_blank (cs : List Char) : read (' ' :: cs) = read cs := by
  have hnext : next (' ' :: cs) = next cs := by
    rw [next, if_pos (by decide)]
  rw [read_eq, hnext, ← read_eq cs]

theorem read_token (ht : IsToken t) (cs : List Char) :
    read (t.toList ++ ' ' :: cs) = ⟨t :: (read cs).tokens, (read cs).unclosed⟩ := by
  rw [read_eq, next_token ht]
  simp only [read_blank, String.ofList_toList]

/-- Tokens are read back if there is a blank behind each of them. -/
theorem read_flatMap_blank {ts : List String} (h : ∀ t ∈ ts, IsToken t) :
    read (ts.flatMap fun t => t.toList ++ [' ']) = ⟨ts, false⟩ := by
  induction ts with
  | nil => rfl
  | cons t ts ih =>
      obtain ⟨ht, hts⟩ := List.forall_mem_cons.mp h
      rw [List.flatMap_cons, List.append_assoc, List.singleton_append, read_token ht, ih hts]

end Token

namespace Numeral

/-- What a decimal is made of. -/
theorem mem_toString {n : Int} {c : Char} (h : c ∈ (toString n).toList) : c ∈ letterless := by
  have hdigits : ∀ d < 10, Nat.digitChar d ∈ letterless := by decide
  rw [toList_toString, List.mem_append] at h
  rcases h with h | h
  · unfold sign at h
    split at h
    · rw [List.mem_singleton.mp h]
      decide
    · cases h
  · obtain ⟨ds, htext, hlt, -⟩ := exists_toDigits (b := 10) (by decide) n.natAbs
    rw [htext] at h
    obtain ⟨d, hd, rfl⟩ := List.mem_map.mp h
    exact hdigits d (hlt d hd)

theorem isToken_toString (n : Int) : Token.IsToken (toString n) := by
  have hword : letterless.all Token.isWordChar = true := by decide
  refine ⟨fun hempty => ?_, fun c hc => List.all_eq_true.mp hword c (mem_toString hc)⟩
  have hnil : (toString n).toList = [] := String.toList_eq_nil_iff.mpr hempty
  rw [toList_toString, List.append_eq_nil_iff] at hnil
  exact Nat.toDigits_ne_nil hnil.2

end Numeral

section
variable {e : Engine} {lim : Limits} {fuel : Nat} {n : Int}

namespace Run

/-- Decimals push what they were printed for, one after the other. -/
theorem run_tokens_decimals (h : e.program.Named) (hd : e.draft = none) {ns : List Int}
    (hns : ∀ n ∈ ns, Cell.InRange n) :
    (tokens lim fuel (ns.map toString)).run e =
      .ok () { e with stack := ns.reverse ++ e.stack } := by
  induction ns generalizing e with
  | nil => rfl
  | cons n ns ih =>
      obtain ⟨hn, hrest⟩ := List.forall_mem_cons.mp hns
      have hparse := Numeral.parse_toString (Cell.printable_of_inRange hn)
      have hunfound : e.Unfound (toString n) :=
        h.unfound_of_letterless hparse fun _ => Numeral.mem_toString
      have htoken : (token lim fuel (toString n)).run e =
          .ok () { e with stack := n :: e.stack } := by
        rw [hunfound.run_token, cellOf_of_parse hparse hn]
        exact congrArg _ (Engine.withNumber_none hd n)
      rw [List.map_cons, run_tokens_cons hunfound.ne_colon, htoken]
      have hnamed : (Engine.program { e with stack := n :: e.stack }).Named := h
      simp [ih hnamed hd hrest]

theorem feed_decimals (h : e.program.Named) (hd : e.draft = none) {ns : List Int}
    (hns : ∀ n ∈ ns, Cell.InRange n) {line : String}
    (hline : Token.ofText line = .ok (ns.map toString)) :
    (feed lim fuel line).run e = .ok () { e with stack := ns.reverse ++ e.stack } := by
  rw [run_feed_of_ofText hline, run_tokens_decimals h hd hns]
  rfl

theorem run_print {s : List Int} (hs : e.stack = n :: s) (hn : Cell.InRange n) :
    (Primitive.exec .print).run e =
      .ok () { e with stack := s, console := e.console.write (toString n ++ " ") } := by
  have hrun : (Primitive.exec .print).run e =
      (do emit ((← decimal (← pop)) ++ " ") : Run Unit).run e := rfl
  rw [hrun, EStateM.run_bind, run_pop_cons hs]
  simp only [decimal, Cell.printable_of_inRange hn, if_true]
  rfl

end Run

end

namespace Stack

/-- The count is a token of its own. -/
theorem isToken_count (k : Nat) : Token.IsToken ("<" ++ toString k ++ ">") := by
  refine ⟨fun hempty => ?_, fun c hc => ?_⟩
  · have hlength := congrArg String.length hempty
    simp at hlength
  · simp only [String.toList_append, List.mem_append] at hc
    rcases hc with (hc | hc) | hc
    · rw [List.mem_singleton.mp hc]
      decide
    · exact (Numeral.isToken_toString k).2 c hc
    · rw [List.mem_singleton.mp hc]
      decide

theorem toList_decimals (ns : List Int) :
    (String.join (ns.map fun n => toString n ++ " ")).toList =
      (ns.map toString).flatMap fun t => t.toList ++ [' '] := by
  simp only [String.toList_join, List.flatMap_map, String.toList_append]
  rfl

theorem ofText_decimals (ns : List Int) :
    Token.ofText (String.join (ns.map fun n => toString n ++ " ")) = .ok (ns.map toString) := by
  have htokens : ∀ t ∈ ns.map toString, Token.IsToken t := by
    intro t ht
    obtain ⟨n, -, rfl⟩ := List.mem_map.mp ht
    exact Numeral.isToken_toString n
  rw [Token.ofText, toList_decimals, Token.read_flatMap_blank htokens]
  rfl

/-- The first token of a listing is the count, and the other ones are the cells. -/
theorem next_listing (s : List Int) : ∃ rest,
    Token.next (listing s).toList = .word ("<" ++ toString s.length ++ ">").toList rest ∧
    Token.ofText (String.ofList rest) = .ok (s.reverse.map toString) := by
  have hlisting : (listing s).toList = ("<" ++ toString s.length ++ ">").toList ++
      ' ' :: (String.join (s.reverse.map fun n => toString n ++ " ")).toList := by
    simp [listing]
  have hnext := Token.next_token (isToken_count s.length)
    (String.join (s.reverse.map fun n => toString n ++ " ")).toList
  rw [← hlisting] at hnext
  refine ⟨_, hnext, ?_⟩
  have hcells := ofText_decimals s.reverse
  rw [Token.ofText] at hcells ⊢
  rwa [String.toList_ofList, Token.read_blank]

end Stack

/-- Wherever the text is fed in, these cells come on top of the stack, unless a definition is open.
Nothing else is changed. -/
def Recalls (line : String) (cells : List Int) : Prop :=
  ∀ e, Reachable e → e.draft = none → ∀ lim fuel,
    (feed lim fuel line).run e = .ok () { e with stack := cells ++ e.stack }

theorem Recalls.of_ofText {line : String} {s : List Int} (hs : ∀ n ∈ s, Cell.InRange n)
    (hline : Token.ofText line = .ok (s.reverse.map toString)) : Recalls line s := by
  intro e h hd lim fuel
  have hns : ∀ n ∈ s.reverse, Cell.InRange n := fun n hn => hs n (List.mem_reverse.mp hn)
  rw [feed_decimals h.named hd hns hline, List.reverse_reverse]

/-- What `.S` prints is the count and the cells. Without the count it puts the cells on the stack
again, in this session and in any other one, and so does what `.` prints with the cell it took. -/
theorem printed_reads_back {e : Engine} (h : Reachable e) :
    (Primitive.exec .printStack).run e =
      .ok () { e with console := e.console.write (Stack.listing e.stack) } ∧
    (∃ first rest, Token.next (Stack.listing e.stack).toList = .word first rest ∧
      String.ofList first = "<" ++ toString e.stack.length ++ ">" ∧
      ∀ line, Token.ofText line = Token.ofText (String.ofList rest) → Recalls line e.stack) ∧
    ∀ {n s}, e.stack = n :: s →
      (Primitive.exec .print).run e =
        .ok () { e with stack := s, console := e.console.write (toString n ++ " ") } ∧
      Recalls (toString n ++ " ") [n] ∧
      (e.draft = none → ∀ lim fuel, (feed lim fuel (toString n ++ " ")).run
          { e with stack := s, console := e.console.write (toString n ++ " ") } =
        .ok () { e with console := e.console.write (toString n ++ " ") }) := by
  have hranged := h.ready.ranged.stack
  refine ⟨?_, ?_, fun {n s} hs => ?_⟩
  · have hall : e.stack.all Numeral.printable = true :=
      List.all_eq_true.mpr fun n hn => Cell.printable_of_inRange (hranged n hn)
    exact (run_printStack e).trans (if_pos hall)
  · obtain ⟨rest, hnext, hrest⟩ := Stack.next_listing e.stack
    exact ⟨_, rest, hnext, String.ofList_toList, fun line hline =>
      .of_ofText hranged (hline.trans hrest)⟩
  · have hn : Cell.InRange n := hranged n (hs ▸ List.mem_cons_self)
    have hcell : ∀ m ∈ [n], Cell.InRange m := fun m hm => List.mem_singleton.mp hm ▸ hn
    have hline : Token.ofText (toString n ++ " ") = .ok [toString n] := by
      have hdecimals := Stack.ofText_decimals [n]
      simpa using hdecimals
    refine ⟨run_print hs hn, .of_ofText hcell hline, fun hd lim fuel => ?_⟩
    have hnamed : (Engine.program
        { e with stack := s, console := e.console.write (toString n ++ " ") }).Named := h.named
    rw [feed_decimals hnamed hd hcell hline, List.reverse_singleton, List.singleton_append, ← hs]

/-- A session with a word and with cells on its stack, the largest of them on top. -/
def stocked : Engine :=
  engine ((feed {} 100 ": SQ DUP * ; 3 SQ -7 9223372036854775807").run .fresh)

theorem printed_reads_back_stocked :
    (Primitive.exec .printStack).run stocked =
      .ok () { stocked with console := stocked.console.write "<3> 9 -7 9223372036854775807 " } ∧
    (feed {} 0 " 9 -7 9223372036854775807 ").run stocked =
      .ok () { stocked with
        stack := [9223372036854775807, -7, 9, 9223372036854775807, -7, 9] } ∧
    (feed {} 0 "9223372036854775807 ").run
        { stocked with stack := [-7, 9], console := stocked.console.write "9223372036854775807 " } =
      .ok () { stocked with console := stocked.console.write "9223372036854775807 " } := by
  have hreach : Reachable stocked := .feed _ _ _ .fresh (by decide +kernel)
  have hstack : stocked.stack = [9223372036854775807, -7, 9] := by decide +kernel
  have hdraft : stocked.draft = none := by decide +kernel
  obtain ⟨hprint, ⟨first, rest, hnext, -, hrecalls⟩, hcell⟩ := printed_reads_back hreach
  have hlisting : Stack.listing stocked.stack = "<3> 9 -7 9223372036854775807 " := by
    decide +kernel
  have hsecond : Token.next "<3> 9 -7 9223372036854775807 ".toList =
      .word "<3>".toList " 9 -7 9223372036854775807 ".toList := by decide +kernel
  rw [hlisting] at hprint hnext
  cases hsecond.symm.trans hnext
  refine ⟨hprint, ?_, (hcell hstack).2.2 hdraft {} 0⟩
  rw [hrecalls _ (congrArg Token.ofText String.ofList_toList.symm) _ hreach hdraft {} 0, hstack]
  rfl

end Forthlet
