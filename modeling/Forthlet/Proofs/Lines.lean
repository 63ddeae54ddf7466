import Forthlet.Proofs.Recovery
import Forthlet.Proofs.Spacing

/-!
# Cutting a text into lines

A text whose comments are closed yields the same tokens whatever follows behind a
line end, so taking in two texts one after the other is taking in the
single text that they make with a line end between them.
-/
namespace Forthlet

namespace Token

theorem ofText_append_newline {a b : String} {ts us : List String} (ha : ofText a = .ok ts)
    (hb : ofText b = .ok us) : ofText (a ++ "\n" ++ b) = .ok (ts ++ us) := by
  have hread : ∀ {text : String} {ts : List String}, ofText text = .ok ts →
      read text.toList = ⟨ts, false⟩ := by
    intro text ts h
    simp only [ofText] at h
    split at h
    · cases h
    · next hclosed =>
        cases h
        rw [← Bool.eq_false_iff.mpr hclosed]
  have hlist : (a ++ "\n" ++ b).toList = a.toList ++ '\n' :: b.toList := by simp
  simp only [ofText, hlist]
  rw [read_append_newline (by rw [hread ha]), hread ha, hread hb]
  rfl

end Token

open Outcome Run

namespace Run

variable {lim : Limits} {fuel : Nat} {e e₁ : Engine}

/-- Tokens that were all read are done with before those that follow them. -/
theorem run_tokens_append {us : List String} (h : (tokens lim fuel us).run e = .ok () e₁)
    (vs : List String) : (tokens lim fuel (us ++ vs)).run e = (tokens lim fuel vs).run e₁ := by
  induction us using tokens.induct generalizing e with
  | case1 =>
      cases h
      rfl
  | case2 =>
      -- A colon takes the next token as a name, so it is not the last of tokens that were read.
      rw [tokens] at h
      cases hd : e.draft with
      | none =>
          rw [run_startDraft_missing hd] at h
          cases h
      | some d =>
          rw [run_startDraft_some hd] at h
          cases h
  | case3 name rest ih =>
      rw [run_tokens_colon_cons] at h
      rw [List.cons_append, List.cons_append, run_tokens_colon_cons]
      cases hstart : (startDraft (some name)).run e with
      | ok _ e' =>
          rw [hstart] at h
          exact ih h
      | error s e' =>
          rw [hstart] at h
          cases h
  | case4 text rest hlast hname ih =>
      have hne := ne_colon hlast hname
      rw [run_tokens_cons hne] at h
      rw [List.cons_append, run_tokens_cons hne]
      cases htoken : (token lim fuel text).run e with
      | ok _ e' =>
          rw [htoken] at h
          exact ih h
      | error s e' =>
          rw [htoken] at h
          cases h

theorem Settles.tokens_append {us vs : List String} {r : Outcome Unit}
    (h : Settles (fun n => tokens lim n vs) e₁ r) (hus : (tokens lim fuel us).run e = .ok () e₁) :
    Settles (fun n => tokens lim n (us ++ vs)) e r := by
  obtain ⟨hended, n, hn⟩ := h
  refine ⟨hended, max fuel n, fun k hk => ?_⟩
  have hus' : (tokens lim k us).run e = .ok () e₁ := by
    rw [tokens_extends lim (by omega : fuel ≤ k) us e (by rw [hus]; trivial), hus]
  rw [run_tokens_append hus', hn k (by omega)]

theorem run_feed_of_ofText {line : String} {ts : List String} (h : Token.ofText line = .ok ts)
    (e : Engine) : (feed lim fuel line).run e = recover line ((tokens lim fuel ts).run e) := by
  rw [run_feed, h]
  rfl

/-- A text that is taken in leaves no comment open, and its tokens are read. -/
theorem tokens_of_feed {line : String} (h : (feed lim fuel line).run e = .ok () e₁) :
    ∃ ts, Token.ofText line = .ok ts ∧ (tokens lim fuel ts).run e = .ok () e₁ := by
  rw [run_feed] at h
  cases hts : Token.ofText line with
  | error f =>
      rw [hts] at h
      cases h
  | ok ts =>
      rw [hts, EStateM.run_bind, run_lift_ok] at h
      simp only at h
      cases hr : (tokens lim fuel ts).run e with
      | ok _ e' =>
          rw [hr] at h
          cases h
          exact ⟨ts, rfl, hr⟩
      | error s e' =>
          rw [hr] at h
          cases s <;> cases h

/-- A text settles on what its tokens settle on, and may have to be given up. -/
theorem Settles.feed {line : String} {ts : List String} {r : Outcome Unit}
    (hline : Token.ofText line = .ok ts) (h : Settles (fun n => tokens lim n ts) e r) :
    Settles (fun n => feed lim n line) e (Run.recover line r) := by
  refine Settles.recover (h.congr fun n => ?_)
  rw [hline]
  rfl

end Run

/-- The states differ in nothing but what was recorded. -/
def Engine.SameButJournal (e e' : Engine) : Prop := ∃ journal, e' = { e with journal }

/-- Two texts that end alike may differ in the record of the line that was given up. -/
theorem Run.twin_recover (line line' : String) (r : Outcome Unit) :
    Twin Engine.SameButJournal Eq (recover line r) (recover line' r) := by
  match r with
  | .ok _ e => exact .ok ⟨_, rfl⟩ rfl
  | .error .outOfFuel e => exact .error ⟨_, rfl⟩
  | .error (.fault f) e =>
      simp only [recover]
      split
      · exact .error (e.exists_reset_note _ _)
      · exact .error ⟨_, rfl⟩

/-- Feed texts one after the other, as long as they succeed. -/
def Run.feedAll (lim : Limits) (fuel : Nat) : List String → Run Unit
  | [] => pure ()
  | text :: rest => do
      feed lim fuel text
      feedAll lim fuel rest

/-- One text, with line ends between the pieces. -/
def joinLines (pieces : List String) : String := "\n".intercalate pieces

@[simp] theorem joinLines_singleton (a : String) : joinLines [a] = a := by
  simp [joinLines]

theorem joinLines_cons (a : String) {pieces : List String} (h : pieces ≠ []) :
    joinLines (a :: pieces) = a ++ "\n" ++ joinLines pieces := by
  cases pieces with
  | nil => exact absurd rfl h
  | cons b rest => exact String.intercalate_cons_cons

/-- Pieces that are all taken in have tokens that are all read, and a text that starts with these
pieces starts with these tokens. -/
theorem tokens_of_pieces {lim : Limits} {fuel : Nat} {e e₁ : Engine} {pieces : List String}
    (he : e.Ready) (h : (feedAll lim fuel pieces).run e = .ok () e₁) :
    e₁.Ready ∧ ∃ us, (tokens lim fuel us).run e = .ok () e₁ ∧
      ∀ {last : String} {ts : List String}, Token.ofText last = .ok ts →
        Token.ofText (joinLines (pieces ++ [last])) = .ok (us ++ ts) := by
  induction pieces generalizing e with
  | nil =>
      cases h
      exact ⟨he, [], rfl, fun hlast => by simpa using hlast⟩
  | cons a pieces ih =>
      rw [feedAll, EStateM.run_bind] at h
      cases ha : (feed lim fuel a).run e with
      | error s e' =>
          rw [ha] at h
          cases h
      | ok _ e' =>
          rw [ha] at h
          have hready : e'.Ready := by
            have hfeed : Ended ((feed lim fuel a).run e) →
                (engine ((feed lim fuel a).run e)).Ready := ready_of_feed he
            rw [ha] at hfeed
            exact hfeed trivial
          obtain ⟨he₁, us, hus, hjoin⟩ := ih hready h
          obtain ⟨ts, hts, hrun⟩ := tokens_of_feed ha
          refine ⟨he₁, ts ++ us, ?_, fun {last vs} hlast => ?_⟩
          · rw [run_tokens_append hrun, hus]
          · rw [List.cons_append, joinLines_cons a (by simp), List.append_assoc]
            exact Token.ofText_append_newline hts (hjoin hlast)

/-- Where a text that starts with pieces goes on in the end as its last piece does. -/
theorem exists_settles_joined {lim : Limits} {fuel : Nat} {e e₁ : Engine} {pieces : List String}
    {last : String} {ts : List String} (he : e.Ready)
    (h : (feedAll lim fuel pieces).run e = .ok () e₁) (hlast : Token.ofText last = .ok ts) :
    ∃ r r', Settles (fun n => feed lim n last) e₁ r ∧
      Settles (fun n => feed lim n (joinLines (pieces ++ [last]))) e r' ∧
      Twin Engine.SameButJournal Eq r r' := by
  obtain ⟨he₁, us, hus, hjoin⟩ := tokens_of_pieces he h
  obtain ⟨r, hr, -, -⟩ := Proceeds.tokens lim ts he₁.sound
  exact ⟨_, _, hr.feed hlast, (hr.tokens_append hus).feed (hjoin hlast), twin_recover _ _ r⟩

/-- Feeding one text after the other has the result of feeding them as one text with a line end
between them: the same state, or the same fault in the same state, up to the record of the line
that was given up. So a text may be cut into pieces at all line ends where what stands before can
be fed. -/
theorem cut_between_lines {e : Engine} (h : Reachable e) (lim : Limits) :
    (∀ {fuel : Nat} {a b : String} {ts : List String} {e₁ : Engine},
      (feed lim fuel a).run e = .ok () e₁ → Token.ofText b = .ok ts →
        ∃ r r', Settles (fun n => feed lim n b) e₁ r ∧
          Settles (fun n => feed lim n (a ++ "\n" ++ b)) e r' ∧
          Twin Engine.SameButJournal Eq r r') ∧
    ∀ {fuel : Nat} {pieces : List String} {last : String} {ts : List String} {e₁ : Engine},
      (feedAll lim fuel pieces).run e = .ok () e₁ → Token.ofText last = .ok ts →
        ∃ r r', Settles (fun n => feed lim n last) e₁ r ∧
          Settles (fun n => feed lim n (joinLines (pieces ++ [last]))) e r' ∧
          Twin Engine.SameButJournal Eq r r' := by
  refine ⟨fun {fuel a b ts e₁} ha hb => ?_, fun hp hlast => exists_settles_joined h.ready hp hlast⟩
  have hone : (feedAll lim fuel [a]).run e = .ok () e₁ := by
    rw [feedAll, EStateM.run_bind, ha]
    rfl
  have hjoined : joinLines ([a] ++ [b]) = a ++ "\n" ++ b := by
    rw [List.singleton_append, joinLines_cons a (by simp), joinLines_singleton]
  rw [← hjoined]
  exact exists_settles_joined h.ready hone hb

/-- A definition that is cut behind a comment, and a fault behind its end. -/
theorem cut_between_lines_squaring :
    ∃ e₁, (feed {} 100 ": SQ DUP \\ twice").run .fresh = .ok () e₁ ∧
      e₁.draft = some ⟨"SQ", #[.call (.entry 21)], []⟩ ∧
      (engine ((feed {} 100 "* ; 3 SQ FOO").run e₁)).stack = [9] ∧
      ∃ r r', Settles (fun n => feed {} n "* ; 3 SQ FOO") e₁ r ∧
        Settles (fun n => feed {} n ": SQ DUP \\ twice\n* ; 3 SQ FOO") .fresh r' ∧
        Twin Engine.SameButJournal Eq r r' := by
  let e₁ := engine ((feed {} 100 ": SQ DUP \\ twice").run .fresh)
  have ha : (feed {} 100 ": SQ DUP \\ twice").run .fresh = .ok () e₁ := by decide +kernel
  have hb : Token.ofText "* ; 3 SQ FOO" = .ok ["*", ";", "3", "SQ", "FOO"] := by decide +kernel
  have hjoined : ": SQ DUP \\ twice" ++ "\n" ++ "* ; 3 SQ FOO" =
      ": SQ DUP \\ twice\n* ; 3 SQ FOO" := by decide +kernel
  refine ⟨e₁, ha, by decide +kernel, by decide +kernel, ?_⟩
  rw [← hjoined]
  exact (cut_between_lines .fresh {}).1 ha hb

end Forthlet
