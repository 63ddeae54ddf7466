import Mathlib.Data.List.Forall2
import Forthlet.Proofs.Compilation
import Forthlet.Proofs.Digits
import Forthlet.Proofs.Grammar

/-!
# Tokens as pieces

As long as the words of control flow have not been redefined, each token of a
body stands for one piece, and reading the token while the definition is open
takes that piece. `Dictionary.Reads` says which tokens those are; the tokens of
a definition then do to the outline what its pieces do.
-/
namespace Forthlet

open Outcome

theorem Builtin.mem_all (b : Builtin) : b ∈ Builtin.all := by
  cases b with
  | binary op => cases op <;> decide
  | shuffle w => cases w <;> decide
  | _ => decide

theorem Builtin.upper_name (b : Builtin) : Text.upper b.name = b.name := by
  have hall : ∀ b ∈ Builtin.all, Text.upper b.name = b.name := by decide +kernel
  exact hall b b.mem_all

/-- The place of the word in a fresh dictionary. -/
def Builtin.position (b : Builtin) : Nat := Builtin.all.idxOf b

/-- A colon is no word. -/
theorem Builtin.upper_colon_ne (b : Builtin) : Text.upper ":" ≠ b.name := by
  have hall : ∀ b ∈ Builtin.all, Text.upper ":" ≠ b.name := by decide +kernel
  exact hall b b.mem_all

namespace Dictionary

/-- The words that end a definition or add a fixed piece to it are found under their names. -/
def Standard (d : Dictionary) : Prop :=
  ∀ b : Builtin, b = .semicolon ∨ b.piece?.isSome →
    ∃ position, d.find? b.name = some position ∧ d.get? position = some (Word.ofBuiltin b)

theorem builtins_position (b : Builtin) : builtins.find? b.name = some b.position ∧
    builtins.get? b.position = some (Word.ofBuiltin b) := by
  have hall : ∀ b ∈ Builtin.all, builtins.find? b.name = some b.position ∧
      builtins.get? b.position = some (Word.ofBuiltin b) := by
    decide +kernel
  exact hall b b.mem_all

theorem standard_builtins : builtins.Standard := fun b _ => ⟨_, builtins_position b⟩

/-- What a token in the body of the word `name` stands for: a number or the word itself if no
entry has that name, a call of a word that does not run at once, or a piece of its own. -/
inductive Reads (d : Dictionary) (name : String) : String → Piece → Prop
  | number {text : String} {n : Int} (hfind : d.find? text = none)
      (hname : Text.upper text ≠ Text.upper name) (hparse : Numeral.parse text = .ok n)
      (hrange : Cell.InRange n) : Reads d name text (.atom (.lit n))
  | word {text : String} {position : Nat} {w : Word} (hcolon : text ≠ ":")
      (hfind : d.find? text = some position) (hget : d.get? position = some w)
      (himmediate : w.immediate = false) : Reads d name text (.atom (.call (.entry position)))
  | own {text : String} (hcolon : text ≠ ":") (hfind : d.find? text = none)
      (hname : Text.upper text = Text.upper name) : Reads d name text (.atom (.call .itself))
  | control {text : String} {b : Builtin} {p : Piece} (hname : Text.upper text = b.name)
      (hpiece : b.piece? = some p) : Reads d name text p

/-- The only piece that a token can stand for. -/
def piece? (d : Dictionary) (name text : String) : Option Piece :=
  match d.find? text with
  | none =>
    if Text.upper text = Text.upper name then some (.atom (.call .itself))
    else (Numeral.parse text).toOption.map fun n => .atom (.lit n)
  | some position => match d.get? position with
    | none => none
    | some w =>
      if w.immediate then
        match w.body with
        | .builtin b => b.piece?
        | .compiled _ => none
      else some (.atom (.call (.entry position)))

theorem find?_of_upper {d : Dictionary} {text name : String}
    (h : Text.upper text = Text.upper name) : d.find? text = d.find? name := by
  rw [find?, find?, h]

theorem Standard.find? {d : Dictionary} {text : String} {b : Builtin} (hs : d.Standard)
    (hb : b = .semicolon ∨ b.piece?.isSome) (ht : Text.upper text = b.name) :
    ∃ position, d.find? text = some position ∧ d.get? position = some (Word.ofBuiltin b) := by
  rw [find?_of_upper (ht.trans b.upper_name.symm)]
  exact hs b hb

namespace Reads

variable {d : Dictionary} {name text : String} {p q : Piece}

theorem parse_colon {n : Int} : Numeral.parse ":" ≠ .ok n := by
  have hcolon : (Numeral.parse ":").toOption = none := by decide +kernel
  intro h
  rw [h] at hcolon
  cases hcolon

/-- A number in range is one in every body, unless it is the name of an entry. If it is the name
of the word that is being defined, it stands for that word. -/
theorem exists_of_number {n : Int} (hfind : d.find? text = none)
    (hparse : Numeral.parse text = .ok n) (hrange : Cell.InRange n) :
    ∃ p, d.Reads name text p := by
  by_cases hname : Text.upper text = Text.upper name
  · refine ⟨_, .own ?_ hfind hname⟩
    rintro rfl
    exact parse_colon hparse
  · exact ⟨_, .number hfind hname hparse hrange⟩

theorem ne_colon (h : d.Reads name text p) : text ≠ ":" := by
  rintro rfl
  cases h with
  | number _ _ hn _ => exact parse_colon hn
  | word hcolon _ _ _ => exact hcolon rfl
  | own hcolon _ _ => exact hcolon rfl
  | control hname _ => exact Builtin.upper_colon_ne _ hname

theorem piece? (hs : d.Standard) (h : d.Reads name text p) : d.piece? name text = some p := by
  cases h with
  | number hfind hname hparse _ => simp [Dictionary.piece?, hfind, hname, hparse, Except.toOption]
  | word _ hfind hget himmediate => simp [Dictionary.piece?, hfind, hget, himmediate]
  | own _ hfind hname => simp [Dictionary.piece?, hfind, hname]
  | control hname hp =>
      obtain ⟨k, hk, hw⟩ := hs.find? (Or.inr (by simp [hp])) hname
      simp [Dictionary.piece?, hk, hw, Word.ofBuiltin, Builtin.isCompiling_of_piece? hp, hp]

theorem unique (hs : d.Standard) (h : d.Reads name text p) (h' : d.Reads name text q) : p = q :=
  Option.some.inj ((h.piece? hs).symm.trans (h'.piece? hs))

end Reads

end Dictionary

/-- The engine in the midst of the definition of `name`, with an outline for what was read. -/
def Engine.defining (e : Engine) (name : String) (o : Outline) : Engine :=
  { e with draft := some (o.draft (Text.upper name)) }

namespace Run

variable {lim : Limits} {fuel : Nat} {e : Engine} {name text : String} {o o' : Outline}

theorem cellOf_of_parse {n : Int} (hparse : Numeral.parse text = .ok n) (h : Cell.InRange n) :
    cellOf text = .ok n := by
  have hc : Cell.check n = .ok n := by
    unfold Cell.check
    rw [if_pos h]
  unfold cellOf
  rw [hparse]
  simp only [hc]

end Run

namespace Dictionary

/-- While the word `name` is being defined over this dictionary, the token adds the piece. -/
structure Adds (d : Dictionary) (name text : String) (p : Piece) : Prop where
  ne_colon : text ≠ ":"
  run : ∀ {lim : Limits} {fuel : Nat} {e : Engine} {draft : Draft}, e.dict = d →
    e.draft = some draft → draft.name = Text.upper name →
    (Run.token lim fuel text).run e = (Run.compile draft p).run e

namespace Adds

variable {d : Dictionary} {name text : String} {position : Nat}

theorem number {n : Int} (hfind : d.find? text = none) (hname : Text.upper text ≠ Text.upper name)
    (hparse : Numeral.parse text = .ok n) (hrange : Cell.InRange n) :
    d.Adds name text (.atom (.lit n)) where
  ne_colon := by
    rintro rfl
    exact Reads.parse_colon hparse
  run he hd hn := by
    subst he
    rw [Run.run_token_literal hd hfind (hn ▸ hname), Run.cellOf_of_parse hparse hrange]
    rfl

theorem word {w : Word} (hcolon : text ≠ ":") (hfind : d.find? text = some position)
    (hget : d.get? position = some w) (himmediate : w.immediate = false) :
    d.Adds name text (.atom (.call (.entry position))) where
  ne_colon := hcolon
  run he hd _ := by
    subst he
    exact Run.run_token_call hd hfind hget himmediate

theorem own (hcolon : text ≠ ":") (hfind : d.find? text = none)
    (hname : Text.upper text = Text.upper name) : d.Adds name text (.atom (.call .itself)) where
  ne_colon := hcolon
  run he hd hn := by
    subst he
    exact Run.run_token_own hd hfind (hname.trans hn.symm)

/-- A compiling word adds its piece at once. -/
theorem builtin {b : Builtin} {p : Piece} (hfind : d.find? text = some position)
    (hget : d.get? position = some (Word.ofBuiltin b)) (hp : b.piece? = some p) :
    d.Adds name text p where
  ne_colon := by
    rintro rfl
    obtain ⟨w, hw, hname⟩ := get?_of_find? hfind
    rw [hget] at hw
    cases hw
    exact b.upper_colon_ne hname.symm
  run he hd _ := by
    subst he
    have himmediate : (Word.ofBuiltin b).immediate = true := Builtin.isCompiling_of_piece? hp
    rw [Run.run_token_immediate hd hfind hget himmediate, Run.run_word_builtin hget rfl,
      Run.run_exec_piece hp hd]

end Adds

/-- A token adds the piece that it stands for. -/
theorem Reads.adds {d : Dictionary} {name text : String} {p : Piece} (hs : d.Standard)
    (h : d.Reads name text p) : d.Adds name text p := by
  cases h with
  | number hfind hname hparse hrange => exact .number hfind hname hparse hrange
  | word hcolon hfind hget himmediate => exact .word hcolon hfind hget himmediate
  | own hcolon hfind hname => exact .own hcolon hfind hname
  | control hname hp =>
      obtain ⟨k, hk, hw⟩ := hs.find? (Or.inr (by simp [hp])) hname
      exact .builtin hk hw hp

end Dictionary

namespace Run

variable {lim : Limits} {fuel : Nat} {e : Engine} {name text : String} {o o' : Outline}

theorem run_token_take {p : Piece} (h : e.dict.Adds name text p) (ht : o.take p = .ok o') :
    (token lim fuel text).run (e.defining name o) = .ok () (e.defining name o') := by
  have htake : (o.draft (Text.upper name)).take p = .ok (o'.draft (Text.upper name)) := by
    rw [Outline.draft_take, ht]
    rfl
  have hrun : (token lim fuel text).run (e.defining name o) =
      (compile (o.draft (Text.upper name)) p).run (e.defining name o) := h.run rfl rfl rfl
  rw [hrun, run_compile_ok htake]
  rfl

theorem run_token_take_error {p : Piece} {f : Fault} (h : e.dict.Adds name text p)
    (ht : o.take p = .error f) :
    (token lim fuel text).run (e.defining name o) = .error (.fault f) (e.defining name o) := by
  have htake : (o.draft (Text.upper name)).take p = .error f := by
    rw [Outline.draft_take, ht]
    rfl
  have hrun : (token lim fuel text).run (e.defining name o) =
      (compile (o.draft (Text.upper name)) p).run (e.defining name o) := h.run rfl rfl rfl
  rw [hrun, run_compile_error htake]

/-- The tokens of a body take its pieces, and reading goes on behind them. -/
theorem run_tokens_takeAll {ts rest : List String} {ps : List Piece}
    (h : List.Forall₂ (e.dict.Adds name) ts ps) (ht : o.takeAll ps = .ok o') :
    (tokens lim fuel (ts ++ rest)).run (e.defining name o) =
      (tokens lim fuel rest).run (e.defining name o') := by
  induction h generalizing o with
  | nil =>
      cases ht
      rfl
  | cons hr _ ih =>
      obtain ⟨o₁, hp, hps⟩ := Outline.of_takeAll_cons ht
      rw [List.cons_append, tokens_cons hr.ne_colon, EStateM.run_bind, run_token_take hr hp]
      exact ih hps

/-- A colon and an acceptable name start an empty outline. -/
theorem run_tokens_colon {x : Numeral.Error} (hd : e.draft = none)
    (hn : Numeral.parse name = .error x) (rest : List String) :
    (tokens lim fuel (":" :: name :: rest)).run e =
      (tokens lim fuel rest).run (e.defining name .start) := by
  rw [tokens, EStateM.run_bind, run_startDraft_ok hd hn]
  rfl

/-- A semicolon ends the definition. -/
theorem run_token_closing {k : Nat} (hk : e.dict.find? ";" = some k)
    (hw : e.dict.get? k = some (Word.ofBuiltin .semicolon)) :
    (token lim fuel ";").run (e.defining name o) =
      Primitive.finishDraft.run (e.defining name o) := by
  have hrun : (token lim fuel ";").run (e.defining name o) =
      (word lim fuel 0 k).run (e.defining name o) := run_token_immediate rfl hk hw rfl
  have hword : (word lim fuel 0 k).run (e.defining name o) =
      (Primitive.exec .semicolon).run (e.defining name o) := run_word_builtin hw rfl
  rw [hrun, hword]
  rfl

theorem run_token_semicolon (hs : e.dict.Standard) :
    (token lim fuel ";").run (e.defining name o) =
      Primitive.finishDraft.run (e.defining name o) := by
  obtain ⟨k, hk, hw⟩ := hs.find? (Or.inl rfl) (Builtin.upper_name .semicolon)
  exact run_token_closing hk hw

end Run

end Forthlet
