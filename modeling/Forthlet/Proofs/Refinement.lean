import Forthlet.Proofs.Session
import Forthlet.Proofs.Vocabulary

/-!
# A defined word runs as its body

Reading the tokens of a body between a colon and a semicolon adds one word, the
layout of the body. Running it, from any stack, among any loops and at any depth,
is what `Block.run` makes of the body, faults included.
-/
namespace Forthlet

open Outcome Run

/-- The word that a definition of `name` with this body adds. -/
def Block.toWord (name : String) (b : Block) : Word :=
  ⟨Text.upper name, .compiled (b.layout 0).toArray, false⟩

/-- The engine after a definition of `name` with this body. -/
def Engine.defined (e : Engine) (name : String) (b : Block) : Engine :=
  Engine.note (.defined (Text.upper name) b.size) { e with dict := e.dict.add (b.toWord name) }

/-- A semicolon behind a whole body adds the word with this body. -/
theorem run_tokens_closing {e : Engine} {k : Nat} (hd : e.draft = none)
    (hk : e.dict.find? ";" = some k) (hw : e.dict.get? k = some (Word.ofBuiltin .semicolon))
    (name : String) (b : Block) (lim : Limits) (fuel : Nat) :
    (tokens lim fuel [";"]).run (e.defining name ⟨[], b⟩) = .ok () (e.defined name b) := by
  have hfinish : (Outline.draft (Text.upper name) ⟨[], b⟩).finish = .ok (b.toWord name) :=
    Outline.draft_finish (Text.upper name) b
  have hsize : (Outline.draft (Text.upper name) ⟨[], b⟩).code.size = b.size := by
    simp [Outline.draft, Outline.code, Outline.opening]
  have hsemicolon : ";" ≠ ":" := by decide
  rw [tokens_cons hsemicolon, EStateM.run_bind, run_token_closing hk hw,
    Primitive.run_finishDraft_ok rfl hfinish, hsize]
  obtain ⟨_, _, _, _, _, _⟩ := e
  cases hd
  rfl

section
variable {e : Engine} {name line : String} {ts : List String} {b : Block} {k : Nat}
  {x : Numeral.Error} (hd : e.draft = none) (hk : e.dict.find? ";" = some k)
  (hw : e.dict.get? k = some (Word.ofBuiltin .semicolon)) (hn : Numeral.parse name = .error x)
include hd hk hw hn

theorem run_tokens_define (hb : List.Forall₂ (e.dict.Adds name) ts b.pieces) (lim : Limits)
    (fuel : Nat) :
    (tokens lim fuel (":" :: name :: (ts ++ [";"]))).run e = .ok () (e.defined name b) := by
  have htake : Outline.start.takeAll b.pieces = .ok ⟨[], b⟩ := Outline.takeAll_start_iff.mpr rfl
  rw [run_tokens_colon hd hn, run_tokens_takeAll hb htake]
  exact run_tokens_closing hd hk hw name b lim fuel

theorem run_feed_define (hb : List.Forall₂ (e.dict.Adds name) ts b.pieces)
    (hline : Token.ofText line = .ok (":" :: name :: (ts ++ [";"]))) (lim : Limits)
    (fuel : Nat) : (feed lim fuel line).run e = .ok () (e.defined name b) := by
  rw [run_feed, hline, EStateM.run_bind, run_lift_ok]
  simp only [run_tokens_define hd hk hw hn hb lim fuel]
  rfl

end

/-- The atoms of a body that was read are sound, because words that run at once are not called. -/
theorem sound_of_reads {d : Dictionary} {name : String} {ts : List String} {b : Block}
    (hd : d.Sound) (hb : List.Forall₂ (d.Reads name) ts b.pieces) : ∀ a ∈ b.atoms, a.Sound d := by
  intro a ha
  obtain ⟨t, hr⟩ := exists_of_forall₂ hb (Block.mem_pieces_of_mem_atoms ha)
  cases hr with
  | number _ _ _ _ => trivial
  | word _ _ hget himmediate => exact hd.callable hget himmediate
  | own _ _ _ => trivial
  | control _ hp => exact Builtin.sound_of_piece? hp d

/-- A definition of a body adds one word under its name. Whatever is on the stacks and however
deep the word runs, it ends as its body does: with the same engine, or with the same fault and
the same engine at that moment. -/
theorem word_refines_body {e : Engine} {name line : String} {ts : List String} {b : Block}
    {x : Numeral.Error} (h : Reachable e) (hd : e.draft = none) (hs : e.dict.Standard)
    (hn : Numeral.parse name = .error x) (hb : List.Forall₂ (e.dict.Reads name) ts b.pieces)
    (hline : Token.ofText line = .ok (":" :: name :: (ts ++ [";"]))) (lim : Limits) (fuel : Nat) :
    ∃ e' position, (feed lim fuel line).run e = .ok () e' ∧
      e'.dict.find? name = some position ∧
      ∀ (lim : Limits) (depth : Nat) (stack : List Int) (loops : List Frame), ∃ r,
        Settles (fun n => word lim n depth position) { e' with stack, loops } r ∧
        Settles (fun n => b.run lim n (Text.upper name) depth) { e' with stack, loops } r := by
  obtain ⟨k, hk, hsemicolon⟩ := hs.find? (Or.inl rfl) (Builtin.upper_name .semicolon)
  have hadds := hb.imp fun _ _ hr => hr.adds hs
  have hrun := run_feed_define hd hk hsemicolon hn hadds hline lim fuel
  have hfind : (e.defined name b).dict.find? name = some e.dict.size := Dictionary.find?_add rfl
  refine ⟨e.defined name b, e.dict.size, hrun, hfind, fun lim depth stack loops => ?_⟩
  have hdict := h.ready.sound.dict
  have hatoms := sound_of_reads hdict hb
  have hget : (e.dict.add (b.toWord name)).get? e.dict.size = some (b.toWord name) := by
    rw [Dictionary.get?_add, if_pos rfl]
  have halike : Alike (fun n => word lim n depth e.dict.size)
      (fun n => b.run lim n (b.toWord name).name depth)
      { e.defined name b with stack, loops } :=
    word_alike_run (hdict.add hatoms _ _) hget rfl fun a ha => (hatoms a ha).add _
  obtain ⟨r, hword, hbody, _⟩ := halike
  exact ⟨r, hword, hbody⟩

/-- The body `DUP IF 1 - RECURSE THEN`, with the positions of `DUP` and `-` in a fresh engine. -/
def countdown : Block :=
  .ifThen (.atom .empty (.call (.entry 21)))
    (.atom (.atom (.atom .empty (.lit 1)) (.call (.entry 11))) (.call .itself))

theorem word_refines_countdown :
    ∃ e' position, (feed {} 0 ": X DUP IF 1 - RECURSE THEN ;").run .fresh = .ok () e' ∧
      e'.dict.find? "X" = some position ∧
      ∀ (lim : Limits) (depth : Nat) (stack : List Int) (loops : List Frame), ∃ r,
        Settles (fun n => word lim n depth position) { e' with stack, loops } r ∧
        Settles (fun n => countdown.run lim n (Text.upper "X") depth)
          { e' with stack, loops } r := by
  have hdup : Engine.fresh.dict.Reads "X" "DUP" (.atom (.call (.entry 21))) :=
    .word (by decide) (by decide +kernel) rfl rfl
  have hif : Engine.fresh.dict.Reads "X" "IF" .ifWord :=
    .control (Builtin.upper_name .ifWord) rfl
  have hone : Engine.fresh.dict.Reads "X" "1" (.atom (.lit 1)) :=
    .number (by decide +kernel) (by decide +kernel) rfl (by decide)
  have hminus : Engine.fresh.dict.Reads "X" "-" (.atom (.call (.entry 11))) :=
    .word (by decide) (by decide +kernel) rfl rfl
  have hrecurse : Engine.fresh.dict.Reads "X" "RECURSE" (.atom (.call .itself)) :=
    .control (Builtin.upper_name .recurse) rfl
  have hthen : Engine.fresh.dict.Reads "X" "THEN" .thenWord :=
    .control (Builtin.upper_name .thenWord) rfl
  have hbody : List.Forall₂ (Engine.fresh.dict.Reads "X")
      ["DUP", "IF", "1", "-", "RECURSE", "THEN"] countdown.pieces :=
    .cons hdup (.cons hif (.cons hone (.cons hminus (.cons hrecurse (.cons hthen .nil)))))
  have hline : Token.ofText ": X DUP IF 1 - RECURSE THEN ;" =
      .ok (":" :: "X" :: (["DUP", "IF", "1", "-", "RECURSE", "THEN"] ++ [";"])) := by
    decide +kernel
  have hx : Numeral.parse "X" = .error (.notANumber "X") := rfl
  exact word_refines_body .fresh rfl Dictionary.standard_builtins hx hbody hline {} 0

end Forthlet
