import Forthlet.Proofs.Agreement
import Forthlet.Proofs.Arithmetic
import Forthlet.Proofs.Diagrams
import Forthlet.Proofs.ReadBack

/-!
# Effects on the stack

A body of words that only compute makes one stack of another, or fails and leaves one. What it makes
of a stack is found along the body, one word after the other. A word that was defined with this body
then does the same in every line that ends with its name.
-/
namespace Forthlet

open Outcome Run

/-- How an action ends that has touched nothing but the stack. -/
def Engine.ends (e : Engine) : EStateM.Result Fault (List Int) Unit → Outcome Unit
  | .ok () s => .ok () { e with stack := s }
  | .error f s => .error (.fault f) { e with stack := s }

/-- From the stack `s`, with all else as in the engine, the action makes this of the stack. -/
def Engine.Yields (e : Engine) (m : Run Unit) (s : List Int)
    (x : EStateM.Result Fault (List Int) Unit) : Prop :=
  m.run { e with stack := s } = e.ends x

/-- A call of a built-in word. -/
def Builtin.atom (b : Builtin) : Atom := .call (.entry b.position)

/-- The built-in words are where they are in a fresh dictionary. -/
def Dictionary.Equipped (d : Dictionary) : Prop :=
  ∀ b : Builtin, d.get? b.position = some (Word.ofBuiltin b)

theorem Dictionary.equipped_builtins : builtins.Equipped := fun b => (builtins_position b).2

theorem Dictionary.Equipped.add {d : Dictionary} (h : d.Equipped) (w : Word) :
    (d.add w).Equipped := by
  intro b
  rw [get?_add, if_neg (Nat.ne_of_lt (get?_lt (h b))), h b]

namespace Limits

/-- The machine has room for the bound that was chosen. -/
def Roomy (lim : Limits) : Prop := ∀ k, lim.nesting = some k → lim.maxDepth ≤ k

/-- A word may run that many times inside itself. -/
def Admits (lim : Limits) (name : String) (depth calls : Nat) : Prop :=
  ∀ k < calls, lim.checkDepth (depth + k) name = .ok ()

variable {lim : Limits} {name : String} {depth calls : Nat}

theorem Roomy.checkDepth (h : lim.Roomy) (name : String) (depth : Nat) :
    lim.checkDepth depth name =
      if lim.maxDepth ≤ depth then .error (.depthExceeded name) else .ok () := by
  unfold Limits.checkDepth
  split
  · rfl
  · next hdepth =>
      cases hnesting : lim.nesting with
      | none => rfl
      | some k =>
          have hk := h k hnesting
          have hlt : ¬k ≤ depth := by omega
          simp [hlt]

theorem Roomy.admits (h : lim.Roomy) (hle : depth + calls ≤ lim.maxDepth) :
    lim.Admits name depth calls := by
  intro k hk
  rw [h.checkDepth, if_neg (by omega)]

theorem Admits.first (h : lim.Admits name depth (calls + 1)) :
    lim.checkDepth depth name = .ok () := h 0 (Nat.succ_pos _)

theorem Admits.rest (h : lim.Admits name depth (calls + 1)) :
    lim.Admits name (depth + 1) calls := by
  intro k hk
  rw [Nat.add_right_comm]
  exact h (k + 1) (Nat.succ_lt_succ hk)

end Limits

namespace Block

/-- What calls do in this body, with `depth` words running that have not returned. -/
def calls (b : Block) (lim : Limits) (fuel : Nat) (name : String) (depth : Nat) : Callee → Run Unit
  | .entry k => word lim fuel depth k
  | .itself => b.run lim fuel name depth

theorem run_eq_calls (b : Block) (lim : Limits) (fuel : Nat) (name : String) (depth : Nat) :
    b.run lim fuel name depth = (do
      lift (lim.checkDepth depth name)
      b.eval (b.calls lim fuel name (depth + 1))) := by
  rw [run_eq]
  rfl

theorem eval_ifThen (call : Callee → Run Unit) (b c : Block) :
    (b.ifThen c).eval call = (b.ifElse c .empty).eval call := rfl

end Block

namespace Engine.Yields

variable {e : Engine} {m m' : Run Unit} {s s' : List Int} {f : Fault} {n : Int}
  {x : EStateM.Result Fault (List Int) Unit}

theorem bind (h : e.Yields m s (.ok () s')) (h' : e.Yields m' s' x) :
    e.Yields (do m; m') s x := by
  unfold Yields
  rw [EStateM.run_bind, h]
  exact h'

theorem bind_error (h : e.Yields m s (.error f s')) : e.Yields (do m; m') s (.error f s') := by
  unfold Yields
  rw [EStateM.run_bind, h]
  rfl

theorem shuffle {w : Shuffle} (h : w.apply s = some s') :
    e.Yields (Primitive.exec (.shuffle w)) s (.ok () s') := by
  unfold Yields
  rw [Primitive.run_shuffle]
  simp only [h]
  rfl

theorem binary {op : Cell.Binary} {a b : Int} (h : op.apply a b = .ok n) :
    e.Yields (Primitive.exec (.binary op)) (b :: a :: s) (.ok () (n :: s)) := by
  have happly : Computes { e with stack := b :: a :: s } s op (op.apply a b) :=
    Primitive.computes_apply op rfl
  rw [h] at happly
  exact happly

theorem binary_error {op : Cell.Binary} {a b : Int} (h : op.apply a b = .error f) :
    e.Yields (Primitive.exec (.binary op)) (b :: a :: s) (.error f s) := by
  have happly : Computes { e with stack := b :: a :: s } s op (op.apply a b) :=
    Primitive.computes_apply op rfl
  rw [h] at happly
  exact happly

section
variable {call : Callee → Run Unit} {a : Atom} {as : List Atom} {b c d : Block}

theorem nil : e.Yields ((Block.ofAtoms []).eval call) s (.ok () s) := rfl

theorem cons (h : e.Yields (a.eval call) s (.ok () s'))
    (h' : e.Yields ((Block.ofAtoms as).eval call) s' x) :
    e.Yields ((Block.ofAtoms (a :: as)).eval call) s x := by
  rw [Block.eval_ofAtoms] at h' ⊢
  exact h.bind h'

theorem cons_error (h : e.Yields (a.eval call) s (.error f s')) :
    e.Yields ((Block.ofAtoms (a :: as)).eval call) s (.error f s') := by
  rw [Block.eval_ofAtoms]
  exact h.bind_error

theorem single (h : e.Yields (a.eval call) s x) :
    e.Yields ((Block.ofAtoms [a]).eval call) s x := by
  cases x with
  | ok _ s' => exact h.cons nil
  | error f s' => exact h.cons_error

theorem lit : e.Yields ((Atom.lit n).eval call) s (.ok () (n :: s)) := rfl

theorem ifElse (hb : e.Yields (b.eval call) s (.ok () (n :: s')))
    (hcd : e.Yields ((if n ≠ 0 then c else d).eval call) s' x) :
    e.Yields ((b.ifElse c d).eval call) s x := by
  unfold Yields
  have hpop : pop.run { e with stack := n :: s' } = .ok n { e with stack := s' } :=
    run_pop_cons rfl
  rw [Block.eval, EStateM.run_bind, hb]
  simp only [ends, EStateM.run_bind, hpop]
  split
  · next hn => rwa [if_pos hn] at hcd
  · next hn => rwa [if_neg hn] at hcd

theorem ifThen (hb : e.Yields (b.eval call) s (.ok () (n :: s')))
    (hc : e.Yields ((if n ≠ 0 then c else .empty).eval call) s' x) :
    e.Yields ((b.ifThen c).eval call) s x := by
  rw [Block.eval_ifThen]
  exact hb.ifElse hc

end

section
variable {lim : Limits} {fuel depth : Nat} {name : String} {b : Block}

theorem builtin {w : Builtin} (hd : e.dict.Equipped) (h : e.Yields (Primitive.exec w) s x) :
    e.Yields (w.atom.eval (b.calls lim fuel name depth)) s x := by
  have hget : ({ e with stack := s } : Engine).dict.get? w.position = some (Word.ofBuiltin w) :=
    hd w
  exact (run_word_builtin hget rfl).trans h

theorem run (hk : lim.checkDepth depth name = .ok ())
    (h : e.Yields (b.eval (b.calls lim fuel name (depth + 1))) s x) :
    e.Yields (b.run lim fuel name depth) s x := by
  rw [Block.run_eq_calls, hk]
  exact h

theorem run_error (hk : lim.checkDepth depth name = .error f) :
    e.Yields (b.run lim fuel name depth) s (.error f s) := by
  rw [Block.run_eq_calls, hk]
  rfl

end

end Engine.Yields

theorem Token.ofText_intercalate {ts : List String} (h : ∀ t ∈ ts, IsToken t) :
    ofText (" ".intercalate ts) = .ok ts := by
  rw [ofText, read_of_spaced (spaced_intercalate ts) h]
  rfl

/-- The line that writes down numbers and calls a word behind them. -/
def callLine (ns : List Int) (name : String) : String :=
  " ".intercalate (ns.map toString ++ [name])

theorem ofText_callLine (ns : List Int) {name : String} (h : Token.IsToken name) :
    Token.ofText (callLine ns name) = .ok (ns.map toString ++ [name]) := by
  refine Token.ofText_intercalate fun t ht => ?_
  rcases List.mem_append.mp ht with ht | ht
  · obtain ⟨n, -, rfl⟩ := List.mem_map.mp ht
    exact Numeral.isToken_toString n
  · rwa [List.mem_singleton.mp ht]

example : callLine [12, -18] "GCD" = "12 -18 GCD" := by decide +kernel

/-- The line is given up with this fault. The cells that were on the stack are still there, the
words are the same, and nothing is left running or being defined. -/
def Engine.GivesUp (e : Engine) (lim : Limits) (line : String) (f : Fault) : Prop :=
  ∃ t e', Settles (fun n => feed lim n line) e (.error (.fault f) e') ∧
    e'.stack = t ++ e.stack ∧ e'.dict = e.dict ∧ e'.draft = none ∧ e'.loops = []

/-- The name finds a word with this body, and the engine is ready to run it. -/
structure Engine.Knows (e : Engine) (name : String) (b : Block) : Prop where
  sound : e.dict.Sound
  equipped : e.dict.Equipped
  named : e.program.Named
  draft : e.draft = none
  found : ∃ position, e.dict.find? name = some position ∧
    e.dict.get? position = some (b.toWord name)
  atoms : ∀ a ∈ b.atoms, a.Sound e.dict

namespace Engine.Knows

variable {e e' : Engine} {name : String} {b : Block} {lim : Limits} {s : List Int}
  {x : EStateM.Result Fault (List Int) Unit}

theorem of_dict (h : e.Knows name b) (hdict : e'.dict = e.dict) (hdraft : e'.draft = none) :
    e'.Knows name b where
  sound := hdict ▸ h.sound
  equipped := hdict ▸ h.equipped
  named := by
    have hprogram : e'.program = e.program := by
      rw [program, program, hdict, hdraft, h.draft]
    rw [hprogram]
    exact h.named
  draft := hdraft
  found := hdict ▸ h.found
  atoms := hdict ▸ h.atoms

/-- The name alone, as a token, does what the body does. -/
theorem settles_name (h : e.Knows name b) (hcolon : name ≠ ":")
    (hy : ∀ fuel, e.Yields (b.run lim fuel (Text.upper name) 0) s x) :
    Settles (fun n => tokens lim n [name]) { e with stack := s } (e.ends x) := by
  obtain ⟨position, hfind, hget⟩ := h.found
  have halike : Alike (fun n => word lim n 0 position) (fun n => b.run lim n (Text.upper name) 0)
      { e with stack := s } :=
    word_alike_run (e := { e with stack := s }) h.sound hget rfl h.atoms
  obtain ⟨r, hword, hbody, -⟩ := halike
  have hended : Ended (e.ends x) := by
    cases x <;> trivial
  rw [hbody.unique ⟨hended, 0, fun fuel _ => hy fuel⟩] at hword
  refine hword.congr fun n => ?_
  have hdraft : ({ e with stack := s } : Engine).draft = none := h.draft
  rw [run_tokens_singleton hcolon, run_token_word hdraft hfind]

/-- The body finds the numbers on the stack that stand before the name in a line. -/
theorem settles_call (h : e.Knows name b) (hname : Token.IsToken name) (hcolon : name ≠ ":")
    {ns : List Int} (hns : ∀ n ∈ ns, Cell.InRange n)
    (hy : ∀ fuel, e.Yields (b.run lim fuel (Text.upper name) 0) (ns.reverse ++ e.stack) x) :
    Settles (fun n => feed lim n (callLine ns name)) e
      (recover (callLine ns name) (e.ends x)) := by
  have hnumbers : (tokens lim 0 (ns.map toString)).run e =
      .ok () { e with stack := ns.reverse ++ e.stack } := run_tokens_decimals h.named h.draft hns
  exact ((h.settles_name hcolon hy).tokens_append hnumbers).feed (ofText_callLine ns hname)

theorem givesUp (h : e.Knows name b) (hname : Token.IsToken name) (hcolon : name ≠ ":")
    {ns : List Int} (hns : ∀ n ∈ ns, Cell.InRange n) {f : Fault} (hf : f.recovers = true)
    {t : List Int} (hy : ∀ fuel, e.Yields (b.run lim fuel (Text.upper name) 0)
      (ns.reverse ++ e.stack) (.error f (t ++ e.stack))) :
    e.GivesUp lim (callLine ns name) f := by
  have hsettles := h.settles_call hname hcolon hns hy
  simp only [ends, recover, hf, if_true] at hsettles
  exact ⟨t, _, hsettles, reset_stack _, reset_dict _, rfl, rfl⟩

end Engine.Knows

section
variable {e : Engine} {name line : String} {ts : List String} {b : Block} {x : Numeral.Error}

/-- A text that defines a word makes it known. -/
theorem Engine.knows_defined (h : Reachable e) (hd : e.draft = none) (hs : e.dict.Standard)
    (hq : e.dict.Equipped) (hn : Numeral.parse name = .error x)
    (hb : List.Forall₂ (e.dict.Reads name) ts b.pieces)
    (hline : Token.ofText line = .ok (":" :: name :: (ts ++ [";"]))) :
    (∀ lim fuel, (feed lim fuel line).run e = .ok () (e.defined name b)) ∧
      (e.defined name b).Knows name b := by
  obtain ⟨k, hk, hsemicolon⟩ := hs.find? (Or.inl rfl) (Builtin.upper_name .semicolon)
  have hadds := hb.imp fun _ _ hr => hr.adds hs
  have hrun : ∀ lim fuel, (feed lim fuel line).run e = .ok () (e.defined name b) :=
    run_feed_define hd hk hsemicolon hn hadds hline
  have hatoms := sound_of_reads h.ready.sound.dict hb
  have hreach : Reachable (engine ((feed {} 0 line).run e)) :=
    .feed {} 0 line h (by rw [hrun]; trivial)
  rw [hrun] at hreach
  refine ⟨hrun, ?_⟩
  exact {
    sound := hreach.ready.sound.dict
    equipped := hq.add _
    named := hreach.named
    draft := hd
    found := ⟨e.dict.size, Dictionary.find?_add rfl, e.get?_defined name b⟩
    atoms := fun a ha => (hatoms a ha).add _ }

end

namespace Dictionary.Reads

variable {b : Builtin} {name : String}

/-- In a fresh engine the name of a word that is not a compiling word stands for a call of it. -/
theorem of_builtin (h : b.isCompiling = false) : builtins.Reads name b.name (.atom b.atom) := by
  obtain ⟨hfind, hget⟩ := builtins_position b
  refine .word (fun hcolon => b.upper_colon_ne ?_) hfind hget h
  rw [← hcolon, b.upper_name]

theorem of_piece {p : Piece} (hp : b.piece? = some p) : builtins.Reads name b.name p :=
  .control b.upper_name hp

end Dictionary.Reads

end Forthlet
