import Forthlet.Proofs.Block
import Forthlet.Proofs.Conduct

/-!
# Code runs as the tree it lays out

Wherever code holds the layout of a body, a run that enters the layout at its
start does what the body means and goes on at the address behind it. The callees
only have to settle on neat outcomes: a loop relies on finding its own frame on
top when its round is over.
-/
namespace Forthlet

namespace Code

/-- The instructions stand in the code, one after the other from address `base` on. -/
def Holds (instrs : Code) (base : Nat) (is : List (Instr Callee)) : Prop :=
  ∀ k, k < is.length → instrs[base + k]? = is[k]?

variable {instrs : Code} {base : Nat} {i : Instr Callee} {is js : List (Instr Callee)}

theorem holds_toArray (is : List (Instr Callee)) : Holds is.toArray 0 is := by
  intro k _
  simp

theorem Holds.left (h : instrs.Holds base (is ++ js)) : instrs.Holds base is := by
  intro k hk
  rw [h k (by rw [List.length_append]; omega), List.getElem?_append_left hk]

theorem Holds.right (h : instrs.Holds base (is ++ js)) : instrs.Holds (base + is.length) js := by
  intro k hk
  have hat := h (is.length + k) (by rw [List.length_append]; omega)
  rw [List.getElem?_append_right (by omega), Nat.add_sub_cancel_left] at hat
  rw [Nat.add_assoc, hat]

theorem Holds.head (h : instrs.Holds base (i :: is)) : instrs.fetch? (base : Int) = some i := by
  simpa using h 0 (by simp)

theorem Holds.tail (h : instrs.Holds base (i :: is)) : instrs.Holds (base + 1) is := by
  have hi : instrs.Holds base ([i] ++ is) := h
  exact hi.right

-- The layout counts from the start of each part, the rules for the parts count along the code.
section
variable {b c y n : Block}

theorem Holds.atom {a : Atom} (h : instrs.Holds base ((b.atom a).layout base)) :
    instrs.Holds base (b.layout base) ∧
    instrs.fetch? ((base + b.size : Nat) : Int) = some a.instr := by
  have hat := h.right.head
  rw [Block.length_layout] at hat
  exact ⟨h.left, hat⟩

theorem Holds.ifThen (h : instrs.Holds base ((b.ifThen c).layout base)) :
    instrs.Holds base (b.layout base) ∧
    instrs.fetch? ((base + b.size : Nat) : Int) =
      some (.branchIfZero (some ((base + b.size + (c.size + 1) : Nat) : Int))) ∧
    instrs.Holds (base + b.size + 1) (c.layout (base + b.size + 1)) := by
  have htest := h.right.head
  have hc := h.right.tail
  rw [Block.length_layout] at htest hc
  exact ⟨h.left, htest, hc⟩

theorem Holds.ifElse (h : instrs.Holds base ((b.ifElse y n).layout base)) :
    instrs.Holds base (b.layout base) ∧
    instrs.fetch? ((base + b.size : Nat) : Int) =
      some (.branchIfZero (some ((base + b.size + 1 + y.size + 1 : Nat) : Int))) ∧
    instrs.Holds (base + b.size + 1) (y.layout (base + b.size + 1)) ∧
    instrs.fetch? ((base + b.size + 1 + y.size : Nat) : Int) =
      some (.branch (some ((base + b.size + 1 + y.size + 1 + n.size : Nat) : Int))) ∧
    instrs.Holds (base + b.size + 1 + y.size + 1)
      (n.layout (base + b.size + 1 + y.size + 1)) := by
  have htest := h.left.right.head
  have hy := h.left.right.tail
  have hskip := h.right.head
  have hn := h.right.tail
  simp only [List.length_append, List.length_cons, Block.length_layout] at htest hy hskip hn
  have hat : base + b.size + (y.size + 1) = base + b.size + 1 + y.size := by omega
  have hat' : base + (b.size + (y.size + 1)) = base + b.size + 1 + y.size := by omega
  have hafter : base + b.size + 1 + y.size + (n.size + 1) =
      base + b.size + 1 + y.size + 1 + n.size := by omega
  rw [hat] at htest hn
  rw [hat', hat, hafter] at hskip
  rw [hat'] at hn
  exact ⟨h.left.left, htest, hy, hskip, hn⟩

theorem Holds.doLoop (h : instrs.Holds base ((b.doLoop c).layout base)) :
    instrs.Holds base (b.layout base) ∧
    instrs.fetch? ((base + b.size : Nat) : Int) =
      some (.enterLoop (some ((base + b.size + 1 + c.size + 1 : Nat) : Int))) ∧
    instrs.Holds (base + b.size + 1) (c.layout (base + b.size + 1)) ∧
    instrs.fetch? ((base + b.size + 1 + c.size : Nat) : Int) =
      some (.nextLoop ((base + b.size + 1 : Nat) : Int)) := by
  have hstart := h.left.right.head
  have hc := h.left.right.tail
  have hagain := h.right.head
  simp only [List.length_append, List.length_cons, Block.length_layout] at hstart hc hagain
  have hat : base + (b.size + (c.size + 1)) = base + b.size + 1 + c.size := by omega
  have hafter : base + b.size + (c.size + 1) + 1 = base + b.size + 1 + c.size + 1 := by omega
  rw [hat] at hagain
  rw [hafter] at hstart
  exact ⟨h.left.left, hstart, hc, hagain⟩

end

end Code

open Run

/-- What calls do in code of the word at `position`, run as the `depth`-th word. -/
abbrev Run.callIn (lim : Limits) (depth position fuel : Nat) (callee : Callee) : Run Unit :=
  word lim fuel depth (callee.position position)

namespace Block

section
variable {call call' : Nat → Callee → Run Unit} {e₀ e : Engine}

theorem round_alike {body body' : Nat → Run Unit} {frame : Frame}
    (h : Alike body body' { e with loops := frame :: e.loops }) :
    Alike (fun n => round frame (body n)) (fun n => round frame (body' n)) e := by
  obtain ⟨r, hb, hb', hn⟩ := h
  have hpush := Settles.const (run_pushFrame frame e) trivial
  cases r with
  | error s e' =>
      refine ⟨.error s e', hpush.bind_ok hb.bind_error, hpush.bind_ok hb'.bind_error, ?_⟩
      cases s with
      | fault f => exact ⟨hn.dict, hn.draft⟩
      | outOfFuel => exact hn
  | ok a e' =>
      have hl : e'.loops = frame :: e.loops := hn.2
      have hpop : Settles (fun _ => do let _ ← onLoops Frame.pop) e'
          (.ok () { e' with loops := e.loops }) :=
        .const (by rw [EStateM.run_bind, run_popFrame hl]; rfl) trivial
      exact ⟨_, hpush.bind_ok (hb.bind_ok hpop), hpush.bind_ok (hb'.bind_ok hpop),
        ⟨hn.1.dict, hn.1.draft⟩, rfl⟩

theorem rounds_alike {body body' : Nat → Run Unit} {limit : Int}
    (h : ∀ e, e₀.SameProgram e → Alike body body' e) (k : Nat) (i : Int)
    (he : e₀.SameProgram e) :
    Alike (fun n => rounds (body n) limit k i) (fun n => rounds (body' n) limit k i) e := by
  induction k generalizing i e with
  | zero => exact .of_tame (.pure ()) e
  | succ k ih =>
      have hr : Alike (fun n => round ⟨i, limit⟩ (body n))
          (fun n => round ⟨i, limit⟩ (body' n)) e :=
        round_alike (h _ (he.trans ⟨rfl, rfl⟩))
      exact hr.bind fun _ e' hs _ => ih (i + 1) (he.trans hs)

/-- A body whose callees settle alike settles alike, and neatly. -/
theorem eval_alike {b : Block}
    (hcall : ∀ c, .call c ∈ b.atoms → ∀ e, e₀.SameProgram e →
      Alike (fun n => call n c) (fun n => call' n c) e)
    (he : e₀.SameProgram e) :
    Alike (fun n => b.eval (call n)) (fun n => b.eval (call' n)) e := by
  induction b generalizing e with
  | empty => exact .of_tame (.pure ()) e
  | atom b a ih =>
      refine (ih (fun c hc => hcall c (by simp [atoms, hc])) he).bind fun _ e' hs _ => ?_
      cases a with
      | lit n => exact .of_tame (.push n) e'
      | call c => exact hcall c (by simp [atoms]) e' (he.trans hs)
      | index => exact .of_tame .loopIndex e'
  | ifThen b c ihb ihc =>
      refine (ihb (fun c hc => hcall c (by simp [atoms, hc])) he).bind fun _ e₁ hs₁ _ => ?_
      refine (Alike.of_tame .pop e₁).bind fun flag e₂ hs₂ _ => ?_
      by_cases hf : flag = 0
      · simpa [hf] using Alike.of_tame (.pure ()) e₂
      · simpa [hf] using
          ihc (fun c hc => hcall c (by simp [atoms, hc])) ((he.trans hs₁).trans hs₂)
  | ifElse b y n ihb ihy ihn =>
      refine (ihb (fun c hc => hcall c (by simp [atoms, hc])) he).bind fun _ e₁ hs₁ _ => ?_
      refine (Alike.of_tame .pop e₁).bind fun flag e₂ hs₂ _ => ?_
      have he₂ := (he.trans hs₁).trans hs₂
      by_cases hf : flag = 0
      · simpa [hf] using ihn (fun c hc => hcall c (by simp [atoms, hc])) he₂
      · simpa [hf] using ihy (fun c hc => hcall c (by simp [atoms, hc])) he₂
  | doLoop b c ihb ihc =>
      refine (ihb (fun c hc => hcall c (by simp [atoms, hc])) he).bind fun _ e₁ hs₁ _ => ?_
      refine (Alike.of_tame .pop e₁).bind fun start e₂ hs₂ _ => ?_
      refine (Alike.of_tame .pop e₂).bind fun limit e₃ hs₃ _ => ?_
      exact rounds_alike (fun _ h => ihc (fun c hc => hcall c (by simp [atoms, hc])) h) _ _
        (((he.trans hs₁).trans hs₂).trans hs₃)

end

section
variable {lim : Limits} {depth position : Nat} {instrs : Code} {e₀ e : Engine} {r : Outcome Unit}

/-- Whatever program like that of `e₀` runs, the code from address `base` on does what the body
means and then goes on behind it. -/
structure Realizes (lim : Limits) (depth position : Nat) (instrs : Code) (e₀ : Engine) (b : Block)
    (base : Nat) : Prop where
  alike : ∀ {e}, e₀.SameProgram e →
    Alike (fun n => b.eval (callIn lim depth position n))
      (fun n => b.eval (callIn lim depth position n)) e
  settles : ∀ {e r}, e₀.SameProgram e →
    Settles (fun n => do
      b.eval (callIn lim depth position n)
      code lim n depth position instrs ((base + b.size : Nat) : Int)) e r →
    Settles (fun n => code lim n depth position instrs (base : Int)) e r

/-- At the end of a round the frame is on top; it goes, or it comes back for the next round. -/
theorem settles_nextLoop {ip : Nat} {back i limit : Int} {loops : List Frame}
    (hi : instrs.fetch? (ip : Int) = some (.nextLoop back)) (hl : e.loops = ⟨i, limit⟩ :: loops)
    (h : Settles (fun n =>
      if i + 1 < limit then do
        onLoops (Stack.push ⟨i + 1, limit⟩)
        code lim n depth position instrs back
      else code lim n depth position instrs ((ip + 1 : Nat) : Int)) { e with loops } r) :
    Settles (fun n => code lim n depth position instrs (ip : Int)) e r := by
  refine .code_step hi (by simp) ?_
  simp only [step, bind_assoc]
  refine Settles.bind_ok (.const (run_popFrame hl) trivial) ?_
  by_cases hlt : i + 1 < limit
  · simp only [hlt, if_true, bind_assoc, pure_bind] at h ⊢
    exact h
  · simp only [hlt, if_false, pure_bind] at h ⊢
    exact h

section
variable {c : Block} {start : Nat} {limit : Int}
  (hc : Realizes lim depth position instrs e₀ c start)
  (hagain : instrs.fetch? ((start + c.size : Nat) : Int) = some (.nextLoop (start : Int)))
include hc hagain

/-- One round from the frame on, in front of anything that goes on as the loop does. -/
theorem settles_round {rest : Nat → Run Unit} {i : Int} (he : e₀.SameProgram e)
    (hrest : ∀ e, e₀.SameProgram e → Settles rest e r →
      Settles (fun n =>
        if i + 1 < limit then do
          onLoops (Stack.push ⟨i + 1, limit⟩)
          code lim n depth position instrs (start : Int)
        else code lim n depth position instrs ((start + c.size + 1 : Nat) : Int)) e r)
    (h : Settles (fun n => do
      round ⟨i, limit⟩ (c.eval (callIn lim depth position n))
      rest n) e r) :
    Settles (fun n => do
      onLoops (Stack.push ⟨i, limit⟩)
      code lim n depth position instrs (start : Int)) e r := by
  simp only [round, bind_assoc, pure_bind] at h
  have hpush := Settles.const (run_pushFrame ⟨i, limit⟩ e) trivial
  have he₁ : e₀.SameProgram { e with loops := ⟨i, limit⟩ :: e.loops } := he.trans ⟨rfl, rfl⟩
  refine hpush.bind_ok (hc.settles he₁ ?_)
  refine (hc.alike he₁).settles_bind (fun _ e₂ hs hl h₂ => ?_) (h.of_bind_ok hpush)
  refine settles_nextLoop hagain hl ?_
  exact hrest _ ((he₁.trans hs).trans ⟨rfl, rfl⟩)
    (h₂.of_bind_ok (.const (run_popFrame hl) trivial))

/-- The rounds that are left, from the frame of the next one on. -/
theorem settles_rounds (k : Nat) {i : Int} (hk : i + (k + 1 : Nat) = limit)
    (he : e₀.SameProgram e)
    (h : Settles (fun n => do
      rounds (c.eval (callIn lim depth position n)) limit (k + 1) i
      code lim n depth position instrs ((start + c.size + 1 : Nat) : Int)) e r) :
    Settles (fun n => do
      onLoops (Stack.push ⟨i, limit⟩)
      code lim n depth position instrs (start : Int)) e r := by
  -- The last round falls out of the loop, any other comes back with the next index.
  induction k generalizing i e with
  | zero =>
      simp only [rounds, bind_assoc, pure_bind] at h
      refine settles_round hc hagain he (fun e he hr => ?_) h
      have hlt : ¬i + 1 < limit := by omega
      simpa only [hlt, if_false] using hr
  | succ k ih =>
      have hr : Settles (fun n => do
          round ⟨i, limit⟩ (c.eval (callIn lim depth position n))
          rounds (c.eval (callIn lim depth position n)) limit (k + 1) (i + 1)
          code lim n depth position instrs ((start + c.size + 1 : Nat) : Int)) e r :=
        h.congr fun n => by rw [← bind_assoc]; rfl
      refine settles_round hc hagain he (fun e he hr => ?_) hr
      have hlt : i + 1 < limit := by omega
      simp only [hlt, if_true]
      exact ih (by omega) he hr

end

section
variable {b c y : Block} {base : Nat} (hb : Realizes lim depth position instrs e₀ b base)
include hb

theorem Realizes.atom {a : Atom}
    (halike : ∀ {e}, e₀.SameProgram e →
      Alike (fun n => (b.atom a).eval (callIn lim depth position n))
        (fun n => (b.atom a).eval (callIn lim depth position n)) e)
    (hat : instrs.fetch? ((base + b.size : Nat) : Int) = some a.instr) :
    Realizes lim depth position instrs e₀ (b.atom a) base := by
  refine ⟨halike, fun {e r} he h => ?_⟩
  refine hb.settles he ?_
  simp only [eval, bind_assoc] at h
  refine (hb.alike he).settles_bind (fun _ e' _ _ hr => ?_) h
  cases a with
  | lit n =>
      refine .code_step hat (by simp [Atom.instr]) ?_
      simp only [Atom.instr, step, bind_assoc, pure_bind]
      exact hr
  | call c => exact .code_call hat hr
  | index =>
      refine .code_step hat (by simp [Atom.instr]) ?_
      simp only [Atom.instr, step, bind_assoc, pure_bind]
      exact hr

theorem Realizes.ifThen
    (halike : ∀ {e}, e₀.SameProgram e →
      Alike (fun n => (b.ifThen c).eval (callIn lim depth position n))
        (fun n => (b.ifThen c).eval (callIn lim depth position n)) e)
    (hc : Realizes lim depth position instrs e₀ c (base + b.size + 1))
    (htest : instrs.fetch? ((base + b.size : Nat) : Int) =
      some (.branchIfZero (some ((base + b.size + (c.size + 1) : Nat) : Int)))) :
    Realizes lim depth position instrs e₀ (b.ifThen c) base := by
  refine ⟨halike, fun {e r} he h => ?_⟩
  have hafter : base + (b.ifThen c).size = base + b.size + (c.size + 1) := by
    simp only [size]
    omega
  have hbody : base + b.size + (c.size + 1) = base + b.size + 1 + c.size := by omega
  rw [hafter] at h
  refine hb.settles he ?_
  simp only [eval, bind_assoc] at h
  refine (hb.alike he).settles_bind (fun _ e₁ hs₁ _ h₁ => ?_) h
  refine .code_step htest (by simp) ?_
  simp only [step, bind_assoc]
  refine (Alike.of_tame .pop e₁).settles_bind (fun flag e₂ hs₂ _ h₂ => ?_) h₁
  by_cases hf : flag = 0
  · simp only [hf, ne_eq, not_true_eq_false, if_false, if_true, jump, pure_bind] at h₂ ⊢
    exact h₂
  · simp only [hf, ne_eq, not_false_eq_true, if_true, if_false, pure_bind] at h₂ ⊢
    rw [hbody] at h₂
    exact hc.settles ((he.trans hs₁).trans hs₂) h₂

theorem Realizes.ifElse {n : Block}
    (halike : ∀ {e}, e₀.SameProgram e →
      Alike (fun k => (b.ifElse y n).eval (callIn lim depth position k))
        (fun k => (b.ifElse y n).eval (callIn lim depth position k)) e)
    (hy : Realizes lim depth position instrs e₀ y (base + b.size + 1))
    (hn : Realizes lim depth position instrs e₀ n (base + b.size + 1 + y.size + 1))
    (htest : instrs.fetch? ((base + b.size : Nat) : Int) =
      some (.branchIfZero (some ((base + b.size + 1 + y.size + 1 : Nat) : Int))))
    (hskip : instrs.fetch? ((base + b.size + 1 + y.size : Nat) : Int) =
      some (.branch (some ((base + b.size + 1 + y.size + 1 + n.size : Nat) : Int)))) :
    Realizes lim depth position instrs e₀ (b.ifElse y n) base := by
  refine ⟨halike, fun {e r} he h => ?_⟩
  have hafter : base + (b.ifElse y n).size = base + b.size + 1 + y.size + 1 + n.size := by
    simp only [size]
    omega
  rw [hafter] at h
  refine hb.settles he ?_
  simp only [eval, bind_assoc] at h
  refine (hb.alike he).settles_bind (fun _ e₁ hs₁ _ h₁ => ?_) h
  refine .code_step htest (by simp) ?_
  simp only [step, bind_assoc]
  refine (Alike.of_tame .pop e₁).settles_bind (fun flag e₂ hs₂ _ h₂ => ?_) h₁
  have he₂ := (he.trans hs₁).trans hs₂
  by_cases hf : flag = 0
  · simp only [hf, ne_eq, not_true_eq_false, if_false, if_true, jump, pure_bind] at h₂ ⊢
    exact hn.settles he₂ h₂
  · simp only [hf, ne_eq, not_false_eq_true, if_true, if_false, pure_bind] at h₂ ⊢
    refine hy.settles he₂ ?_
    refine (hy.alike he₂).settles_bind (fun _ e₃ _ _ h₃ => ?_) h₂
    refine .code_step hskip (by simp) ?_
    simp only [step, jump, pure_bind]
    exact h₃

theorem Realizes.doLoop
    (halike : ∀ {e}, e₀.SameProgram e →
      Alike (fun n => (b.doLoop c).eval (callIn lim depth position n))
        (fun n => (b.doLoop c).eval (callIn lim depth position n)) e)
    (hc : Realizes lim depth position instrs e₀ c (base + b.size + 1))
    (hstart : instrs.fetch? ((base + b.size : Nat) : Int) =
      some (.enterLoop (some ((base + b.size + 1 + c.size + 1 : Nat) : Int))))
    (hagain : instrs.fetch? ((base + b.size + 1 + c.size : Nat) : Int) =
      some (.nextLoop ((base + b.size + 1 : Nat) : Int))) :
    Realizes lim depth position instrs e₀ (b.doLoop c) base := by
  refine ⟨halike, fun {e r} he h => ?_⟩
  have hafter : base + (b.doLoop c).size = base + b.size + 1 + c.size + 1 := by
    simp only [size]
    omega
  rw [hafter] at h
  refine hb.settles he ?_
  simp only [eval, bind_assoc] at h
  refine (hb.alike he).settles_bind (fun _ e₁ hs₁ _ h₁ => ?_) h
  refine .code_step hstart (by simp) ?_
  simp only [step, bind_assoc]
  refine (Alike.of_tame .pop e₁).settles_bind (fun start e₂ hs₂ _ h₂ => ?_) h₁
  refine (Alike.of_tame .pop e₂).settles_bind (fun limit e₃ hs₃ _ h₃ => ?_) h₂
  have he₃ := ((he.trans hs₁).trans hs₂).trans hs₃
  by_cases hle : limit ≤ start
  · have hk : (limit - start).toNat = 0 := by omega
    simp only [hk, rounds, hle, if_true, jump, pure_bind] at h₃ ⊢
    exact h₃
  · obtain ⟨k, hk⟩ : ∃ k, (limit - start).toNat = k + 1 :=
      ⟨(limit - start).toNat - 1, by omega⟩
    simp only [hk] at h₃
    simp only [hle, if_false, bind_assoc, pure_bind]
    exact settles_rounds hc hagain k (by omega) he₃ h₃

end

/-- Code that holds the layout of a body realizes it. -/
theorem realizes_of_holds {b : Block} {base : Nat} (hb : instrs.Holds base (b.layout base))
    (hcall : ∀ c, .call c ∈ b.atoms → ∀ e, e₀.SameProgram e →
      Alike (fun n => callIn lim depth position n c) (fun n => callIn lim depth position n c) e) :
    Realizes lim depth position instrs e₀ b base := by
  induction b generalizing base with
  | empty => exact ⟨fun he => eval_alike hcall he, fun _ h => h⟩
  | atom b a ih =>
      obtain ⟨hb, hat⟩ := hb.atom
      have hcb : ∀ c, .call c ∈ b.atoms → _ := fun c hc => hcall c (by simp [atoms, hc])
      exact (ih hb hcb).atom (fun he => eval_alike hcall he) hat
  | ifThen b c ihb ihc =>
      obtain ⟨hb, htest, hc⟩ := hb.ifThen
      have hcb : ∀ c, .call c ∈ b.atoms → _ := fun c hc => hcall c (by simp [atoms, hc])
      have hcc : ∀ d, .call d ∈ c.atoms → _ := fun d hd => hcall d (by simp [atoms, hd])
      exact (ihb hb hcb).ifThen (fun he => eval_alike hcall he) (ihc hc hcc) htest
  | ifElse b y n ihb ihy ihn =>
      obtain ⟨hb, htest, hy, hskip, hn⟩ := hb.ifElse
      have hcb : ∀ c, .call c ∈ b.atoms → _ := fun c hc => hcall c (by simp [atoms, hc])
      have hcy : ∀ c, .call c ∈ y.atoms → _ := fun c hc => hcall c (by simp [atoms, hc])
      have hcn : ∀ c, .call c ∈ n.atoms → _ := fun c hc => hcall c (by simp [atoms, hc])
      exact (ihb hb hcb).ifElse (fun he => eval_alike hcall he) (ihy hy hcy) (ihn hn hcn) htest
        hskip
  | doLoop b c ihb ihc =>
      obtain ⟨hb, hstart, hc, hagain⟩ := hb.doLoop
      have hcb : ∀ c, .call c ∈ b.atoms → _ := fun c hc => hcall c (by simp [atoms, hc])
      have hcc : ∀ d, .call d ∈ c.atoms → _ := fun d hd => hcall d (by simp [atoms, hd])
      exact (ihb hb hcb).doLoop (fun he => eval_alike hcall he) (ihc hc hcc) hstart hagain

end

end Block

end Forthlet
