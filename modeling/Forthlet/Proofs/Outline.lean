import Forthlet.Draft
import Forthlet.Proofs.Block

/-!
# Unfinished bodies as trees

While a definition is open its body is a tree with a path of open constructs. An
outline is such a tree: each piece of a body either adds an atom, opens a
construct or closes the innermost one. The drafts that the compiling words work
on are the layouts of outlines, with every target that is not known yet missing,
and `Outline.draft_take` says that the words treat the draft as the pieces treat
the outline.
-/
namespace Forthlet

/-- What a token of a body stands for. -/
inductive Piece where
  | atom (a : Atom)
  | ifWord | elseWord | thenWord | doWord | loopWord
  deriving DecidableEq, Repr

/-- An open construct, with the bodies that stand before its open end. -/
inductive Bracket where
  | ifThen (before : Block)
  | ifElse (before yes : Block)
  | doLoop (before : Block)
  deriving DecidableEq, Repr

/-- The open constructs, innermost first, and the body within all of them. -/
structure Outline where
  brackets : List Bracket
  inner : Block
  deriving DecidableEq, Repr

def Bracket.atoms : Bracket → List Atom
  | ifThen b => b.atoms
  | ifElse b y => b.atoms ++ y.atoms
  | doLoop b => b.atoms

namespace Outline

def atoms (o : Outline) : List Atom := o.brackets.flatMap Bracket.atoms ++ o.inner.atoms

def start : Outline := ⟨[], .empty⟩

def take (o : Outline) : Piece → Except Fault Outline
  | .atom a => .ok { o with inner := o.inner.atom a }
  | .ifWord => .ok ⟨.ifThen o.inner :: o.brackets, .empty⟩
  | .elseWord => match o.brackets with
    | .ifThen b :: bs => .ok ⟨.ifElse b o.inner :: bs, .empty⟩
    | _ => .error .elseWithoutIf
  | .thenWord => match o.brackets with
    | .ifThen b :: bs => .ok ⟨bs, b.ifThen o.inner⟩
    | .ifElse b y :: bs => .ok ⟨bs, b.ifElse y o.inner⟩
    | _ => .error .thenWithoutIf
  | .doWord => .ok ⟨.doLoop o.inner :: o.brackets, .empty⟩
  | .loopWord => match o.brackets with
    | .doLoop b :: bs => .ok ⟨bs, b.doLoop o.inner⟩
    | _ => .error .loopWithoutDo

/-- The code before the body within all brackets; the jump of each bracket has no target. -/
def opening : List Bracket → List (Instr Callee)
  | [] => []
  | .ifThen b :: bs =>
    opening bs ++ b.layout (opening bs).length ++ [.branchIfZero none]
  | .ifElse b y :: bs =>
    let test := (opening bs).length + b.size
    let skip := test + (y.size + 1)
    opening bs ++ b.layout (opening bs).length ++
      (.branchIfZero (some ((skip + 1 : Nat) : Int)) :: y.layout (test + 1)) ++ [.branch none]
  | .doLoop b :: bs =>
    opening bs ++ b.layout (opening bs).length ++ [.enterLoop none]

def sites : List Bracket → List Site
  | [] => []
  | .ifThen b :: bs => ⟨.ifWord, (opening bs).length + b.size⟩ :: sites bs
  | .ifElse b y :: bs => ⟨.elseWord, (opening bs).length + b.size + (y.size + 1)⟩ :: sites bs
  | .doLoop b :: bs => ⟨.doWord, (opening bs).length + b.size⟩ :: sites bs

def code (o : Outline) : List (Instr Callee) :=
  opening o.brackets ++ o.inner.layout (opening o.brackets).length

def draft (name : String) (o : Outline) : Draft :=
  ⟨name, o.code.toArray, sites o.brackets⟩

end Outline

/-- A piece adds no atom but itself. -/
theorem Outline.mem_atoms_of_take {o o' : Outline} {p : Piece} {a : Atom}
    (h : o.take p = .ok o') (ha : a ∈ o'.atoms) : a ∈ o.atoms ∨ p = .atom a := by
  obtain ⟨bs, c⟩ := o
  cases p with
  | atom b =>
      cases h
      simp only [atoms, Block.atoms, List.mem_append, List.mem_singleton] at ha ⊢
      grind
  | ifWord | doWord =>
      cases h
      left
      simpa [atoms, Bracket.atoms, Block.atoms, or_comm] using ha
  | elseWord | thenWord | loopWord =>
      simp only [take] at h
      split at h <;> cases h
      all_goals
        left
        simp only [atoms, List.flatMap_cons, Bracket.atoms, Block.atoms, List.mem_append] at ha ⊢
        grind

/-- What the words of a body do to the draft, by what the tokens stand for. -/
def Draft.take (d : Draft) : Piece → Except Fault Draft
  | .atom a => .ok (d.append a.instr)
  | .ifWord => .ok d.openIf
  | .elseWord => d.turnElse
  | .thenWord => d.closeThen
  | .doWord => .ok d.openDo
  | .loopWord => d.closeLoop

/-- Where an instruction jumps to, if it is a jump; the target may not be known yet. -/
def Instr.target? {γ : Type} : Instr γ → Option (Option Int)
  | branch target | branchIfZero target | enterLoop target => some target
  | nextLoop back => some (some back)
  | lit _ | call _ | index | unknown _ => none

/-- A piece brings into the code the instruction that it stands for, and jumps. -/
theorem Draft.mem_of_take {d d' : Draft} {p : Piece} {i : Instr Callee} (h : d.take p = .ok d')
    (hi : i ∈ d'.code) :
    i ∈ d.code ∨ (∃ a, p = .atom a ∧ i = a.instr) ∨ i.target?.isSome := by
  have hset : ∀ {c : Code} {a : Nat} {j : Instr Callee}, i ∈ c.setIfInBounds a j →
      j.target?.isSome → i ∈ c ∨ i.target?.isSome := by
    intro c a j hi hj
    rcases Array.mem_or_eq_of_mem_setIfInBounds hi with hi | rfl
    · exact .inl hi
    · exact .inr hj
  have hpush : ∀ {j : Instr Callee}, i ∈ d.code.push j → j.target?.isSome →
      i ∈ d.code ∨ i.target?.isSome := by
    intro j hi hj
    rcases Array.mem_push.mp hi with hi | rfl
    · exact .inl hi
    · exact .inr hj
  cases p with
  | atom a =>
      cases h
      rcases Array.mem_push.mp hi with hi | rfl
      · exact .inl hi
      · exact .inr (.inl ⟨a, rfl, rfl⟩)
  | ifWord | doWord =>
      cases h
      exact (hpush hi rfl).imp_right .inr
  | elseWord =>
      simp only [take, turnElse] at h
      split at h <;> cases h
      rcases hset hi rfl with hi | hi
      · exact (hpush hi rfl).imp_right .inr
      · exact .inr (.inr hi)
  | thenWord =>
      simp only [take, closeThen] at h
      split at h <;> cases h
      · exact (hset hi rfl).imp_right .inr
      · exact (hset hi rfl).imp_right .inr
  | loopWord =>
      simp only [take, closeLoop] at h
      split at h <;> cases h
      rcases hset hi rfl with hi | hi
      · exact (hpush hi rfl).imp_right .inr
      · exact .inr (.inr hi)

namespace Outline

theorem draft_atom (name : String) (o : Outline) (a : Atom) :
    (o.draft name).append a.instr = draft name { o with inner := o.inner.atom a } := by
  simp [draft, Draft.append, code, Block.layout]

theorem draft_openIf (name : String) (o : Outline) :
    (o.draft name).openIf = draft name ⟨.ifThen o.inner :: o.brackets, .empty⟩ := by
  simp [draft, Draft.openIf, Draft.openSite, code, opening, sites, Block.layout]

theorem draft_openDo (name : String) (o : Outline) :
    (o.draft name).openDo = draft name ⟨.doLoop o.inner :: o.brackets, .empty⟩ := by
  simp [draft, Draft.openDo, Draft.openSite, code, opening, sites, Block.layout]

theorem draft_turnElse (name : String) (b y : Block) (bs : List Bracket) :
    (draft name ⟨.ifThen b :: bs, y⟩).turnElse = .ok (draft name ⟨.ifElse b y :: bs, .empty⟩) := by
  simp [draft, Draft.turnElse, sites, code, opening, Block.layout, Nat.add_assoc]

theorem draft_closeThen_ifThen (name : String) (b c : Block) (bs : List Bracket) :
    (draft name ⟨.ifThen b :: bs, c⟩).closeThen = .ok (draft name ⟨bs, b.ifThen c⟩) := by
  simp [draft, Draft.closeThen, sites, code, opening, Block.layout, Nat.add_assoc]

theorem draft_closeThen_ifElse (name : String) (b y n : Block) (bs : List Bracket) :
    (draft name ⟨.ifElse b y :: bs, n⟩).closeThen = .ok (draft name ⟨bs, b.ifElse y n⟩) := by
  simp [draft, Draft.closeThen, sites, code, opening, Block.layout, Nat.add_assoc]
  omega

theorem draft_closeLoop (name : String) (b c : Block) (bs : List Bracket) :
    (draft name ⟨.doLoop b :: bs, c⟩).closeLoop = .ok (draft name ⟨bs, b.doLoop c⟩) := by
  simp [draft, Draft.closeLoop, sites, code, opening, Block.layout, Nat.add_assoc]
  omega

/-- Each word of a body does to the layout what its piece does to the tree. -/
theorem draft_take (name : String) (o : Outline) (p : Piece) :
    (o.draft name).take p = (o.take p).map (draft name) := by
  obtain ⟨bs, c⟩ := o
  cases p with
  | atom a => exact congrArg Except.ok (draft_atom name ⟨bs, c⟩ a)
  | ifWord => exact congrArg Except.ok (draft_openIf name ⟨bs, c⟩)
  | doWord => exact congrArg Except.ok (draft_openDo name ⟨bs, c⟩)
  | elseWord =>
      match bs with
      | .ifThen b :: bs => exact draft_turnElse name b c bs
      | [] | .ifElse _ _ :: _ | .doLoop _ :: _ => rfl
  | thenWord =>
      match bs with
      | .ifThen b :: bs => exact draft_closeThen_ifThen name b c bs
      | .ifElse b y :: bs => exact draft_closeThen_ifElse name b y c bs
      | [] | .doLoop _ :: _ => rfl
  | loopWord =>
      match bs with
      | .doLoop b :: bs => exact draft_closeLoop name b c bs
      | [] | .ifThen _ :: _ | .ifElse _ _ :: _ => rfl

/-- A body with no open construct is what a finished word is made of. -/
theorem draft_finish (name : String) (b : Block) :
    (draft name ⟨[], b⟩).finish = .ok ⟨name, .compiled (b.layout 0).toArray, false⟩ := rfl

/-- A body with an open construct is not finished. -/
theorem draft_finish_error (name : String) {o : Outline} (h : o.brackets ≠ []) :
    ∃ f, (o.draft name).finish = .error f ∧ f.kind = .unbalancedControlFlow := by
  obtain ⟨bs, c⟩ := o
  match bs with
  | [] => exact absurd rfl h
  | .ifThen _ :: _ | .ifElse _ _ :: _ | .doLoop _ :: _ => exact ⟨_, rfl, rfl⟩

end Outline

end Forthlet
