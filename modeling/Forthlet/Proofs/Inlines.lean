import Mathlib.Data.List.Forall2
import Forthlet.Proofs.Following
import Forthlet.Proofs.Grammar

/-!
# Bodies in place of calls

A call in a body, within any conditionals and loops, can be replaced by a body. On the tree this
puts one tree behind another in place of an atom; on the pieces that spell the tree it puts one
sequence in place of a piece. If running a call is followed by what its replacement means, then
running a body is followed by what the whole body means with replacements.
-/
namespace Forthlet

/-- The second body is the first with some of its calls replaced by bodies that `D` names for
them. -/
inductive Block.Inlines (D : Callee → Block → Prop) : Block → Block → Prop
  | empty : Inlines D .empty .empty
  | atom {b b' : Block} (h : Inlines D b b') (a : Atom) : Inlines D (b.atom a) (b'.atom a)
  | inline {b b' d : Block} {callee : Callee} (h : Inlines D b b') (hd : D callee d) :
      Inlines D (b.atom (.call callee)) (b'.append d)
  | ifThen {b b' c c' : Block} (hb : Inlines D b b') (hc : Inlines D c c') :
      Inlines D (b.ifThen c) (b'.ifThen c')
  | ifElse {b b' y y' n n' : Block} (hb : Inlines D b b') (hy : Inlines D y y')
      (hn : Inlines D n n') : Inlines D (b.ifElse y n) (b'.ifElse y' n')
  | doLoop {b b' c c' : Block} (hb : Inlines D b b') (hc : Inlines D c c') :
      Inlines D (b.doLoop c) (b'.doLoop c')

/-- The same for an open construct and the bodies before its open end. -/
inductive Bracket.Inlines (D : Callee → Block → Prop) : Bracket → Bracket → Prop
  | ifThen {b b' : Block} (hb : b.Inlines D b') : Inlines D (.ifThen b) (.ifThen b')
  | ifElse {b b' y y' : Block} (hb : b.Inlines D b') (hy : y.Inlines D y') :
      Inlines D (.ifElse b y) (.ifElse b' y')
  | doLoop {b b' : Block} (hb : b.Inlines D b') : Inlines D (.doLoop b) (.doLoop b')

structure Outline.Inlines (D : Callee → Block → Prop) (o o' : Outline) : Prop where
  brackets : List.Forall₂ (Bracket.Inlines D) o.brackets o'.brackets
  inner : o.inner.Inlines D o'.inner

section
variable {D : Callee → Block → Prop}

/-- Nothing has to be replaced. -/
theorem Block.Inlines.refl (b : Block) : b.Inlines D b := by
  induction b with
  | empty => exact .empty
  | atom b a ih => exact .atom ih a
  | ifThen b c ihb ihc => exact .ifThen ihb ihc
  | ifElse b y n ihb ihy ihn => exact .ifElse ihb ihy ihn
  | doLoop b c ihb ihc => exact .doLoop ihb ihc

theorem Bracket.Inlines.refl (b : Bracket) : b.Inlines D b := by
  cases b with
  | ifThen b => exact .ifThen (.refl b)
  | ifElse b y => exact .ifElse (.refl b) (.refl y)
  | doLoop b => exact .doLoop (.refl b)

namespace Outline.Inlines

variable {o o' o₁ : Outline}

theorem refl (o : Outline) : o.Inlines D o :=
  ⟨List.forall₂_same.mpr fun b _ => .refl b, .refl o.inner⟩

/-- What one of the outlines takes, the other takes as well. -/
theorem take {p : Piece} (h : o.Inlines D o') (ht : o.take p = .ok o₁) :
    ∃ o₁', o'.take p = .ok o₁' ∧ o₁.Inlines D o₁' := by
  obtain ⟨bs, c⟩ := o
  obtain ⟨bs', c'⟩ := o'
  obtain ⟨hbs, hc⟩ := h
  cases p with
  | atom a =>
      cases ht
      exact ⟨_, rfl, hbs, .atom hc a⟩
  | ifWord =>
      cases ht
      exact ⟨_, rfl, .cons (.ifThen hc) hbs, .empty⟩
  | doWord =>
      cases ht
      exact ⟨_, rfl, .cons (.doLoop hc) hbs, .empty⟩
  | elseWord =>
      cases hbs with
      | nil => cases ht
      | cons hb hbs =>
          cases hb with
          | ifThen hb =>
              cases ht
              exact ⟨_, rfl, .cons (.ifElse hb hc) hbs, .empty⟩
          | ifElse _ _ | doLoop _ => cases ht
  | thenWord =>
      cases hbs with
      | nil => cases ht
      | cons hb hbs =>
          cases hb with
          | ifThen hb =>
              cases ht
              exact ⟨_, rfl, hbs, .ifThen hb hc⟩
          | ifElse hb hy =>
              cases ht
              exact ⟨_, rfl, hbs, .ifElse hb hy hc⟩
          | doLoop _ => cases ht
  | loopWord =>
      cases hbs with
      | nil => cases ht
      | cons hb hbs =>
          cases hb with
          | doLoop hb =>
              cases ht
              exact ⟨_, rfl, hbs, .doLoop hb hc⟩
          | ifThen _ | ifElse _ _ => cases ht

theorem takeAll {ps : List Piece} (h : o.Inlines D o') (ht : o.takeAll ps = .ok o₁) :
    ∃ o₁', o'.takeAll ps = .ok o₁' ∧ o₁.Inlines D o₁' := by
  induction ps generalizing o o' with
  | nil =>
      cases ht
      exact ⟨o', rfl, h⟩
  | cons p ps ih =>
      obtain ⟨o₂, hp, hps⟩ := of_takeAll_cons ht
      obtain ⟨o₂', hp', h₂⟩ := h.take hp
      rw [takeAll_cons hp']
      exact ih h₂ hps

/-- Where one outline takes a call, the other may take the pieces of a body instead. -/
theorem inline {callee : Callee} {d : Block} (h : o.Inlines D o')
    (ht : o.take (.atom (.call callee)) = .ok o₁) (hd : D callee d) :
    ∃ o₁', o'.takeAll d.pieces = .ok o₁' ∧ o₁.Inlines D o₁' := by
  cases ht
  exact ⟨_, takeAll_append_pieces _ _ d, h.brackets, .inline h.inner hd⟩

end Outline.Inlines

/-- Pieces that spell a body still do so if those of another body stand in the place of a call. -/
theorem Block.exists_inlined {b d : Block} {callee : Callee} {ps qs : List Piece}
    (hb : b.pieces = ps ++ .atom (.call callee) :: qs) (hd : D callee d) :
    ∃ b', b'.pieces = ps ++ d.pieces ++ qs ∧ b.Inlines D b' := by
  have htake : Outline.start.takeAll (ps ++ .atom (.call callee) :: qs) = .ok ⟨[], b⟩ :=
    Outline.takeAll_start_iff.mpr hb
  obtain ⟨o, hps⟩ := Outline.takeAll_left htake
  rw [Outline.takeAll_append hps] at htake
  obtain ⟨o₁, hcall, hqs⟩ := Outline.of_takeAll_cons htake
  obtain ⟨o₁', hd', h₁⟩ := (Outline.Inlines.refl o).inline hcall hd
  obtain ⟨⟨bs', b'⟩, hqs', hbrackets, hinner⟩ := h₁.takeAll hqs
  cases hbrackets
  refine ⟨b', Outline.takeAll_start_iff.mp ?_, hinner⟩
  rw [List.append_assoc, Outline.takeAll_append hps, Outline.takeAll_append hd', hqs']

end

namespace Run

variable {X : Stop → Prop} {R : Engine → Engine → Prop} (hR : Works X R)
include hR

theorem Works.round {body body' : Run Unit} (h : Follows X R body body' Eq) (frame : Frame) :
    Follows X R (Block.round frame body) (Block.round frame body') Eq :=
  (hR.onLoops _).bind_eq fun _ => h.bind_eq fun _ => (hR.onLoops _).bind_eq fun _ => .pure _

theorem Works.rounds {body body' : Run Unit} (h : Follows X R body body' Eq) (limit : Int) (n : Nat)
    (i : Int) :
    Follows X R (Block.rounds body limit n i) (Block.rounds body' limit n i) Eq := by
  induction n generalizing i with
  | zero => exact .pure _
  | succ n ih => exact (hR.round h _).bind_eq fun _ => ih (i + 1)

/-- A body is followed by the body with replacements, if its calls are followed by themselves and
by what replaces them. -/
theorem Works.eval {D : Callee → Block → Prop} {call call' : Callee → Run Unit} {b b' : Block}
    (h : b.Inlines D b')
    (hcall : ∀ x, .call x ∈ b.atoms → Follows X R (call x) (call' x) Eq)
    (hbody : ∀ {x d}, .call x ∈ b.atoms → D x d → Follows X R (call x) (d.eval call') Eq) :
    Follows X R (b.eval call) (b'.eval call') Eq := by
  induction h with
  | empty => exact .pure _
  | @atom b b' h a ih =>
      simp only [Block.atoms, List.mem_append] at hcall hbody
      refine (ih (fun x hx => hcall x (.inl hx)) fun hx => hbody (.inl hx)).bind_eq fun _ => ?_
      cases a with
      | lit n => exact hR.push n
      | index => exact hR.loopIndex
      | call x => exact hcall x (.inr (List.mem_singleton_self _))
  | @inline b b' d x h hd ih =>
      simp only [Block.atoms, List.mem_append] at hcall hbody
      rw [Block.eval_append]
      refine (ih (fun x hx => hcall x (.inl hx)) fun hx => hbody (.inl hx)).bind_eq fun _ => ?_
      exact hbody (.inr (List.mem_singleton_self _)) hd
  | ifThen _ _ ihb ihc =>
      simp only [Block.atoms, List.mem_append] at hcall hbody
      refine (ihb (fun x hx => hcall x (.inl hx)) fun hx => hbody (.inl hx)).bind_eq fun _ => ?_
      refine hR.pop.bind_eq fun flag => ?_
      split
      · exact ihc (fun x hx => hcall x (.inr hx)) fun hx => hbody (.inr hx)
      · exact .pure _
  | ifElse _ _ _ ihb ihy ihn =>
      simp only [Block.atoms, List.mem_append] at hcall hbody
      refine (ihb (fun x hx => hcall x (.inl (.inl hx))) fun hx =>
        hbody (.inl (.inl hx))).bind_eq fun _ => ?_
      refine hR.pop.bind_eq fun flag => ?_
      split
      · exact ihy (fun x hx => hcall x (.inl (.inr hx))) fun hx => hbody (.inl (.inr hx))
      · exact ihn (fun x hx => hcall x (.inr hx)) fun hx => hbody (.inr hx)
  | doLoop _ _ ihb ihc =>
      simp only [Block.atoms, List.mem_append] at hcall hbody
      refine (ihb (fun x hx => hcall x (.inl hx)) fun hx => hbody (.inl hx)).bind_eq fun _ => ?_
      refine hR.pop.bind_eq fun start => hR.pop.bind_eq fun limit => ?_
      exact hR.rounds (ihc (fun x hx => hcall x (.inr hx)) fun hx => hbody (.inr hx)) _ _ _

/-- A body is followed by itself. -/
theorem Works.eval_same {call call' : Callee → Run Unit} {b : Block}
    (hcall : ∀ x, .call x ∈ b.atoms → Follows X R (call x) (call' x) Eq) :
    Follows X R (b.eval call) (b.eval call') Eq :=
  hR.eval (D := fun _ _ => False) (.refl b) hcall fun _ hd => hd.elim

end Run

end Forthlet
