import Forthlet.Proofs.Outline

/-!
# The grammar of bodies

A tree spells a sequence of pieces, and the pieces that an outline has taken are
the ones it spells so far. So taking pieces one after the other parses them: all
are taken with nothing left open exactly if some tree spells them, and as long as
they are taken at all, closing what is open completes them.
-/
namespace Forthlet

/-- The pieces that spell a body, in order. -/
def Block.pieces : Block → List Piece
  | empty => []
  | atom b a => b.pieces ++ [.atom a]
  | ifThen b c => b.pieces ++ .ifWord :: (c.pieces ++ [.thenWord])
  | ifElse b y n => b.pieces ++ .ifWord :: (y.pieces ++ .elseWord :: (n.pieces ++ [.thenWord]))
  | doLoop b c => b.pieces ++ .doWord :: (c.pieces ++ [.loopWord])

theorem Block.mem_pieces_of_mem_atoms {b : Block} {a : Atom} (h : a ∈ b.atoms) :
    .atom a ∈ b.pieces := by
  induction b with
  | empty => cases h
  | atom b c ih =>
      simp only [atoms, List.mem_append, List.mem_singleton] at h
      rcases h with h | rfl
      · simp [pieces, ih h]
      · simp [pieces]
  | ifThen b c ihb ihc | doLoop b c ihb ihc =>
      rcases List.mem_append.mp h with h | h
      · simp [pieces, ihb h]
      · simp [pieces, ihc h]
  | ifElse b y n ihb ihy ihn =>
      simp only [atoms, List.mem_append] at h
      rcases h with (h | h) | h
      · simp [pieces, ihb h]
      · simp [pieces, ihy h]
      · simp [pieces, ihn h]

/-- The pieces up to the open end of a construct. -/
def Bracket.pieces : Bracket → List Piece
  | ifThen b => b.pieces ++ [.ifWord]
  | ifElse b y => b.pieces ++ .ifWord :: (y.pieces ++ [.elseWord])
  | doLoop b => b.pieces ++ [.doWord]

/-- The piece that closes a construct. -/
def Bracket.close : Bracket → Piece
  | ifThen _ | ifElse _ _ => .thenWord
  | doLoop _ => .loopWord

namespace Outline

/-- The pieces that the outline has taken. -/
def pieces (o : Outline) : List Piece :=
  o.brackets.reverse.flatMap Bracket.pieces ++ o.inner.pieces

/-- Take pieces one after the other, up to the first that does not fit. -/
def takeAll (o : Outline) : List Piece → Except Fault Outline
  | [] => .ok o
  | p :: ps => do (← o.take p).takeAll ps

theorem takeAll_cons {o o' : Outline} {p : Piece} (h : o.take p = .ok o') (ps : List Piece) :
    o.takeAll (p :: ps) = o'.takeAll ps := by
  rw [takeAll, h]
  rfl

theorem of_takeAll_cons {o o' : Outline} {p : Piece} {ps : List Piece}
    (h : o.takeAll (p :: ps) = .ok o') : ∃ o₁, o.take p = .ok o₁ ∧ o₁.takeAll ps = .ok o' := by
  cases hp : o.take p with
  | error f =>
      rw [takeAll, hp] at h
      cases h
  | ok o₁ =>
      rw [takeAll_cons hp] at h
      exact ⟨o₁, rfl, h⟩

theorem takeAll_append {o o' : Outline} {ps : List Piece} (h : o.takeAll ps = .ok o')
    (qs : List Piece) : o.takeAll (ps ++ qs) = o'.takeAll qs := by
  induction ps generalizing o with
  | nil =>
      cases h
      rfl
  | cons p ps ih =>
      obtain ⟨o₁, hp, hps⟩ := of_takeAll_cons h
      rw [List.cons_append, takeAll_cons hp, ih hps]

/-- Pieces that are all taken leave those before them taken as well. -/
theorem takeAll_left {o o' : Outline} {ps qs : List Piece} (h : o.takeAll (ps ++ qs) = .ok o') :
    ∃ o₁, o.takeAll ps = .ok o₁ := by
  induction ps generalizing o with
  | nil => exact ⟨o, rfl⟩
  | cons p ps ih =>
      obtain ⟨o₁, hp, hps⟩ := of_takeAll_cons h
      rw [takeAll_cons hp]
      exact ih hps

/-- The pieces of a body are taken, within whatever is open and behind whatever is there. -/
theorem takeAll_append_pieces (bs : List Bracket) (c b : Block) :
    takeAll ⟨bs, c⟩ b.pieces = .ok ⟨bs, c.append b⟩ := by
  induction b generalizing bs c with
  | empty => rfl
  | atom b a ih =>
      rw [Block.pieces, takeAll_append (ih bs c)]
      rfl
  | ifThen b d ihb ihd =>
      rw [Block.pieces, takeAll_append (ihb bs c), takeAll_cons rfl, takeAll_append (ihd _ .empty),
        Block.empty_append]
      rfl
  | ifElse b y n ihb ihy ihn =>
      rw [Block.pieces, takeAll_append (ihb bs c), takeAll_cons rfl, takeAll_append (ihy _ .empty),
        takeAll_cons rfl, takeAll_append (ihn _ .empty), Block.empty_append, Block.empty_append]
      rfl
  | doLoop b d ihb ihd =>
      rw [Block.pieces, takeAll_append (ihb bs c), takeAll_cons rfl, takeAll_append (ihd _ .empty),
        Block.empty_append]
      rfl

theorem takeAll_pieces (bs : List Bracket) (b : Block) :
    takeAll ⟨bs, .empty⟩ b.pieces = .ok ⟨bs, b⟩ := by
  rw [takeAll_append_pieces, Block.empty_append]

theorem pieces_take {o o' : Outline} {p : Piece} (h : o.take p = .ok o') :
    o'.pieces = o.pieces ++ [p] := by
  obtain ⟨bs, c⟩ := o
  cases p with
  | atom a =>
      cases h
      simp [pieces, Block.pieces]
  | ifWord | doWord =>
      cases h
      simp [pieces, Block.pieces, Bracket.pieces]
  | elseWord | thenWord | loopWord =>
      simp only [take] at h
      split at h <;> cases h
      all_goals simp [pieces, Block.pieces, Bracket.pieces]

theorem pieces_takeAll {o o' : Outline} {ps : List Piece} (h : o.takeAll ps = .ok o') :
    o'.pieces = o.pieces ++ ps := by
  induction ps generalizing o with
  | nil =>
      cases h
      simp
  | cons p ps ih =>
      obtain ⟨o₁, hp, hps⟩ := of_takeAll_cons h
      rw [ih hps, pieces_take hp, List.append_assoc, List.singleton_append]

/-- Closing what is open, from the inside out, completes a body. -/
theorem takeAll_close (bs : List Bracket) (c : Block) :
    ∃ b, takeAll ⟨bs, c⟩ (bs.map Bracket.close) = .ok ⟨[], b⟩ := by
  induction bs generalizing c with
  | nil => exact ⟨c, rfl⟩
  | cons b bs ih =>
      cases b with
      | ifThen b => exact ih (b.ifThen c)
      | ifElse b y => exact ih (b.ifElse y c)
      | doLoop b => exact ih (b.doLoop c)

/-- Pieces that are not all taken are taken up to the first that does not fit. -/
theorem takeAll_error {o : Outline} {ps : List Piece} {f : Fault} (h : o.takeAll ps = .error f) :
    ∃ qs p rs o', ps = qs ++ p :: rs ∧ o.takeAll qs = .ok o' ∧ o'.take p = .error f := by
  induction ps generalizing o with
  | nil => cases h
  | cons p ps ih =>
      cases hp : o.take p with
      | error g =>
          rw [takeAll, hp] at h
          cases h
          exact ⟨[], p, ps, o, rfl, rfl, hp⟩
      | ok o₁ =>
          rw [takeAll_cons hp] at h
          obtain ⟨qs, q, rs, o', rfl, hqs, hq⟩ := ih h
          refine ⟨p :: qs, q, rs, o', rfl, ?_, hq⟩
          rw [takeAll_cons hp, hqs]

theorem kind_of_take {o : Outline} {p : Piece} {f : Fault} (h : o.take p = .error f) :
    f.kind = .unbalancedControlFlow := by
  cases p with
  | atom a => cases h
  | ifWord | doWord => cases h
  | elseWord | thenWord | loopWord =>
      simp only [take] at h
      split at h <;> cases h
      rfl

/-- Exactly the pieces that spell a body are taken with nothing left open. -/
theorem takeAll_start_iff {ps : List Piece} {b : Block} :
    start.takeAll ps = .ok ⟨[], b⟩ ↔ b.pieces = ps := by
  constructor
  · intro h
    have hp := pieces_takeAll h
    simpa [pieces, start, Block.pieces] using hp
  · rintro rfl
    exact takeAll_pieces [] b

end Outline

end Forthlet
