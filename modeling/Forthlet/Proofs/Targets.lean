import Forthlet.Proofs.Execution
import Forthlet.Proofs.Outline

/-!
# Jumps and what surrounds them

In code that is laid out from a tree every jump has a target. Jumps lead forward,
apart from the end of a loop, which leads back behind the start of the same loop. The
loops of the tree that an address is within tell how many frames a run needs there.
While a definition is open, only the jumps at its open places have no target yet.
-/
namespace Forthlet

namespace Block

/-- The number of loops of a body around an address, counted from the start of the body. -/
def level : Block → Nat → Nat
  | empty, _ => 0
  | atom b _, k => b.level k
  | ifThen b c, k => if k ≤ b.size then b.level k else c.level (k - (b.size + 1))
  | ifElse b y n, k =>
    if k ≤ b.size then b.level k
    else if k ≤ b.size + 1 + y.size then y.level (k - (b.size + 1))
    else n.level (k - (b.size + 1 + y.size + 1))
  | doLoop b c, k =>
    if k ≤ b.size then b.level k
    else if k ≤ b.size + 1 + c.size then c.level (k - (b.size + 1)) + 1
    else 0

@[simp] theorem level_zero (b : Block) : b.level 0 = 0 := by
  induction b with
  | empty => rfl
  | atom b a ih => exact ih
  | ifThen b c ihb ihc => simp [level, ihb]
  | ifElse b y n ihb ihy ihn => simp [level, ihb]
  | doLoop b c ihb ihc => simp [level, ihb]

/-- Behind a body none of its loops is left. -/
theorem level_of_size_le {b : Block} {k : Nat} (h : b.size ≤ k) : b.level k = 0 := by
  induction b generalizing k with
  | empty => rfl
  | atom b a ih =>
      simp only [size] at h
      exact ih (by omega)
  | ifThen b c ihb ihc =>
      simp only [size] at h
      rw [level, if_neg (by omega), ihc (by omega)]
  | ifElse b y n ihb ihy ihn =>
      simp only [size] at h
      rw [level, if_neg (by omega), if_neg (by omega), ihn (by omega)]
  | doLoop b c ihb ihc =>
      simp only [size] at h
      rw [level, if_neg (by omega), if_neg (by omega)]

end Block

/-- Where the instruction at address `a` leads to, with the number of loops around each address
given by `level`. Starts and ends of loops are paired. -/
def Instr.Flows (instrs : Code) (level : Nat → Nat) (a : Nat) : Instr Callee → Prop
  | lit _ | call _ | index => level (a + 1) = level a
  | branch target =>
      ∃ t : Nat, target = some (t : Int) ∧ a < t ∧ t ≤ instrs.size ∧ level t = level a
  | branchIfZero target =>
      level (a + 1) = level a ∧
        ∃ t : Nat, target = some (t : Int) ∧ a < t ∧ t ≤ instrs.size ∧ level t = level a
  | enterLoop exit =>
      level (a + 1) = level a + 1 ∧
        ∃ l : Nat, exit = some ((l + 1 : Nat) : Int) ∧ a < l ∧
          instrs[l]? = some (.nextLoop ((a + 1 : Nat) : Int)) ∧ level (l + 1) = level a
  | nextLoop back =>
      level a = level (a + 1) + 1 ∧
        ∃ d : Nat, back = ((d + 1 : Nat) : Int) ∧ d < a ∧
          instrs[d]? = some (.enterLoop (some ((a + 1 : Nat) : Int))) ∧ level (d + 1) = level a
  | unknown _ => False

theorem Atom.flows {a : Atom} {instrs : Code} {level : Nat → Nat} {k : Nat}
    (h : level (k + 1) = level k) : a.instr.Flows instrs level k := by
  cases a <;> exact h

theorem Instr.Flows.target {instrs : Code} {level : Nat → Nat} {a : Nat} {i : Instr Callee}
    {target : Option Int} (h : i.Flows instrs level a) (hi : i.target? = some target) :
    ∃ t : Nat, target = some (t : Int) ∧ t ≤ instrs.size := by
  cases i with
  | lit _ | call _ | index | unknown _ => cases hi
  | branch target =>
      cases hi
      obtain ⟨t, rfl, -, hle, -⟩ := h
      exact ⟨t, rfl, hle⟩
  | branchIfZero target =>
      cases hi
      obtain ⟨-, t, rfl, -, hle, -⟩ := h
      exact ⟨t, rfl, hle⟩
  | enterLoop exit =>
      cases hi
      obtain ⟨-, l, rfl, -, hl, -⟩ := h
      obtain ⟨hlt, -⟩ := Array.getElem?_eq_some_iff.mp hl
      exact ⟨l + 1, rfl, hlt⟩
  | nextLoop back =>
      cases hi
      obtain ⟨-, d, rfl, -, hd, -⟩ := h
      obtain ⟨hlt, -⟩ := Array.getElem?_eq_some_iff.mp hd
      exact ⟨d + 1, rfl, hlt⟩

namespace Block

/-- With `off` loops around a body that starts at `base`, these are the levels in its layout. -/
def Levels (level : Nat → Nat) (base off : Nat) (b : Block) : Prop :=
  ∀ k, k ≤ b.size → level (base + k) = off + b.level k

namespace Levels

variable {level : Nat → Nat} {base off : Nat} {a : Atom} {b c y n : Block}

theorem start (h : b.Levels level base off) : level base = off := by
  have h₀ := h 0 (Nat.zero_le _)
  rwa [level_zero] at h₀

theorem finish (h : b.Levels level base off) : level (base + b.size) = off := by
  have h₀ := h b.size (Nat.le_refl _)
  rwa [level_of_size_le (Nat.le_refl _)] at h₀

theorem atom (h : (b.atom a).Levels level base off) : b.Levels level base off :=
  fun k hk => h k (Nat.le_succ_of_le hk)

theorem ifThen (h : (b.ifThen c).Levels level base off) :
    b.Levels level base off ∧ c.Levels level (base + b.size + 1) off := by
  simp only [Levels, size] at h
  refine ⟨fun k hk => ?_, fun k hk => ?_⟩
  · rw [h k (by omega), Block.level, if_pos hk]
  · have hc := h (b.size + 1 + k) (by omega)
    rw [Block.level, if_neg (by omega), Nat.add_sub_cancel_left] at hc
    simpa only [Nat.add_assoc] using hc

theorem ifElse (h : (b.ifElse y n).Levels level base off) :
    b.Levels level base off ∧ y.Levels level (base + b.size + 1) off ∧
      n.Levels level (base + b.size + 1 + y.size + 1) off := by
  simp only [Levels, size] at h
  refine ⟨fun k hk => ?_, fun k hk => ?_, fun k hk => ?_⟩
  · rw [h k (by omega), Block.level, if_pos hk]
  · have hy := h (b.size + 1 + k) (by omega)
    rw [Block.level, if_neg (by omega), if_pos (by omega), Nat.add_sub_cancel_left] at hy
    simpa only [Nat.add_assoc] using hy
  · have hn := h (b.size + 1 + y.size + 1 + k) (by omega)
    rw [Block.level, if_neg (by omega), if_neg (by omega), Nat.add_sub_cancel_left] at hn
    simpa only [Nat.add_assoc] using hn

theorem doLoop (h : (b.doLoop c).Levels level base off) :
    b.Levels level base off ∧ c.Levels level (base + b.size + 1) (off + 1) := by
  simp only [Levels, size] at h
  refine ⟨fun k hk => ?_, fun k hk => ?_⟩
  · rw [h k (by omega), Block.level, if_pos hk]
  · have hc := h (b.size + 1 + k) (by omega)
    rw [Block.level, if_neg (by omega), if_pos (by omega), Nat.add_sub_cancel_left] at hc
    have hat : base + b.size + 1 + k = base + (b.size + 1 + k) := by omega
    rw [hat, hc]
    omega

end Levels

/-- Every instruction in the layout of a body flows, wherever the layout stands in code and
however many loops are around it. -/
theorem flows {instrs : Code} {level : Nat → Nat} {base off : Nat} {b : Block}
    (hb : instrs.Holds base (b.layout base)) (hsize : base + b.size ≤ instrs.size)
    (hl : b.Levels level base off) {k : Nat} (hk : k < b.size) :
    ∃ i, instrs[base + k]? = some i ∧ i.Flows instrs level (base + k) := by
  -- The parts of a body stand one after the other, with the jumps between them.
  induction b generalizing base off k with
  | empty => exact absurd hk (Nat.not_lt_zero k)
  | atom b a ih =>
      obtain ⟨hb, hat⟩ := hb.atom
      have hend := hl.finish
      have hlb := hl.atom
      simp only [size] at hk hsize hend
      rcases Nat.lt_or_ge k b.size with hlt | hge
      · exact ih hb (by omega) hlb hlt
      · obtain rfl : k = b.size := by omega
        exact ⟨_, hat, Atom.flows (hend.trans hlb.finish.symm)⟩
  | ifThen b c ihb ihc =>
      obtain ⟨hb, htest, hc⟩ := hb.ifThen
      have hend := hl.finish
      obtain ⟨hlb, hlc⟩ := hl.ifThen
      simp only [size, ← Nat.add_assoc] at hk hsize hend htest
      rcases Nat.lt_trichotomy k b.size with hlt | rfl | hgt
      · exact ihb hb (by omega) hlb hlt
      · have htest₀ := hlb.finish
        exact ⟨_, htest, hlc.start.trans htest₀.symm, _, rfl, by omega, hsize,
          hend.trans htest₀.symm⟩
      · obtain ⟨j, rfl⟩ : ∃ j, k = b.size + 1 + j := ⟨k - (b.size + 1), by omega⟩
        have h := ihc hc (by omega) hlc (k := j) (by omega)
        simpa only [Nat.add_assoc] using h
  | ifElse b y n ihb ihy ihn =>
      obtain ⟨hb, htest, hy, hskip, hn⟩ := hb.ifElse
      obtain ⟨hlb, hly, hln⟩ := hl.ifElse
      simp only [size] at hk hsize
      rcases Nat.lt_trichotomy k b.size with hlt | rfl | hgt
      · exact ihb hb (by omega) hlb hlt
      · exact ⟨_, htest, hly.start.trans hlb.finish.symm, _, rfl, by omega, by omega,
          hln.start.trans hlb.finish.symm⟩
      obtain ⟨j, rfl⟩ : ∃ j, k = b.size + 1 + j := ⟨k - (b.size + 1), by omega⟩
      rcases Nat.lt_trichotomy j y.size with hlt | rfl | hgt
      · have h := ihy hy (by omega) hly hlt
        simpa only [Nat.add_assoc] using h
      · have hskip₀ := hly.finish
        simp only [← Nat.add_assoc]
        exact ⟨_, hskip, _, rfl, by omega, by omega, hln.finish.trans hskip₀.symm⟩
      · obtain ⟨m, rfl⟩ : ∃ m, j = y.size + 1 + m := ⟨j - (y.size + 1), by omega⟩
        have h := ihn hn (by omega) hln (k := m) (by omega)
        simpa only [Nat.add_assoc] using h
  | doLoop b c ihb ihc =>
      obtain ⟨hb, hstart, hc, hagain⟩ := hb.doLoop
      have hend := hl.finish
      obtain ⟨hlb, hlc⟩ := hl.doLoop
      have hat : base + (b.size + (c.size + 1) + 1) = base + b.size + 1 + c.size + 1 := by omega
      simp only [size, hat] at hk hsize hend
      rcases Nat.lt_trichotomy k b.size with hlt | rfl | hgt
      · exact ihb hb (by omega) hlb hlt
      · have hstart₀ := hlb.finish
        exact ⟨_, hstart, by rw [hlc.start, hstart₀], _, rfl, by omega, hagain,
          hend.trans hstart₀.symm⟩
      obtain ⟨j, rfl⟩ : ∃ j, k = b.size + 1 + j := ⟨k - (b.size + 1), by omega⟩
      rcases Nat.lt_trichotomy j c.size with hlt | rfl | hgt
      · have h := ihc hc (by omega) hlc hlt
        simpa only [Nat.add_assoc] using h
      · have hagain₀ := hlc.finish
        simp only [← Nat.add_assoc]
        exact ⟨_, hagain, by rw [hagain₀, hend], _, rfl, by omega, hstart,
          hlc.start.trans hagain₀.symm⟩
      · omega

theorem flows_of_layout {b : Block} {a : Nat} {i : Instr Callee}
    (h : (b.layout 0).toArray[a]? = some i) : i.Flows (b.layout 0).toArray b.level a := by
  have hl : b.Levels b.level 0 0 := fun k _ => by simp only [Nat.zero_add]
  have ha : a < b.size := by
    obtain ⟨ha, -⟩ := Array.getElem?_eq_some_iff.mp h
    simpa using ha
  obtain ⟨j, hj, hf⟩ := flows (Code.holds_toArray (b.layout 0)) (by simp) hl ha
  rw [Nat.zero_add] at hj hf
  rw [h] at hj
  cases hj
  exact hf

/-- Any layout stands at the end of some code. -/
theorem exists_code_holds (b : Block) (base : Nat) :
    ∃ instrs : Code, instrs.size = base + b.size ∧ instrs.Holds base (b.layout base) := by
  have hright := (Code.holds_toArray (List.replicate base Instr.index ++ b.layout base)).right
  rw [List.length_replicate, Nat.zero_add] at hright
  exact ⟨_, by simp, hright⟩

/-- No jump in a layout leads behind its end, or has no target. -/
theorem target_of_mem_layout {b : Block} {base : Nat} {i : Instr Callee} {target : Option Int}
    (h : i ∈ b.layout base) (hi : i.target? = some target) :
    ∃ t : Nat, target = some (t : Int) ∧ t ≤ base + b.size := by
  obtain ⟨instrs, hsize, hholds⟩ := b.exists_code_holds base
  have hlevels : b.Levels (fun a => b.level (a - base)) base 0 := by
    intro k _
    simp only [Nat.add_sub_cancel_left, Nat.zero_add]
  obtain ⟨k, hk, rfl⟩ := List.mem_iff_getElem.mp h
  obtain ⟨j, hj, hf⟩ := flows hholds (Nat.le_of_eq hsize.symm) hlevels (length_layout base b ▸ hk)
  rw [hholds k hk, List.getElem?_eq_getElem hk] at hj
  cases hj
  rw [← hsize]
  exact hf.target hi

end Block

/-- Where the jumps in finished code lead. -/
structure Code.WellFormed (code : Code) : Prop where
  resolved : ∀ i ∈ code, i.target? ≠ some none
  forward : ∀ {a : Nat} {i : Instr Callee} {target : Option Int}, code[a]? = some i →
    i.target? = some target → (∀ back, i ≠ .nextLoop back) →
      ∃ t : Nat, target = some (t : Int) ∧ a < t ∧ t ≤ code.size
  /-- The end of a loop leads back behind the only start that leads behind this end. -/
  back : ∀ {l : Nat} {back : Int}, code[l]? = some (.nextLoop back) →
    ∃ d : Nat, d < l ∧ back = ((d + 1 : Nat) : Int) ∧
      ∀ d' : Nat, code[d']? = some (.enterLoop (some ((l + 1 : Nat) : Int))) ↔ d' = d

theorem Block.wellFormed_layout (b : Block) : Code.WellFormed (b.layout 0).toArray where
  resolved i hi := by
    intro ht
    obtain ⟨t, ht, -⟩ := target_of_mem_layout (List.mem_toArray.mp hi) ht
    cases ht
  forward {a i target} ha ht hback := by
    have hf := flows_of_layout ha
    obtain ⟨t, rfl, hle⟩ := hf.target ht
    refine ⟨t, rfl, ?_, hle⟩
    cases i with
    | lit _ | call _ | index | unknown _ => cases ht
    | nextLoop back => exact absurd rfl (hback back)
    | branch target =>
        cases ht
        obtain ⟨_, heq, hlt, -⟩ := hf
        cases heq
        exact hlt
    | branchIfZero target =>
        cases ht
        obtain ⟨-, _, heq, hlt, -⟩ := hf
        cases heq
        exact hlt
    | enterLoop exit =>
        cases ht
        obtain ⟨-, _, heq, hlt, -⟩ := hf
        cases heq
        exact Nat.lt_succ_of_lt hlt
  back {l back} hl := by
    obtain ⟨-, d, rfl, hlt, hd, -⟩ := flows_of_layout hl
    refine ⟨d, hlt, rfl, fun d' => ⟨fun hd' => ?_, fun h => h ▸ hd⟩⟩
    -- The other start has this end as its own, and so this end leads back to both.
    obtain ⟨-, l', hl', -, hback, -⟩ := flows_of_layout hd'
    have hll : l' = l := by
      cases hl'
      rfl
    rw [hll, hl] at hback
    cases hback
    rfl

/-- The jump that an open place leaves without a target. -/
def Opener.jump : Opener → Instr Callee
  | ifWord => .branchIfZero none
  | elseWord => .branch none
  | doWord => .enterLoop none

/-- Where the jumps of a definition in progress lead. The innermost open place is the last one
in the code. -/
structure Draft.WellFormed (d : Draft) : Prop where
  ordered : d.sites.Pairwise fun inner outer => outer.address < inner.address
  opened : ∀ s ∈ d.sites, d.code[s.address]? = some s.opener.jump
  closed : ∀ {a : Nat} {i : Instr Callee} {target : Option Int}, d.code[a]? = some i →
    (∀ s ∈ d.sites, s.address ≠ a) → i.target? = some target →
      ∃ t : Nat, target = some (t : Int) ∧ t ≤ d.code.size

namespace Bracket

def opener : Bracket → Opener
  | ifThen _ => .ifWord
  | ifElse _ _ => .elseWord
  | doLoop _ => .doWord

/-- The code of an open construct before the jump that has no target. -/
def layout (base : Nat) : Bracket → List (Instr Callee)
  | ifThen b | doLoop b => b.layout base
  | ifElse b y =>
    let test := base + b.size
    let skip := test + (y.size + 1)
    b.layout base ++ (.branchIfZero (some ((skip + 1 : Nat) : Int)) :: y.layout (test + 1))

/-- The jump over the first branch leads behind the jump that has no target. -/
theorem target_of_mem_layout {B : Bracket} {base : Nat} {i : Instr Callee} {target : Option Int}
    (h : i ∈ B.layout base) (hi : i.target? = some target) :
    ∃ t : Nat, target = some (t : Int) ∧ t ≤ base + (B.layout base).length + 1 := by
  cases B with
  | ifThen b | doLoop b =>
      obtain ⟨t, ht, hle⟩ := Block.target_of_mem_layout h hi
      exact ⟨t, ht, by simp only [layout, Block.length_layout]; omega⟩
  | ifElse b y =>
      simp only [layout, List.mem_append, List.mem_cons, List.length_append, List.length_cons,
        Block.length_layout] at h ⊢
      rcases h with h | rfl | h
      · obtain ⟨t, ht, hle⟩ := Block.target_of_mem_layout h hi
        exact ⟨t, ht, by omega⟩
      · cases hi
        exact ⟨_, rfl, by omega⟩
      · obtain ⟨t, ht, hle⟩ := Block.target_of_mem_layout h hi
        exact ⟨t, ht, by omega⟩

end Bracket

namespace Outline

theorem opening_cons (B : Bracket) (bs : List Bracket) :
    opening (B :: bs) =
      opening bs ++ B.layout (opening bs).length ++ [B.opener.jump] := by
  cases B with
  | ifThen b | doLoop b => rfl
  | ifElse b y => simp [opening, Bracket.layout, Bracket.opener, Opener.jump]

theorem sites_cons (B : Bracket) (bs : List Bracket) :
    sites (B :: bs) =
      ⟨B.opener, (opening bs ++ B.layout (opening bs).length).length⟩ :: sites bs := by
  cases B <;> simp [sites, Bracket.layout, Bracket.opener, Nat.add_assoc]

theorem opened {bs : List Bracket} {s : Site} (h : s ∈ sites bs) :
    (opening bs)[s.address]? = some s.opener.jump := by
  induction bs with
  | nil => cases h
  | cons B bs ih =>
      rw [sites_cons] at h
      rw [opening_cons]
      rcases List.mem_cons.mp h with rfl | h
      · rw [List.getElem?_append_right (Nat.le_refl _), Nat.sub_self]
        rfl
      · have hs := ih h
        obtain ⟨hlt, -⟩ := List.getElem?_eq_some_iff.mp hs
        rw [List.append_assoc, List.getElem?_append_left hlt, hs]

theorem ordered (bs : List Bracket) :
    (sites bs).Pairwise fun inner outer => outer.address < inner.address := by
  induction bs with
  | nil => exact .nil
  | cons B bs ih =>
      rw [sites_cons]
      refine .cons (fun s hs => ?_) ih
      obtain ⟨hlt, -⟩ := List.getElem?_eq_some_iff.mp (opened hs)
      rw [List.length_append]
      exact Nat.lt_add_right _ hlt

theorem closed_opening {bs : List Bracket} {a : Nat} {i : Instr Callee} {target : Option Int}
    (h : (opening bs)[a]? = some i) (hs : ∀ s ∈ sites bs, s.address ≠ a)
    (hi : i.target? = some target) :
    ∃ t : Nat, target = some (t : Int) ∧ t ≤ (opening bs).length := by
  induction bs with
  | nil => cases h
  | cons B bs ih =>
      rw [sites_cons, List.forall_mem_cons] at hs
      rw [opening_cons] at h ⊢
      obtain ⟨hlt, -⟩ := List.getElem?_eq_some_iff.mp h
      simp only [List.length_append, List.length_singleton] at hs hlt ⊢
      have ha : a < (opening bs ++ B.layout (opening bs).length).length := by
        rw [List.length_append]
        omega
      rw [List.getElem?_append_left ha] at h
      rcases Nat.lt_or_ge a (opening bs).length with hb | hb
      · rw [List.getElem?_append_left hb] at h
        obtain ⟨t, ht, hle⟩ := ih h hs.2
        exact ⟨t, ht, by omega⟩
      · rw [List.getElem?_append_right hb] at h
        exact Bracket.target_of_mem_layout (List.mem_of_getElem? h) hi

/-- The draft of an outline lacks exactly the targets that its brackets wait for. -/
theorem wellFormed_draft (name : String) (o : Outline) : (o.draft name).WellFormed where
  ordered := ordered o.brackets
  opened s hs := by
    have h := opened hs
    obtain ⟨hlt, -⟩ := List.getElem?_eq_some_iff.mp h
    rw [draft, List.getElem?_toArray, code, List.getElem?_append_left hlt, h]
  closed {a i target} h hs hi := by
    simp only [draft, List.getElem?_toArray, code, List.size_toArray, List.length_append,
      Block.length_layout] at h ⊢
    rcases Nat.lt_or_ge a (opening o.brackets).length with hb | hb
    · rw [List.getElem?_append_left hb] at h
      obtain ⟨t, ht, hle⟩ := closed_opening h hs hi
      exact ⟨t, ht, by omega⟩
    · rw [List.getElem?_append_right hb] at h
      exact Block.target_of_mem_layout (List.mem_of_getElem? h) hi

end Outline

end Forthlet
