import Forthlet.Proofs.Refinement

/-!
# What the compiler accepts

A definition succeeds exactly if its tokens spell a body. Otherwise it is
refused as early as possible: at the first token that no continuation turns
into a body, and at the semicolon if there is no such token.
-/
namespace Forthlet

open Outcome Run

namespace Dictionary

/-- The tokens spell a body of the grammar. -/
def Derivable (d : Dictionary) (name : String) (ts : List String) : Prop :=
  ∃ b : Block, List.Forall₂ (d.Reads name) ts b.pieces

/-- The tokens begin a body of the grammar. -/
def Completable (d : Dictionary) (name : String) (ts : List String) : Prop :=
  ∃ us, d.Derivable name (ts ++ us)

variable {d : Dictionary} {name : String} {ts us : List String} {ps : List Piece}

theorem Completable.left (h : d.Completable name (ts ++ us)) : d.Completable name ts := by
  obtain ⟨vs, hvs⟩ := h
  exact ⟨us ++ vs, by rwa [← List.append_assoc]⟩

theorem exists_pieces (h : ∀ t ∈ ts, ∃ p, d.Reads name t p) :
    ∃ ps, List.Forall₂ (d.Reads name) ts ps := by
  induction ts with
  | nil => exact ⟨[], .nil⟩
  | cons t ts ih =>
      obtain ⟨p, hp⟩ := h t (by simp)
      obtain ⟨ps, hps⟩ := ih fun u hu => h u (by simp [hu])
      exact ⟨p :: ps, .cons hp hps⟩

theorem Standard.pieces_unique {qs : List Piece} (hs : d.Standard)
    (h : List.Forall₂ (d.Reads name) ts ps) (h' : List.Forall₂ (d.Reads name) ts qs) :
    ps = qs := by
  have hu : Relator.RightUnique (d.Reads name) := fun _ _ _ hp hq => Reads.unique hs hp hq
  exact List.right_unique_forall₂' hu h h'

theorem derivable_iff (hs : d.Standard) (h : List.Forall₂ (d.Reads name) ts ps) :
    d.Derivable name ts ↔ ∃ b, Outline.start.takeAll ps = .ok ⟨[], b⟩ := by
  constructor
  · rintro ⟨b, hb⟩
    exact ⟨b, Outline.takeAll_start_iff.mpr (hs.pieces_unique hb h)⟩
  · rintro ⟨b, hb⟩
    rw [← Outline.takeAll_start_iff.mp hb] at h
    exact ⟨b, h⟩

/-- The token that closes a construct. -/
def closer (b : Bracket) : String :=
  match b.close with
  | .loopWord => "LOOP"
  | _ => "THEN"

theorem reads_closer (d : Dictionary) (name : String) (b : Bracket) :
    d.Reads name (closer b) b.close := by
  cases b with
  | ifThen _ | ifElse _ _ => exact .control (Builtin.upper_name .thenWord) rfl
  | doLoop _ => exact .control (Builtin.upper_name .loopWord) rfl

/-- The tokens are taken and lead to the outline `o`. -/
def Outlines (d : Dictionary) (name : String) (ts : List String) (o : Outline) : Prop :=
  ∃ ps, List.Forall₂ (d.Reads name) ts ps ∧ Outline.start.takeAll ps = .ok o

/-- Whatever is open can be closed. -/
theorem Outlines.completable {o : Outline} (hs : d.Standard) (h : d.Outlines name ts o) :
    d.Completable name ts := by
  obtain ⟨ps, hps, ho⟩ := h
  obtain ⟨bs, c⟩ := o
  obtain ⟨b, hb⟩ := Outline.takeAll_close bs c
  have hall : Outline.start.takeAll (ps ++ bs.map Bracket.close) = .ok ⟨[], b⟩ := by
    rw [Outline.takeAll_append ho, hb]
  have hclose : List.Forall₂ (d.Reads name) (bs.map closer) (bs.map Bracket.close) := by
    simp [List.forall₂_map_left_iff, List.forall₂_map_right_iff, reads_closer]
  exact ⟨bs.map closer, (derivable_iff hs (List.rel_append hps hclose)).mpr ⟨b, hall⟩⟩

/-- A beginning of a body is taken. -/
theorem Completable.takeAll (hs : d.Standard) (h : d.Completable name ts)
    (hps : List.Forall₂ (d.Reads name) ts ps) : ∃ o, Outline.start.takeAll ps = .ok o := by
  obtain ⟨us, b, hb⟩ := h
  have htake := List.forall₂_take ts.length hb
  rw [List.take_left] at htake
  have hpieces : b.pieces = ps ++ b.pieces.drop ts.length := by
    rw [hs.pieces_unique hps htake, List.take_append_drop]
  exact Outline.takeAll_left (hpieces ▸ Outline.takeAll_start_iff.mpr rfl)

theorem split_reads {p : Piece} {qs rs : List Piece}
    (h : List.Forall₂ (d.Reads name) ts (qs ++ p :: rs)) :
    ∃ us t vs, ts = us ++ t :: vs ∧ List.Forall₂ (d.Reads name) us qs ∧ d.Reads name t p := by
  have htake := List.forall₂_take_append ts qs (p :: rs) h
  have hdrop := List.forall₂_drop_append ts qs (p :: rs) h
  obtain ⟨t, vs, ht, _, hts⟩ := List.forall₂_cons_right_iff.mp hdrop
  refine ⟨ts.take qs.length, t, vs, ?_, htake, ht⟩
  rw [← hts, List.take_append_drop]

end Dictionary

section
variable {e : Engine} {name line : String} {ts us vs : List String} {t : String} {o : Outline}
  {f : Fault} {x : Numeral.Error} {lim : Limits} {fuel : Nat}

section
variable (hd : e.draft = none) (hs : e.dict.Standard) (hn : Numeral.parse name = .error x)
include hd hs hn

theorem run_tokens_outlines (h : e.dict.Outlines name us o) (rest : List String) :
    (tokens lim fuel (":" :: name :: (us ++ rest))).run e =
      (tokens lim fuel rest).run (e.defining name o) := by
  obtain ⟨qs, hus, hqs⟩ := h
  rw [run_tokens_colon hd hn, run_tokens_takeAll (hus.imp fun _ _ hr => hr.adds hs) hqs]

/-- A fault in the midst of a definition ends the feed. -/
theorem run_feed_refused (h : e.dict.Outlines name us o) (ht : t ≠ ":")
    (hf : (token lim fuel t).run (e.defining name o) = .error (.fault f) (e.defining name o))
    (hk : f.kind = .unbalancedControlFlow)
    (hline : Token.ofText line = .ok (":" :: name :: (us ++ t :: vs))) :
    (feed lim fuel line).run e =
      .error (.fault f) ((e.defining name o).note (.aborted line f)).reset := by
  have hrun : (tokens lim fuel (":" :: name :: (us ++ t :: vs))).run e =
      .error (.fault f) (e.defining name o) := by
    rw [run_tokens_outlines hd hs hn h, tokens_cons ht, EStateM.run_bind, hf]
  have hrec : f.recovers = true := by simp [Fault.recovers, hk]
  rw [run_feed, hline, EStateM.run_bind, run_lift_ok]
  simp only [hrun, recover, hrec, if_true]

end

/-- Tokens that spell no body are refused at the first of them that cannot be continued, or at
the semicolon. -/
theorem refused_of_not_derivable (hs : e.dict.Standard)
    (ht : ∀ t ∈ ts, ∃ p, e.dict.Reads name t p) (hder : ¬e.dict.Derivable name ts)
    (lim : Limits) (fuel : Nat) :
    ∃ f us t vs o, ts ++ [";"] = us ++ t :: vs ∧ e.dict.Outlines name us o ∧ t ≠ ":" ∧
      (token lim fuel t).run (e.defining name o) = .error (.fault f) (e.defining name o) ∧
      f.kind = .unbalancedControlFlow ∧ (vs = [] ∨ ¬e.dict.Completable name (us ++ [t])) := by
  obtain ⟨ps, hps⟩ := Dictionary.exists_pieces ht
  cases hall : Outline.start.takeAll ps with
  | ok o =>
      -- Every token was taken, so the semicolon finds something open.
      have hopen : o.brackets ≠ [] := by
        intro hb
        obtain ⟨bs, b⟩ := o
        subst hb
        exact hder ((Dictionary.derivable_iff hs hps).mpr ⟨b, hall⟩)
      obtain ⟨f, hfinish, hk⟩ := Outline.draft_finish_error (Text.upper name) hopen
      refine ⟨f, ts, ";", [], o, rfl, ⟨ps, hps, hall⟩, by decide, ?_, hk, .inl rfl⟩
      rw [run_token_semicolon hs]
      exact Primitive.run_finishDraft_error rfl hfinish
  | error f =>
      obtain ⟨qs, p, rs, o, rfl, hqs, hp⟩ := Outline.takeAll_error hall
      obtain ⟨us, t, vs, rfl, hus, hr⟩ := Dictionary.split_reads hps
      have hnot : ¬e.dict.Completable name (us ++ [t]) := by
        intro hc
        obtain ⟨o', ho'⟩ := hc.takeAll hs (List.rel_append hus (.cons hr .nil))
        rw [Outline.takeAll_append hqs, Outline.takeAll, hp] at ho'
        cases ho'
      refine ⟨f, us, t, vs ++ [";"], o, by simp, ⟨qs, hus, hqs⟩, hr.ne_colon, ?_,
        Outline.kind_of_take hp, .inr hnot⟩
      exact run_token_take_error (hr.adds hs) hp

/-- Reading the tokens of a definition raises `f` at the first of them after which nothing
completes a body, or at the semicolon if each of their beginnings can be completed. -/
def RefusedEarly (lim : Limits) (fuel : Nat) (e : Engine) (name : String) (ts : List String)
    (f : Fault) : Prop :=
  ∃ us t vs e', ts ++ [";"] = us ++ t :: vs ∧
    (tokens lim fuel (":" :: name :: us)).run e = .ok () e' ∧
    (token lim fuel t).run e' = .error (.fault f) e' ∧
    (∀ ws, ws <+: us → e.dict.Completable name ws) ∧
    (vs = [] ∨ ¬e.dict.Completable name (us ++ [t]))

section
variable (hd : e.draft = none) (hs : e.dict.Standard) (hn : Numeral.parse name = .error x)
include hd hs hn

theorem run_feed_of_derivable (hder : e.dict.Derivable name ts)
    (hline : Token.ofText line = .ok (":" :: name :: (ts ++ [";"]))) (lim : Limits) (fuel : Nat) :
    ∃ b : Block, (feed lim fuel line).run e = .ok () (e.defined name b) := by
  obtain ⟨b, hb⟩ := hder
  obtain ⟨k, hk, hw⟩ := hs.find? (Or.inl rfl) (Builtin.upper_name .semicolon)
  have hadds := hb.imp fun _ _ hr => hr.adds hs
  exact ⟨b, run_feed_define hd hk hw hn hadds hline lim fuel⟩

theorem run_feed_of_not_derivable (ht : ∀ t ∈ ts, ∃ p, e.dict.Reads name t p)
    (hder : ¬e.dict.Derivable name ts)
    (hline : Token.ofText line = .ok (":" :: name :: (ts ++ [";"]))) (lim : Limits) (fuel : Nat) :
    ∃ f e', (feed lim fuel line).run e = .error (.fault f) e' ∧
      f.kind = .unbalancedControlFlow ∧ e'.dict = e.dict ∧
      RefusedEarly lim fuel e name ts f := by
  obtain ⟨f, us, t, vs, o, hts, ho, hcolon, hf, hk, hfirst⟩ :=
    refused_of_not_derivable hs ht hder lim fuel
  rw [hts] at hline
  have hrun := run_feed_refused hd hs hn ho hcolon hf hk hline
  have hdict : ((e.defining name o).note (.aborted line f)).reset.dict = e.dict :=
    Engine.reset_dict _
  have hus : (tokens lim fuel (":" :: name :: (us ++ []))).run e =
      (tokens lim fuel []).run (e.defining name o) := run_tokens_outlines hd hs hn ho []
  rw [List.append_nil] at hus
  refine ⟨f, _, hrun, hk, hdict, us, t, vs, e.defining name o, hts, hus, hf, ?_, hfirst⟩
  rintro ws ⟨zs, rfl⟩
  exact (ho.completable hs).left

end

/-- A definition whose tokens each stand for a piece succeeds exactly if they spell a body, and
then adds one word that does not run at once. Otherwise the control flow is not balanced, the
dictionary stays as it was, and the fault comes as early as possible. -/
theorem accepts_exactly_bodies (hd : e.draft = none) (hs : e.dict.Standard)
    (hn : Numeral.parse name = .error x) (ht : ∀ t ∈ ts, ∃ p, e.dict.Reads name t p)
    (hline : Token.ofText line = .ok (":" :: name :: (ts ++ [";"]))) (lim : Limits) (fuel : Nat) :
    ((∃ e', (feed lim fuel line).run e = .ok () e') ↔ e.dict.Derivable name ts) ∧
    (∀ e', (feed lim fuel line).run e = .ok () e' →
      ∃ c, e'.dict = e.dict.add ⟨Text.upper name, .compiled c, false⟩) ∧
    (¬e.dict.Derivable name ts → ∃ f e', (feed lim fuel line).run e = .error (.fault f) e' ∧
      f.kind = .unbalancedControlFlow ∧ e'.dict = e.dict ∧
      RefusedEarly lim fuel e name ts f) := by
  have hrefuse := fun hder => run_feed_of_not_derivable hd hs hn ht hder hline lim fuel
  have hderivable : ∀ e', (feed lim fuel line).run e = .ok () e' → e.dict.Derivable name ts := by
    intro e' he
    by_contra hder
    obtain ⟨f, e₁, hf, _⟩ := hrefuse hder
    rw [hf] at he
    cases he
  refine ⟨⟨fun ⟨e', he⟩ => hderivable e' he, fun hder => ?_⟩, fun e' he => ?_, hrefuse⟩
  · obtain ⟨b, hb⟩ := run_feed_of_derivable hd hs hn hder hline lim fuel
    exact ⟨_, hb⟩
  · obtain ⟨b, hb⟩ := run_feed_of_derivable hd hs hn (hderivable e' he) hline lim fuel
    rw [hb] at he
    cases he
    exact ⟨_, rfl⟩

/-- A second `ELSE` is refused on the spot. -/
theorem refuses_second_else :
    ¬Engine.fresh.dict.Derivable "X" ["IF", "1", "ELSE", "2", "ELSE", "THEN"] ∧
    ∃ f e', (feed {} 0 ": X IF 1 ELSE 2 ELSE THEN ;").run .fresh = .error (.fault f) e' ∧
      f.kind = .unbalancedControlFlow ∧ e'.dict = .builtins ∧
      RefusedEarly {} 0 .fresh "X" ["IF", "1", "ELSE", "2", "ELSE", "THEN"] f := by
  have hif : ∃ p, Engine.fresh.dict.Reads "X" "IF" p :=
    ⟨_, .control (Builtin.upper_name .ifWord) rfl⟩
  have helse : ∃ p, Engine.fresh.dict.Reads "X" "ELSE" p :=
    ⟨_, .control (Builtin.upper_name .elseWord) rfl⟩
  have hthen : ∃ p, Engine.fresh.dict.Reads "X" "THEN" p :=
    ⟨_, .control (Builtin.upper_name .thenWord) rfl⟩
  have hone : ∃ p, Engine.fresh.dict.Reads "X" "1" p :=
    Dictionary.Reads.exists_of_number (n := 1) (by decide +kernel) rfl (by decide)
  have htwo : ∃ p, Engine.fresh.dict.Reads "X" "2" p :=
    Dictionary.Reads.exists_of_number (n := 2) (by decide +kernel) rfl (by decide)
  have hreads : ∀ t ∈ ["IF", "1", "ELSE", "2", "ELSE", "THEN"],
      ∃ p, Engine.fresh.dict.Reads "X" t p := by
    simp only [List.forall_mem_cons]
    exact ⟨hif, hone, helse, htwo, helse, hthen, by simp⟩
  have hline : Token.ofText ": X IF 1 ELSE 2 ELSE THEN ;" =
      .ok (":" :: "X" :: (["IF", "1", "ELSE", "2", "ELSE", "THEN"] ++ [";"])) := by
    decide +kernel
  have hx : Numeral.parse "X" = .error (.notANumber "X") := rfl
  have h := accepts_exactly_bodies rfl Dictionary.standard_builtins hx hreads hline {} 0
  have hrun : (feed {} 0 ": X IF 1 ELSE 2 ELSE THEN ;").run .fresh = .error (.fault .elseWithoutIf)
      (engine ((feed {} 0 ": X IF 1 ELSE 2 ELSE THEN ;").run .fresh)) := by
    decide +kernel
  have hnot : ¬Engine.fresh.dict.Derivable "X" ["IF", "1", "ELSE", "2", "ELSE", "THEN"] := by
    intro hder
    obtain ⟨e', he⟩ := h.1.mpr hder
    rw [hrun] at he
    cases he
  exact ⟨hnot, h.2.2 hnot⟩

end

end Forthlet
