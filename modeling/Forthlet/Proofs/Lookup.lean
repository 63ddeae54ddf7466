import Forthlet.Proofs.Capitals

/-!
# Looking up and listing

A dictionary that was built from nothing answers for the definitions that were made, in their order.
Looking a name up and listing all names are two scans from the newest entry back. They agree: what
is found under a name is its last definition, and the names are listed by their last definitions.
-/
namespace Forthlet

/-- What is handed to a dictionary to define a word. -/
structure Definition where
  name : String
  body : Body
  immediate : Bool
  deriving DecidableEq, Repr

namespace Definition

/-- The entry that the definition makes. -/
def word (h : Definition) : Word := ⟨Text.upper h.name, h.body, h.immediate⟩

/-- The definition is the one at this position, it defines `x` in some spelling, and no later one
does. -/
def LastNamed (hs : List Definition) (x : String) (position : Nat) (h : Definition) : Prop :=
  ∃ earlier later, hs = earlier ++ h :: later ∧ earlier.length = position ∧
    Text.upper h.name = Text.upper x ∧ ∀ h' ∈ later, Text.upper h'.name ≠ Text.upper x

theorem exists_lastNamed {hs : List Definition} {x : String}
    (h : ∃ h ∈ hs, Text.upper h.name = Text.upper x) : ∃ position h, LastNamed hs x position h := by
  induction hs with
  | nil =>
      obtain ⟨_, hmem, -⟩ := h
      cases hmem
  | cons first hs ih =>
      by_cases hlater : ∃ h ∈ hs, Text.upper h.name = Text.upper x
      · obtain ⟨_, last, earlier, later, rfl, -, hname, hnone⟩ := ih hlater
        exact ⟨_, last, first :: earlier, later, rfl, rfl, hname, hnone⟩
      · obtain ⟨h, hmem, hname⟩ := h
        rcases List.mem_cons.mp hmem with rfl | hmem
        · exact ⟨_, h, [], hs, rfl, rfl, hname, fun h' hmem' hname' => hlater ⟨h', hmem', hname'⟩⟩
        · exact absurd ⟨h, hmem, hname⟩ hlater

end Definition

open Definition

/-- Keeping some elements and dropping repetitions can be done in either order. -/
theorem eraseDups_filter {α : Type} [DecidableEq α] (p : α → Bool) (l : List α) :
    (l.filter p).eraseDups = l.eraseDups.filter p := by
  induction hn : l.length using Nat.strongRecOn generalizing l with
  | ind n ih =>
    cases l with
    | nil => rfl
    | cons a l =>
        have hshort : (l.filter fun b => !b == a).length < n := by
          have hle := List.length_filter_le (fun b => !b == a) l
          rw [List.length_cons] at hn
          omega
        have hrest := ih _ hshort (l.filter fun b => !b == a) rfl
        rw [List.eraseDups_cons]
        cases ha : p a with
        | true =>
            rw [List.filter_cons_of_pos ha, List.filter_cons_of_pos ha, List.eraseDups_cons,
              List.filter_comm, hrest]
        | false =>
            have hne : l.filter p = (l.filter fun b => !b == a).filter p := by
              rw [List.filter_filter]
              refine List.filter_congr fun b _ => ?_
              cases hb : p b with
              | true =>
                  have hab : b ≠ a := fun h => by simp [h, ha] at hb
                  simp [hab]
              | false => rfl
            rw [List.filter_cons_of_neg (by simp [ha]), List.filter_cons_of_neg (by simp [ha]), hne,
              hrest]

namespace Dictionary

/-- The dictionary that these definitions make, one after the other, from nothing. -/
def ofDefinitions (hs : List Definition) : Dictionary :=
  hs.foldl (fun d h => d.define h.name h.body h.immediate) .empty

section
variable {d : Dictionary} {name x : String} {body : Body} {immediate : Bool} {position : Nat}

theorem size_define : (d.define name body immediate).size = d.size + 1 := size_add d _

theorem latest?_define : (d.define name body immediate).latest? = some d.size := by
  rw [latest?, size_define, if_neg (Nat.succ_ne_zero _), Nat.add_sub_cancel]

theorem get?_define : (d.define name body immediate).get? d.size =
    some ⟨Text.upper name, body, immediate⟩ := by
  rw [define, get?_add, if_pos rfl]

theorem find?_define_self : (d.define name body immediate).find? name = some d.size :=
  find?_add rfl

theorem find?_define_of_ne (h : Text.upper x ≠ Text.upper name) :
    (d.define name body immediate).find? x = d.find? x := by
  have hbelow : ∀ n ≤ d.size,
      (d.define name body immediate).findBelow (Text.upper x) n = d.findBelow (Text.upper x) n := by
    intro n
    induction n with
    | zero => exact fun _ => rfl
    | succ n ih =>
        intro hn
        have hget : (d.define name body immediate).get? n = d.get? n := by
          rw [define, get?_add, if_neg (by omega)]
        rw [findBelow, findBelow, hget, ih (by omega)]
  have hnewest : ((d.define name body immediate).get? d.size).map Word.name ≠
      some (Text.upper x) := by
    rw [get?_define]
    exact fun hname => h (Option.some.inj hname).symm
  rw [find?, size_define, findBelow, if_neg hnewest, hbelow _ (Nat.le_refl _), find?]

theorem find?_lt (h : d.find? x = some position) : position < d.size := by
  obtain ⟨w, hw, -⟩ := get?_of_find? h
  exact get?_lt hw

/-- A new definition comes first in the list, and its name is no longer listed where it was. -/
theorem names_define : (d.define name body immediate).names =
    Text.upper name :: d.names.filter (fun u => !u == Text.upper name) := by
  have hentries : (d.define name body immediate).entries.toList =
      d.entries.toList ++ [⟨Text.upper name, body, immediate⟩] := Array.toList_push
  rw [names, hentries, List.reverse_append, List.reverse_singleton, List.singleton_append,
    List.map_cons, List.eraseDups_cons, eraseDups_filter, names]

end

section
variable {hs : List Definition} {h : Definition} {x u : String} {position : Nat}

theorem ofDefinitions_concat (hs : List Definition) (h : Definition) :
    ofDefinitions (hs ++ [h]) = (ofDefinitions hs).define h.name h.body h.immediate := by
  rw [ofDefinitions, List.foldl_append, List.foldl_cons, List.foldl_nil, ofDefinitions]

theorem entries_ofDefinitions (hs : List Definition) :
    (ofDefinitions hs).entries.toList = hs.map word := by
  induction hs using List.reverseRecOn with
  | nil => rfl
  | append_singleton hs h ih =>
      rw [ofDefinitions_concat, define, add, Array.toList_push, ih, List.map_append]
      rfl

theorem get?_ofDefinitions (hs : List Definition) (position : Nat) :
    (ofDefinitions hs).get? position = hs[position]?.map word := by
  rw [get?, ← Array.getElem?_toList, entries_ofDefinitions, List.getElem?_map]

theorem get?_of_lastNamed (h' : LastNamed hs x position h) :
    (ofDefinitions hs).get? position = some h.word := by
  obtain ⟨earlier, later, rfl, rfl, -, -⟩ := h'
  rw [get?_ofDefinitions, List.getElem?_append_right (Nat.le_refl _), Nat.sub_self]
  rfl

theorem find?_of_lastNamed (h' : LastNamed hs x position h) :
    (ofDefinitions hs).find? x = some position := by
  have hget := get?_of_lastNamed h'
  obtain ⟨earlier, later, rfl, rfl, hname, hnone⟩ := h'
  refine find?_of_newest hget hname fun {p v} hp hv => ?_
  obtain ⟨k, rfl⟩ : ∃ k, p = earlier.length + (k + 1) := ⟨p - earlier.length - 1, by omega⟩
  rw [get?_ofDefinitions, List.getElem?_append_right (by omega), Nat.add_sub_cancel_left,
    List.getElem?_cons_succ] at hv
  obtain ⟨h', hat, rfl⟩ := Option.map_eq_some_iff.mp hv
  exact hnone h' (List.mem_of_getElem? hat)

theorem find?_eq_none (hnone : ∀ h ∈ hs, Text.upper h.name ≠ Text.upper x) :
    (ofDefinitions hs).find? x = none := by
  cases hfind : (ofDefinitions hs).find? x with
  | none => rfl
  | some position =>
      obtain ⟨w, hw, hname⟩ := get?_of_find? hfind
      rw [get?_ofDefinitions] at hw
      obtain ⟨h, hat, rfl⟩ := Option.map_eq_some_iff.mp hw
      exact absurd hname (hnone h (List.mem_of_getElem? hat))

/-- A name is either defined nowhere or defined last somewhere. -/
theorem find?_cases (hs : List Definition) (x : String) :
    ((∀ h ∈ hs, Text.upper h.name ≠ Text.upper x) ∧ (ofDefinitions hs).find? x = none) ∨
      ∃ position h, LastNamed hs x position h ∧ (ofDefinitions hs).find? x = some position := by
  by_cases hnamed : ∃ h ∈ hs, Text.upper h.name = Text.upper x
  · obtain ⟨position, h, hlast⟩ := exists_lastNamed hnamed
    exact .inr ⟨position, h, hlast, find?_of_lastNamed hlast⟩
  · have hnone : ∀ h ∈ hs, Text.upper h.name ≠ Text.upper x :=
      fun h hmem hname => hnamed ⟨h, hmem, hname⟩
    exact .inl ⟨hnone, find?_eq_none hnone⟩

theorem mem_names : u ∈ (ofDefinitions hs).names ↔ ∃ h ∈ hs, Text.upper h.name = u := by
  rw [names, List.mem_eraseDups, entries_ofDefinitions, ← List.map_reverse, List.map_map,
    List.mem_map]
  simp [word]

/-- Listed names are in upper case. -/
theorem upper_of_mem_names (hu : u ∈ (ofDefinitions hs).names) : Text.upper u = u := by
  obtain ⟨h, -, rfl⟩ := mem_names.mp hu
  exact Text.upper_upper h.name

theorem exists_find?_of_mem_names (hu : u ∈ (ofDefinitions hs).names) :
    ∃ position, (ofDefinitions hs).find? u = some position := by
  obtain ⟨h, hmem, hname⟩ := mem_names.mp hu
  rcases find?_cases hs u with ⟨hnone, -⟩ | ⟨position, _, -, hfind⟩
  · exact absurd (hname.trans (upper_of_mem_names hu).symm) (hnone h hmem)
  · exact ⟨position, hfind⟩

end

/-- What is found under the one name was defined after what is found under the other. -/
def Newer (d : Dictionary) (u v : String) : Prop :=
  ∃ k l, d.find? u = some k ∧ d.find? v = some l ∧ l < k

theorem Newer.ne {d : Dictionary} {u v : String} (h : d.Newer u v) : u ≠ v := by
  rintro rfl
  obtain ⟨k, l, hk, hl, hlt⟩ := h
  rw [hk] at hl
  cases hl
  exact Nat.lt_irrefl _ hlt

theorem names_newer (hs : List Definition) :
    (ofDefinitions hs).names.Pairwise (ofDefinitions hs).Newer := by
  induction hs using List.reverseRecOn with
  | nil => exact .nil
  | append_singleton hs h ih =>
      rw [ofDefinitions_concat, names_define]
      -- A name that stays in the list is still found where it was.
      have hkept : ∀ u ∈ (ofDefinitions hs).names.filter (fun u => !u == Text.upper h.name),
          u ∈ (ofDefinitions hs).names ∧
            ((ofDefinitions hs).define h.name h.body h.immediate).find? u =
              (ofDefinitions hs).find? u := by
        intro u hu
        obtain ⟨hmem, hne⟩ := List.mem_filter.mp hu
        refine ⟨hmem, find?_define_of_ne ?_⟩
        rw [upper_of_mem_names hmem]
        simpa using hne
      refine List.pairwise_cons.mpr ⟨fun v hv => ?_, ?_⟩
      · obtain ⟨hmem, hsame⟩ := hkept v hv
        obtain ⟨l, hl⟩ := exists_find?_of_mem_names hmem
        refine ⟨_, l, ?_, hsame.trans hl, find?_lt hl⟩
        rw [find?_of_upper (Text.upper_upper h.name), find?_define_self]
      · refine (List.Pairwise.filter _ ih).imp_of_mem fun {u v} hu hv hnewer => ?_
        obtain ⟨k, l, hk, hl, hlt⟩ := hnewer
        exact ⟨k, l, (hkept u hu).2.trans hk, (hkept v hv).2.trans hl, hlt⟩

/-- Looking up gives the last definition of a name, in whatever case it is written. -/
structure Finds (d : Dictionary) (hs : List Definition) : Prop where
  found : ∀ {x position}, d.find? x = some position ↔ ∃ h, LastNamed hs x position h
  entry : ∀ {x position h}, LastNamed hs x position h → d.get? position = some h.word
  missing : ∀ {x}, d.find? x = none ↔ ∀ h ∈ hs, Text.upper h.name ≠ Text.upper x
  contains : ∀ {x}, d.contains x = true ↔ d.find? x ≠ none
  lookup : ∀ {x position}, d.lookup x = .ok position ↔ d.find? x = some position
  report : ∀ {x f}, d.lookup x = .error f ↔ d.find? x = none ∧ f = .undefined x

/-- The names that were defined are listed once each, those with the latest definitions first. -/
structure Lists (d : Dictionary) (hs : List Definition) : Prop where
  nodup : d.names.Nodup
  mem : ∀ {u}, u ∈ d.names ↔ ∃ h ∈ hs, Text.upper h.name = u
  newer : d.names.Pairwise d.Newer
  live : ∀ {u}, u ∈ d.names → ∃ position w, d.find? u = some position ∧
    d.get? position = some w ∧ w.name = u

theorem finds_ofDefinitions (hs : List Definition) : (ofDefinitions hs).Finds hs where
  found {x position} := by
    refine ⟨fun hfind => ?_, fun ⟨h, hlast⟩ => find?_of_lastNamed hlast⟩
    rcases find?_cases hs x with ⟨-, hnone⟩ | ⟨k, h, hlast, hk⟩
    · rw [hnone] at hfind
      cases hfind
    · rw [hk] at hfind
      cases hfind
      exact ⟨h, hlast⟩
  entry := get?_of_lastNamed
  missing {x} := by
    refine ⟨fun hfind => ?_, find?_eq_none⟩
    rcases find?_cases hs x with ⟨hnone, -⟩ | ⟨k, h, -, hk⟩
    · exact hnone
    · rw [hk] at hfind
      cases hfind
  contains := Option.isSome_iff_ne_none
  lookup {x position} := by
    unfold Dictionary.lookup
    cases (ofDefinitions hs).find? x <;> simp
  report {x f} := by
    unfold Dictionary.lookup
    cases (ofDefinitions hs).find? x with
    | none => simp [eq_comm]
    | some k => simp

theorem lists_ofDefinitions (hs : List Definition) : (ofDefinitions hs).Lists hs where
  nodup := (names_newer hs).imp Newer.ne
  mem := mem_names
  newer := names_newer hs
  live {u} hu := by
    obtain ⟨position, hfind⟩ := exists_find?_of_mem_names hu
    obtain ⟨w, hw, hname⟩ := get?_of_find? hfind
    exact ⟨position, w, hfind, hw, hname.trans (upper_of_mem_names hu)⟩

/-- A dictionary that was built by definitions finds under each name its last definition and
reports any other name as it was written, it lists the names by their last definitions, and one
more definition changes what is found under its own name only. -/
theorem lookup_agrees_with_listing (hs : List Definition) :
    (ofDefinitions hs).Finds hs ∧ (ofDefinitions hs).Lists hs ∧
    ∀ h : Definition,
      (ofDefinitions (hs ++ [h])).size = (ofDefinitions hs).size + 1 ∧
      (ofDefinitions (hs ++ [h])).latest? = some (ofDefinitions hs).size ∧
      (ofDefinitions (hs ++ [h])).get? (ofDefinitions hs).size = some h.word ∧
      (ofDefinitions (hs ++ [h])).find? h.name = some (ofDefinitions hs).size ∧
      ∀ x, Text.upper x ≠ Text.upper h.name →
        (ofDefinitions (hs ++ [h])).find? x = (ofDefinitions hs).find? x := by
  refine ⟨finds_ofDefinitions hs, lists_ofDefinitions hs, fun h => ?_⟩
  rw [ofDefinitions_concat]
  exact ⟨size_define, latest?_define, get?_define, find?_define_self,
    fun _ hne => find?_define_of_ne hne⟩

/-- Two spellings of one name in upper case, and another name between them. -/
def streets : List Definition :=
  [⟨"stra\u00dfe", .compiled #[.lit 1], false⟩, ⟨"Dup", .compiled #[.lit 2], false⟩,
    ⟨"STRASSE", .compiled #[.lit 3], true⟩]

theorem lookup_agrees_with_listing_street :
    (ofDefinitions streets).find? "Stra\u00dfe" = some 2 ∧
    (ofDefinitions streets).get? 2 = some ⟨"STRASSE", .compiled #[.lit 3], true⟩ ∧
    (ofDefinitions streets).names = ["STRASSE", "DUP"] ∧
    (ofDefinitions streets).lookup "Stra\u00df" = .error (.undefined "Stra\u00df") := by
  obtain ⟨hfinds, -, -⟩ := lookup_agrees_with_listing streets
  have hlast : LastNamed streets "Stra\u00dfe" 2 ⟨"STRASSE", .compiled #[.lit 3], true⟩ :=
    ⟨streets.take 2, [], rfl, rfl, by decide +kernel, nofun⟩
  have hmissing : (ofDefinitions streets).find? "Stra\u00df" = none :=
    hfinds.missing.mpr (by decide +kernel)
  exact ⟨hfinds.found.mpr ⟨_, hlast⟩, hfinds.entry hlast, by decide +kernel,
    hfinds.report.mpr ⟨hmissing, rfl⟩⟩

end Dictionary

end Forthlet
