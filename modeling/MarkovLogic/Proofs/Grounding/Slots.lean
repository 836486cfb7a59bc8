/-
MarkovLogic/Proofs/Grounding/Slots.lean

Prepared literals without fallbacks.

A prepared literal keeps its arguments in slots of two kinds, positions for an
atom that is looked up and names for one that is computed, and where a digit or
a name is missing it falls back on something harmless: the atom counts as
absent.  Here all arguments are kept in slots of one kind (`Slot`), an argument
whose domain is that of the variable is not looked up again, and what should
not occur has no result: a variable without a digit, a digit outside its domain,
an argument without a domain, a name where a position is asked for, and a
position where a name is (`Resolved.find?`).

If the digits cover the variables of the literal and are in range, there is
always a result, and it is what the prepared literal finds
(`Resolved.needsNoFallback`).  This needs the digits in two places: a variable
finds its digit because the digits cover it, and the digit finds a name because
it is in range.
-/
import MarkovLogic.Proofs.Grounding.Correspondence

namespace MarkovLogic.Grounding

/-! ### Slots -/

/-- An argument of an atom, looked up or computed. -/
inductive Slot where
  /-- The value of a digit; `rebound` is the domain of the argument if it is not
  that of the variable. -/
  | digit (position : Nat) (rebound : Option Domain)
  /-- The position of a constant; `none` if it is not in the domain. -/
  | index (index : Option Nat)
  /-- The name of a constant. -/
  | name (name : String)

namespace Slot

/-- The slot of an argument that ranges over a domain; `same` tells domains
apart. -/
def lookedUp? (same : Domain → Domain → Bool) (digits : List Digit) : Term × Domain → Option Slot
  | (.constant c, domain) => some (.index (domain.find? c))
  | (.var v, domain) => do
    let d ← digits[positionOf digits v]?
    return .digit (positionOf digits v) (if same domain d.domain then none else some domain)

/-- The slot of an argument of a computed atom. -/
def computed? (digits : List Digit) : Term → Option Slot
  | .constant c => some (.name c)
  | .var v => do
    let _ ← digits[positionOf digits v]?
    return .digit (positionOf digits v) none

/-- The position of the argument in its domain, where the outer `none` means that
there is no such slot or no such value. -/
def index? (digits : List Digit) (ds : List Nat) : Slot → Option (Option Nat)
  | .digit position rebound => do
    let d ← digits[position]?
    let value ← ds[position]?
    let c ← d.domain.name? value
    return match rebound with
      | none => some value
      | some domain => domain.find? c
  | .index i => some i
  | .name _ => none

/-- The name of the argument. -/
def name? (digits : List Digit) (ds : List Nat) : Slot → Option String
  | .digit position _ => do
    let d ← digits[position]?
    let value ← ds[position]?
    d.domain.name? value
  | .index _ => none
  | .name c => some c

/-- The slots that a literal with this source may have: no name of a constant where
atoms are looked up, no position of a constant where they are computed, and no
digit that does not exist. -/
def Fits (digits : List Digit) : Source → Slot → Prop
  | _, .digit position _ => position < digits.length
  | .stored _, .index _ => True
  | .stored _, .name _ => False
  | .computed _, .index _ => False
  | .computed _, .name _ => True

variable {same : Domain → Domain → Bool} {digits : List Digit}

theorem exists_lookedUp? {t : Term}
    (ht : ∀ v, t = .var v → ∃ d, digits[positionOf digits v]? = some d) (domain : Domain) :
    ∃ s, lookedUp? same digits (t, domain) = some s := by
  cases t with
  | constant c => exact ⟨_, rfl⟩
  | var v =>
    obtain ⟨d, hd⟩ := ht v rfl
    simp [lookedUp?, hd]

theorem exists_computed? {t : Term}
    (ht : ∀ v, t = .var v → ∃ d, digits[positionOf digits v]? = some d) :
    ∃ s, computed? digits t = some s := by
  cases t with
  | constant c => exact ⟨_, rfl⟩
  | var v =>
    obtain ⟨d, hd⟩ := ht v rfl
    simp [computed?, hd]

theorem fits_of_lookedUp? {p : Term × Domain} {s : Slot} (h : lookedUp? same digits p = some s)
    (e : Evidence) : s.Fits digits (.stored e) := by
  obtain ⟨v | c, domain⟩ := p
  · obtain ⟨d, hd, hs⟩ := Option.bind_eq_some_iff.1 h
    cases hs
    exact (List.getElem?_eq_some_iff.1 hd).1
  · cases h
    trivial

theorem fits_of_computed? {t : Term} {s : Slot} (h : computed? digits t = some s) (rule : Rule) :
    s.Fits digits (.computed rule) := by
  cases t with
  | constant c =>
    cases h
    trivial
  | var v =>
    obtain ⟨d, hd, hs⟩ := Option.bind_eq_some_iff.1 h
    cases hs
    exact (List.getElem?_eq_some_iff.1 hd).1

/-- The slot of an argument that is looked up has the position that the prepared
literal takes. -/
theorem index?_of_lookedUp? (hsame : ∀ a b, same a b = true → a = b) {ds : List Nat}
    (hds : InRange digits ds) {p : Term × Domain} {s : Slot}
    (h : lookedUp? same digits p = some s) :
    s.index? digits ds = some ((indexSlot digits p.1 p.2).index? ds) := by
  obtain ⟨v | c, domain⟩ := p
  · obtain ⟨d, hd, hs⟩ := Option.bind_eq_some_iff.1 h
    cases hs
    obtain ⟨i, hi, hname⟩ := hds.exists_name hd
    have hposition := index?_indexSlot hds (t := .var v) (fun w hw => by
      cases hw
      exact ⟨d, hd⟩) domain
    rw [hposition, Term.under]
    rcases hrebound : same domain d.domain with _ | _
    · simp [index?, hd, hi, hname]
    · -- a variable's own domain finds the value again
      obtain rfl := hsame _ _ hrebound
      simp [index?, hd, hi, hname, Domain.name?_eq_some_iff.1 hname]
  · cases h
    rfl

/-- The slot of an argument of a computed atom has the name that the prepared
literal takes. -/
theorem name?_of_computed? {ds : List Nat} (hds : InRange digits ds) {t : Term} {s : Slot}
    (h : computed? digits t = some s) :
    ∃ c, s.name? digits ds = some c ∧ (nameSlot digits t).name? ds = some c := by
  cases t with
  | constant c =>
    cases h
    exact ⟨c, rfl, rfl⟩
  | var v =>
    obtain ⟨d, hd, hs⟩ := Option.bind_eq_some_iff.1 h
    cases hs
    obtain ⟨i, hi, hname⟩ := hds.exists_name hd
    refine ⟨substitutionOf digits ds v, ?_, ?_⟩
    · simp [name?, hd, hi, hname]
    · simp [nameSlot, NameSlot.name?, hd, hi, hname]

theorem exists_names {ds : List Nat} (hds : InRange digits ds) {terms : List Term}
    {slots : List Slot} (h : List.Forall₂ (fun t s => computed? digits t = some s) terms slots) :
    ∃ names, slots.mapM (name? digits ds) = some names ∧
      (terms.map (nameSlot digits)).mapM (NameSlot.name? ds) = some names := by
  induction h with
  | nil => exact ⟨[], rfl, rfl⟩
  | cons ht _ ih =>
    obtain ⟨c, hc, hc'⟩ := name?_of_computed? hds ht
    obtain ⟨names, hnames, hnames'⟩ := ih
    exact ⟨c :: names, by simp [hc, hnames], by simp [hc', hnames']⟩

end Slot

/-! ### Literals -/

namespace Resolved

/-- The slots of the arguments. -/
def slots? (same : Domain → Domain → Bool) (digits : List Digit) (r : Resolved) :
    Option (List Slot) :=
  match r.source with
  | .stored e =>
    if r.literal.atom.terms.length = e.block.domains.length then
      r.typedTerms.mapM (Slot.lookedUp? same digits)
    else none
  | .computed _ => r.literal.atom.terms.mapM (Slot.computed? digits)

/-- Finds out about the atom, without fallbacks. -/
def find? (digits : List Digit) (slots : List Slot) (ds : List Nat) (r : Resolved) :
    Option Finding :=
  match r.source with
  | .stored e => do
    let indices ← slots.mapM (Slot.index? digits ds)
    return match (indices.mapM id).bind e.block.encodeIndices? with
      | none => .absent
      | some id =>
        match (e.get id).toBool? with
        | some value => .known value
        | none => .unknown id
  | .computed rule => do
    let names ← slots.mapM (Slot.name? digits ds)
    return .known (rule names)

/-- Under some combinations of digits the literal finds the same without
fallbacks. -/
def NeedsNoFallback (digits : List Digit) (dss : List (List Nat)) (r : Resolved) : Prop :=
  ∀ same : Domain → Domain → Bool, (∀ a b, same a b = true → a = b) →
    ∃ slots, r.slots? same digits = some slots ∧
      (∀ s ∈ slots, s.Fits digits r.source) ∧
      ∀ ds ∈ dss, r.find? digits slots ds = some ((probe digits r).test.find ds)

/-- An argument that is looked up has a domain. -/
def Typed (r : Resolved) : Prop :=
  ∀ e, r.source = .stored e → r.literal.atom.terms.length = e.block.domains.length

variable {same : Domain → Domain → Bool} {digits : List Digit} {r : Resolved}

theorem exists_slots? (hr : r.Typed) (hcovers : Covers digits r.literal.atom) :
    ∃ slots, r.slots? same digits = some slots := by
  rw [← Option.isSome_iff_exists, slots?]
  split
  · rename_i e he
    rw [if_pos (hr e he), mapM_isSome_iff]
    rintro ⟨t, domain⟩ htyped
    rw [typedTerms, he] at htyped
    have ht := (List.of_mem_zip htyped).1
    exact Option.isSome_iff_exists.2
      (Slot.exists_lookedUp? (fun v hv => hcovers v (hv ▸ ht)) domain)
  · rw [mapM_isSome_iff]
    exact fun t ht => Option.isSome_iff_exists.2
      (Slot.exists_computed? fun v hv => hcovers v (hv ▸ ht))

theorem fits_of_slots? {slots : List Slot} (h : r.slots? same digits = some slots) :
    ∀ s ∈ slots, s.Fits digits r.source := by
  intro s hs
  rw [slots?] at h
  split at h
  · rename_i e he
    split at h
    · obtain ⟨p, -, hp⟩ := exists_mem_of_forall₂ (mapM_eq_some_iff.1 h) hs
      exact he ▸ Slot.fits_of_lookedUp? hp e
    · cases h
  · rename_i rule hrule
    obtain ⟨t, -, ht⟩ := exists_mem_of_forall₂ (mapM_eq_some_iff.1 h) hs
    exact hrule ▸ Slot.fits_of_computed? ht rule

/-- **Without fallbacks a literal finds the same.** -/
theorem find?_eq (hsame : ∀ a b, same a b = true → a = b) {slots : List Slot}
    (h : r.slots? same digits = some slots) {ds : List Nat} (hds : InRange digits ds) :
    r.find? digits slots ds = some ((probe digits r).test.find ds) := by
  obtain ⟨l, e | rule⟩ := r
  · obtain ⟨-, h⟩ : l.atom.terms.length = e.block.domains.length ∧
        (l.atom.terms.zip e.block.domains).mapM (Slot.lookedUp? same digits) = some slots := by
      rw [slots?] at h
      dsimp only at h
      split at h
      · exact ⟨‹_›, h⟩
      · cases h
    -- every slot has a result, and only then does one of them count as missing
    have hindices : slots.mapM (Slot.index? digits ds) =
        some ((l.atom.terms.zip e.block.domains).map fun p =>
          (indexSlot digits p.1 p.2).index? ds) := by
      rw [mapM_eq_some_iff, List.forall₂_map_right_iff]
      exact (mapM_eq_some_iff.1 h).flip.imp fun s p hp => Slot.index?_of_lookedUp? hsame hds hp
    have hjoin : ((l.atom.terms.zip e.block.domains).map fun p =>
          (indexSlot digits p.1 p.2).index? ds).mapM id =
        ((l.atom.terms.zip e.block.domains).map fun p => indexSlot digits p.1 p.2).mapM
          (IndexSlot.index? ds) := by
      rw [List.mapM_map, List.mapM_map]
      rfl
    simp only [find?, hindices, Option.bind_eq_bind, Option.bind_some, hjoin, probe, typedTerms,
      Test.find]
    rfl
  · obtain ⟨names, hslots, hnames⟩ := Slot.exists_names hds (mapM_eq_some_iff.1 h)
    simp only [find?, hslots, Option.bind_eq_bind, Option.bind_some, probe, Test.find, hnames]
    rfl

theorem needsNoFallback (hr : r.Typed) (hcovers : Covers digits r.literal.atom)
    {dss : List (List Nat)} (hdss : ∀ ds ∈ dss, InRange digits ds) :
    r.NeedsNoFallback digits dss := by
  intro same hsame
  obtain ⟨slots, hslots⟩ : ∃ slots, r.slots? same digits = some slots :=
    exists_slots? hr hcovers
  exact ⟨slots, hslots, fits_of_slots? hslots, fun ds hds => find?_eq hsame hslots (hdss ds hds)⟩

end Resolved

end MarkovLogic.Grounding
