/-
MarkovLogic/Proofs/Evidence/Counters.lean

The counters of evidence.

Evidence counts the atoms that are stated to hold while the statements come in, and a
later statement about an atom takes back the one before.  Whatever the history, three
things are known of it at any time (`Tallies`): what is stored is the last statement
about each atom, each atom is stored once, and the counter is the number of atoms whose
last statement says that they hold.  So when an atom is taken off the counter, it has
been counted (`Tallies.set?_eq`).

Whether some atom can still be unknown is told from two numbers, the number of stored
statements and the size of the block.  All statements are about atoms of the block, so
there are fewer of them than atoms exactly if some atom has none
(`Tallies.size_lt_iff`).

Main statement: `accurate_record`.
-/
import MarkovLogic.Proofs.Evidence.Filing

namespace MarkovLogic.Evidence

open Herbrand

/-! ### Histories -/

/-- The value in the last statement about an atom. -/
def lastOf (sets : List (Nat × Bool)) (id : Nat) : Option Bool :=
  sets.reverse.lookup id

/-- The atoms that statements are about. -/
def statedIds (sets : List (Nat × Bool)) : Finset Nat :=
  (sets.map Prod.fst).toFinset

/-- The atoms whose last statement says that they hold. -/
def trueIds (sets : List (Nat × Bool)) : Finset Nat :=
  (statedIds sets).filter fun id => lastOf sets id = some true

variable {sets : List (Nat × Bool)} {id id' : Nat} {value : Bool}

theorem lastOf_concat : lastOf (sets ++ [(id, value)]) id' =
    if id = id' then some value else lastOf sets id' := by
  rw [lastOf, List.reverse_concat, List.lookup_cons]
  by_cases h : id = id'
  · simp [h]
  · rw [beq_eq_false_iff_ne.2 (Ne.symm h), if_neg h]
    rfl

theorem statedIds_concat :
    statedIds (sets ++ [(id, value)]) = insert id (statedIds sets) := by
  ext id'
  simp [statedIds]

/-- An atom has a last statement if there is any about it. -/
theorem isSome_lastOf_iff : (lastOf sets id).isSome ↔ id ∈ statedIds sets := by
  induction sets using List.reverseRecOn with
  | nil => simp [lastOf, statedIds]
  | append_singleton sets s ih =>
    rw [lastOf_concat, statedIds_concat, Finset.mem_insert, ← ih]
    by_cases h : s.1 = id
    · simp [h]
    · simp [h, Ne.symm h]

theorem mem_trueIds_iff : id ∈ trueIds sets ↔ lastOf sets id = some true := by
  rw [trueIds, Finset.mem_filter, ← isSome_lastOf_iff]
  apply and_iff_right_of_imp
  intro h
  rw [h, Option.isSome_some]

theorem trueIds_concat : trueIds (sets ++ [(id, value)]) =
    if value then insert id (trueIds sets) else (trueIds sets).erase id := by
  ext id'
  rw [mem_trueIds_iff, lastOf_concat]
  by_cases h : id = id'
  · -- nothing but the new statement counts for its own atom
    subst h
    cases value with
    | true => simp
    | false => simp
  · have hne : id' ≠ id := Ne.symm h
    cases value with
    | true => simp [h, hne, mem_trueIds_iff]
    | false => simp [h, hne, mem_trueIds_iff]

/-! ### Recording a history -/

/-- A counted atom leaves the counter when it is stated to fail. -/
theorem trueCount_set_of_eq {e : Evidence} (h : e.facts[id]? = some true) :
    (e.set id value).trueCount = if value then e.trueCount else e.trueCount - 1 := by
  unfold set
  rw [h]
  cases value <;> rfl

/-- Any other atom enters the counter when it is stated to hold. -/
theorem trueCount_set_of_ne {e : Evidence} (h : e.facts[id]? ≠ some true) :
    (e.set id value).trueCount = if value then e.trueCount + 1 else e.trueCount := by
  unfold set
  rcases hfact : e.facts[id]? with _ | _ | _
  · cases value <;> rfl
  · cases value <;> rfl
  · exact absurd hfact h

/-- Records one statement after the other. -/
def record (e : Evidence) (sets : List (Nat × Bool)) : Evidence :=
  sets.foldl (fun e s => e.set s.1 s.2) e

/-- Records a statement, unless the counter would have to go below zero. -/
def set? (e : Evidence) (id : Nat) (value : Bool) : Option Evidence :=
  if e.facts[id]? = some true ∧ value = false ∧ e.trueCount = 0 then none
  else some (e.set id value)

/-- Records one statement after the other, as long as the counter does not have to go
below zero. -/
def record? (e : Evidence) (sets : List (Nat × Bool)) : Option Evidence :=
  sets.foldlM (fun e s => e.set? s.1 s.2) e

theorem record_concat (e : Evidence) (sets : List (Nat × Bool)) (s : Nat × Bool) :
    e.record (sets ++ [s]) = (e.record sets).set s.1 s.2 :=
  List.foldl_concat ..

theorem record?_concat (e : Evidence) (sets : List (Nat × Bool)) (s : Nat × Bool) :
    e.record? (sets ++ [s]) = (e.record? sets).bind fun e => e.set? s.1 s.2 := by
  rw [record?, List.foldlM_append]
  simp only [List.foldlM_cons, List.foldlM_nil, bind_pure]
  rfl

@[simp] theorem block_record (e : Evidence) (sets : List (Nat × Bool)) :
    (e.record sets).block = e.block := by
  induction sets using List.reverseRecOn with
  | nil => rfl
  | append_singleton sets s ih => rw [record_concat, block_set, ih]

@[simp] theorem assumption_record (e : Evidence) (sets : List (Nat × Bool)) :
    (e.record sets).assumption = e.assumption := by
  induction sets using List.reverseRecOn with
  | nil => rfl
  | append_singleton sets s ih => rw [record_concat, assumption_set, ih]

/-- Some atom is listed if and only if the world is open and some atom has no statement. -/
theorem unknownIds_ne_nil_iff {e : Evidence} : e.unknownIds ≠ [] ↔
    e.assumption = .open ∧ ∃ id, e.block.contains id ∧ id ∉ e.facts := by
  rw [unknownIds]
  split
  · rename_i hopen
    rw [and_iff_right hopen, ne_eq, List.filter_eq_nil_iff]
    simp [Block.contains_iff, and_assoc]
  · rename_i hclosed
    simp [hclosed]

/-! ### What is known at any time -/

/-- What is known of evidence after a history. -/
structure Tallies (e : Evidence) (sets : List (Nat × Bool)) : Prop where
  facts_eq : ∀ id, e.facts[id]? = lastOf sets id
  size_eq : e.facts.size = (statedIds sets).card
  trueCount_eq : e.trueCount = (trueIds sets).card

theorem tallies_empty (b : Block) (assumption : WorldAssumption) :
    (empty b assumption).Tallies [] where
  facts_eq id := by simp [empty, lastOf]
  size_eq := by simp [empty, statedIds]
  trueCount_eq := by simp [empty, trueIds, statedIds]

namespace Tallies

variable {e : Evidence}

theorem mem_facts_iff (h : e.Tallies sets) : id ∈ e.facts ↔ id ∈ statedIds sets := by
  rw [← Std.HashMap.isSome_getElem?_iff_mem, h.facts_eq, isSome_lastOf_iff]

theorem getElem?_eq_some_true_iff (h : e.Tallies sets) :
    e.facts[id]? = some true ↔ id ∈ trueIds sets := by
  rw [h.facts_eq, mem_trueIds_iff]

/-- The counter after one more statement. -/
theorem trueCount_set (h : e.Tallies sets) (id : Nat) (value : Bool) :
    (e.set id value).trueCount = (trueIds (sets ++ [(id, value)])).card := by
  rw [trueIds_concat]
  by_cases hid : id ∈ trueIds sets
  · rw [trueCount_set_of_eq (h.getElem?_eq_some_true_iff.2 hid), h.trueCount_eq]
    cases value with
    | true => rw [if_pos rfl, if_pos rfl, Finset.insert_eq_of_mem hid]
    | false => rw [if_neg Bool.false_ne_true, if_neg Bool.false_ne_true,
        Finset.card_erase_of_mem hid]
  · rw [trueCount_set_of_ne (mt h.getElem?_eq_some_true_iff.1 hid), h.trueCount_eq]
    cases value with
    | true => rw [if_pos rfl, if_pos rfl, Finset.card_insert_of_notMem hid]
    | false => rw [if_neg Bool.false_ne_true, if_neg Bool.false_ne_true,
        Finset.erase_eq_of_notMem hid]

/-- **One more statement.** -/
theorem concat (h : e.Tallies sets) (id : Nat) (value : Bool) :
    (e.set id value).Tallies (sets ++ [(id, value)]) where
  facts_eq id' := by
    rw [facts_set, Std.HashMap.getElem?_insert, lastOf_concat, h.facts_eq]
    simp only [beq_iff_eq]
  size_eq := by
    rw [facts_set, Std.HashMap.size_insert, statedIds_concat, h.size_eq]
    split
    · rename_i hid
      rw [Finset.insert_eq_of_mem (h.mem_facts_iff.1 hid)]
    · rename_i hid
      rw [Finset.card_insert_of_notMem (mt h.mem_facts_iff.2 hid)]
  trueCount_eq := h.trueCount_set id value

/-- **An atom that is taken off the counter has been counted.** -/
theorem set?_eq (h : e.Tallies sets) (id : Nat) (value : Bool) :
    e.set? id value = some (e.set id value) := by
  apply if_neg
  rintro ⟨hfact, -, hzero⟩
  -- the atom is one of those that the counter counts, so it does not stand at zero
  have hmem : id ∈ trueIds sets := h.getElem?_eq_some_true_iff.1 hfact
  rw [h.trueCount_eq, Finset.card_eq_zero] at hzero
  rw [hzero] at hmem
  exact Finset.notMem_empty id hmem

theorem get_eq (h : e.Tallies sets) (id : Nat) :
    e.get id = (lastOf sets id).elim e.assumption.default Truth.ofBool := by
  rw [get, h.facts_eq]
  cases lastOf sets id <;> rfl

/-- **There are fewer statements than atoms exactly if some atom has none**, provided
that all statements are about atoms of the block. -/
theorem size_lt_iff (h : e.Tallies sets) (hsets : ∀ s ∈ sets, e.block.contains s.1) :
    e.facts.size < e.block.size ↔ ∃ id, e.block.contains id ∧ id ∉ e.facts := by
  -- the two numbers count the atoms with statements and all atoms of the block
  have hsub : statedIds sets ⊆ Finset.Ico e.block.start e.block.stop := by
    intro id hid
    obtain ⟨s, hs, rfl⟩ := List.mem_map.1 (List.mem_toFinset.1 hid)
    exact Finset.mem_Ico.2 (Block.contains_iff.1 (hsets s hs))
  have hcard : (Finset.Ico e.block.start e.block.stop).card = e.block.size := by
    rw [Nat.card_Ico, Block.stop, Nat.add_sub_cancel_left]
  rw [h.size_eq, ← hcard]
  simp only [h.mem_facts_iff, Block.contains_iff, ← Finset.mem_Ico]
  constructor
  · exact Finset.exists_mem_notMem_of_card_lt_card
  · rintro ⟨id, hid, hnot⟩
    exact Finset.card_lt_card ⟨hsub, fun hsup => hnot (hsup hid)⟩

/-- The two counts tell whether an atom can still be unknown. -/
theorem hasUnknown_iff (h : e.Tallies sets) (hsets : ∀ s ∈ sets, e.block.contains s.1) :
    e.hasUnknown = true ↔ e.unknownIds ≠ [] := by
  rw [hasUnknown, Bool.and_eq_true, beq_iff_eq, decide_eq_true_iff, h.size_lt_iff hsets,
    unknownIds_ne_nil_iff]

end Tallies

/-! ### The run -/

variable {b : Block} {assumption : WorldAssumption}

/-- **All this is known after every history.** -/
theorem tallies_record (b : Block) (assumption : WorldAssumption) (sets : List (Nat × Bool)) :
    ((empty b assumption).record sets).Tallies sets := by
  induction sets using List.reverseRecOn with
  | nil => exact tallies_empty b assumption
  | append_singleton sets s ih =>
    rw [record_concat]
    exact ih.concat s.1 s.2

/-- The counter never has to go below zero. -/
theorem record?_eq (b : Block) (assumption : WorldAssumption) (sets : List (Nat × Bool)) :
    (empty b assumption).record? sets = some ((empty b assumption).record sets) := by
  induction sets using List.reverseRecOn with
  | nil => rfl
  | append_singleton sets s ih =>
    rw [record?_concat, ih, record_concat]
    exact (tallies_record b assumption sets).set?_eq s.1 s.2

/-- What evidence knows after a history of statements about atoms of a block. -/
structure Accurate (b : Block) (assumption : WorldAssumption) (sets : List (Nat × Bool))
    (e : Evidence) : Prop where
  /-- The last statement about an atom counts; without one, the assumption. -/
  get_eq : ∀ id, e.get id = (lastOf sets id).elim assumption.default Truth.ofBool
  /-- The statements are counted by atoms. -/
  factCount_eq : e.factCount = (statedIds sets).card
  /-- The atoms that hold are counted by their last statements. -/
  trueCount_eq : e.trueCount = (trueIds sets).card
  /-- The counter never had to go below zero. -/
  record?_eq : (empty b assumption).record? sets = some e
  /-- The unknown atoms are those of the block that are not known, … -/
  mem_unknownIds : ∀ id, id ∈ e.unknownIds ↔ b.contains id ∧ e.get id = .unknown
  /-- … in increasing order. -/
  increasing : e.unknownIds.Pairwise (· < ·)
  /-- The two counts tell whether there are any. -/
  hasUnknown_iff : e.hasUnknown = true ↔ e.unknownIds ≠ []

/-- **The counters of evidence agree with the statements**, whatever these are. -/
theorem accurate_record (b : Block) (assumption : WorldAssumption) {sets : List (Nat × Bool)}
    (h : ∀ s ∈ sets, b.contains s.1) :
    Accurate b assumption sets ((empty b assumption).record sets) := by
  have htallies := tallies_record b assumption sets
  exact {
    get_eq id := by rw [htallies.get_eq, assumption_record]; rfl
    factCount_eq := htallies.size_eq
    trueCount_eq := htallies.trueCount_eq
    record?_eq := record?_eq b assumption sets
    mem_unknownIds id := by rw [mem_unknownIds_iff, block_record]; rfl
    increasing := pairwise_unknownIds _
    hasUnknown_iff := htallies.hasUnknown_iff (by rw [block_record]; exact h) }

/-- Three people, of whom one is never mentioned, one is taken back and one is revised. -/
theorem accurate_record_overwritten :
    let b : Block := ⟨⟨"Smokes", 1⟩, 3, [Domain.ofList ["Anna", "Bob", "Carl"]]⟩
    let sets := [(3, true), (3, true), (4, false), (3, false), (4, true)]
    let e := (empty b .open).record sets
    (∀ s ∈ sets, b.contains s.1) ∧ Accurate b .open sets e ∧
      e.factCount = 2 ∧ e.trueCount = 1 := by
  intro b sets e
  have hsize : b.size = 3 := by
    simp [b, Block.size, Block.sizes, volume, Domain.size_eq_length, Domain.toList_ofList]
  have hsets : ∀ s ∈ sets, b.contains s.1 := by
    simp [sets, Block.contains_iff, hsize, b]
  have he : Accurate b .open sets e := accurate_record b .open hsets
  exact ⟨hsets, he, he.factCount_eq.trans (by decide), he.trueCount_eq.trans (by decide)⟩

end MarkovLogic.Evidence
