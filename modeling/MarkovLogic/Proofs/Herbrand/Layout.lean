/-
MarkovLogic/Proofs/Herbrand/Layout.lean

The blocks of a schema lie side by side.

Laying out the predicates gives one block for each, in their order, and each
block begins where the one before it stops (`Consecutive`).  So every number
from the first to the last belongs to exactly one block (`owner?_eq_some_iff`,
`owner?_isSome_iff`).  Empty blocks lie between the others without taking a
number; leaving them out, the blocks begin at increasing numbers, and the block
of a number is the last one that does not begin after it (`owner?_eq_search`).
-/
import MarkovLogic.Herbrand.Base
import MarkovLogic.Proofs.Herbrand.Codec
import Mathlib.Data.List.TakeWhile

namespace MarkovLogic.Herbrand

/-! ### Consecutive blocks -/

/-- Each block begins where the one before it stops, the first at `start`; the
last stops at `next`. -/
def Consecutive : Nat → List Block → Nat → Prop
  | start, [], next => start = next
  | start, b :: bs, next => b.start = start ∧ Consecutive b.stop bs next

/-- The last block with atoms that begins at the given number or before; blocks
are looked at up to the first one that begins after it. -/
def lastFrom (bs : List Block) (id : Nat) : Option Block :=
  ((bs.filter fun b => 0 < b.size).takeWhile fun b => b.start ≤ id).getLast?

theorem lastFrom_cons {b : Block} {bs : List Block} {id : Nat} (hsize : 0 < b.size)
    (hlow : b.start ≤ id) : lastFrom (b :: bs) id = some ((lastFrom bs id).getD b) := by
  rw [lastFrom, List.filter_cons_of_pos (by simpa using hsize),
    List.takeWhile_cons_of_pos (by simpa using hlow), List.getLast?_cons]
  rfl

/-- There is no such block if all blocks begin after the number. -/
theorem lastFrom_eq_none {bs : List Block} {id : Nat} (h : ∀ b ∈ bs, id < b.start) :
    lastFrom bs id = none := by
  rw [lastFrom, List.getLast?_eq_none_iff, List.eq_nil_iff_forall_not_mem]
  intro b hb
  have hlow : b.start ≤ id := by simpa using List.mem_takeWhile_imp hb
  have hmem : b ∈ bs := (List.mem_filter.1 ((List.takeWhile_sublist _).subset hb)).1
  exact absurd (h b hmem) (Nat.not_lt.2 hlow)

namespace Consecutive

variable {start middle next : Nat} {bs cs : List Block}

theorem append (hb : Consecutive start bs middle) (hc : Consecutive middle cs next) :
    Consecutive start (bs ++ cs) next := by
  induction bs generalizing start with
  | nil => exact (show start = middle from hb) ▸ hc
  | cons b bs ih => exact ⟨hb.1, ih hb.2⟩

theorem start_le_next (h : Consecutive start bs next) : start ≤ next := by
  induction bs generalizing start with
  | nil => exact Nat.le_of_eq h
  | cons b bs ih =>
    obtain ⟨rfl, h⟩ := h
    exact Nat.le_trans (Nat.le_add_right _ _) (ih h)

/-- Every block lies between the ends. -/
theorem bounds (h : Consecutive start bs next) {b : Block} (hb : b ∈ bs) :
    start ≤ b.start ∧ b.stop ≤ next := by
  induction bs generalizing start with
  | nil => simp at hb
  | cons b' bs ih =>
    obtain ⟨rfl, h⟩ := h
    rcases List.mem_cons.1 hb with rfl | hb
    · exact ⟨Nat.le_refl _, h.start_le_next⟩
    · have := ih h hb
      exact ⟨Nat.le_trans (Nat.le_add_right _ _) this.1, this.2⟩

/-- Every number between the ends belongs to a block. -/
theorem exists_contains (h : Consecutive start bs next) {id : Nat} (hlow : start ≤ id)
    (hhigh : id < next) : ∃ b ∈ bs, b.contains id := by
  induction bs generalizing start with
  | nil =>
    have : start = next := h
    omega
  | cons b bs ih =>
    obtain ⟨rfl, h⟩ := h
    by_cases hid : id < b.stop
    · exact ⟨b, by simp, Block.contains_iff.2 ⟨hlow, hid⟩⟩
    · obtain ⟨b', hb', hid'⟩ := ih h (by omega)
      exact ⟨b', List.mem_cons_of_mem _ hb', hid'⟩

/-- No number belongs to two blocks. -/
theorem contains_unique (h : Consecutive start bs next) {id : Nat} :
    ∀ a ∈ bs, ∀ b ∈ bs, a.contains id → b.contains id → a = b := by
  induction bs generalizing start with
  | nil => simp
  | cons b₀ bs ih =>
    obtain ⟨rfl, h⟩ := h
    -- a number in the first block is before all the others
    have hfirst : ∀ b ∈ bs, b₀.contains id → b.contains id → False := by
      intro b hb h₀ h₁
      have := (h.bounds hb).1
      have h₀ := (Block.contains_iff.1 h₀).2
      have h₁ := (Block.contains_iff.1 h₁).1
      have : b₀.stop = b₀.start + b₀.size := rfl
      omega
    intro a ha b hb hca hcb
    rcases List.mem_cons.1 ha with rfl | ha'
    · rcases List.mem_cons.1 hb with rfl | hb'
      · rfl
      · exact (hfirst b hb' hca hcb).elim
    · rcases List.mem_cons.1 hb with rfl | hb'
      · exact (hfirst a ha' hcb hca).elim
      · exact ih h a ha' b hb' hca hcb

/-- The block of a number is the last block with atoms that does not begin
after it, if the number is in that one at all. -/
theorem find?_contains_eq_search (h : Consecutive start bs next) (id : Nat) :
    (bs.find? fun b => b.contains id) =
      (lastFrom bs id).filter fun b => b.contains id := by
  induction bs generalizing start with
  | nil => rfl
  | cons b bs ih =>
    obtain ⟨rfl, h⟩ := h
    have hrest : ∀ c ∈ bs, b.start + b.size ≤ c.start := fun c hc => (h.bounds hc).1
    rw [List.find?_cons]
    by_cases hsize : 0 < b.size
    · by_cases hlow : b.start ≤ id
      · rw [lastFrom_cons hsize hlow]
        by_cases hid : b.contains id
        · -- all later blocks begin after the number
          have hlate : ∀ c ∈ bs, id < c.start := by
            intro c hc
            have := hrest c hc
            have := (Block.contains_iff.1 hid).2
            omega
          rw [lastFrom_eq_none hlate]
          simp [hid, Option.filter_some]
        · rw [ih h]
          rcases lastFrom bs id with - | c <;> simp [hid, Option.filter_some]
      · have hlate : ∀ c ∈ b :: bs, id < c.start := by
          intro c hc
          rcases List.mem_cons.1 hc with rfl | hc
          · omega
          · have := hrest c hc
            omega
        have hid : b.contains id = false := by
          rw [Bool.eq_false_iff]
          exact fun hid => hlow (Block.contains_iff.1 hid).1
        rw [lastFrom_eq_none hlate, hid, ih h,
          lastFrom_eq_none fun c hc => hlate c (List.mem_cons_of_mem _ hc)]
    · have hid : b.contains id = false := by
        rw [Bool.eq_false_iff]
        intro hid
        have := Block.contains_iff.1 hid
        omega
      rw [hid, ih h, lastFrom, lastFrom, List.filter_cons_of_neg (by simpa using hsize)]

end Consecutive

/-! ### Laying out -/

/-- The predicate of a block with its argument domains. -/
def Block.entry (b : Block) : Signature × List Domain :=
  (b.signature, b.domains)

/-- Its size was checked when the block was made. -/
def Block.IsChecked (b : Block) : Prop :=
  ∃ n, Block.checkedSize b.signature b.start b.sizes = .ok n

/-- What a block is made of. -/
theorem Block.make_eq_ok {signature : Signature} {start : Nat} {domains : List Domain} {b : Block}
    (h : Block.make signature start domains = .ok b) :
    b = ⟨signature, start, domains⟩ ∧ b.IsChecked := by
  unfold Block.make at h
  rcases hn : Block.checkedSize signature start (domains.map Domain.size) with e | n
  · rw [hn] at h
    cases h
  · rw [hn] at h
    obtain rfl := Except.ok.inj h
    exact ⟨rfl, n, hn⟩

namespace Base

/-- Predicates are laid out in their order, one block beside the other. -/
theorem layOut_eq_ok {start next : Nat} {ps : List (Signature × List Domain)} {bs : List Block}
    (h : layOut start ps = .ok (bs, next)) :
    Consecutive start bs next ∧ bs.map Block.entry = ps ∧ ∀ b ∈ bs, b.IsChecked := by
  induction ps generalizing start bs with
  | nil =>
    obtain ⟨rfl, rfl⟩ := Prod.mk.inj (Except.ok.inj h)
    exact ⟨rfl, rfl, by simp⟩
  | cons p ps ih =>
    obtain ⟨signature, domains⟩ := p
    unfold layOut at h
    rcases hb : Block.make signature start domains with e | b
    · rw [hb] at h
      cases h
    · rcases hr : layOut b.stop ps with e | ⟨bs', next'⟩
      · simp [hb, hr, bind, Except.bind] at h
      · simp only [hb, hr, bind, Except.bind, pure, Except.pure, Except.ok.injEq,
          Prod.mk.injEq] at h
        obtain ⟨rfl, rfl⟩ := h
        obtain ⟨hc, hmap, hchecked⟩ := ih hr
        obtain ⟨rfl, hb⟩ := Block.make_eq_ok hb
        refine ⟨⟨rfl, hc⟩, ?_, ?_⟩
        · rw [List.map_cons, hmap]
          rfl
        · rw [List.forall_mem_cons]
          exact ⟨hb, hchecked⟩

/-- What a numbering consists of: the queried predicates lie from `1` up to
`queryEnd`, the others from there on. -/
structure Layout (schema : List (Signature × List Domain)) (isQuery : Signature → Bool)
    (b : Base) (queried others : List Block) (queryEnd : Nat) : Prop where
  blocks_eq : b.blocks = queried ++ others
  queried_consecutive : Consecutive 1 queried queryEnd
  others_consecutive : Consecutive queryEnd others b.next
  queried_entries : queried.map Block.entry = schema.filter fun p => isQuery p.1
  others_entries : others.map Block.entry = schema.filter fun p => !isQuery p.1
  isChecked : ∀ block ∈ b.blocks, block.IsChecked
  queryRange_eq : b.queryRange = if 1 < queryEnd then some (1, queryEnd - 1) else none

/-- Building a numbering lays its blocks out. -/
theorem layout_of_build {schema : List (Signature × List Domain)} {isQuery : Signature → Bool}
    {b : Base} (h : build schema isQuery = .ok b) :
    ∃ queried others queryEnd, Layout schema isQuery b queried others queryEnd := by
  unfold build at h
  rcases hq : layOut 1 (schema.filter fun p => isQuery p.1) with e | ⟨queried, queryEnd⟩
  · simp [hq, bind, Except.bind] at h
  rcases ho : layOut queryEnd (schema.filter fun p => !isQuery p.1) with e | ⟨others, next⟩
  · simp [hq, ho, bind, Except.bind] at h
  simp only [hq, ho, bind, Except.bind, pure, Except.pure, Except.ok.injEq] at h
  obtain ⟨hqc, hqm, hqk⟩ := layOut_eq_ok hq
  obtain ⟨hoc, hom, hok⟩ := layOut_eq_ok ho
  subst h
  refine ⟨queried, others, queryEnd, rfl, hqc, hoc, hqm, hom, ?_, rfl⟩
  intro block hblock
  rcases List.mem_append.1 hblock with hblock | hblock
  · exact hqk block hblock
  · exact hok block hblock

namespace Layout

variable {schema : List (Signature × List Domain)} {isQuery : Signature → Bool} {b : Base}
  {queried others : List Block} {queryEnd : Nat}

theorem consecutive (h : Layout schema isQuery b queried others queryEnd) :
    Consecutive 1 b.blocks b.next := by
  rw [h.blocks_eq]
  exact h.queried_consecutive.append h.others_consecutive

/-- There is one block for each predicate of the schema. -/
theorem entries_perm (h : Layout schema isQuery b queried others queryEnd) :
    (b.blocks.map Block.entry).Perm schema := by
  rw [h.blocks_eq, List.map_append, h.queried_entries, h.others_entries]
  exact List.filter_append_perm _ schema

/-- The queried blocks are those of queried predicates. -/
theorem mem_queried_iff (h : Layout schema isQuery b queried others queryEnd) {block : Block}
    (hblock : block ∈ b.blocks) : block ∈ queried ↔ isQuery block.signature := by
  constructor
  · intro hq
    have : block.entry ∈ queried.map Block.entry := List.mem_map_of_mem hq
    rw [h.queried_entries] at this
    exact (List.mem_filter.1 this).2
  · intro hq
    rw [h.blocks_eq] at hblock
    refine (List.mem_append.1 hblock).resolve_right fun ho => ?_
    have : block.entry ∈ others.map Block.entry := List.mem_map_of_mem ho
    rw [h.others_entries] at this
    have := (List.mem_filter.1 this).2
    simp_all [Block.entry]

end Layout

/-! ### Looking up numbers and predicates -/

section Built

variable {schema : List (Signature × List Domain)} {isQuery : Signature → Bool} {b : Base}

/-- The blocks of a numbering lie side by side, from `1` on. -/
theorem consecutive_of_build (h : build schema isQuery = .ok b) :
    Consecutive 1 b.blocks b.next := by
  obtain ⟨queried, others, queryEnd, hl⟩ := layout_of_build h
  exact hl.consecutive

/-- The blocks of a numbering were checked. -/
theorem isChecked_of_build (h : build schema isQuery = .ok b) {block : Block}
    (hblock : block ∈ b.blocks) : block.IsChecked := by
  obtain ⟨queried, others, queryEnd, hl⟩ := layout_of_build h
  exact hl.isChecked block hblock

/-- A number's block is the one that contains it. -/
theorem owner?_eq_some_iff (h : build schema isQuery = .ok b) {id : Nat} {block : Block} :
    b.owner? id = some block ↔ block ∈ b.blocks ∧ block.contains id :=
  find?_eq_some_iff_of_unique (consecutive_of_build h).contains_unique

/-- Exactly the numbers from `1` to the number of atoms belong to a block. -/
theorem owner?_isSome_iff (h : build schema isQuery = .ok b) {id : Nat} :
    (b.owner? id).isSome ↔ 1 ≤ id ∧ id ≤ b.atomCount := by
  have hc := consecutive_of_build h
  have hnext := hc.start_le_next
  rw [Option.isSome_iff_exists, atomCount]
  constructor
  · rintro ⟨block, hblock⟩
    rw [owner?_eq_some_iff h] at hblock
    obtain ⟨hlow, hhigh⟩ := hc.bounds hblock.1
    have hid := Block.contains_iff.1 hblock.2
    have : block.stop = block.start + block.size := rfl
    omega
  · rintro ⟨hlow, hhigh⟩
    obtain ⟨block, hblock, hid⟩ := hc.exists_contains hlow (by omega)
    exact ⟨block, (owner?_eq_some_iff h).2 ⟨hblock, hid⟩⟩

/-- The block of a number can be searched for by where the blocks begin. -/
theorem owner?_eq_search (h : build schema isQuery = .ok b) (id : Nat) :
    b.owner? id = (lastFrom b.blocks id).filter fun block => block.contains id :=
  (consecutive_of_build h).find?_contains_eq_search id

/-- The blocks are for different predicates. -/
theorem nodup_signatures (h : build schema isQuery = .ok b)
    (hschema : (schema.map Prod.fst).Nodup) : (b.blocks.map Block.signature).Nodup := by
  obtain ⟨queried, others, queryEnd, hl⟩ := layout_of_build h
  have hperm := hl.entries_perm.map Prod.fst
  rw [List.map_map] at hperm
  exact hperm.nodup_iff.2 hschema

/-- The entries of the blocks are those of the schema. -/
theorem entry_mem_iff (h : build schema isQuery = .ok b) {p : Signature × List Domain} :
    p ∈ b.blocks.map Block.entry ↔ p ∈ schema := by
  obtain ⟨queried, others, queryEnd, hl⟩ := layout_of_build h
  exact hl.entries_perm.mem_iff

/-- A predicate's block is the one with its signature. -/
theorem find?_eq_some_iff (h : build schema isQuery = .ok b)
    (hschema : (schema.map Prod.fst).Nodup) {signature : Signature} {block : Block} :
    b.find? signature = some block ↔ block ∈ b.blocks ∧ block.signature = signature := by
  rw [find?, find?_eq_some_iff_of_unique, beq_iff_eq]
  intro x hx y hy hsx hsy
  exact List.inj_on_of_nodup_map (nodup_signatures h hschema) hx hy (by simp_all)

/-- The predicates with a block are those of the schema, with their domains. -/
theorem exists_find?_iff (h : build schema isQuery = .ok b)
    (hschema : (schema.map Prod.fst).Nodup) {signature : Signature} {domains : List Domain} :
    (∃ block, b.find? signature = some block ∧ block.domains = domains) ↔
      (signature, domains) ∈ schema := by
  rw [← entry_mem_iff h, List.mem_map]
  refine exists_congr fun block => ?_
  rw [find?_eq_some_iff h hschema, Block.entry, Prod.mk.injEq, and_assoc]

/-- A number is asked about if and only if its predicate is. -/
theorem isQueryAtom_iff (h : build schema isQuery = .ok b) {id : Nat} :
    b.isQueryAtom id ↔ ∃ block, b.owner? id = some block ∧ isQuery block.signature := by
  obtain ⟨queried, others, queryEnd, hl⟩ := layout_of_build h
  have hrange : b.isQueryAtom id ↔ 1 ≤ id ∧ id < queryEnd := by
    rw [isQueryAtom, hl.queryRange_eq]
    by_cases hend : 1 < queryEnd
    · simp only [hend, if_true, Bool.and_eq_true, decide_eq_true_iff]
      omega
    · simp only [hend, if_false]
      constructor
      · simp
      · omega
  rw [hrange]
  constructor
  · rintro ⟨hlow, hhigh⟩
    obtain ⟨block, hblock, hid⟩ := hl.queried_consecutive.exists_contains hlow hhigh
    have hmem : block ∈ b.blocks := by
      rw [hl.blocks_eq]
      exact List.mem_append_left _ hblock
    exact ⟨block, (owner?_eq_some_iff h).2 ⟨hmem, hid⟩, (hl.mem_queried_iff hmem).1 hblock⟩
  · rintro ⟨block, howner, hquery⟩
    obtain ⟨hmem, hid⟩ := (owner?_eq_some_iff h).1 howner
    obtain ⟨hlow, hhigh⟩ := hl.queried_consecutive.bounds ((hl.mem_queried_iff hmem).2 hquery)
    have hid := Block.contains_iff.1 hid
    have : block.stop = block.start + block.size := rfl
    omega

end Built

end Base

end MarkovLogic.Herbrand
