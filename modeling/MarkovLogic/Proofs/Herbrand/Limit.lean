/-
MarkovLogic/Proofs/Herbrand/Limit.lean

Which numbers of ground atoms are signed literals.

A number can be used as a literal of 32 bits if it is positive there, can be
negated, and is given back by the absolute value of either sign (`FitsLiteral`);
these are the numbers from `1` to `2 ^ 31 - 1`.  The size of a block is checked
once for each argument, so a block with arguments ends before the limit.  A
block without arguments is not checked at all: it takes one number wherever it
begins.  So only blocks without arguments can pass the limit, each by one
number, and they do as soon as a second one follows where the others have used
up the numbers (`not_fitsLiteral_fullSchema`).

Main statement: `fitsLiteral_of_build`.
-/
import MarkovLogic.Proofs.Herbrand.Words
import MarkovLogic.Proofs.Clique.Literals

namespace MarkovLogic.Herbrand

/-! ### Numbers as literals -/

/-- A number that can be used as a literal of 32 bits. -/
structure FitsLiteral (id : Nat) : Prop where
  le_maxId : id ≤ Block.maxId
  /-- The literal of the number is positive. -/
  literal_pos : 0 < literalOf id
  /-- Negating the literal does not overflow. -/
  opposite_eq : oppositeLiteral (literalOf id) = -literalOf id
  /-- The number is given back by the literal. -/
  natAbs_literal : (literalOf id).natAbs = id
  /-- The number is given back by the opposite literal. -/
  natAbs_opposite : (oppositeLiteral (literalOf id)).natAbs = id

theorem fitsLiteral_of_le {id : Nat} (hlow : 1 ≤ id) (hhigh : id ≤ Block.maxId) :
    FitsLiteral id := by
  have hliteral : literalOf id = id := literalOf_of_le hhigh
  have hopposite : oppositeLiteral (literalOf id) = -literalOf id :=
    oppositeLiteral_of_le (by rwa [hliteral, Int.natAbs_natCast])
  refine ⟨hhigh, ?_, hopposite, ?_, ?_⟩
  · rw [hliteral]
    omega
  · rw [hliteral, Int.natAbs_natCast]
  · rw [hopposite, hliteral, Int.natAbs_neg, Int.natAbs_natCast]

/-! ### Where the blocks end -/

/-- A size that was checked at all stays below the limit. -/
theorem Block.add_le_of_checkedSize {signature : Signature} {start n : Nat} {ns : List Nat}
    (hns : ns ≠ []) (h : checkedSize signature start ns = .ok n) : start + n ≤ maxId := by
  obtain - | ⟨m, ns⟩ := ns
  · exact absurd rfl hns
  · unfold checkedSize at h
    rcases hinner : checkedSize signature start ns with e | inner
    · rw [hinner] at h
      cases h
    · simp only [hinner, bind, Except.bind] at h
      split at h
      · cases h
      · obtain rfl := Except.ok.inj h
        omega

/-- A block with arguments stops at the limit or before. -/
theorem Block.IsChecked.stop_le {b : Block} (hb : b.IsChecked) (harguments : b.domains ≠ []) :
    b.stop ≤ maxId := by
  obtain ⟨n, hn⟩ := hb
  have hsizes : b.sizes ≠ [] := by simpa [sizes] using harguments
  obtain rfl : n = b.size := (checkedSize_eq_ok hn).1
  exact add_le_of_checkedSize hsizes hn

/-- A block without arguments takes one number. -/
theorem Block.stop_of_domains_eq_nil {b : Block} (h : b.domains = []) : b.stop = b.start + 1 := by
  simp [stop, size, sizes, volume, h]

/-- Past the limit only the blocks without arguments take numbers, one each. -/
theorem Consecutive.next_le {start next : Nat} {bs : List Block} (h : Consecutive start bs next)
    (hchecked : ∀ b ∈ bs, b.IsChecked) :
    next ≤ max start Block.maxId + bs.countP fun b => b.domains.isEmpty := by
  induction bs generalizing start with
  | nil =>
    have : start = next := h
    omega
  | cons b bs ih =>
    obtain ⟨rfl, h⟩ := h
    obtain ⟨hb, hbs⟩ := List.forall_mem_cons.1 hchecked
    have hnext := ih h hbs
    rw [List.countP_cons]
    by_cases harguments : b.domains = []
    · have hstop := Block.stop_of_domains_eq_nil harguments
      simp only [harguments, List.isEmpty_nil, if_true]
      omega
    · have hstop := hb.stop_le harguments
      omega

namespace Base

variable {schema : List (Signature × List Domain)} {isQuery : Signature → Bool} {b : Base}

/-- The predicates without arguments bound the numbers past the limit. -/
theorem atomCount_lt (h : build schema isQuery = .ok b) :
    b.atomCount < Block.maxId + schema.countP fun p => p.2.isEmpty := by
  obtain ⟨queried, others, queryEnd, hl⟩ := layout_of_build h
  have hnext := hl.consecutive.next_le hl.isChecked
  have hcount : (b.blocks.countP fun block => block.domains.isEmpty) =
      schema.countP fun p => p.2.isEmpty := by
    rw [← hl.entries_perm.countP_eq, List.countP_map]
    rfl
  have hlimit : 1 < Block.maxId := by decide
  have hstart := hl.consecutive.start_le_next
  rw [atomCount]
  omega

/-- The numbers of all blocks can be used as literals exactly if their count
can. -/
theorem forall_fitsLiteral_iff (h : build schema isQuery = .ok b) :
    (∀ block ∈ b.blocks, ∀ id, block.contains id → FitsLiteral id) ↔
      b.atomCount ≤ Block.maxId := by
  constructor
  · intro hfits
    by_contra hcount
    have hlast : 1 ≤ b.atomCount := by omega
    obtain ⟨block, howner⟩ :=
      Option.isSome_iff_exists.1 ((owner?_isSome_iff h).2 ⟨hlast, Nat.le_refl _⟩)
    obtain ⟨hmem, hid⟩ := (owner?_eq_some_iff h).1 howner
    exact hcount (hfits block hmem _ hid).le_maxId
  · intro hcount block hmem id hid
    have howner : b.owner? id = some block := (owner?_eq_some_iff h).2 ⟨hmem, hid⟩
    obtain ⟨hlow, hhigh⟩ := (owner?_isSome_iff h).1 (Option.isSome_of_eq_some howner)
    exact fitsLiteral_of_le hlow (Nat.le_trans hhigh hcount)

/-! ### A schema that uses up the limit -/

/-- A domain of `n` constants, the tally marks of the numbers below `n`. -/
def tallyMarks (n : Nat) : Domain :=
  .ofList ((List.range n).map fun i => String.ofList (List.replicate i '|'))

theorem size_tallyMarks (n : Nat) : (tallyMarks n).size = n := by
  have hinjective : Function.Injective fun i => String.ofList (List.replicate i '|') := by
    intro i j hij
    simpa using congrArg List.length (String.ofList_injective hij)
  rw [Domain.size_eq_length, tallyMarks, Domain.toList_ofList (List.nodup_range.map hinjective),
    List.length_map, List.length_range]

/-- A predicate with `2 ^ 31 - 2` ground atoms, numbered from `1` on. -/
def fullBlock : Block :=
  ⟨⟨"P", 8⟩, 1, [2, 3, 3, 7, 11, 31, 151, 331].map tallyMarks⟩

theorem sizes_fullBlock : fullBlock.sizes = [2, 3, 3, 7, 11, 31, 151, 331] := by
  simp [fullBlock, Block.sizes, size_tallyMarks]

theorem stop_fullBlock : fullBlock.stop = Block.maxId := by
  rw [Block.stop, Block.size, sizes_fullBlock, fullBlock]
  decide

theorem make_fullBlock : Block.make ⟨"P", 8⟩ 1 fullBlock.domains = .ok fullBlock := by
  have hchecked : Block.checkedSize ⟨"P", 8⟩ 1 fullBlock.sizes = .ok 2147483646 := by
    rw [sizes_fullBlock]
    decide
  rw [Block.make, show fullBlock.domains.map Domain.size = fullBlock.sizes from rfl, hchecked]
  rfl

/-- This predicate, followed by predicates without arguments. -/
def fullSchema (propositions : List String) : List (Signature × List Domain) :=
  fullBlock.entry :: propositions.map fun symbol => (⟨symbol, 0⟩, [])

/-- Predicates without arguments are laid out wherever they begin. -/
theorem layOut_propositions (propositions : List String) (start : Nat) :
    ∃ blocks, layOut start (propositions.map fun symbol => (⟨symbol, 0⟩, [])) =
      .ok (blocks, start + propositions.length) := by
  induction propositions generalizing start with
  | nil => exact ⟨[], rfl⟩
  | cons symbol propositions ih =>
    obtain ⟨blocks, hblocks⟩ := ih (start + 1)
    refine ⟨⟨⟨symbol, 0⟩, start, []⟩ :: blocks, ?_⟩
    have hmake : Block.make ⟨symbol, 0⟩ start [] = .ok ⟨⟨symbol, 0⟩, start, []⟩ := rfl
    have hstop : Block.stop ⟨⟨symbol, 0⟩, start, []⟩ = start + 1 :=
      Block.stop_of_domains_eq_nil rfl
    rw [List.map_cons, layOut, hmake]
    simp only [bind, Except.bind, pure, Except.pure, hstop, hblocks, List.length_cons]
    rw [Nat.add_assoc, Nat.add_comm 1]

/-- The first predicate stops at the limit, and each proposition takes one
number from there on. -/
theorem build_fullSchema (propositions : List String) :
    ∃ b, build (fullSchema propositions) (fun _ => false) = .ok b ∧
      b.atomCount = Block.maxId - 1 + propositions.length := by
  obtain ⟨blocks, hblocks⟩ := layOut_propositions propositions Block.maxId
  have hlayout : layOut 1 (fullSchema propositions) =
      .ok (fullBlock :: blocks, Block.maxId + propositions.length) := by
    rw [fullSchema, Block.entry, layOut, show fullBlock.signature = ⟨"P", 8⟩ from rfl,
      make_fullBlock]
    simp only [bind, Except.bind, pure, Except.pure, stop_fullBlock, hblocks]
  refine ⟨⟨fullBlock :: blocks, Block.maxId + propositions.length, none⟩, ?_, ?_⟩
  · simp [build, layOut, hlayout, bind, Except.bind, pure, Except.pure]
  · have hlimit : 1 ≤ Block.maxId := by decide
    change Block.maxId + propositions.length - 1 = _
    omega

/-! ### The main theorem -/

/-- **The numbers of a predicate with arguments can be used as literals**, and
are even below the limit.  So can all numbers exactly if there are at most
`2 ^ 31 - 1` of them, and what goes beyond that is less than the number of
predicates without arguments. -/
theorem fitsLiteral_of_build (schema : List (Signature × List Domain)) (isQuery : Signature → Bool)
    (b : Base) (h : build schema isQuery = .ok b) :
    (∀ block ∈ b.blocks, block.domains ≠ [] → ∀ id, block.contains id →
      FitsLiteral id ∧ id < Block.maxId) ∧
    ((∀ block ∈ b.blocks, ∀ id, block.contains id → FitsLiteral id) ↔
      b.atomCount ≤ Block.maxId) ∧
    b.atomCount < Block.maxId + schema.countP fun p => p.2.isEmpty := by
  refine ⟨fun block hmem harguments id hid => ?_, forall_fitsLiteral_iff h, atomCount_lt h⟩
  have hstop := (isChecked_of_build h hmem).stop_le harguments
  have hlow := ((consecutive_of_build h).bounds hmem).1
  have hid : block.start ≤ id ∧ id < block.stop := Block.contains_iff.1 hid
  exact ⟨fitsLiteral_of_le (by omega) (by omega), by omega⟩

/-- With one proposition behind it, that schema uses up the limit, and every
number can be used as a literal. -/
theorem fitsLiteral_fullSchema :
    ∃ b, build (fullSchema ["Q"]) (fun _ => false) = .ok b ∧ b.atomCount = Block.maxId ∧
      ∀ block ∈ b.blocks, ∀ id, block.contains id → FitsLiteral id := by
  obtain ⟨b, hb, hcount⟩ := build_fullSchema ["Q"]
  have hlimit : Block.maxId - 1 + ["Q"].length = Block.maxId := by decide
  rw [hlimit] at hcount
  exact ⟨b, hb, hcount, (fitsLiteral_of_build _ _ b hb).2.1.2 (Nat.le_of_eq hcount)⟩

/-- With two propositions the last one has a number past the limit.  Its literal
is negative and its own opposite. -/
theorem not_fitsLiteral_fullSchema :
    ∃ b, build (fullSchema ["Q", "R"]) (fun _ => false) = .ok b ∧
      ∃ block ∈ b.blocks, block.contains (Block.maxId + 1) ∧ ¬ FitsLiteral (Block.maxId + 1) ∧
        literalOf (Block.maxId + 1) < 0 ∧
        oppositeLiteral (literalOf (Block.maxId + 1)) = literalOf (Block.maxId + 1) := by
  obtain ⟨b, hb, hcount⟩ := build_fullSchema ["Q", "R"]
  have hlast : 1 ≤ Block.maxId + 1 ∧ Block.maxId + 1 ≤ b.atomCount := by
    rw [hcount]
    decide
  obtain ⟨block, howner⟩ := Option.isSome_iff_exists.1 ((owner?_isSome_iff hb).2 hlast)
  obtain ⟨hmem, hid⟩ := (owner?_eq_some_iff hb).1 howner
  have hnegative : literalOf (Block.maxId + 1) < 0 := by decide
  refine ⟨b, hb, block, hmem, hid, fun hfits => ?_, hnegative, by decide⟩
  exact absurd hfits.literal_pos (by omega)

end Base

end MarkovLogic.Herbrand
