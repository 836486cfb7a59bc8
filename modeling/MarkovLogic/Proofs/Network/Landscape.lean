/-
MarkovLogic/Proofs/Network/Landscape.lean

Coalescing shifts all costs by one constant.

Weighted disjunctions are handed to a register one after the other, each with a
frequency that may be negative (`Offer`).  The register adds up those over the
same set of literals, and the network is assembled from the sums.  On the way
disjunctions of opposite sign cancel in part or altogether, or turn the sign of
the sum, and sums of zero and sums over no literals are left out.  So the
network prices no assignment as the offers do, in general; but all its prices
are off by the same amount.

The amount is not computed.  Two assignments differ in their cost under a list
of clauses by its `spread`, which is linear in the weights, and each stage keeps
the spread: reading literals as a set (`spread_entries`), adding up
(`sameMeaning_cliques`, where without hard clauses nothing is demanded of the
assignments), and leaving out (`spread_filter_isKept`).

Main statement: `exists_offset`.
-/
import MarkovLogic.Proofs.Network.Restriction

namespace MarkovLogic

variable {K : Type} [Field K] [LinearOrder K] [FloorRing K]

/-- A disjunction as it is handed in: literals in any order, the finite weight of
one occurrence, the clause that it comes from, and how often it occurs. -/
structure Offer (K : Type) where
  literals : List Int
  weight : K
  clause : Nat
  frequency : Int

namespace Offer

/-- The entry that is made of an offer. -/
def entry (o : Offer K) : Entry (Extended K) :=
  .make o.literals (.finite o.weight) o.clause o.frequency

/-- What an offer says: its disjunction, weighted as often as it occurs. -/
def ground (o : Offer K) : GroundClause (Extended K) :=
  ⟨.finite (o.frequency * o.weight), o.literals⟩

theorem contribution_entry (o : Offer K) :
    o.entry.contribution = .finite (o.frequency * o.weight) := rfl

end Offer

/-! ### The stages -/

theorem spread_entries (s t : Nat → Bool) (offers : List (Offer K)) :
    spread s t ((offers.map Offer.entry).map Entry.ground) =
      spread s t (offers.map Offer.ground) := by
  have hsame (o : Offer K) : o.entry.ground.stake * gap K s t o.entry.ground.literals =
      o.ground.stake * gap K s t o.ground.literals := by
    have hgap : gap K s t (literalSet o.literals) = gap K s t o.literals := by
      rw [gap, gap, failing, failing, failing, failing, anyHolds_literalSet, anyHolds_literalSet]
    exact congrArg (o.ground.stake * ·) hgap
  simp only [spread, List.map_map]
  exact congrArg List.sum (List.map_congr_left fun o _ => hsame o)

theorem Extended.value_eq_zero {x : Extended K} (h : (x == 0) = true) : x.value = 0 := by
  cases x with
  | finite x => exact of_decide_eq_true h
  | posInf => rfl
  | negInf => rfl
  | nan => rfl

/-- What is left out of a network makes no difference between assignments: it has
no weight or no literals. -/
theorem spread_filter_isKept (s t : Nat → Bool) (cliques : List (UInt64 × Clique (Extended K))) :
    spread s t ((cliques.filter Network.isKept).map fun c => c.2.ground) =
      spread s t (cliques.map fun c => c.2.ground) := by
  induction cliques with
  | nil => rfl
  | cons entry cliques ih =>
    rcases hkept : Network.isKept entry with _ | _
    · have hzero : entry.2.ground.stake * gap K s t entry.2.ground.literals = 0 := by
        rw [Network.isKept, Bool.not_eq_false', Bool.or_eq_true, List.isEmpty_iff] at hkept
        rcases hkept with hweight | hnil
        · rw [GroundClause.stake, Clique.ground, Extended.value_eq_zero hweight, zero_mul]
        · rw [Clique.ground, hnil, gap_eq_zero (by simp), mul_zero]
      rw [List.filter_cons_of_neg (by simp [hkept]), ih, spread, spread, List.map_cons,
        List.map_cons, List.sum_cons, hzero, zero_add]
    · rw [List.filter_cons_of_pos hkept, spread, spread, List.map_cons, List.map_cons,
        List.map_cons, List.map_cons, List.sum_cons, List.sum_cons]
      exact congrArg (entry.2.ground.stake * gap K s t entry.2.ground.literals + ·) ih

/-! ### Costs -/

/-- Where the spreads are the same, the costs are off by a constant. -/
theorem exists_softCost_eq_add [IsStrictOrderedRing K] {A B : List (GroundClause (Extended K))}
    (h : ∀ s t, spread s t A = spread s t B) :
    ∃ C : K, ∀ s, softCost s A = softCost s B + .finite C := by
  let origin : Nat → Bool := fun _ => false
  refine ⟨totalPenalty origin A - totalPenalty origin B, fun s => ?_⟩
  have hspread := h s origin
  rw [← totalPenalty_sub, ← totalPenalty_sub] at hspread
  rw [softCost_eq, softCost_eq, Extended.finite_add, Extended.finite.injEq]
  linear_combination hspread

/-- Offers have finite weights, so nothing that is made of them is hard. -/
theorem satisfies_entries (s : Nat → Bool) (offers : List (Offer K)) :
    Satisfies s ((offers.map Offer.entry).map Entry.ground) := by
  intro g hg hhard
  simp only [List.map_map, List.mem_map] at hg
  obtain ⟨o, -, rfl⟩ := hg
  cases hhard

/-- **Coalescing preserves the cost landscape.**  The network assembled from what
a register makes of some offers prices every assignment as the offers do, up to
a constant.  An offer costs the absolute value of its weight where its weight is
positive and its disjunction fails, or its weight is negative and its
disjunction holds. -/
theorem exists_offset [IsStrictOrderedRing K] (offers : List (Offer K)) (key : List Int → UInt64)
    (partitions : Nat) (extra : List Nat) (range : Option (Nat × Nat)) :
    let net := Network.assemble
      ((Register.empty key partitions).insertAll (offers.map Offer.entry)).cliques extra range
    ∃ C : K, ∀ s : Nat → Bool,
      softCost s (offers.map Offer.ground) = net.evaluate (net.restrict s) + .finite C := by
  intro net
  have hentries : ∀ e ∈ offers.map Offer.entry, ∃ a : WithTop K, e.contribution = .ofTop a := by
    intro e he
    obtain ⟨o, -, rfl⟩ := List.mem_map.1 he
    exact ⟨((o.frequency * o.weight : K) : WithTop K), o.contribution_entry⟩
  have hcliques := sameMeaning_cliques key partitions hentries
  have hweight : ∀ c ∈ ((Register.empty key partitions).insertAll
      (offers.map Offer.entry)).cliques, ∃ a : WithTop K, c.2.weight = .ofTop a := by
    intro c hc
    have hmem := (cliques_ground_perm key partitions hentries).mem_iff.1 (List.mem_map_of_mem hc)
    obtain ⟨literals, -, hground⟩ := List.mem_map.1 hmem
    exact ⟨_, (congrArg GroundClause.weight hground).symm⟩
  have htheory : net.theory = _ := Network.theory_assemble hweight
  obtain ⟨C, hC⟩ := exists_softCost_eq_add (A := offers.map Offer.ground) (B := net.theory)
    fun s t => by
      rw [htheory, spread_filter_isKept, ← hcliques.spread_eq s t (satisfies_entries s offers)
        (satisfies_entries t offers), spread_entries]
  refine ⟨C, fun s => ?_⟩
  have hsatisfies : Satisfies s net.theory := by
    intro g hg
    rw [htheory] at hg
    obtain ⟨c, hc, rfl⟩ := List.mem_map.1 hg
    exact (hcliques.satisfies_iff s).1 (satisfies_entries s offers) _
      (List.mem_map_of_mem (List.mem_of_mem_filter hc))
  rw [hC s, Network.evaluate_eq (Network.wired_assemble _ _ _)
    (Network.isRegular_assemble hweight) hsatisfies]

/-- Offers of which two over the same atoms sum to the opposite sign, two cancel,
and one has no literals. -/
def opposedOffers : List (Offer ℚ) := [
  ⟨[1, -2], 3 / 2, 0, 1⟩,
  ⟨[-2, 1, 1], 2, 1, -1⟩,
  ⟨[2], 1, 0, 3⟩,
  ⟨[2], -3, 2, 1⟩,
  ⟨[], 5, 1, 1⟩]

theorem exists_offset_opposedOffers :
    let net := Network.assemble
      ((Register.empty (fun _ => 0) 4).insertAll (opposedOffers.map Offer.entry)).cliques [3] none
    IsStrictOrderedRing ℚ ∧ ∃ C : ℚ, ∀ s : Nat → Bool,
      softCost s (opposedOffers.map Offer.ground) =
        net.evaluate (net.restrict s) + .finite C :=
  ⟨inferInstance, exists_offset opposedOffers (fun _ => 0) 4 [3] none⟩

end MarkovLogic
