/-
MarkovLogic/Proofs/Network/Domination.lean

One hard constraint outweighs all soft ones.

In an assembled network a violated hard constraint is priced at one more than
the sum of all soft weights.  So the cost of a state tells whether it violates
a hard constraint, whatever else it violates, and the break cost of an atom
tells whether flipping it would violate one.

Main statements: `hardViolations_eq_zero_iff_cost_lt` and `isCritical_iff`.
-/
import MarkovLogic.Proofs.Network.Bookkeeping

namespace MarkovLogic

variable {K : Type} [Field K] [LinearOrder K] [FloorRing K]

namespace Network

variable {net : Network (Extended K)}

/-! ### Prices -/

omit [FloorRing K] in
theorem stake_nonneg [IsStrictOrderedRing K] (c : Constraint (Extended K)) : 0 ≤ c.stake := by
  rw [Constraint.stake]
  cases c.strength with
  | hard => exact le_refl 0
  | soft w => exact abs_nonneg _

omit [FloorRing K] in
theorem sum_stakes_nonneg [IsStrictOrderedRing K] (net : Network (Extended K)) :
    0 ≤ (net.constraints.toList.map Constraint.stake).sum := by
  apply List.sum_nonneg
  intro x hx
  obtain ⟨c, -, rfl⟩ := List.mem_map.1 hx
  exact stake_nonneg c

omit [Field K] [LinearOrder K] [FloorRing K] in
theorem strength_of_isHard {c : Constraint (Extended K)} (hhard : c.isHard = true) :
    c.strength = .hard := by
  cases hs : c.strength with
  | hard => rfl
  | soft w =>
    rw [Constraint.isHard, hs] at hhard
    cases hhard

/-- A hard constraint has the hard weight for its price. -/
theorem price_of_isHard {c : Constraint (Extended K)} (hhard : c.isHard = true) :
    net.price c = net.hardWeight := by
  rw [price, strength_of_isHard hhard]

/-- The price of a soft constraint is its stake. -/
theorem Priced.value_price (hp : net.Priced) {c : Constraint (Extended K)}
    (hc : c ∈ net.constraints) (hsoft : c.isHard = false) : (net.price c).value = c.stake := by
  rw [price, Constraint.stake]
  cases hs : c.strength with
  | hard =>
    rw [Constraint.isHard, hs] at hsoft
    cases hsoft
  | soft w =>
    obtain ⟨x, rfl⟩ := hp.soft c hc w hs
    rfl

/-- No constraint has a negative price. -/
theorem price_nonneg [IsStrictOrderedRing K] {total : K} (htotal : 0 ≤ total)
    (hweight : net.hardWeight = .finite total) (c : Constraint (Extended K))
    (hfinite : ∀ w, c.strength = .soft w → ∃ x, w = .finite x) : 0 ≤ (net.price c).value := by
  rw [price]
  cases hc : c.strength with
  | hard =>
    rw [hweight]
    exact htotal
  | soft w =>
    obtain ⟨x, rfl⟩ := hfinite w hc
    exact abs_nonneg x

/-- A hard constraint is priced at one more than all stakes together. -/
theorem Priced.hardWeight_eq (hp : net.Priced)
    (hweight : net.hardWeight = softTotal net.constraints.toList + 1) :
    net.hardWeight = .finite ((net.constraints.toList.map Constraint.stake).sum + 1) := by
  rw [hweight, softTotal_eq fun c hc => hp.soft c (Array.mem_toList_iff.1 hc)]
  rfl

omit [FloorRing K] in
/-- The stakes by the indices of the constraints. -/
theorem sum_stakes_eq (net : Network (Extended K)) :
    (net.constraints.toList.map Constraint.stake).sum =
      ∑ i ∈ Finset.range net.constraints.size, net.shareAt (fun c _ => c.stake) i := by
  rw [← sum_zipIdx_eq, ← List.zipIdx_map_fst 0 net.constraints.toList, List.map_map]
  simp only [List.zipIdx_map_fst]
  rfl

omit [FloorRing K] in
/-- A sum of shares that are at most the stakes is at most their sum. -/
theorem sum_shareAt_le_stakes [IsStrictOrderedRing K] (net : Network (Extended K))
    {f : Constraint (Extended K) → Nat → K}
    (h : ∀ i c, net.constraints[i]? = some c → f c i ≤ c.stake) :
    ∑ i ∈ Finset.range net.constraints.size, net.shareAt f i ≤
      (net.constraints.toList.map Constraint.stake).sum := by
  rw [sum_stakes_eq]
  refine Finset.sum_le_sum fun i hi => ?_
  have hc := Array.getElem?_eq_getElem (Finset.mem_range.mp hi)
  rw [shareAt_of_eq_some hc, shareAt_of_eq_some hc]
  exact h i _ hc

end Network

namespace State

variable [IsStrictOrderedRing K] {net : Network (Extended K)} {s : State (Extended K)}

/-! ### Costs -/

omit [IsStrictOrderedRing K] in
/-- A violated constraint costs what is at stake. -/
theorem softOf_eq (hp : net.Priced) {c : Constraint (Extended K)} (hc : c ∈ net.constraints)
    (trueLiterals : Nat) :
    softOf c trueLiterals = if c.isViolated trueLiterals then c.stake else 0 := by
  rw [softOf, Constraint.stake]
  cases hs : c.strength with
  | hard => exact (ite_self 0).symm
  | soft w =>
    obtain ⟨x, rfl⟩ := hp.soft c hc w hs
    rfl

/-- The soft cost is at most the sum of the stakes. -/
theorem exists_softCost_eq (hp : net.Priced) (h : Reachable net s) :
    ∃ x, s.softCost = .finite x ∧ 0 ≤ x ∧
      x ≤ (net.constraints.toList.map Constraint.stake).sum := by
  refine ⟨_, (costed_of_reachable hp h).soft, Finset.sum_nonneg fun i hi => ?_,
    Network.sum_shareAt_le_stakes net fun i c hc => ?_⟩
  · have hc := Array.getElem?_eq_getElem (Finset.mem_range.mp hi)
    rw [Network.shareAt_of_eq_some hc, activeShare, softOf_eq hp (Array.mem_of_getElem? hc)]
    split_ifs
    exacts [le_refl 0, Network.stake_nonneg _, le_refl 0]
  · rw [activeShare, softOf_eq hp (Array.mem_of_getElem? hc)]
    split_ifs
    exacts [Network.stake_nonneg c, le_refl _, Network.stake_nonneg c]

/-- **A state violates no active hard constraint exactly if it costs less than
one of them.** -/
theorem hardViolations_eq_zero_iff_cost_lt (hp : net.Priced)
    (hweight : net.hardWeight = Network.softTotal net.constraints.toList + 1)
    (h : Reachable net s) : s.hardViolations = 0 ↔ s.cost net < net.hardWeight := by
  obtain ⟨x, hx, hnonneg, hle⟩ := exists_softCost_eq hp h
  rw [cost, hx, hp.hardWeight_eq hweight, Extended.ofNat_eq, Extended.finite_mul,
    Extended.finite_add, Extended.finite_lt]
  constructor
  · intro hzero
    rw [hzero, Nat.cast_zero, zero_mul, add_zero]
    linarith
  · intro hlt
    by_contra hne
    have hone : (1 : K) ≤ s.hardViolations := by
      exact_mod_cast Nat.one_le_iff_ne_zero.mpr hne
    have htotal := le_mul_of_one_le_left (a := (s.hardViolations : K))
      (add_nonneg net.sum_stakes_nonneg zero_le_one) hone
    linarith

omit [IsStrictOrderedRing K] in
/-- None is counted exactly if none is violated. -/
theorem hardViolations_eq_zero_iff (hw : net.Wired) (hp : net.Priced) (h : Reachable net s) :
    s.hardViolations = 0 ↔ ∀ i c, net.constraints[i]? = some c → c.isHard = true →
      s.isInactive i = false → c.isViolated (c.countTrue s.values) = false := by
  have hcosted := costed_of_reachable hp h
  have hexact := exact_of_reachable hw h
  constructor
  · intro hzero i c hc hhard hactive
    have hle := hcosted.hardOf_le hc hactive
    rw [hzero, hardOf, hhard, hexact i c hc] at hle
    cases hviolated : c.isViolated (c.countTrue s.values)
    · rfl
    · rw [hviolated] at hle
      simp at hle
  · intro hall
    have hsum := hcosted.hard
    rw [Finset.sum_eq_zero] at hsum
    · exact_mod_cast hsum
    · intro i hi
      obtain ⟨c, hc⟩ : ∃ c, net.constraints[i]? = some c :=
        ⟨_, Array.getElem?_eq_getElem (Finset.mem_range.mp hi)⟩
      rw [Network.shareAt_of_eq_some hc, activeShare, hardOf, hexact i c hc]
      cases hin : s.isInactive i
      · cases hhard : c.isHard
        · simp
        · simp [hall i c hc hhard hin]
      · simp

/-! ### Critical atoms -/

/-- **An atom is critical exactly if it is fixed or flipping it would violate an
active hard constraint.** -/
theorem isCritical_iff (hr : Regular net)
    (hweight : net.hardWeight = Network.softTotal net.constraints.toList + 1)
    (h : Reachable net s) (a : Nat) :
    s.isCritical net a = true ↔ s.isFixed a = true ∨
      ∃ i c, net.constraints[i]? = some c ∧ c.isHard = true ∧ s.isInactive i = false ∧
        c.isViolated (c.countTrue s.values) = false ∧
        c.isViolated (c.countTrue (s.flip net a).values) = true := by
  have hhard := hr.priced.hardWeight_eq hweight
  have htotal := add_nonneg net.sum_stakes_nonneg (zero_le_one : (0 : K) ≤ 1)
  rw [isCritical, Bool.or_eq_true, decide_eq_true_iff, (books_of_regular hr h).breakCost a,
    hr.priced.priceOf_eq, hhard, Extended.finite_le]
  refine or_congr_right ⟨fun hle => ?_, ?_⟩
  · -- if all of these constraints were soft, their stakes would bound the break cost
    by_contra hnone
    have hsoft := Network.sum_shareAt_le_stakes net (f := fun c i =>
      if (!s.isInactive i && !c.isViolated (c.countTrue s.values) &&
        c.isViolated (c.countTrue (s.flip net a).values)) = true then (net.price c).value else 0)
      fun i c hc => by
        cases hhardc : c.isHard with
        | true =>
          rw [if_neg]
          · exact Network.stake_nonneg c
          · intro hturns
            simp only [Bool.and_eq_true, Bool.not_eq_true'] at hturns
            exact hnone ⟨i, c, hc, hhardc, hturns.1.1, hturns.1.2, hturns.2⟩
        | false =>
          rw [hr.priced.value_price (Array.mem_of_getElem? hc) hhardc]
          split
          · exact le_refl _
          · exact Network.stake_nonneg c
    linarith
  · rintro ⟨i, c, hc, hhardc, hactive, hnow, hthen⟩
    obtain ⟨hi, -⟩ := Array.getElem?_eq_some_iff.mp hc
    have hprice : (net.price c).value = (net.constraints.toList.map Constraint.stake).sum + 1 := by
      rw [Network.price_of_isHard hhardc, hhard, Extended.value_finite]
    -- its price is one of those that make up the break cost
    refine le_trans (le_of_eq ?_) (Finset.single_le_sum (fun j hj => ?_) (Finset.mem_range.mpr hi))
    · rw [Network.shareAt_of_eq_some hc, hactive, hnow, hthen, hprice]
      rfl
    · have hd := Array.getElem?_eq_getElem (Finset.mem_range.mp hj)
      rw [Network.shareAt_of_eq_some hd]
      split
      · exact Network.price_nonneg htotal hhard _ (hr.priced.soft _ (Array.mem_of_getElem? hd))
      · exact le_refl 0

end State

end MarkovLogic
