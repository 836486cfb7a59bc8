/-
MarkovLogic/Proofs/Network/Lexicographic.lean

The cost counts hard violations first.

The cost of an assignment is the cost of the soft constraints that it violates
and, for each hard one, the hard weight (`evaluate_eq_add`).  The first part is
at most the sum of all stakes, and the hard weight is one more than that.  So
one hard violation less outweighs whatever happens to the soft constraints, and
between assignments with equally many only the soft constraints count.

Main statement: `cost_is_lexicographic`.
-/
import MarkovLogic.Proofs.Network.Domination

namespace MarkovLogic

variable {K : Type} [Field K] [LinearOrder K] [FloorRing K]

/-! ### The share of one constraint -/

namespace Constraint

/-- What a soft constraint costs under an assignment. -/
def softCost (s : Array Bool) (c : Constraint (Extended K)) : K :=
  match c.strength with
  | .hard => 0
  | .soft w => if c.isViolated (c.countTrue s) then |w.value| else 0

theorem softCost_le_stake [IsStrictOrderedRing K] (c : Constraint (Extended K)) (s : Array Bool) :
    c.softCost s ≤ c.stake := by
  rw [softCost, stake]
  cases c.strength with
  | hard => exact le_refl 0
  | soft w =>
    dsimp only
    split
    · exact le_refl _
    · exact abs_nonneg _

theorem softCost_nonneg [IsStrictOrderedRing K] (c : Constraint (Extended K)) (s : Array Bool) :
    0 ≤ c.softCost s := by
  rw [softCost]
  cases c.strength with
  | hard => exact le_refl 0
  | soft w =>
    dsimp only
    split
    · exact abs_nonneg _
    · exact le_refl 0

end Constraint

namespace Network

/-! ### The two parts of a cost -/

/-- The summed weights, without their signs, of the soft constraints that an
assignment violates. -/
def softPart {α : Type} [Scalar α] (net : Network α) (assignment : Array Bool) : α :=
  Scalar.sum <| (net.constraints.toList.filter fun c =>
    !c.isHard && c.isViolated (c.countTrue assignment)).map net.price

variable {net : Network (Extended K)}

theorem Priced.softPart_eq (hp : net.Priced) (s : Array Bool) :
    net.softPart s = .finite (net.constraints.toList.map (Constraint.softCost s)).sum := by
  rw [softPart, hp.sum_price_filter]
  refine congrArg _ (congrArg _ (List.map_congr_left fun c hc => ?_))
  rw [Array.mem_toList_iff] at hc
  rw [Constraint.softCost]
  cases hs : c.strength with
  | hard => simp [Constraint.isHard, hs]
  | soft w =>
    obtain ⟨x, rfl⟩ := hp.soft c hc w hs
    simp [Constraint.isHard, price, hs]

/-- A constraint costs what it costs as a soft one, and the hard weight if it is a
hard one that fails. -/
theorem Priced.value_price_of_isViolated (hp : net.Priced) {total : K}
    (hweight : net.hardWeight = .finite total) {c : Constraint (Extended K)}
    (hc : c ∈ net.constraints) (s : Array Bool) :
    (if c.isViolated (c.countTrue s) then (net.price c).value else 0) =
      c.softCost s + if (c.isHard && c.countTrue s == 0) = true then total else 0 := by
  rw [Constraint.softCost, price]
  cases hs : c.strength with
  | hard =>
    rw [hweight]
    rcases Nat.eq_zero_or_pos (c.countTrue s) with hzero | hpos
    · simp [Constraint.isViolated, Constraint.isPositive, Constraint.isHard, hs, hzero]
    · simp [Constraint.isViolated, Constraint.isPositive, Constraint.isHard, hs, hpos.ne',
        Nat.one_le_iff_ne_zero]
  | soft w =>
    obtain ⟨x, rfl⟩ := hp.soft c hc w hs
    simp [Constraint.isHard, hs]

/-- **The cost is that of the soft constraints and the hard weight for each hard
violation.** -/
theorem Priced.evaluate_eq_add (hp : net.Priced) {total : K}
    (hweight : net.hardWeight = .finite total) (s : Array Bool) :
    net.evaluate s = .finite ((net.constraints.toList.map (Constraint.softCost s)).sum +
      net.hardViolations s * total) := by
  rw [hp.evaluate_eq_sum, List.map_congr_left fun c hc =>
    hp.value_price_of_isViolated hweight (Array.mem_toList_iff.1 hc) s, List.sum_map_add]
  rw [List.sum_map_ite, List.map_const', List.map_const', List.sum_replicate, List.sum_replicate,
    smul_zero, add_zero, nsmul_eq_mul, hardViolations, ← Array.countP_toList,
    List.countP_eq_length_filter]
  simp only [Bool.decide_eq_true]

/-! ### Hard violations first -/

section Comparison

variable [IsStrictOrderedRing K] (hp : net.Priced)
  (hweight : net.hardWeight = softTotal net.constraints.toList + 1) {s t : Array Bool}

include hp hweight

/-- **Fewer hard violations cost less**, whatever the soft constraints do. -/
theorem evaluate_lt_of_hardViolations_lt (h : net.hardViolations s < net.hardViolations t) :
    net.evaluate s < net.evaluate t := by
  have htotal := hp.hardWeight_eq hweight
  have hsoft : (net.constraints.toList.map (Constraint.softCost s)).sum ≤
      (net.constraints.toList.map Constraint.stake).sum :=
    List.sum_le_sum fun c _ => c.softCost_le_stake s
  have hnonneg : 0 ≤ (net.constraints.toList.map (Constraint.softCost t)).sum :=
    List.sum_nonneg (List.forall_mem_map.2 fun c _ => c.softCost_nonneg t)
  have hcount : (net.hardViolations s : K) + 1 ≤ net.hardViolations t := by exact_mod_cast h
  -- the hard weight once more pays for all soft constraints
  have hmore := mul_le_mul_of_nonneg_right hcount
    (add_nonneg net.sum_stakes_nonneg zero_le_one)
  rw [hp.evaluate_eq_add htotal, hp.evaluate_eq_add htotal, Extended.finite_lt]
  linarith

omit [IsStrictOrderedRing K] in
/-- With equally many hard violations only the soft constraints count. -/
theorem evaluate_sub_of_hardViolations_eq (h : net.hardViolations s = net.hardViolations t) :
    net.evaluate s - net.evaluate t = net.softPart s - net.softPart t := by
  have htotal := hp.hardWeight_eq hweight
  rw [hp.evaluate_eq_add htotal, hp.evaluate_eq_add htotal, h, hp.softPart_eq, hp.softPart_eq,
    Extended.finite_sub, Extended.finite_sub, add_sub_add_right_eq_sub]

theorem softPart_le_of_evaluate_le (h : net.hardViolations s = net.hardViolations t)
    (hle : net.evaluate s ≤ net.evaluate t) : net.softPart s ≤ net.softPart t := by
  have htotal := hp.hardWeight_eq hweight
  rw [hp.evaluate_eq_add htotal, hp.evaluate_eq_add htotal, h, Extended.finite_le,
    add_le_add_iff_right] at hle
  rwa [hp.softPart_eq, hp.softPart_eq, Extended.finite_le]

theorem hardViolations_le_of_evaluate_le (hle : net.evaluate s ≤ net.evaluate t) :
    net.hardViolations s ≤ net.hardViolations t := by
  by_contra hlt
  have hless := evaluate_lt_of_hardViolations_lt hp hweight (not_le.1 hlt)
  have htotal := hp.hardWeight_eq hweight
  rw [hp.evaluate_eq_add htotal, hp.evaluate_eq_add htotal, Extended.finite_le] at hle
  rw [hp.evaluate_eq_add htotal, hp.evaluate_eq_add htotal, Extended.finite_lt] at hless
  exact hle.not_gt hless

end Comparison

/-! ### The main theorem -/

/-- Cliques whose weights are finite or positive infinity have soft constraints of
finite weight. -/
theorem isFinite_of_weights {cliques : List (UInt64 × Clique (Extended K))} {extra : List Nat}
    {range : Option (Nat × Nat)}
    (h : ∀ e ∈ cliques, Scalar.isFinite e.2.weight = true ∨ e.2.weight = .posInf) :
    ∀ c ∈ (assemble cliques extra range).constraints, ∀ w, c.strength = .soft w →
      Scalar.isFinite w = true := by
  intro c hc w hw
  obtain ⟨entry, hentry, -, hcomes⟩ := exists_embodies hc
  rw [hcomes, constraintOf, strengthOf] at hw
  split at hw
  · cases hw
  · rename_i hsoft
    obtain rfl := Strength.soft.inj hw
    refine (h entry hentry).resolve_right fun hinf => hsoft ?_
    rw [hinf]
    rfl

/-- **The cost counts hard violations first.**  Take a network assembled from cliques
of finite or positively infinite weight.  An assignment with fewer hard violations
costs less, and between assignments with equally many the difference is that of the
violated soft weights, so an assignment of least cost has the fewest hard violations
and among those the least soft cost.  And if no atom occurs twice in one constraint,
an atom is critical in a reachable state exactly if it is fixed or flipping it
violates an active hard constraint that holds. -/
theorem cost_is_lexicographic [IsStrictOrderedRing K]
    (cliques : List (UInt64 × Clique (Extended K))) (extra : List Nat)
    (range : Option (Nat × Nat))
    (hweights : ∀ e ∈ cliques, Scalar.isFinite e.2.weight = true ∨ e.2.weight = .posInf) :
    let net := assemble cliques extra range
    (∀ s t : Array Bool, net.hardViolations s < net.hardViolations t →
      net.evaluate s < net.evaluate t) ∧
    (∀ s t : Array Bool, net.hardViolations s = net.hardViolations t →
      net.evaluate s - net.evaluate t = net.softPart s - net.softPart t) ∧
    (∀ s : Array Bool,
      (∀ t : Array Bool, t.size = net.atomCount → net.evaluate s ≤ net.evaluate t) →
      ∀ t : Array Bool, t.size = net.atomCount →
        net.hardViolations s ≤ net.hardViolations t ∧
          (net.hardViolations s = net.hardViolations t → net.softPart s ≤ net.softPart t)) ∧
    ((∀ c ∈ net.constraints, (c.literals.map Int.natAbs).Nodup) →
      ∀ s : State (Extended K), State.Reachable net s → ∀ a : Nat,
        s.isCritical net a = true ↔ s.isFixed a = true ∨
          ∃ i c, net.constraints[i]? = some c ∧ c.isHard = true ∧ s.isInactive i = false ∧
            c.isViolated (c.countTrue s.values) = false ∧
            c.isViolated (c.countTrue (s.flip net a).values) = true) := by
  intro net
  have hp : net.Priced := priced_assemble (isFinite_of_weights hweights)
  have hweight : net.hardWeight = softTotal net.constraints.toList + 1 :=
    hardWeight_assemble cliques extra range
  refine ⟨fun s t h => evaluate_lt_of_hardViolations_lt hp hweight h,
    fun s t h => evaluate_sub_of_hardViolations_eq hp hweight h,
    fun s hs t ht => ⟨hardViolations_le_of_evaluate_le hp hweight (hs t ht),
      fun h => softPart_le_of_evaluate_le hp hweight h (hs t ht)⟩, fun hnodup s h a => ?_⟩
  have hw : net.Wired := wired_assemble cliques extra range
  exact State.isCritical_iff ⟨hw, hp, fun c hc => hw.nodup_atoms hc (hnodup c hc)⟩ hweight h a

theorem assemble_threeCliques :
    (assemble State.threeCliques [] none).constraints = #[
      ⟨1, .soft (.finite (3 / 2)), [1, 2], [⟨0, true⟩, ⟨1, true⟩], [(0, 1)]⟩,
      ⟨2, .soft (.finite (-1)), [-1, 3], [⟨0, false⟩, ⟨2, true⟩], [(1, 1)]⟩,
      ⟨3, .hard, [-2], [⟨1, false⟩], [(2, 1)]⟩] := by
  have hfirst : ((.finite (3 / 2) : Extended ℚ) == .finite 0) = false := by decide +kernel
  have hsecond : ((.finite (-1) : Extended ℚ) == .finite 0) = false := by decide +kernel
  have hhard : ((.posInf : Extended ℚ) == .finite 0) = false := rfl
  simp [assemble, State.threeCliques, addClique, addLiterals, addLiteral, intern, blank,
    strengthOf, hfirst, hsecond, hhard, Std.HashMap.getElem_insert]

/-- An assignment that violates both soft constraints costs less than one that
violates only the hard one. -/
theorem cost_is_lexicographic_threeCliques :
    let net := assemble State.threeCliques [] none
    (∀ e ∈ State.threeCliques, Scalar.isFinite e.2.weight = true ∨ e.2.weight = .posInf) ∧
      net.hardViolations #[false, false, true] < net.hardViolations #[true, true, false] ∧
      net.evaluate #[false, false, true] < net.evaluate #[true, true, false] := by
  intro net
  have hweights : ∀ e ∈ State.threeCliques,
      Scalar.isFinite e.2.weight = true ∨ e.2.weight = .posInf := by
    simp [State.threeCliques, Extended.isFinite_iff]
  have hfewer : net.hardViolations #[false, false, true] <
      net.hardViolations #[true, true, false] := by
    simp [net, hardViolations, assemble_threeCliques, Constraint.isHard, Constraint.countTrue]
  exact ⟨hweights, hfewer,
    (cost_is_lexicographic State.threeCliques [] none hweights).1 _ _ hfewer⟩

end Network

end MarkovLogic
