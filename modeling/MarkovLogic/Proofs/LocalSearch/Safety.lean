/-
MarkovLogic/Proofs/LocalSearch/Safety.lean

Repairing a soft constraint breaks no hard one.

The atom that a step flips is a candidate of the constraint that is repaired,
however it was chosen: by the walk, as a cheapest one, or because it was tabu
and led below the best cost.  So what holds of all candidates holds of it: it
is not fixed, flipping it helps the constraint, and unless the constraint is
hard, it is not critical, that is, no hard constraint is lost.

While no hard constraint is violated, all constraints that can be drawn are
soft, so within a try none becomes violated.  Over several tries the cost
decides: a state costs less than one hard constraint exactly if it violates
none, and a search ends no dearer than it began.

Main statement: `repairs_keep_hard`.
-/
import MarkovLogic.Proofs.LocalSearch.Best
import MarkovLogic.Proofs.Network.Domination
import MarkovLogic.Proofs.Network.Violations

namespace MarkovLogic

/-- What is chosen is one of the choices. -/
theorem Random.mem_of_choose {β ρ : Type} [RandomSource ρ] {xs : Array β} {r : ρ} {x : β}
    (h : (Random.choose xs r).1 = some x) : x ∈ xs := by
  rw [Random.choose] at h
  split at h
  · cases h
  · exact Array.mem_of_getElem? h

namespace LocalSearch

open State

section Picking

variable {α : Type} [Scalar α] {ρ : Type} [RandomSource ρ] {net : Network α}
  {settings : Settings α} {s : State α}

/-! ### The atom that is picked -/

/-- A greedy step chooses among the atoms that it is given. -/
theorem greedyChoices_subset {atoms : List Nat} {a : Nat}
    (h : a ∈ greedyChoices net settings s atoms) : a ∈ atoms := by
  rw [greedyChoices] at h
  split at h
  · cases h
  · have hpool := List.mem_of_mem_filter h
    split at hpool
    · exact hpool
    · exact List.mem_of_mem_filter hpool

/-- Whatever way an atom is chosen, it is a candidate. -/
theorem mem_candidates_of_pickFrom {c : Constraint α} {r r' : ρ} {a : Nat}
    (h : pickFrom net settings s c r = (some a, r')) : a ∈ candidates net s c := by
  rw [pickFrom] at h
  dsimp only at h
  split at h
  · cases h
  · split at h
    · exact List.mem_toArray.mp (Random.mem_of_choose (congrArg Prod.fst h))
    · exact greedyChoices_subset (List.mem_toArray.mp (Random.mem_of_choose (congrArg Prod.fst h)))

/-- The atom that is picked is a candidate of the constraint that is drawn. -/
theorem exists_of_pick {r r' : ρ} {a : Nat} (h : pick net settings s r = (some a, r')) :
    ∃ i c, (Random.choose s.violated r).1 = some i ∧ net.constraints[i]? = some c ∧
      a ∈ candidates net s c := by
  rw [pick] at h
  dsimp only at h
  split at h
  · cases h
  · rename_i c hc
    obtain ⟨i, hi, hat⟩ := Option.bind_eq_some_iff.mp hc
    exact ⟨i, c, hi, hat, mem_candidates_of_pickFrom h⟩

theorem mem_candidates_iff {c : Constraint α} {a : Nat} :
    a ∈ candidates net s c ↔
      (∃ l ∈ c.lits, (c.isPositive = true ∨ s.value a = l.positive) ∧ l.atom = a) ∧
        s.isFixed a = false ∧ (c.isHard = true ∨ s.isCritical net a = false) := by
  simp only [candidates, List.mem_filter, List.mem_map, Bool.and_eq_true, Bool.or_eq_true,
    Bool.not_eq_true', beq_iff_eq, and_assoc]
  refine and_congr_left fun _ => exists_congr fun l => and_congr_right fun _ => ?_
  exact and_congr_left fun hatom => by rw [hatom]

end Picking

/-! ### What flipping a candidate does -/

section Flipping

variable {β : Type} {c : Constraint β} {values : Array Bool} {a : Nat}

/-- A constraint that should hold and does not holds after the flip of any of
its atoms. -/
theorem isViolated_flipped_of_isPositive [Scalar β] (hpositive : c.isPositive = true)
    (hviolated : c.isViolated (c.countTrue values) = true) (ha : a < values.size)
    (hmem : a ∈ c.lits.map NetLiteral.atom) :
    c.isViolated (c.countTrue (flipped values a)) = false := by
  rw [Constraint.isViolated, hpositive] at hviolated ⊢
  have hzero : c.countTrue values = 0 := by
    simpa using hviolated
  simpa using (one_le_countTrue_flipped_iff ha hzero).mpr hmem

/-- The flip of a true literal leaves one true literal less. -/
theorem countTrue_flipped_add_one (hnodup : (c.lits.map NetLiteral.atom).Nodup)
    (ha : a < values.size) {l : NetLiteral} (hl : l ∈ c.lits) (hatom : l.atom = a)
    (htrue : values.getD a false = l.positive) :
    c.countTrue (flipped values a) + 1 = c.countTrue values := by
  have hflip := countTrue_flip c ha
  have hone := count_add_count_le hnodup (values.getD a false) (a := a)
  have hpos : 0 < c.lits.count ⟨a, values.getD a false⟩ := by
    rw [List.count_pos_iff, htrue, ← hatom]
    exact hl
  omega

end Flipping

variable {K : Type} [Field K] [LinearOrder K] [FloorRing K] [IsStrictOrderedRing K]
  {ρ : Type} [RandomSource ρ] {net : Network (Extended K)} {settings : Settings (Extended K)}
  {s : State (Extended K)}

/-! ### Hard constraints -/

/-- The flip of an atom that is not critical loses no active hard constraint. -/
theorem isViolated_flip_of_not_isCritical (hr : Regular net)
    (hweight : net.hardWeight = Network.softTotal net.constraints.toList + 1)
    (h : Reachable net s) {a : Nat} (ha : s.isCritical net a = false) {j : Nat}
    {d : Constraint (Extended K)} (hd : net.constraints[j]? = some d) (hhard : d.isHard = true)
    (hactive : s.isInactive j = false) (hnow : d.isViolated (d.countTrue s.values) = false) :
    d.isViolated (d.countTrue (s.flip net a).values) = false := by
  by_contra hthen
  rw [Bool.not_eq_false] at hthen
  have hcritical := (isCritical_iff hr hweight h a).mpr
    (.inr ⟨j, d, hd, hhard, hactive, hnow, hthen⟩)
  rw [ha] at hcritical
  cases hcritical

/-- **A step keeps a state free of hard violations.** -/
theorem hardViolations_flip_of_pick (hr : Regular net)
    (hweight : net.hardWeight = Network.softTotal net.constraints.toList + 1)
    (h : Reachable net s) (hzero : s.hardViolations = 0) {r r' : ρ} {a : Nat}
    (hpick : pick net settings s r = (some a, r')) : (s.flip net a).hardViolations = 0 := by
  have hheld := (hardViolations_eq_zero_iff hr.wired hr.priced h).mp hzero
  obtain ⟨i, c, hi, hc, hmem⟩ := exists_of_pick hpick
  obtain ⟨d, hd, hactive, hviolated⟩ :=
    (mem_violated_iff hr.wired h).mp (Random.mem_of_choose hi)
  obtain rfl : c = d := Option.some.inj (hc.symm.trans hd)
  -- the constraint that is drawn is violated, so it is soft
  have hsoft : c.isHard = false := by
    by_contra hhard
    rw [hheld i c hc (by simpa using hhard) hactive] at hviolated
    cases hviolated
  obtain ⟨-, -, hcritical⟩ := mem_candidates_iff.mp hmem
  rw [hsoft] at hcritical
  rw [hardViolations_eq_zero_iff hr.wired hr.priced (h.tail (.flip a))]
  intro j e he hhard hin
  rw [isInactive_flip] at hin
  exact isViolated_flip_of_not_isCritical hr hweight h (by simpa using hcritical) he hhard hin
    (hheld j e he hhard hin)

omit [IsStrictOrderedRing K] in
theorem hardViolations_flipAndRecord (net : Network (Extended K)) (s : State (Extended K))
    (a : Nat) : (flipAndRecord net s a).hardViolations = (s.flip net a).hardViolations := by
  rw [flipAndRecord_eq]
  split <;> rfl

/-- Once no hard constraint is violated in a try, none is from then on. -/
theorem pairwise_walkSteps (hr : Regular net)
    (hweight : net.hardWeight = Network.softTotal net.constraints.toList + 1) (n : Nat)
    {p : Progress (Extended K) ρ} (h : Reachable net p.state) :
    (p.state :: (walkSteps net settings n p).2).Pairwise
      fun t u => t.hardViolations = 0 → u.hardViolations = 0 := by
  -- from a state without hard violations on, each step keeps it so
  have hlater (n : Nat) {p : Progress (Extended K) ρ} (h : Reachable net p.state)
      (hzero : p.state.hardViolations = 0) :
      ∀ t ∈ (walkSteps net settings n p).2, t.hardViolations = 0 := by
    have hkept := walkSteps_induction settings
      (P := fun t => Reachable net t ∧ t.hardViolations = 0) (fun t r r' a ht hpick =>
        ⟨reachable_flipAndRecord ht.1 a, (hardViolations_flipAndRecord net t a).trans
          (hardViolations_flip_of_pick hr hweight ht.1 ht.2 hpick)⟩)
      n (p := p) ⟨h, hzero⟩
    exact fun t ht => (hkept.2 t ht).2
  induction n generalizing p with
  | zero => exact List.pairwise_singleton _ _
  | succ n ih =>
    refine List.pairwise_cons.mpr ⟨fun t ht hzero => hlater (n + 1) h hzero t ht, ?_⟩
    rw [walkSteps]
    split
    · exact List.Pairwise.nil
    · rcases pick net settings p.state p.source with ⟨_ | a, source⟩
      · exact (List.pairwise_cons.mp (ih (p := { p with source }) h)).2
      · exact ih (p := { p with
          state := flipAndRecord net p.state a, source, flips := p.flips + 1 })
          (reachable_flipAndRecord h a)

/-- A search that begins without hard violations ends without them. -/
theorem hardViolations_search (hr : Regular net)
    (hweight : net.hardWeight = Network.softTotal net.constraints.toList + 1)
    (h : Reachable net s) (hzero : s.hardViolations = 0) (r : ρ) :
    (search net settings s r).state.hardViolations = 0 := by
  obtain ⟨x, y, hx, hy, hle, -⟩ := exists_search hr.wired hr.priced h settings r
  rw [hardViolations_eq_zero_iff_cost_lt hr.priced hweight h, hx,
    hr.priced.hardWeight_eq hweight, Extended.finite_lt] at hzero
  rw [hardViolations_eq_zero_iff_cost_lt hr.priced hweight (reachable_search h settings r), hy,
    hr.priced.hardWeight_eq hweight, Extended.finite_lt]
  exact hle.trans_lt hzero

/-! ### The main statement -/

/-- **Repairing a soft constraint breaks no hard one.**  Take an assembled network
with finite soft weights in which no atom occurs twice in one constraint.  On a
reachable state a step draws an active violated constraint and picks one of its
atoms that is not fixed.  Flipping it makes a constraint that should hold hold, and
takes one true literal away from one that should fail; and if the constraint is
soft, every active hard constraint that holds still holds.  So within a try no hard
constraint is violated once none is, and a search that begins without hard
violations ends without them. -/
theorem repairs_keep_hard (ρ : Type) [RandomSource ρ]
    (cliques : List (UInt64 × Clique (Extended K))) (extra : List Nat)
    (range : Option (Nat × Nat))
    (hfinite : ∀ c ∈ (Network.assemble cliques extra range).constraints, ∀ w,
      c.strength = .soft w → Scalar.isFinite w = true)
    (hnodup : ∀ c ∈ (Network.assemble cliques extra range).constraints,
      (c.literals.map Int.natAbs).Nodup)
    (settings : Settings (Extended K)) :
    let net := Network.assemble cliques extra range
    (∀ (s : State (Extended K)) (r r' : ρ) (a : Nat), Reachable net s →
      pick net settings s r = (some a, r') →
      ∃ i c, (Random.choose s.violated r).1 = some i ∧ net.constraints[i]? = some c ∧
        s.isInactive i = false ∧ c.isViolated (c.countTrue s.values) = true ∧
        s.isFixed a = false ∧ a ∈ c.lits.map NetLiteral.atom ∧
        (c.isPositive = true → c.isViolated (c.countTrue (s.flip net a).values) = false) ∧
        (c.isPositive = false →
          c.countTrue (s.flip net a).values + 1 = c.countTrue s.values) ∧
        (c.isHard = false → ∀ (j : Nat) (d : Constraint (Extended K)),
          net.constraints[j]? = some d → d.isHard = true → s.isInactive j = false →
          d.isViolated (d.countTrue s.values) = false →
          d.isViolated (d.countTrue (s.flip net a).values) = false)) ∧
    (∀ (n : Nat) (p : Progress (Extended K) ρ), Reachable net p.state →
      (p.state :: (walkSteps net settings n p).2).Pairwise fun t u =>
        t.hardViolations = 0 → u.hardViolations = 0) ∧
    ∀ (s : State (Extended K)) (r : ρ), Reachable net s → s.hardViolations = 0 →
      (search net settings s r).state.hardViolations = 0 := by
  intro net
  have hw : net.Wired := Network.wired_assemble cliques extra range
  have hr : Regular net := ⟨hw, Network.priced_assemble hfinite,
    fun c hc => hw.nodup_atoms hc (hnodup c hc)⟩
  have hweight : net.hardWeight = Network.softTotal net.constraints.toList + 1 :=
    Network.hardWeight_assemble cliques extra range
  refine ⟨fun s r r' a h hpick => ?_, fun n p h => pairwise_walkSteps hr hweight n h,
    fun s r h hzero => hardViolations_search hr hweight h hzero r⟩
  obtain ⟨i, c, hi, hc, hmem⟩ := exists_of_pick hpick
  -- what is drawn from the list is active and violated
  obtain ⟨d, hd, hactive, hviolated⟩ := (mem_violated_iff hw h).mp (Random.mem_of_choose hi)
  obtain rfl : c = d := Option.some.inj (hc.symm.trans hd)
  obtain ⟨⟨l, hl, hhelps, hatom⟩, hfixed, hcritical⟩ := mem_candidates_iff.mp hmem
  have hcmem : c ∈ net.constraints := Array.mem_of_getElem? hc
  have ha : a < s.values.size := by
    rw [(sized_of_reachable h).values, ← hatom]
    exact hw.atom_lt hcmem hl
  rw [values_flip]
  refine ⟨i, c, hi, hc, hactive, hviolated, hfixed, List.mem_map.mpr ⟨l, hl, hatom⟩,
    fun hpositive => ?_, fun hnegative => ?_, fun hsoft j d hd hhard hin hnow => ?_⟩
  · exact isViolated_flipped_of_isPositive hpositive hviolated ha
      (List.mem_map.mpr ⟨l, hl, hatom⟩)
  · refine countTrue_flipped_add_one (hr.nodup c hcmem) ha hl hatom ?_
    simpa [hnegative, value] using hhelps
  · rw [hsoft] at hcritical
    rw [← values_flip net s a]
    exact isViolated_flip_of_not_isCritical hr hweight h (by simpa using hcritical) hd hhard hin
      hnow

theorem repairs_keep_hard_threeCliques :
    let net := Network.assemble threeCliques [] none
    let r : ChaCha := RandomSource.ofSeed 7
    (∀ c ∈ net.constraints, ∀ w, c.strength = .soft w → Scalar.isFinite w = true) ∧
      (∀ c ∈ net.constraints, (c.literals.map Int.natAbs).Nodup) ∧
      (∀ a r', pick net briefSearch (start net) r = (some a, r') →
        (start net).isFixed a = false) ∧
      (start net).hardViolations = 0 ∧
      (search net briefSearch (start net) r).state.hardViolations = 0 := by
  intro net r
  have hw : net.Wired := Network.wired_assemble threeCliques [] none
  have hzero : (start net).hardViolations = 0 := by
    rw [hardViolations_eq_zero_iff hw (Network.priced_assemble finite_threeCliques) .refl]
    intro i c hc hhard _
    -- the only hard clique has one literal, which is negative
    obtain ⟨entry, hmem, -, hcomes⟩ := Network.exists_embodies (Array.mem_of_getElem? hc)
    have hnames := hw.names c (Array.mem_of_getElem? hc)
    rw [hcomes] at hhard hnames
    simp only [threeCliques, List.mem_cons, List.not_mem_nil, or_false] at hmem
    rcases hmem with rfl | rfl | rfl
    · cases hhard
    · cases hhard
    · obtain ⟨l, hlits⟩ : ∃ l, c.lits = [l] := List.length_eq_one_iff.mp hnames.length_eq.symm
      have hnegative : l.positive = false := by
        simp only [Network.Names, Network.constraintOf, hlits] at hnames
        exact (List.forall₂_cons.mp hnames).1.2
      have hvalues : (start net).values = Array.replicate net.nodes.size false :=
        (rebooked_recompute net _).values
      have htrue : c.countTrue (start net).values = 1 := by
        rw [Constraint.countTrue, hlits, List.countP_singleton, hvalues, hnegative]
        simp only [Array.getD_eq_getD_getElem?, Array.getElem?_replicate]
        split <;> rfl
      rw [htrue, hcomes]
      rfl
  obtain ⟨hpick, -, hsearch⟩ := repairs_keep_hard ChaCha threeCliques [] none finite_threeCliques
    nodup_threeCliques briefSearch
  refine ⟨finite_threeCliques, nodup_threeCliques, fun a r' h => ?_, hzero, hsearch _ _ .refl hzero⟩
  obtain ⟨i, c, -, -, -, -, hfixed, -⟩ := hpick _ _ _ _ .refl h
  exact hfixed

end LocalSearch

end MarkovLogic
