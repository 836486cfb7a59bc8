/-
MarkovLogic/Proofs/Network/Restriction.lean

Networks and the cliques they are assembled from mean the same.

The constraints of a network are what the entries over their literals are
tallied to, unless the tally is zero (`exists_entry`, `exists_constraint`).

An assignment to the numbers of ground atoms restricts to one of the atoms of
a network (`restrict`).  Under the restriction a constraint has as many true
literals as hold under the assignment itself.  So the network prices a
restricted assignment as its constraints do, read as weighted ground clauses
(`theory`), as long as no hard constraint is violated.

Main statements: `hardViolations_eq_zero_iff` and `evaluate_eq`, on networks
whose hard constraints demand that their disjunction holds
(`isRegular_assemble`), and `sameMeaning_theory`: leaving out the cliques
whose weight comes out as zero changes nothing.
-/
import MarkovLogic.Proofs.Clique.Coalescing
import MarkovLogic.Proofs.Network.Assembly

namespace MarkovLogic

namespace Network

variable {α : Type}

/-! ### Networks of entries -/

section Entries

variable [Scalar α] {key : List Int → UInt64} {n : Nat} {es : List (Entry α)}

/-- A constraint is what the entries over its literals are tallied to. -/
theorem exists_entry {extra : List Nat} {range : Option (Nat × Nat)} {c : Constraint α}
    (hc : c ∈ (assemble ((Register.empty key n).insertAll es).cliques extra range).constraints) :
    ∃ e ∈ es, isKept (key e.literals, (Tally.ofEntries es e.literals).toClique) = true ∧
      Embodies (key e.literals, (Tally.ofEntries es e.literals).toClique) c := by
  obtain ⟨entry, hentry, hkept, hembodies⟩ := exists_embodies hc
  obtain ⟨e, he, rfl⟩ := (Register.mem_cliques_iff_exists_entry key n es).1 hentry
  exact ⟨e, he, hkept, hembodies⟩

/-- The literals of an entry have a constraint, unless the tally is left out. -/
theorem exists_constraint {e : Entry α} (he : e ∈ es)
    (hkept : isKept (key e.literals, (Tally.ofEntries es e.literals).toClique) = true)
    (extra : List Nat) (range : Option (Nat × Nat)) :
    ∃ c ∈ (assemble ((Register.empty key n).insertAll es).cliques extra range).constraints,
      Embodies (key e.literals, (Tally.ofEntries es e.literals).toClique) c :=
  exists_embodied ((Register.mem_cliques_iff_exists_entry key n es).2 ⟨e, he, rfl⟩) hkept
    extra range

end Entries

/-! ### Restricted assignments -/

/-- The values of the atoms of the network under an assignment to all ground
atoms. -/
def restrict (net : Network α) (s : Nat → Bool) : Array Bool :=
  net.nodes.map fun n => s n.id

/-- A literal of the network is true if the literal that it was made from holds. -/
theorem Names.countP_eq {net : Network α} (hindexed : net.Indexed) {literals : List Int}
    {lits : List NetLiteral} (h : net.Names literals lits) (s : Nat → Bool) :
    (lits.countP fun l => (net.restrict s).getD l.atom false == l.positive) =
      literals.countP (litHolds s) := by
  induction h with
  | nil => rfl
  | @cons x l literals lits hx _ ih =>
    obtain ⟨hindex, hsign⟩ := hx
    obtain ⟨n, hn, hid⟩ := Option.map_eq_some_iff.1 ((hindexed _ _).1 hindex)
    have hvalue : (net.restrict s).getD l.atom false = s x.natAbs := by
      rw [restrict, Array.getD_eq_getD_getElem?, Array.getElem?_map, hn, ← hid]
      rfl
    rw [List.countP_cons, List.countP_cons, ih, hvalue, hsign, litHolds]

/-- A constraint has as many true literals as hold. -/
theorem Wired.countTrue_restrict {net : Network α} (h : net.Wired) {c : Constraint α}
    (hc : c ∈ net.constraints) (s : Nat → Bool) :
    c.countTrue (net.restrict s) = c.literals.countP (litHolds s) :=
  (h.names c hc).countP_eq h.indexed s

theorem Wired.one_le_countTrue_iff {net : Network α} (h : net.Wired) {c : Constraint α}
    (hc : c ∈ net.constraints) (s : Nat → Bool) :
    1 ≤ c.countTrue (net.restrict s) ↔ anyHolds s c.literals = true := by
  rw [h.countTrue_restrict hc, Nat.one_le_iff_ne_zero, Nat.ne_zero_iff_zero_lt, List.countP_pos_iff,
    anyHolds, List.any_eq_true]

end Network

variable {K : Type} [Field K] [LinearOrder K] [FloorRing K]

/-! ### Constraints as ground clauses -/

namespace Constraint

/-- The ground clause that a constraint stands for. -/
def ground (c : Constraint (Extended K)) : GroundClause (Extended K) where
  weight := match c.strength with
    | .hard => .posInf
    | .soft w => w
  literals := c.literals

/-- A hard constraint, or a soft one with a finite weight that is not zero. -/
def IsRegular (c : Constraint (Extended K)) : Prop :=
  c.strength = .hard ∨ ∃ x : K, x ≠ 0 ∧ c.strength = .soft (.finite x)

theorem isHard_ground {c : Constraint (Extended K)} (h : c.IsRegular) :
    c.ground.isHard = c.isHard := by
  rcases h with h | ⟨x, -, h⟩
  · rw [ground, isHard, h]
    rfl
  · rw [ground, isHard, h]
    rfl

end Constraint

namespace Network

/-- The constraints as ground clauses. -/
def theory (net : Network (Extended K)) : List (GroundClause (Extended K)) :=
  net.constraints.toList.map Constraint.ground

/-- The network and the ground clauses call the same assignments violations. -/
theorem Wired.isViolated_restrict {net : Network (Extended K)} (h : net.Wired)
    {c : Constraint (Extended K)} (hc : c ∈ net.constraints) (hr : c.IsRegular) (s : Nat → Bool) :
    c.isViolated (c.countTrue (net.restrict s)) = c.ground.isViolated s := by
  have hcount : decide (1 ≤ c.countTrue (net.restrict s)) = anyHolds s c.literals := by
    rw [Bool.eq_iff_iff, decide_eq_true_iff]
    exact h.one_le_countTrue_iff hc s
  rw [Constraint.isViolated, hcount]
  rcases hr with hs | ⟨x, hx, hs⟩
  · simp only [Constraint.isPositive, Constraint.ground, hs, GroundClause.isViolated_posInf]
    cases anyHolds s c.literals <;> rfl
  · simp only [Constraint.isPositive, Constraint.ground, hs, GroundClause.isViolated_finite,
      Extended.zero_eq, Extended.finite_lt]
    cases anyHolds s c.literals
    · simp
    · rcases lt_or_gt_of_ne hx with hneg | hpos
      · simp [hneg, not_lt.2 hneg.le]
      · simp [hpos, not_lt.2 hpos.le]

/-- **No hard constraint is violated exactly if no hard ground clause is.** -/
theorem hardViolations_eq_zero_iff {net : Network (Extended K)} (h : net.Wired)
    (hr : ∀ c ∈ net.constraints, c.IsRegular) (s : Nat → Bool) :
    net.hardViolations (net.restrict s) = 0 ↔ Satisfies s net.theory := by
  rw [hardViolations, Array.countP_eq_zero, Satisfies, theory, List.forall_mem_map]
  simp only [Array.mem_toList_iff]
  refine forall₂_congr fun c hc => ?_
  rw [Constraint.isHard_ground (hr c hc), ← h.isViolated_restrict hc (hr c hc)]
  cases hhard : c.isHard
  · simp
  · have hpositive : c.isPositive = true := by
      unfold Constraint.isHard at hhard
      unfold Constraint.isPositive
      split at hhard
      · rfl
      · cases hhard
    simp [Constraint.isViolated, hpositive, Nat.one_le_iff_ne_zero]

/-- **The cost is the price of the violated soft ground clauses**, if no hard
constraint is violated. -/
theorem evaluate_eq {net : Network (Extended K)} (h : net.Wired)
    (hr : ∀ c ∈ net.constraints, c.IsRegular) {s : Nat → Bool} (hs : Satisfies s net.theory) :
    net.evaluate (net.restrict s) = softCost s net.theory := by
  have hfilter : net.constraints.toList.filter
      (fun c => c.isViolated (c.countTrue (net.restrict s))) =
      net.constraints.toList.filter fun c => !c.ground.isHard && c.ground.isViolated s := by
    refine List.filter_congr fun c hc => ?_
    rw [h.isViolated_restrict (Array.mem_toList_iff.1 hc) (hr c (Array.mem_toList_iff.1 hc))]
    cases hhard : c.ground.isHard
    · rfl
    · rw [hs c.ground (List.mem_map_of_mem hc) hhard]
      rfl
  rw [evaluate, softCost, theory, List.filter_map, List.map_map, hfilter]
  congr 1
  refine List.map_congr_left fun c hc => ?_
  obtain ⟨hmem, hviolated⟩ := List.mem_filter.1 hc
  rcases hr c (Array.mem_toList_iff.1 hmem) with hc | ⟨x, -, hc⟩
  · simp [Constraint.ground, hc] at hviolated
  · simp only [Function.comp_apply, price, Constraint.ground, hc]

/-! ### Assembled networks -/

/-- A clique that is kept has literals. -/
theorem ne_nil_of_isKept {entry : UInt64 × Clique (Extended K)} (h : isKept entry = true) :
    entry.2.literals ≠ [] := by
  intro hnil
  simp [isKept, hnil] at h

/-- A clique with literals is left out exactly if its weight is zero. -/
theorem isKept_iff {entry : UInt64 × Clique (Extended K)} (hne : entry.2.literals ≠ [])
    {a : WithTop K} (ha : entry.2.weight = .ofTop a) : isKept entry = true ↔ a ≠ 0 := by
  have hempty : entry.2.literals.isEmpty = false := by
    rwa [List.isEmpty_eq_false_iff]
  rw [isKept, hempty, Bool.or_false, ha]
  cases a with
  | top => exact ⟨fun _ => WithTop.top_ne_zero, fun _ => rfl⟩
  | coe x =>
    have hbeq : ((.ofTop (x : WithTop K) : Extended K) == 0) = decide (x = 0) := rfl
    rw [hbeq, Bool.not_eq_true', decide_eq_false_iff_not, Ne, WithTop.coe_eq_zero]

/-- A clique that is kept becomes a constraint with the same meaning. -/
theorem Embodies.ground_eq {entry : UInt64 × Clique (Extended K)} {c : Constraint (Extended K)}
    (h : Embodies entry c) (hw : ∃ a : WithTop K, entry.2.weight = .ofTop a)
    (hkept : isKept entry = true) : c.IsRegular ∧ c.ground = entry.2.ground := by
  obtain ⟨a, ha⟩ := hw
  rw [isKept_iff (ne_nil_of_isKept hkept) ha] at hkept
  have hstrength : c.strength = strengthOf entry.2.weight := congrArg Constraint.strength h
  have hliterals : c.literals = entry.2.literals := congrArg Constraint.literals h
  rw [Constraint.IsRegular, Constraint.ground, Clique.ground, hstrength, hliterals, ha]
  cases a with
  | top => exact ⟨.inl rfl, rfl⟩
  | coe x => exact ⟨.inr ⟨x, WithTop.coe_ne_zero.1 hkept, rfl⟩, rfl⟩

variable {cliques : List (UInt64 × Clique (Extended K))} {extra : List Nat}
  {range : Option (Nat × Nat)}

theorem isRegular_assemble (h : ∀ entry ∈ cliques, ∃ a : WithTop K, entry.2.weight = .ofTop a) :
    ∀ c ∈ (assemble cliques extra range).constraints, c.IsRegular := by
  intro c hc
  obtain ⟨entry, hentry, hkept, hcomes⟩ := exists_embodies hc
  exact (hcomes.ground_eq (h entry hentry) hkept).1

/-- The constraints stand for the cliques that are kept. -/
theorem theory_assemble (h : ∀ entry ∈ cliques, ∃ a : WithTop K, entry.2.weight = .ofTop a) :
    (assemble cliques extra range).theory = (cliques.filter isKept).map fun c => c.2.ground := by
  have hweight : ∀ entry ∈ cliques.filter isKept,
      (∃ a : WithTop K, entry.2.weight = .ofTop a) ∧ isKept entry = true := by
    intro entry hentry
    obtain ⟨hmem, hkept⟩ := List.mem_filter.1 hentry
    exact ⟨h entry hmem, hkept⟩
  have hall : List.Forall₂ (· = ·) ((cliques.filter isKept).map fun c => c.2.ground)
      (assemble cliques extra range).theory := by
    rw [theory, List.forall₂_map_left_iff, List.forall₂_map_right_iff]
    refine ((List.forall₂_and_left _ _).2 ⟨hweight, embodies_assemble cliques extra range⟩).imp ?_
    rintro entry c ⟨⟨hw, hkept⟩, hcomes⟩
    exact (hcomes.ground_eq hw hkept).2.symm
  rw [List.forall₂_eq_eq_eq] at hall
  exact hall.symm

/-- Cliques of weight zero mean nothing. -/
theorem sameMeaning_filter_isKept (h : ∀ entry ∈ cliques, entry.2.ground.IsProper) :
    SameMeaning (cliques.map fun c => c.2.ground)
      ((cliques.filter isKept).map fun c => c.2.ground) := by
  induction cliques with
  | nil => exact .refl []
  | cons entry cliques ih =>
    rw [List.forall_mem_cons] at h
    rcases hkept : isKept entry with _ | _
    · rw [List.filter_cons_of_neg (by simp [hkept])]
      obtain ⟨⟨hne, a, ha⟩, hrest⟩ := h
      obtain rfl : a = 0 := by
        by_contra hzero
        rw [(isKept_iff hne ha).2 hzero] at hkept
        cases hkept
      have hground : entry.2.ground = ⟨.finite 0, entry.2.literals⟩ :=
        congrArg (GroundClause.mk · entry.2.literals) ha
      rw [List.map_cons, hground]
      exact (SameMeaning.of_zero entry.2.literals).append (ih hrest)
    · rw [List.filter_cons_of_pos hkept]
      exact (SameMeaning.refl [entry.2.ground]).append (ih h.2)

/-- **A network means what its cliques mean.** -/
theorem sameMeaning_theory (h : ∀ entry ∈ cliques, entry.2.ground.IsProper) :
    SameMeaning (cliques.map fun c => c.2.ground) (assemble cliques extra range).theory := by
  rw [theory_assemble fun entry hentry => (h entry hentry).2]
  exact sameMeaning_filter_isKept h

end Network

end MarkovLogic
