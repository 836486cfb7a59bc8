/-
MarkovLogic/Proofs/Relaxation/Completion.lean

The relaxation bounds the cost of every assignment.

A completion of an assignment is a feasible point of the relaxation that has the
values of the assignment at the variables of the atoms.  The assignment has a
completion if and only if it violates no hard constraint, and then the largest
objective of its completions is a constant minus its cost.  The constant is the
sum of the positive soft weights and of the prices of the negative soft
constraints with at least two literals (`Network.ceiling`), and with the loss also
the number of atoms that differ from the given values.

The steps of the construction are in the invariant `Encodes`; what is left is to
read points as lists of numbers, and the sums over the constraints as the cost.

Main statement: `encodes_cost`.
-/
import MarkovLogic.Proofs.Network.Restriction
import MarkovLogic.Proofs.Relaxation.Encoding

namespace MarkovLogic

open Linear

variable {K : Type} [Field K] [LinearOrder K] [FloorRing K]

/-! ### The cost of an assignment -/

namespace Network

variable {net : Network (Extended K)}

omit [Field K] [LinearOrder K] [FloorRing K] in
/-- An assignment violates no hard constraint if all hard constraints hold. -/
theorem hardViolations_eq_zero_iff_admits (net : Network (Extended K)) (s : Array Bool) :
    net.hardViolations s = 0 ↔ ∀ c ∈ net.constraints, c.Admits s := by
  rw [hardViolations, Array.countP_eq_zero]
  refine forall₂_congr fun c _ => ?_
  rw [Constraint.Admits]
  cases c.isHard <;> simp [Nat.one_le_iff_ne_zero]

/-- Without hard violations the cost is that of the soft constraints. -/
theorem Priced.evaluate_of_admits (hp : net.Priced) {s : Array Bool}
    (hs : ∀ c ∈ net.constraints, c.Admits s) :
    net.evaluate s = .finite (net.constraints.toList.map (Constraint.softCost s)).sum := by
  obtain ⟨total, hweight⟩ := hp.hardWeight
  rw [hp.evaluate_eq_add hweight, (net.hardViolations_eq_zero_iff_admits s).2 hs, Nat.cast_zero,
    zero_mul, add_zero]

/-- The constant between cost and objective. -/
def ceiling (net : Network (Extended K)) : K :=
  (net.constraints.toList.map Constraint.ceiling).sum

/-- A constraint of an assembled network has a literal. -/
theorem lits_ne_nil_assemble {cliques : List (UInt64 × Clique (Extended K))} {extra : List Nat}
    {range : Option (Nat × Nat)} {c : Constraint (Extended K)}
    (hc : c ∈ (assemble cliques extra range).constraints) : c.lits ≠ [] := by
  obtain ⟨entry, -, hkept, hcomes⟩ := exists_embodies hc
  have hliterals : c.literals = entry.2.literals := congrArg Constraint.literals hcomes
  have hlength := ((wired_assemble cliques extra range).names c hc).length_eq
  -- cliques without literals are left out
  intro hnil
  rw [hnil, List.length_nil, List.length_eq_zero_iff, hliterals] at hlength
  simp [isKept, hlength] at hkept

end Network

/-! ### Completions -/

namespace Relaxation

/-- A feasible point of the relaxation with the values of an assignment. -/
structure IsCompletion (r : Relaxation (Extended K)) (s : Array Bool)
    (values : List (Extended K)) : Prop where
  length : values.length = r.program.vars.size
  feasible : r.program.isFeasible values 0 = true
  atoms : ∀ a v, r.atomVars.getD a none = some v →
    values[v]? = some (if s.getD a false then 1 else 0)

variable [IsStrictOrderedRing K] {net : Network (Extended K)} {s : Array Bool}
  {r : Relaxation (Extended K)} {holds : Prop} {gain : K}

/-- Completions are the points over the assignment. -/
theorem Encodes.isCompletion_iff (h : Encodes net s r holds gain) {values : List (Extended K)} :
    r.IsCompletion s values ↔
      ∃ x, values = r.program.point x ∧ r.program.IsPoint x ∧ r.IsOver s x := by
  have hcoordinate : ∀ b : Bool, (if b then 1 else 0 : Extended K) = .finite (coordinate b) := by
    intro b
    cases b <;> rfl
  constructor
  · intro hvalues
    obtain ⟨x, rfl⟩ := Program.exists_point h.regular.isBoxed hvalues.length hvalues.feasible
    refine ⟨x, rfl, (Program.isFeasible_point_iff h.regular x).1 hvalues.feasible,
      fun a v hv => ?_⟩
    have hat := hvalues.atoms a v hv
    rw [Program.getElem?_point (h.lt_size a v hv), hcoordinate] at hat
    exact Extended.finite.inj (Option.some.inj hat)
  · rintro ⟨x, rfl, hx, hover⟩
    refine ⟨Program.length_point _ x, (Program.isFeasible_point_iff h.regular x).2 hx,
      fun a v hv => ?_⟩
    rw [Program.getElem?_point (h.lt_size a v hv), hcoordinate, hover a v hv]

theorem Encodes.exists_isCompletion_iff (h : Encodes net s r holds gain) :
    (∃ values, r.IsCompletion s values) ↔ holds := by
  constructor
  · rintro ⟨values, hvalues⟩
    obtain ⟨x, -, hx, hover⟩ := h.isCompletion_iff.1 hvalues
    exact (h.bound x hx hover).1
  · intro hholds
    obtain ⟨x, hx, hover, -⟩ := h.attained hholds
    exact ⟨_, h.isCompletion_iff.2 ⟨x, rfl, hx, hover⟩⟩

/-- The gain is the largest objective of the completions. -/
theorem Encodes.isGreatest (h : Encodes net s r holds gain) (hholds : holds) :
    IsGreatest {z | ∃ values, r.IsCompletion s values ∧ r.program.evaluate values = z}
      (.finite gain) := by
  constructor
  · obtain ⟨x, hx, hover, hvalue⟩ := h.attained hholds
    refine ⟨_, h.isCompletion_iff.2 ⟨x, rfl, hx, hover⟩, ?_⟩
    rw [Program.evaluate_point h.regular, hvalue]
  · rintro z ⟨values, hvalues, rfl⟩
    obtain ⟨x, rfl, hx, hover⟩ := h.isCompletion_iff.1 hvalues
    rw [Program.evaluate_point h.regular, Extended.finite_le]
    exact (h.bound x hx hover).2

/-- The relaxation of a network encodes the cost. -/
theorem encodes_relax (hwired : net.Wired) (hpriced : net.Priced)
    (hlits : ∀ c ∈ net.constraints, c.lits ≠ []) (settings : Settings (Extended K))
    (gold : Option (Nat → Bool)) (s : Array Bool) :
    Encodes net s (relax net settings gold) (net.hardViolations s = 0)
      (net.ceiling - (net.constraints.toList.map (Constraint.softCost s)).sum +
        (loss net (relax net settings gold) (if settings.lossAugmented then gold else none) s :
          Nat)) := by
  refine (encodes_ofNetwork hwired hpriced hlits _ s).congr
    (net.hardViolations_eq_zero_iff_admits s).symm ?_
  have hsub : (net.constraints.toList.map fun c => c.ceiling - c.softCost s).sum =
      (net.constraints.toList.map Constraint.ceiling).sum -
        (net.constraints.toList.map (Constraint.softCost s)).sum := by
    simpa using Multiset.sum_map_sub (m := .ofList net.constraints.toList)
      (f := Constraint.ceiling (K := K)) (g := Constraint.softCost s)
  rw [Network.ceiling, ← hsub]
  rfl

/-- **The relaxation encodes the cost at points with coordinates zero and one.**
An assignment of an assembled network with finite soft weights has a completion
exactly if it violates no hard constraint.  Then the largest objective of its
completions is the constant of the network, with the loss if it is asked for, less
the cost of the assignment; so no upper bound of the program is below this. -/
theorem encodes_cost (cliques : List (UInt64 × Clique (Extended K))) (extra : List Nat)
    (range : Option (Nat × Nat))
    (hfinite : ∀ c ∈ (Network.assemble cliques extra range).constraints, ∀ w,
      c.strength = .soft w → Scalar.isFinite w = true)
    (settings : Settings (Extended K)) (gold : Option (Nat → Bool)) (s : Array Bool) :
    let net := Network.assemble cliques extra range
    let r := relax net settings gold
    let constant := net.ceiling +
      (loss net r (if settings.lossAugmented then gold else none) s : Nat)
    ((∃ values, r.IsCompletion s values) ↔ net.hardViolations s = 0) ∧
      (net.hardViolations s = 0 →
        IsGreatest {z | ∃ values, r.IsCompletion s values ∧ r.program.evaluate values = z}
          (.finite constant - net.evaluate s) ∧
        ∀ z, (∀ values, values.length = r.program.vars.size →
            r.program.isFeasible values 0 = true → r.program.evaluate values ≤ z) →
          .finite constant - net.evaluate s ≤ z) := by
  intro net r constant
  have hpriced := Network.priced_assemble hfinite
  have h := encodes_relax (Network.wired_assemble cliques extra range) hpriced
    (fun c hc => Network.lits_ne_nil_assemble hc) settings gold s
  refine ⟨h.exists_isCompletion_iff, fun hholds => ?_⟩
  have hgreatest := h.isGreatest hholds
  have hvalue : .finite constant - net.evaluate s =
      .finite (net.ceiling - (net.constraints.toList.map (Constraint.softCost s)).sum +
        (loss net r (if settings.lossAugmented then gold else none) s : Nat)) := by
    rw [hpriced.evaluate_of_admits ((net.hardViolations_eq_zero_iff_admits s).1 hholds),
      Extended.finite_sub, sub_add_eq_add_sub]
  rw [hvalue]
  refine ⟨hgreatest, fun z hz => ?_⟩
  -- the best completion is one of the feasible points
  obtain ⟨values, hvalues, hbest⟩ := hgreatest.1
  rw [← hbest]
  exact hz values hvalues.length hvalues.feasible

/-! ### Four cliques -/

/-- A positive clique, a negative one, a hard one and one with a single
literal. -/
def fourCliques : List (UInt64 × Clique (Extended ℚ)) := [
  (1, ⟨[1, 2], .finite (3 / 2), [(0, 1)]⟩),
  (2, ⟨[-1, 3], .finite (-1), [(1, 1)]⟩),
  (3, ⟨[-2, 3], .posInf, [(2, 1)]⟩),
  (4, ⟨[-3], .finite (1 / 2), [(3, 1)]⟩)]

/-- The loss is asked for. -/
def augmented : Settings (Extended ℚ) :=
  ⟨.roundUp, .finite (1 / 100), true, 100⟩

/-- Only the first atom is true. -/
def onlyFirst (id : Nat) : Bool :=
  id == 1

theorem encodes_cost_fourCliques :
    let net := Network.assemble fourCliques [] none
    let r := relax net augmented (some fun _ => false)
    let s := net.restrict onlyFirst
    (∀ c ∈ net.constraints, ∀ w, c.strength = .soft w → Scalar.isFinite w = true) ∧
      (∃ values, r.IsCompletion s values) ∧
      IsGreatest {z | ∃ values, r.IsCompletion s values ∧ r.program.evaluate values = z}
        (.finite (net.ceiling + (loss net r (some fun _ => false) s : Nat)) - net.evaluate s) := by
  intro net r s
  have hentry : ∀ c ∈ net.constraints, ∃ entry ∈ fourCliques, Network.Embodies entry c := by
    intro c hc
    obtain ⟨entry, hmem, -, hcomes⟩ := Network.exists_embodies hc
    exact ⟨entry, hmem, hcomes⟩
  have hfinite : ∀ c ∈ net.constraints, ∀ w, c.strength = .soft w → Scalar.isFinite w = true := by
    intro c hc w hw
    obtain ⟨entry, hmem, hcomes⟩ := hentry c hc
    rw [hcomes] at hw
    simp only [fourCliques, List.mem_cons, List.not_mem_nil, or_false] at hmem
    rcases hmem with rfl | rfl | rfl | rfl <;> cases hw <;> rfl
  have hviolations : net.hardViolations s = 0 := by
    rw [Network.hardViolations_eq_zero_iff_admits]
    intro c hc hhard
    rw [(Network.wired_assemble _ _ _).countTrue_restrict hc]
    obtain ⟨entry, hmem, hcomes⟩ := hentry c hc
    rw [hcomes] at hhard ⊢
    simp only [fourCliques, List.mem_cons, List.not_mem_nil, or_false] at hmem
    rcases hmem with rfl | rfl | rfl | rfl
    · cases hhard
    · cases hhard
    · show 1 ≤ [(-2 : Int), 3].countP (litHolds onlyFirst)
      decide
    · cases hhard
  obtain ⟨hexists, hgreatest⟩ := encodes_cost fourCliques [] none hfinite augmented
    (some fun _ => false) s
  exact ⟨hfinite, hexists.2 hviolations, (hgreatest hviolations).1⟩

end Relaxation

end MarkovLogic
