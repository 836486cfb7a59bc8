/-
MarkovLogic/Proofs/Network/Bookkeeping.lean

The sums that a search keeps never drift.

A search asks its state for the soft cost, the cost, and the make and break
costs of atoms, and it changes them with each operation instead of computing
them anew.  Here they are compared with what they stand for: prices of
selections of active constraints under the current assignment and under the
assignment after a flip.

Main statement: `books_of_reachable`, on every state that operations lead to,
all of these numbers are exactly what the assignment says, and the difference
of break and make cost is what a flip changes the cost by.
-/
import MarkovLogic.Proofs.Network.Potentials

namespace MarkovLogic

variable {K : Type} [Field K] [LinearOrder K] [FloorRing K]

/-- The price of a soft constraint, and nothing for a hard one. -/
def Constraint.stake (c : Constraint (Extended K)) : K :=
  match c.strength with
  | .hard => 0
  | .soft w => |w.value|

namespace Network

/-! ### Assembled networks are regular -/

/-- The total of the soft weights is the sum of the stakes. -/
theorem softTotal_eq {constraints : List (Constraint (Extended K))}
    (h : ∀ c ∈ constraints, ∀ w, c.strength = .soft w → ∃ x, w = .finite x) :
    softTotal constraints = .finite (constraints.map Constraint.stake).sum := by
  rw [softTotal, Extended.zero_eq, ← zero_add (constraints.map Constraint.stake).sum]
  generalize (0 : K) = x
  induction constraints generalizing x with
  | nil => simp
  | cons c cs ih =>
    rw [List.forall_mem_cons] at h
    rw [List.foldl_cons, List.map_cons, List.sum_cons, Constraint.stake, ← add_assoc]
    cases hs : c.strength with
    | hard =>
      rw [add_zero]
      exact ih h.2 x
    | soft w =>
      obtain ⟨z, rfl⟩ := h.1 w hs
      exact ih h.2 (x + |z|)

theorem priced_assemble {cliques : List (UInt64 × Clique (Extended K))} {extra : List Nat}
    {range : Option (Nat × Nat)}
    (h : ∀ c ∈ (assemble cliques extra range).constraints, ∀ w, c.strength = .soft w →
      Scalar.isFinite w = true) : (assemble cliques extra range).Priced := by
  have hsoft : ∀ c ∈ (assemble cliques extra range).constraints, ∀ w, c.strength = .soft w →
      ∃ x, w = .finite x := fun c hc w hw => Extended.isFinite_iff.mp (h c hc w hw)
  refine ⟨⟨((assemble cliques extra range).constraints.toList.map Constraint.stake).sum + 1, ?_⟩,
    hsoft⟩
  rw [hardWeight_assemble, softTotal_eq fun c hc => hsoft c (Array.mem_toList_iff.mp hc)]
  rfl

omit [Field K] [LinearOrder K] [FloorRing K] in
/-- Literals of different atoms name different atoms of the network. -/
theorem Wired.nodup_atoms {net : Network (Extended K)} (h : net.Wired)
    {c : Constraint (Extended K)} (hc : c ∈ net.constraints)
    (hnodup : (c.literals.map Int.natAbs).Nodup) : (c.lits.map NetLiteral.atom).Nodup := by
  have hnames := h.names c hc
  unfold Names at hnames
  generalize c.literals = xs at hnames hnodup
  generalize c.lits = ls at hnames
  induction hnames with
  | nil => exact List.nodup_nil
  | cons hhead hrest ih =>
    rename_i x l xs ls
    rw [List.map_cons, List.nodup_cons] at hnodup ⊢
    refine ⟨?_, ih hnodup.2⟩
    intro hmem
    obtain ⟨l', hl', hatom⟩ := List.mem_map.mp hmem
    obtain ⟨y, hy, hindex, -⟩ := exists_mem_of_forall₂ hrest hl'
    -- the node at the place of both literals has one number
    have hx := (h.indexed x.natAbs l.atom).mp hhead.1
    have hy' := (h.indexed y.natAbs l'.atom).mp hindex
    rw [hatom, hx] at hy'
    exact hnodup.1 (Option.some.inj hy' ▸ List.mem_map_of_mem hy)

end Network

namespace State

/-! ### The books of a state -/

/-- The sums of a state are what they stand for. -/
structure Books (net : Network (Extended K)) (s : State (Extended K)) : Prop where
  /-- The soft cost is the price of the active violated soft constraints. -/
  softCost : s.softCost = net.priceOf fun c i =>
    !s.isInactive i && !c.isHard && c.isViolated (c.countTrue s.values)
  /-- The cost is that of the assignment. -/
  cost : s.cost net = s.costFromScratch net
  /-- The make cost of an atom is the price of the active constraints that are
  violated and would not be after a flip. -/
  makeCost : ∀ a, s.makeCost a = net.priceOf fun c i =>
    !s.isInactive i && c.isViolated (c.countTrue s.values) &&
      !c.isViolated (c.countTrue (s.flip net a).values)
  /-- The break cost of an atom is the price of the active constraints that are
  not violated and would be after a flip. -/
  breakCost : ∀ a, s.breakCost a = net.priceOf fun c i =>
    !s.isInactive i && !c.isViolated (c.countTrue s.values) &&
      c.isViolated (c.countTrue (s.flip net a).values)
  /-- The difference of the two is what a flip changes the cost by. -/
  delta : ∀ a, s.delta a = (s.flip net a).costFromScratch net - s.costFromScratch net

theorem costFromScratch_eq (net : Network (Extended K)) (s : State (Extended K)) :
    s.costFromScratch net = net.priceOf fun c i =>
      !s.isInactive i && c.isViolated (c.countTrue s.values) :=
  rfl

theorem isInactive_flip (net : Network (Extended K)) (s : State (Extended K)) (a i : Nat) :
    (s.flip net a).isInactive i = s.isInactive i :=
  (rebooked_flip net s a).isInactive i

omit [Field K] [LinearOrder K] [FloorRing K] in
/-- Two sums over the constraints agree if they do constraint by constraint. -/
theorem sum_constraints_congr {net : Network (Extended K)} {M : Type} [AddCommMonoid M]
    {f g : Nat → M} (h : ∀ i c, net.constraints[i]? = some c → f i = g i) :
    ∑ i ∈ Finset.range net.constraints.size, f i =
      ∑ i ∈ Finset.range net.constraints.size, g i :=
  Finset.sum_congr rfl fun i hi => h i _ (Array.getElem?_eq_getElem (Finset.mem_range.mp hi))

omit [Field K] [LinearOrder K] [FloorRing K] in
theorem sum_shareAt_congr {net : Network (Extended K)} {M : Type} [AddCommMonoid M]
    {f g : Constraint (Extended K) → Nat → M}
    (h : ∀ i c, net.constraints[i]? = some c → f c i = g c i) :
    ∑ i ∈ Finset.range net.constraints.size, net.shareAt f i =
      ∑ i ∈ Finset.range net.constraints.size, net.shareAt g i := by
  refine sum_constraints_congr fun i c hc => ?_
  rw [Network.shareAt_of_eq_some hc, Network.shareAt_of_eq_some hc, h i c hc]

theorem Balanced.sumOf_eq {net : Network (Extended K)} (hp : net.Priced) {s : State (Extended K)}
    (h : Balanced net s) (now : Bool) (a : Nat) :
    s.sumOf now a = net.priceOf fun c i =>
      !s.isInactive i && (c.isViolated (c.countTrue s.values) == now) &&
        (c.isViolated (c.countTrue (s.flip net a).values) == !now) := by
  rw [h now a, hp.priceOf_eq, values_flip]
  congr 1
  refine sum_shareAt_congr fun i c _ => ?_
  unfold partOf turnOf
  cases s.isInactive i <;> simp

/-- The cost that the state keeps is the price of the active violated
constraints. -/
theorem Costed.cost_eq {net : Network (Extended K)} (hp : net.Priced) {s : State (Extended K)}
    (h : Costed net s) (he : Exact net s) : s.cost net = s.costFromScratch net := by
  obtain ⟨x, hx⟩ := hp.hardWeight
  rw [costFromScratch_eq, hp.priceOf_eq, cost, h.soft, hx, Extended.ofNat_eq, Extended.finite_mul,
    Extended.finite_add, ← Int.cast_natCast, h.hard, Int.cast_sum, Finset.sum_mul,
    ← Finset.sum_add_distrib]
  congr 1
  refine sum_constraints_congr fun i c hc => ?_
  rw [Network.shareAt_of_eq_some hc, Network.shareAt_of_eq_some hc,
    Network.shareAt_of_eq_some hc, activeShare, activeShare, he i _ hc]
  cases s.isInactive i
  · unfold softOf hardOf Network.price Constraint.isHard
    cases c.strength <;> split <;> simp_all
  · simp

/-- The soft cost is the price of the active violated soft constraints. -/
theorem Costed.softCost_eq {net : Network (Extended K)} (hp : net.Priced) {s : State (Extended K)}
    (h : Costed net s) (he : Exact net s) : s.softCost = net.priceOf fun c i =>
      !s.isInactive i && !c.isHard && c.isViolated (c.countTrue s.values) := by
  rw [h.soft, hp.priceOf_eq]
  congr 1
  refine sum_shareAt_congr fun i c hc => ?_
  rw [activeShare, he i c hc]
  cases s.isInactive i
  · unfold softOf Network.price Constraint.isHard
    cases c.strength <;> simp
  · simp

/-- What a flip is said to change the cost by is what it does change it by. -/
theorem Balanced.delta_eq {net : Network (Extended K)} (hp : net.Priced) {s : State (Extended K)}
    (h : Balanced net s) (a : Nat) :
    s.delta a = (s.flip net a).costFromScratch net - s.costFromScratch net := by
  have hmake := h true a
  have hbreak := h false a
  simp only [sumOf, ↓reduceIte, Bool.false_eq_true] at hmake hbreak
  rw [delta, hmake, hbreak, costFromScratch_eq, costFromScratch_eq, hp.priceOf_eq,
    hp.priceOf_eq, Extended.finite_sub, Extended.finite_sub, ← Finset.sum_sub_distrib,
    ← Finset.sum_sub_distrib]
  congr 1
  refine sum_constraints_congr fun i c hc => ?_
  rw [Network.shareAt_of_eq_some hc, Network.shareAt_of_eq_some hc,
    Network.shareAt_of_eq_some hc, Network.shareAt_of_eq_some hc, isInactive_flip, values_flip]
  -- a constraint counts if it is violated before the flip or after it, but not both times
  unfold partOf turnOf
  cases s.isInactive i <;> cases c.isViolated (c.countTrue s.values) <;>
    cases c.isViolated (c.countTrue (flipped s.values a)) <;> simp

/-- On reachable states of a regular network the books are right. -/
theorem books_of_regular {net : Network (Extended K)} (hr : Regular net) {s : State (Extended K)}
    (h : Reachable net s) : Books net s := by
  have hexact := exact_of_reachable hr.wired h
  have hcosted := costed_of_reachable hr.priced h
  have hbalanced := balanced_of_reachable hr h
  refine ⟨hcosted.softCost_eq hr.priced hexact, hcosted.cost_eq hr.priced hexact,
    fun a => ?_, fun a => ?_, hbalanced.delta_eq hr.priced⟩
  · simpa [sumOf] using hbalanced.sumOf_eq hr.priced true a
  · simpa [sumOf] using hbalanced.sumOf_eq hr.priced false a

/-! ### States without inactive constraints -/

theorem isInactive_start (net : Network (Extended K)) (i : Nat) :
    (start net).isInactive i = false := by
  rw [start, (rebooked_recompute net _).isInactive, isInactive]
  simp only [cleared, Array.getD_eq_getD_getElem?, Array.getElem?_replicate]
  split <;> rfl

/-- The cost is that of the assignment. -/
theorem cost_eq_evaluate {net : Network (Extended K)} (hw : net.Wired) (hp : net.Priced)
    {s : State (Extended K)} (h : Reachable net s) (hactive : ∀ i, s.isInactive i = false) :
    s.cost net = net.evaluate s.values := by
  rw [(costed_of_reachable hp h).cost_eq hp (exact_of_reachable hw h), costFromScratch,
    Network.evaluate]
  simp only [hactive, Bool.not_false, Bool.true_and]
  conv_rhs => rw [← List.zipIdx_map_fst 0 net.constraints.toList, List.filter_map, List.map_map]
  rfl

/-- The violated hard constraints are counted. -/
theorem hardViolations_eq {net : Network (Extended K)} (hw : net.Wired) (hp : net.Priced)
    {s : State (Extended K)} (h : Reachable net s) (hactive : ∀ i, s.isInactive i = false) :
    s.hardViolations = net.hardViolations s.values := by
  have hshare : ∀ i c, net.constraints[i]? = some c → s.activeShare hardOf c i =
      if c.isHard && c.countTrue s.values == 0 then 1 else 0 := by
    intro i c hc
    rw [activeShare, hactive, exact_of_reachable hw h i c hc, hardOf, Constraint.isViolated,
      Constraint.isPositive, Constraint.isHard]
    cases c.strength <;> simp
  have hsum : (s.hardViolations : Int) = (net.constraints.toList.zipIdx.map fun e =>
      if e.1.isHard && e.1.countTrue s.values == 0 then 1 else 0).sum := by
    rw [(costed_of_reachable hp h).hard, sum_shareAt_congr hshare, ← Network.sum_zipIdx_eq]
  have hcount (cs : List (Constraint (Extended K) × Nat)) :
      (cs.map fun e => if e.1.isHard && e.1.countTrue s.values == 0 then (1 : Int) else 0).sum =
        ((cs.map Prod.fst).countP fun c => c.isHard && c.countTrue s.values == 0 : Nat) := by
    induction cs with
    | nil => rfl
    | cons e cs ih =>
      rw [List.map_cons, List.sum_cons, ih, List.map_cons, List.countP_cons]
      split <;> omega
  rw [hcount, List.zipIdx_map_fst] at hsum
  rw [Network.hardViolations, ← Array.countP_toList]
  exact_mod_cast hsum

/-- Make and break bookkeeping never drifts: in an assembled network with
finite soft weights and no atom twice in one constraint, the books are right
after any sequence of operations. -/
theorem books_of_reachable {cliques : List (UInt64 × Clique (Extended K))} {extra : List Nat}
    {range : Option (Nat × Nat)}
    (hfinite : ∀ c ∈ (Network.assemble cliques extra range).constraints, ∀ w,
      c.strength = .soft w → Scalar.isFinite w = true)
    (hnodup : ∀ c ∈ (Network.assemble cliques extra range).constraints,
      (c.literals.map Int.natAbs).Nodup)
    {s : State (Extended K)} (h : Reachable (Network.assemble cliques extra range) s) :
    Books (Network.assemble cliques extra range) s := by
  have hwired := Network.wired_assemble cliques extra range
  exact books_of_regular ⟨hwired, Network.priced_assemble hfinite,
    fun c hc => hwired.nodup_atoms hc (hnodup c hc)⟩ h

/-- Three cliques over three atoms: a positive one, a negative one and a hard
one. -/
def threeCliques : List (UInt64 × Clique (Extended ℚ)) := [
  (1, ⟨[1, 2], .finite (3 / 2), [(0, 1)]⟩),
  (2, ⟨[-1, 3], .finite (-1), [(1, 1)]⟩),
  (3, ⟨[-2], .posInf, [(2, 1)]⟩)]

theorem finite_threeCliques : ∀ c ∈ (Network.assemble threeCliques [] none).constraints, ∀ w,
    c.strength = .soft w → Scalar.isFinite w = true := by
  intro c hc w hw
  obtain ⟨entry, hmem, -, hcomes⟩ := Network.exists_embodies hc
  rw [hcomes] at hw
  simp only [threeCliques, List.mem_cons, List.not_mem_nil, or_false] at hmem
  rcases hmem with rfl | rfl | rfl <;> cases hw <;> rfl

theorem nodup_threeCliques : ∀ c ∈ (Network.assemble threeCliques [] none).constraints,
    (c.literals.map Int.natAbs).Nodup := by
  intro c hc
  obtain ⟨entry, hmem, -, hcomes⟩ := Network.exists_embodies hc
  rw [hcomes]
  simp only [threeCliques, List.mem_cons, List.not_mem_nil, or_false] at hmem
  rcases hmem with rfl | rfl | rfl <;> simp [Network.constraintOf]

theorem books_threeCliques :
    let net := Network.assemble threeCliques [] none
    let s := (((start net).flip net 1).setInactive net 0 true).flip net 0
    (∀ c ∈ net.constraints, ∀ w, c.strength = .soft w → Scalar.isFinite w = true) ∧
      (∀ c ∈ net.constraints, (c.literals.map Int.natAbs).Nodup) ∧
      Reachable net s ∧ Books net s := by
  intro net s
  have hreach : Reachable net s :=
    ((Relation.ReflTransGen.refl.tail (Step.flip 1)).tail (Step.setInactive 0 true)).tail
      (Step.flip 0)
  exact ⟨finite_threeCliques, nodup_threeCliques, hreach,
    books_of_reachable finite_threeCliques nodup_threeCliques hreach⟩

end State

end MarkovLogic
