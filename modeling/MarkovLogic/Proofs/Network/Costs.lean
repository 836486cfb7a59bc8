/-
MarkovLogic/Proofs/Network/Costs.lean

The cost that a search keeps, against the cost of its assignment.

Costs are read over exact numbers.  If the soft weights of a network are
finite, then so is the price of a hard constraint, and every price is an
element of the field.  A selection of constraints has a price
(`Network.priceOf`), which is a finite sum over the constraints
(`priceOf_eq`); the cost of an assignment is the price of the active
constraints that it violates.

The state keeps the soft part of that price and the number of the violated
hard constraints.  Both are sums of one share for each constraint, and each
operation on a constraint takes the old share out and puts the new one in.

Main statement: `costed_of_reachable`, on reachable states the two sums are
those of the current assignment.
-/
import MarkovLogic.Proofs.Extended
import MarkovLogic.Proofs.Network.Counts

namespace MarkovLogic

variable {K : Type} [Field K] [LinearOrder K] [FloorRing K]

namespace Network

/-! ### Prices -/

/-- Soft weights are finite, and so is the price of hard constraints. -/
structure Priced (net : Network (Extended K)) : Prop where
  hardWeight : ∃ x, net.hardWeight = .finite x
  soft : ∀ c ∈ net.constraints, ∀ w, c.strength = .soft w → ∃ x, w = .finite x

/-- The price of the constraints that a test on constraints and their indices
selects. -/
def priceOf (net : Network (Extended K)) (p : Constraint (Extended K) → Nat → Bool) :
    Extended K :=
  Scalar.sum <| (net.constraints.toList.zipIdx.filter fun e => p e.1 e.2).map fun e => net.price e.1

theorem Priced.price_eq {net : Network (Extended K)} (h : net.Priced)
    {c : Constraint (Extended K)} (hc : c ∈ net.constraints) :
    net.price c = .finite (net.price c).value := by
  unfold price
  cases hs : c.strength with
  | hard =>
    obtain ⟨x, hx⟩ := h.hardWeight
    simp only [hx, Extended.value_finite]
  | soft w =>
    obtain ⟨x, rfl⟩ := h.soft c hc w hs
    rfl

/-- The share of the constraint with the given index. -/
def shareAt (net : Network (Extended K)) {M : Type} [Zero M]
    (f : Constraint (Extended K) → Nat → M) (i : Nat) : M :=
  match net.constraints[i]? with
  | none => 0
  | some c => f c i

omit [Field K] [LinearOrder K] [FloorRing K] in
theorem shareAt_of_eq_some {net : Network (Extended K)} {M : Type} [Zero M]
    {f : Constraint (Extended K) → Nat → M} {i : Nat} {c : Constraint (Extended K)}
    (h : net.constraints[i]? = some c) : net.shareAt f i = f c i := by
  simp [shareAt, h]

omit [Field K] [LinearOrder K] [FloorRing K] in
theorem sum_zipIdx_eq (net : Network (Extended K)) {M : Type} [AddCommMonoid M]
    (f : Constraint (Extended K) → Nat → M) :
    (net.constraints.toList.zipIdx.map fun e => f e.1 e.2).sum =
      ∑ i ∈ Finset.range net.constraints.size, net.shareAt f i := by
  have hlist : (net.constraints.toList.zipIdx.map fun e => f e.1 e.2) =
      (List.range net.constraints.size).map (net.shareAt f) := by
    apply List.ext_getElem?
    intro i
    rcases hc : net.constraints[i]? with _ | c
    · have hi : net.constraints.size ≤ i := Array.getElem?_eq_none_iff.mp hc
      simp [hi]
    · obtain ⟨hi, -⟩ := Array.getElem?_eq_some_iff.mp hc
      simp [hc, shareAt_of_eq_some hc, List.getElem?_range hi]
  rw [hlist]
  rfl

/-- The price of a selection is the sum of the prices of its constraints. -/
theorem Priced.priceOf_eq {net : Network (Extended K)} (h : net.Priced)
    (p : Constraint (Extended K) → Nat → Bool) :
    net.priceOf p = .finite (∑ i ∈ Finset.range net.constraints.size,
      net.shareAt (fun c i => if p c i then (net.price c).value else 0) i) := by
  rw [← sum_zipIdx_eq]
  have hfinite : ((net.constraints.toList.zipIdx.filter fun e => p e.1 e.2).map
      fun e => net.price e.1) =
      ((net.constraints.toList.zipIdx.filter fun e => p e.1 e.2).map
        fun e => (net.price e.1).value).map Extended.finite := by
    rw [List.map_map]
    refine List.map_congr_left fun e he => ?_
    have hmem := List.fst_mem_of_mem_zipIdx (List.mem_of_mem_filter he)
    exact h.price_eq (Array.mem_toList_iff.mp hmem)
  rw [priceOf, hfinite, Extended.sum_map_finite]
  congr 1
  induction net.constraints.toList.zipIdx with
  | nil => rfl
  | cons e es ih =>
    rw [List.map_cons, List.sum_cons, ← ih]
    cases hp : p e.1 e.2 <;> simp [hp]

/-- What the constraints that pass a test cost together. -/
theorem Priced.sum_price_filter {net : Network (Extended K)} (hp : net.Priced)
    (p : Constraint (Extended K) → Bool) :
    Scalar.sum ((net.constraints.toList.filter p).map net.price) =
      .finite (net.constraints.toList.map fun c =>
        if p c then (net.price c).value else 0).sum := by
  have hfinite : (net.constraints.toList.filter p).map net.price =
      ((net.constraints.toList.filter p).map fun c => (net.price c).value).map
        Extended.finite := by
    rw [List.map_map]
    refine List.map_congr_left fun c hc => ?_
    exact hp.price_eq (Array.mem_toList_iff.1 (List.mem_of_mem_filter hc))
  rw [hfinite, Extended.sum_map_finite, List.sum_map_ite]
  simp

/-- The cost is the sum of the prices of the violated constraints. -/
theorem Priced.evaluate_eq_sum {net : Network (Extended K)} (hp : net.Priced)
    (s : Array Bool) :
    net.evaluate s = .finite (net.constraints.toList.map fun c =>
      if c.isViolated (c.countTrue s) then (net.price c).value else 0).sum :=
  hp.sum_price_filter fun c => c.isViolated (c.countTrue s)

omit [Field K] [LinearOrder K] [FloorRing K] in
/-- When one share changes, the sum changes by as much. -/
theorem sum_shareAt_update {net : Network (Extended K)} {M : Type} [AddCommGroup M]
    {f g : Constraint (Extended K) → Nat → M} {i : Nat} {c : Constraint (Extended K)}
    (hc : net.constraints[i]? = some c)
    (h : ∀ j d, j ≠ i → net.constraints[j]? = some d → g d j = f d j) :
    ∑ j ∈ Finset.range net.constraints.size, net.shareAt g j =
      ∑ j ∈ Finset.range net.constraints.size, net.shareAt f j - f c i + g c i := by
  have hi : i ∈ Finset.range net.constraints.size := by
    obtain ⟨hi, -⟩ := Array.getElem?_eq_some_iff.mp hc
    exact Finset.mem_range.mpr hi
  have hrest : ∑ j ∈ (Finset.range net.constraints.size).erase i, net.shareAt g j =
      ∑ j ∈ (Finset.range net.constraints.size).erase i, net.shareAt f j := by
    refine Finset.sum_congr rfl fun j hj => ?_
    obtain ⟨hne, hlt⟩ := Finset.mem_erase.mp hj
    have hd := Array.getElem?_eq_getElem (Finset.mem_range.mp hlt)
    rw [shareAt_of_eq_some hd, shareAt_of_eq_some hd, h j _ hne hd]
  rw [← Finset.add_sum_erase _ _ hi, ← Finset.add_sum_erase _ (net.shareAt f) hi, hrest,
    shareAt_of_eq_some hc, shareAt_of_eq_some hc]
  abel

end Network

namespace State

/-! ### Soft cost and hard violations -/

/-- What a constraint adds to the soft cost when so many of its literals are
true. -/
def softOf (c : Constraint (Extended K)) (trueLiterals : Nat) : K :=
  match c.strength with
  | .hard => 0
  | .soft w => if c.isViolated trueLiterals then (Scalar.abs w).value else 0

/-- What a constraint adds to the number of hard violations. -/
def hardOf (c : Constraint (Extended K)) (trueLiterals : Nat) : Int :=
  if c.isHard && c.isViolated trueLiterals then 1 else 0

/-- The share of a constraint; an inactive one has none. -/
def activeShare {M : Type} [Zero M] (s : State (Extended K))
    (f : Constraint (Extended K) → Nat → M) (c : Constraint (Extended K)) (i : Nat) : M :=
  if s.isInactive i then 0 else f c (s.countOf i)

/-- The soft cost and the number of hard violations are the sums of the shares
of the constraints. -/
structure Costed (net : Network (Extended K)) (s : State (Extended K)) : Prop where
  soft : s.softCost =
    .finite (∑ i ∈ Finset.range net.constraints.size, net.shareAt (s.activeShare softOf) i)
  hard : (s.hardViolations : Int) =
    ∑ i ∈ Finset.range net.constraints.size, net.shareAt (s.activeShare hardOf) i

theorem softCost_enter {net : Network (Extended K)} (hp : net.Priced) {s : State (Extended K)}
    {i : Nat} {c : Constraint (Extended K)} (hc : c ∈ net.constraints) {x : K}
    (hx : s.softCost = .finite x) :
    (s.enter i c).softCost = .finite (x + softOf c (s.countOf i)) := by
  unfold enter softOf
  cases hs : c.strength with
  | hard => split <;> simp [pushViolated, hx]
  | soft w =>
    obtain ⟨y, rfl⟩ := hp.soft c hc w hs
    split <;> simp [pushViolated, hx]

theorem softCost_withdraw {net : Network (Extended K)} (hp : net.Priced) {s : State (Extended K)}
    {i : Nat} {c : Constraint (Extended K)} (hc : c ∈ net.constraints) {x : K}
    (hx : s.softCost = .finite x) :
    (s.withdraw i c).softCost = .finite (x - softOf c (s.countOf i)) := by
  unfold withdraw softOf
  cases hs : c.strength with
  | hard => split <;> simp [hx]
  | soft w =>
    obtain ⟨y, rfl⟩ := hp.soft c hc w hs
    split <;> simp [hx]

theorem hardViolations_enter (s : State (Extended K)) (i : Nat) (c : Constraint (Extended K)) :
    ((s.enter i c).hardViolations : Int) = s.hardViolations + hardOf c (s.countOf i) := by
  unfold enter hardOf Constraint.isHard
  cases hs : c.strength <;> split <;> simp_all [pushViolated]

theorem hardViolations_withdraw {s : State (Extended K)} {i : Nat} {c : Constraint (Extended K)}
    (h : hardOf c (s.countOf i) ≤ s.hardViolations) :
    ((s.withdraw i c).hardViolations : Int) = s.hardViolations - hardOf c (s.countOf i) := by
  unfold withdraw
  unfold hardOf Constraint.isHard at *
  cases hs : c.strength <;> split <;> simp_all

/-- A counted hard violation is one of all of them. -/
theorem Costed.hardOf_le {net : Network (Extended K)} {s : State (Extended K)} (h : Costed net s)
    {i : Nat} {c : Constraint (Extended K)} (hc : net.constraints[i]? = some c)
    (hactive : s.isInactive i = false) : hardOf c (s.countOf i) ≤ s.hardViolations := by
  have hnonneg : ∀ j ∈ Finset.range net.constraints.size,
      0 ≤ net.shareAt (s.activeShare hardOf) j := by
    intro j _
    unfold Network.shareAt activeShare hardOf
    split
    · exact le_refl 0
    · split
      · exact le_refl 0
      · split <;> decide
  have hi : i ∈ Finset.range net.constraints.size := by
    obtain ⟨hi, -⟩ := Array.getElem?_eq_some_iff.mp hc
    exact Finset.mem_range.mpr hi
  have hle := Finset.single_le_sum hnonneg hi
  rw [← h.hard, Network.shareAt_of_eq_some hc, activeShare, hactive] at hle
  exact hle

/-! ### Operations keep the sums -/

/-- A state whose sums differ by the change of one share. -/
theorem Costed.update {net : Network (Extended K)} {s s' : State (Extended K)} (h : Costed net s)
    {i : Nat} {c : Constraint (Extended K)} (hc : net.constraints[i]? = some c)
    (hcount : ∀ j, j ≠ i → s'.countOf j = s.countOf j)
    (hinactive : ∀ j, j ≠ i → s'.isInactive j = s.isInactive j)
    (hsoft : ∀ x, s.softCost = .finite x → s'.softCost =
      .finite (x - s.activeShare softOf c i + s'.activeShare softOf c i))
    (hhard : (s'.hardViolations : Int) =
      s.hardViolations - s.activeShare hardOf c i + s'.activeShare hardOf c i) : Costed net s' := by
  have hsame {M : Type} [Zero M] (f : Constraint (Extended K) → Nat → M) (j : Nat)
      (d : Constraint (Extended K)) (hne : j ≠ i) (_ : net.constraints[j]? = some d) :
      s'.activeShare f d j = s.activeShare f d j := by
    rw [activeShare, activeShare, hcount j hne, hinactive j hne]
  constructor
  · rw [hsoft _ h.soft, Network.sum_shareAt_update hc (hsame softOf)]
  · rw [hhard, h.hard, Network.sum_shareAt_update hc (hsame hardOf)]

theorem Costed.shiftCount {net : Network (Extended K)} (hp : net.Priced) {s : State (Extended K)}
    (h : Costed net s) {i : Nat} {c : Constraint (Extended K)}
    (hc : net.constraints[i]? = some c) (b : Bool) : Costed net (s.shiftCount i b c) := by
  have hmem := Array.mem_of_getElem? hc
  refine h.update hc ?_ (fun j _ => (rebooked_shiftCount s i b c).isInactive j) ?_ ?_
  · intro j hne
    exact countOf_shiftCount_of_ne s b c hne
  · intro x hx
    cases hin : s.isInactive i
    · have hout : ((s.withdraw i c).stepCount i b).softCost = _ := softCost_withdraw hp hmem hx
      rw [activeShare, activeShare, (rebooked_shiftCount s i b c).isInactive, hin,
        shiftCount_of_active hin, softCost_enter hp hmem hout, countOf_enter]
      rfl
    · rw [activeShare, activeShare, (rebooked_shiftCount s i b c).isInactive, hin,
        shiftCount_of_inactive hin, if_pos rfl, if_pos rfl, sub_zero, add_zero, ← hx]
      rfl
  · cases hin : s.isInactive i
    · have hout : (((s.withdraw i c).stepCount i b).hardViolations : Int) = _ :=
        hardViolations_withdraw (h.hardOf_le hc hin)
      rw [activeShare, activeShare, (rebooked_shiftCount s i b c).isInactive, hin,
        shiftCount_of_active hin, hardViolations_enter, hout, countOf_enter]
      rfl
    · rw [activeShare, activeShare, (rebooked_shiftCount s i b c).isInactive, hin,
        shiftCount_of_inactive hin, if_pos rfl, if_pos rfl, sub_zero, add_zero]
      rfl

theorem Costed.shiftCounts {net : Network (Extended K)} (hp : net.Priced) {s : State (Extended K)}
    (h : Costed net s) (b : Bool) (is : List Nat) : Costed net (shiftCounts net b s is) :=
  shiftCounts_induction (fun _ _ _ hc ht => ht.shiftCount hp hc b) is h

/-- The sums do not depend on anything but counters and activity. -/
theorem Costed.congr {net : Network (Extended K)} {s s' : State (Extended K)} (h : Costed net s)
    (htrue : s'.trueLits = s.trueLits) (hinactive : s'.inactive = s.inactive)
    (hsoft : s'.softCost = s.softCost) (hhard : s'.hardViolations = s.hardViolations) :
    Costed net s' := by
  have hshare {M : Type} [Zero M] (f : Constraint (Extended K) → Nat → M) :
      s'.activeShare f = s.activeShare f := by
    funext c i
    rw [activeShare, activeShare, isInactive, isInactive, countOf, countOf, htrue, hinactive]
  exact ⟨by rw [hsoft, h.soft, hshare], by rw [hhard, h.hard, hshare]⟩

@[simp] theorem softCost_addPotential (net : Network (Extended K)) (s : State (Extended K))
    (i : Nat) (c : Constraint (Extended K)) (sign : Extended K) :
    (s.addPotential net i c sign).softCost = s.softCost := by
  obtain ⟨makeSums, breakSums, -, -, he⟩ := exists_addPotential_eq net s i c sign
  rw [he]

@[simp] theorem hardViolations_addPotential (net : Network (Extended K)) (s : State (Extended K))
    (i : Nat) (c : Constraint (Extended K)) (sign : Extended K) :
    (s.addPotential net i c sign).hardViolations = s.hardViolations := by
  obtain ⟨makeSums, breakSums, -, -, he⟩ := exists_addPotential_eq net s i c sign
  rw [he]

theorem Costed.addPotential {net : Network (Extended K)} {s : State (Extended K)}
    (h : Costed net s) (i : Nat) (c : Constraint (Extended K)) (sign : Extended K) :
    Costed net (s.addPotential net i c sign) :=
  h.congr (trueLits_addPotential ..) (rebooked_addPotential net s i c sign).inactive
    (softCost_addPotential ..) (hardViolations_addPotential ..)

theorem Costed.addPotentials {net : Network (Extended K)} {s : State (Extended K)}
    (h : Costed net s) (sign : Extended K) (is : List Nat) :
    Costed net (addPotentials net sign s is) :=
  addPotentials_induction (fun _ i c _ ht => ht.addPotential i c sign) is h

theorem Costed.flip {net : Network (Extended K)} (hp : net.Priced) {s : State (Extended K)}
    (h : Costed net s) (a : Nat) : Costed net (s.flip net a) := by
  have hreleased : Costed net (released net s a) :=
    (h.addPotentials (-1) _).congr rfl rfl rfl rfl
  have hturned : Costed net (turned net s a) :=
    (hreleased.shiftCounts hp _ _).shiftCounts hp _ _
  exact (hturned.addPotentials 1 (net.nodes.getD a default).occurrences).congr rfl rfl rfl rfl

theorem Costed.setInactive {net : Network (Extended K)} (hp : net.Priced) {s : State (Extended K)}
    (hs : Sized net s) (h : Costed net s) (i : Nat) (b : Bool) :
    Costed net (s.setInactive net i b) := by
  rcases setInactive_cases net s i b with he | ⟨c, hc, hin, he⟩ | ⟨c, hc, hin, he⟩
  · rwa [he]
  · -- the constraint leaves: first its stakes, then its cost, if it is violated
    have hmem := Array.mem_of_getElem? hc
    have hout := h.addPotential i c (-1)
    have hsize := (hs.rebooked (rebooked_addPotential net s i c (-1))).rebooked
      (rebooked_withdraw _ i c)
    have hin' := ((rebooked_addPotential net s i c (-1)).isInactive i).trans hin
    have hflag := hsize.isInactive_setFlag hc true
    rw [he]
    refine hout.update hc ?_ ?_ ?_ ?_
    · intro j _
      rw [countOf_setFlag, countOf_withdraw]
    · intro j hne
      rw [isInactive_setFlag_of_ne _ hne, (rebooked_withdraw _ i c).isInactive]
    · intro x hx
      rw [softCost_setFlag, softCost_withdraw hp hmem hx, activeShare, activeShare, hin', hflag]
      simp
    · rw [hardViolations_setFlag, hardViolations_withdraw (hout.hardOf_le hc hin'), activeShare,
        activeShare, hin', hflag]
      simp
  · -- it comes back: first its cost, then its stakes
    have hmem := Array.mem_of_getElem? hc
    have hflag := hs.isInactive_setFlag hc false
    rw [he]
    refine Costed.addPotential (h.update hc ?_ ?_ ?_ ?_) i c 1
    · intro j _
      rw [countOf_enter, countOf_setFlag]
    · intro j hne
      rw [(rebooked_enter _ i c).isInactive, isInactive_setFlag_of_ne _ hne]
    · intro x hx
      rw [softCost_enter hp hmem ((softCost_setFlag s i false).trans hx), activeShare, activeShare,
        hin, (rebooked_enter _ i c).isInactive, hflag]
      simp
    · rw [hardViolations_enter, hardViolations_setFlag, activeShare, activeShare, hin,
        (rebooked_enter _ i c).isInactive, hflag]
      simp

/-! ### Recomputation -/

/-- Entering constraints one after the other adds up their shares. -/
theorem costs_foldl_account {net : Network (Extended K)} (hp : net.Priced)
    (entries : List (Constraint (Extended K) × Nat)) (hmem : ∀ e ∈ entries, e.1 ∈ net.constraints)
    {s : State (Extended K)} {x : K} (hx : s.softCost = .finite x) :
    (entries.foldl (account net) s).softCost =
        .finite (x + (entries.map fun e => s.activeShare softOf e.1 e.2).sum) ∧
      ((entries.foldl (account net) s).hardViolations : Int) =
        s.hardViolations + (entries.map fun e => s.activeShare hardOf e.1 e.2).sum := by
  induction entries generalizing s x with
  | nil => simp [hx]
  | cons e entries ih =>
    obtain ⟨he, hrest⟩ := List.forall_mem_cons.mp hmem
    have hbook := rebooked_account net s e
    have hshare {M : Type} [Zero M] (f : Constraint (Extended K) → Nat → M) :
        (account net s e).activeShare f = s.activeShare f := by
      funext c i
      rw [activeShare, activeShare, hbook.isInactive, countOf_account]
    have hstep : (account net s e).softCost = .finite (x + s.activeShare softOf e.1 e.2) ∧
        ((account net s e).hardViolations : Int) =
          s.hardViolations + s.activeShare hardOf e.1 e.2 := by
      unfold account activeShare
      cases hin : s.isInactive e.2
      · simp [softCost_enter hp he hx, hardViolations_enter]
      · simp [hx]
    obtain ⟨hsoft, hhard⟩ := ih hrest hstep.1
    rw [hshare] at hsoft hhard
    rw [List.foldl_cons, hsoft, hhard, hstep.2, List.map_cons, List.sum_cons, List.map_cons,
      List.sum_cons, add_assoc, add_assoc]
    exact ⟨rfl, rfl⟩

theorem costed_recompute {net : Network (Extended K)} (hp : net.Priced) (s : State (Extended K)) :
    Costed net (s.recompute net) := by
  have hmem : ∀ e ∈ net.constraints.toList.zipIdx, e.1 ∈ net.constraints := fun e he =>
    Array.mem_toList_iff.mp (List.fst_mem_of_mem_zipIdx he)
  have hclear : (cleared net s).softCost = .finite 0 := rfl
  obtain ⟨hsoft, hhard⟩ := costs_foldl_account hp _ hmem hclear
  have hshare {M : Type} [Zero M] (f : Constraint (Extended K) → Nat → M) :
      (s.recompute net).activeShare f = (cleared net s).activeShare f := by
    funext c i
    rw [activeShare, activeShare, (rebooked_recompute net s).isInactive, countOf, countOf,
      trueLits_recompute]
    rfl
  constructor
  · rw [recompute_eq, hsoft, zero_add, Network.sum_zipIdx_eq, ← recompute_eq, hshare]
  · rw [recompute_eq, hhard, Network.sum_zipIdx_eq, ← recompute_eq, hshare]
    exact zero_add _

/-- On reachable states the soft cost and the number of hard violations are
the sums of the shares of the constraints. -/
theorem costed_of_reachable {net : Network (Extended K)} (hp : net.Priced) {s : State (Extended K)}
    (h : Reachable net s) : Costed net s := by
  refine reachable_induction (P := Costed net) (costed_recompute hp _)
    (fun s a _ hc => hc.flip hp a)
    (fun s i b hs hc => hc.setInactive hp (sized_of_reachable hs) i b)
    (fun s values _ _ _ => costed_recompute hp _) ?_ h
  rintro s s' ⟨_, _, _, _, -, -, rfl⟩ hc
  exact hc.congr rfl rfl rfl rfl

end State

end MarkovLogic
