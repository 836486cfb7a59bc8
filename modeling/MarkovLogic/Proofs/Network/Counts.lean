/-
MarkovLogic/Proofs/Network/Counts.lean

Reachable search states, and their counters of true literals.

A state is reachable if operations lead to it from the state with all atoms
false (`Step`, `Reachable`).  There are ten operations, but up to what they
record they come down to three: a flip, a change of the activity of a
constraint, and a recomputation with new values (`step_cases`).  Each of these is
made of small ones that touch the sums and counters of the state and nothing else
(`Rebooked`), so all else is read off a single statement about each
(`rebooked_flip`, `rebooked_setInactive`, `rebooked_recompute`).  An invariant of
reachable states has to be kept by the three, and must not speak of the records
(`reachable_induction`).

The first such invariant is that each counter is the number of true literals of
its constraint, whether the constraint is active or not (`exact_of_reachable`).
No law of arithmetic is needed for that.

The idea behind a flip: the literal that the atom made true before and the
opposite literal change places, so the counter of a constraint loses its
occurrences of the one and gains those of the other (`countTrue_flip`).
-/
import MarkovLogic.Network.State
import MarkovLogic.Proofs.Network.Assembly

namespace MarkovLogic

/-- What an array has at a place after a write. -/
theorem getD_setIfInBounds {β : Type} (xs : Array β) (i j : Nat) (x d : β) :
    (xs.setIfInBounds i x).getD j d = if i = j ∧ j < xs.size then x else xs.getD j d := by
  simp only [Array.getD_eq_getD_getElem?, Array.getElem?_setIfInBounds]
  rcases eq_or_ne i j with rfl | hne
  · by_cases hlt : i < xs.size
    · simp [hlt]
    · simp [hlt]
  · simp [hne]

namespace State

variable {α : Type} [Scalar α]

/-! ### Reachable states -/

/-- One operation on a state. -/
inductive Step (net : Network α) (s : State α) : State α → Prop where
  | flip (a : Nat) : Step net s (s.flip net a)
  | fix (a : Nat) (value : Bool) : Step net s (s.fix net a value)
  | unfix (a : Nat) : Step net s (s.unfix a)
  | assign (values : Array Bool) : Step net s (s.assign net values)
  | randomize {ρ : Type} [RandomSource ρ] (r : ρ) : Step net s (s.randomize net r).1
  | setInactive (i : Nat) (inactive : Bool) : Step net s (s.setInactive net i inactive)
  | saveLow : Step net s (s.saveLow net)
  | restoreLow : Step net s (s.restoreLow net)
  | recompute : Step net s (s.recompute net)
  | countStates : Step net s s.countStates

/-- The states that operations lead to from the state with all atoms false. -/
def Reachable (net : Network α) (s : State α) : Prop :=
  Relation.ReflTransGen (Step net) (start net) s

/-! ### What bookkeeping leaves alone -/

/-- Two states that differ in sums and counters only. -/
structure Rebooked (s s' : State α) : Prop where
  values : s'.values = s.values
  fixing : s'.fixing = s.fixing
  lowValues : s'.lowValues = s.lowValues
  lowCost : s'.lowCost = s.lowCost
  lastFlip : s'.lastFlip = s.lastFlip
  flips : s'.flips = s.flips
  inactive : s'.inactive = s.inactive
  makeSums : s'.makeSums.size = s.makeSums.size
  breakSums : s'.breakSums.size = s.breakSums.size
  trueLits : s'.trueLits.size = s.trueLits.size
  violatedAt : s'.violatedAt.size = s.violatedAt.size

namespace Rebooked

omit [Scalar α] in
theorem refl (s : State α) : Rebooked s s := by
  constructor <;> rfl

omit [Scalar α] in
theorem trans {a b c : State α} (hab : Rebooked a b) (hbc : Rebooked b c) : Rebooked a c where
  values := hbc.values.trans hab.values
  fixing := hbc.fixing.trans hab.fixing
  lowValues := hbc.lowValues.trans hab.lowValues
  lowCost := hbc.lowCost.trans hab.lowCost
  lastFlip := hbc.lastFlip.trans hab.lastFlip
  flips := hbc.flips.trans hab.flips
  inactive := hbc.inactive.trans hab.inactive
  makeSums := hbc.makeSums.trans hab.makeSums
  breakSums := hbc.breakSums.trans hab.breakSums
  trueLits := hbc.trueLits.trans hab.trueLits
  violatedAt := hbc.violatedAt.trans hab.violatedAt

omit [Scalar α] in
/-- The same new values in both states. -/
theorem setValues {s s' : State α} (h : Rebooked s s') (values : Array Bool) :
    Rebooked { s with values } { s' with values } :=
  { h with values := rfl }

omit [Scalar α] in
theorem isInactive {s s' : State α} (h : Rebooked s s') (i : Nat) :
    s'.isInactive i = s.isInactive i := by
  rw [State.isInactive, State.isInactive, h.inactive]

omit [Scalar α] in
theorem foldl {β : Type} {step : State α → β → State α} (h : ∀ s x, Rebooked s (step s x))
    (xs : List β) (s : State α) : Rebooked s (xs.foldl step s) :=
  List.foldlRecOn xs step (refl s) fun t ht x _ => ht.trans (h t x)

end Rebooked

omit [Scalar α] in
theorem rebooked_pushViolated (s : State α) (i : Nat) : Rebooked s (s.pushViolated i) := by
  constructor <;> simp [pushViolated]

omit [Scalar α] in
/-- Taking a constraint out of the list of violated ones changes that list
only. -/
theorem exists_dropViolated_eq (s : State α) (i : Nat) :
    ∃ violated violatedAt, violatedAt.size = s.violatedAt.size ∧
      s.dropViolated i = { s with violated, violatedAt } := by
  unfold dropViolated
  split
  · exact ⟨_, _, rfl, rfl⟩
  · dsimp only
    split
    · exact ⟨_, _, Array.size_setIfInBounds, rfl⟩
    · refine ⟨_, _, ?_, rfl⟩
      split <;> simp only [Array.size_setIfInBounds]

omit [Scalar α] in
@[simp] theorem softCost_dropViolated (s : State α) (i : Nat) :
    (s.dropViolated i).softCost = s.softCost := by
  obtain ⟨violated, violatedAt, -, h⟩ := exists_dropViolated_eq s i
  rw [h]

omit [Scalar α] in
@[simp] theorem hardViolations_dropViolated (s : State α) (i : Nat) :
    (s.dropViolated i).hardViolations = s.hardViolations := by
  obtain ⟨violated, violatedAt, -, h⟩ := exists_dropViolated_eq s i
  rw [h]

omit [Scalar α] in
theorem rebooked_dropViolated (s : State α) (i : Nat) : Rebooked s (s.dropViolated i) := by
  obtain ⟨violated, violatedAt, hsize, h⟩ := exists_dropViolated_eq s i
  rw [h]
  exact { Rebooked.refl s with violatedAt := hsize }

theorem rebooked_enter (s : State α) (i : Nat) (c : Constraint α) : Rebooked s (s.enter i c) := by
  unfold enter
  split
  · refine Rebooked.trans ?_ (rebooked_pushViolated _ i)
    cases c.strength <;> constructor <;> rfl
  · exact Rebooked.refl s

theorem rebooked_withdraw (s : State α) (i : Nat) (c : Constraint α) :
    Rebooked s (s.withdraw i c) := by
  unfold withdraw
  split
  · refine Rebooked.trans ?_ (rebooked_dropViolated _ i)
    cases c.strength <;> constructor <;> rfl
  · exact Rebooked.refl s

omit [Scalar α] in
theorem size_foldl_modify (f : α → α) (atoms : List Nat) (sums : Array α) :
    (atoms.foldl (fun m a => m.modify a f) sums).size = sums.size := by
  induction atoms generalizing sums with
  | nil => rfl
  | cons a atoms ih => rw [List.foldl_cons, ih, Array.size_modify]

/-- The part of a constraint in the make and break costs is added by one of
the two sums at most. -/
theorem addPotential_cases (net : Network α) (s : State α) (i : Nat) (c : Constraint α)
    (sign : α) :
    s.addPotential net i c sign = s ∨
      (∃ w atoms, s.addPotential net i c sign = s.addMake w atoms) ∨
      ∃ w atoms, s.addPotential net i c sign = s.addBreak w atoms := by
  unfold addPotential
  split
  · exact Or.inl rfl
  · dsimp only
    split
    · split
      · exact Or.inr (Or.inl ⟨_, _, rfl⟩)
      · exact Or.inr (Or.inr ⟨_, _, rfl⟩)
    · split
      · exact Or.inl rfl
      · split
        · exact Or.inr (Or.inr ⟨_, _, rfl⟩)
        · exact Or.inr (Or.inl ⟨_, _, rfl⟩)
    · exact Or.inl rfl

/-- Either way only the two sums change. -/
theorem exists_addPotential_eq (net : Network α) (s : State α) (i : Nat) (c : Constraint α)
    (sign : α) : ∃ makeSums breakSums, makeSums.size = s.makeSums.size ∧
      breakSums.size = s.breakSums.size ∧
      s.addPotential net i c sign = { s with makeSums, breakSums } := by
  rcases addPotential_cases net s i c sign with h | ⟨w, atoms, h⟩ | ⟨w, atoms, h⟩
  · exact ⟨_, _, rfl, rfl, h⟩
  · exact ⟨_, _, size_foldl_modify _ atoms _, rfl, h⟩
  · exact ⟨_, _, rfl, size_foldl_modify _ atoms _, h⟩

theorem rebooked_addPotential (net : Network α) (s : State α) (i : Nat) (c : Constraint α)
    (sign : α) : Rebooked s (s.addPotential net i c sign) := by
  obtain ⟨makeSums, breakSums, hmake, hbreak, h⟩ := exists_addPotential_eq net s i c sign
  rw [h]
  exact { Rebooked.refl s with makeSums := hmake, breakSums := hbreak }

/-- Counts one true literal more or less, with no other change. -/
def stepCount (s : State α) (i : Nat) (b : Bool) : State α :=
  { s with trueLits := s.trueLits.modify i fun n => if b then n + 1 else n - 1 }

theorem shiftCount_of_active {s : State α} {i : Nat} (h : s.isInactive i = false) (b : Bool)
    (c : Constraint α) :
    s.shiftCount i b c = ((s.withdraw i c).stepCount i b).enter i c := by
  simp only [shiftCount, h, Bool.not_false, ↓reduceIte]
  rfl

theorem shiftCount_of_inactive {s : State α} {i : Nat} (h : s.isInactive i = true) (b : Bool)
    (c : Constraint α) : s.shiftCount i b c = s.stepCount i b := by
  simp only [shiftCount, h, Bool.not_true, Bool.false_eq_true, ↓reduceIte]
  rfl

omit [Scalar α] in
theorem rebooked_stepCount (s : State α) (i : Nat) (b : Bool) : Rebooked s (s.stepCount i b) :=
  { Rebooked.refl s with trueLits := Array.size_modify }

theorem rebooked_shiftCount (s : State α) (i : Nat) (b : Bool) (c : Constraint α) :
    Rebooked s (s.shiftCount i b c) := by
  cases h : s.isInactive i
  · rw [shiftCount_of_active h]
    exact ((rebooked_withdraw s i c).trans (rebooked_stepCount _ i b)).trans (rebooked_enter _ i c)
  · rw [shiftCount_of_inactive h]
    exact rebooked_stepCount s i b

/-! ### The stages of a flip -/

/-- Adds the parts of several constraints in the make and break costs. -/
def addPotentials (net : Network α) (sign : α) (s : State α) (is : List Nat) : State α :=
  is.foldl (fun s i => s.onConstraint net i fun s c => s.addPotential net i c sign) s

/-- One literal of each of several constraints becomes true or false. -/
def shiftCounts (net : Network α) (becameTrue : Bool) (s : State α) (is : List Nat) : State α :=
  is.foldl (fun s i => s.onConstraint net i fun s c => s.shiftCount i becameTrue c) s

/-- An assignment with the value of one atom changed. -/
def flipped (values : Array Bool) (a : Nat) : Array Bool :=
  values.setIfInBounds a (!values.getD a false)

/-- The atom has its new value, and the parts of its occurrences are out of
the sums. -/
def released (net : Network α) (s : State α) (a : Nat) : State α :=
  let t := addPotentials net (-1) s (net.nodes.getD a default).occurrences
  { t with values := t.values.setIfInBounds a (!s.value a) }

/-- The counters follow the new value of the atom. -/
def turned (net : Network α) (s : State α) (a : Nat) : State α :=
  let node := net.nodes.getD a default
  shiftCounts net (!!s.value a)
    (shiftCounts net (!s.value a) (released net s a) node.positive.toList) node.negative.toList

/-- A flip takes the parts of the occurrences out of the sums, changes the
value and the counters, and puts the parts back in. -/
theorem flip_eq (net : Network α) (s : State α) (a : Nat) :
    s.flip net a =
      let t := addPotentials net 1 (turned net s a) (net.nodes.getD a default).occurrences
      { t with flips := t.flips + 1, lastFlip := t.lastFlip.setIfInBounds a (t.flips + 1) } :=
  rfl

theorem addPotentials_cons_of_eq_none {net : Network α} {i : Nat}
    (h : net.constraints[i]? = none) (sign : α) (s : State α) (is : List Nat) :
    addPotentials net sign s (i :: is) = addPotentials net sign s is := by
  simp only [addPotentials, List.foldl_cons, onConstraint, h]

theorem addPotentials_cons_of_eq_some {net : Network α} {i : Nat} {c : Constraint α}
    (h : net.constraints[i]? = some c) (sign : α) (s : State α) (is : List Nat) :
    addPotentials net sign s (i :: is) =
      addPotentials net sign (s.addPotential net i c sign) is := by
  simp only [addPotentials, List.foldl_cons, onConstraint, h]

/-- What every single addition keeps, several of them keep. -/
theorem addPotentials_induction {P : State α → Prop} {net : Network α} {sign : α}
    (hstep : ∀ t i c, net.constraints[i]? = some c → P t → P (t.addPotential net i c sign))
    (is : List Nat) {s : State α} (h : P s) : P (addPotentials net sign s is) := by
  induction is generalizing s with
  | nil => exact h
  | cons i is ih =>
    rcases hc : net.constraints[i]? with _ | c
    · rw [addPotentials_cons_of_eq_none hc]
      exact ih h
    · rw [addPotentials_cons_of_eq_some hc]
      exact ih (hstep s i c hc h)

theorem shiftCounts_cons_of_eq_none {net : Network α} {i : Nat}
    (h : net.constraints[i]? = none) (b : Bool) (s : State α) (is : List Nat) :
    shiftCounts net b s (i :: is) = shiftCounts net b s is := by
  simp only [shiftCounts, List.foldl_cons, onConstraint, h]

theorem shiftCounts_cons_of_eq_some {net : Network α} {i : Nat} {c : Constraint α}
    (h : net.constraints[i]? = some c) (b : Bool) (s : State α) (is : List Nat) :
    shiftCounts net b s (i :: is) = shiftCounts net b (s.shiftCount i b c) is := by
  simp only [shiftCounts, List.foldl_cons, onConstraint, h]

theorem shiftCounts_induction {P : State α → Prop} {net : Network α} {b : Bool}
    (hstep : ∀ t i c, net.constraints[i]? = some c → P t → P (t.shiftCount i b c))
    (is : List Nat) {s : State α} (h : P s) : P (shiftCounts net b s is) := by
  induction is generalizing s with
  | nil => exact h
  | cons i is ih =>
    rcases hc : net.constraints[i]? with _ | c
    · rw [shiftCounts_cons_of_eq_none hc]
      exact ih h
    · rw [shiftCounts_cons_of_eq_some hc]
      exact ih (hstep s i c hc h)

theorem rebooked_addPotentials (net : Network α) (sign : α) (s : State α) (is : List Nat) :
    Rebooked s (addPotentials net sign s is) :=
  addPotentials_induction (fun t i c _ ht => ht.trans (rebooked_addPotential net t i c sign)) is
    (Rebooked.refl s)

theorem rebooked_shiftCounts (net : Network α) (b : Bool) (s : State α) (is : List Nat) :
    Rebooked s (shiftCounts net b s is) :=
  shiftCounts_induction (fun t i c _ ht => ht.trans (rebooked_shiftCount t i b c)) is
    (Rebooked.refl s)

theorem rebooked_released (net : Network α) (s : State α) (a : Nat) :
    Rebooked { s with values := flipped s.values a } (released net s a) := by
  have hout := rebooked_addPotentials net (-1) s (net.nodes.getD a default).occurrences
  have hvalues : (released net s a).values = flipped s.values a := by
    rw [released, hout.values]
    rfl
  exact { hout.setValues _ with values := hvalues }

theorem rebooked_turned (net : Network α) (s : State α) (a : Nat) :
    Rebooked { s with values := flipped s.values a } (turned net s a) :=
  ((rebooked_released net s a).trans (rebooked_shiftCounts net _ _ _)).trans
    (rebooked_shiftCounts net _ _ _)

/-- A flip changes the value of the atom, counts and numbers the flip, and besides
that sums and counters only. -/
theorem rebooked_flip (net : Network α) (s : State α) (a : Nat) :
    Rebooked { s with
      values := flipped s.values a
      flips := s.flips + 1
      lastFlip := s.lastFlip.setIfInBounds a (s.flips + 1) } (s.flip net a) := by
  have h := (rebooked_turned net s a).trans
    (rebooked_addPotentials net 1 (turned net s a) (net.nodes.getD a default).occurrences)
  rw [flip_eq]
  dsimp only
  rw [h.flips, h.lastFlip]
  exact { h with flips := rfl, lastFlip := rfl }

theorem values_flip (net : Network α) (s : State α) (a : Nat) :
    (s.flip net a).values = flipped s.values a :=
  (rebooked_flip net s a).values

/-! ### Activity -/

/-- Marks a constraint as inactive or active, with no other change. -/
def setFlag (s : State α) (i : Nat) (inactive : Bool) : State α :=
  { s with inactive := s.inactive.setIfInBounds i inactive }

omit [Scalar α] in
@[simp] theorem values_setFlag (s : State α) (i : Nat) (b : Bool) :
    (s.setFlag i b).values = s.values := rfl

omit [Scalar α] in
@[simp] theorem countOf_setFlag (s : State α) (i : Nat) (b : Bool) (j : Nat) :
    (s.setFlag i b).countOf j = s.countOf j := rfl

omit [Scalar α] in
@[simp] theorem softCost_setFlag (s : State α) (i : Nat) (b : Bool) :
    (s.setFlag i b).softCost = s.softCost := rfl

omit [Scalar α] in
@[simp] theorem hardViolations_setFlag (s : State α) (i : Nat) (b : Bool) :
    (s.setFlag i b).hardViolations = s.hardViolations := rfl

omit [Scalar α] in
theorem isInactive_setFlag_of_ne (s : State α) {i j : Nat} (h : j ≠ i) (b : Bool) :
    (s.setFlag i b).isInactive j = s.isInactive j := by
  simp [setFlag, isInactive, h.symm]

/-- Changing the activity of a constraint does nothing, or takes an active
constraint out of the sums, or puts an inactive one into them. -/
theorem setInactive_cases (net : Network α) (s : State α) (i : Nat) (b : Bool) :
    s.setInactive net i b = s ∨
      (∃ c, net.constraints[i]? = some c ∧ s.isInactive i = false ∧ s.setInactive net i b =
        ((s.addPotential net i c (-1)).withdraw i c).setFlag i true) ∨
      ∃ c, net.constraints[i]? = some c ∧ s.isInactive i = true ∧ s.setInactive net i b =
        ((s.setFlag i false).enter i c).addPotential net i c 1 := by
  by_cases hsame : s.isInactive i = b
  · exact Or.inl (by simp [setInactive, hsame])
  rcases hc : net.constraints[i]? with _ | c
  · exact Or.inl (by simp [setInactive, onConstraint, hc])
  cases b
  · refine Or.inr (Or.inr ⟨c, rfl, by simpa using hsame, ?_⟩)
    simp [setInactive, onConstraint, hc, hsame, setFlag]
  · refine Or.inr (Or.inl ⟨c, rfl, by simpa using hsame, ?_⟩)
    simp [setInactive, onConstraint, hc, hsame, setFlag]

omit [Scalar α] in
theorem Rebooked.setFlag {s s' : State α} (h : Rebooked s s') (i : Nat) (b : Bool) :
    Rebooked (s.setFlag i b) (s'.setFlag i b) :=
  { h with inactive := congrArg (·.setIfInBounds i b) h.inactive }

/-- Besides flags of constraints, sums and counters are all that changes. -/
theorem rebooked_setInactive (net : Network α) (s : State α) (i : Nat) (b : Bool) :
    ∃ inactive, inactive.size = s.inactive.size ∧
      Rebooked { s with inactive } (s.setInactive net i b) := by
  rcases setInactive_cases net s i b with he | ⟨c, -, -, he⟩ | ⟨c, -, -, he⟩
  · rw [he]
    exact ⟨s.inactive, rfl, Rebooked.refl s⟩
  · rw [he]
    exact ⟨_, Array.size_setIfInBounds,
      ((rebooked_addPotential net s i c (-1)).trans (rebooked_withdraw _ i c)).setFlag i true⟩
  · rw [he]
    exact ⟨_, Array.size_setIfInBounds, (rebooked_enter (s.setFlag i false) i c).trans
      (rebooked_addPotential net _ i c 1)⟩

/-! ### Recomputation -/

/-- The state with empty sums that recomputation starts from. -/
def cleared (net : Network α) (s : State α) : State α :=
  { s with
    makeSums := s.makeSums.map fun _ => 0
    breakSums := s.breakSums.map fun _ => 0
    violated := #[]
    violatedAt := s.violatedAt.map fun _ => none
    softCost := 0
    hardViolations := 0
    trueLits := net.constraints.map fun c => c.countTrue s.values }

/-- Enters a constraint into all sums, if it is active. -/
def account (net : Network α) (s : State α) (entry : Constraint α × Nat) : State α :=
  if s.isInactive entry.2 then s
  else (s.enter entry.2 entry.1).addPotential net entry.2 entry.1 1

/-- Recomputation enters the constraints one after the other into empty sums. -/
theorem recompute_eq (net : Network α) (s : State α) :
    s.recompute net = net.constraints.toList.zipIdx.foldl (account net) (cleared net s) :=
  rfl

theorem rebooked_account (net : Network α) (s : State α) (entry : Constraint α × Nat) :
    Rebooked s (account net s entry) := by
  unfold account
  split
  · exact Rebooked.refl s
  · exact (rebooked_enter s _ _).trans (rebooked_addPotential net _ _ _ 1)

theorem rebooked_recompute (net : Network α) (s : State α) :
    Rebooked (cleared net s) (s.recompute net) :=
  Rebooked.foldl (rebooked_account net) _ _

/-! ### Sizes -/

/-- The state has a place for each atom and each constraint of the network. -/
structure Sized (net : Network α) (s : State α) : Prop where
  values : s.values.size = net.nodes.size
  fixing : s.fixing.size = net.nodes.size
  lowValues : s.lowValues.size = net.nodes.size
  makeSums : s.makeSums.size = net.nodes.size
  breakSums : s.breakSums.size = net.nodes.size
  trueLits : s.trueLits.size = net.constraints.size
  inactive : s.inactive.size = net.constraints.size
  violatedAt : s.violatedAt.size = net.constraints.size

namespace Sized

variable {net : Network α} {s s' : State α}

omit [Scalar α] in
theorem rebooked (h : Sized net s) (hr : Rebooked s s') : Sized net s' where
  values := by rw [hr.values, h.values]
  fixing := by rw [hr.fixing, h.fixing]
  lowValues := by rw [hr.lowValues, h.lowValues]
  makeSums := by rw [hr.makeSums, h.makeSums]
  breakSums := by rw [hr.breakSums, h.breakSums]
  trueLits := by rw [hr.trueLits, h.trueLits]
  inactive := by rw [hr.inactive, h.inactive]
  violatedAt := by rw [hr.violatedAt, h.violatedAt]

omit [Scalar α] in
theorem setValues (h : Sized net s) {values : Array Bool} (hv : values.size = net.nodes.size) :
    Sized net { s with values } :=
  { h with values := hv }

omit [Scalar α] in
/-- The flag of a constraint is what it is set to. -/
theorem isInactive_setFlag (h : Sized net s) {i : Nat} {c : Constraint α}
    (hc : net.constraints[i]? = some c) (b : Bool) : (s.setFlag i b).isInactive i = b := by
  obtain ⟨hi, -⟩ := Array.getElem?_eq_some_iff.mp hc
  rw [← h.inactive] at hi
  simp [State.setFlag, isInactive, hi]

omit [Scalar α] in
theorem setFlag (h : Sized net s) (i : Nat) (b : Bool) : Sized net (s.setFlag i b) :=
  { h with inactive := Array.size_setIfInBounds.trans h.inactive }

theorem cleared (h : Sized net s) : Sized net (cleared net s) :=
  { h with
    makeSums := Array.size_map.trans h.makeSums
    breakSums := Array.size_map.trans h.breakSums
    trueLits := Array.size_map
    violatedAt := Array.size_map.trans h.violatedAt }

theorem recompute (h : Sized net s) : Sized net (s.recompute net) :=
  h.cleared.rebooked (rebooked_recompute net s)

omit [Scalar α] in
theorem setFlipped (h : Sized net s) (a : Nat) :
    Sized net { s with values := flipped s.values a } :=
  h.setValues (Array.size_setIfInBounds.trans h.values)

theorem released (h : Sized net s) (a : Nat) : Sized net (released net s a) :=
  (h.setFlipped a).rebooked (rebooked_released net s a)

theorem turned (h : Sized net s) (a : Nat) : Sized net (turned net s a) :=
  (h.setFlipped a).rebooked (rebooked_turned net s a)

theorem flip (h : Sized net s) (a : Nat) : Sized net (s.flip net a) := by
  have hcounted : Sized net { s with
      values := flipped s.values a
      flips := s.flips + 1
      lastFlip := s.lastFlip.setIfInBounds a (s.flips + 1) } :=
    { h.setFlipped a with }
  exact hcounted.rebooked (rebooked_flip net s a)

theorem setInactive (h : Sized net s) (i : Nat) (b : Bool) :
    Sized net (s.setInactive net i b) := by
  obtain ⟨inactive, hsize, hbook⟩ := rebooked_setInactive net s i b
  have hflags : Sized net { s with inactive } := { h with inactive := hsize.trans h.inactive }
  exact hflags.rebooked hbook

end Sized

/-- The first state is recomputed from one of the right size. -/
theorem exists_start_eq (net : Network α) : ∃ s, Sized net s ∧ start net = s.recompute net := by
  refine ⟨_, ?_, rfl⟩
  constructor <;> exact Array.size_replicate

/-! ### What operations come down to -/

/-- Two states that differ in the flags of atoms and in what is recorded only. -/
def SameBooks (s s' : State α) : Prop :=
  ∃ fixing lowValues lowCost trueCounts,
    fixing.size = s.fixing.size ∧ lowValues.size = s.lowValues.size ∧
      s' = { s with fixing, lowValues, lowCost, trueCounts }

omit [Scalar α] in
theorem SameBooks.refl (s : State α) : SameBooks s s :=
  ⟨_, _, _, _, rfl, rfl, rfl⟩

theorem size_drawValues {ρ : Type} [RandomSource ρ] (s : State α) (atoms : List Nat)
    (values : Array Bool) (r : ρ) : (s.drawValues atoms values r).1.size = values.size := by
  induction atoms generalizing values r with
  | nil => rfl
  | cons a atoms ih =>
    unfold drawValues
    split
    · exact ih values r
    · exact (ih _ _).trans Array.size_setIfInBounds

/-- Up to flags of atoms and records, an operation does nothing, flips an atom,
changes the activity of a constraint, or recomputes all sums with new values. -/
theorem step_cases {net : Network α} {s s' : State α} (h : Sized net s)
    (hstep : Step net s s') :
    ∃ t, SameBooks t s' ∧
      (t = s ∨ (∃ a, t = s.flip net a) ∨ (∃ i b, t = s.setInactive net i b) ∨
        ∃ values : Array Bool, values.size = net.nodes.size ∧
          t = ({ s with values } : State α).recompute net) := by
  cases hstep with
  | flip a => exact ⟨_, .refl _, .inr (.inl ⟨a, rfl⟩)⟩
  | fix a v =>
    have hflag (t : State α) :
        SameBooks t { t with fixing := t.fixing.setIfInBounds a (.fixed v) } :=
      ⟨_, _, _, _, Array.size_setIfInBounds, rfl, rfl⟩
    rw [fix]
    split
    · exact ⟨s, hflag s, .inl rfl⟩
    · exact ⟨_, hflag _, .inr (.inl ⟨a, rfl⟩)⟩
  | unfix a => exact ⟨s, ⟨_, _, _, _, Array.size_setIfInBounds, rfl, rfl⟩, .inl rfl⟩
  | assign values =>
    exact ⟨_, .refl _, .inr (.inr (.inr ⟨_, Array.size_mapIdx.trans h.values, rfl⟩))⟩
  | randomize r =>
    exact ⟨_, .refl _, .inr (.inr (.inr ⟨_, (size_drawValues s _ _ r).trans h.values, rfl⟩))⟩
  | setInactive i b => exact ⟨_, .refl _, .inr (.inr (.inl ⟨i, b, rfl⟩))⟩
  | saveLow => exact ⟨s, ⟨_, _, _, _, rfl, h.values.trans h.lowValues.symm, rfl⟩, .inl rfl⟩
  | restoreLow =>
    rw [restoreLow]
    split
    · exact ⟨s, .refl s, .inl rfl⟩
    · split
      · exact ⟨_, .refl _, .inr (.inr (.inr ⟨_, h.lowValues, rfl⟩))⟩
      · exact ⟨s, .refl s, .inl rfl⟩
  | recompute => exact ⟨_, .refl _, .inr (.inr (.inr ⟨s.values, h.values, rfl⟩))⟩
  | countStates => exact ⟨s, ⟨_, _, _, _, rfl, rfl, rfl⟩, .inl rfl⟩

omit [Scalar α] in
theorem Sized.sameBooks {net : Network α} {s s' : State α} (h : Sized net s)
    (hbooks : SameBooks s s') : Sized net s' := by
  obtain ⟨fixing, lowValues, lowCost, trueCounts, hfixing, hlow, rfl⟩ := hbooks
  exact { h with fixing := hfixing.trans h.fixing, lowValues := hlow.trans h.lowValues }

theorem Sized.step {net : Network α} {s s' : State α} (h : Sized net s) (hstep : Step net s s') :
    Sized net s' := by
  obtain ⟨t, hbooks, rfl | ⟨a, rfl⟩ | ⟨i, b, rfl⟩ | ⟨values, hvalues, rfl⟩⟩ := step_cases h hstep
  · exact h.sameBooks hbooks
  · exact (h.flip a).sameBooks hbooks
  · exact (h.setInactive i b).sameBooks hbooks
  · exact (h.setValues hvalues).recompute.sameBooks hbooks

theorem sized_of_reachable {net : Network α} {s : State α} (h : Reachable net s) :
    Sized net s := by
  induction h with
  | refl =>
    obtain ⟨s, hs, heq⟩ := exists_start_eq net
    exact heq ▸ hs.recompute
  | tail _ hstep ih => exact ih.step hstep

/-- What the first state has, and what flips, changes of activity and recomputation
keep, all reachable states have, unless it depends on flags of atoms and records. -/
theorem reachable_induction {net : Network α} {P : State α → Prop} (hstart : P (start net))
    (hflip : ∀ s a, Reachable net s → P s → P (s.flip net a))
    (hinactive : ∀ s i b, Reachable net s → P s → P (s.setInactive net i b))
    (hrecompute : ∀ s (values : Array Bool), Reachable net s → values.size = net.nodes.size →
      P s → P (({ s with values } : State α).recompute net))
    (hbooks : ∀ s s', SameBooks s s' → P s → P s') {s : State α} (h : Reachable net s) : P s := by
  induction h with
  | refl => exact hstart
  | tail hreach hstep ih =>
    obtain ⟨t, hsame, rfl | ⟨a, rfl⟩ | ⟨i, b, rfl⟩ | ⟨values, hvalues, rfl⟩⟩ :=
      step_cases (sized_of_reachable hreach) hstep
    · exact hbooks _ _ hsame ih
    · exact hbooks _ _ hsame (hflip _ a hreach ih)
    · exact hbooks _ _ hsame (hinactive _ i b hreach ih)
    · exact hbooks _ _ hsame (hrecompute _ values hreach hvalues ih)

/-! ### Counting true literals -/

theorem getD_flipped (values : Array Bool) (a b : Nat) :
    (flipped values a).getD b false =
      if a = b ∧ b < values.size then !values.getD b false else values.getD b false := by
  rw [flipped, getD_setIfInBounds]
  split
  · rename_i h
    rw [h.1]
  · rfl

/-- With a flip the literals of the atom that were true become false, and the
others become true. -/
theorem countTrue_flip {β : Type} (c : Constraint β) {values : Array Bool} {a : Nat}
    (ha : a < values.size) :
    c.countTrue (flipped values a) + c.lits.count ⟨a, values.getD a false⟩ =
      c.countTrue values + c.lits.count ⟨a, !values.getD a false⟩ := by
  unfold Constraint.countTrue
  induction c.lits with
  | nil => rfl
  | cons l ls ih =>
    have hhead : (if ((flipped values a).getD l.atom false == l.positive) = true then 1 else 0) +
        (if (l == ⟨a, values.getD a false⟩) = true then 1 else 0) =
        (if (values.getD l.atom false == l.positive) = true then 1 else 0) +
        (if (l == ⟨a, !values.getD a false⟩) = true then 1 else 0) := by
      have hvalue := getD_flipped values a l.atom
      obtain ⟨b, p⟩ := l
      rcases eq_or_ne a b with rfl | hne
      · rw [if_pos ⟨rfl, ha⟩] at hvalue
        rw [hvalue]
        cases values.getD a false <;> cases p <;> simp
      · rw [if_neg (fun h => hne h.1)] at hvalue
        simp [hvalue, Ne.symm hne]
    simp only [List.countP_cons, List.count_cons]
    omega

/-- A constraint with none of the atoms that two assignments differ in has as
many true literals under both. -/
theorem countTrue_congr {β : Type} {c : Constraint β} {values values' : Array Bool}
    (h : ∀ l ∈ c.lits, values'.getD l.atom false = values.getD l.atom false) :
    c.countTrue values' = c.countTrue values := by
  unfold Constraint.countTrue
  refine List.countP_congr fun l hl => ?_
  rw [h l hl]

theorem countTrue_flip_of_not_mem {β : Type} {c : Constraint β} {a : Nat}
    (ha : a ∉ c.lits.map NetLiteral.atom) (values : Array Bool) :
    c.countTrue (flipped values a) = c.countTrue values := by
  refine countTrue_congr fun l hl => ?_
  rw [getD_flipped, if_neg]
  rintro ⟨rfl, -⟩
  exact ha (List.mem_map_of_mem hl)

/-! ### The counters -/

/-- Each counter is the number of true literals of its constraint. -/
def Exact (net : Network α) (s : State α) : Prop :=
  ∀ i c, net.constraints[i]? = some c → s.countOf i = c.countTrue s.values

@[simp] theorem trueLits_enter (s : State α) (i : Nat) (c : Constraint α) :
    (s.enter i c).trueLits = s.trueLits := by
  unfold enter
  split
  · cases c.strength <;> rfl
  · rfl

omit [Scalar α] in
@[simp] theorem trueLits_dropViolated (s : State α) (i : Nat) :
    (s.dropViolated i).trueLits = s.trueLits := by
  obtain ⟨violated, violatedAt, -, h⟩ := exists_dropViolated_eq s i
  rw [h]

@[simp] theorem trueLits_withdraw (s : State α) (i : Nat) (c : Constraint α) :
    (s.withdraw i c).trueLits = s.trueLits := by
  unfold withdraw
  split
  · cases c.strength <;> simp
  · rfl

@[simp] theorem trueLits_addPotential (net : Network α) (s : State α) (i : Nat)
    (c : Constraint α) (sign : α) : (s.addPotential net i c sign).trueLits = s.trueLits := by
  obtain ⟨makeSums, breakSums, -, -, h⟩ := exists_addPotential_eq net s i c sign
  rw [h]

@[simp] theorem countOf_enter (s : State α) (i : Nat) (c : Constraint α) (j : Nat) :
    (s.enter i c).countOf j = s.countOf j := by
  rw [countOf, trueLits_enter, countOf]

@[simp] theorem countOf_withdraw (s : State α) (i : Nat) (c : Constraint α) (j : Nat) :
    (s.withdraw i c).countOf j = s.countOf j := by
  rw [countOf, trueLits_withdraw, countOf]

@[simp] theorem countOf_addPotential (net : Network α) (s : State α) (i : Nat)
    (c : Constraint α) (sign : α) (j : Nat) :
    (s.addPotential net i c sign).countOf j = s.countOf j := by
  rw [countOf, trueLits_addPotential, countOf]

theorem trueLits_addPotentials (net : Network α) (sign : α) (s : State α) (is : List Nat) :
    (addPotentials net sign s is).trueLits = s.trueLits :=
  addPotentials_induction (P := fun t => t.trueLits = s.trueLits)
    (fun t i c _ ht => (trueLits_addPotential net t i c sign).trans ht) is rfl

theorem trueLits_account (net : Network α) (s : State α) (entry : Constraint α × Nat) :
    (account net s entry).trueLits = s.trueLits := by
  unfold account
  split
  · rfl
  · rw [trueLits_addPotential, trueLits_enter]

theorem countOf_account (net : Network α) (s : State α) (entry : Constraint α × Nat) (j : Nat) :
    (account net s entry).countOf j = s.countOf j := by
  rw [countOf, trueLits_account, countOf]

theorem trueLits_recompute (net : Network α) (s : State α) :
    (s.recompute net).trueLits = net.constraints.map fun c => c.countTrue s.values := by
  rw [recompute_eq]
  refine List.foldlRecOn (motive := fun t : State α => t.trueLits = _) _ _ ?_ ?_
  · rfl
  intro t ht entry _
  rw [trueLits_account, ht]

theorem trueLits_shiftCount (s : State α) (i : Nat) (b : Bool) (c : Constraint α) :
    (s.shiftCount i b c).trueLits =
      s.trueLits.modify i fun n => if b then n + 1 else n - 1 := by
  cases h : s.isInactive i
  · rw [shiftCount_of_active h, trueLits_enter, stepCount, trueLits_withdraw]
  · rw [shiftCount_of_inactive h, stepCount]

theorem countOf_shiftCount_of_ne (s : State α) {i j : Nat} (b : Bool) (c : Constraint α)
    (hne : j ≠ i) : (s.shiftCount i b c).countOf j = s.countOf j := by
  simp only [countOf, trueLits_shiftCount, Array.getD_eq_getD_getElem?, Array.getElem?_modify,
    if_neg hne.symm]

theorem countOf_shiftCount_self {s : State α} {i : Nat} (hi : i < s.trueLits.size) (b : Bool)
    (c : Constraint α) :
    (s.shiftCount i b c).countOf i = if b then s.countOf i + 1 else s.countOf i - 1 := by
  simp only [countOf, trueLits_shiftCount, Array.getD_eq_getD_getElem?, Array.getElem?_modify,
    ↓reduceIte, Array.getElem?_eq_getElem hi]
  rfl

theorem countOf_shiftCounts (net : Network α) (b : Bool) (is : List Nat) {s : State α}
    (hs : s.trueLits.size = net.constraints.size) (j : Nat) (hj : j < net.constraints.size) :
    (shiftCounts net b s is).countOf j =
      if b then s.countOf j + is.count j else s.countOf j - is.count j := by
  induction is generalizing s with
  | nil => simp [shiftCounts]
  | cons i is ih =>
    rw [List.count_cons]
    rcases hc : net.constraints[i]? with _ | c
    · have hne : (i == j) = false := by
        rw [beq_eq_false_iff_ne]
        rintro rfl
        rw [Array.getElem?_eq_getElem hj] at hc
        cases hc
      rw [shiftCounts_cons_of_eq_none hc, ih hs, hne]
      rfl
    · obtain ⟨hi, -⟩ := Array.getElem?_eq_some_iff.mp hc
      rw [shiftCounts_cons_of_eq_some hc, ih ((rebooked_shiftCount s i b c).trueLits.trans hs)]
      rcases eq_or_ne i j with rfl | hne
      · rw [countOf_shiftCount_self (hs.symm ▸ hi)]
        cases b
        · simp only [Bool.false_eq_true, ↓reduceIte, beq_self_eq_true]
          omega
        · simp only [↓reduceIte, beq_self_eq_true]
          omega
      · rw [countOf_shiftCount_of_ne s b c hne.symm]
        simp [hne]

theorem exact_recompute (net : Network α) (s : State α) : Exact net (s.recompute net) := by
  intro i c hc
  rw [countOf, trueLits_recompute, (rebooked_recompute net s).values,
    Array.getD_eq_getD_getElem?, Array.getElem?_map, hc]
  rfl

/-- A fixed atom has its value, and the others keep theirs. -/
theorem getD_values_fix (net : Network α) (s : State α) (a : Nat) (v : Bool) (b : Nat) :
    (s.fix net a v).values.getD b false =
      if a = b ∧ b < s.values.size then v else s.values.getD b false := by
  have hvalues : (s.fix net a v).values =
      if s.values.getD a false = v then s.values else flipped s.values a := by
    rw [fix, value]
    split
    · rfl
    · exact values_flip net s a
  rw [hvalues]
  by_cases hv : s.values.getD a false = v
  · rw [if_pos hv]
    split
    · rename_i hab
      rw [← hab.1, hv]
    · rfl
  · rw [if_neg hv, getD_flipped]
    by_cases hab : a = b ∧ b < s.values.size
    · rw [if_pos hab, if_pos hab, ← hab.1]
      cases v <;> simpa using hv
    · rw [if_neg hab, if_neg hab]

theorem countOf_turned {net : Network α} (hw : net.Wired) {s : State α} (h : Sized net s)
    (a : Nat) {i : Nat} (hi : i < net.constraints.size) :
    (turned net s a).countOf i =
      if s.value a then
        s.countOf i - (net.litsAt i).count ⟨a, true⟩ + (net.litsAt i).count ⟨a, false⟩
      else s.countOf i + (net.litsAt i).count ⟨a, true⟩ - (net.litsAt i).count ⟨a, false⟩ := by
  have hsize : (released net s a).trueLits.size = net.constraints.size := (h.released a).trueLits
  have hcount : (released net s a).countOf i = s.countOf i := by
    have htrue := trueLits_addPotentials net (-1) s (net.nodes.getD a default).occurrences
    rw [countOf, countOf, released, htrue]
  have hpos : (net.nodes.getD a default).positive.toList.count i = (net.litsAt i).count ⟨a, true⟩ :=
    hw.count_entered ⟨a, true⟩ i
  have hneg :
      (net.nodes.getD a default).negative.toList.count i = (net.litsAt i).count ⟨a, false⟩ :=
    hw.count_entered ⟨a, false⟩ i
  unfold turned
  dsimp only
  rw [countOf_shiftCounts net _ _ ((rebooked_shiftCounts ..).trueLits.trans hsize) i hi,
    countOf_shiftCounts net _ _ hsize i hi, hcount, hpos, hneg]
  cases s.value a <;> rfl

/-- After the counters are changed they are exact for the new assignment. -/
theorem Exact.turned {net : Network α} (hw : net.Wired) {s : State α} (hs : Sized net s)
    (h : Exact net s) (a : Nat) : Exact net (turned net s a) := by
  intro i c hc
  obtain ⟨hi, -⟩ := Array.getElem?_eq_some_iff.mp hc
  have hlits : net.litsAt i = c.lits := by simp [Network.litsAt, hc]
  rw [countOf_turned hw hs a hi, hlits, h i c hc, (rebooked_turned net s a).values]
  by_cases ha : a < s.values.size
  · have hflip := countTrue_flip c ha
    have hvalue : s.values.getD a false = s.value a := rfl
    rw [hvalue] at hflip
    cases hv : s.value a
    · rw [hv] at hflip
      simp only [Bool.not_false, Bool.false_eq_true, ↓reduceIte] at hflip ⊢
      omega
    · rw [hv] at hflip
      -- the literals that lose their truth are among the true ones
      have hle : c.lits.count ⟨a, true⟩ ≤ c.countTrue s.values := by
        refine List.countP_mono_left fun l _ hl => ?_
        rw [eq_of_beq hl]
        simp [hvalue, hv]
      simp only [Bool.not_true, ↓reduceIte] at hflip ⊢
      omega
  · -- an atom that is not in the network occurs nowhere
    have hnone : ∀ p, c.lits.count ⟨a, p⟩ = 0 := by
      intro p
      rw [← hlits, ← hw.count_entered]
      have hout : net.nodes[a]? = none := Array.getElem?_eq_none (by rw [← hs.values]; omega)
      have hempty : net.entered ⟨a, p⟩ = [] := by
        rw [Network.entered, Array.getD_eq_getD_getElem?, hout]
        cases p <;> rfl
      rw [hempty]
      rfl
    have hsame : flipped s.values a = s.values :=
      Array.setIfInBounds_eq_of_size_le (by omega)
    simp [hnone, hsame]

theorem Exact.flip {net : Network α} (hw : net.Wired) {s : State α} (hs : Sized net s)
    (h : Exact net s) (a : Nat) : Exact net (s.flip net a) := by
  intro i c hc
  have hbook := rebooked_addPotentials net 1 (State.turned net s a)
    (net.nodes.getD a default).occurrences
  have htrue := trueLits_addPotentials net 1 (State.turned net s a)
    (net.nodes.getD a default).occurrences
  rw [flip_eq, countOf]
  dsimp only
  rw [htrue, hbook.values]
  exact h.turned hw hs a i c hc

theorem Exact.setInactive {net : Network α} {s : State α} (h : Exact net s) (i : Nat) (b : Bool) :
    Exact net (s.setInactive net i b) := by
  intro j d hd
  rcases setInactive_cases net s i b with he | ⟨c, -, -, he⟩ | ⟨c, -, -, he⟩
  · rw [he]
    exact h j d hd
  · rw [he, countOf_setFlag, countOf_withdraw, countOf_addPotential, values_setFlag,
      (rebooked_withdraw _ i c).values, (rebooked_addPotential net s i c (-1)).values]
    exact h j d hd
  · rw [he, countOf_addPotential, countOf_enter, countOf_setFlag,
      (rebooked_addPotential net _ i c 1).values, (rebooked_enter _ i c).values, values_setFlag]
    exact h j d hd

/-- On reachable states each counter is the number of true literals of its
constraint. -/
theorem exact_of_reachable {net : Network α} (hw : net.Wired) {s : State α}
    (h : Reachable net s) : Exact net s := by
  refine reachable_induction (P := Exact net) (exact_recompute net _)
    (fun s a hs he => he.flip hw (sized_of_reachable hs) a)
    (fun s i b _ he => he.setInactive i b) (fun s values _ _ _ => exact_recompute net _) ?_ h
  rintro s s' ⟨_, _, _, _, -, -, rfl⟩ he
  exact he

end State

end MarkovLogic
