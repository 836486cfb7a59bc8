/-
MarkovLogic/Proofs/Network/Violations.lean

The list of violated constraints.

A search draws the constraint that it repairs from a list of all violated ones.
The list is kept together with the place of each member, so that a constraint
can be taken out by moving the last member to its place.  The places and the
list are inverse to each other (`Lists`), and both ways of changing the list
keep them so.

What the list holds (`Listed`) is stated with the counters of true literals,
because in the middle of a flip the counters are ahead of the assignment; on
reachable states they agree.  The number of violated hard constraints is counted
apart, and is the number of hard ones in the list (`Tallied`).  Since a constraint
is taken off that number when it leaves the list, the two are followed through
the operations together (`Kept`).  No law of arithmetic is needed.

Main statements: `kept_of_reachable`, and `mem_violated_iff`: on reachable states
the list holds exactly the active constraints that the assignment violates.
-/
import MarkovLogic.Proofs.Network.Counts

namespace MarkovLogic

namespace State

variable {α : Type}

/-! ### A list with places -/

/-- The list of violated constraints holds exactly those with a property, and
the place of each of them is on record; there are `m` constraints. -/
structure Lists (s : State α) (m : Nat) (P : Nat → Prop) : Prop where
  size : s.violatedAt.size = m
  place_iff : ∀ i p, s.violatedAt.getD i none = some p ↔ s.violated[p]? = some i
  mem_iff : ∀ i, i ∈ s.violated ↔ P i

variable {s s' : State α} {m : Nat} {P Q : Nat → Prop}

theorem Lists.congr (h : s.Lists m P) (hPQ : ∀ i, P i ↔ Q i) : s.Lists m Q :=
  ⟨h.size, h.place_iff, fun i => (h.mem_iff i).trans (hPQ i)⟩

/-- Only the list and the places count. -/
theorem Lists.of_eq (h : s.Lists m P) (hviolated : s'.violated = s.violated)
    (hat : s'.violatedAt = s.violatedAt) : s'.Lists m P where
  size := by rw [hat, h.size]
  place_iff := by
    rw [hviolated, hat]
    exact h.place_iff
  mem_iff := by
    rw [hviolated]
    exact h.mem_iff

/-- A constraint with the property has a place. -/
theorem Lists.exists_place (h : s.Lists m P) {i : Nat} (hi : P i) :
    ∃ p, s.violatedAt.getD i none = some p := by
  obtain ⟨p, hp⟩ := Array.getElem?_of_mem ((h.mem_iff i).2 hi)
  exact ⟨p, (h.place_iff i p).2 hp⟩

/-- A constraint that is not in the list goes to its end. -/
theorem Lists.pushViolated (h : s.Lists m P) {i : Nat} (hi : i < m) (hP : ¬ P i) :
    (s.pushViolated i).Lists m fun j => P j ∨ j = i := by
  refine ⟨Array.size_setIfInBounds.trans h.size, fun j p => ?_, fun j => ?_⟩
  · have hold := h.place_iff j p
    have hout : s.violated[p]? ≠ some i := fun hp =>
      hP ((h.mem_iff i).1 (Array.mem_of_getElem? hp))
    rw [← h.size] at hi
    simp only [State.pushViolated, Array.getD_eq_getD_getElem?, Array.getElem?_setIfInBounds,
      Array.getElem?_push] at hold ⊢
    grind
  · simp only [State.pushViolated, Array.mem_push, h.mem_iff]

/-- The last of the list moves to the place of the constraint that is taken
out. -/
theorem Lists.dropViolated (h : s.Lists m P) {i : Nat} (hP : P i) :
    (s.dropViolated i).Lists m fun j => P j ∧ j ≠ i := by
  obtain ⟨p, hp⟩ := h.exists_place hP
  have hpi := (h.place_iff i p).1 hp
  have hlt : p < s.violated.size := (Array.getElem?_eq_some_iff.1 hpi).1
  obtain ⟨moved, hmoved⟩ : ∃ moved, s.violated[s.violated.size - 1]? = some moved :=
    ⟨_, Array.getElem?_eq_getElem (by omega)⟩
  have hlast := (h.place_iff moved (s.violated.size - 1)).2 hmoved
  have hat : s.violatedAt[i]?.getD none = some p := by rwa [← Array.getD_eq_getD_getElem?]
  rw [Array.getD_eq_getD_getElem?] at hlast
  have hplace : ∀ j q, ((s.dropViolated i).violatedAt.getD j none = some q ↔
      (s.dropViolated i).violated[q]? = some j) := by
    intro j q
    have hold := h.place_iff j
    simp only [State.dropViolated, hp, Array.back?, hmoved, Array.size_pop,
      Array.size_setIfInBounds, Array.getD_eq_getD_getElem?] at hold ⊢
    split <;> simp only [Array.getElem?_setIfInBounds, Array.getElem?_pop, Array.size_setIfInBounds]
    · grind
    · grind
  refine ⟨?_, hplace, fun j => ?_⟩
  · rw [← h.size]
    simp only [State.dropViolated, hp, Array.back?, hmoved]
    split <;> simp only [Array.size_setIfInBounds]
  · -- a member is a constraint with a place
    simp only [← h.mem_iff, Array.mem_iff_getElem?, ← hplace, ← h.place_iff]
    simp only [State.dropViolated, hp, Array.back?, hmoved, Array.size_pop,
      Array.size_setIfInBounds, Array.getD_eq_getD_getElem?]
    split <;> simp only [Array.getElem?_setIfInBounds, Array.size_setIfInBounds]
    · grind
    · grind

/-- A constraint has one place only, so the list has no repetitions. -/
theorem Lists.nodup (h : s.Lists m P) : s.violated.toList.Nodup := by
  rw [List.nodup_iff_injective_get]
  intro p q hpq
  have hp := (h.place_iff _ p).2 (Array.getElem?_eq_getElem p.isLt)
  have hq := (h.place_iff _ q).2 (Array.getElem?_eq_getElem q.isLt)
  have hsame : s.violated[p.val] = s.violated[q.val] := by simpa using hpq
  rw [hsame, hq] at hp
  exact Fin.ext (Option.some.inj hp).symm

variable [Scalar α]

/-- A constraint enters the list if it is violated. -/
theorem Lists.enter (h : s.Lists m P) {i : Nat} (hi : i < m) (hP : ¬ P i) (c : Constraint α) :
    (s.enter i c).Lists m fun j => P j ∨ j = i ∧ c.isViolated (s.countOf i) = true := by
  rw [State.enter]
  split
  · rename_i hviolated
    refine Lists.congr (P := fun j => P j ∨ j = i) ?_ fun j => by rw [and_iff_left hviolated]
    refine Lists.pushViolated ?_ hi hP
    cases c.strength
    · exact h.of_eq rfl rfl
    · exact h.of_eq rfl rfl
  · rename_i hviolated
    exact h.congr fun j => by simp [hviolated]

/-- A constraint leaves the list if it was in it. -/
theorem Lists.withdraw (h : s.Lists m P) {i : Nat} {c : Constraint α}
    (hP : P i ↔ c.isViolated (s.countOf i) = true) :
    (s.withdraw i c).Lists m fun j => P j ∧ j ≠ i := by
  rw [State.withdraw]
  split
  · rename_i hviolated
    refine Lists.dropViolated ?_ (hP.2 hviolated)
    cases c.strength
    · exact h.of_eq rfl rfl
    · exact h.of_eq rfl rfl
  · rename_i hviolated
    refine h.congr fun j => ⟨fun hj => ⟨hj, ?_⟩, And.left⟩
    rintro rfl
    exact hviolated (hP.1 hj)

/-! ### The constraints that belong to the list -/

variable {net : Network α}

/-- The constraint is active, and violated if its counter is right. -/
def IsDue (net : Network α) (s : State α) (i : Nat) : Prop :=
  ∃ c, net.constraints[i]? = some c ∧ s.isInactive i = false ∧ c.isViolated (s.countOf i) = true

/-- The list holds the constraints that belong to it. -/
def Listed (net : Network α) (s : State α) : Prop :=
  s.Lists net.constraints.size (s.IsDue net)

theorem isDue_iff {i : Nat} {c : Constraint α} (hc : net.constraints[i]? = some c) :
    s.IsDue net i ↔ s.isInactive i = false ∧ c.isViolated (s.countOf i) = true := by
  simp [IsDue, hc]

theorem isDue_congr {i : Nat} (hinactive : s'.isInactive i = s.isInactive i)
    (hcount : s'.countOf i = s.countOf i) : s'.IsDue net i ↔ s.IsDue net i := by
  rw [IsDue, IsDue, hinactive, hcount]

theorem Listed.of_eq (h : Listed net s) (hviolated : s'.violated = s.violated)
    (hat : s'.violatedAt = s.violatedAt) (htrue : s'.trueLits = s.trueLits)
    (hinactive : s'.inactive = s.inactive) : Listed net s' := by
  refine (Lists.of_eq h hviolated hat).congr fun i => ?_
  refine (isDue_congr ?_ ?_).symm
  · rw [isInactive, isInactive, hinactive]
  · rw [countOf, countOf, htrue]

/-- When a counter moves, its constraint leaves the list and comes back if it
is violated then. -/
theorem Listed.shiftCount (h : Listed net s) {i : Nat} {c : Constraint α}
    (hc : net.constraints[i]? = some c) (b : Bool) : Listed net (s.shiftCount i b c) := by
  obtain ⟨hi, -⟩ := Array.getElem?_eq_some_iff.mp hc
  have hother : ∀ j, j ≠ i → ((s.shiftCount i b c).IsDue net j ↔ s.IsDue net j) := fun j hne =>
    isDue_congr ((rebooked_shiftCount s i b c).isInactive j) (countOf_shiftCount_of_ne s b c hne)
  have hself := isDue_iff (s := s.shiftCount i b c) hc
  rw [(rebooked_shiftCount s i b c).isInactive] at hself
  cases hin : s.isInactive i
  · rw [shiftCount_of_active hin] at hother hself ⊢
    rw [countOf_enter] at hself
    have hout : (s.withdraw i c).Lists _ fun j => s.IsDue net j ∧ j ≠ i :=
      Lists.withdraw h ((isDue_iff hc).trans (and_iff_right hin))
    have hstep : ((s.withdraw i c).stepCount i b).Lists _ fun j => s.IsDue net j ∧ j ≠ i :=
      hout.of_eq rfl rfl
    refine (hstep.enter hi (by simp) c).congr fun j => ?_
    rcases eq_or_ne j i with rfl | hne
    · rw [hself]
      simp [hin]
    · rw [hother j hne]
      simp [hne]
  · -- an inactive constraint is in the list neither before nor after
    rw [shiftCount_of_inactive hin] at hother hself ⊢
    refine (Lists.of_eq h rfl rfl : (s.stepCount i b).Lists _ _).congr fun j => ?_
    rcases eq_or_ne j i with rfl | hne
    · rw [hself, isDue_iff hc, hin]
      simp
    · exact (hother j hne).symm

/-! ### The number of violated hard constraints -/

/-- Whether the constraint with the given index is hard. -/
def isHardAt (net : Network α) (i : Nat) : Bool :=
  net.constraints[i]?.any Constraint.isHard

/-- The number of violated hard constraints is that of the list. -/
def Tallied (net : Network α) (s : State α) : Prop :=
  s.hardViolations = s.violated.toList.countP (isHardAt net)

omit [Scalar α] in
theorem isHardAt_eq {i : Nat} {c : Constraint α} (hc : net.constraints[i]? = some c) :
    isHardAt net i = c.isHard := by
  rw [isHardAt, hc, Option.any_some]

omit [Scalar α] in
theorem Tallied.of_eq (h : Tallied net s) (hviolated : s'.violated = s.violated)
    (hhard : s'.hardViolations = s.hardViolations) : Tallied net s' := by
  rw [Tallied, hviolated, hhard, h]

omit [Scalar α] in
/-- A hard constraint on the list is in the number. -/
theorem Tallied.pos (h : Tallied net s) {i : Nat} {c : Constraint α}
    (hc : net.constraints[i]? = some c) (hhard : c.isHard = true) (hi : i ∈ s.violated) :
    0 < s.hardViolations := by
  rw [h, List.countP_pos_iff]
  exact ⟨i, Array.mem_toList_iff.2 hi, (isHardAt_eq hc).trans hhard⟩

theorem Tallied.enter (h : Tallied net s) {i : Nat} {c : Constraint α}
    (hc : net.constraints[i]? = some c) : Tallied net (s.enter i c) := by
  have hat := isHardAt_eq hc
  unfold State.enter
  split
  · cases hstrength : c.strength <;>
      simp [Tallied, State.pushViolated, hat, Constraint.isHard, hstrength, h.symm]
  · exact h

/-- What is left of the list when a constraint is withdrawn. -/
theorem perm_violated_withdraw (hl : s.Lists m P) {i : Nat} {c : Constraint α}
    (hP : P i ↔ c.isViolated (s.countOf i) = true) :
    (s.withdraw i c).violated.toList.Perm (s.violated.toList.erase i) := by
  have hout := hl.withdraw hP
  refine (List.perm_ext_iff_of_nodup hout.nodup (hl.nodup.erase i)).2 fun j => ?_
  rw [hl.nodup.mem_erase_iff, Array.mem_toList_iff, Array.mem_toList_iff, hout.mem_iff,
    hl.mem_iff]
  exact and_comm

theorem hardViolations_withdraw_eq (s : State α) (i : Nat) (c : Constraint α) :
    (s.withdraw i c).hardViolations =
      s.hardViolations - if c.isViolated (s.countOf i) = true ∧ c.isHard = true then 1 else 0 := by
  unfold withdraw
  split
  · rename_i hviolated
    cases hstrength : c.strength <;> simp [Constraint.isHard, hstrength, hviolated]
  · rename_i hviolated
    simp [hviolated]

theorem Tallied.withdraw (h : Tallied net s) (hl : s.Lists m P) {i : Nat} {c : Constraint α}
    (hc : net.constraints[i]? = some c) (hP : P i ↔ c.isViolated (s.countOf i) = true) :
    Tallied net (s.withdraw i c) := by
  have hmem : i ∈ s.violated.toList ↔ c.isViolated (s.countOf i) = true := by
    rw [Array.mem_toList_iff, hl.mem_iff, hP]
  rw [Tallied, (perm_violated_withdraw hl hP).countP_eq, List.countP_erase, isHardAt_eq hc,
    hardViolations_withdraw_eq, h]
  simp only [hmem]

/-! ### List and number together -/

/-- The list of violated constraints and the number of hard ones are right for
the counters. -/
structure Kept (net : Network α) (s : State α) : Prop where
  listed : Listed net s
  tallied : Tallied net s

namespace Kept

theorem of_eq (h : Kept net s) (hviolated : s'.violated = s.violated)
    (hat : s'.violatedAt = s.violatedAt) (htrue : s'.trueLits = s.trueLits)
    (hinactive : s'.inactive = s.inactive) (hhard : s'.hardViolations = s.hardViolations) :
    Kept net s' :=
  ⟨h.listed.of_eq hviolated hat htrue hinactive, h.tallied.of_eq hviolated hhard⟩

theorem addPotential (h : Kept net s) (i : Nat) (c : Constraint α) (sign : α) :
    Kept net (s.addPotential net i c sign) := by
  obtain ⟨makeSums, breakSums, -, -, he⟩ := exists_addPotential_eq net s i c sign
  rw [he]
  exact h.of_eq rfl rfl rfl rfl rfl

theorem addPotentials (h : Kept net s) (sign : α) (is : List Nat) :
    Kept net (addPotentials net sign s is) :=
  addPotentials_induction (fun _ i c _ ht => ht.addPotential i c sign) is h

theorem shiftCount (h : Kept net s) {i : Nat} {c : Constraint α}
    (hc : net.constraints[i]? = some c) (b : Bool) : Kept net (s.shiftCount i b c) := by
  refine ⟨h.listed.shiftCount hc b, ?_⟩
  cases hin : s.isInactive i
  · have hout := h.tallied.withdraw h.listed hc ((isDue_iff hc).trans (and_iff_right hin))
    have hstep : Tallied net ((s.withdraw i c).stepCount i b) := hout.of_eq rfl rfl
    rw [shiftCount_of_active hin]
    exact hstep.enter hc
  · rw [shiftCount_of_inactive hin]
    exact h.tallied.of_eq rfl rfl

theorem shiftCounts (h : Kept net s) (b : Bool) (is : List Nat) :
    Kept net (shiftCounts net b s is) :=
  shiftCounts_induction (fun _ _ _ hc ht => ht.shiftCount hc b) is h

theorem released (h : Kept net s) (a : Nat) : Kept net (released net s a) :=
  (h.addPotentials (-1) _).of_eq rfl rfl rfl rfl rfl

theorem flip (h : Kept net s) (a : Nat) : Kept net (s.flip net a) :=
  ((((h.released a).shiftCounts _ _).shiftCounts _ _).addPotentials 1 _).of_eq rfl rfl rfl rfl rfl

/-- A constraint that becomes inactive leaves the list, whether it was violated or
not. -/
theorem deactivate (h : Kept net s) (hs : Sized net s) {i : Nat} {c : Constraint α}
    (hc : net.constraints[i]? = some c) (hin : s.isInactive i = false) :
    Kept net ((s.withdraw i c).setFlag i true) := by
  have hdue := (isDue_iff hc).trans (and_iff_right hin)
  have hsize := hs.rebooked (rebooked_withdraw s i c)
  have hout : Lists ((s.withdraw i c).setFlag i true) _ _ :=
    (h.listed.withdraw hdue).of_eq rfl rfl
  refine ⟨hout.congr fun j => ?_, (h.tallied.withdraw h.listed hc hdue).of_eq rfl rfl⟩
  rcases eq_or_ne j i with rfl | hne
  · rw [isDue_iff (s := setFlag _ j true) hc, hsize.isInactive_setFlag hc]
    simp
  · rw [and_iff_left hne]
    refine (isDue_congr ?_ ?_).symm
    · rw [isInactive_setFlag_of_ne _ hne, (rebooked_withdraw s i c).isInactive]
    · rw [countOf_setFlag, countOf_withdraw]

/-- One that becomes active is listed if it is violated. -/
theorem activate (h : Kept net s) (hs : Sized net s) {i : Nat} {c : Constraint α}
    (hc : net.constraints[i]? = some c) (hin : s.isInactive i = true) :
    Kept net ((s.setFlag i false).enter i c) := by
  obtain ⟨hi, -⟩ := Array.getElem?_eq_some_iff.mp hc
  have hflag := hs.isInactive_setFlag hc false
  have hnot : ¬ s.IsDue net i := by simp [isDue_iff hc, hin]
  have hlists : (s.setFlag i false).Lists _ (s.IsDue net) := Lists.of_eq h.listed rfl rfl
  have htallied : Tallied net (s.setFlag i false) := h.tallied.of_eq rfl rfl
  refine ⟨(hlists.enter hi hnot c).congr fun j => ?_, htallied.enter hc⟩
  rcases eq_or_ne j i with rfl | hne
  · rw [isDue_iff (s := (s.setFlag j false).enter j c) hc, (rebooked_enter _ j c).isInactive,
      hflag, countOf_enter]
    simp [hnot]
  · rw [or_iff_left (fun hj => hne hj.1)]
    refine (isDue_congr ?_ ?_).symm
    · rw [(rebooked_enter _ i c).isInactive, isInactive_setFlag_of_ne _ hne]
    · rw [countOf_enter, countOf_setFlag]

theorem setInactive (h : Kept net s) (hs : Sized net s) (i : Nat) (b : Bool) :
    Kept net (s.setInactive net i b) := by
  rcases setInactive_cases net s i b with he | ⟨c, hc, hin, he⟩ | ⟨c, hc, hin, he⟩
  · rwa [he]
  · have hbook := rebooked_addPotential net s i c (-1)
    rw [he]
    exact (h.addPotential i c (-1)).deactivate (hs.rebooked hbook) hc
      ((hbook.isInactive i).trans hin)
  · rw [he]
    exact (h.activate hs hc hin).addPotential i c 1

end Kept

/-! ### Recomputation -/

/-- Entering constraints one after the other puts those that are due into the
list. -/
theorem lists_foldl_account {entries : List (Constraint α × Nat)}
    (hentries : ∀ e ∈ entries, net.constraints[e.2]? = some e.1)
    (hnodup : (entries.map Prod.snd).Nodup) (h : s.Lists net.constraints.size P)
    (hP : ∀ e ∈ entries, ¬ P e.2) :
    (entries.foldl (account net) s).Lists net.constraints.size fun j =>
      P j ∨ j ∈ entries.map Prod.snd ∧ s.IsDue net j := by
  induction entries generalizing s P with
  | nil => exact h.congr fun j => by simp
  | cons e entries ih =>
    obtain ⟨hc, hrest⟩ := List.forall_mem_cons.mp hentries
    obtain ⟨hPe, hPrest⟩ := List.forall_mem_cons.mp hP
    rw [List.map_cons, List.nodup_cons] at hnodup
    obtain ⟨hi, -⟩ := Array.getElem?_eq_some_iff.mp hc
    -- accounting does not change which constraints are due, only which are listed
    have hsame : ∀ j, (account net s e).IsDue net j ↔ s.IsDue net j := fun j =>
      isDue_congr ((rebooked_account net s e).isInactive j) (countOf_account net s e j)
    have hstep : (account net s e).Lists net.constraints.size fun j =>
        P j ∨ j = e.2 ∧ s.IsDue net j := by
      unfold account
      cases hin : s.isInactive e.2
      · have hentered := (h.enter hi hPe e.1).congr (Q := fun j => P j ∨ j = e.2 ∧ s.IsDue net j)
          fun j => or_congr_right (and_congr_right fun hj => by rw [hj, isDue_iff hc, hin]; simp)
        rw [if_neg Bool.false_ne_true]
        obtain ⟨makeSums, breakSums, -, -, he⟩ :=
          exists_addPotential_eq net (s.enter e.2 e.1) e.2 e.1 1
        rw [he]
        exact hentered.of_eq rfl rfl
      · rw [if_pos rfl]
        refine h.congr fun j => (or_iff_left ?_).symm
        rintro ⟨rfl, hdue⟩
        rw [isDue_iff hc, hin] at hdue
        exact absurd hdue.1 (by simp)
    refine (ih hrest hnodup.2 hstep ?_).congr fun j => ?_
    · rintro e' he' (hP' | ⟨hj, -⟩)
      · exact hPrest e' he' hP'
      · exact hnodup.1 (hj ▸ List.mem_map_of_mem he')
    · rw [hsame, List.map_cons, List.mem_cons, or_and_right, or_assoc]

theorem listed_recompute (hsize : s.violatedAt.size = net.constraints.size) :
    Listed net (s.recompute net) := by
  have hentries : ∀ e ∈ net.constraints.toList.zipIdx, net.constraints[e.2]? = some e.1 := by
    intro e he
    have hat := List.mem_zipIdx_iff_getElem?.mp he
    rwa [Array.getElem?_toList] at hat
  have hclear : (cleared net s).Lists net.constraints.size fun _ => False := by
    refine ⟨by rw [cleared, Array.size_map, hsize], fun i p => ?_, fun i => by simp [cleared]⟩
    simp only [cleared, Array.getD_eq_getD_getElem?, Array.getElem?_map, List.getElem?_toArray,
      List.getElem?_nil]
    cases s.violatedAt[i]? <;> simp
  rw [Listed, recompute_eq]
  refine (lists_foldl_account hentries ?_ hclear fun _ _ => not_false).congr fun j => ?_
  · rw [List.zipIdx_map_snd]
    exact List.nodup_range'
  · rw [← recompute_eq, false_or, isDue_congr ((rebooked_recompute net s).isInactive j)
      (by rw [countOf, trueLits_recompute]; rfl)]
    refine and_iff_right_of_imp ?_
    rintro ⟨c, hc, -⟩
    obtain ⟨hj, -⟩ := Array.getElem?_eq_some_iff.mp hc
    simp [List.zipIdx_map_snd, List.mem_range'_1, hj]

theorem tallied_recompute (net : Network α) (s : State α) : Tallied net (s.recompute net) := by
  rw [recompute_eq]
  refine List.foldlRecOn (motive := Tallied net) _ _ rfl fun t ht e he => ?_
  have hc := List.mem_zipIdx_iff_getElem?.mp he
  rw [Array.getElem?_toList] at hc
  unfold account
  split
  · exact ht
  · obtain ⟨makeSums, breakSums, -, -, hadd⟩ :=
      exists_addPotential_eq net (t.enter e.2 e.1) e.2 e.1 1
    rw [hadd]
    exact (ht.enter hc).of_eq rfl rfl

theorem kept_recompute (hsize : s.violatedAt.size = net.constraints.size) :
    Kept net (s.recompute net) :=
  ⟨listed_recompute hsize, tallied_recompute net s⟩

/-! ### Reachable states -/

theorem kept_of_reachable (h : Reachable net s) : Kept net s := by
  refine reachable_induction (P := Kept net) (kept_recompute Array.size_replicate)
    (fun s a _ hk => hk.flip a)
    (fun s i b hs hk => hk.setInactive (sized_of_reachable hs) i b)
    (fun s values hs _ _ => kept_recompute (sized_of_reachable hs).violatedAt) ?_ h
  rintro s s' ⟨_, _, _, _, -, -, rfl⟩ hk
  exact hk.of_eq rfl rfl rfl rfl rfl

/-- On reachable states the list holds exactly the active constraints that the
assignment violates. -/
theorem mem_violated_iff (hw : net.Wired) (h : Reachable net s) {i : Nat} :
    i ∈ s.violated ↔ ∃ c, net.constraints[i]? = some c ∧ s.isInactive i = false ∧
      c.isViolated (c.countTrue s.values) = true := by
  rw [(kept_of_reachable h).listed.mem_iff]
  refine exists_congr fun c => and_congr_right fun hc => ?_
  rw [exact_of_reachable hw h i c hc]

end State

end MarkovLogic
