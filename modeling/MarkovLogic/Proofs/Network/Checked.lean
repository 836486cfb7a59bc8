/-
MarkovLogic/Proofs/Network/Checked.lean

The counters of a search state never fall below zero.

Three subtractions are made on natural numbers: a flip takes literals off the
counter of a constraint, a constraint that stops being violated is taken off
the number of violated hard ones, and the age of a flip is the number of flips
less the number of that flip.  Each of them is made again here with a partial
subtraction, which has no result below zero (`withdraw?`, `shiftCount?`,
`flip?`, `fix?`, `setInactive?`, `isTabu?`).  On reachable states the partial
operations always have a result, and it is the result of the operation.

Behind it are two facts that hold in the middle of a flip too.  The number of
violated hard constraints is the number of hard ones in the list of violated
constraints (`Kept`), so a constraint on the list is in that number.  And the
occurrences that lose their truth are counted before the flip.  No law of
arithmetic is needed.

Main statement: `booked_of_reachable`.
-/
import Mathlib.Data.Nat.PSub
import MarkovLogic.LocalSearch
import MarkovLogic.Proofs.Extended
import MarkovLogic.Proofs.Network.Violations

namespace MarkovLogic

namespace State

variable {α : Type} [Scalar α] {net : Network α} {s s' : State α} {m : Nat} {P : Nat → Prop}

/-! ### The number of violated hard constraints -/

/-- Counting the hard ones in the list is counting them among all
constraints. -/
theorem Kept.hardViolations_eq (h : Kept net s) :
    s.hardViolations = net.constraints.toList.zipIdx.countP fun (c, i) =>
      !s.isInactive i && c.isViolated (s.countOf i) && c.isHard := by
  let due : Constraint α × Nat → Bool := fun e =>
    !s.isInactive e.2 && e.1.isViolated (s.countOf e.2) && e.1.isHard
  have hat (e : Constraint α × Nat) :
      e ∈ net.constraints.toList.zipIdx ↔ net.constraints[e.2]? = some e.1 := by
    rw [List.mem_zipIdx_iff_getElem?, Array.getElem?_toList]
  have hnodup : ((net.constraints.toList.zipIdx.filter due).map Prod.snd).Nodup := by
    refine List.Nodup.sublist (List.filter_sublist.map Prod.snd) ?_
    rw [List.zipIdx_map_snd]
    exact List.nodup_range'
  have hperm : (s.violated.toList.filter (isHardAt net)).Perm
      ((net.constraints.toList.zipIdx.filter due).map Prod.snd) := by
    refine (List.perm_ext_iff_of_nodup (h.listed.nodup.filter _) hnodup).2 fun i => ?_
    rw [List.mem_filter, Array.mem_toList_iff, h.listed.mem_iff, List.mem_map]
    constructor
    · rintro ⟨⟨c, hc, hactive, hviolated⟩, hhard⟩
      rw [isHardAt_eq hc] at hhard
      exact ⟨(c, i), List.mem_filter.2 ⟨(hat _).2 hc, by simp [due, hactive, hviolated, hhard]⟩,
        rfl⟩
    · rintro ⟨e, he, rfl⟩
      obtain ⟨hmem, hdue⟩ := List.mem_filter.1 he
      simp only [due, Bool.and_eq_true, Bool.not_eq_true'] at hdue
      have hc := (hat e).1 hmem
      exact ⟨⟨e.1, hc, hdue.1.1, hdue.1.2⟩, (isHardAt_eq hc).trans hdue.2⟩
  rw [h.tallied, List.countP_eq_length_filter, hperm.length_eq, List.length_map,
    ← List.countP_eq_length_filter]

/-! ### The number of the last flip -/

/-- No atom was flipped after the last flip. -/
def Timed (s : State α) : Prop :=
  ∀ a, s.lastFlip.getD a 0 ≤ s.flips

omit [Scalar α] in
theorem Timed.of_eq (h : s.Timed) (hflips : s'.flips = s.flips)
    (hlast : s'.lastFlip = s.lastFlip) : s'.Timed := by
  intro a
  rw [hflips, hlast]
  exact h a

theorem Timed.flip (h : s.Timed) (net : Network α) (a : Nat) : (s.flip net a).Timed := by
  have hbook := rebooked_flip net s a
  intro b
  rw [hbook.flips, hbook.lastFlip, getD_setIfInBounds]
  split
  · exact Nat.le_refl _
  · exact (h b).trans (Nat.le_succ _)

theorem timed_of_reachable (h : Reachable net s) : s.Timed := by
  have hrecompute {s : State α} (ht : s.Timed) : (s.recompute net).Timed :=
    ht.of_eq (rebooked_recompute net s).flips (rebooked_recompute net s).lastFlip
  refine reachable_induction (P := Timed) (hrecompute fun a => ?_)
    (fun s a _ ht => ht.flip net a) (fun s i b _ ht => ?_)
    (fun s values _ _ ht => hrecompute (s := { s with values }) ht) ?_ h
  · have hzero : (Array.replicate net.nodes.size 0).getD a 0 = 0 := by
      rw [Array.getD_eq_getD_getElem?, Array.getElem?_replicate]
      split <;> rfl
    exact hzero.le
  · obtain ⟨inactive, -, hbook⟩ := rebooked_setInactive net s i b
    exact ht.of_eq hbook.flips hbook.lastFlip
  · rintro s s' ⟨_, _, _, _, -, -, rfl⟩ ht
    exact ht

/-! ### Operations with partial subtraction -/

/-- Takes back what `enter` did, unless no violated hard constraint is counted
when one is to be taken off. -/
def withdraw? (s : State α) (i : Nat) (c : Constraint α) : Option (State α) :=
  if c.isViolated (s.countOf i) then
    match c.strength with
    | .hard => s.hardViolations.ppred.map fun n => { s with hardViolations := n }.dropViolated i
    | .soft w => some ({ s with softCost := s.softCost - Scalar.abs w }.dropViolated i)
  else some s

/-- Counts one true literal more or less, unless none is counted when one is to
be taken off. -/
def stepCount? (s : State α) (i : Nat) (becameTrue : Bool) : Option (State α) :=
  if becameTrue then some { s with trueLits := s.trueLits.setIfInBounds i (s.countOf i + 1) }
  else (s.countOf i).ppred.map fun n => { s with trueLits := s.trueLits.setIfInBounds i n }

/-- One literal of the constraint becomes true or false, unless a counter falls
below zero. -/
def shiftCount? (s : State α) (i : Nat) (becameTrue : Bool) (c : Constraint α) :
    Option (State α) :=
  if s.isInactive i then s.stepCount? i becameTrue
  else do
    let s ← s.withdraw? i c
    let s ← s.stepCount? i becameTrue
    some (s.enter i c)

/-- One literal of each of several constraints becomes true or false. -/
def shiftCounts? (net : Network α) (becameTrue : Bool) (s : State α) (is : List Nat) :
    Option (State α) :=
  is.foldlM (fun s i => match net.constraints[i]? with
    | none => some s
    | some c => s.shiftCount? i becameTrue c) s

/-- Flips an atom, unless a counter falls below zero. -/
def flip? (net : Network α) (s : State α) (a : Nat) : Option (State α) := do
  let node := net.nodes.getD a default
  let now := !s.value a
  let t ← shiftCounts? net now (released net s a) node.positive.toList
  let t ← shiftCounts? net (!now) t node.negative.toList
  let t := addPotentials net 1 t node.occurrences
  some { t with flips := t.flips + 1, lastFlip := t.lastFlip.setIfInBounds a (t.flips + 1) }

/-- Gives an atom a value and fixes it, unless a counter falls below zero. -/
def fix? (net : Network α) (s : State α) (a : Nat) (value : Bool) : Option (State α) := do
  let s ← if s.value a = value then some s else s.flip? net a
  some { s with fixing := s.fixing.setIfInBounds a (.fixed value) }

/-- Takes a constraint out of all sums, or back in, unless a counter falls below
zero. -/
def setInactive? (net : Network α) (s : State α) (i : Nat) (inactive : Bool) :
    Option (State α) :=
  if s.isInactive i = inactive then some s
  else match net.constraints[i]? with
    | none => some s
    | some c =>
      if inactive then
        ((s.addPotential net i c (-1)).withdraw? i c).map fun s => s.setFlag i true
      else some (((s.setFlag i false).enter i c).addPotential net i c 1)

/-- A violated constraint is in the list, so it can be taken off the number. -/
theorem withdraw?_eq_some (h : Tallied net s) (hl : s.Lists m P) {i : Nat} {c : Constraint α}
    (hc : net.constraints[i]? = some c) (hP : P i ↔ c.isViolated (s.countOf i) = true) :
    s.withdraw? i c = some (s.withdraw i c) := by
  unfold withdraw? withdraw
  split
  · rename_i hviolated
    cases hstrength : c.strength with
    | hard =>
      have hhard : c.isHard = true := by rw [Constraint.isHard, hstrength]
      have hpos := h.pos hc hhard ((hl.mem_iff i).2 (hP.2 hviolated))
      dsimp only
      rw [Nat.ppred_eq_pred hpos]
      rfl
    | soft w => rfl
  · rfl

theorem modify_eq_setIfInBounds (f : Nat → Nat) (xs : Array Nat) (i : Nat) :
    xs.modify i f = xs.setIfInBounds i (f (xs.getD i 0)) := by
  refine Array.ext_getElem? fun j => ?_
  rw [Array.getElem?_modify, Array.getElem?_setIfInBounds, Array.getD_eq_getD_getElem?]
  split
  · rename_i hij
    subst hij
    cases h : xs[i]? with
    | none => simpa using h
    | some n => simp [(Array.getElem?_eq_some_iff.1 h).1]
  · rfl

omit [Scalar α] in
theorem stepCount?_eq_some {i : Nat} {b : Bool} (hb : b = false → 0 < s.countOf i) :
    s.stepCount? i b = some (s.stepCount i b) := by
  unfold stepCount? stepCount
  rw [modify_eq_setIfInBounds]
  cases b
  · rw [if_neg Bool.false_ne_true, Nat.ppred_eq_pred (hb rfl)]
    rfl
  · rfl

theorem shiftCount?_eq_some (h : Kept net s) {i : Nat} {c : Constraint α}
    (hc : net.constraints[i]? = some c) {b : Bool} (hb : b = false → 0 < s.countOf i) :
    s.shiftCount? i b c = some (s.shiftCount i b c) := by
  unfold shiftCount?
  cases hin : s.isInactive i
  · have hout := withdraw?_eq_some h.tallied h.listed hc
      ((isDue_iff hc).trans (and_iff_right hin))
    have hstep : (s.withdraw i c).stepCount? i b = some ((s.withdraw i c).stepCount i b) :=
      stepCount?_eq_some (by rwa [countOf_withdraw])
    rw [shiftCount_of_active hin, if_neg Bool.false_ne_true, hout]
    exact congrArg (·.bind fun t => some (t.enter i c)) hstep
  · rw [shiftCount_of_inactive hin, if_pos rfl]
    exact stepCount?_eq_some hb

/-- As long as each constraint has as many true literals as it is to lose,
every one of them can be taken off. -/
theorem shiftCounts?_eq_some {b : Bool} {is : List Nat}
    (hs : s.trueLits.size = net.constraints.size) (h : Kept net s)
    (hb : b = false → ∀ i < net.constraints.size, is.count i ≤ s.countOf i) :
    shiftCounts? net b s is = some (shiftCounts net b s is) := by
  induction is generalizing s with
  | nil => rfl
  | cons i is ih =>
    unfold shiftCounts? at ih ⊢
    rw [List.foldlM_cons]
    rcases hc : net.constraints[i]? with _ | c
    · rw [shiftCounts_cons_of_eq_none hc]
      exact ih hs h fun hfalse j hj => le_trans List.count_le_count_cons (hb hfalse j hj)
    · obtain ⟨hi, -⟩ := Array.getElem?_eq_some_iff.mp hc
      have hpos : b = false → 0 < s.countOf i := fun hfalse => by
        have hle := hb hfalse i hi
        rw [List.count_cons_self] at hle
        omega
      have hrest : b = false → ∀ j < net.constraints.size,
          is.count j ≤ (s.shiftCount i b c).countOf j := by
        intro hfalse j hj
        have hle := hb hfalse j hj
        rcases eq_or_ne j i with rfl | hne
        · rw [countOf_shiftCount_self (hs.symm ▸ hi), hfalse]
          rw [List.count_cons_self] at hle
          simp only [Bool.false_eq_true, ↓reduceIte]
          omega
        · rw [countOf_shiftCount_of_ne s b c hne]
          rwa [List.count_cons_of_ne hne.symm] at hle
      rw [shiftCounts_cons_of_eq_some hc]
      dsimp only
      rw [shiftCount?_eq_some h hc hpos]
      exact ih ((rebooked_shiftCount s i b c).trueLits.trans hs) (h.shiftCount hc b) hrest

omit [Scalar α] in
/-- The literals of an atom that a flip makes false are among the true ones. -/
theorem count_entered_le (hw : net.Wired) (h : Exact net s) (a : Nat) {i : Nat}
    (hi : i < net.constraints.size) : (net.entered ⟨a, s.value a⟩).count i ≤ s.countOf i := by
  have hc := Array.getElem?_eq_getElem hi
  have hlits : net.litsAt i = net.constraints[i].lits := by simp [Network.litsAt, hc]
  rw [hw.count_entered, h i _ hc, hlits]
  refine List.countP_mono_left fun l _ hl => ?_
  rw [eq_of_beq hl]
  exact beq_self_eq_true _

end State

namespace LocalSearch

variable {α : Type}

/-- Whether an atom was flipped just before, unless its flip is still to come. -/
def isTabu? (settings : Settings α) (s : State α) (a : Nat) : Option Bool :=
  let last := s.lastFlip.getD a 0
  if 0 < settings.tabuLength && 0 < last then
    (s.flips.psub last).map fun age => decide (age < settings.tabuLength)
  else some false

theorem isTabu?_eq_some {s : State α} (h : s.Timed) (settings : Settings α) (a : Nat) :
    isTabu? settings s a = some (isTabu settings s a) := by
  unfold isTabu? isTabu
  dsimp only
  split
  · rename_i hasked
    rw [Nat.psub_eq_sub (h a), hasked]
    rfl
  · rename_i hasked
    rw [Bool.not_eq_true] at hasked
    rw [hasked]
    rfl

end LocalSearch

namespace State

variable {α : Type} [Scalar α] {net : Network α} {s : State α}

theorem flip?_eq_some (hw : net.Wired) (h : Reachable net s) (a : Nat) :
    s.flip? net a = some (s.flip net a) := by
  have hkept := (kept_of_reachable h).released a
  have hsize : (released net s a).trueLits.size = net.constraints.size :=
    ((sized_of_reachable h).released a).trueLits
  have hcount (i : Nat) : (released net s a).countOf i = s.countOf i := by
    have htrue := trueLits_addPotentials net (-1) s (net.nodes.getD a default).occurrences
    rw [countOf, countOf, released, htrue]
  have hle (i : Nat) (hi : i < net.constraints.size) :=
    count_entered_le hw (exact_of_reachable hw h) a hi
  -- the literals that become false are the positive ones if the atom was true
  have hpos : (!s.value a) = false → ∀ i < net.constraints.size,
      (net.nodes.getD a default).positive.toList.count i ≤ (released net s a).countOf i := by
    intro hv i hi
    have hentered := hle i hi
    rw [Bool.not_eq_false'] at hv
    rw [hv] at hentered
    rw [hcount]
    exact hentered
  -- and the negative ones if it was false; the positive ones have been added by then
  have hneg : (!!s.value a) = false → ∀ i < net.constraints.size,
      (net.nodes.getD a default).negative.toList.count i ≤
        (shiftCounts net (!s.value a) (released net s a)
          (net.nodes.getD a default).positive.toList).countOf i := by
    intro hv i hi
    have hentered := hle i hi
    rw [Bool.not_not] at hv
    rw [hv] at hentered
    rw [countOf_shiftCounts net _ _ hsize i hi, hcount, hv]
    exact hentered.trans (Nat.le_add_right _ _)
  unfold flip?
  dsimp only
  rw [shiftCounts?_eq_some hsize hkept hpos, Option.bind_eq_bind, Option.bind_some,
    shiftCounts?_eq_some ((rebooked_shiftCounts ..).trueLits.trans hsize)
      (hkept.shiftCounts _ _) hneg]
  rfl

theorem fix?_eq_some (hw : net.Wired) (h : Reachable net s) (a : Nat) (value : Bool) :
    s.fix? net a value = some (s.fix net a value) := by
  unfold fix? fix
  split
  · rfl
  · rw [flip?_eq_some hw h]
    rfl

theorem setInactive?_eq_some (h : Kept net s) (i : Nat) (b : Bool) :
    s.setInactive? net i b = some (s.setInactive net i b) := by
  unfold setInactive? setInactive onConstraint
  split
  · rfl
  · rename_i hne
    cases hc : net.constraints[i]? with
    | none => rfl
    | some c =>
      cases b with
      | false => rfl
      | true =>
        have hactive : (s.addPotential net i c (-1)).isInactive i = false :=
          ((rebooked_addPotential net s i c (-1)).isInactive i).trans (by simpa using hne)
        have hadd := h.addPotential i c (-1)
        have hout := withdraw?_eq_some hadd.tallied hadd.listed hc
          ((isDue_iff hc).trans (and_iff_right hactive))
        simp only [↓reduceIte, hout, Option.map_some]
        rfl

/-! ### Reachable states -/

/-- The bookkeeping of violations is exact, and no operation subtracts below
zero.  The operations that are not named subtract nothing. -/
structure Booked (net : Network α) (s : State α) : Prop where
  /-- Each counter is the number of true literals, of inactive constraints too. -/
  count : ∀ i c, net.constraints[i]? = some c → s.countOf i = c.countTrue s.values
  nodup : s.violated.toList.Nodup
  mem_iff : ∀ i, i ∈ s.violated ↔ ∃ c, net.constraints[i]? = some c ∧ s.isInactive i = false ∧
    c.isViolated (s.countOf i) = true
  place_iff : ∀ i p, s.violatedAt.getD i none = some p ↔ s.violated[p]? = some i
  hardViolations : s.hardViolations = net.constraints.toList.zipIdx.countP fun (c, i) =>
    !s.isInactive i && c.isViolated (s.countOf i) && c.isHard
  lastFlip : ∀ a, s.lastFlip.getD a 0 ≤ s.flips
  flip : ∀ a, s.flip? net a = some (s.flip net a)
  fix : ∀ a value, s.fix? net a value = some (s.fix net a value)
  setInactive : ∀ i b, s.setInactive? net i b = some (s.setInactive net i b)
  isTabu : ∀ settings a,
    LocalSearch.isTabu? settings s a = some (LocalSearch.isTabu settings s a)

/-- **The bookkeeping of violations is exact on every reachable state** of an
assembled network, whatever its constraints and its arithmetic are, and no
counter is ever taken below zero. -/
theorem booked_of_reachable {cliques : List (UInt64 × Clique α)} {extra : List Nat}
    {range : Option (Nat × Nat)} (h : Reachable (Network.assemble cliques extra range) s) :
    Booked (Network.assemble cliques extra range) s := by
  have hw := Network.wired_assemble cliques extra range
  have hkept := kept_of_reachable h
  exact {
    count := exact_of_reachable hw h
    nodup := hkept.listed.nodup
    mem_iff := hkept.listed.mem_iff
    place_iff := hkept.listed.place_iff
    hardViolations := hkept.hardViolations_eq
    lastFlip := timed_of_reachable h
    flip := flip?_eq_some hw h
    fix := fix?_eq_some hw h
    setInactive := setInactive?_eq_some hkept
    isTabu := LocalSearch.isTabu?_eq_some (timed_of_reachable h) }

/-- A hard clique with a literal and its complement, which a flip visits twice,
and two others over the same atoms. -/
def complementaryCliques : List (UInt64 × Clique (Extended ℚ)) := [
  (1, ⟨[-1, 1], .posInf, [(0, 1)]⟩),
  (2, ⟨[-1, 2], .posInf, [(1, 1)]⟩),
  (3, ⟨[1, -2], .finite (-2), [(2, 1)]⟩)]

theorem booked_complementaryCliques :
    let net := Network.assemble complementaryCliques [] none
    let s := ((((start net).flip net 0).setInactive net 0 true).fix net 1 true).flip net 0
    Reachable net s ∧ Booked net s := by
  intro net s
  have hreach : Reachable net s :=
    (((Relation.ReflTransGen.refl.tail (Step.flip 0)).tail (Step.setInactive 0 true)).tail
      (Step.fix 1 true)).tail (Step.flip 0)
  exact ⟨hreach, booked_of_reachable hreach⟩

end State

end MarkovLogic
