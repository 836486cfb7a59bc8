/-
MarkovLogic/Proofs/Network/Potentials.lean

Make and break costs.

A flip of an atom turns a constraint around if it violates the constraint or
mends it.  The make cost of an atom is to be the price of the active
constraints that flipping it would mend, the break cost the price of those it
would violate; both are one definition here, `turnOf`, with the present state
of the constraint as a parameter.

Two things have to be shown.  First, the rule by which a constraint enters the
sums, which only looks at the number of its true literals, enters it for those
atoms that turn it (`turnOf_eq`); this is where an atom must not occur twice in
a constraint.  Second, an operation that changes the assignment takes out and
puts back the parts of all constraints whose parts can change: those where the
flipped atom occurs (`Balanced.flip`).

Main statement: `balanced_of_reachable`.
-/
import MarkovLogic.Proofs.Network.Costs

namespace MarkovLogic

variable {K : Type} [Field K] [LinearOrder K] [FloorRing K]

namespace State

/-! ### Which atoms turn a constraint -/

/-- The price of the constraint if it is violated as `now` says and a flip of
the atom would change that; otherwise nothing. -/
def turnOf (net : Network (Extended K)) (c : Constraint (Extended K)) (values : Array Bool)
    (now : Bool) (a : Nat) : K :=
  if c.isViolated (c.countTrue values) = now ∧
      c.isViolated (c.countTrue (flipped values a)) = !now then
    (net.price c).value
  else 0

/-- The atoms for which a constraint with so many true literals enters the sum
of the atoms that turn it. -/
def turners (c : Constraint (Extended K)) (values : Array Bool) (trueLiterals : Nat)
    (now : Bool) : List Nat :=
  match trueLiterals with
  | 0 => if c.isPositive = now then c.lits.map NetLiteral.atom else []
  | 1 =>
    match c.lits.find? fun l => values.getD l.atom false == l.positive with
    | none => []
    | some l => if c.isPositive = now then [] else [l.atom]
  | _ => []

/-- The make cost of an atom, or its break cost. -/
def sumOf (s : State (Extended K)) (now : Bool) (a : Nat) : Extended K :=
  if now then s.makeCost a else s.breakCost a

section Counting

variable {β : Type} {c : Constraint β} {values : Array Bool} {a : Nat}

/-- A literal of the atom that is true is counted. -/
theorem count_le_countTrue : c.lits.count ⟨a, values.getD a false⟩ ≤ c.countTrue values := by
  refine List.countP_mono_left fun l _ hl => ?_
  rw [eq_of_beq hl]
  simp

theorem count_add_count_le (hnodup : (c.lits.map NetLiteral.atom).Nodup) (v : Bool) :
    c.lits.count ⟨a, v⟩ + c.lits.count ⟨a, !v⟩ ≤ 1 := by
  have hatom := List.nodup_iff_count_le_one.mp hnodup a
  refine le_trans ?_ hatom
  unfold List.count
  rw [List.countP_map]
  induction c.lits with
  | nil => simp
  | cons l ls ih =>
    simp only [List.countP_cons]
    obtain ⟨b, p⟩ := l
    rcases eq_or_ne b a with rfl | hne
    · cases p <;> cases v <;> simp at ih ⊢ <;> omega
    · have hcons (p q : Bool) : ((⟨b, p⟩ : NetLiteral) == ⟨a, q⟩) = false := by
        simp [hne]
      simp only [hcons, Function.comp_apply, hne, beq_iff_eq] at ih ⊢
      simpa using ih

/-- With no true literal, the atoms of the constraint make one true. -/
theorem one_le_countTrue_flipped_iff (ha : a < values.size) (h : c.countTrue values = 0) :
    1 ≤ c.countTrue (flipped values a) ↔ a ∈ c.lits.map NetLiteral.atom := by
  have hflip := countTrue_flip c ha
  have hle : c.lits.count ⟨a, values.getD a false⟩ ≤ c.countTrue values := count_le_countTrue
  have hcount : c.countTrue (flipped values a) = c.lits.count ⟨a, !values.getD a false⟩ := by
    omega
  rw [hcount, Nat.one_le_iff_ne_zero, ← Nat.pos_iff_ne_zero, List.count_pos_iff, List.mem_map]
  constructor
  · exact fun hmem => ⟨_, hmem, rfl⟩
  · rintro ⟨⟨b, p⟩, hmem, rfl⟩
    -- the other polarity would be a true literal
    have hfalse : p ≠ values.getD b false := by
      rintro rfl
      have hpos := List.count_pos_iff.mpr hmem
      dsimp only at hle
      omega
    have hp : p = !values.getD b false := by
      cases p <;> cases hv : values.getD b false <;> simp_all
    rwa [← hp]

/-- With one true literal, its atom makes all of them false. -/
theorem countTrue_flipped_eq_zero_iff (hnodup : (c.lits.map NetLiteral.atom).Nodup)
    (ha : a < values.size) (h : c.countTrue values = 1) {l : NetLiteral}
    (hl : c.lits.find? (fun l => values.getD l.atom false == l.positive) = some l) :
    c.countTrue (flipped values a) = 0 ↔ a = l.atom := by
  have hflip := countTrue_flip c ha
  have hle : c.lits.count ⟨a, values.getD a false⟩ ≤ c.countTrue values := count_le_countTrue
  have hone := count_add_count_le hnodup (values.getD a false) (a := a)
  have hmem := List.mem_of_find?_eq_some hl
  have htrue : values.getD l.atom false = l.positive := by
    simpa using List.find?_some hl
  constructor
  · intro hzero
    have hcount : 0 < c.lits.count ⟨a, values.getD a false⟩ := by omega
    have ha' := List.count_pos_iff.mp hcount
    by_contra hne
    -- the true literals of the two atoms would both be counted
    have htwo : 2 ≤ c.countTrue values := by
      have hsub : List.Subperm [⟨a, values.getD a false⟩, l] c.lits := by
        refine List.subperm_of_subset ?_ ?_
        · simp only [List.nodup_cons, List.mem_singleton, List.not_mem_nil, not_false_iff,
            List.nodup_nil, and_true]
          rintro rfl
          exact hne rfl
        · intro x hx
          rcases List.mem_cons.mp hx with rfl | hx
          · exact ha'
          · rwa [List.mem_singleton.mp hx]
      refine le_trans (le_of_eq ?_) (hsub.countP_le _)
      simp [-Array.getD_eq_getD_getElem?, htrue]
    omega
  · rintro rfl
    have hcount : 0 < c.lits.count ⟨l.atom, values.getD l.atom false⟩ := by
      rw [List.count_pos_iff, htrue]
      exact hmem
    omega

/-- With two true literals or more, no flip makes all of them false. -/
theorem one_le_countTrue_flipped (hnodup : (c.lits.map NetLiteral.atom).Nodup)
    (ha : a < values.size) (h : 2 ≤ c.countTrue values) : 1 ≤ c.countTrue (flipped values a) := by
  have hflip := countTrue_flip c ha
  have hone := count_add_count_le hnodup (values.getD a false) (a := a)
  omega

end Counting

theorem turners_one {c : Constraint (Extended K)} {values : Array Bool} {l : NetLiteral}
    (hl : c.lits.find? (fun l => values.getD l.atom false == l.positive) = some l) (now : Bool) :
    turners c values 1 now = if c.isPositive = now then [] else [l.atom] := by
  simp only [turners, hl]

theorem turners_subset {c : Constraint (Extended K)} {values : Array Bool} {n : Nat} {now : Bool}
    {a : Nat} (h : a ∈ turners c values n now) : a ∈ c.lits.map NetLiteral.atom := by
  unfold turners at h
  split at h
  · split at h
    · exact h
    · simp at h
  · split at h
    · simp at h
    · rename_i l hl
      split at h
      · simp at h
      · rw [List.mem_singleton.mp h]
        exact List.mem_map_of_mem (List.mem_of_find?_eq_some hl)
  · simp at h

/-- An atom of the network turns a constraint exactly if the constraint enters
the sum for it. -/
theorem turns_iff {c : Constraint (Extended K)} {values : Array Bool}
    (hnodup : (c.lits.map NetLiteral.atom).Nodup) (now : Bool) {a : Nat} (ha : a < values.size) :
    (c.isViolated (c.countTrue values) = now ∧
      c.isViolated (c.countTrue (flipped values a)) = !now) ↔
      a ∈ turners c values (c.countTrue values) now := by
  unfold Constraint.isViolated
  rcases hn : c.countTrue values with _ | _ | n
  · -- no true literal: the constraint turns when one becomes true
    have hone := one_le_countTrue_flipped_iff ha hn
    unfold turners
    by_cases hmem : a ∈ c.lits.map NetLiteral.atom
    · rw [decide_eq_true (hone.mpr hmem)]
      cases c.isPositive <;> cases now <;> simp only [↓reduceIte] <;> simp [hmem]
    · rw [decide_eq_false (mt hone.mp hmem)]
      cases c.isPositive <;> cases now <;> simp only [↓reduceIte] <;> simp [hmem]
  · -- one true literal: the constraint turns when it becomes false
    rcases hl : c.lits.find? (fun l => values.getD l.atom false == l.positive) with _ | l
    · have hnone : c.countTrue values = 0 := by
        rw [Constraint.countTrue, List.countP_eq_zero]
        exact List.find?_eq_none.mp hl
      omega
    · have hzero := countTrue_flipped_eq_zero_iff hnodup ha hn hl
      rw [turners_one hl]
      by_cases heq : a = l.atom
      · rw [hzero.mpr heq]
        cases c.isPositive <;> cases now <;> simp [heq]
      · have hpos : 1 ≤ c.countTrue (flipped values a) :=
          Nat.one_le_iff_ne_zero.mpr (mt hzero.mp heq)
        rw [decide_eq_true hpos]
        cases c.isPositive <;> cases now <;> simp [heq]
  · -- more true literals: the constraint does not turn
    have htwo : 2 ≤ c.countTrue values := by omega
    rw [decide_eq_true (one_le_countTrue_flipped hnodup ha htwo)]
    cases c.isPositive <;> cases now <;> simp [turners]

theorem turnOf_eq (net : Network (Extended K)) {c : Constraint (Extended K)} {values : Array Bool}
    (hnodup : (c.lits.map NetLiteral.atom).Nodup)
    (hbound : ∀ l ∈ c.lits, l.atom < values.size) (now : Bool) (a : Nat) :
    turnOf net c values now a =
      if a ∈ turners c values (c.countTrue values) now then (net.price c).value else 0 := by
  unfold turnOf
  by_cases ha : a < values.size
  · rw [if_congr (turns_iff hnodup now ha) rfl rfl]
  · -- a flip of an atom outside of the network changes nothing
    have hsame : flipped values a = values := Array.setIfInBounds_eq_of_size_le (by omega)
    have hout : a ∉ turners c values (c.countTrue values) now := by
      intro hmem
      obtain ⟨l, hl, rfl⟩ := List.mem_map.mp (turners_subset hmem)
      exact ha (hbound l hl)
    rw [hsame, if_neg hout, if_neg]
    rintro ⟨hnow, hthen⟩
    rw [hnow] at hthen
    cases now <;> cases hthen

/-! ### Entering a constraint into the sums -/

theorem getD_foldl_modify {atoms : List Nat} (hnodup : atoms.Nodup) {sums : Array (Extended K)}
    (hbound : ∀ a ∈ atoms, a < sums.size) (w : Extended K) (x : Nat) :
    (atoms.foldl (fun m a => m.modify a (· + w)) sums).getD x 0 =
      if x ∈ atoms then sums.getD x 0 + w else sums.getD x 0 := by
  induction atoms generalizing sums with
  | nil => simp
  | cons a atoms ih =>
    obtain ⟨hfresh, hnodup⟩ := List.nodup_cons.mp hnodup
    obtain ⟨ha, hrest⟩ := List.forall_mem_cons.mp hbound
    rw [List.foldl_cons, ih hnodup (by simpa using hrest)]
    simp only [Array.getD_eq_getD_getElem?, Array.getElem?_modify]
    rcases eq_or_ne x a with rfl | hne
    · simp [hfresh, ha]
    · simp [hne, hne.symm]

/-- Adding to the make sums of some atoms changes these sums and no others. -/
theorem Sized.sumOf_addMake {net : Network (Extended K)} {s : State (Extended K)}
    (hs : Sized net s) (w : Extended K) {atoms : List Nat} (hnodup : atoms.Nodup)
    (hbound : ∀ x ∈ atoms, x < net.nodes.size) (now : Bool) (a : Nat) :
    (s.addMake w atoms).sumOf now a =
      if now = true ∧ a ∈ atoms then s.sumOf now a + w else s.sumOf now a := by
  cases now
  · simp [sumOf, addMake, breakCost]
  · simpa [sumOf, addMake, makeCost] using
      getD_foldl_modify hnodup (hs.makeSums.symm ▸ hbound) w a

/-- Adding to the break sums of some atoms changes these sums and no others. -/
theorem Sized.sumOf_addBreak {net : Network (Extended K)} {s : State (Extended K)}
    (hs : Sized net s) (w : Extended K) {atoms : List Nat} (hnodup : atoms.Nodup)
    (hbound : ∀ x ∈ atoms, x < net.nodes.size) (now : Bool) (a : Nat) :
    (s.addBreak w atoms).sumOf now a =
      if now = false ∧ a ∈ atoms then s.sumOf now a + w else s.sumOf now a := by
  cases now
  · simpa [sumOf, addBreak, breakCost] using
      getD_foldl_modify hnodup (hs.breakSums.symm ▸ hbound) w a
  · simp [sumOf, addBreak, makeCost]

/-- A constraint adds its price to the sums of the atoms that turn it. -/
theorem sumOf_addPotential {net : Network (Extended K)} {s : State (Extended K)}
    (hs : Sized net s) {i : Nat} {c : Constraint (Extended K)}
    (hnodup : (c.lits.map NetLiteral.atom).Nodup)
    (hbound : ∀ l ∈ c.lits, l.atom < net.nodes.size) (hactive : s.isInactive i = false)
    (sign : Extended K) (now : Bool) (a : Nat) :
    (s.addPotential net i c sign).sumOf now a =
      if a ∈ turners c s.values (s.countOf i) now then s.sumOf now a + sign * net.price c
      else s.sumOf now a := by
  have hatoms : ∀ x ∈ c.lits.map NetLiteral.atom, x < net.nodes.size := by
    intro x hx
    obtain ⟨l, hl, rfl⟩ := List.mem_map.mp hx
    exact hbound l hl
  -- with no true literal each atom turns the constraint, with one the atom of that literal
  -- does, and with more of them none
  rcases hn : s.countOf i with _ | _ | n
  · simp only [addPotential, turners, hactive, hn, Bool.false_eq_true, ↓reduceIte]
    cases c.isPositive
    · rw [if_neg Bool.false_ne_true, hs.sumOf_addBreak _ hnodup hatoms]
      cases now <;> simp
    · rw [if_pos rfl, hs.sumOf_addMake _ hnodup hatoms]
      cases now <;> simp
  · rcases hl : c.lits.find? (fun l => s.values.getD l.atom false == l.positive) with _ | l
    · simp [addPotential, turners, hactive, hn, value, hl, -Array.getD_eq_getD_getElem?]
    · have hsingle : ∀ x ∈ [l.atom], x < net.nodes.size := by
        intro x hx
        rw [List.mem_singleton.mp hx]
        exact hbound l (List.mem_of_find?_eq_some hl)
      rw [turners_one hl]
      simp only [addPotential, hactive, hn, value, hl, Bool.false_eq_true, ↓reduceIte]
      cases c.isPositive
      · rw [if_neg Bool.false_ne_true, hs.sumOf_addMake _ (List.nodup_singleton _) hsingle]
        cases now <;> simp
      · rw [if_pos rfl, hs.sumOf_addBreak _ (List.nodup_singleton _) hsingle]
        cases now <;> simp
  · simp [addPotential, turners, hactive, hn]

/-! ### Regular networks -/

/-- The networks whose sums can be kept: wired as assembly does it, with finite
prices, and with no atom twice in a constraint. -/
structure Regular (net : Network (Extended K)) : Prop where
  wired : net.Wired
  priced : net.Priced
  nodup : ∀ c ∈ net.constraints, (c.lits.map NetLiteral.atom).Nodup

/-- The part of a constraint in the make or break cost of an atom; an inactive
constraint has none. -/
def partOf (net : Network (Extended K)) (s : State (Extended K)) (now : Bool) (a : Nat)
    (c : Constraint (Extended K)) (i : Nat) : K :=
  if s.isInactive i then 0 else turnOf net c s.values now a

/-- The make and break costs are the sums of the parts of the constraints. -/
def Balanced (net : Network (Extended K)) (s : State (Extended K)) : Prop :=
  ∀ now a, s.sumOf now a =
    .finite (∑ i ∈ Finset.range net.constraints.size, net.shareAt (s.partOf net now a) i)

theorem partOf_rebooked (net : Network (Extended K)) {s s' : State (Extended K)}
    (h : Rebooked s s') (now : Bool) (a : Nat) : s'.partOf net now a = s.partOf net now a := by
  funext c i
  rw [partOf, partOf, h.isInactive, h.values]

theorem addPotential_of_inactive {net : Network (Extended K)} {s : State (Extended K)} {i : Nat}
    (h : s.isInactive i = true) (c : Constraint (Extended K)) (sign : Extended K) :
    s.addPotential net i c sign = s := by
  simp only [addPotential, h, ↓reduceIte]

/-- A constraint enters the sums with its part. -/
theorem sumOf_addPotential_eq {net : Network (Extended K)} (hr : Regular net)
    {s : State (Extended K)} (hs : Sized net s) (he : Exact net s) {i : Nat}
    {c : Constraint (Extended K)} (hc : net.constraints[i]? = some c) (sign : K) (now : Bool)
    (a : Nat) {x : K} (hx : s.sumOf now a = .finite x) :
    (s.addPotential net i c (.finite sign)).sumOf now a =
      .finite (x + sign * s.partOf net now a c i) := by
  have hmem := Array.mem_of_getElem? hc
  have hbound : ∀ l ∈ c.lits, l.atom < net.nodes.size := fun l hl => hr.wired.atom_lt hmem hl
  unfold partOf
  cases hin : s.isInactive i
  · rw [sumOf_addPotential hs (hr.nodup c hmem) hbound hin, he i c hc, hx, hr.priced.price_eq hmem,
      Extended.finite_mul, Extended.finite_add]
    simp only [Bool.false_eq_true, ↓reduceIte,
      turnOf_eq net (hr.nodup c hmem) (hs.values.symm ▸ hbound)]
    split <;> simp
  · simp [addPotential_of_inactive hin, hx]

theorem Exact.addPotential {net : Network (Extended K)} {s : State (Extended K)}
    (h : Exact net s) (i : Nat) (c : Constraint (Extended K)) (sign : Extended K) :
    Exact net (s.addPotential net i c sign) := by
  intro j d hd
  rw [countOf_addPotential, (rebooked_addPotential net s i c sign).values]
  exact h j d hd

/-- Several constraints enter the sums with their parts. -/
theorem sumOf_addPotentials {net : Network (Extended K)} (hr : Regular net) (sign : K) (now : Bool)
    (a : Nat) (is : List Nat) {s : State (Extended K)} (hs : Sized net s) (he : Exact net s) {x : K}
    (hx : s.sumOf now a = .finite x) :
    (addPotentials net (.finite sign) s is).sumOf now a =
      .finite (x + sign * (is.map (net.shareAt (s.partOf net now a))).sum) := by
  induction is generalizing s x with
  | nil => simpa [addPotentials] using hx
  | cons i is ih =>
    rcases hc : net.constraints[i]? with _ | c
    · have hnone : net.shareAt (s.partOf net now a) i = 0 := by simp [Network.shareAt, hc]
      rw [addPotentials_cons_of_eq_none hc, ih hs he hx, List.map_cons, List.sum_cons, hnone,
        zero_add]
    · have hbook := rebooked_addPotential net s i c (.finite sign)
      have hstep := sumOf_addPotential_eq hr hs he hc sign now a hx
      rw [addPotentials_cons_of_eq_some hc, ih (hs.rebooked hbook) (he.addPotential i c _) hstep,
        partOf_rebooked net hbook, List.map_cons, List.sum_cons, Network.shareAt_of_eq_some hc,
        mul_add, add_assoc]

/-! ### What leaves the sums alone -/

omit [Field K] [LinearOrder K] [FloorRing K] in
theorem sums_dropViolated (s : State (Extended K)) (i : Nat) :
    (s.dropViolated i).makeSums = s.makeSums ∧ (s.dropViolated i).breakSums = s.breakSums := by
  obtain ⟨violated, violatedAt, -, h⟩ := exists_dropViolated_eq s i
  rw [h]
  exact ⟨rfl, rfl⟩

theorem sumOf_congr {s s' : State (Extended K)}
    (h : s'.makeSums = s.makeSums ∧ s'.breakSums = s.breakSums) (now : Bool) (a : Nat) :
    s'.sumOf now a = s.sumOf now a := by
  rw [sumOf, sumOf, makeCost, makeCost, breakCost, breakCost, h.1, h.2]

theorem sumOf_enter (s : State (Extended K)) (i : Nat) (c : Constraint (Extended K)) (now : Bool)
    (a : Nat) : (s.enter i c).sumOf now a = s.sumOf now a := by
  refine sumOf_congr ?_ now a
  unfold enter
  split
  · cases c.strength <;> exact ⟨rfl, rfl⟩
  · exact ⟨rfl, rfl⟩

theorem sumOf_withdraw (s : State (Extended K)) (i : Nat) (c : Constraint (Extended K)) (now : Bool)
    (a : Nat) : (s.withdraw i c).sumOf now a = s.sumOf now a := by
  refine sumOf_congr ?_ now a
  unfold withdraw
  split
  · cases c.strength <;> exact sums_dropViolated _ i
  · exact ⟨rfl, rfl⟩

theorem sumOf_shiftCount (s : State (Extended K)) (i : Nat) (b : Bool)
    (c : Constraint (Extended K)) (now : Bool) (a : Nat) :
    (s.shiftCount i b c).sumOf now a = s.sumOf now a := by
  have hstep (t : State (Extended K)) : (t.stepCount i b).sumOf now a = t.sumOf now a := rfl
  cases h : s.isInactive i
  · rw [shiftCount_of_active h, sumOf_enter, hstep, sumOf_withdraw]
  · rw [shiftCount_of_inactive h, hstep]

theorem sumOf_shiftCounts (net : Network (Extended K)) (b : Bool) (s : State (Extended K))
    (is : List Nat) (now : Bool) (a : Nat) :
    (shiftCounts net b s is).sumOf now a = s.sumOf now a :=
  shiftCounts_induction (P := fun t => t.sumOf now a = s.sumOf now a)
    (fun t i c _ ht => (sumOf_shiftCount t i b c now a).trans ht) is rfl

/-! ### Operations keep the sums -/

/-- A constraint without the atom does not notice its flip. -/
theorem turnOf_flipped (net : Network (Extended K)) {c : Constraint (Extended K)} {a : Nat}
    (ha : a ∉ c.lits.map NetLiteral.atom) (values : Array Bool) (now : Bool) (b : Nat) :
    turnOf net c (flipped values a) now b = turnOf net c values now b := by
  have hthen : c.countTrue (flipped (flipped values a) b) = c.countTrue (flipped values b) := by
    refine countTrue_congr fun l hl => ?_
    have hne : a ≠ l.atom := by
      rintro rfl
      exact ha (List.mem_map_of_mem hl)
    have hsize : (flipped values a).size = values.size := Array.size_setIfInBounds
    have hsame := getD_flipped values a l.atom
    rw [if_neg (fun h => hne h.1)] at hsame
    rw [getD_flipped (flipped values a), hsize, hsame, getD_flipped values b]
  rw [turnOf, turnOf, countTrue_flip_of_not_mem ha, hthen]

omit [Field K] [LinearOrder K] [FloorRing K] in
theorem count_occurrences {net : Network (Extended K)} (hw : net.Wired) (a i : Nat) :
    (net.nodes.getD a default).occurrences.count i =
      (net.litsAt i).count ⟨a, true⟩ + (net.litsAt i).count ⟨a, false⟩ := by
  rw [Node.occurrences, List.count_append, ← hw.count_entered, ← hw.count_entered]
  rfl

omit [Field K] [LinearOrder K] [FloorRing K] in
/-- The occurrences of an atom are the constraints with the atom. -/
theorem mem_occurrences_iff {net : Network (Extended K)} (hw : net.Wired) {a i : Nat}
    {c : Constraint (Extended K)} (hc : net.constraints[i]? = some c) :
    i ∈ (net.nodes.getD a default).occurrences ↔ a ∈ c.lits.map NetLiteral.atom := by
  have hlits : net.litsAt i = c.lits := by simp [Network.litsAt, hc]
  rw [← List.count_pos_iff, count_occurrences hw, hlits, Nat.add_pos_iff_pos_or_pos,
    List.count_pos_iff, List.count_pos_iff, List.mem_map]
  constructor
  · rintro (h | h)
    · exact ⟨_, h, rfl⟩
    · exact ⟨_, h, rfl⟩
  · rintro ⟨⟨b, _ | _⟩, hl, rfl⟩
    · exact Or.inr hl
    · exact Or.inl hl

omit [Field K] [LinearOrder K] [FloorRing K] in
theorem lt_of_mem_occurrences {net : Network (Extended K)} (hw : net.Wired) {a i : Nat}
    (h : i ∈ (net.nodes.getD a default).occurrences) : i < net.constraints.size := by
  by_contra hge
  have hnone : net.litsAt i = [] := by
    rw [Network.litsAt, Array.getElem?_eq_none (by omega)]
    rfl
  have hpos := List.count_pos_iff.mpr h
  rw [count_occurrences hw, hnone] at hpos
  simp at hpos

omit [Field K] [LinearOrder K] [FloorRing K] in
theorem nodup_occurrences {net : Network (Extended K)} (hr : Regular net) (a : Nat) :
    (net.nodes.getD a default).occurrences.Nodup := by
  rw [List.nodup_iff_count_le_one]
  intro i
  rw [count_occurrences hr.wired]
  rcases hc : net.constraints[i]? with _ | c
  · simp [Network.litsAt, hc]
  · have hlits : net.litsAt i = c.lits := by simp [Network.litsAt, hc]
    rw [hlits]
    exact count_add_count_le (hr.nodup c (Array.mem_of_getElem? hc)) true

omit [LinearOrder K] [FloorRing K] in
/-- Taking out the old parts of some constraints and putting in the new ones
changes the sum from the old parts to the new, if the parts of the others are
the same. -/
theorem sum_sub_add_sum {m : Nat} {is : List Nat} (hnodup : is.Nodup) (hlt : ∀ i ∈ is, i < m)
    {f g : Nat → K} (h : ∀ i < m, i ∉ is → g i = f i) :
    ∑ i ∈ Finset.range m, f i + -1 * (is.map f).sum + 1 * (is.map g).sum =
      ∑ i ∈ Finset.range m, g i := by
  have hsub : is.toFinset ⊆ Finset.range m := by
    intro i hi
    exact Finset.mem_range.mpr (hlt i (List.mem_toFinset.mp hi))
  have hrest : ∑ i ∈ Finset.range m \ is.toFinset, g i =
      ∑ i ∈ Finset.range m \ is.toFinset, f i := by
    refine Finset.sum_congr rfl fun i hi => ?_
    obtain ⟨hm, hout⟩ := Finset.mem_sdiff.mp hi
    exact h i (Finset.mem_range.mp hm) (mt List.mem_toFinset.mpr hout)
  rw [← List.sum_toFinset f hnodup, ← List.sum_toFinset g hnodup, ← Finset.sum_sdiff hsub,
    ← Finset.sum_sdiff hsub (f := g), hrest]
  ring

theorem Balanced.flip {net : Network (Extended K)} (hr : Regular net) {s : State (Extended K)}
    (hs : Sized net s) (he : Exact net s) (h : Balanced net s) (a : Nat) :
    Balanced net (s.flip net a) := by
  intro now b
  have hturned := rebooked_turned net s a
  -- the parts of the occurrences leave the sums and come back with the new assignment
  have hout : (turned net s a).sumOf now b = _ :=
    ((sumOf_shiftCounts ..).trans (sumOf_shiftCounts ..)).trans
      (sumOf_addPotentials hr (-1) now b (net.nodes.getD a default).occurrences hs he (h now b))
  have hin := sumOf_addPotentials hr 1 now b (net.nodes.getD a default).occurrences (hs.turned a)
    (he.turned hr.wired hs a) hout
  have hfinal : (s.flip net a).partOf net now b = (turned net s a).partOf net now b :=
    partOf_rebooked net (rebooked_addPotentials net 1 (turned net s a)
      (net.nodes.getD a default).occurrences) now b
  refine hin.trans ?_
  rw [hfinal, sum_sub_add_sum (nodup_occurrences hr a) fun i => lt_of_mem_occurrences hr.wired]
  intro i hi hnot
  have hc := Array.getElem?_eq_getElem hi
  have ha := mt (mem_occurrences_iff hr.wired hc).mpr hnot
  rw [Network.shareAt_of_eq_some hc, Network.shareAt_of_eq_some hc, partOf, partOf, isInactive,
    isInactive, hturned.inactive, hturned.values, turnOf_flipped net ha]

theorem Balanced.setInactive {net : Network (Extended K)} (hr : Regular net)
    {s : State (Extended K)} (hs : Sized net s) (he : Exact net s) (h : Balanced net s) (i : Nat)
    (b : Bool) : Balanced net (s.setInactive net i b) := by
  intro now a
  rcases setInactive_cases net s i b with hset | ⟨c, hc, hin, hset⟩ | ⟨c, hc, hin, hset⟩
  · rw [hset]
    exact h now a
  · -- the constraint leaves, and its part is taken out of the sums
    have hbook := (rebooked_addPotential net s i c (-1)).trans (rebooked_withdraw _ i c)
    have hflag := (hs.rebooked hbook).isInactive_setFlag hc true
    have hsum (t : State (Extended K)) : (t.setFlag i true).sumOf now a = t.sumOf now a := rfl
    rw [hset, hsum, sumOf_withdraw]
    have hupdate := Network.sum_shareAt_update (f := s.partOf net now a)
      (g := (((s.addPotential net i c (-1)).withdraw i c).setFlag i true).partOf net now a) hc
      (by
        intro j d hne _
        rw [partOf, partOf, isInactive_setFlag_of_ne _ hne, hbook.isInactive, values_setFlag,
          hbook.values])
    refine (sumOf_addPotential_eq hr hs he hc (-1) now a (h now a)).trans ?_
    rw [hupdate, partOf, partOf, hin, hflag]
    simp [sub_eq_add_neg]
  · -- it comes back, and its part is added again
    have hbook := rebooked_enter (s.setFlag i false) i c
    have hflag := hs.isInactive_setFlag hc false
    have hexact : Exact net ((s.setFlag i false).enter i c) := by
      intro j d hd
      rw [countOf_enter, hbook.values]
      exact he j d hd
    have hsum : ((s.setFlag i false).enter i c).sumOf now a = _ := (sumOf_enter ..).trans (h now a)
    rw [hset]
    refine (sumOf_addPotential_eq hr ((hs.setFlag i false).rebooked hbook) hexact hc 1 now a
      hsum).trans ?_
    have hupdate := Network.sum_shareAt_update (f := s.partOf net now a)
      (g := (s.setFlag i false).partOf net now a) hc
      (by
        intro j d hne _
        rw [partOf, partOf, isInactive_setFlag_of_ne _ hne, values_setFlag])
    rw [partOf_rebooked net (rebooked_addPotential net _ i c 1), partOf_rebooked net hbook, hupdate,
      partOf, partOf, hin, hflag]
    simp

/-! ### Recomputation -/

theorem Exact.account {net : Network (Extended K)} {s : State (Extended K)} (h : Exact net s)
    (e : Constraint (Extended K) × Nat) : Exact net (account net s e) := by
  intro j d hd
  rw [countOf_account, (rebooked_account net s e).values]
  exact h j d hd

theorem sumOf_foldl_account {net : Network (Extended K)} (hr : Regular net) (now : Bool) (a : Nat)
    (entries : List (Constraint (Extended K) × Nat))
    (hentries : ∀ e ∈ entries, net.constraints[e.2]? = some e.1) {s : State (Extended K)}
    (hs : Sized net s) (he : Exact net s) {x : K} (hx : s.sumOf now a = .finite x) :
    (entries.foldl (account net) s).sumOf now a =
      .finite (x + (entries.map fun e => s.partOf net now a e.1 e.2).sum) := by
  induction entries generalizing s x with
  | nil => simpa using hx
  | cons e entries ih =>
    obtain ⟨hc, hrest⟩ := List.forall_mem_cons.mp hentries
    have hbook := rebooked_account net s e
    have hstep : (account net s e).sumOf now a = .finite (x + s.partOf net now a e.1 e.2) := by
      unfold State.account
      cases hin : s.isInactive e.2
      · have henter := rebooked_enter s e.2 e.1
        have hexact : Exact net (s.enter e.2 e.1) := by
          intro j d hd
          rw [countOf_enter, henter.values]
          exact he j d hd
        have hsum := sumOf_addPotential_eq hr (hs.rebooked henter) hexact hc 1 now a
          ((sumOf_enter ..).trans hx)
        rw [partOf_rebooked net henter, one_mul] at hsum
        simpa using hsum
      · simp [partOf, hin, hx]
    rw [List.foldl_cons, ih hrest (hs.rebooked hbook) (he.account e) hstep,
      partOf_rebooked net hbook, List.map_cons, List.sum_cons, add_assoc]

theorem balanced_recompute {net : Network (Extended K)} (hr : Regular net) {s : State (Extended K)}
    (hs : Sized net s) : Balanced net (s.recompute net) := by
  intro now a
  have hentries : ∀ e ∈ net.constraints.toList.zipIdx, net.constraints[e.2]? = some e.1 := by
    intro e he
    rw [← Array.getElem?_toList]
    exact List.mem_zipIdx_iff_getElem?.mp he
  have hexact : Exact net (cleared net s) := by
    intro i c hc
    simp [cleared, countOf, hc]
  have hzero : (cleared net s).sumOf now a = .finite 0 := by
    unfold sumOf makeCost breakCost cleared
    simp only [Array.getD_eq_getD_getElem?, Array.getElem?_map]
    cases now
    · cases s.breakSums[a]? <;> rfl
    · cases s.makeSums[a]? <;> rfl
  rw [recompute_eq, sumOf_foldl_account hr now a _ hentries hs.cleared hexact hzero, zero_add,
    Network.sum_zipIdx_eq, ← recompute_eq, partOf_rebooked net (rebooked_recompute net s)]

/-- On reachable states the make and break costs are the sums of the parts of
the constraints. -/
theorem balanced_of_reachable {net : Network (Extended K)} (hr : Regular net)
    {s : State (Extended K)} (h : Reachable net s) : Balanced net s := by
  have hexact {s : State (Extended K)} (hs : Reachable net s) : Exact net s :=
    exact_of_reachable hr.wired hs
  refine reachable_induction (P := Balanced net) ?_
    (fun s a hs hb => hb.flip hr (sized_of_reachable hs) (hexact hs) a)
    (fun s i b hs hb => hb.setInactive hr (sized_of_reachable hs) (hexact hs) i b)
    (fun s values hs hvalues _ =>
      balanced_recompute hr ((sized_of_reachable hs).setValues hvalues)) ?_ h
  · obtain ⟨s, hs, heq⟩ := exists_start_eq net
    exact heq ▸ balanced_recompute hr hs
  · rintro s s' ⟨_, _, _, _, -, -, rfl⟩ hb
    exact hb

end State

end MarkovLogic
