/-
MarkovLogic/Proofs/Relaxation/Descent.lean

Rounding never ends dearer than where it starts.

After the thresholds the atoms above one minus the tolerance are true and all
others are false.  Rounding up goes on from there: it commits one atom after
the other, each time reading off the books what turning it would cost now, and
turns it only if that is less than zero.  Since an atom comes up once, it is
still false when it comes up, so turning it is what committing it to true does,
and no commitment raises the cost (`cost_fix_le`, `cost_foldl_fix_le`).  Local
search first turns the undecided atoms of at least one half, and a search ends
no dearer than it begins.

Both starts are described by the values of the variables alone (`accepted`).

Main statement: `rounding_descends`.
-/
import MarkovLogic.Proofs.LocalSearch.Best
import MarkovLogic.Proofs.Relaxation.Decided

namespace MarkovLogic

open State

variable {K : Type} [Field K] [LinearOrder K] [FloorRing K] {net : Network (Extended K)}

namespace State

/-! ### Committing atoms -/

/-- At first all atoms are false. -/
theorem value_start {α : Type} [Scalar α] (net : Network α) (a : Nat) :
    (start net).value a = false := by
  have hvalues : (start net).values = Array.replicate net.nodes.size false :=
    (rebooked_recompute net _).values
  rw [State.value, hvalues, Array.getD_eq_getD_getElem?, Array.getElem?_replicate]
  split <;> rfl

variable {s : State (Extended K)}

/-- Flipping an atom changes the cost by what the books say. -/
theorem exists_cost_flip_eq (hr : Regular net) (h : Reachable net s) (a : Nat) :
    ∃ x d, s.cost net = .finite x ∧ s.delta a = .finite d ∧
      (s.flip net a).cost net = .finite (x + d) := by
  have hbooks := books_of_regular hr h
  have hflip := h.tail (.flip a)
  obtain ⟨x, hx⟩ := exists_cost_eq hr.wired hr.priced h
  obtain ⟨y, hy⟩ := exists_cost_eq hr.wired hr.priced hflip
  refine ⟨x, y - x, hx, ?_, by rw [hy, add_sub_cancel]⟩
  rw [hbooks.delta, ← hbooks.cost, ← (books_of_regular hr hflip).cost, hx, hy,
    Extended.finite_sub]

theorem cost_fix_of_value_eq {a : Nat} {v : Bool} (hvalue : s.value a = v) :
    (s.fix net a v).cost net = s.cost net := by
  rw [fix, if_pos hvalue]
  rfl

theorem cost_fix_of_value_ne {a : Nat} {v : Bool} (hvalue : s.value a ≠ v) :
    (s.fix net a v).cost net = (s.flip net a).cost net := by
  rw [fix, if_neg hvalue]
  rfl

/-- Committing a false atom, to true only if that lowers the cost, does not raise
it. -/
theorem cost_fix_le [IsStrictOrderedRing K] (hr : Regular net) (h : Reachable net s) {a : Nat}
    (hfalse : s.value a = false) :
    (s.fix net a (decide (s.delta a < 0))).cost net ≤ s.cost net := by
  obtain ⟨x, d, hx, hd, hflip⟩ := exists_cost_flip_eq hr h a
  by_cases hlower : s.delta a < 0
  · rw [decide_eq_true hlower, cost_fix_of_value_ne (by rw [hfalse]; exact Bool.false_ne_true),
      hflip, hx, Extended.finite_le]
    rw [hd, Extended.zero_eq, Extended.finite_lt] at hlower
    linarith
  · rw [decide_eq_false hlower, cost_fix_of_value_eq hfalse, hx, Extended.finite_le]

/-- Committing false atoms one after the other does not raise the cost. -/
theorem cost_foldl_fix_le [IsStrictOrderedRing K] {β : Type} (hr : Regular net)
    (h : Reachable net s) {es : List (Nat × β)} (hnodup : (es.map Prod.fst).Nodup)
    (hfalse : ∀ e ∈ es, s.value e.1 = false) :
    (es.foldl (fun s e => s.fix net e.1 (decide (s.delta e.1 < 0))) s).cost net ≤
      s.cost net := by
  induction es generalizing s with
  | nil =>
    obtain ⟨x, hx⟩ := exists_cost_eq hr.wired hr.priced h
    rw [List.foldl_nil, hx, Extended.finite_le]
  | cons e es ih =>
    rw [List.forall_mem_cons] at hfalse
    rw [List.map_cons, List.nodup_cons] at hnodup
    have hfirst := cost_fix_le hr h hfalse.1
    -- the atoms that are still to come are others, so they stay false
    have hrest := ih (h.tail (.fix e.1 (decide (s.delta e.1 < 0)))) hnodup.2 fun f hf => by
      rw [State.value, getD_values_fix, if_neg]
      · exact hfalse.2 f hf
      · exact fun hsame => hnodup.1 (hsame.1 ▸ List.mem_map_of_mem hf)
    exact Extended.le_trans hrest hfirst

end State

namespace Relaxation

/-! ### Starts of the rounding -/

section Starts

variable {α : Type} [Scalar α]

/-- The assignment that makes true the atoms whose variable has an accepted value. -/
def accepted (r : Relaxation α) (values : List α) (accept : α → Bool) : Array Bool :=
  r.atomVars.map fun var => var.any fun v => accept (values.getD v 0)

theorem getD_accepted {net : Network α} {r : Relaxation α} (ht : Tabled net r)
    (values : List α) (accept : α → Bool) (a : Nat) :
    (r.accepted values accept).getD a false =
      (r.atomValues values).any fun e => e.1 == a && accept e.2 := by
  have hleft : (r.accepted values accept).getD a false =
      (r.atomVars.getD a none).any fun v => accept (values.getD v 0) := by
    rw [accepted, Array.getD_eq_getD_getElem?, Array.getD_eq_getD_getElem?, Array.getElem?_map]
    cases r.atomVars[a]? <;> rfl
  rw [hleft, Bool.eq_iff_iff, Option.any_eq_true, List.any_eq_true]
  constructor
  · rintro ⟨v, hv, haccept⟩
    refine ⟨(a, values.getD v 0), mem_atomValues_iff.2 ⟨ht.discovered a v hv, v, hv, ?_⟩, ?_⟩
    · rw [List.getD_eq_getElem?_getD]
    · simpa using haccept
  · rintro ⟨e, he, hboth⟩
    obtain ⟨hatom, haccept⟩ := Bool.and_eq_true_iff.1 hboth
    obtain ⟨-, v, hv, hx⟩ := mem_atomValues_iff.1 he
    rw [beq_iff_eq] at hatom
    refine ⟨v, hatom ▸ hv, ?_⟩
    rwa [List.getD_eq_getElem?_getD, ← hx]

omit [Scalar α] in
/-- All entries of an atom say the same of its value. -/
theorem any_eq_of_mem {entries : List (Nat × α)} (hc : Consistent entries) {e : Nat × α}
    (he : e ∈ entries) (accept : α → Bool) :
    (entries.any fun f => f.1 == e.1 && accept f.2) = accept e.2 := by
  rw [Bool.eq_iff_iff, List.any_eq_true]
  constructor
  · rintro ⟨f, hf, hboth⟩
    obtain ⟨hatom, haccept⟩ := Bool.and_eq_true_iff.1 hboth
    rwa [hc e he f hf (beq_iff_eq.1 hatom).symm]
  · intro haccept
    exact ⟨e, he, by rw [beq_self_eq_true, haccept]; rfl⟩

/-- After the thresholds the atoms above one minus the tolerance are true and the
others are false. -/
theorem value_thresholds {net : Network α} (tolerance : α) {entries : List (Nat × α)}
    (hc : Consistent entries) {a : Nat} (ha : a < net.nodes.size) :
    (thresholds net tolerance entries).state.value a =
      entries.any fun e => e.1 == a && decide (1 - tolerance < e.2) := by
  induction entries using List.reverseRecOn with
  | nil => exact value_start net a
  | append_singleton entries e ih =>
    have hbefore := ih fun f hf g hg =>
      hc f (List.mem_append_left _ hf) g (List.mem_append_left _ hg)
    rw [thresholds_concat, threshold_eq]
    cases hv : verdict? tolerance e.2 with
    | none =>
      rw [List.any_append, List.any_cons, List.any_nil, hbefore,
        decide_eq_false (verdict?_eq_none_iff.1 hv).1, Bool.and_false, Bool.or_false,
        Bool.or_false]
    | some v =>
      dsimp only
      rw [State.value, getD_values_fix, eq_of_verdict? hv]
      by_cases hatom : e.1 = a
      · rw [if_pos ⟨hatom, by rwa [(sized_of_reachable (reachable_thresholds _ _)).values]⟩,
          ← hatom, any_eq_of_mem hc (List.mem_append_right _ (List.mem_singleton_self e))
            fun x => decide (1 - tolerance < x)]
      · rw [if_neg fun h => hatom h.1, List.any_append, List.any_cons, List.any_nil,
          beq_eq_false_iff_ne.2 hatom, Bool.false_and, Bool.or_false, Bool.or_false]
        exact hbefore

/-! ### The nearer of zero and one -/

/-- Each of the atoms that are left over is turned if its value is at least one
half. -/
theorem value_foldl_nearest {net : Network α} {s : State α} (h : Reachable net s)
    {es : List (Nat × α)} (hnodup : (es.map Prod.fst).Nodup) {a : Nat}
    (ha : a < net.nodes.size) :
    (es.foldl (fun s e => if 0.5 ≤ e.2 then s.flip net e.1 else s) s).value a =
      (s.value a ^^ es.any fun e => e.1 == a && decide (0.5 ≤ e.2)) := by
  induction es generalizing s with
  | nil => exact (Bool.xor_false _).symm
  | cons e es ih =>
    rw [List.map_cons, List.nodup_cons] at hnodup
    have hnext : Reachable net (if 0.5 ≤ e.2 then s.flip net e.1 else s) := by
      split
      · exact h.tail (.flip e.1)
      · exact h
    rw [List.foldl_cons, ih hnext hnodup.2, List.any_cons]
    by_cases hatom : e.1 = a
    · -- the atom does not come up again
      have hrest : (es.any fun f => f.1 == a && decide (0.5 ≤ f.2)) = false := by
        rw [List.any_eq_false]
        intro f hf hboth
        have hf' := beq_iff_eq.1 (Bool.and_eq_true_iff.1 hboth).1
        exact hnodup.1 (hatom.trans hf'.symm ▸ List.mem_map_of_mem hf)
      rw [hrest, beq_iff_eq.2 hatom, Bool.true_and, Bool.or_false, Bool.xor_false]
      split
      · rename_i hhalf
        rw [State.value, values_flip, getD_flipped, decide_eq_true hhalf, Bool.xor_true,
          if_pos ⟨hatom, by rwa [(sized_of_reachable h).values]⟩, State.value]
      · rename_i hhalf
        rw [decide_eq_false hhalf, Bool.xor_false]
    · rw [beq_eq_false_iff_ne.2 hatom, Bool.false_and, Bool.false_or]
      congr 1
      split
      · exact value_flip_of_ne net s hatom
      · rfl

/-- Local search starts with the atoms true that are above one minus the tolerance or
left over and at least one half. -/
theorem value_setNearest {net : Network α} (tolerance : α) {entries : List (Nat × α)}
    (hnodup : (entries.map Prod.fst).Nodup) (hc : Consistent entries) {a : Nat}
    (ha : a < net.nodes.size) :
    (setNearest net (thresholds net tolerance entries)).value a =
      entries.any fun e => e.1 == a && decide (1 - tolerance < e.2 ∨
        (¬ 1 - tolerance < e.2 ∧ ¬ e.2 < tolerance) ∧ 0.5 ≤ e.2) := by
  have hleft : ((thresholds net tolerance entries).fractional.map Prod.fst).Nodup := by
    rw [fractional_thresholds]
    exact hnodup.sublist (List.filter_sublist.map _)
  have hnear : (fun f : Nat × α =>
      (verdict? tolerance f.2).isNone && (f.1 == a && decide (0.5 ≤ f.2))) =
      fun f => f.1 == a && ((verdict? tolerance f.2).isNone && decide (0.5 ≤ f.2)) := by
    funext f
    rw [Bool.and_left_comm]
  rw [setNearest, value_foldl_nearest (reachable_thresholds tolerance entries) hleft ha,
    value_thresholds tolerance hc ha, fractional_thresholds, List.any_filter, hnear]
  by_cases hentry : ∃ e ∈ entries, e.1 = a
  · -- all parts are about the one value of the atom
    obtain ⟨e, he, rfl⟩ := hentry
    have hnone : (verdict? tolerance e.2).isNone =
        decide (¬ 1 - tolerance < e.2 ∧ ¬ e.2 < tolerance) := by
      rw [Bool.eq_iff_iff, Option.isNone_iff_eq_none, verdict?_eq_none_iff, decide_eq_true_iff]
    rw [any_eq_of_mem hc he fun x => decide (1 - tolerance < x),
      any_eq_of_mem hc he fun x => (verdict? tolerance x).isNone && decide (0.5 ≤ x),
      any_eq_of_mem hc he fun x => decide (1 - tolerance < x ∨
        (¬ 1 - tolerance < x ∧ ¬ x < tolerance) ∧ 0.5 ≤ x), hnone]
    by_cases habove : 1 - tolerance < e.2 <;> simp [habove]
  · have hfalse (accept : α → Bool) :
        (entries.any fun e => e.1 == a && accept e.2) = false := by
      rw [List.any_eq_false]
      intro e he hboth
      exact hentry ⟨e, he, beq_iff_eq.1 (Bool.and_eq_true_iff.1 hboth).1⟩
    rw [hfalse fun x => decide (1 - tolerance < x),
      hfalse fun x => (verdict? tolerance x).isNone && decide (0.5 ≤ x),
      hfalse fun x => decide (1 - tolerance < x ∨
        (¬ 1 - tolerance < x ∧ ¬ x < tolerance) ∧ 0.5 ≤ x), Bool.xor_false]

omit [Scalar α] in
/-- Assignments of equally many atoms that agree on all of them are the same. -/
theorem eq_of_getD_eq {xs ys : Array Bool} (hsize : xs.size = ys.size)
    (h : ∀ a < xs.size, xs.getD a false = ys.getD a false) : xs = ys := by
  refine Array.ext hsize fun a hx hy => ?_
  simpa [hx, hy] using h a hx

/-- The assignment of a state that search can come to is that of the accepted atoms if
it is so atom by atom. -/
theorem values_eq_accepted {net : Network α} {r : Relaxation α} (ht : Tabled net r)
    {s : State α} (hs : Reachable net s) {values : List α} {accept : α → Bool}
    (h : ∀ a < net.nodes.size,
      s.value a = (r.atomValues values).any fun e => e.1 == a && accept e.2) :
    s.values = r.accepted values accept := by
  have hsize := (sized_of_reachable hs).values
  refine eq_of_getD_eq ?_ fun a ha => ?_
  · rw [hsize, accepted, Array.size_map, ht.size_atomVars]
  · rw [getD_accepted ht]
    exact h a (hsize ▸ ha)

/-- The state after the thresholds has the assignment of the atoms above one minus
the tolerance. -/
theorem values_thresholds {net : Network α} {r : Relaxation α} (ht : Tabled net r)
    (tolerance : α) (values : List α) :
    (thresholds net tolerance (r.atomValues values)).state.values =
      r.accepted values fun x => decide (1 - tolerance < x) :=
  values_eq_accepted ht (reachable_thresholds tolerance (r.atomValues values)) fun _ ha =>
    value_thresholds tolerance (consistent_atomValues r values) ha

/-! ### What is returned -/

/-- A result that reports a state as it is. -/
structure Reports (net : Network α) (m : MapState α) (s : State α) : Prop where
  assignment : m.assignment = s.values
  cost : m.cost = s.cost net
  hardViolations : m.hardViolations = s.hardViolations

variable {ρ : Type} [RandomSource ρ] {net : Network α} {settings : Settings α}
  {searching : LocalSearch.Settings α} {entries : List (Nat × α)}

theorem reports_roundUp (h : settings.rounding = .roundUp) :
    Reports net (round ρ net settings searching entries)
      (roundUp net (thresholds net settings.tolerance entries)) := by
  rw [round, h]
  exact ⟨rfl, rfl, rfl⟩

/-- Without undecided atoms local search returns its start, and otherwise what it
finds. -/
theorem exists_reports_localSearch (h : settings.rounding = .localSearch) :
    ∃ s, Reports net (round ρ net settings searching entries) s ∧
      (s = setNearest net (thresholds net settings.tolerance entries) ∨
        ∃ r : ρ, s = (LocalSearch.search net searching
          (setNearest net (thresholds net settings.tolerance entries)) r).state) := by
  rw [round, h]
  dsimp only
  split
  · exact ⟨_, ⟨rfl, rfl, rfl⟩, .inl rfl⟩
  · exact ⟨_, ⟨rfl, rfl, rfl⟩, .inr ⟨_, rfl⟩⟩

end Starts

/-! ### The books of the result -/

section Books

variable {s : State (Extended K)}

/-- A reachable state without inactive constraints. -/
structure IsActive (net : Network (Extended K)) (s : State (Extended K)) : Prop where
  reachable : Reachable net s
  isInactive : ∀ i, s.isInactive i = false

namespace IsActive

theorem fix (h : IsActive net s) (a : Nat) (v : Bool) : IsActive net (s.fix net a v) :=
  ⟨h.reachable.tail (.fix a v), fun i => (isInactive_fix net s a v i).trans (h.isInactive i)⟩

theorem flip (h : IsActive net s) (a : Nat) : IsActive net (s.flip net a) :=
  ⟨h.reachable.tail (.flip a), fun i => (isInactive_flip net s a i).trans (h.isInactive i)⟩

theorem thresholds (tolerance : Extended K) (entries : List (Nat × Extended K)) :
    IsActive net (thresholds net tolerance entries).state := by
  refine List.foldlRecOn
    (motive := fun t : Thresholded (Extended K) => IsActive net t.state) _ _
    ⟨.refl, isInactive_start net⟩ fun t ht e _ => ?_
  rw [threshold_eq]
  split
  · exact ht.fix e.1 _
  · exact ht

theorem roundUp {t : Thresholded (Extended K)} (h : IsActive net t.state) :
    IsActive net (roundUp net t) :=
  List.foldlRecOn (motive := IsActive net) _ _ h fun _ hs e _ => hs.fix e.1 _

theorem setNearest {t : Thresholded (Extended K)} (h : IsActive net t.state) :
    IsActive net (setNearest net t) := by
  refine List.foldlRecOn (motive := IsActive net) _ _ h fun s hs e _ => ?_
  dsimp only
  split
  · exact hs.flip e.1
  · exact hs

theorem search [IsStrictOrderedRing K] {ρ : Type} [RandomSource ρ] (hw : net.Wired)
    (hp : net.Priced) (h : IsActive net s) (settings : LocalSearch.Settings (Extended K))
    (r : ρ) : IsActive net (LocalSearch.search net settings s r).state := by
  obtain ⟨-, -, -, -, -, -, -, hinactive⟩ :=
    LocalSearch.exists_search hw hp h.reachable settings r
  refine ⟨LocalSearch.reachable_search h.reachable settings r, fun i => ?_⟩
  rw [State.isInactive, hinactive]
  exact h.isInactive i

theorem cost_eq (hw : net.Wired) (hp : net.Priced) (h : IsActive net s) :
    s.cost net = net.evaluate s.values :=
  cost_eq_evaluate hw hp h.reachable h.isInactive

/-- A result that reports such a state is true of its assignment. -/
theorem isTruthful (hw : net.Wired) (hp : net.Priced) (h : IsActive net s)
    {m : MapState (Extended K)} (hm : Reports net m s) : LocalSearch.IsTruthful net m where
  size := by rw [hm.assignment, (sized_of_reachable h.reachable).values, Network.atomCount]
  cost := by rw [hm.cost, hm.assignment, h.cost_eq hw hp]
  hardViolations := by
    rw [hm.hardViolations, hm.assignment, hardViolations_eq hw hp h.reachable h.isInactive]

end IsActive

/-- Local search starts with the assignment of the atoms above one minus the tolerance
or left over and at least one half. -/
theorem values_setNearest {r : Relaxation (Extended K)} (ht : Tabled net r) (hl : Listed r)
    (tolerance : Extended K) (values : List (Extended K)) :
    (setNearest net (thresholds net tolerance (r.atomValues values))).values =
      r.accepted values fun x => decide (1 - tolerance < x ∨
        (¬ 1 - tolerance < x ∧ ¬ x < tolerance) ∧ 0.5 ≤ x) := by
  have hactive : IsActive net (setNearest net (thresholds net tolerance (r.atomValues values))) :=
    (IsActive.thresholds tolerance _).setNearest
  exact values_eq_accepted ht hactive.reachable fun _ ha =>
    value_setNearest tolerance (nodup_atomValues hl values) (consistent_atomValues r values) ha

end Books

/-! ### The main statement -/

section Main

variable [IsStrictOrderedRing K] {ρ : Type} [RandomSource ρ]
  {settings : Settings (Extended K)} {r : Relaxation (Extended K)}

/-- Rounding up ends no dearer than it starts. -/
theorem cost_roundUp_le (hr : Regular net) (ht : Tabled net r) (hl : Listed r)
    (tolerance : Extended K) (values : List (Extended K)) :
    (roundUp net (thresholds net tolerance (r.atomValues values))).cost net ≤
      (thresholds net tolerance (r.atomValues values)).state.cost net := by
  have hc := consistent_atomValues r values
  refine cost_foldl_fix_le hr (reachable_thresholds tolerance _) ?_ fun e he => ?_
  · rw [List.map_reverse, List.nodup_reverse, fractional_thresholds]
    exact (nodup_atomValues hl values).sublist (List.filter_sublist.map _)
  · -- what is left over is not above one minus the tolerance
    obtain ⟨hentry, hnone⟩ := mem_fractional (List.mem_reverse.1 he)
    obtain ⟨-, v, hv, -⟩ := mem_atomValues_iff.1 hentry
    rw [value_thresholds tolerance hc (ht.lt_nodes hv),
      any_eq_of_mem hc hentry fun x => decide (1 - tolerance < x),
      decide_eq_false (verdict?_eq_none_iff.1 hnone).1]

/-- **Rounding never ends dearer than where it starts.**  Take an assembled network
with finite soft weights in which no atom occurs twice in one constraint, and round
any values of the variables of its relaxation.  Rounding up costs at most as much as
the assignment of the atoms above one minus the tolerance, and local search at most
as much as that of the atoms above it or undecided and at least one half, whatever
its settings and random numbers.  In both ways the cost and the hard violations that
are returned are those of the assignment that is returned. -/
theorem rounding_descends (ρ : Type) [RandomSource ρ]
    (cliques : List (UInt64 × Clique (Extended K))) (extra : List Nat)
    (range : Option (Nat × Nat))
    (hfinite : ∀ c ∈ (Network.assemble cliques extra range).constraints, ∀ w,
      c.strength = .soft w → Scalar.isFinite w = true)
    (hnodup : ∀ c ∈ (Network.assemble cliques extra range).constraints,
      (c.literals.map Int.natAbs).Nodup)
    (settings : Settings (Extended K)) (searching : LocalSearch.Settings (Extended K))
    (gold : Option (Nat → Bool)) (values : List (Extended K)) :
    let net := Network.assemble cliques extra range
    let r := relax net settings gold
    let result := round ρ net settings searching (r.atomValues values)
    (settings.rounding = .roundUp →
      result.cost ≤ net.evaluate
        (r.accepted values fun x => decide (1 - settings.tolerance < x))) ∧
    (settings.rounding = .localSearch →
      result.cost ≤ net.evaluate
        (r.accepted values fun x => decide (1 - settings.tolerance < x ∨
          (¬ 1 - settings.tolerance < x ∧ ¬ x < settings.tolerance) ∧ 0.5 ≤ x))) ∧
    result.cost = net.evaluate result.assignment ∧
    result.hardViolations = net.hardViolations result.assignment := by
  intro net r result
  have hw : net.Wired := Network.wired_assemble cliques extra range
  have hp : net.Priced := Network.priced_assemble hfinite
  have hr : Regular net := ⟨hw, hp, fun c hc => hw.nodup_atoms hc (hnodup c hc)⟩
  have ht : Tabled net r := tabled_ofNetwork net _
  have hl : Listed r := listed_ofNetwork hw _
  have hdecided : IsActive net (thresholds net settings.tolerance (r.atomValues values)).state :=
    .thresholds _ _
  cases hrounding : settings.rounding with
  | roundUp =>
    have hreports : Reports net result _ := reports_roundUp hrounding
    have htruthful := hdecided.roundUp.isTruthful hw hp hreports
    refine ⟨fun _ => ?_, nofun, htruthful.cost, htruthful.hardViolations⟩
    rw [hreports.cost, ← values_thresholds ht, ← hdecided.cost_eq hw hp]
    exact cost_roundUp_le hr ht hl settings.tolerance values
  | localSearch =>
    have hstart := hdecided.setNearest
    obtain ⟨s, hreports, hfound⟩ : ∃ s, Reports net result s ∧ _ :=
      exists_reports_localSearch hrounding
    obtain ⟨x, hx⟩ := exists_cost_eq hw hp hstart.reachable
    obtain ⟨hactive, hle⟩ : IsActive net s ∧ s.cost net ≤
        (setNearest net (thresholds net settings.tolerance (r.atomValues values))).cost net := by
      rcases hfound with rfl | ⟨source, rfl⟩
      · exact ⟨hstart, by rw [hx, Extended.finite_le]⟩
      · obtain ⟨y, z, hy, hz, hle, -⟩ :=
          LocalSearch.exists_search hw hp hstart.reachable searching source
        exact ⟨hstart.search hw hp searching source, by rwa [hy, hz, Extended.finite_le]⟩
    have htruthful := hactive.isTruthful hw hp hreports
    refine ⟨nofun, fun _ => ?_, htruthful.cost, htruthful.hardViolations⟩
    rw [hreports.cost, ← values_setNearest ht hl, ← hstart.cost_eq hw hp]
    exact hle

end Main

theorem nodup_implied : ∀ c ∈ (Network.assemble impliedCliques [] none).constraints,
    (c.literals.map Int.natAbs).Nodup := by
  rw [assemble_implied.1]
  simp

/-- With the values one and one half rounding up starts from the first atom alone. -/
theorem rounding_descends_implied :
    let net := Network.assemble impliedCliques [] none
    let settings := { plain with rounding := .roundUp }
    let result := round ChaCha net settings someSearch
      ((relax net settings none).atomValues [.finite 1, .finite (1 / 2)])
    (∀ c ∈ net.constraints, ∀ w, c.strength = .soft w → Scalar.isFinite w = true) ∧
      (∀ c ∈ net.constraints, (c.literals.map Int.natAbs).Nodup) ∧
      result.cost ≤ net.evaluate #[true, false] ∧
      result.cost = net.evaluate result.assignment := by
  intro net settings result
  obtain ⟨hup, -, hcost, -⟩ := rounding_descends ChaCha impliedCliques [] none finite_implied
    nodup_implied settings someSearch none [.finite 1, .finite (1 / 2)]
  have hstart : (relax net settings none).accepted [.finite 1, .finite (1 / 2)]
      (fun x => decide (1 - settings.tolerance < x)) = #[true, false] := by
    have hrelax : relax net settings none = ⟨impliedProgram, #[some 0, some 1], #[0, 1]⟩ :=
      relax_implied
    rw [hrelax]
    decide +kernel
  exact ⟨finite_implied, nodup_implied, hstart ▸ hup rfl, hcost⟩

end Relaxation

end MarkovLogic
