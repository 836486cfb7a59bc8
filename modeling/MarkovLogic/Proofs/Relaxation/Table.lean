/-
MarkovLogic/Proofs/Relaxation/Table.lean

The table of the variables of a relaxation.

A relaxation hands out variables to atoms as they come up in constraints, and
keeps a table of them beside the list of the atoms in the order of their
variables.  Whatever the network, the two agree with each other and with the
program: an atom with a variable is an atom of the network, it is in the list,
and the variable is one of the program (`Tabled`).  Nothing is said here about
rows and coefficients, so no law of arithmetic is needed.

Main statement: `tabled_ofNetwork`.
-/
import MarkovLogic.Proofs.Linear.Reading
import MarkovLogic.Proofs.Network.Counts
import MarkovLogic.Relaxation.Rounding

namespace MarkovLogic

open Linear

variable {α : Type} [Scalar α] {net : Network α}

namespace Relaxation

/-! ### A new variable -/

theorem size_atomVars_varOf (net : Network α) (r : Relaxation α) (atom : Nat) :
    (r.varOf net atom).2.atomVars.size = r.atomVars.size := by
  rw [varOf]
  split
  · rfl
  · exact Array.size_setIfInBounds

/-- What is kept when an atom of the network comes up is kept when the atoms of all
literals do. -/
theorem terms_induction {motive : Relaxation α → Prop} {ls : List NetLiteral}
    {r : Relaxation α} (hls : ∀ l ∈ ls, l.atom < r.atomVars.size) (hstart : motive r)
    (hstep : ∀ q : Relaxation α, ∀ atom < q.atomVars.size, motive q →
      motive (q.varOf net atom).2) : motive (terms net ls r).2 := by
  induction ls generalizing r with
  | nil => exact hstart
  | cons l ls ih =>
    rw [List.forall_mem_cons] at hls
    have hrest : ∀ l' ∈ ls, l'.atom < (r.varOf net l.atom).2.atomVars.size := by
      rw [size_atomVars_varOf]
      exact hls.2
    exact ih hrest (hstep r l.atom hls.1 hstart)

/-- What the table says about an atom before and after another one comes up for the
first time. -/
theorem getD_atomVars_varOf (net : Network α) {r : Relaxation α} {atom : Nat}
    (hnew : r.atomVars.getD atom none = none) (a : Nat) :
    (r.varOf net atom).2.atomVars.getD a none =
      if atom = a ∧ a < r.atomVars.size then some r.program.vars.size
      else r.atomVars.getD a none := by
  simp only [varOf, hnew]
  exact getD_setIfInBounds ..

/-- A new variable is that of its atom, and the others stay. -/
theorem atomVars_varOf_iff (net : Network α) {r : Relaxation α} {atom : Nat}
    (hatom : atom < r.atomVars.size) (hnew : r.atomVars.getD atom none = none) (a v : Nat) :
    (r.varOf net atom).2.atomVars.getD a none = some v ↔
      (a = atom ∧ v = r.program.vars.size) ∨ r.atomVars.getD a none = some v := by
  rw [getD_atomVars_varOf net hnew]
  by_cases ha : atom = a
  · subst ha
    rw [if_pos ⟨rfl, hatom⟩, hnew]
    simp [eq_comm]
  · rw [if_neg fun h => ha h.1]
    simp [Ne.symm ha]

/-! ### The invariant -/

/-- The atoms with variables are atoms of the network that were discovered, and
their variables are variables of the program. -/
structure Tabled (net : Network α) (r : Relaxation α) : Prop where
  size_atomVars : r.atomVars.size = net.nodes.size
  discovered : ∀ a v, r.atomVars.getD a none = some v → a ∈ r.discovery
  lt_size : ∀ a v, r.atomVars.getD a none = some v → v < r.program.vars.size

theorem tabled_blank (net : Network α) : Tabled net (blank net) := by
  have hnone : ∀ a v, (blank net).atomVars.getD a none ≠ some v := by
    intro a v
    rw [blank, Array.getD_eq_getD_getElem?, Array.getElem?_map]
    cases net.nodes[a]? <;> simp
  exact ⟨Array.size_map, fun a v h => absurd h (hnone a v), fun a v h => absurd h (hnone a v)⟩

namespace Tabled

variable {r : Relaxation α}

omit [Scalar α] in
theorem lt_nodes (h : Tabled net r) {a v : Nat} (hv : r.atomVars.getD a none = some v) :
    a < net.nodes.size := by
  rw [← h.size_atomVars]
  by_contra! hge
  rw [Array.getD_eq_getD_getElem?, Array.getElem?_eq_none hge] at hv
  cases hv

omit [Scalar α] in
/-- The table does not mention rows and coefficients, and further variables do
not matter. -/
theorem setProgram (h : Tabled net r) {p : Program α}
    (hsize : r.program.vars.size ≤ p.vars.size) : Tabled net { r with program := p } :=
  ⟨h.size_atomVars, h.discovered, fun a v hv => (h.lt_size a v hv).trans_le hsize⟩

theorem varOf (h : Tabled net r) (atom : Nat) : Tabled net (r.varOf net atom).2 := by
  rcases hvar : r.atomVars.getD atom none with _ | w
  · -- the only entry that is new is that of the atom
    have hcases : ∀ a v, (r.varOf net atom).2.atomVars.getD a none = some v →
        (a = atom ∧ v = r.program.vars.size) ∨ r.atomVars.getD a none = some v := by
      intro a v hv
      rw [getD_atomVars_varOf net hvar] at hv
      split at hv
      · rename_i hatom
        exact .inl ⟨hatom.1.symm, (Option.some.inj hv).symm⟩
      · exact .inr hv
    have hsize := size_atomVars_varOf net r atom
    simp only [Relaxation.varOf, hvar] at hcases hsize ⊢
    refine ⟨hsize.trans h.size_atomVars, fun a v hv => ?_, fun a v hv => ?_⟩
    · rcases hcases a v hv with ⟨rfl, -⟩ | hold
      · exact Array.mem_push_self
      · exact Array.mem_push_of_mem _ (h.discovered a v hold)
    · rw [Program.size_addVariable]
      rcases hcases a v hv with ⟨-, rfl⟩ | hold
      · exact Nat.lt_succ_self _
      · exact (h.lt_size a v hold).trans (Nat.lt_succ_self _)
  · simpa only [Relaxation.varOf, hvar] using h

theorem terms (h : Tabled net r) (ls : List NetLiteral) :
    Tabled net (terms net ls r).2 := by
  induction ls generalizing r with
  | nil => exact h
  | cons l ls ih => exact ih (h.varOf l.atom)

theorem addAux (h : Tabled net r) (index : Nat) (weight : α) :
    Tabled net (r.addAux index weight).2 :=
  h.setProgram (by rw [Program.size_addObjective, Program.size_addVariable]; exact Nat.le_succ _)

theorem addConstraint (h : Tabled net r) (entry : Constraint α × Nat) :
    Tabled net (addConstraint net r entry) := by
  have hterms := h.terms entry.1.lits
  -- once the atoms have their variables, at most an auxiliary one is added behind them
  rw [Relaxation.addConstraint]
  dsimp only
  split
  · exact hterms.setProgram (le_refl _)
  · refine hterms.setProgram ?_
    split <;> exact (Program.size_addObjective _ _ _).ge
  · split
    · exact (hterms.addAux entry.2 _).setProgram (le_refl _)
    · refine (hterms.addAux entry.2 _).setProgram (Eq.ge ?_)
      exact List.foldlRecOn (motive := fun p : Program α => p.vars.size = _) _ _ rfl
        fun _ hp _ _ => hp

theorem addLoss (h : Tabled net r) (gold : Nat → Bool) : Tabled net (r.addLoss net gold) := by
  refine h.setProgram (Eq.ge ?_)
  refine List.foldlRecOn (motive := fun p : Program α => p.vars.size = _) _ _ rfl
    fun p hp entry _ => ?_
  dsimp only
  split
  · exact hp
  · split <;> exact (Program.size_addObjective _ _ _).trans hp

end Tabled

/-- **The relaxation of any network, with or without a loss, has its table in
order.** -/
theorem tabled_ofNetwork (net : Network α) (gold : Option (Nat → Bool)) :
    Tabled net (ofNetwork net gold) := by
  have hconstraints : Tabled net
      (net.constraints.toList.zipIdx.foldl (addConstraint net) (blank net)) :=
    List.foldlRecOn (motive := Tabled net) _ _ (tabled_blank net)
      fun _ hr entry _ => hr.addConstraint entry
  cases gold with
  | none => exact hconstraints
  | some gold => exact hconstraints.addLoss gold

/-! ### The list of atoms -/

/-- No atom is listed twice, since those that are listed have variables. -/
structure Listed (r : Relaxation α) : Prop where
  nodup : r.discovery.toList.Nodup
  found : ∀ a ∈ r.discovery, ∃ v, r.atomVars.getD a none = some v

theorem listed_blank (net : Network α) : Listed (blank net) :=
  ⟨List.nodup_nil, fun _ h => absurd h (by simp [blank])⟩

namespace Listed

variable {r : Relaxation α}

theorem varOf (h : Listed r) {atom : Nat} (hatom : atom < r.atomVars.size) :
    Listed (r.varOf net atom).2 := by
  rcases hvar : r.atomVars.getD atom none with _ | w
  · have hiff := atomVars_varOf_iff net hatom hvar
    -- the atom has no variable yet, so it is not listed yet
    have hnew : atom ∉ r.discovery := by
      intro hin
      obtain ⟨v, hv⟩ := h.found atom hin
      rw [hvar] at hv
      cases hv
    simp only [Relaxation.varOf, hvar] at hiff ⊢
    refine ⟨?_, fun a ha => ?_⟩
    · rw [Array.toList_push, List.nodup_append]
      refine ⟨h.nodup, List.nodup_singleton _, fun a ha b hb => ?_⟩
      rintro rfl
      obtain rfl := List.mem_singleton.1 hb
      exact hnew (Array.mem_toList_iff.1 ha)
    · rcases Array.mem_push.1 ha with hold | rfl
      · obtain ⟨v, hv⟩ := h.found a hold
        exact ⟨v, (hiff a v).2 (.inr hv)⟩
      · exact ⟨_, (hiff a _).2 (.inl ⟨rfl, rfl⟩)⟩
  · simpa only [Relaxation.varOf, hvar] using h

theorem terms (h : Listed r) {ls : List NetLiteral} (hls : ∀ l ∈ ls, l.atom < r.atomVars.size) :
    Listed (terms net ls r).2 :=
  terms_induction hls h fun _ _ hatom hq => hq.varOf hatom

omit [Scalar α] in
/-- The list does not depend on the program. -/
theorem setProgram (h : Listed r) (p : Program α) : Listed { r with program := p } :=
  ⟨h.nodup, h.found⟩

theorem addConstraint (h : Listed r) {entry : Constraint α × Nat}
    (hatoms : ∀ l ∈ entry.1.lits, l.atom < r.atomVars.size) :
    Listed (addConstraint net r entry) := by
  have hterms : Listed (Relaxation.terms net entry.1.lits r).2 := h.terms hatoms
  rw [Relaxation.addConstraint]
  dsimp only
  split
  · exact hterms.setProgram _
  · exact hterms.setProgram _
  · split <;> exact hterms.setProgram _

end Listed

/-- In the relaxation of a network no atom is listed twice. -/
theorem listed_ofNetwork (hw : net.Wired) (gold : Option (Nat → Bool)) :
    Listed (ofNetwork net gold) := by
  have hconstraints : Tabled net
      (net.constraints.toList.zipIdx.foldl (addConstraint net) (blank net)) ∧
      Listed (net.constraints.toList.zipIdx.foldl (addConstraint net) (blank net)) := by
    refine List.foldlRecOn (motive := fun r => Tabled net r ∧ Listed r) _ _
      ⟨tabled_blank net, listed_blank net⟩ fun r hr entry hentry => ?_
    have hc : entry.1 ∈ net.constraints :=
      Array.mem_toList_iff.1 (List.fst_mem_of_mem_zipIdx hentry)
    exact ⟨hr.1.addConstraint entry, hr.2.addConstraint fun l hl => by
      rw [hr.1.size_atomVars]
      exact hw.atom_lt hc hl⟩
  cases gold with
  | none => exact hconstraints.2
  | some gold => exact hconstraints.2.setProgram _

/-! ### Values of atoms -/

/-- The atoms that were discovered come with the values of their variables. -/
theorem mem_atomValues_iff {r : Relaxation α} {values : List α} {e : Nat × α} :
    e ∈ r.atomValues values ↔ e.1 ∈ r.discovery ∧
      ∃ v, r.atomVars.getD e.1 none = some v ∧ e.2 = (values[v]?).getD 0 := by
  obtain ⟨a, x⟩ := e
  rw [atomValues, List.mem_filterMap]
  constructor
  · rintro ⟨b, hb, hsome⟩
    obtain ⟨v, hv, heq⟩ := Option.map_eq_some_iff.1 hsome
    cases heq
    refine ⟨Array.mem_toList_iff.1 hb, v, hv, ?_⟩
    rw [Array.getD_eq_getD_getElem?, List.getElem?_toArray]
  · rintro ⟨ha, v, hv, hx⟩
    refine ⟨a, Array.mem_toList_iff.2 ha, Option.map_eq_some_iff.2 ⟨v, hv, ?_⟩⟩
    rw [Array.getD_eq_getD_getElem?, List.getElem?_toArray, ← hx]

theorem nodup_atomValues {r : Relaxation α} (h : Listed r) (values : List α) :
    ((r.atomValues values).map Prod.fst).Nodup := by
  have hatom : (fun a => ((r.atomVars.getD a none).map fun v =>
      (a, values.toArray.getD v 0)).map Prod.fst) =
      Option.guard fun a => (r.atomVars.getD a none).isSome := by
    funext a
    cases hv : r.atomVars.getD a none <;> simp [Option.guard, hv]
  rw [atomValues, List.map_filterMap, hatom, List.filterMap_eq_filter]
  exact h.nodup.filter _

end Relaxation

end MarkovLogic
