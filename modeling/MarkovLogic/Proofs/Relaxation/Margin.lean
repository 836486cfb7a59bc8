/-
MarkovLogic/Proofs/Relaxation/Margin.lean

Rounding keeps the hard constraints that the relaxation decides.

A feasible point satisfies the row of a hard constraint: the truths of its
literals, that is, the values of their variables or one minus these, add up to
at least one.  If all atoms of the constraint are decided and rounding made all
its literals false, each truth would be less than the tolerance, so `k` of them
would add up to less than `k` times the tolerance.  So some literal is true if
this is at most one.

The bound on the length is where rounding may lose a constraint: of more
literals each can be a little true and be rounded to false.

Only the row of the constraint and the bounds of the variables matter, so the
weights are arbitrary here, infinities and NaNs included.  That both are in the
relaxation is read off the way in which it grows: each step keeps the variables
of the atoms, the rows and the bounds (`Extends`).

Main statement: `rounding_keeps_hard`.
-/
import MarkovLogic.Proofs.Relaxation.Decided

namespace MarkovLogic

open Linear

variable {K : Type} [Field K] [LinearOrder K] [FloorRing K] {net : Network (Extended K)}

namespace Relaxation

/-! ### What stays when constraints are added -/

/-- The second relaxation has the variables of atoms and the rows of the first, and
bounded variables if the first has. -/
structure Extends (r r' : Relaxation (Extended K)) : Prop where
  keeps : Keeps r r'
  rows : ∀ row ∈ r.program.rows, row ∈ r'.program.rows
  boxed : r.program.IsBoxed → r'.program.IsBoxed

namespace Extends

variable {r r' r'' : Relaxation (Extended K)}

omit [LinearOrder K] [FloorRing K] in
theorem refl (r : Relaxation (Extended K)) : Extends r r :=
  ⟨fun _ _ hv => hv, fun _ hrow => hrow, id⟩

omit [LinearOrder K] [FloorRing K] in
theorem trans (h : Extends r r') (h' : Extends r' r'') : Extends r r'' :=
  ⟨fun a v hv => h'.keeps a v (h.keeps a v hv), fun row hrow => h'.rows row (h.rows row hrow),
    fun hboxed => h'.boxed (h.boxed hboxed)⟩

omit [LinearOrder K] [FloorRing K] in
theorem addRow (r : Relaxation (Extended K)) (row : Row (Extended K)) :
    Extends r { r with program := r.program.addRow row } :=
  ⟨fun _ _ hv => hv, fun _ hold => Array.mem_push_of_mem _ hold, fun hboxed => hboxed⟩

omit [LinearOrder K] [FloorRing K] in
theorem addRows {β : Type} (r : Relaxation (Extended K)) (row : β → Row (Extended K))
    (ts : List β) :
    Extends r { r with program := ts.foldl (fun p t => p.addRow (row t)) r.program } := by
  induction ts generalizing r with
  | nil => exact refl r
  | cons t ts ih => exact (addRow r (row t)).trans (ih _)

theorem addObjective (r : Relaxation (Extended K)) (v : Nat) (c : Extended K) :
    Extends r { r with program := r.program.addObjective v c } :=
  ⟨fun _ _ hv => hv, fun _ hrow => hrow, fun hboxed => hboxed.addObjective v c⟩

theorem addOffset (r : Relaxation (Extended K)) (c : Extended K) :
    Extends r { r with program := r.program.addOffset c } :=
  ⟨fun _ _ hv => hv, fun _ hrow => hrow, fun hboxed => hboxed⟩

theorem addAux (r : Relaxation (Extended K)) (index : Nat) (w : Extended K) :
    Extends r (r.addAux index w).2 :=
  ⟨fun _ _ hv => hv, fun _ hrow => hrow, fun hboxed => (hboxed.addVariable _).addObjective _ _⟩

theorem varOf {atom : Nat} (hatom : atom < r.atomVars.size) :
    Extends r (r.varOf net atom).2 := by
  have hkeeps : Keeps r (r.varOf net atom).2 := keeps_varOf hatom
  rcases hvar : r.atomVars.getD atom none with _ | w
  · simp only [Relaxation.varOf, hvar] at hkeeps ⊢
    exact ⟨hkeeps, fun _ hrow => hrow, fun hboxed => hboxed.addVariable _⟩
  · simp only [Relaxation.varOf, hvar]
    exact refl r

theorem terms {ls : List NetLiteral} (hls : ∀ l ∈ ls, l.atom < r.atomVars.size) :
    Extends r (terms net ls r).2 :=
  terms_induction hls (refl r) fun _ _ hatom hq => hq.trans (varOf hatom)

theorem addConstraint {entry : Constraint (Extended K) × Nat}
    (hatoms : ∀ l ∈ entry.1.lits, l.atom < r.atomVars.size) :
    Extends r (addConstraint net r entry) := by
  have hterms : Extends r (Relaxation.terms net entry.1.lits r).2 := terms hatoms
  rw [Relaxation.addConstraint]
  dsimp only
  split
  · exact hterms.trans (addRow _ _)
  · split
    · exact hterms.trans ((addObjective _ _ _).trans (addOffset _ _))
    · exact hterms.trans (addObjective _ _ _)
  · split
    · exact hterms.trans ((addAux _ _ _).trans (addRow _ _))
    · exact hterms.trans ((addAux _ _ _).trans (addRows _ _ _))

theorem addLoss (r : Relaxation (Extended K)) (gold : Nat → Bool) :
    Extends r (r.addLoss net gold) := by
  refine List.foldlRecOn (motive := fun p => Extends r { r with program := p }) _ _ (refl r)
    fun p hp entry _ => ?_
  dsimp only
  split
  · exact hp
  · split
    · exact hp.trans ((addOffset { r with program := p } 1).trans (addObjective _ _ _))
    · exact hp.trans (addObjective { r with program := p } _ _)

end Extends

/-! ### The rows of the hard constraints -/

/-- The row of a hard constraint is in the program. -/
def HasRow (r : Relaxation (Extended K)) (c : Constraint (Extended K)) : Prop :=
  ∃ ts, Reads r c.lits ts ∧ (⟨ts, .atLeast, 1 - negatives c⟩ : Row (Extended K)) ∈ r.program.rows

variable {r r' : Relaxation (Extended K)}

theorem Reads.mono {ls : List NetLiteral} {ts : List (Nat × Extended K)} (h : Reads r ls ts)
    (hkeeps : Keeps r r') : Reads r' ls ts :=
  h.imp fun _ _ hlt => ⟨hkeeps _ _ hlt.1, hlt.2⟩

theorem HasRow.mono {c : Constraint (Extended K)} (h : HasRow r c) (he : Extends r r') :
    HasRow r' c := by
  obtain ⟨ts, hreads, hrow⟩ := h
  exact ⟨ts, hreads.mono he.keeps, he.rows _ hrow⟩

theorem hasRow_addConstraint {c : Constraint (Extended K)} (hhard : c.isHard = true)
    (hatoms : ∀ l ∈ c.lits, l.atom < r.atomVars.size) (index : Nat) :
    HasRow (addConstraint net r (c, index)) c := by
  have hreads := reads_terms net hatoms
  simp only [addConstraint, Network.strength_of_isHard hhard]
  exact ⟨_, hreads, Array.mem_push_self⟩

/-- Constraints that are added one after the other all keep what was there, and the
hard ones have their rows. -/
theorem foldl_addConstraint (ht : Tabled net r) {entries : List (Constraint (Extended K) × Nat)}
    (hatoms : ∀ e ∈ entries, ∀ l ∈ e.1.lits, l.atom < net.nodes.size) :
    Extends r (entries.foldl (addConstraint net) r) ∧
      ∀ e ∈ entries, e.1.isHard = true → HasRow (entries.foldl (addConstraint net) r) e.1 := by
  induction entries generalizing r with
  | nil => exact ⟨.refl r, fun e he => absurd he List.not_mem_nil⟩
  | cons e entries ih =>
    rw [List.forall_mem_cons] at hatoms
    have hfirst : ∀ l ∈ e.1.lits, l.atom < r.atomVars.size := by
      rw [ht.size_atomVars]
      exact hatoms.1
    obtain ⟨hextends, hrows⟩ := ih (ht.addConstraint e) hatoms.2
    refine ⟨(Extends.addConstraint hfirst).trans hextends,
      List.forall_mem_cons.2 ⟨fun hhard => ?_, hrows⟩⟩
    exact (hasRow_addConstraint hhard hfirst e.2).mono hextends

/-- The relaxation of a network has bounded variables and the rows of all hard
constraints, whatever the weights are. -/
theorem isBoxed_ofNetwork (hw : net.Wired) (gold : Option (Nat → Bool)) :
    (ofNetwork net gold).program.IsBoxed ∧
      ∀ c ∈ net.constraints, c.isHard = true → HasRow (ofNetwork net gold) c := by
  have hatoms : ∀ e ∈ net.constraints.toList.zipIdx, ∀ l ∈ e.1.lits, l.atom < net.nodes.size :=
    fun e he l hl => hw.atom_lt (Array.mem_toList_iff.1 (List.fst_mem_of_mem_zipIdx he)) hl
  obtain ⟨hextends, hrows⟩ := foldl_addConstraint (tabled_blank net) hatoms
  have hboxed := hextends.boxed Program.isBoxed_empty
  have hall : ∀ c ∈ net.constraints, c.isHard = true →
      HasRow (net.constraints.toList.zipIdx.foldl (addConstraint net) (blank net)) c := by
    intro c hc
    obtain ⟨i, hi⟩ := Array.getElem?_of_mem hc
    exact hrows (c, i) (List.mk_mem_zipIdx_iff_getElem?.2 (by rwa [Array.getElem?_toList]))
  cases gold with
  | none => exact ⟨hboxed, hall⟩
  | some gold =>
    have hloss : Extends _ (ofNetwork net (some gold)) := .addLoss _ gold
    exact ⟨hloss.boxed hboxed, fun c hc hhard => (hall c hc hhard).mono hloss⟩

/-! ### Truths of literals -/

/-- How true a literal is at a point. -/
def truth (r : Relaxation (Extended K)) (x : Nat → K) (l : NetLiteral) : K :=
  let y := x ((r.atomVars.getD l.atom none).getD 0)
  if l.positive then y else 1 - y

theorem Reads.sum_add_negatives {ls : List NetLiteral} {ts : List (Nat × Extended K)}
    (h : Reads r ls ts) (x : Nat → K) :
    (ts.map fun t => t.2.value * x t.1).sum + (ls.countP fun l => !l.positive : Nat) =
      (ls.map (truth r x)).sum := by
  induction h with
  | nil => simp
  | @cons l t ls ts hlt _ ih =>
    obtain ⟨hvar, hcoefficient⟩ := hlt
    rw [List.map_cons, List.sum_cons, List.map_cons, List.sum_cons, ← ih, List.countP_cons,
      hcoefficient, truth, hvar]
    cases l.positive <;> simp <;> ring

/-- At a feasible point the literals of a hard constraint are together at least as true
as one that is true. -/
theorem one_le_sum_truth [IsStrictOrderedRing K] (ht : Tabled net r)
    {c : Constraint (Extended K)} (h : HasRow r c) {x : Nat → K}
    (hfeasible : r.program.isFeasible (r.program.point x) 0 = true) :
    1 ≤ (c.lits.map (truth r x)).sum := by
  obtain ⟨ts, hreads, hrow⟩ := h
  have hholds := Program.holdsAt_of_isFeasible hfeasible hrow (hreads.isRegular ht)
  rw [Program.Row.HoldsAt, one_sub_negatives_eq, Extended.value_finite, Program.Row.lhsAt,
    sub_le_iff_le_add, hreads.sum_add_negatives] at hholds
  exact hholds

/-- A few literals that are less true than the tolerance are together less than true. -/
theorem sum_truth_lt_one [IsStrictOrderedRing K] {ls : List NetLiteral} {x : Nat → K} {t : K}
    (hfew : ls.length * t ≤ 1) (hsmall : ∀ l ∈ ls, truth r x l < t) :
    (ls.map (truth r x)).sum < 1 := by
  rcases eq_or_ne ls [] with rfl | hne
  · simp
  · calc (ls.map (truth r x)).sum
        < (ls.map fun _ => t).sum := List.sum_lt_sum_of_ne_nil hne _ _ hsmall
      _ = ls.length * t := by rw [List.map_const', List.sum_replicate, nsmul_eq_mul]
      _ ≤ 1 := hfew

/-! ### The main statement -/

/-- A literal that is made false although its atom is decided is less true than the
tolerance. -/
theorem truth_lt_of_decided {ρ : Type} [RandomSource ρ] [IsStrictOrderedRing K]
    {settings : Settings (Extended K)} {t : K} (htolerance : settings.tolerance = .finite t)
    (searching : LocalSearch.Settings (Extended K)) (ht : Tabled net r) {x : Nat → K}
    {l : NetLiteral} {v : Nat} (hv : r.atomVars.getD l.atom none = some v)
    (hdecided : 1 - t < x v ∨ x v < t)
    (hfalse : ((round ρ net settings searching
      (r.atomValues (r.program.point x))).assignment.getD l.atom false == l.positive) = false) :
    truth r x l < t := by
  have hentry : (l.atom, .finite (x v)) ∈ r.atomValues (r.program.point x) := by
    refine mem_atomValues_iff.2 ⟨ht.discovered _ _ hv, v, hv, ?_⟩
    rw [Program.getElem?_point (ht.lt_size _ _ hv)]
    rfl
  have hassigned : ∀ b, verdict? settings.tolerance (.finite (x v)) = some b →
      (round ρ net settings searching
        (r.atomValues (r.program.point x))).assignment.getD l.atom false = b := by
    intro b hb
    rw [Array.getD_eq_getD_getElem?, getElem?_round ρ settings searching
      (consistent_atomValues _ _) hentry (ht.lt_nodes hv) hb]
    rfl
  rw [htolerance] at hassigned
  rw [truth, hv]
  by_cases habove : 1 - t < x v
  · -- the atom is made true, so the literal is negative
    have htrue := hassigned true (by simp [verdict?, habove])
    cases hpositive : l.positive with
    | true => simp [htrue, hpositive] at hfalse
    | false =>
      simp only [Option.getD_some, Bool.false_eq_true, if_false]
      linarith
  · have hbelow := hdecided.resolve_left habove
    have hmade := hassigned false (by simp [verdict?, habove, hbelow])
    cases hpositive : l.positive with
    | true => simpa using hbelow
    | false => simp [hmade, hpositive] at hfalse

/-- **Rounding keeps the hard constraints that the relaxation decides.**  Take any
assembled network, whatever its weights are, and a point that is feasible for its
relaxation.  If a hard constraint has so few literals that the tolerance times their
number is at most one, and the values of all its atoms are above one minus the
tolerance or below it, then both ways of rounding return an assignment that satisfies
it. -/
theorem rounding_keeps_hard [IsStrictOrderedRing K] (ρ : Type) [RandomSource ρ]
    (cliques : List (UInt64 × Clique (Extended K))) (extra : List Nat)
    (range : Option (Nat × Nat)) (settings : Settings (Extended K)) (t : K)
    (htolerance : settings.tolerance = .finite t)
    (searching : LocalSearch.Settings (Extended K)) (gold : Option (Nat → Bool))
    (values : List (Extended K)) :
    let net := Network.assemble cliques extra range
    let r := relax net settings gold
    values.length = r.program.vars.size → r.program.isFeasible values 0 = true →
      ∀ c ∈ net.constraints, c.isHard = true → c.lits.length * t ≤ 1 →
        (∀ l ∈ c.lits, ∀ v, r.atomVars.getD l.atom none = some v →
          1 - settings.tolerance < values.getD v 0 ∨ values.getD v 0 < settings.tolerance) →
        1 ≤ c.countTrue (round ρ net settings searching (r.atomValues values)).assignment := by
  intro net r hlength hfeasible c hc hhard hfew hdecided
  have hw : net.Wired := Network.wired_assemble cliques extra range
  have ht : Tabled net r := tabled_ofNetwork net _
  obtain ⟨hboxed, hrows⟩ : r.program.IsBoxed ∧
      ∀ c ∈ net.constraints, c.isHard = true → HasRow r c := isBoxed_ofNetwork hw _
  obtain ⟨x, rfl⟩ := Program.exists_point hboxed hlength hfeasible
  by_contra hnone
  rw [Nat.not_le, Nat.lt_one_iff, Constraint.countTrue, List.countP_eq_zero] at hnone
  have hsmall : ∀ l ∈ c.lits, truth r x l < t := by
    intro l hl
    obtain ⟨v, hv⟩ : ∃ v, r.atomVars.getD l.atom none = some v := by
      obtain ⟨ts, hreads, -⟩ := hrows c hc hhard
      obtain ⟨s, -, hs, -⟩ := exists_mem_of_forall₂ hreads.flip hl
      exact ⟨s.1, hs⟩
    have hvalue := hdecided l hl v hv
    rw [List.getD_eq_getElem?_getD, Program.getElem?_point (ht.lt_size _ _ hv), htolerance,
      Option.getD_some, Extended.one_eq, Extended.finite_sub, Extended.finite_lt,
      Extended.finite_lt] at hvalue
    exact truth_lt_of_decided htolerance searching ht hv hvalue
      (Bool.eq_false_iff.2 (hnone l hl))
  exact (one_le_sum_truth ht (hrows c hc hhard) hfeasible).not_gt (sum_truth_lt_one hfew hsmall)

/-- Values that are near to one keep the implication between two atoms. -/
theorem rounding_keeps_hard_implied :
    let net := Network.assemble impliedCliques [] none
    let values : List (Extended ℚ) := [.finite (199 / 200), .finite (199 / 200)]
    let implication : Constraint (Extended ℚ) :=
      ⟨2, .hard, [-1, 2], [⟨0, false⟩, ⟨1, true⟩], [(1, 1)]⟩
    plain.tolerance = .finite (1 / 100) ∧
      (relax net plain none).program.isFeasible values 0 = true ∧
      1 ≤ implication.countTrue
        (round ChaCha net plain someSearch
          ((relax net plain none).atomValues values)).assignment := by
  intro net values implication
  have hfeasible : (relax net plain none).program.isFeasible values 0 = true := by
    rw [relax_implied]
    decide +kernel
  have hc : implication ∈ net.constraints := by
    rw [assemble_implied.1]
    simp [implication]
  refine ⟨rfl, hfeasible, rounding_keeps_hard ChaCha impliedCliques [] none plain (1 / 100) rfl
    someSearch none values ?_ hfeasible implication hc rfl ?_ ?_⟩
  · rw [relax_implied]
    rfl
  · norm_num [implication]
  · have hnear : 1 - plain.tolerance < (.finite (199 / 200) : Extended ℚ) := by
      rw [plain, Extended.one_eq, Extended.finite_sub, Extended.finite_lt]
      norm_num
    rw [relax_implied]
    intro l hl v hv
    simp only [implication, List.mem_cons, List.not_mem_nil, or_false] at hl
    rcases hl with rfl | rfl
    · cases hv
      exact .inl hnear
    · cases hv
      exact .inl hnear

end Relaxation

end MarkovLogic
