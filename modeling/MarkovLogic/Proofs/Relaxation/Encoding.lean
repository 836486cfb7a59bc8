/-
MarkovLogic/Proofs/Relaxation/Encoding.lean

The relaxation at points with coordinates zero and one.

An assignment of the network fixes the variables of the atoms to zeros and ones.
What is left open are the auxiliary variables of the constraints.  They can be
chosen if and only if the assignment violates no hard constraint, and then the
largest objective is a constant minus the cost of the assignment.

Design.  The relaxation grows by one constraint at a time, and each step keeps
one invariant (`Encodes`): all points over the assignment, that is, those with
its zeros and ones, have an objective of at most some number, the gain, and some
point reaches it, provided that the hard constraints so far hold.  Both halves
are needed together, since the next step extends the point that reaches the gain
and restricts the others.

The steps come in three kinds: rows over atoms only (`Encodes.addRow`), changes
of the objective by what is the same at all points over the assignment
(`Encodes.adjust`), and an auxiliary variable with rows that say that it is at
most some zero or one (`Encodes.addCapped`).  The four encodings of constraints
and the loss are made of these.

Main statement: `encodes_ofNetwork`.
-/
import MarkovLogic.Proofs.Network.Lexicographic
import MarkovLogic.Proofs.Relaxation.Table

namespace MarkovLogic

open Linear

variable {K : Type} [Field K] [LinearOrder K] [FloorRing K]

/-! ### What a constraint is worth -/

namespace Constraint

/-- The part of a constraint in the constant between cost and objective: the
weight if it should hold, and the price if it should fail and has at least two
literals. -/
def ceiling (c : Constraint (Extended K)) : K :=
  match c.strength with
  | .hard => 0
  | .soft w => if 0 < w then w.value else if 2 ≤ c.lits.length then |w.value| else 0

/-- A hard constraint holds under the assignment. -/
def Admits (s : Array Bool) (c : Constraint (Extended K)) : Prop :=
  c.isHard = true → 1 ≤ c.countTrue s

/-- What a soft constraint is worth under an assignment. -/
theorem ceiling_sub_softCost [IsStrictOrderedRing K] {c : Constraint (Extended K)} {w : K}
    (h : c.strength = .soft (.finite w)) (s : Array Bool) :
    c.ceiling - c.softCost s =
      if 0 < w then w * (if 1 ≤ c.countTrue s then 1 else 0)
      else if 2 ≤ c.lits.length then -w * (if 1 ≤ c.countTrue s then 0 else 1)
      else if 1 ≤ c.countTrue s then w else 0 := by
  have hpositive : c.isPositive = decide (0 < w) := by
    simp [isPositive, h]
  simp only [ceiling, softCost, isViolated, hpositive, h, Extended.zero_eq, Extended.finite_lt,
    Extended.value_finite]
  by_cases hw : 0 < w
  · by_cases hsome : 1 ≤ c.countTrue s <;> simp [hw, hsome, abs_of_pos]
  · have habs : |w| = -w := abs_of_nonpos (not_lt.1 hw)
    by_cases hsome : 1 ≤ c.countTrue s <;> by_cases hmany : 2 ≤ c.lits.length <;>
      simp [hw, hsome, hmany, habs]

end Constraint

namespace Relaxation

/-! ### Points over an assignment -/

/-- The coordinate of an atom with a given value. -/
def coordinate (b : Bool) : K :=
  if b then 1 else 0

/-- The variables of the atoms have the values of the assignment. -/
def IsOver (r : Relaxation (Extended K)) (s : Array Bool) (x : Nat → K) : Prop :=
  ∀ a v, r.atomVars.getD a none = some v → x v = coordinate (s.getD a false)

/-- The program of the relaxation has a point over the assignment exactly if
`holds`, and then `gain` is the largest objective at such points. -/
structure Encodes (net : Network (Extended K)) (s : Array Bool) (r : Relaxation (Extended K))
    (holds : Prop) (gain : K) : Prop where
  regular : r.program.IsRegular
  size_atomVars : r.atomVars.size = net.nodes.size
  lt_size : ∀ a v, r.atomVars.getD a none = some v → v < r.program.vars.size
  discovered : ∀ a v, r.atomVars.getD a none = some v → a ∈ r.discovery
  bound : ∀ x, r.program.IsPoint x → r.IsOver s x → holds ∧ r.program.objectiveAt x ≤ gain
  attained : holds → ∃ x, r.program.IsPoint x ∧ r.IsOver s x ∧ r.program.objectiveAt x = gain

variable {net : Network (Extended K)} {s : Array Bool} {r : Relaxation (Extended K)}
  {holds : Prop} {gain : K}

omit [FloorRing K] in
theorem coordinate_bounds [IsStrictOrderedRing K] (b : Bool) :
    0 ≤ (coordinate b : K) ∧ (coordinate b : K) ≤ 1 := by
  cases b <;> simp [coordinate]

/-- Without constraints every assignment has a point, and it is worth nothing. -/
theorem encodes_blank (net : Network (Extended K)) (s : Array Bool) :
    Encodes net s (blank net) True 0 := by
  have hvalue : ∀ x : Nat → K, (Program.empty : Program (Extended K)).objectiveAt x = 0 := by
    intro x
    simp [Program.objectiveAt, Program.empty]
  have hpoint : ∀ x : Nat → K, (Program.empty : Program (Extended K)).IsPoint x := fun x =>
    ⟨fun j hj => absurd hj (Nat.not_lt_zero j), fun row hrow => by simp [Program.empty] at hrow⟩
  have hnone : ∀ a, (blank net).atomVars.getD a none = none := by
    intro a
    rw [blank, Array.getD_eq_getD_getElem?, Array.getElem?_map]
    cases net.nodes[a]? <;> rfl
  have hfalse : ∀ a v, (blank net).atomVars.getD a none ≠ some v := by
    intro a v h
    rw [hnone] at h
    cases h
  refine ⟨Program.isRegular_empty, ?_, fun a v h => absurd h (hfalse a v),
    fun a v h => absurd h (hfalse a v), fun x _ _ => ⟨trivial, (hvalue x).le⟩,
    fun _ => ⟨0, hpoint 0, fun a v h => absurd h (hfalse a v), hvalue 0⟩⟩
  simp [blank]

/-! ### Variables and terms -/

/-- The second relaxation has the variables of atoms of the first. -/
def Keeps (r r' : Relaxation (Extended K)) : Prop :=
  ∀ a v, r.atomVars.getD a none = some v → r'.atomVars.getD a none = some v

theorem keeps_varOf {atom : Nat} (hatom : atom < r.atomVars.size) :
    Keeps r (r.varOf net atom).2 := by
  intro a v hv
  rcases hvar : r.atomVars.getD atom none with _ | w
  · exact (atomVars_varOf_iff net hatom hvar a v).2 (.inr hv)
  · simpa only [varOf, hvar] using hv

/-- The variable that an atom gets is its variable. -/
theorem getD_varOf {atom : Nat} (hatom : atom < r.atomVars.size) :
    (r.varOf net atom).2.atomVars.getD atom none = some (r.varOf net atom).1 := by
  rcases hvar : r.atomVars.getD atom none with _ | w
  · rw [atomVars_varOf_iff net hatom hvar]
    simp only [varOf, hvar, and_self, true_or]
  · simp only [varOf, hvar]

/-- The terms are those of the literals. -/
def Reads (r : Relaxation (Extended K)) (ls : List NetLiteral) (ts : List (Nat × Extended K)) :
    Prop :=
  List.Forall₂ (fun l t => r.atomVars.getD l.atom none = some t.1 ∧
    t.2 = if l.positive then 1 else -1) ls ts

theorem keeps_terms {ls : List NetLiteral} (hls : ∀ l ∈ ls, l.atom < r.atomVars.size) :
    Keeps r (terms net ls r).2 :=
  terms_induction hls (fun _ _ hv => hv) fun _ _ hatom hq a v hv =>
    keeps_varOf hatom a v (hq a v hv)

theorem reads_terms (net : Network (Extended K)) {ls : List NetLiteral}
    (hls : ∀ l ∈ ls, l.atom < r.atomVars.size) :
    Reads (terms net ls r).2 ls (terms net ls r).1 := by
  induction ls generalizing r with
  | nil => exact .nil
  | cons l ls ih =>
    rw [List.forall_mem_cons] at hls
    have hrest : ∀ l' ∈ ls, l'.atom < (r.varOf net l.atom).2.atomVars.size := by
      rw [size_atomVars_varOf]
      exact hls.2
    exact .cons ⟨keeps_terms hrest _ _ (getD_varOf hls.1), rfl⟩ (ih hrest)

/-- Over an assignment the sum of the terms is the number of true literals less
that of the negative ones. -/
theorem Reads.sum_eq {ls : List NetLiteral} {ts : List (Nat × Extended K)} (h : Reads r ls ts)
    {x : Nat → K} (hover : r.IsOver s x) :
    (ts.map fun t => t.2.value * x t.1).sum =
      (ls.countP fun l => s.getD l.atom false == l.positive : Nat) -
        (ls.countP fun l => !l.positive : Nat) := by
  induction h with
  | nil => simp
  | @cons l t ls ts hlt _ ih =>
    obtain ⟨hvar, hcoefficient⟩ := hlt
    rw [List.map_cons, List.sum_cons, ih, List.countP_cons, List.countP_cons, hcoefficient,
      hover _ _ hvar]
    cases l.positive <;> cases s.getD l.atom false <;> simp [coordinate] <;> ring

theorem Reads.mem {ls : List NetLiteral} {ts : List (Nat × Extended K)} (h : Reads r ls ts)
    {t : Nat × Extended K} (ht : t ∈ ts) :
    ∃ l ∈ ls, r.atomVars.getD l.atom none = some t.1 ∧ t.2 = if l.positive then 1 else -1 :=
  exists_mem_of_forall₂ h ht

/-- The terms of the literals of a constraint are over variables of the program. -/
theorem Reads.terms_lt {ls : List NetLiteral} {ts : List (Nat × Extended K)}
    (h : Reads r ls ts) (ht : Tabled net r) :
    ∀ t ∈ ts, t.1 < r.program.vars.size ∧ ∃ c, t.2 = .finite c := by
  intro t hmem
  obtain ⟨l, -, hvar, hcoefficient⟩ := h.mem hmem
  refine ⟨ht.lt_size _ _ hvar, ?_⟩
  rw [hcoefficient]
  split
  · exact ⟨1, rfl⟩
  · exact ⟨-1, rfl⟩

theorem negatives_eq (c : Constraint (Extended K)) :
    negatives c = .finite ((c.lits.countP fun l => !l.positive : Nat) : K) := by
  have hones : ((c.lits.filter fun l => !l.positive).map fun _ => (1 : Extended K)) =
      ((c.lits.filter fun l => !l.positive).map fun _ => (1 : K)).map Extended.finite := by
    rw [List.map_map]
    rfl
  rw [negatives, hones, Extended.sum_map_finite, List.map_const', List.sum_replicate,
    List.countP_eq_length_filter, nsmul_one]

/-- The right side of the row of a hard constraint. -/
theorem one_sub_negatives_eq (c : Constraint (Extended K)) :
    (1 - negatives c : Extended K) =
      .finite (1 - (c.lits.countP fun l => !l.positive : Nat)) := by
  rw [negatives_eq, Extended.one_eq, Extended.finite_sub]

/-- The row of a hard constraint mentions variables of the program only. -/
theorem Reads.isRegular {c : Constraint (Extended K)} {ts : List (Nat × Extended K)}
    (h : Reads r c.lits ts) (ht : Tabled net r) :
    Program.Row.IsRegular r.program.vars.size ⟨ts, .atLeast, 1 - negatives c⟩ :=
  ⟨⟨_, one_sub_negatives_eq c⟩, h.terms_lt ht⟩

/-- The coefficient of a negative literal is a negative number. -/
theorem sign_lt_zero_iff [IsStrictOrderedRing K] (positive : Bool) :
    (if positive then 1 else -1 : Extended K) < 0 ↔ positive = false := by
  cases positive <;> simp

/-- The row that keeps an auxiliary variable below the opposite of a literal. -/
def capRow (aux : Nat) (t : Nat × Extended K) : Row (Extended K) :=
  ⟨[(aux, 1), t], .atMost, if t.2 < 0 then 0 else 1⟩

/-- Over an assignment these rows say that the auxiliary variable is zero if a
literal is true, and otherwise at most one. -/
theorem Reads.forall_capRow_iff [IsStrictOrderedRing K] {ls : List NetLiteral}
    {ts : List (Nat × Extended K)} (h : Reads r ls ts) {x : Nat → K} (hover : r.IsOver s x)
    {aux : Nat} :
    (∀ t ∈ ts, Program.Row.HoldsAt (capRow aux t) x) ↔
      ∀ l ∈ ls, x aux ≤ if s.getD l.atom false == l.positive then 0 else 1 := by
  induction h with
  | nil => simp
  | @cons l t ls ts hlt _ ih =>
    obtain ⟨v, coefficient⟩ := t
    obtain ⟨hvar, rfl⟩ := hlt
    rw [List.forall_mem_cons, List.forall_mem_cons, ih]
    refine and_congr_left fun _ => ?_
    rw [capRow, Program.Row.HoldsAt, Program.Row.lhsAt]
    simp only [List.map_cons, List.map_nil, List.sum_cons, List.sum_nil, hover _ _ hvar,
      sign_lt_zero_iff]
    cases l.positive <;> cases s.getD l.atom false <;> simp [coordinate]

/-- What an auxiliary variable of weight `w` and rows do to a program: the variable is
between zero and one, the rows have to hold too, and a point is worth `w` times the
variable more. -/
theorem addRows_addAux (hregular : r.program.IsRegular) (index : Nat) (w : K)
    {rows : List (Row (Extended K))}
    (hrows : ∀ row ∈ rows, Program.Row.IsRegular (r.program.vars.size + 1) row) :
    let p := rows.foldl Program.addRow (r.addAux index (.finite w)).2.program
    p.IsRegular ∧ p.vars.size = r.program.vars.size + 1 ∧
      ∀ x, (p.IsPoint x ↔ (r.program.IsPoint x ∧ 0 ≤ x r.program.vars.size ∧
          x r.program.vars.size ≤ 1) ∧ ∀ row ∈ rows, Program.Row.HoldsAt row x) ∧
        p.objectiveAt x = r.program.objectiveAt x + w * x r.program.vars.size := by
  have hadded := hregular.addVariable ("clause:" ++ toString index)
  have hsize : ((r.program.addVariable ("clause:" ++ toString index) (some 1)).addObjective
      r.program.vars.size (.finite w)).vars.size = r.program.vars.size + 1 := by
    rw [Program.size_addObjective, Program.size_addVariable]
  have hlast : r.program.vars.size <
      (r.program.addVariable ("clause:" ++ toString index) (some 1)).vars.size := by
    rw [Program.size_addVariable]
    exact Nat.lt_succ_self _
  rw [← hsize] at hrows
  obtain ⟨hregular', hsize', hpoints⟩ := Program.addRows
    (hadded.addObjective r.program.vars.size w) hrows
  refine ⟨hregular', hsize'.trans hsize, fun x => ⟨(hpoints x).1.trans ?_,
    (hpoints x).2.trans ?_⟩⟩
  · rw [Program.isPoint_addObjective_iff, Program.isPoint_addVariable_iff]
  · rw [Program.objectiveAt_addObjective hadded hlast, Program.objectiveAt_addVariable]

/-! ### Steps -/

omit [Field K] [LinearOrder K] [FloorRing K] in
/-- A new value after the first `n` leaves these as they are. -/
theorem eq_update_of_lt (x : Nat → K) (n : Nat) (y : K) :
    ∀ j < n, x j = Function.update x n y j :=
  fun _ hj => (Function.update_of_ne hj.ne _ _).symm

namespace Encodes

variable [IsStrictOrderedRing K]

omit [FloorRing K] [IsStrictOrderedRing K] in
theorem tabled (h : Encodes net s r holds gain) : Tabled net r :=
  ⟨h.size_atomVars, h.discovered, h.lt_size⟩

/-- An atom that comes up gets a variable. -/
theorem varOf (h : Encodes net s r holds gain) {atom : Nat} (hatom : atom < net.nodes.size) :
    Encodes net s (r.varOf net atom).2 holds gain := by
  rw [← h.size_atomVars] at hatom
  -- an atom that has a variable already changes nothing, so only a new one matters
  rcases hvar : r.atomVars.getD atom none with _ | w
  · have hiff := atomVars_varOf_iff net hatom hvar
    have htabled := h.tabled.varOf atom
    simp only [Relaxation.varOf, hvar] at hiff htabled ⊢
    refine ⟨h.regular.addVariable _, htabled.size_atomVars, htabled.lt_size, htabled.discovered,
      fun x hx hover => ?_, fun hholds => ?_⟩
    · rw [Program.objectiveAt_addVariable]
      exact h.bound x ((Program.isPoint_addVariable_iff _ _ x).1 hx).1
        fun a v hv => hover a v ((hiff a v).2 (.inr hv))
    · -- the point that reaches the gain is extended by the value of the atom
      obtain ⟨x, hx, hover, hvalue⟩ := h.attained hholds
      have hsame := eq_update_of_lt x r.program.vars.size (coordinate (s.getD atom false))
      refine ⟨Function.update x r.program.vars.size (coordinate (s.getD atom false)), ?_, ?_, ?_⟩
      · refine (Program.isPoint_addVariable_iff _ _ _).2 ⟨h.regular.isPoint_congr hsame hx, ?_⟩
        rw [Function.update_self]
        exact coordinate_bounds _
      · intro a v hv
        rcases (hiff a v).1 hv with ⟨rfl, rfl⟩ | hv
        · rw [Function.update_self]
        · rw [← hsame v (h.lt_size a v hv)]
          exact hover a v hv
      · rw [Program.objectiveAt_addVariable, ← Program.objectiveAt_congr hsame, hvalue]
  · simpa only [Relaxation.varOf, hvar] using h

theorem terms (h : Encodes net s r holds gain) {ls : List NetLiteral}
    (hls : ∀ l ∈ ls, l.atom < net.nodes.size) :
    Encodes net s (terms net ls r).2 holds gain :=
  terms_induction (motive := fun q => Encodes net s q holds gain)
    (h.size_atomVars.symm ▸ hls) h fun _ _ hatom hq => hq.varOf (hq.size_atomVars ▸ hatom)

omit [FloorRing K] [IsStrictOrderedRing K] in
/-- A row that holds at all points over the assignment or at none. -/
theorem addRow (h : Encodes net s r holds gain) {row : Row (Extended K)} {admits : Prop}
    (hregular : Program.Row.IsRegular r.program.vars.size row)
    (hrow : ∀ x, r.IsOver s x → (Program.Row.HoldsAt row x ↔ admits)) :
    Encodes net s { r with program := r.program.addRow row } (holds ∧ admits) gain := by
  refine ⟨h.regular.addRow hregular, h.size_atomVars, h.lt_size, h.discovered,
    fun x hx hover => ?_, fun ⟨hholds, hadmits⟩ => ?_⟩
  · obtain ⟨hx, hat⟩ := (Program.isPoint_addRow_iff row x).1 hx
    obtain ⟨hholds, hvalue⟩ := h.bound x hx hover
    exact ⟨⟨hholds, (hrow x hover).1 hat⟩, hvalue⟩
  · obtain ⟨x, hx, hover, hvalue⟩ := h.attained hholds
    exact ⟨x, (Program.isPoint_addRow_iff row x).2 ⟨hx, (hrow x hover).2 hadmits⟩, hover, hvalue⟩

omit [FloorRing K] in
/-- A change of the objective that is the same at all points over the
assignment. -/
theorem adjust (h : Encodes net s r holds gain) {p : Program (Extended K)} {change : K}
    (hregular : p.IsRegular) (hsize : p.vars.size = r.program.vars.size)
    (hpoint : ∀ x, p.IsPoint x ↔ r.program.IsPoint x)
    (hchange : ∀ x, r.IsOver s x → p.objectiveAt x = r.program.objectiveAt x + change) :
    Encodes net s { r with program := p } holds (gain + change) := by
  refine ⟨hregular, h.size_atomVars, fun a v hv => hsize ▸ h.lt_size a v hv, h.discovered,
    fun x hx hover => ?_, fun hholds => ?_⟩
  · obtain ⟨hholds, hvalue⟩ := h.bound x ((hpoint x).1 hx) hover
    refine ⟨hholds, ?_⟩
    dsimp only
    rw [hchange x hover]
    exact add_le_add_left hvalue change
  · obtain ⟨x, hx, hover, hvalue⟩ := h.attained hholds
    exact ⟨x, (hpoint x).2 hx, hover, by rw [← hvalue]; exact hchange x hover⟩

/-- An auxiliary variable of weight `w`, and rows that say that over the
assignment it is at most `cap`. -/
theorem addCapped (h : Encodes net s r holds gain) (index : Nat) {w cap : K} (hw : 0 ≤ w)
    (hcap : 0 ≤ cap ∧ cap ≤ 1) (rows : List (Row (Extended K)))
    (hregular : ∀ row ∈ rows, Program.Row.IsRegular (r.program.vars.size + 1) row)
    (hrows : ∀ x, r.IsOver s x → x r.program.vars.size ≤ 1 →
      ((∀ row ∈ rows, Program.Row.HoldsAt row x) ↔ x r.program.vars.size ≤ cap)) :
    Encodes net s { (r.addAux index (.finite w)).2 with
      program := rows.foldl Program.addRow (r.addAux index (.finite w)).2.program }
      holds (gain + w * cap) := by
  obtain ⟨hregular', hsize, hpoints⟩ := addRows_addAux h.regular index w hregular
  refine ⟨hregular', h.size_atomVars, fun a v hv => ?_, h.discovered, fun x hx hover => ?_,
    fun hholds => ?_⟩
  · dsimp only at hv ⊢
    rw [hsize]
    exact (h.lt_size a v hv).trans (Nat.lt_succ_self _)
  · obtain ⟨⟨hx, -, hone⟩, hall⟩ := (hpoints x).1.1 hx
    obtain ⟨hholds, hvalue⟩ := h.bound x hx hover
    refine ⟨hholds, ?_⟩
    dsimp only
    rw [(hpoints x).2]
    exact add_le_add hvalue (mul_le_mul_of_nonneg_left ((hrows x hover hone).1 hall) hw)
  · -- the auxiliary variable takes the largest value that the rows allow
    obtain ⟨x, hx, hover, hvalue⟩ := h.attained hholds
    have hsame := eq_update_of_lt x r.program.vars.size cap
    have hover' : r.IsOver s (Function.update x r.program.vars.size cap) := by
      intro a v hv
      rw [← hsame v (h.lt_size a v hv)]
      exact hover a v hv
    have hself : Function.update x r.program.vars.size cap r.program.vars.size = cap :=
      Function.update_self ..
    refine ⟨Function.update x r.program.vars.size cap, (hpoints _).1.2 ⟨⟨?_, ?_⟩, ?_⟩, hover', ?_⟩
    · exact h.regular.isPoint_congr hsame hx
    · rw [hself]
      exact hcap
    · exact (hrows _ hover' (by rw [hself]; exact hcap.2)).2 hself.le
    · dsimp only
      rw [(hpoints _).2, hself, ← Program.objectiveAt_congr hsame, hvalue]

/-! ### The four encodings -/

/-- A hard constraint. -/
theorem hard (h : Encodes net s r holds gain) {c : Constraint (Extended K)}
    {ts : List (Nat × Extended K)} (hreads : Reads r c.lits ts) :
    Encodes net s { r with program := r.program.addRow ⟨ts, .atLeast, 1 - negatives c⟩ }
      (holds ∧ 1 ≤ c.countTrue s) gain := by
  refine h.addRow (hreads.isRegular h.tabled) fun x hover => ?_
  show (1 - negatives c).value ≤ (ts.map fun t => t.2.value * x t.1).sum ↔ 1 ≤ c.countTrue s
  rw [one_sub_negatives_eq, hreads.sum_eq hover, Extended.value_finite, sub_le_sub_iff_right,
    Nat.one_le_cast]
  rfl

/-- A soft constraint with one literal. -/
theorem unit (h : Encodes net s r holds gain) {l : NetLiteral} {t : Nat × Extended K}
    (hvar : r.atomVars.getD l.atom none = some t.1)
    (hcoefficient : t.2 = if l.positive then 1 else -1) (w : K) :
    Encodes net s { r with program :=
        if t.2 < 0 then (r.program.addObjective t.1 (.finite w * t.2)).addOffset (.finite w)
        else r.program.addObjective t.1 (.finite w * t.2) }
      holds (gain + if s.getD l.atom false == l.positive then w else 0) := by
  have hlt := h.lt_size _ _ hvar
  simp only [hcoefficient, sign_lt_zero_iff]
  cases l.positive with
  | true =>
    have hproduct : (.finite w * 1 : Extended K) = .finite (w * 1) := rfl
    simp only [if_true, Bool.true_eq_false, if_false, hproduct]
    refine h.adjust (h.regular.addObjective _ _) (Program.size_addObjective _ _ _)
      (fun x => Program.isPoint_addObjective_iff _ _ x) fun x hover => ?_
    rw [Program.objectiveAt_addObjective h.regular hlt, hover _ _ hvar]
    cases s.getD l.atom false <;> simp [coordinate]
  | false =>
    have hproduct : (.finite w * -1 : Extended K) = .finite (w * -1) := rfl
    simp only [Bool.false_eq_true, if_false, if_true, hproduct]
    have hregular := h.regular.addObjective t.1 (w * -1)
    refine h.adjust (hregular.addOffset w) (Program.size_addObjective _ _ _)
      (fun x => (Program.isPoint_addOffset_iff _ x).trans
        (Program.isPoint_addObjective_iff _ _ x)) fun x hover => ?_
    rw [Program.objectiveAt_addOffset hregular, Program.objectiveAt_addObjective h.regular hlt,
      hover _ _ hvar]
    cases s.getD l.atom false <;> simp [coordinate]

/-- A soft constraint that should hold: the auxiliary variable can reach one
exactly if some literal is true. -/
theorem positive (h : Encodes net s r holds gain) {c : Constraint (Extended K)}
    {ts : List (Nat × Extended K)} (hreads : Reads r c.lits ts) (index : Nat) {w : K}
    (hw : 0 ≤ w) :
    Encodes net s { (r.addAux index (.finite w)).2 with
      program := (r.addAux index (.finite w)).2.program.addRow
        ⟨ts ++ [(r.program.vars.size, -1)], .atLeast, -negatives c⟩ }
      holds (gain + w * if 1 ≤ c.countTrue s then 1 else 0) := by
  have hrhs : (-negatives c : Extended K) =
      .finite (-(c.lits.countP fun l => !l.positive : Nat)) := by
    rw [negatives_eq, Extended.neg_finite]
  have hregular : Program.Row.IsRegular (r.program.vars.size + 1)
      ⟨ts ++ [(r.program.vars.size, -1)], .atLeast, -negatives c⟩ := by
    refine ⟨⟨_, hrhs⟩, fun t ht => ?_⟩
    rcases List.mem_append.1 ht with ht | ht
    · obtain ⟨hlt, hfinite⟩ := hreads.terms_lt h.tabled t ht
      exact ⟨hlt.trans (Nat.lt_succ_self _), hfinite⟩
    · rw [List.mem_singleton.1 ht]
      exact ⟨Nat.lt_succ_self _, -1, rfl⟩
  refine h.addCapped index hw (by split <;> simp) [_] (List.forall_mem_singleton.2 hregular)
    fun x hover hone => ?_
  have hlhs : Program.Row.lhsAt ⟨ts ++ [(r.program.vars.size, -1)], .atLeast, -negatives c⟩ x =
      (c.countTrue s : K) - (c.lits.countP fun l => !l.positive : Nat) -
        x r.program.vars.size := by
    rw [Program.Row.lhsAt, List.map_append, List.sum_append, hreads.sum_eq hover]
    simp [Constraint.countTrue, sub_eq_add_neg]
  rw [List.forall_mem_singleton, Program.Row.HoldsAt]
  dsimp only
  rw [hlhs, hrhs, Extended.value_finite]
  split
  · -- with a true literal the row leaves the variable free up to one
    rename_i hsome
    have hcount : (1 : K) ≤ c.countTrue s := Nat.one_le_cast.2 hsome
    constructor <;> intro <;> linarith
  · -- without one it forces the variable down to zero
    rename_i hnone
    have hcount : (c.countTrue s : K) = 0 := by
      rw [Nat.cast_eq_zero]
      omega
    rw [hcount]
    constructor <;> intro <;> linarith

/-- A soft constraint that should fail: the auxiliary variable can reach one
exactly if no literal is true. -/
theorem negative (h : Encodes net s r holds gain) {c : Constraint (Extended K)}
    {ts : List (Nat × Extended K)} (hreads : Reads r c.lits ts) (index : Nat) {w : K}
    (hw : 0 ≤ w) :
    Encodes net s { (r.addAux index (.finite w)).2 with
      program := (ts.map (capRow r.program.vars.size)).foldl Program.addRow
        (r.addAux index (.finite w)).2.program }
      holds (gain + w * if 1 ≤ c.countTrue s then 0 else 1) := by
  refine h.addCapped index hw (by split <;> simp) _ (List.forall_mem_map.2 fun t ht => ?_)
    fun x hover hone => ?_
  · obtain ⟨hlt, hfinite⟩ := hreads.terms_lt h.tabled t ht
    refine ⟨?_, fun t' ht' => ?_⟩
    · rw [capRow]
      split
      · exact ⟨0, rfl⟩
      · exact ⟨1, rfl⟩
    · rcases List.mem_pair.1 ht' with rfl | rfl
      · exact ⟨Nat.lt_succ_self _, 1, rfl⟩
      · exact ⟨hlt.trans (Nat.lt_succ_self _), hfinite⟩
  · rw [List.forall_mem_map, hreads.forall_capRow_iff hover]
    split
    · -- the row of a true literal forces the variable down to zero
      rename_i hsome
      obtain ⟨l, hl, htrue⟩ := List.countP_pos_iff.1 (Nat.lt_of_succ_le hsome)
      constructor
      · intro hall
        have hzero := hall l hl
        rwa [if_pos htrue] at hzero
      · intro hzero l' _
        split
        · exact hzero
        · exact hone
    · -- no literal is true, so no row asks for more than the bound
      rename_i hnone
      refine ⟨fun _ => hone, fun _ l hl => ?_⟩
      rw [if_neg]
      · exact hone
      · exact fun htrue => hnone (List.countP_pos_iff.2 ⟨l, hl, htrue⟩)

omit [FloorRing K] [IsStrictOrderedRing K] in
theorem congr (h : Encodes net s r holds gain) {holds' : Prop} {gain' : K}
    (hholds : holds ↔ holds') (hgain : gain = gain') : Encodes net s r holds' gain' := by
  rwa [← propext hholds, ← hgain]

/-- **A constraint adds what it is worth**: its part of the constant less what it
costs. -/
theorem addConstraint (h : Encodes net s r holds gain) {c : Constraint (Extended K)}
    (hatoms : ∀ l ∈ c.lits, l.atom < net.nodes.size) (hlits : c.lits ≠ [])
    (hfinite : ∀ w, c.strength = .soft w → ∃ x, w = .finite x) (index : Nat) :
    Encodes net s (addConstraint net r (c, index)) (holds ∧ c.Admits s)
      (gain + (c.ceiling - c.softCost s)) := by
  have hterms := h.terms hatoms
  have hreads := reads_terms net (h.size_atomVars.symm ▸ hatoms)
  rw [Relaxation.addConstraint]
  generalize Relaxation.terms net c.lits r = q at hterms hreads ⊢
  obtain ⟨ts, r⟩ := q
  dsimp only at hterms hreads ⊢
  -- the cases are the encodings: hard, one literal, positive and negative
  cases hstrength : c.strength with
  | hard =>
    refine (hterms.hard hreads).congr (and_congr_right fun _ => ?_) ?_
    · simp [Constraint.Admits, Constraint.isHard, hstrength]
    · simp [Constraint.ceiling, Constraint.softCost, hstrength]
  | soft w =>
    obtain ⟨w, rfl⟩ := hfinite w hstrength
    have hadmits : holds ↔ holds ∧ c.Admits s := by
      simp [Constraint.Admits, Constraint.isHard, hstrength]
    rw [Constraint.ceiling_sub_softCost hstrength]
    rcases ts with _ | ⟨t, _ | ⟨t', ts⟩⟩
    · exact absurd (List.forall₂_nil_right_iff.1 hreads) hlits
    · obtain ⟨l, rest, ⟨hvar, hcoefficient⟩, hrest, hl⟩ := List.forall₂_cons_right_iff.1 hreads
      obtain rfl := List.forall₂_nil_right_iff.1 hrest
      refine (hterms.unit hvar hcoefficient w).congr hadmits ?_
      have hcount : 1 ≤ c.countTrue s ↔ (s.getD l.atom false == l.positive) = true := by
        rw [Constraint.countTrue, hl, List.countP_singleton]
        split
        · rename_i htrue
          exact iff_of_true (Nat.le_refl 1) htrue
        · rename_i hfalse
          exact iff_of_false (Nat.not_succ_le_zero 0) hfalse
      simp only [hcount, hl, List.length_singleton, mul_ite, mul_one, mul_zero]
      split <;> simp
    · have hmany : 2 ≤ c.lits.length := by
        rw [hreads.length_eq]
        simp
      dsimp only
      by_cases hw : 0 < w
      · rw [if_pos hw, if_pos (by simpa using hw)]
        exact (hterms.positive hreads index hw.le).congr hadmits rfl
      · rw [if_neg hw, if_neg (by simpa using hw), if_pos hmany]
        refine Encodes.congr ?_ hadmits rfl
        have hnegative := hterms.negative hreads index (w := -w) (by linarith)
        rw [List.foldl_map] at hnegative
        exact hnegative

/-- Constraints are added one after the other. -/
theorem addConstraints (h : Encodes net s r holds gain)
    {entries : List (Constraint (Extended K) × Nat)}
    (hatoms : ∀ e ∈ entries, ∀ l ∈ e.1.lits, l.atom < net.nodes.size)
    (hlits : ∀ e ∈ entries, e.1.lits ≠ [])
    (hfinite : ∀ e ∈ entries, ∀ w, e.1.strength = .soft w → ∃ x, w = .finite x) :
    Encodes net s (entries.foldl (Relaxation.addConstraint net) r)
      (holds ∧ ∀ e ∈ entries, e.1.Admits s)
      (gain + (entries.map fun e => e.1.ceiling - e.1.softCost s).sum) := by
  induction entries generalizing r holds gain with
  | nil => exact h.congr (by simp) (by simp)
  | cons e entries ih =>
    rw [List.forall_mem_cons] at hatoms hlits hfinite
    have hnext := ih (h.addConstraint hatoms.1 hlits.1 hfinite.1 e.2) hatoms.2 hlits.2 hfinite.2
    refine hnext.congr ?_ ?_
    · rw [List.forall_mem_cons, and_assoc]
    · rw [List.map_cons, List.sum_cons, add_assoc]

end Encodes

/-! ### The loss -/

/-- What an atom with a variable adds to the loss. -/
def lossAt (net : Network (Extended K)) (gold : Nat → Bool) (s : Array Bool)
    (entry : Option Nat × Nat) : Bool :=
  entry.1.isSome && s.getD entry.2 false != gold (net.nodes.getD entry.2 default).id

/-- The number of atoms with a variable whose values are not the given ones. -/
def loss (net : Network (Extended K)) (r : Relaxation (Extended K))
    (gold : Option (Nat → Bool)) (s : Array Bool) : Nat :=
  match gold with
  | none => 0
  | some gold =>
    (List.range net.nodes.size).countP fun a => lossAt net gold s (r.atomVars.getD a none, a)

/-- Adds what one atom adds to the loss. -/
def addLossAt (net : Network (Extended K)) (gold : Nat → Bool) (p : Program (Extended K))
    (entry : Option Nat × Nat) : Program (Extended K) :=
  match entry.1 with
  | none => p
  | some v =>
    if gold (net.nodes.getD entry.2 default).id then (p.addOffset 1).addObjective v (-1)
    else p.addObjective v 1

/-- **An atom adds one to the objective if its value is not the given one.** -/
theorem Encodes.addLossAt [IsStrictOrderedRing K] (h : Encodes net s r holds gain)
    (gold : Nat → Bool) {e : Option Nat × Nat} (he : r.atomVars.getD e.2 none = e.1) :
    Encodes net s { r with program := addLossAt net gold r.program e } holds
      (gain + if lossAt net gold s e then 1 else 0) := by
  obtain ⟨_ | v, a⟩ := e
  · exact h.congr Iff.rfl (by simp [lossAt])
  · have hlt := h.lt_size a v he
    have hone : (1 : Extended K) = .finite 1 := rfl
    have hminus : (-1 : Extended K) = .finite (-1) := rfl
    rw [Relaxation.addLossAt, lossAt]
    dsimp only
    rw [hminus, hone]
    cases gold (net.nodes.getD a default).id with
    | true =>
      have hregular := h.regular.addOffset (1 : K)
      refine h.adjust (hregular.addObjective v (-1)) (Program.size_addObjective _ _ _)
        (fun x => (Program.isPoint_addObjective_iff _ _ x).trans
          (Program.isPoint_addOffset_iff _ x)) fun x hover => ?_
      rw [if_pos rfl, Program.objectiveAt_addObjective hregular hlt,
        Program.objectiveAt_addOffset h.regular, hover a v he]
      cases s.getD a false <;> simp [coordinate]
    | false =>
      refine h.adjust (h.regular.addObjective v 1) (Program.size_addObjective _ _ _)
        (fun x => Program.isPoint_addObjective_iff _ _ x) fun x hover => ?_
      rw [if_neg Bool.false_ne_true, Program.objectiveAt_addObjective h.regular hlt, hover a v he]
      cases s.getD a false <;> simp [coordinate]

theorem Encodes.addLossAts [IsStrictOrderedRing K] (h : Encodes net s r holds gain)
    (gold : Nat → Bool) {entries : List (Option Nat × Nat)}
    (hentries : ∀ e ∈ entries, r.atomVars.getD e.2 none = e.1) :
    Encodes net s { r with program := entries.foldl (Relaxation.addLossAt net gold) r.program }
      holds (gain + (entries.countP (lossAt net gold s) : Nat)) := by
  induction entries generalizing r gain with
  | nil => simpa using h
  | cons e entries ih =>
    rw [List.forall_mem_cons] at hentries
    refine (ih (h.addLossAt gold hentries.1) hentries.2).congr Iff.rfl ?_
    rw [List.countP_cons]
    split <;> simp [*, add_assoc, add_comm]

/-- **With the loss the objective counts the atoms that differ as well.** -/
theorem Encodes.addLoss [IsStrictOrderedRing K] (h : Encodes net s r holds gain)
    (gold : Nat → Bool) :
    Encodes net s (r.addLoss net gold) holds (gain + (loss net r (some gold) s : Nat)) := by
  have hentries : ∀ e ∈ r.atomVars.toList.zipIdx, r.atomVars.getD e.2 none = e.1 := by
    intro e he
    rw [Array.getD_eq_getD_getElem?, ← Array.getElem?_toList,
      List.mk_mem_zipIdx_iff_getElem?.1 he]
    rfl
  have hcount : r.atomVars.toList.zipIdx.countP (lossAt net gold s) =
      loss net r (some gold) s := by
    have hrange : r.atomVars.toList.zipIdx.map Prod.snd = List.range net.nodes.size := by
      rw [List.zipIdx_map_snd, Array.length_toList, h.size_atomVars, List.range_eq_range']
    rw [loss, ← hrange, List.countP_map]
    refine List.countP_congr fun e he => ?_
    rw [Function.comp_apply, hentries e he]
  rw [← hcount]
  exact h.addLossAts gold hentries

/-! ### The relaxation of a network -/

/-- The relaxation of a network, with or without the loss, encodes what its
constraints are worth. -/
theorem encodes_ofNetwork [IsStrictOrderedRing K] (hwired : net.Wired) (hpriced : net.Priced)
    (hlits : ∀ c ∈ net.constraints, c.lits ≠ []) (gold : Option (Nat → Bool)) (s : Array Bool) :
    Encodes net s (ofNetwork net gold) (∀ c ∈ net.constraints, c.Admits s)
      ((net.constraints.toList.map fun c => c.ceiling - c.softCost s).sum +
        (loss net (ofNetwork net gold) gold s : Nat)) := by
  have hmem : ∀ e ∈ net.constraints.toList.zipIdx, e.1 ∈ net.constraints := fun e he =>
    Array.mem_toList_iff.1 (List.fst_mem_of_mem_zipIdx he)
  have hconstraints := (encodes_blank net s).addConstraints
    (fun e he l hl => hwired.atom_lt (hmem e he) hl) (fun e he => hlits _ (hmem e he))
    (fun e he => hpriced.soft _ (hmem e he))
  have hadmits : (True ∧ ∀ e ∈ net.constraints.toList.zipIdx, e.1.Admits s) ↔
      ∀ c ∈ net.constraints, c.Admits s := by
    rw [true_and]
    constructor
    · intro hall c hc
      obtain ⟨i, hi⟩ := Array.getElem?_of_mem hc
      exact hall (c, i) (List.mk_mem_zipIdx_iff_getElem?.2 (by rwa [Array.getElem?_toList]))
    · exact fun hall e he => hall _ (hmem e he)
  have hsum : (0 : K) + (net.constraints.toList.zipIdx.map fun e =>
      e.1.ceiling - e.1.softCost s).sum =
        (net.constraints.toList.map fun c => c.ceiling - c.softCost s).sum := by
    rw [zero_add]
    conv_rhs => rw [← List.zipIdx_map_fst 0 net.constraints.toList, List.map_map]
    rfl
  have hall := hconstraints.congr hadmits hsum
  cases gold with
  | none => exact hall.congr Iff.rfl (by simp [loss])
  | some gold => exact hall.addLoss gold

end Relaxation

end MarkovLogic
