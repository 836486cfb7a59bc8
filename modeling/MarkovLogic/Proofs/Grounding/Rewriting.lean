/-
MarkovLogic/Proofs/Grounding/Rewriting.lean

What a ground clause costs in the form in which it is registered.

A ground clause of `n` literals, `t` of which hold, is rewritten by its weight.
A clause of weight negative infinity becomes hard units that all hold exactly
if `t = 0`.  One of weight positive infinity stays a hard clause that holds
exactly if `0 < t`.  A soft clause keeps its cost, also where a negated unit is
flipped: the weight and the literal turn together.  The one exception is a soft
clause of negative weight that is split into units.  Each unit takes an equal
share of the weight, so the cost grows with `t` where the clause costs its
whole weight as soon as one literal holds (`share_le_clauseCost`).

The literals of a ground clause are numbers of 32 bits, each once and none
beside its opposite (`IsGroundClause`).  Zero and the least of these numbers
are their own opposites, so neither occurs.

Main statement: `cost_of_rewriting`.
-/
import MarkovLogic.Proofs.Grounding.Entries

namespace MarkovLogic.Grounding

variable {K : Type} [Field K] [LinearOrder K] [IsStrictOrderedRing K] [FloorRing K]

/-! ### Ground clauses -/

/-- Literals as grounding finds them. -/
structure IsGroundClause (literals : List Int) : Prop where
  ne_nil : literals ≠ []
  nodup : literals.Nodup
  width : ∀ l ∈ literals, Int.bmod l (Nat.pow 2 32) = l
  opposite_notMem : ∀ l ∈ literals, oppositeLiteral l ∉ literals

namespace IsGroundClause

variable {literals : List Int}

/-- A number of 32 bits that is not its own opposite is a literal. -/
theorem areLiterals (h : IsGroundClause literals) : AreLiterals literals := by
  intro l hl
  have hwidth := h.width l hl
  have hopposite : Int.bmod (-l) (Nat.pow 2 32) ≠ l :=
    fun heq => h.opposite_notMem l hl (by rwa [oppositeLiteral, heq])
  have hmax : Herbrand.Block.maxId = 2147483647 := by decide
  have hpow : Nat.pow 2 32 = 4294967296 := by decide
  rw [hpow, Int.bmod_def] at hwidth hopposite
  split at hwidth <;> split at hopposite <;> omega

theorem isTautology_eq_false (h : IsGroundClause literals) :
    Harvest.isTautology (literalSet literals) = false := by
  refine Bool.eq_false_iff.2 fun htaut => ?_
  obtain ⟨l, hl, hboth⟩ := List.any_eq_true.1 htaut
  rw [mem_literalSet] at hl
  have hneg : -l ∈ literals := by simpa using (Bool.and_eq_true_iff.1 hboth).2
  rw [← oppositeLiteral_of_le (h.areLiterals l hl).2] at hneg
  exact h.opposite_notMem l hl hneg

theorem length_literalSet (h : IsGroundClause literals) :
    (literalSet literals).length = literals.length :=
  ((List.perm_ext_iff_of_nodup ((pairwise_literalSet literals).imp ne_of_lt) h.nodup).2
    fun _ => mem_literalSet).length_eq

end IsGroundClause

/-! ### How many entries -/

section Counting

variable {α : Type} [Scalar α]

/-- What is counted for a ground clause is the number of its entries. -/
theorem length_entriesOf (options : Options) (clause : Nat) (w : α) (literals : List Int) :
    (entriesOf options clause w literals).length = entryCount options w literals.length := by
  unfold entriesOf entryCount
  dsimp only
  split
  · split
    · rfl
    · exact List.length_map _
  · split
    · split <;> rfl
    · rfl

/-- Taking in a ground clause that touches an atom of interest adds its entries and
counts them. -/
theorem takePending_of_isGroundClause (t : Template α) (options : Options)
    {interest : Nat → Bool} {literals : List Int} (hliterals : IsGroundClause literals)
    (hinterest : ∃ l ∈ literals, interest l.natAbs = true) (h : Harvest α) :
    (h.takePending t options interest literals).entries.size =
        h.entries.size + entryCount options t.weight literals.length ∧
      (h.takePending t options interest literals).counts.emitted =
        h.counts.emitted + entryCount options t.weight literals.length := by
  have hany : ((literalSet literals).any fun l => interest l.natAbs) = true := by
    obtain ⟨l, hl, hl'⟩ := hinterest
    exact List.any_eq_true.2 ⟨l, mem_literalSet.2 hl, hl'⟩
  simp [Harvest.takePending, hliterals.isTautology_eq_false, hany, length_entriesOf,
    hliterals.length_literalSet]

end Counting

/-! ### Prices -/

/-- A disjunction holds if some of its literals do. -/
theorem anyHolds_eq_decide (s : Nat → Bool) (literals : List Int) :
    anyHolds s literals = decide (0 < literals.countP (litHolds s)) := by
  rw [Bool.eq_iff_iff, decide_eq_true_iff, List.countP_pos_iff, anyHolds, List.any_eq_true]

/-- What a soft clause of weight `x` costs if `t` of its literals hold. -/
def clauseCost (x : K) (t : Nat) : K :=
  if 0 < x ∧ t = 0 then x else if x < 0 ∧ 0 < t then |x| else 0

omit [IsStrictOrderedRing K] [FloorRing K] in
theorem clauseCost_of_neg {x : K} (hneg : x < 0) (t : Nat) :
    clauseCost x t = if 0 < t then |x| else 0 := by
  simp [clauseCost, hneg, hneg.not_gt]

theorem penalty_finite (s : Nat → Bool) (x : K) (literals : List Int) :
    GroundClause.penalty s ⟨.finite x, literals⟩ =
      clauseCost x (literals.countP (litHolds s)) := by
  simp only [GroundClause.penalty, GroundClause.isHard_finite, GroundClause.isViolated_finite,
    Extended.abs_finite, Extended.value_finite, anyHolds_eq_decide, clauseCost]
  rcases Nat.eq_zero_or_pos (literals.countP (litHolds s)) with hzero | hpos
  · by_cases hx : 0 < x
    · simp [hzero, hx, abs_of_pos hx]
    · simp [hzero, hx]
  · by_cases hx : x < 0
    · simp [hpos, hpos.ne', hx]
    · simp [hpos, hpos.ne', hx]

omit [IsStrictOrderedRing K] in
theorem penalty_literalSet (s : Nat → Bool) (w : Extended K) (literals : List Int) :
    GroundClause.penalty s ⟨w, literalSet literals⟩ = GroundClause.penalty s ⟨w, literals⟩ := by
  simp only [GroundClause.penalty, GroundClause.isHard, GroundClause.isViolated,
    anyHolds_literalSet]

/-- A unit costs what the opposite unit of the opposite weight costs. -/
theorem penalty_opposite (s : Nat → Bool) (x : K) {l : Int} (hne : l ≠ 0)
    (hle : l.natAbs ≤ Herbrand.Block.maxId) :
    GroundClause.penalty s ⟨.finite (-x), literalSet [oppositeLiteral l]⟩ =
      GroundClause.penalty s ⟨.finite x, [l]⟩ := by
  simp only [GroundClause.penalty, GroundClause.isHard_finite, GroundClause.isViolated_finite,
    anyHolds_opposite s hne hle, anyHolds_singleton, Extended.abs_finite, abs_neg,
    Left.neg_neg_iff, Left.neg_pos_iff]
  cases litHolds s l <;> rfl

/-- Units of equal negative weight cost that weight for each literal that holds. -/
theorem sum_penalty_units (s : Nat → Bool) {y : K} (hneg : y < 0) (literals : List Int) :
    (literals.map fun l => GroundClause.penalty s ⟨.finite y, [l]⟩).sum =
      |y| * literals.countP (litHolds s) := by
  induction literals with
  | nil => simp
  | cons l literals ih =>
    rw [List.map_cons, List.sum_cons, ih, List.countP_cons, penalty_finite,
      clauseCost_of_neg hneg, List.countP_singleton]
    cases litHolds s l <;> simp [mul_add, add_comm]

/-! ### Costs of the entries -/

section Entries

variable {options : Options} {clause : Nat} {literals : List Int}

omit [IsStrictOrderedRing K] in
theorem totalPenalty_entry (s : Nat → Bool) (e : Entry (Extended K)) :
    totalPenalty s [e.ground] = e.ground.penalty s := by
  rw [totalPenalty, List.map_singleton, List.sum_singleton]

/-- A soft clause that is not split keeps its cost. -/
theorem totalPenalty_entriesOf (hliterals : AreLiterals literals) {x : K}
    (hsplit : x < 0 → options.splitNegative = false) (s : Nat → Bool) :
    totalPenalty s ((entriesOf options clause (Extended.finite x) literals).map Entry.ground) =
      clauseCost x (literals.countP (litHolds s)) := by
  rw [← penalty_finite]
  rcases entriesOf_finite hsplit clause literals with h | ⟨l, rfl, h⟩
  · rw [h, List.map_singleton, totalPenalty_entry, ground_make_finite, Int.cast_one, one_mul,
      penalty_literalSet]
  · obtain ⟨hne, hle⟩ := hliterals l List.mem_cons_self
    rw [h, List.map_singleton, totalPenalty_entry, ground_make_finite, Int.cast_neg,
      Int.cast_one, neg_one_mul, penalty_opposite s x hne hle]

/-- A soft clause that is split costs an equal share for each literal that holds. -/
theorem totalPenalty_entriesOf_of_split (hliterals : AreLiterals literals)
    (hne : literals ≠ []) {x : K} (hneg : x < 0) (hsplit : options.splitNegative = true)
    (s : Nat → Bool) :
    totalPenalty s ((entriesOf options clause (Extended.finite x) literals).map Entry.ground) =
      |x| * literals.countP (litHolds s) / literals.length := by
  have hlength : (0 : K) < literals.length := Nat.cast_pos.2 (List.length_pos_iff.2 hne)
  have hunits : ∀ l ∈ literals, GroundClause.penalty s (Entry.ground
      (Entry.make [oppositeLiteral l] (Extended.finite (x / literals.length)) clause (-1))) =
      GroundClause.penalty s ⟨.finite (x / literals.length), [l]⟩ := by
    intro l hl
    rw [ground_make_finite, Int.cast_neg, Int.cast_one, neg_one_mul,
      penalty_opposite s _ (hliterals l hl).1 (hliterals l hl).2]
  rw [entriesOf_finite_of_split hneg hsplit clause hlength.ne', totalPenalty, List.map_map,
    List.map_map]
  refine (congrArg List.sum (List.map_congr_left hunits)).trans ?_
  rw [sum_penalty_units s (div_neg_of_neg_of_pos hneg hlength), abs_div, abs_of_pos hlength,
    div_mul_eq_mul_div]

end Entries

/-! ### The shares against the whole -/

section Shares

variable {x : K} {t n : Nat}

omit [FloorRing K] in
theorem share_le_clauseCost (hneg : x < 0) (htn : t ≤ n) : |x| * t / n ≤ clauseCost x t := by
  rw [clauseCost_of_neg hneg]
  rcases Nat.eq_zero_or_pos t with rfl | hpos
  · simp
  · rw [if_pos hpos, div_le_iff₀ (Nat.cast_pos.2 (hpos.trans_le htn))]
    exact mul_le_mul_of_nonneg_left (Nat.cast_le.2 htn) (abs_nonneg x)

omit [FloorRing K] in
/-- The shares amount to the whole weight if none or all of the literals hold. -/
theorem share_eq_clauseCost_iff (hneg : x < 0) (htn : t ≤ n) (hn : 0 < n) :
    |x| * t / n = clauseCost x t ↔ t = 0 ∨ t = n := by
  rw [clauseCost_of_neg hneg, div_eq_iff (Nat.cast_ne_zero.2 hn.ne')]
  rcases Nat.eq_zero_or_pos t with rfl | hpos
  · simp
  · rw [if_pos hpos, mul_right_inj' (abs_pos.2 hneg.ne).ne', Nat.cast_inj]
    exact (or_iff_right hpos.ne').symm

end Shares

/-! ### The forms of the entries -/

section Forms

variable {options : Options} {clause : Nat} {literals : List Int}

/-- The entries of a hard clause are hard, and those of a soft one are soft. -/
theorem isHard_ground_of_mem {w : Extended K} (hnan : w ≠ .nan) {e : Entry (Extended K)}
    (he : e ∈ entriesOf options clause w literals) :
    e.ground.isHard = Scalar.isInfinite w := by
  obtain ⟨a, ha, htop⟩ := exists_contribution_eq hnan he
  rw [Bool.eq_iff_iff, ← htop, ← GroundClause.isHard_ofTop a e.literals, ← ha]
  rfl

/-- The frequency tells whether the literals were negated. -/
theorem frequency_of_mem {α : Type} [Scalar α] {w : α} (hliterals : IsGroundClause literals)
    {e : Entry α} (he : e ∈ entriesOf options clause w literals) :
    e.frequency = (if e.literals = literalSet literals then 1 else -1) ∧
      (e.frequency = -1 ↔ ∃ l ∈ literals, e.literals = [oppositeLiteral l]) := by
  -- an opposite literal is no literal of the clause
  have hdiffer : ∀ l ∈ literals, literalSet [oppositeLiteral l] ≠ literalSet literals := by
    intro l hl heq
    refine hliterals.opposite_notMem l hl (mem_literalSet.1 ?_)
    rw [← heq, mem_literalSet]
    exact List.mem_singleton_self _
  rcases exists_of_mem_entriesOf he with ⟨rfl, -⟩ | ⟨l, hl, share, rfl, -⟩
  · refine ⟨(if_pos rfl).symm, iff_of_false ?_ ?_⟩
    · exact fun h : (1 : Int) = -1 => by omega
    · rintro ⟨l, hl, heq⟩
      exact hdiffer l hl heq.symm
  · exact ⟨(if_neg (hdiffer l hl)).symm, iff_of_true rfl ⟨l, hl, rfl⟩⟩

/-- The units of a clause of weight negative infinity all hold if no literal does. -/
theorem satisfies_entriesOf_negInf (hliterals : AreLiterals literals) (s : Nat → Bool) :
    Satisfies s ((entriesOf options clause (.negInf : Extended K) literals).map Entry.ground) ↔
      literals.countP (litHolds s) = 0 := by
  rw [ground_entriesOf_negInf, ← (sameMeaning_opposites hliterals).satisfies_iff, Satisfies,
    List.forall_mem_singleton, GroundClause.isHard_negInf, GroundClause.isViolated_negInf,
    anyHolds_eq_decide]
  simp only [forall_const, decide_eq_false_iff_not, Nat.not_lt, Nat.le_zero]

omit [IsStrictOrderedRing K] in
theorem length_of_mem_negInf {e : Entry (Extended K)}
    (he : e ∈ entriesOf options clause (.negInf : Extended K) literals) :
    e.literals.length = 1 := by
  rw [entriesOf_negInf] at he
  obtain ⟨l, -, rfl⟩ := List.mem_map.1 he
  rfl

end Forms

/-! ### The main theorem -/

/-- **What a ground clause costs in the form in which it is registered**, if `held`
of its literals hold. -/
theorem cost_of_rewriting (t : Template (Extended K)) (options : Options) {literals : List Int}
    (hliterals : IsGroundClause literals) (s : Nat → Bool) :
    let entries := entriesOf options t.clause t.weight literals
    let held := literals.countP (litHolds s)
    -- clauses that must not hold
    (t.weight = .negInf →
      (∀ e ∈ entries, e.ground.isHard = true ∧ e.literals.length = 1) ∧
        (Satisfies s (entries.map Entry.ground) ↔ held = 0)) ∧
    -- clauses that must hold
    (t.weight = .posInf →
      ∃ e, entries = [e] ∧ e.ground.isHard = true ∧
        (Satisfies s (entries.map Entry.ground) ↔ 0 < held)) ∧
    -- soft clauses
    (∀ x, t.weight = .finite x →
      (∀ e ∈ entries, e.ground.isHard = false) ∧
        if x < 0 ∧ options.splitNegative = true ∧ 2 ≤ literals.length then
          softCost s (entries.map Entry.ground) = .finite (|x| * held / literals.length) ∧
            |x| * held / literals.length ≤ clauseCost x held ∧
            (|x| * held / literals.length = clauseCost x held ↔
              held = 0 ∨ held = literals.length)
        else softCost s (entries.map Entry.ground) = .finite (clauseCost x held)) ∧
    -- what is counted
    (∀ (interest : Nat → Bool) (h : Harvest (Extended K)),
      (∃ l ∈ literals, interest l.natAbs = true) →
        (h.takePending t options interest literals).entries.size =
            h.entries.size + entries.length ∧
          (h.takePending t options interest literals).counts.emitted =
            h.counts.emitted + entries.length) ∧
    -- what is negated
    ∀ e ∈ entries,
      e.frequency = (if e.literals = literalSet literals then 1 else -1) ∧
        (e.frequency = -1 ↔ ∃ l ∈ literals, e.literals = [oppositeLiteral l]) := by
  have hare := hliterals.areLiterals
  have hle : literals.countP (litHolds s) ≤ literals.length := List.countP_le_length
  have hpos : 0 < literals.length := List.length_pos_iff.2 hliterals.ne_nil
  refine ⟨fun hw => ?negInf, fun hw => ?posInf, fun x hw => ?soft,
    fun interest h hinterest => ?count, fun e he => frequency_of_mem hliterals he⟩
  case negInf =>
    rw [hw]
    exact ⟨fun e he => ⟨isHard_ground_of_mem (by simp) he, length_of_mem_negInf he⟩,
      satisfies_entriesOf_negInf hare s⟩
  case posInf =>
    rw [hw, entriesOf_posInf, List.map_singleton, ground_make_posInf]
    refine ⟨_, rfl, ?_, ?_⟩
    · rw [ground_make_posInf, GroundClause.isHard_posInf]
    · rw [Satisfies, List.forall_mem_singleton, GroundClause.isHard_posInf,
        GroundClause.isViolated_posInf, anyHolds_literalSet, anyHolds_eq_decide]
      simp only [forall_const, Bool.not_eq_false', decide_eq_true_iff]
  case soft =>
    rw [hw, softCost_eq]
    refine ⟨fun e he => isHard_ground_of_mem (by simp) he, ?_⟩
    split
    · rename_i hsplit
      rw [totalPenalty_entriesOf_of_split hare hliterals.ne_nil hsplit.1 hsplit.2.1]
      exact ⟨rfl, share_le_clauseCost hsplit.1 hle, share_eq_clauseCost_iff hsplit.1 hle hpos⟩
    · rename_i hkeep
      congr 1
      by_cases hsplit : x < 0 ∧ options.splitNegative = true
      · -- a single unit has the whole weight
        have hone : literals.length = 1 := by
          have : ¬ 2 ≤ literals.length := fun htwo => hkeep ⟨hsplit.1, hsplit.2, htwo⟩
          omega
        rw [totalPenalty_entriesOf_of_split hare hliterals.ne_nil hsplit.1 hsplit.2,
          share_eq_clauseCost_iff hsplit.1 hle hpos]
        omega
      · refine totalPenalty_entriesOf hare (fun hneg => Bool.eq_false_iff.2 fun htrue => ?_) s
        exact hsplit ⟨hneg, htrue⟩
  case count =>
    rw [length_entriesOf]
    exact takePending_of_isGroundClause t options hliterals hinterest h

theorem isGroundClause_pair : IsGroundClause [1, 2] :=
  ⟨by decide, by decide, by decide, by decide⟩

/-- A clause of weight `-1` over two literals costs one half if one of them holds,
when it is split. -/
theorem cost_of_rewriting_pair :
    IsGroundClause [1, 2] ∧
      softCost (· == 1) ((entriesOf ⟨true, true⟩ 0 (Extended.finite (-1 : ℚ)) [1, 2]).map
        Entry.ground) = Extended.finite (1 / 2) := by
  refine ⟨isGroundClause_pair, ?_⟩
  have hsplit : (-1 : ℚ) < 0 ∧ (⟨true, true⟩ : Options).splitNegative = true ∧
      2 ≤ [(1 : Int), 2].length := by decide
  have hcost := ((cost_of_rewriting (⟨0, .finite (-1 : ℚ), [], []⟩ : Template (Extended ℚ))
    ⟨true, true⟩ isGroundClause_pair (· == 1)).2.2.1 (-1) rfl).2
  rw [if_pos hsplit] at hcost
  rw [hcost.1]
  norm_num [litHolds]

end MarkovLogic.Grounding
