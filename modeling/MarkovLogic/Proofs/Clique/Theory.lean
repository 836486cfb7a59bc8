/-
MarkovLogic/Proofs/Clique/Theory.lean

What weighted ground clauses mean.

A ground clause is a disjunction of literals with a weight.  One of positive
weight should hold, one of negative weight should fail, and an assignment that
does not comply violates it.  With an infinite weight the clause is hard and
must not be violated; with a finite one its absolute value is the price.

Two lists of ground clauses mean the same (`SameMeaning`) if the same
assignments violate none of the hard ones, and if any two such assignments
differ in their soft costs by the same amount.  The costs themselves may differ
by a constant: a clause of weight `-w` over the opposite literal costs as much
as one of weight `w`, up to `w`.  Each step from a clause to the constraints of
a network keeps the meaning in this sense, and the steps can be chained and put
side by side (`SameMeaning.trans`, `SameMeaning.append`, `sameMeaning_flatMap`).
-/
import MarkovLogic.Proofs.Clique.Literals
import MarkovLogic.Proofs.Extended

namespace MarkovLogic

/-- A disjunction of literals with its weight. -/
structure GroundClause (α : Type) where
  weight : α
  literals : List Int
deriving DecidableEq

/-! ### Violations and costs -/

namespace GroundClause

variable {α : Type} [Scalar α]

/-- Whether the weight is infinite. -/
def isHard (g : GroundClause α) : Bool :=
  Scalar.isInfinite g.weight

/-- Whether an assignment violates the clause: it makes the disjunction hold
and the weight is negative, or fail and the weight is positive. -/
def isViolated (g : GroundClause α) (s : Nat → Bool) : Bool :=
  if anyHolds s g.literals then decide (g.weight < 0) else decide (0 < g.weight)

end GroundClause

/-- Whether an assignment violates no hard clause. -/
def Satisfies {α : Type} [Scalar α] (s : Nat → Bool) (T : List (GroundClause α)) : Prop :=
  ∀ g ∈ T, g.isHard = true → g.isViolated s = false

/-- The cost of an assignment: the prices of the soft clauses that it violates. -/
def softCost {α : Type} [Scalar α] (s : Nat → Bool) (T : List (GroundClause α)) : α :=
  Scalar.sum <| (T.filter fun g => !g.isHard && g.isViolated s).map fun g => Scalar.abs g.weight

/-! ### Costs as sums in the field -/

section Exact

variable {K : Type} [Field K] [LinearOrder K] [FloorRing K]

namespace GroundClause

@[simp] theorem isHard_finite (x : K) (literals : List Int) :
    isHard (⟨.finite x, literals⟩ : GroundClause (Extended K)) = false := rfl

@[simp] theorem isHard_posInf (literals : List Int) :
    isHard (⟨.posInf, literals⟩ : GroundClause (Extended K)) = true := rfl

@[simp] theorem isHard_negInf (literals : List Int) :
    isHard (⟨.negInf, literals⟩ : GroundClause (Extended K)) = true := rfl

@[simp] theorem isViolated_finite (x : K) (literals : List Int) (s : Nat → Bool) :
    isViolated (⟨.finite x, literals⟩ : GroundClause (Extended K)) s =
      if anyHolds s literals then decide (x < 0) else decide (0 < x) := by
  simp only [isViolated, Extended.zero_eq, Extended.finite_lt]

@[simp] theorem isViolated_posInf (literals : List Int) (s : Nat → Bool) :
    isViolated (⟨.posInf, literals⟩ : GroundClause (Extended K)) s = !anyHolds s literals := by
  unfold isViolated
  cases anyHolds s literals <;> rfl

@[simp] theorem isViolated_nan (literals : List Int) (s : Nat → Bool) :
    isViolated (⟨.nan, literals⟩ : GroundClause (Extended K)) s = false := by
  unfold isViolated
  cases anyHolds s literals <;> rfl

@[simp] theorem isViolated_negInf (literals : List Int) (s : Nat → Bool) :
    isViolated (⟨.negInf, literals⟩ : GroundClause (Extended K)) s = anyHolds s literals := by
  unfold isViolated
  cases anyHolds s literals <;> rfl

/-- The price that an assignment pays for a soft clause. -/
def penalty (s : Nat → Bool) (g : GroundClause (Extended K)) : K :=
  if !g.isHard && g.isViolated s then (Scalar.abs g.weight).value else 0

/-- The weight of a soft clause, and zero for a hard one. -/
def stake (g : GroundClause (Extended K)) : K :=
  g.weight.value

end GroundClause

/-- Whether a disjunction fails, as a number. -/
def failing (K : Type) [Zero K] [One K] (s : Nat → Bool) (literals : List Int) : K :=
  if anyHolds s literals then 0 else 1

/-- The step from one assignment to another: `1` if only the first makes the
disjunction fail, `-1` if only the second does. -/
def gap (K : Type) [Ring K] (s t : Nat → Bool) (literals : List Int) : K :=
  failing K s literals - failing K t literals

/-- The sum of the prices. -/
def totalPenalty (s : Nat → Bool) (T : List (GroundClause (Extended K))) : K :=
  (T.map (GroundClause.penalty s)).sum

/-- The cost is the sum of the prices. -/
theorem softCost_eq (s : Nat → Bool) (T : List (GroundClause (Extended K))) :
    softCost s T = .finite (totalPenalty s T) := by
  have hfinite : ((T.filter fun g => !g.isHard && g.isViolated s).map
      fun g => Scalar.abs g.weight) =
      ((T.filter fun g => !g.isHard && g.isViolated s).map
        fun g => (Scalar.abs g.weight).value).map Extended.finite := by
    rw [List.map_map]
    refine List.map_congr_left fun g hg => ?_
    have hviolated := (List.mem_filter.1 hg).2
    obtain ⟨weight, literals⟩ := g
    cases weight with
    | finite x => rfl
    | posInf => simp at hviolated
    | negInf => simp at hviolated
    | nan => simp at hviolated
  rw [softCost, hfinite, Extended.sum_map_finite, totalPenalty]
  congr 1
  clear hfinite
  induction T with
  | nil => rfl
  | cons g T ih =>
    rw [List.map_cons, List.sum_cons, ← ih, GroundClause.penalty]
    cases hg : (!g.isHard && g.isViolated s) <;> simp [hg]

/-- Two assignments differ in the price of a soft clause by its weight, if one
of them makes it fail and the other does not. -/
theorem GroundClause.penalty_sub [IsStrictOrderedRing K] (s t : Nat → Bool)
    (g : GroundClause (Extended K)) :
    g.penalty s - g.penalty t = g.stake * gap K s t g.literals := by
  obtain ⟨weight, literals⟩ := g
  cases weight with
  | finite x =>
    rcases lt_trichotomy x 0 with hx | rfl | hx
    · simp only [penalty, stake, gap, failing, isHard_finite, isViolated_finite, hx, not_lt.2 hx.le,
        Extended.abs_finite, Extended.value_finite, abs_of_neg hx]
      cases anyHolds s literals <;> cases anyHolds t literals <;> simp
    · simp [penalty, stake]
    · simp only [penalty, stake, gap, failing, isHard_finite, isViolated_finite, hx, not_lt.2 hx.le,
        Extended.abs_finite, Extended.value_finite, abs_of_pos hx]
      cases anyHolds s literals <;> cases anyHolds t literals <;> simp
  | posInf => simp [penalty, stake, Extended.value]
  | negInf => simp [penalty, stake, Extended.value]
  | nan => simp [penalty, stake, Extended.value]

omit [LinearOrder K] [FloorRing K] in
/-- Assignments that agree on the atoms of a disjunction make no step. -/
theorem gap_eq_zero {s t : Nat → Bool} {literals : List Int}
    (h : ∀ l ∈ literals, s l.natAbs = t l.natAbs) : gap K s t literals = 0 := by
  rw [gap, failing, failing, anyHolds_congr h, sub_self]

/-- What all soft clauses together make of the step from one assignment to
another. -/
def spread (s t : Nat → Bool) (T : List (GroundClause (Extended K))) : K :=
  (T.map fun g => g.stake * gap K s t g.literals).sum

/-- The spread is the difference of the costs. -/
theorem totalPenalty_sub [IsStrictOrderedRing K] (s t : Nat → Bool)
    (T : List (GroundClause (Extended K))) :
    totalPenalty s T - totalPenalty t T = spread s t T := by
  induction T with
  | nil => exact sub_self 0
  | cons g T ih =>
    rw [spread, List.map_cons, List.sum_cons, ← spread, ← ih, ← GroundClause.penalty_sub,
      totalPenalty, totalPenalty, List.map_cons, List.map_cons, List.sum_cons, List.sum_cons,
      totalPenalty, totalPenalty]
    ring

/-! ### Theories with the same meaning -/

theorem satisfies_append {s : Nat → Bool} {A B : List (GroundClause (Extended K))} :
    Satisfies s (A ++ B) ↔ Satisfies s A ∧ Satisfies s B := by
  rw [Satisfies, List.forall_mem_append]
  rfl

omit [LinearOrder K] [FloorRing K] in
theorem spread_append (s t : Nat → Bool) (A B : List (GroundClause (Extended K))) :
    spread s t (A ++ B) = spread s t A + spread s t B := by
  rw [spread, List.map_append, List.sum_append]
  rfl

/-- The same assignments violate no hard clause, and such assignments have the
same differences in their costs. -/
structure SameMeaning (A B : List (GroundClause (Extended K))) : Prop where
  satisfies_iff : ∀ s, Satisfies s A ↔ Satisfies s B
  spread_eq : ∀ s t, Satisfies s A → Satisfies t A → spread s t A = spread s t B

namespace SameMeaning

variable {A B C D : List (GroundClause (Extended K))}

theorem refl (A : List (GroundClause (Extended K))) : SameMeaning A A :=
  ⟨fun _ => Iff.rfl, fun _ _ _ _ => rfl⟩

theorem trans (h : SameMeaning A B) (h' : SameMeaning B C) : SameMeaning A C where
  satisfies_iff s := (h.satisfies_iff s).trans (h'.satisfies_iff s)
  spread_eq s t hs ht := by
    rw [h.spread_eq s t hs ht]
    exact h'.spread_eq s t ((h.satisfies_iff s).1 hs) ((h.satisfies_iff t).1 ht)

theorem append (h : SameMeaning A B) (h' : SameMeaning C D) : SameMeaning (A ++ C) (B ++ D) where
  satisfies_iff s := by
    rw [satisfies_append, satisfies_append, h.satisfies_iff, h'.satisfies_iff]
  spread_eq s t hs ht := by
    rw [satisfies_append] at hs ht
    rw [spread_append, spread_append, h.spread_eq s t hs.1 ht.1, h'.spread_eq s t hs.2 ht.2]

theorem of_perm (h : A.Perm B) : SameMeaning A B where
  satisfies_iff s := by
    simp only [Satisfies, h.mem_iff]
  spread_eq s t _ _ := (h.map _).sum_eq

/-- A clause of weight zero means nothing. -/
theorem of_zero (literals : List Int) : SameMeaning [⟨.finite (0 : K), literals⟩] [] where
  satisfies_iff s := by
    simp [Satisfies]
  spread_eq s t _ _ := by
    simp [spread, GroundClause.stake]

end SameMeaning

/-- If each clause means the same as the list that it is replaced by, so do all
clauses together. -/
theorem sameMeaning_flatMap {β : Type} {xs : List β} {f : β → GroundClause (Extended K)}
    {g : β → List (GroundClause (Extended K))} (h : ∀ x ∈ xs, SameMeaning [f x] (g x)) :
    SameMeaning (xs.map f) (xs.flatMap g) := by
  induction xs with
  | nil => exact .refl []
  | cons x xs ih =>
    rw [List.forall_mem_cons] at h
    exact h.1.append (ih h.2)

end Exact

end MarkovLogic
