/-
MarkovLogic/Proofs/Clique/Signs.lean

The sign of a weight that is added up.

Rounding changes numbers but not their signs, so what is said here holds of
floating point as well as of exact numbers: the arithmetic is any that keeps
signs (`KeepsSigns`), and the exact numbers with infinities do
(`Extended.keepsSigns`).

The weight of a clique is a sum over clauses of sums over entries, taken in an
order of its own, where some sums start from zero and one does not.  A property
of numbers that survives addition, also to zero, does not see the order: if all
entries over some literals contribute numbers with the property, the weight has
it (`Tally.weight_induction`).

Main statements: `Tally.isNonneg_weight` and `Tally.isInfinite_weight`.
-/
import MarkovLogic.Proofs.Extended
import MarkovLogic.Proofs.Clique.Register

namespace MarkovLogic

/-! ### Arithmetic that keeps signs -/

namespace Scalar

variable {α : Type} [Scalar α]

/-- A number that is not negative. -/
def IsNonneg (x : α) : Prop :=
  isNaN x = false ∧ ¬ x < 0

/-- What exact arithmetic and arithmetic that rounds have in common. -/
structure KeepsSigns (α : Type) [Scalar α] : Prop where
  zero : IsNonneg (0 : α)
  add : ∀ {x y : α}, IsNonneg x → IsNonneg y → IsNonneg (x + y)
  pos : ∀ {x : α}, IsNonneg x → (x == 0) = false → 0 < x
  once : ∀ {x : α}, IsNonneg x → IsNonneg (ofInt 1 * x)
  opposite : ∀ {x : α}, x < 0 → IsNonneg (ofInt (-1) * x)
  opposite_div : ∀ {x : α} {n : Nat}, x < 0 → isInfinite x = false → 0 < n →
    IsNonneg (ofInt (-1) * (x / ofNat n))
  infinite_mul : ∀ {x : α} {n : Int}, n ≠ 0 → isInfinite x = true →
    isInfinite (ofInt n * x) = true
  infinite_add : ∀ {x y : α}, IsNonneg x → IsNonneg y → isInfinite y = true →
    isInfinite (x + y) = true

/-- A sum of at least one number has every property that survives addition. -/
theorem sum_induction {P : α → Prop} (hzero : ∀ x, P x → P (0 + x))
    (hadd : ∀ x y, P x → P y → P (x + y)) {xs : List α} (hne : xs ≠ []) (h : ∀ x ∈ xs, P x) :
    P (sum xs) := by
  obtain ⟨x, xs, rfl⟩ := List.exists_cons_of_ne_nil hne
  rw [List.forall_mem_cons] at h
  exact List.foldlRecOn (motive := P) xs _ (hzero x h.1) fun y hy z hz => hadd y z hy (h.2 z hz)

end Scalar

namespace Extended

open Scalar

variable {K : Type} [Field K] [LinearOrder K] [FloorRing K]

@[simp] theorem isNonneg_finite_iff {x : K} : IsNonneg (finite x) ↔ 0 ≤ x := by
  rw [IsNonneg, zero_eq, finite_lt, not_lt]
  exact and_iff_right rfl

@[simp] theorem isNonneg_posInf : IsNonneg (posInf : Extended K) :=
  ⟨rfl, not_posInf_lt 0⟩

@[simp] theorem not_isNonneg_negInf : ¬ IsNonneg (negInf : Extended K) :=
  fun h => h.2 (negInf_lt_finite 0)

@[simp] theorem not_isNonneg_nan : ¬ IsNonneg (nan : Extended K) :=
  fun h => Bool.noConfusion h.1

/-- A number that is not negative is infinite or a field element. -/
theorem isNonneg_cases {x : Extended K} (h : IsNonneg x) :
    x = posInf ∨ ∃ a, 0 ≤ a ∧ x = finite a := by
  cases x with
  | finite a => exact .inr ⟨a, isNonneg_finite_iff.1 h, rfl⟩
  | posInf => exact .inl rfl
  | negInf => exact absurd h not_isNonneg_negInf
  | nan => exact absurd h not_isNonneg_nan

/-- A negative number is infinite or a field element. -/
theorem neg_cases {x : Extended K} (h : x < 0) : x = negInf ∨ ∃ a, a < 0 ∧ x = finite a := by
  cases x with
  | finite a => exact .inr ⟨a, (finite_lt a 0).1 h, rfl⟩
  | posInf => exact absurd h (not_posInf_lt 0)
  | negInf => exact .inl rfl
  | nan => exact Bool.noConfusion (show isLess nan (0 : Extended K) = true from h)

theorem ofInt_mul_negInf (n : Int) :
    (ofInt n * negInf : Extended K) = (ofInt n * posInf : Extended K).neg := rfl

variable [IsStrictOrderedRing K]

theorem ofInt_mul_posInf {n : Int} (h : 0 < n) : (ofInt n * posInf : Extended K) = posInf :=
  if_pos (Int.cast_pos.2 h)

theorem ofInt_mul_posInf_of_neg {n : Int} (h : n < 0) :
    (ofInt n * posInf : Extended K) = negInf := by
  have hneg : (n : K) < 0 := Int.cast_lt_zero.2 h
  exact (if_neg (not_lt.2 hneg.le)).trans (if_pos hneg)

/-- Exact numbers keep their signs. -/
theorem keepsSigns : KeepsSigns (Extended K) where
  zero := isNonneg_finite_iff.2 le_rfl
  add {x y} hx hy := by
    rcases isNonneg_cases hx with rfl | ⟨a, ha, rfl⟩ <;>
      rcases isNonneg_cases hy with rfl | ⟨b, hb, rfl⟩
    · exact isNonneg_posInf
    · exact isNonneg_posInf
    · exact isNonneg_posInf
    · exact isNonneg_finite_iff.2 (add_nonneg ha hb)
  pos {x} hx hne := by
    rcases isNonneg_cases hx with rfl | ⟨a, ha, rfl⟩
    · rfl
    · have hzero : a ≠ 0 := of_decide_eq_false hne
      exact (finite_lt 0 a).2 (lt_of_le_of_ne ha hzero.symm)
  once {x} hx := by
    rcases isNonneg_cases hx with rfl | ⟨a, ha, rfl⟩
    · rw [ofInt_mul_posInf one_pos]
      exact isNonneg_posInf
    · rw [ofInt_eq, finite_mul, Int.cast_one, one_mul]
      exact isNonneg_finite_iff.2 ha
  opposite {x} hx := by
    rcases neg_cases hx with rfl | ⟨a, ha, rfl⟩
    · rw [ofInt_mul_negInf, ofInt_mul_posInf_of_neg neg_one_lt_zero]
      exact isNonneg_posInf
    · rw [ofInt_eq, finite_mul, Int.cast_neg, Int.cast_one, neg_one_mul]
      exact isNonneg_finite_iff.2 (neg_nonneg.2 ha.le)
  opposite_div {x n} hx hsoft hn := by
    rcases neg_cases hx with rfl | ⟨a, ha, rfl⟩
    · cases hsoft
    · have hn' : (n : K) ≠ 0 := Nat.cast_ne_zero.2 hn.ne'
      have hdiv : (finite a / finite (n : K) : Extended K) = finite (a / n) := if_neg hn'
      rw [ofNat_eq, hdiv, ofInt_eq, finite_mul, Int.cast_neg, Int.cast_one, neg_one_mul]
      exact isNonneg_finite_iff.2
        (neg_nonneg.2 (div_nonpos_of_nonpos_of_nonneg ha.le (Nat.cast_nonneg n)))
  infinite_mul {x n} hn hx := by
    have hpos : isInfinite (ofInt n * posInf : Extended K) = true := by
      rcases lt_or_gt_of_ne hn with hneg | hpos
      · rw [ofInt_mul_posInf_of_neg hneg]
        rfl
      · rw [ofInt_mul_posInf hpos]
        rfl
    cases x with
    | finite a => cases hx
    | posInf => exact hpos
    | negInf =>
      rw [ofInt_mul_negInf]
      cases hn : (ofInt n * posInf : Extended K) <;> rw [hn] at hpos
      · cases hpos
      · rfl
      · rfl
      · cases hpos
    | nan => cases hx
  infinite_add {x y} hx hy hinf := by
    rcases isNonneg_cases hy with rfl | ⟨b, -, rfl⟩
    · rcases isNonneg_cases hx with rfl | ⟨a, -, rfl⟩ <;> rfl
    · cases hinf

end Extended

/-! ### Tallies -/

namespace Tally

variable {α : Type} [Scalar α]

section Induction

variable {P : α → Prop} (hzero : ∀ x, P x → P (0 + x)) (hadd : ∀ x y, P x → P y → P (x + y))

include hzero hadd

/-- A property that survives addition holds of the shares when one more entry is
added to them. -/
theorem forall_addShare {e : Entry α} (he : P e.contribution) {ss : List (Share α)}
    (hss : ∀ s ∈ ss, P s.total) : ∀ s ∈ addShare e ss, P s.total := by
  induction ss with
  | nil => simpa [addShare] using hzero _ he
  | cons s ss ih =>
    obtain ⟨hs, hrest⟩ := List.forall_mem_cons.1 hss
    rw [addShare]
    split
    · exact List.forall_mem_cons.2 ⟨hzero _ he, hss⟩
    · split
      · exact List.forall_mem_cons.2 ⟨hadd _ _ hs he, hrest⟩
      · exact List.forall_mem_cons.2 ⟨hs, ih hrest⟩

theorem forall_shareOut {es : List (Entry α)} (h : ∀ e ∈ es, P e.contribution) :
    ∀ s ∈ shareOut es, P s.total := by
  induction es using List.reverseRecOn with
  | nil => exact fun s hs => absurd hs List.not_mem_nil
  | append_singleton es e ih =>
    rw [List.forall_mem_append, List.forall_mem_singleton] at h
    rcases eq_or_ne es [] with rfl | hne
    · -- the first entry is stored as it is
      exact List.forall_mem_singleton.2 h.2
    · rw [shareOut_append hne]
      exact forall_addShare hzero hadd h.2 (ih h.1)

/-- **The weight of a clique has every property that survives addition** and that
all contributions have. -/
theorem weight_induction {es : List (Entry α)} {literals : List Int}
    (hmem : ∃ e ∈ es, e.literals = literals)
    (h : ∀ e ∈ es, e.literals = literals → P e.contribution) :
    P (ofEntries es literals).toClique.weight := by
  obtain ⟨e, he, hliterals⟩ := hmem
  have hover : e ∈ es.filter fun e => e.literals = literals :=
    List.mem_filter.2 ⟨he, decide_eq_true hliterals⟩
  have hshares : ∀ s ∈ sharesOf es literals, P s.total := by
    refine forall_shareOut hzero hadd fun e he => ?_
    obtain ⟨hin, hliterals⟩ := List.mem_filter.1 he
    exact h e hin (of_decide_eq_true hliterals)
  have hne : (sharesOf es literals).map Share.total ≠ [] := by
    have hclause := List.ne_nil_of_mem (mem_clauses_shareOut.2 (List.mem_map_of_mem hover))
    rw [Ne, List.map_eq_nil_iff] at hclause ⊢
    exact hclause
  exact Scalar.sum_induction hzero hadd hne (List.forall_mem_map.2 hshares)

end Induction

variable {es : List (Entry α)} {literals : List Int}

/-- If no entry contributes a negative number, the weight is not negative. -/
theorem isNonneg_weight (signs : Scalar.KeepsSigns α) (hmem : ∃ e ∈ es, e.literals = literals)
    (h : ∀ e ∈ es, e.literals = literals → Scalar.IsNonneg e.contribution) :
    Scalar.IsNonneg (ofEntries es literals).toClique.weight :=
  weight_induction (fun _ hx => signs.add signs.zero hx) (fun _ _ hx hy => signs.add hx hy) hmem h

/-- If all entries contribute positive infinity, the weight is infinite. -/
theorem isInfinite_weight (signs : Scalar.KeepsSigns α) (hmem : ∃ e ∈ es, e.literals = literals)
    (h : ∀ e ∈ es, e.literals = literals →
      Scalar.IsNonneg e.contribution ∧ Scalar.isInfinite e.contribution = true) :
    Scalar.isInfinite (ofEntries es literals).toClique.weight = true := by
  refine (weight_induction (P := fun x : α =>
    Scalar.IsNonneg x ∧ Scalar.isInfinite x = true) ?_ ?_ hmem h).2
  · exact fun x hx => ⟨signs.add signs.zero hx.1, signs.infinite_add signs.zero hx.1 hx.2⟩
  · exact fun x y hx hy => ⟨signs.add hx.1 hy.1, signs.infinite_add hx.1 hy.1 hy.2⟩

end Tally

end MarkovLogic
