/-
MarkovLogic/Proofs/Clique/Literals.lean

Sets of literals and their truth.

A set of literals is kept as a strictly increasing list, so two sets with the
same elements are the same list (`literalSet_congr`).  Atom numbers of at most
31 bits are literals as they stand, and their negation is the opposite literal.
Under an assignment of truth values to atom numbers a literal holds or fails,
and a disjunction holds if one of its literals does.
-/
import Mathlib
import MarkovLogic.Clique
import MarkovLogic.Herbrand.Block

namespace MarkovLogic

/-! ### Increasing lists -/

@[simp] theorem mem_insertLiteral {x l : Int} {ms : List Int} :
    x ∈ insertLiteral l ms ↔ x = l ∨ x ∈ ms := by
  induction ms with
  | nil => simp [insertLiteral]
  | cons m ms ih =>
    rw [insertLiteral]
    split
    · simp
    · split
      · rename_i hlm
        simp [hlm]
      · rw [List.mem_cons, ih, List.mem_cons, or_left_comm]

theorem pairwise_insertLiteral {l : Int} {ms : List Int} (h : ms.Pairwise (· < ·)) :
    (insertLiteral l ms).Pairwise (· < ·) := by
  induction ms with
  | nil => simp [insertLiteral]
  | cons m ms ih =>
    obtain ⟨hm, hms⟩ := List.pairwise_cons.1 h
    rw [insertLiteral]
    split
    · rename_i hlm
      refine List.pairwise_cons.2 ⟨fun x hx => ?_, h⟩
      rcases List.mem_cons.1 hx with rfl | hx
      · exact hlm
      · exact hlm.trans (hm x hx)
    · split
      · exact h
      · rename_i hlt hne
        refine List.pairwise_cons.2 ⟨fun x hx => ?_, ih hms⟩
        rcases mem_insertLiteral.1 hx with rfl | hx
        · omega
        · exact hm x hx

@[simp] theorem mem_literalSet {x : Int} {ls : List Int} : x ∈ literalSet ls ↔ x ∈ ls := by
  induction ls with
  | nil => simp [literalSet]
  | cons l ls ih => rw [literalSet, List.foldr_cons, mem_insertLiteral, ← literalSet, ih,
      List.mem_cons]

theorem pairwise_literalSet (ls : List Int) : (literalSet ls).Pairwise (· < ·) := by
  induction ls with
  | nil => exact List.Pairwise.nil
  | cons l ls ih => exact pairwise_insertLiteral ih

/-- Sets with the same elements are the same. -/
theorem literalSet_congr {ls ms : List Int} (h : ∀ x, x ∈ ls ↔ x ∈ ms) :
    literalSet ls = literalSet ms :=
  (pairwise_literalSet ls).eq_of_mem_iff (pairwise_literalSet ms) (by simpa using h)

/-- An increasing list is its own set. -/
theorem literalSet_of_pairwise {ls : List Int} (h : ls.Pairwise (· < ·)) : literalSet ls = ls :=
  (pairwise_literalSet ls).eq_of_mem_iff h (by simp)

/-! ### Literals of 32 bits -/

/-- Numbers of at most 31 bits are kept by arithmetic of 32 bits. -/
theorem bmod_of_natAbs_le {x : Int} (h : x.natAbs ≤ Herbrand.Block.maxId) :
    Int.bmod x (Nat.pow 2 32) = x := by
  have hmax : Herbrand.Block.maxId = 2147483647 := by decide
  have hpow : Nat.pow 2 32 = 4294967296 := by decide
  have hrange : -2147483648 ≤ x ∧ x < 2147483648 := by omega
  rw [hpow]
  exact Int.bmod_eq_of_le hrange.1 hrange.2

theorem literalOf_of_le {id : Nat} (h : id ≤ Herbrand.Block.maxId) : literalOf id = id :=
  bmod_of_natAbs_le (by rwa [Int.natAbs_natCast])

theorem oppositeLiteral_of_le {l : Int} (h : l.natAbs ≤ Herbrand.Block.maxId) :
    oppositeLiteral l = -l :=
  bmod_of_natAbs_le (by rwa [Int.natAbs_neg])

/-! ### Truth -/

/-- Whether a literal holds under an assignment to the atom numbers. -/
def litHolds (s : Nat → Bool) (l : Int) : Bool :=
  s l.natAbs == decide (0 < l)

/-- Whether a disjunction of literals holds. -/
def anyHolds (s : Nat → Bool) (ls : List Int) : Bool :=
  ls.any (litHolds s)

/-- The opposite literal has the opposite truth value. -/
theorem litHolds_neg (s : Nat → Bool) {l : Int} (h : l ≠ 0) : litHolds s (-l) = !litHolds s l := by
  have hsign : decide (0 < -l) = !decide (0 < l) := by
    rw [← decide_not, decide_eq_decide]
    omega
  rw [litHolds, litHolds, Int.natAbs_neg, hsign]
  cases s l.natAbs <;> cases decide (0 < l) <;> rfl

theorem anyHolds_singleton (s : Nat → Bool) (l : Int) : anyHolds s [l] = litHolds s l := by
  simp [anyHolds]

/-- The order of the literals does not matter. -/
theorem anyHolds_literalSet (s : Nat → Bool) (ls : List Int) :
    anyHolds s (literalSet ls) = anyHolds s ls := by
  rw [Bool.eq_iff_iff, anyHolds, anyHolds, List.any_eq_true, List.any_eq_true]
  simp only [mem_literalSet]

/-- Only the values of the atoms that occur matter. -/
theorem anyHolds_congr {s t : Nat → Bool} {ls : List Int}
    (h : ∀ l ∈ ls, s l.natAbs = t l.natAbs) : anyHolds s ls = anyHolds t ls := by
  unfold anyHolds
  induction ls with
  | nil => rfl
  | cons l ls ih =>
    obtain ⟨hl, hls⟩ := List.forall_mem_cons.1 h
    rw [List.any_cons, List.any_cons, ih hls, litHolds, litHolds, hl]

end MarkovLogic
