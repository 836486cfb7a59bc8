/-
MarkovLogic/Proofs/Herbrand/Rank.lean

Tuples of positions and their ranks.

`rank?` and `unrank` read a tuple of positions as the digits of a mixed-radix
number.  They are inverse to each other between the tuples that are in range
and the numbers below the volume:

    rank? ns is = some r   ↔   r < volume ns ∧ unrank ns r = is

Nothing is asked of the sizes.  If one of them is zero, no tuple is in range
and no number is below the volume, so both sides are false.
-/
import MarkovLogic.Herbrand.Block
import Mathlib.Data.List.Forall2

namespace MarkovLogic.Herbrand

/-! ### Volumes -/

/-- A digit and a rest that are in range stay below the product. -/
theorem mul_add_lt_mul {i n r v : Nat} (hi : i < n) (hr : r < v) :
    i * v + r < n * v := by
  have h : (i + 1) * v ≤ n * v := Nat.mul_le_mul_right v hi
  rw [Nat.add_mul] at h
  omega

/-- Below a product there is room only if the second factor is positive. -/
theorem pos_of_lt_mul {r n v : Nat} (h : r < n * v) : 0 < v :=
  Nat.pos_of_ne_zero fun hv => by simp [hv] at h

/-! ### From tuples to numbers -/

/-- Exactly the tuples in range have a rank. -/
theorem rank?_isSome_iff {ns is : List Nat} :
    (rank? ns is).isSome ↔ List.Forall₂ (· < ·) is ns := by
  induction ns generalizing is with
  | nil => cases is <;> simp [rank?]
  | cons n ns ih =>
    cases is with
    | nil => simp [rank?]
    | cons i is =>
      by_cases hi : i < n
      · simp [rank?, hi, ih]
      · simp [rank?, hi]

theorem rank?_nil_eq_some_iff {is : List Nat} {r : Nat} :
    rank? [] is = some r ↔ is = [] ∧ r = 0 := by
  cases is <;> simp [rank?, eq_comm]

/-- A tuple has a rank if its first position is in range and the others have one. -/
theorem rank?_cons_eq_some_iff {n : Nat} {ns is : List Nat} {r : Nat} :
    rank? (n :: ns) is = some r ↔ ∃ i rest r', is = i :: rest ∧ i < n ∧
      rank? ns rest = some r' ∧ r = i * volume ns + r' := by
  cases is with
  | nil => simp [rank?]
  | cons i rest =>
    by_cases hi : i < n
    · simp [rank?, hi, Option.map_eq_some_iff, @eq_comm _ r]
    · simp [rank?, hi]

/-- Ranks are below the volume. -/
theorem rank?_lt_volume {ns is : List Nat} {r : Nat} (h : rank? ns is = some r) :
    r < volume ns := by
  induction ns generalizing is r with
  | nil =>
    obtain ⟨-, rfl⟩ := rank?_nil_eq_some_iff.1 h
    exact Nat.one_pos
  | cons n ns ih =>
    obtain ⟨i, rest, r', rfl, hi, hr', rfl⟩ := rank?_cons_eq_some_iff.1 h
    exact mul_add_lt_mul hi (ih hr')

/-- The rank determines the tuple. -/
theorem unrank_of_rank? {ns is : List Nat} {r : Nat} (h : rank? ns is = some r) :
    unrank ns r = is := by
  induction ns generalizing is r with
  | nil => exact (rank?_nil_eq_some_iff.1 h).1.symm
  | cons n ns ih =>
    obtain ⟨i, rest, r', rfl, hi, hr', rfl⟩ := rank?_cons_eq_some_iff.1 h
    have hlt := rank?_lt_volume hr'
    have hpos : 0 < volume ns := by omega
    have hdiv : (i * volume ns + r') / volume ns = i := by
      rw [Nat.mul_comm, Nat.mul_add_div hpos, Nat.div_eq_of_lt hlt, Nat.add_zero]
    have hmod : (i * volume ns + r') % volume ns = r' := by
      rw [Nat.mul_comm, Nat.mul_add_mod, Nat.mod_eq_of_lt hlt]
    rw [unrank, hdiv, hmod, ih hr']

/-! ### From numbers to tuples -/

/-- Every number below the volume is the rank of its tuple. -/
theorem rank?_unrank {ns : List Nat} {r : Nat} (h : r < volume ns) :
    rank? ns (unrank ns r) = some r := by
  induction ns generalizing r with
  | nil =>
    rw [Nat.lt_one_iff.1 h]
    rfl
  | cons n ns ih =>
    have hpos : 0 < volume ns := pos_of_lt_mul h
    have hdigit : r / volume ns < n := (Nat.div_lt_iff_lt_mul hpos).2 h
    have hrest : r % volume ns < volume ns := Nat.mod_lt r hpos
    rw [unrank, rank?, if_pos hdigit, ih hrest, Option.map_some, Nat.mul_comm,
      Nat.div_add_mod]

/-- Ranking and unranking are inverse to each other. -/
theorem rank?_eq_some_iff {ns is : List Nat} {r : Nat} :
    rank? ns is = some r ↔ r < volume ns ∧ unrank ns r = is := by
  constructor
  · intro h
    exact ⟨rank?_lt_volume h, unrank_of_rank? h⟩
  · rintro ⟨h, rfl⟩
    exact rank?_unrank h

/-- A tuple has as many positions as there are sizes. -/
@[simp] theorem length_unrank (ns : List Nat) (r : Nat) :
    (unrank ns r).length = ns.length := by
  induction ns generalizing r with
  | nil => rfl
  | cons n ns ih => simp [unrank, ih]

end MarkovLogic.Herbrand
