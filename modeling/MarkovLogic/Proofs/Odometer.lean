/-
MarkovLogic/Proofs/Odometer.lean

An odometer counts.

The digits spell a number, the first digit being the least significant
(`rank`), and each number below the product of the radices is spelled by
exactly one combination of digits (`digitsAt`).  In these terms the odometer
is a counter that is switched off at the product (`at_`): stepping adds one,
and skipping past digit `k` goes to the next multiple of the product of the
first `k` radices,

    (at_ rs n).skipPast k = at_ rs ((n / B + 1) * B)     B = (rs.take k).prod

without any hypothesis.  Two numbers with the same quotient by `B` have the
same digits from `k` on (`drop_digitsAt`), which is why a skip leaves out only
combinations that agree with the current one from there on.
-/
import MarkovLogic.Odometer
import Mathlib.Algebra.BigOperators.Group.List.Basic
import Mathlib.Algebra.BigOperators.Ring.List
import Mathlib.Algebra.GroupWithZero.Nat
import Mathlib.Data.List.Forall2
import Mathlib.Data.List.Nodup

namespace MarkovLogic.Odometer

/-! ### Digits and numbers -/

/-- The number that the digits spell. -/
def rank : List Nat → List Nat → Nat
  | r :: rs, d :: ds => d + r * rank rs ds
  | _, _ => 0

/-- The digits that spell a number. -/
def digitsAt : List Nat → Nat → List Nat
  | [], _ => []
  | r :: rs, n => n % r :: digitsAt rs (n / r)

/-- All combinations of digits, in the order of counting. -/
def combinations (rs : List Nat) : List (List Nat) :=
  (List.range rs.prod).map (digitsAt rs)

/-- There are as many combinations as the product of the radices. -/
theorem size_start (rs : List Nat) : (start rs).size = rs.prod :=
  List.prod_eq_foldl.symm

/-- Digits below their radices spell a number below the product. -/
theorem rank_lt_prod {rs ds : List Nat} (h : List.Forall₂ (· < ·) ds rs) :
    rank rs ds < rs.prod := by
  induction h with
  | nil => simp [rank]
  | @cons d r ds rs hd _ ih =>
    have hstep : r * (rank rs ds + 1) ≤ r * rs.prod := Nat.mul_le_mul_left r ih
    rw [Nat.mul_add, Nat.mul_one] at hstep
    rw [rank, List.prod_cons]
    omega

/-- The digits of the number that digits spell are these digits. -/
theorem digitsAt_rank {rs ds : List Nat} (h : List.Forall₂ (· < ·) ds rs) :
    digitsAt rs (rank rs ds) = ds := by
  induction h with
  | nil => rfl
  | @cons d r ds rs hd _ ih =>
    have hpos : 0 < r := by omega
    have hmod : (d + r * rank rs ds) % r = d := by
      rw [Nat.add_mul_mod_self_left, Nat.mod_eq_of_lt hd]
    have hdiv : (d + r * rank rs ds) / r = rank rs ds := by
      rw [Nat.add_mul_div_left _ _ hpos, Nat.div_eq_of_lt hd, Nat.zero_add]
    rw [rank, digitsAt, hmod, hdiv, ih]

/-- A number below the product has a quotient below the product of the rest. -/
theorem div_lt_prod {r n : Nat} {rs : List Nat} (h : n < (r :: rs).prod) :
    0 < r ∧ n / r < rs.prod := by
  rw [List.prod_cons] at h
  have hpos : 0 < r := Nat.pos_of_ne_zero fun hr => by simp [hr] at h
  exact ⟨hpos, Nat.div_lt_of_lt_mul h⟩

/-- The digits of a number below the product are below their radices. -/
theorem digitsAt_inRange {rs : List Nat} {n : Nat} (h : n < rs.prod) :
    List.Forall₂ (· < ·) (digitsAt rs n) rs := by
  induction rs generalizing n with
  | nil => exact .nil
  | cons r rs ih =>
    obtain ⟨hpos, hdiv⟩ := div_lt_prod h
    exact .cons (Nat.mod_lt n hpos) (ih hdiv)

/-- The digits of a number below the product spell it. -/
theorem rank_digitsAt {rs : List Nat} {n : Nat} (h : n < rs.prod) :
    rank rs (digitsAt rs n) = n := by
  induction rs generalizing n with
  | nil => simp_all [rank]
  | cons r rs ih =>
    obtain ⟨-, hdiv⟩ := div_lt_prod h
    rw [digitsAt, rank, ih hdiv, Nat.mod_add_div]

/-- From digit `k` on, the digits are those of the quotient by the product of
the first `k` radices. -/
theorem drop_digitsAt (k : Nat) (rs : List Nat) (n : Nat) :
    (digitsAt rs n).drop k = digitsAt (rs.drop k) (n / (rs.take k).prod) := by
  induction k generalizing rs n with
  | zero => simp
  | succ k ih =>
    cases rs with
    | nil => rfl
    | cons r rs =>
      rw [digitsAt, List.drop_succ_cons, List.drop_succ_cons, List.take_succ_cons, List.prod_cons,
        ih, Nat.div_div_eq_div_mul]

/-- Every combination in range occurs. -/
theorem mem_combinations_iff {rs ds : List Nat} :
    ds ∈ combinations rs ↔ List.Forall₂ (· < ·) ds rs := by
  rw [combinations, List.mem_map]
  constructor
  · rintro ⟨n, hn, rfl⟩
    exact digitsAt_inRange (List.mem_range.1 hn)
  · intro h
    exact ⟨rank rs ds, List.mem_range.2 (rank_lt_prod h), digitsAt_rank h⟩

/-- No combination occurs twice. -/
theorem nodup_combinations (rs : List Nat) : (combinations rs).Nodup := by
  refine List.Nodup.map_on ?_ List.nodup_range
  intro n hn m hm heq
  rw [← rank_digitsAt (List.mem_range.1 hn), ← rank_digitsAt (List.mem_range.1 hm), heq]

/-! ### The odometer as a counter -/

/-- The odometer at a number; at the product of the radices it is exhausted. -/
def at_ (rs : List Nat) (n : Nat) : Odometer :=
  ⟨rs, if n < rs.prod then some (digitsAt rs n) else none⟩

theorem at_digits_of_lt {rs : List Nat} {n : Nat} (h : n < rs.prod) :
    (at_ rs n).digits = some (digitsAt rs n) :=
  if_pos h

theorem at_digits_of_le {rs : List Nat} {n : Nat} (h : rs.prod ≤ n) :
    (at_ rs n).digits = none :=
  if_neg (Nat.not_lt.2 h)

/-- Digits that are all zero spell zero. -/
theorem digitsAt_zero (rs : List Nat) : digitsAt rs 0 = rs.map fun _ => 0 := by
  induction rs with
  | nil => rfl
  | cons r rs ih => rw [digitsAt, Nat.zero_mod, Nat.zero_div, ih, List.map_cons]

/-- Counting starts at zero. -/
theorem start_eq_at (rs : List Nat) : start rs = at_ rs 0 := by
  have hzero : rs.contains 0 = true ↔ rs.prod = 0 := by
    rw [List.contains_iff_mem, List.prod_eq_zero_iff]
  by_cases h : rs.prod = 0
  · simp only [start, at_, hzero.2 h, h, if_true, Nat.lt_irrefl, if_false]
  · have hc : rs.contains 0 = false := by
      rw [Bool.eq_false_iff]
      exact fun hc => h (hzero.1 hc)
    rw [start, at_, hc, if_pos (Nat.pos_of_ne_zero h), digitsAt_zero]
    rfl

/-- A carry adds one, and runs off the end at the product. -/
theorem carry_eq {rs ds : List Nat} (h : List.Forall₂ (· < ·) ds rs) :
    carry rs ds =
      if rank rs ds + 1 < rs.prod then some (digitsAt rs (rank rs ds + 1)) else none := by
  induction h with
  | nil => simp [carry, rank]
  | @cons d r ds rs hd hds ih =>
    have hpos : 0 < r := by omega
    have hrank := rank_lt_prod hds
    rw [carry, rank, List.prod_cons]
    by_cases hlast : d + 1 < r
    · have hlt : d + r * rank rs ds + 1 < r * rs.prod := by
        have hstep : r * (rank rs ds + 1) ≤ r * rs.prod := Nat.mul_le_mul_left r hrank
        rw [Nat.mul_add, Nat.mul_one] at hstep
        omega
      have hmod : (d + r * rank rs ds + 1) % r = d + 1 := by
        rw [Nat.add_right_comm, Nat.add_mul_mod_self_left, Nat.mod_eq_of_lt hlast]
      have hdiv : (d + r * rank rs ds + 1) / r = rank rs ds := by
        rw [Nat.add_right_comm, Nat.add_mul_div_left _ _ hpos, Nat.div_eq_of_lt hlast, Nat.zero_add]
      rw [if_pos hlast, if_pos hlt, digitsAt, hmod, hdiv, digitsAt_rank hds]
    · -- the digit turns over, and the rest is carried
      have hnext : d + r * rank rs ds + 1 = r * (rank rs ds + 1) := by
        rw [Nat.mul_add, Nat.mul_one]
        omega
      rw [if_neg hlast, ih, hnext]
      by_cases hlt : rank rs ds + 1 < rs.prod
      · rw [if_pos hlt, if_pos (Nat.mul_lt_mul_of_pos_left hlt hpos), digitsAt, Nat.mul_mod_right,
          Nat.mul_div_cancel_left _ hpos, Option.map_some]
      · rw [if_neg hlt, if_neg fun hlt' => hlt (Nat.lt_of_mul_lt_mul_left hlt'), Option.map_none]

/-- Skipping goes to the next multiple of the product of the first radices. -/
theorem skipDigits_eq (k : Nat) {rs ds : List Nat} (h : List.Forall₂ (· < ·) ds rs) :
    skipDigits k rs ds =
      (at_ rs ((rank rs ds / (rs.take k).prod + 1) * (rs.take k).prod)).digits := by
  induction k generalizing rs ds with
  | zero =>
    rw [skipDigits, carry_eq h, List.take_zero, List.prod_nil, Nat.div_one, Nat.mul_one]
    rfl
  | succ k ih =>
    cases h with
    | nil => simp [skipDigits, at_, rank]
    | @cons d r ds rs hd hds =>
      have hpos : 0 < r := by omega
      have hdiv : (d + r * rank rs ds) / (r * (rs.take k).prod) =
          rank rs ds / (rs.take k).prod := by
        rw [← Nat.div_div_eq_div_mul, Nat.add_mul_div_left _ _ hpos, Nat.div_eq_of_lt hd,
          Nat.zero_add]
      rw [skipDigits, ih hds, rank, List.take_succ_cons, List.prod_cons, hdiv, Nat.mul_left_comm]
      generalize (rank rs ds / (rs.take k).prod + 1) * (rs.take k).prod = n
      by_cases hn : n < rs.prod
      · rw [at_digits_of_lt hn, at_digits_of_lt (by
          rw [List.prod_cons]
          exact Nat.mul_lt_mul_of_pos_left hn hpos), digitsAt, Nat.mul_mod_right,
          Nat.mul_div_cancel_left _ hpos, Option.map_some]
      · rw [at_digits_of_le (Nat.not_lt.1 hn), at_digits_of_le (by
          rw [List.prod_cons]
          exact Nat.mul_le_mul_left r (Nat.not_lt.1 hn)), Option.map_none]

/-- **A skip leads to the next multiple of the product of the first radices.** -/
theorem skipPast_at (rs : List Nat) (n k : Nat) :
    (at_ rs n).skipPast k = at_ rs ((n / (rs.take k).prod + 1) * (rs.take k).prod) := by
  by_cases hn : n < rs.prod
  · rw [skipPast, at_digits_of_lt hn, Option.bind_some]
    refine congrArg (Odometer.mk rs) ?_
    have hskip := skipDigits_eq k (digitsAt_inRange hn)
    rw [rank_digitsAt hn] at hskip
    exact hskip
  · rw [skipPast, at_digits_of_le (Nat.not_lt.1 hn), Option.bind_none]
    refine congrArg (Odometer.mk rs) ?_
    refine (at_digits_of_le ?_).symm
    -- the next multiple is not below the number, unless all products are zero
    rcases Nat.eq_zero_or_pos (rs.take k).prod with hz | hpos
    · have : rs.prod = 0 := by
        rw [← List.prod_take_mul_prod_drop rs k, hz, Nat.zero_mul]
      omega
    · have := Nat.lt_div_mul_add (a := n) hpos
      rw [Nat.add_mul, Nat.one_mul]
      omega

/-- A step adds one. -/
theorem advance_at (rs : List Nat) (n : Nat) : (at_ rs n).advance = at_ rs (n + 1) := by
  rw [advance, skipPast_at, List.take_zero, List.prod_nil, Nat.div_one, Nat.mul_one]

end MarkovLogic.Odometer
