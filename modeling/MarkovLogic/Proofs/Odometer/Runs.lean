/-
MarkovLogic/Proofs/Odometer/Runs.lean

Runs of an odometer.

Whoever counts with an odometer steps and skips in any order until it is
exhausted.  Each call moves the counter behind the odometer forward (`Call.next`),
so a run of calls from the start leads to a number that can be told without the
odometer (`reached`), and the odometer stands there (`run_start`).  Everything
about a run is read off this number:

* digits are shown exactly if they spell it, and none are shown exactly if it is
  not below the product of the radices (`digits_run_eq_some_iff`,
  `digits_run_eq_none_iff`);
* no combination is met twice, because every call adds at least one
  (`reached_add_length_le`), and for the same reason every run ends.

The number that digits spell is said here in full: each digit counts as often as
there are combinations of the digits below it (`spelled`).

Main statement: `isCounter`.
-/
import MarkovLogic.Proofs.Odometer
import Mathlib.Algebra.BigOperators.Fin

namespace MarkovLogic.Odometer

/-! ### The number that digits spell -/

/-- The sum of the digits, each times the product of the radices below it. -/
def spelled (rs ds : List Nat) : Nat :=
  ∑ i : Fin ds.length, ds[i] * (rs.take i).prod

theorem spelled_cons (r d : Nat) (rs ds : List Nat) :
    spelled (r :: rs) (d :: ds) = d + r * spelled rs ds := by
  have hfirst : (d :: ds)[0] * ((r :: rs).take 0).prod = d := Nat.mul_one d
  have hrest (i : Fin ds.length) : (d :: ds)[i.succ] * ((r :: rs).take i.succ).prod =
      r * (ds[i] * (rs.take i).prod) := by
    show ds[i] * ((r :: rs).take (i + 1)).prod = r * (ds[i] * (rs.take i).prod)
    rw [List.take_succ_cons, List.prod_cons, Nat.mul_left_comm]
  calc spelled (r :: rs) (d :: ds)
      = (d :: ds)[0] * ((r :: rs).take 0).prod +
          ∑ i : Fin ds.length, (d :: ds)[i.succ] * ((r :: rs).take i.succ).prod :=
        Fin.sum_univ_succ _
    _ = d + ∑ i : Fin ds.length, r * (ds[i] * (rs.take i).prod) := by
        rw [hfirst, Finset.sum_congr rfl fun i _ => hrest i]
    _ = d + r * spelled rs ds := by rw [← Finset.mul_sum, spelled]

/-- Digits below their radices have one for each radix, so the sum is the rank. -/
theorem rank_eq_spelled {rs ds : List Nat} (h : List.Forall₂ (· < ·) ds rs) :
    rank rs ds = spelled rs ds := by
  induction h with
  | nil => rfl
  | cons _ _ ih => rw [rank, spelled_cons, ih]

/-! ### Calls -/

/-- What one asks an odometer to do. -/
inductive Call where
  | advance
  | skipPast (k : Nat)
deriving Repr, DecidableEq

/-- Does what is asked. -/
def call (o : Odometer) : Call → Odometer
  | .advance => o.advance
  | .skipPast k => o.skipPast k

/-- Does all that is asked, in this order. -/
def run (o : Odometer) (calls : List Call) : Odometer :=
  calls.foldl call o

/-- Where a call leads the counter. -/
def Call.next (rs : List Nat) (n : Nat) : Call → Nat
  | .advance => n + 1
  | .skipPast k => (n / (rs.take k).prod + 1) * (rs.take k).prod

/-- Where a run of calls leads the counter. -/
def reached (rs : List Nat) (calls : List Call) : Nat :=
  calls.foldl (Call.next rs) 0

/-- One call. -/
theorem call_at (rs : List Nat) (n : Nat) (c : Call) :
    (at_ rs n).call c = at_ rs (c.next rs n) := by
  cases c with
  | advance => exact advance_at rs n
  | skipPast k => exact skipPast_at rs n k

/-- **A run leads the odometer to where it leads the counter.** -/
theorem run_start (rs : List Nat) (calls : List Call) :
    (start rs).run calls = at_ rs (reached rs calls) := by
  have hrun (n : Nat) : (at_ rs n).run calls = at_ rs (calls.foldl (Call.next rs) n) := by
    induction calls generalizing n with
    | nil => rfl
    | cons c calls ih =>
      show ((at_ rs n).call c).run calls = at_ rs (calls.foldl (Call.next rs) (c.next rs n))
      rw [call_at, ih]
  rw [start_eq_at, hrun, reached]

/-! ### Where an odometer stands -/

theorem digits_at_eq_some_iff {rs ds : List Nat} {n : Nat} :
    (at_ rs n).digits = some ds ↔ List.Forall₂ (· < ·) ds rs ∧ spelled rs ds = n := by
  constructor
  · intro h
    have hn : n < rs.prod := by
      by_contra hge
      rw [at_digits_of_le (Nat.not_lt.1 hge)] at h
      cases h
    rw [at_digits_of_lt hn] at h
    obtain rfl := Option.some.inj h
    have hds := digitsAt_inRange hn
    exact ⟨hds, by rw [← rank_eq_spelled hds, rank_digitsAt hn]⟩
  · rintro ⟨hds, rfl⟩
    rw [← rank_eq_spelled hds, at_digits_of_lt (rank_lt_prod hds), digitsAt_rank hds]

theorem digits_at_eq_none_iff {rs : List Nat} {n : Nat} :
    (at_ rs n).digits = none ↔ rs.prod ≤ n := by
  refine ⟨fun h => ?_, at_digits_of_le⟩
  by_contra hlt
  rw [at_digits_of_lt (Nat.not_le.1 hlt)] at h
  cases h

/-- Digits are shown after a run exactly if they spell the number that it leads to. -/
theorem digits_run_eq_some_iff {rs ds : List Nat} {calls : List Call} :
    ((start rs).run calls).digits = some ds ↔
      List.Forall₂ (· < ·) ds rs ∧ spelled rs ds = reached rs calls := by
  rw [run_start, digits_at_eq_some_iff]

theorem digits_run_eq_none_iff {rs : List Nat} {calls : List Call} :
    ((start rs).run calls).digits = none ↔ rs.prod ≤ reached rs calls := by
  rw [run_start, digits_at_eq_none_iff]

/-! ### Progress -/

/-- A call leads to a larger number, if there is any combination at all. -/
theorem Call.lt_next {rs : List Nat} (h : 0 < rs.prod) (n : Nat) (c : Call) : n < c.next rs n := by
  cases c with
  | advance => exact Nat.lt_succ_self n
  | skipPast k =>
    have hpos : 0 < (rs.take k).prod := by
      rw [← List.prod_take_mul_prod_drop rs k] at h
      exact Nat.pos_of_mul_pos_right h
    show n < (n / (rs.take k).prod + 1) * (rs.take k).prod
    rw [Nat.add_mul, Nat.one_mul]
    exact Nat.lt_div_mul_add hpos

/-- Every call adds at least one. -/
theorem reached_add_length_le {rs : List Nat} (h : 0 < rs.prod) (calls later : List Call) :
    reached rs calls + later.length ≤ reached rs (calls ++ later) := by
  induction later using List.reverseRecOn with
  | nil => rw [List.append_nil, List.length_nil, Nat.add_zero]
  | append_singleton later c ih =>
    have hlast : reached rs (calls ++ (later ++ [c])) =
        c.next rs (reached rs (calls ++ later)) := by
      rw [reached, ← List.append_assoc, List.foldl_append]
      rfl
    rw [hlast, List.length_append, List.length_singleton, ← Nat.add_assoc]
    exact (Nat.succ_le_succ ih).trans (Call.lt_next h _ c)

/-- The calls that come later exhaust the odometer if there are as many of them as
combinations are left. -/
theorem digits_run_append_eq_none {rs : List Nat} {calls later : List Call}
    (h : rs.prod ≤ reached rs calls + later.length) :
    ((start rs).run (calls ++ later)).digits = none := by
  rw [digits_run_eq_none_iff]
  rcases Nat.eq_zero_or_pos rs.prod with hzero | hpos
  · rw [hzero]
    exact Nat.zero_le _
  · exact h.trans (reached_add_length_le hpos calls later)

/-- Steps alone lead to their number. -/
theorem reached_replicate (rs : List Nat) (n : Nat) : reached rs (.replicate n .advance) = n := by
  induction n with
  | zero => rfl
  | succ n ih =>
    rw [List.replicate_succ', reached, List.foldl_append]
    exact congrArg (· + 1) ih

/-! ### The odometer is a counter -/

/-- What an odometer does, however it is called from the start on. -/
structure IsCounter (rs : List Nat) : Prop where
  /-- Where some radix is zero there is nothing to count. -/
  start_eq_none : (start rs).digits = none ↔ 0 ∈ rs
  start_eq_zero : ∀ ds, (start rs).digits = some ds → spelled rs ds = 0
  /-- The digits stay below their radices. -/
  inRange : ∀ calls ds, ((start rs).run calls).digits = some ds → List.Forall₂ (· < ·) ds rs
  /-- A step adds one, and exhausts the odometer at the last combination. -/
  advance : ∀ calls ds, ((start rs).run calls).digits = some ds →
    (((start rs).run calls).advance.digits = none ↔ spelled rs ds + 1 = rs.prod) ∧
      ∀ ds', ((start rs).run calls).advance.digits = some ds' → spelled rs ds' = spelled rs ds + 1
  /-- A skip leads to the next multiple of the product of the radices below, and exhausts the
  odometer if there is no combination from there on. -/
  skipPast : ∀ calls ds k, ((start rs).run calls).digits = some ds →
    let multiple := (spelled rs ds / (rs.take k).prod + 1) * (rs.take k).prod
    ((((start rs).run calls).skipPast k).digits = none ↔ rs.prod ≤ multiple) ∧
      ∀ ds', (((start rs).run calls).skipPast k).digits = some ds' → spelled rs ds' = multiple
  /-- Steps alone meet each combination exactly once. -/
  visits : ∀ ds, List.Forall₂ (· < ·) ds rs →
    ∃! n, ((start rs).run (.replicate n .advance)).digits = some ds
  /-- Later combinations spell larger numbers. -/
  increasing : ∀ calls later ds ds', later ≠ [] → ((start rs).run calls).digits = some ds →
    ((start rs).run (calls ++ later)).digits = some ds' → spelled rs ds < spelled rs ds'
  /-- What is exhausted stays so. -/
  stays : ∀ calls later, ((start rs).run calls).digits = none →
    ((start rs).run (calls ++ later)).digits = none
  /-- No run is longer than there are combinations. -/
  ends : ∀ calls, rs.prod ≤ calls.length → ((start rs).run calls).digits = none

/-- **An odometer is a counter with exact jumps.** -/
theorem isCounter (rs : List Nat) : IsCounter rs where
  start_eq_none := by
    rw [start_eq_at, digits_at_eq_none_iff, Nat.le_zero, List.prod_eq_zero_iff]
  start_eq_zero ds h := by
    rw [start_eq_at, digits_at_eq_some_iff] at h
    exact h.2
  inRange calls ds h := (digits_run_eq_some_iff.1 h).1
  advance calls ds h := by
    obtain ⟨hds, hspelled⟩ := digits_run_eq_some_iff.1 h
    have hlt : spelled rs ds < rs.prod := rank_eq_spelled hds ▸ rank_lt_prod hds
    rw [run_start, advance_at, ← hspelled, digits_at_eq_none_iff]
    refine ⟨⟨fun hle => le_antisymm hlt hle, fun heq => heq.ge⟩, fun ds' h' => ?_⟩
    exact (digits_at_eq_some_iff.1 h').2
  skipPast calls ds k h := by
    obtain ⟨-, hspelled⟩ := digits_run_eq_some_iff.1 h
    rw [run_start, skipPast_at, ← hspelled]
    exact ⟨digits_at_eq_none_iff, fun ds' h' => (digits_at_eq_some_iff.1 h').2⟩
  visits ds hds := by
    have hsteps (n : Nat) :
        ((start rs).run (.replicate n .advance)).digits = some ds ↔ spelled rs ds = n := by
      rw [digits_run_eq_some_iff, reached_replicate]
      exact and_iff_right hds
    exact ⟨spelled rs ds, (hsteps _).2 rfl, fun n hn => ((hsteps n).1 hn).symm⟩
  increasing calls later ds ds' hlater h h' := by
    obtain ⟨hds, hspelled⟩ := digits_run_eq_some_iff.1 h
    have hpos : 0 < rs.prod := (Nat.zero_le _).trans_lt (rank_lt_prod hds)
    have hprogress := reached_add_length_le hpos calls later
    have hlength : 0 < later.length := List.length_pos_iff.2 hlater
    rw [hspelled, (digits_run_eq_some_iff.1 h').2]
    omega
  stays calls later h := by
    apply digits_run_append_eq_none
    exact (digits_run_eq_none_iff.1 h).trans (Nat.le_add_right _ _)
  ends calls h := by
    have hlength : rs.prod ≤ reached rs [] + calls.length := h.trans (Nat.le_add_left _ _)
    exact digits_run_append_eq_none hlength

/-- One step and two skips over digits with three, three and two values. -/
example : ((start [3, 3, 2]).run [.advance, .skipPast 1, .skipPast 2]).digits = some [0, 0, 1] :=
  rfl

end MarkovLogic.Odometer
