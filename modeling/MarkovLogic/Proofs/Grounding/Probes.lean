/-
MarkovLogic/Proofs/Grounding/Probes.lean

What a prepared clause is made of, and what its literals depend on.

A clause that could be prepared has a weight, a source for each literal and a
domain for each variable (`make_eq_ok`).  A literal asks only for digits of its
own variables, and none of these is less significant than the pivot.  So two
substitutions that agree from the pivot on give the same finding
(`Probe.IsLocal`).  Since literals with more significant pivots are asked first,
all literals up to a decisive one are local to its pivot, and the verdict is
the same for every substitution that agrees from this pivot on
(`judge_of_drop_eq`).
-/
import MarkovLogic.Grounding.Harvest
import MarkovLogic.Proofs.Formula.Renaming
import MarkovLogic.Proofs.Traverse

namespace MarkovLogic

namespace Grounding

/-! ### Preparing a clause -/

/-- The literals of a clause in the order in which variables are taken. -/
def ordered (resolved : List Resolved) : List Resolved :=
  resolved.mergeSort Resolved.before

/-- The literals in the order in which they are asked. -/
def probesOf (digits : List Digit) (rs : List Resolved) : List Probe :=
  (rs.map (probe digits)).mergeSort fun a b => b.pivot ≤ a.pivot

/-- What a prepared clause is made of. -/
theorem Template.make_eq_ok {α : Type} [Scalar α] {m : Model α} {index : Nat} {c : Clause α}
    {t : Template α} (h : Template.make m index c = .ok t) :
    ∃ resolved digits, Scalar.isNaN c.weight = false ∧
      c.literals.mapM (resolve m) = .ok resolved ∧
      digitsOf index (ordered resolved) = .ok digits ∧
      t = ⟨index, c.weight, digits, probesOf digits (ordered resolved)⟩ := by
  unfold Template.make at h
  by_cases hnan : Scalar.isNaN c.weight
  · simp [hnan, bind, Except.bind, throw, throwThe, MonadExceptOf.throw] at h
  rcases hr : c.literals.mapM (resolve m) with e | resolved
  · simp [hnan, hr, bind, Except.bind] at h
  rcases hd : digitsOf index (ordered resolved) with e | digits
  · rw [ordered] at hd
    simp [hnan, hr, hd, bind, Except.bind] at h
  · have hd' := hd
    rw [ordered] at hd'
    simp only [hnan, hr, hd', bind, Except.bind, pure, Except.pure, Bool.false_eq_true, if_false,
      Except.ok.injEq] at h
    exact ⟨resolved, digits, by simpa using hnan, rfl, hd, h.symm⟩

/-- A clause whose literals are in order keeps their order. -/
theorem Template.make_of_pairwise {α : Type} [Scalar α] {m : Model α} {index : Nat} {c : Clause α}
    {rs : List Resolved} {digits : List Digit} {probes : List Probe}
    (hnan : Scalar.isNaN c.weight = false) (hresolve : c.literals.mapM (resolve m) = .ok rs)
    (hrs : rs.Pairwise fun a b => a.before b = true) (hdigits : digitsOf index rs = .ok digits)
    (hprobe : rs.map (probe digits) = probes)
    (hprobes : probes.Pairwise fun a b => decide (b.pivot ≤ a.pivot) = true) :
    Template.make m index c = .ok ⟨index, c.weight, digits, probes⟩ := by
  have hordered := List.mergeSort_of_pairwise hrs
  have hasked := List.mergeSort_of_pairwise hprobes
  rw [Template.make, hnan, hresolve]
  simp only [Bool.false_eq_true, if_false, bind, Except.bind, hordered, hdigits, hprobe, hasked]
  rfl

/-! ### Digits that a literal depends on -/

/-- A minimum over a list is at most each of its elements. -/
theorem foldl_min_le {xs : List Nat} {n x : Nat} (hx : x ∈ xs) : xs.foldl min n ≤ x := by
  have hstart : ∀ (ys : List Nat) (k : Nat), ys.foldl min k ≤ k := by
    intro ys
    induction ys with
    | nil => exact fun k => Nat.le_refl k
    | cons y ys ih => exact fun k => Nat.le_trans (ih (min k y)) (Nat.min_le_left k y)
  induction xs generalizing n with
  | nil => simp at hx
  | cons y ys ih =>
    rcases List.mem_cons.1 hx with rfl | hx
    · exact Nat.le_trans (hstart ys _) (Nat.min_le_right n x)
    · exact ih hx

/-- The pivot is at most the digit of each variable. -/
theorem pivotOf_le {digits : List Digit} {a : Atom} {v : String} (h : Term.var v ∈ a.terms) :
    pivotOf digits a ≤ positionOf digits v :=
  foldl_min_le (List.mem_map_of_mem (Atom.mem_vars_iff.2 h))

/-- The finding of a literal depends only on the digits from its pivot on. -/
def Probe.IsLocal (p : Probe) : Prop :=
  ∀ ds ds' : List Nat, ds.drop p.pivot = ds'.drop p.pivot → p.test.find ds = p.test.find ds'

/-- Lists that agree from `k` on have the same elements from there on. -/
theorem getElem?_of_drop_eq {ds ds' : List Nat} {k i : Nat} (h : ds.drop k = ds'.drop k)
    (hi : k ≤ i) : ds[i]? = ds'[i]? := by
  have hget := congrArg (fun l => l[i - k]?) h
  simp only [List.getElem?_drop] at hget
  rwa [Nat.add_sub_cancel' hi] at hget

/-- Prepared literals are local. -/
theorem isLocal_probe (digits : List Digit) (r : Resolved) : (probe digits r).IsLocal := by
  intro ds ds' h
  obtain ⟨l, source⟩ := r
  have hdigit : ∀ {v}, Term.var v ∈ l.atom.terms →
      ds[positionOf digits v]? = ds'[positionOf digits v]? :=
    fun hv => getElem?_of_drop_eq h (pivotOf_le hv)
  cases source with
  | stored e =>
    have htest : (probe digits ⟨l, .stored e⟩).test =
        .lookUp e ((l.atom.terms.zip e.block.domains).map fun p => indexSlot digits p.1 p.2) := rfl
    have hslot : ∀ slot ∈ (l.atom.terms.zip e.block.domains).map
        (fun p => indexSlot digits p.1 p.2), slot.index? ds = slot.index? ds' := by
      intro slot hslot
      obtain ⟨⟨t, d⟩, htd, rfl⟩ := List.mem_map.1 hslot
      have ht : t ∈ l.atom.terms := (List.of_mem_zip htd).1
      cases t with
      | constant c => rfl
      | var v =>
        rcases hp : digits[positionOf digits v]? with - | d'
        · simp [indexSlot, hp, IndexSlot.index?]
        · simp [indexSlot, hp, IndexSlot.index?, hdigit ht]
    simp only [htest, Test.find, mapM_congr hslot]
  | computed rule =>
    have hslot : ∀ slot ∈ l.atom.terms.map (nameSlot digits),
        slot.name? ds = slot.name? ds' := by
      intro slot hslot
      obtain ⟨t, ht, rfl⟩ := List.mem_map.1 hslot
      cases t with
      | constant c => rfl
      | var v =>
        rcases hp : digits[positionOf digits v]? with - | d'
        · simp [nameSlot, hp, NameSlot.name?, hdigit ht]
        · simp [nameSlot, hp, NameSlot.name?, hdigit ht]
    simp only [probe, Test.find, mapM_congr hslot]

/-! ### Verdicts -/

/-- The pivot of the literal that decides the clause. -/
def Verdict.pivot? : Verdict → Option Nat
  | .satisfied pivot => some pivot
  | .absent pivot => some pivot
  | .falsified => none
  | .pending _ => none

/-- Literals are asked by falling pivots, and each depends only on the digits
from its pivot on. -/
structure AskedByPivot (ps : List Probe) : Prop where
  sorted : ps.Pairwise fun a b => b.pivot ≤ a.pivot
  isLocal : ∀ p ∈ ps, p.IsLocal

theorem AskedByPivot.tail {p : Probe} {ps : List Probe} (h : AskedByPivot (p :: ps)) :
    AskedByPivot ps :=
  ⟨(List.pairwise_cons.1 h.sorted).2, fun q hq => h.isLocal q (List.mem_cons_of_mem _ hq)⟩

/-- Prepared clauses ask by falling pivots. -/
theorem askedByPivot_probesOf (digits : List Digit) (rs : List Resolved) :
    AskedByPivot (probesOf digits rs) where
  sorted := by
    have htrans : ∀ a b c : Probe, decide (b.pivot ≤ a.pivot) → decide (c.pivot ≤ b.pivot) →
        decide (c.pivot ≤ a.pivot) := by
      intro a b c hab hbc
      simp only [decide_eq_true_eq] at *
      omega
    have htotal : ∀ a b : Probe, decide (b.pivot ≤ a.pivot) || decide (a.pivot ≤ b.pivot) := by
      intro a b
      simp only [Bool.or_eq_true, decide_eq_true_eq]
      omega
    exact (List.pairwise_mergeSort htrans htotal _).imp fun h => of_decide_eq_true h
  isLocal p hp := by
    obtain ⟨r, -, rfl⟩ := List.mem_map.1 (List.mem_mergeSort.1 hp)
    exact isLocal_probe digits r

theorem askedByPivot_of_make {α : Type} [Scalar α] {m : Model α} {index : Nat} {c : Clause α}
    {t : Template α} (h : Template.make m index c = .ok t) : AskedByPivot t.probes := by
  obtain ⟨resolved, digits, -, -, -, rfl⟩ := Template.make_eq_ok h
  exact askedByPivot_probesOf digits _

/-- The pivot of a verdict is that of a literal. -/
theorem exists_pivot_of_judge {ds : List Nat} {ps : List Probe} {left : List Int} {pivot : Nat}
    (h : (judge ds ps left).pivot? = some pivot) : ∃ p ∈ ps, p.pivot = pivot := by
  induction ps generalizing left with
  | nil =>
    unfold judge at h
    split at h <;> cases h
  | cons p ps ih =>
    unfold judge at h
    split at h
    · exact ⟨p, List.mem_cons_self, by simpa [Verdict.pivot?] using h⟩
    · split at h
      · exact ⟨p, List.mem_cons_self, by simpa [Verdict.pivot?] using h⟩
      · obtain ⟨q, hq, hpivot⟩ := ih h
        exact ⟨q, List.mem_cons_of_mem _ hq, hpivot⟩
    · obtain ⟨q, hq, hpivot⟩ := ih h
      exact ⟨q, List.mem_cons_of_mem _ hq, hpivot⟩

/-- A clause that is decided with some pivot is decided in the same way under
every substitution that agrees from this pivot on. -/
theorem judge_of_drop_eq {ps : List Probe} (hps : AskedByPivot ps) {ds ds' : List Nat}
    {left : List Int} {pivot : Nat} (h : (judge ds ps left).pivot? = some pivot)
    (hdrop : ds.drop pivot = ds'.drop pivot) : judge ds' ps left = judge ds ps left := by
  induction ps generalizing left with
  | nil =>
    unfold judge at h
    split at h <;> cases h
  | cons p ps ih =>
    -- the first literal has no less significant pivot than the decisive one
    have hle : pivot ≤ p.pivot := by
      obtain ⟨q, hq, rfl⟩ := exists_pivot_of_judge h
      rcases List.mem_cons.1 hq with rfl | hq
      · exact Nat.le_refl _
      · exact (List.pairwise_cons.1 hps.sorted).1 q hq
    have hfind : p.test.find ds = p.test.find ds' := by
      refine hps.isLocal p List.mem_cons_self ds ds' ?_
      have := congrArg (List.drop (p.pivot - pivot)) hdrop
      rwa [List.drop_drop, List.drop_drop, Nat.add_sub_cancel' hle] at this
    rw [judge, judge, ← hfind]
    rw [judge] at h
    rcases hf : p.test.find ds with - | value | id
    · rfl
    · rw [hf] at h
      by_cases hv : value = p.positive
      · simp only [hv, if_true]
      · simp only [hv, if_false] at h ⊢
        exact ih hps.tail h
    · rw [hf] at h
      exact ih hps.tail h

end Grounding

end MarkovLogic
