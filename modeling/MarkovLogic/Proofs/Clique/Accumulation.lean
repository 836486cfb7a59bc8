/-
MarkovLogic/Proofs/Clique/Accumulation.lean

What a register makes of its entries, whatever order they arrive in.

Clauses are grounded side by side, so the entries of different clauses reach
the register in any order; only those of one clause keep theirs.  The cliques
can be said from the entries alone (`accumulated`): for each clause, by
increasing index, add up what its entries contribute in the order of their
arrival, then add up these sums.

Design.  Addition need be neither associative nor commutative here.  The only
law that is used is that adding to zero changes nothing, and it is used once:
the first entry over a set of literals is stored as it is, and only the entries
of the clauses that come later start from zero, so which clause is stored
depends on the order of arrival (`shareOut_eq`).

Main statement: `cliques_eq_of_sameByClause`.  Neither the interleaving of the
clauses, nor the number of partitions, nor collisions of keys can be seen.
-/
import MarkovLogic.Proofs.Clique.Literals
import MarkovLogic.Proofs.Clique.Register
import MarkovLogic.Proofs.Extended

namespace MarkovLogic

variable {α : Type} [Scalar α]

/-! ### What entries add up to -/

/-- An entry that was made from literals in some order. -/
def Entry.IsMade {α : Type} (e : Entry α) : Prop :=
  ∃ literals weight clause frequency, e = Entry.make literals weight clause frequency

/-- Each clause has the same entries in both lists, and in the same order. -/
def SameByClause {α : Type} (es es' : List (Entry α)) : Prop :=
  ∀ clause, es.filter (fun e => e.clause = clause) = es'.filter fun e => e.clause = clause

/-- The clauses that entries come from, by increasing index. -/
def clausesOf {α : Type} (es : List (Entry α)) : List Nat :=
  (es.map Entry.clause).toFinset.sort (· ≤ ·)

/-- What the entries of a clause add up to, in the order of their arrival. -/
def shareFor (es : List (Entry α)) (clause : Nat) : Share α :=
  let own := es.filter fun e => e.clause = clause
  ⟨clause, (own.map Entry.frequency).sum, Scalar.sum (own.map Entry.contribution)⟩

/-- The clique that entries over the given literals add up to: the sums of the
clauses, added up by increasing index. -/
def accumulated (es : List (Entry α)) (literals : List Int) : Clique α :=
  let own := es.filter fun e => e.literals = literals
  { literals
    weight := Scalar.sum ((clausesOf own).map fun c => (shareFor own c).total)
    dependencies := (clausesOf own).map fun c => (c, (shareFor own c).frequency) }

omit [Scalar α] in
theorem mem_clausesOf {es : List (Entry α)} {c : Nat} :
    c ∈ clausesOf es ↔ ∃ e ∈ es, e.clause = c := by
  rw [clausesOf, Finset.mem_sort, List.mem_toFinset, List.mem_map]

omit [Scalar α] in
/-- An increasing list of the clauses is the list of the clauses. -/
theorem eq_clausesOf {es : List (Entry α)} {cs : List Nat} (hcs : cs.Pairwise (· < ·))
    (hmem : ∀ c, c ∈ cs ↔ ∃ e ∈ es, e.clause = c) : cs = clausesOf es := by
  apply hcs.eq_of_mem_iff (Finset.sortedLT_sort _).pairwise
  intro c
  rw [hmem, ← mem_clausesOf, clausesOf]

theorem sum_append_singleton (xs : List α) (x : α) :
    Scalar.sum (xs ++ [x]) = Scalar.sum xs + x := by
  rw [Scalar.sum, List.foldl_append]
  rfl

/-- One more entry changes the sums of its own clause only. -/
theorem shareFor_append_of_ne (es : List (Entry α)) {e : Entry α} {c : Nat} (h : c ≠ e.clause) :
    shareFor (es ++ [e]) c = shareFor es c := by
  simp [shareFor, List.filter_append, Ne.symm h]

theorem shareFor_append_self (es : List (Entry α)) (e : Entry α) :
    shareFor (es ++ [e]) e.clause = ⟨e.clause, (shareFor es e.clause).frequency + e.frequency,
      (shareFor es e.clause).total + e.contribution⟩ := by
  simp [shareFor, List.filter_append, sum_append_singleton]

/-- A clause without entries adds up to zero. -/
theorem shareFor_of_notMem {es : List (Entry α)} {c : Nat} (h : ¬ ∃ e ∈ es, e.clause = c) :
    shareFor es c = ⟨c, 0, 0⟩ := by
  have hnone : es.filter (fun e => e.clause = c) = [] := by
    rw [List.filter_eq_nil_iff]
    intro e he heq
    exact h ⟨e, he, of_decide_eq_true heq⟩
  rw [shareFor, hnone]
  rfl

/-! ### The shares of a tally -/

namespace Tally

/-- An entry goes to the share of its clause, at the place that the clause has
among the others. -/
theorem addShare_map {e : Entry α} {cs : List Nat} (hcs : cs.Pairwise (· < ·))
    {f g : Nat → Share α} (hclause : ∀ c, (f c).clause = c)
    (hself : g e.clause = ⟨e.clause, (f e.clause).frequency + e.frequency,
      (f e.clause).total + e.contribution⟩)
    (hzero : e.clause ∉ cs → f e.clause = ⟨e.clause, 0, 0⟩)
    (hne : ∀ c, c ≠ e.clause → g c = f c) :
    ∃ cs' : List Nat, cs'.Pairwise (· < ·) ∧ (∀ c, c ∈ cs' ↔ c = e.clause ∨ c ∈ cs) ∧
      addShare e (cs.map f) = cs'.map g := by
  induction cs with
  | nil =>
    refine ⟨[e.clause], List.pairwise_singleton _ _, by simp, ?_⟩
    rw [List.map_nil, List.map_singleton, hself, hzero List.not_mem_nil]
    rfl
  | cons c cs ih =>
    obtain ⟨hc, hrest⟩ := List.pairwise_cons.1 hcs
    rw [List.map_cons, addShare, hclause]
    by_cases hlt : e.clause < c
    · -- the clause is new and stands before all others
      have hall : ∀ d ∈ c :: cs, d ≠ e.clause := by
        intro d hd
        rcases List.mem_cons.1 hd with rfl | hd
        · omega
        · have := hc d hd
          omega
      refine ⟨e.clause :: c :: cs, List.pairwise_cons.2 ⟨?_, hcs⟩, by simp, ?_⟩
      · intro d hd
        rcases List.mem_cons.1 hd with rfl | hd
        · exact hlt
        · exact hlt.trans (hc d hd)
      · rw [if_pos hlt, List.map_cons, hself, hzero fun hmem => hall _ hmem rfl,
          List.map_congr_left fun d hd => hne d (hall d hd)]
        rfl
    · rw [if_neg hlt]
      by_cases heq : e.clause = c
      · -- the clause has a share already
        subst heq
        refine ⟨e.clause :: cs, hcs, by simp, ?_⟩
        have htail : cs.map g = cs.map f := List.map_congr_left fun d hd =>
          hne d (by have := hc d hd; omega)
        rw [if_pos rfl, List.map_cons, hself, htail]
      · -- the clause comes later, if it has a share at all
        have hzero' : e.clause ∉ cs → f e.clause = ⟨e.clause, 0, 0⟩ := fun hmem =>
          hzero fun hin => (List.mem_cons.1 hin).elim heq hmem
        obtain ⟨cs', hcs', hmem, hmap⟩ := ih hrest hzero'
        refine ⟨c :: cs', List.pairwise_cons.2 ⟨?_, hcs'⟩, ?_, ?_⟩
        · intro d hd
          rcases (hmem d).1 hd with rfl | hd
          · omega
          · exact hc d hd
        · intro d
          rw [List.mem_cons, hmem, List.mem_cons, or_left_comm]
        · rw [if_neg heq, hmap, List.map_cons, hne c (Ne.symm heq)]

/-- **The shares of a tally are the sums of its clauses**, as long as adding to zero
changes nothing. -/
theorem shareOut_eq (hzero : ∀ x : α, 0 + x = x) (es : List (Entry α)) :
    shareOut es = (clausesOf es).map (shareFor es) := by
  have hexists : ∃ cs : List Nat, cs.Pairwise (· < ·) ∧
      (∀ c, c ∈ cs ↔ ∃ e ∈ es, e.clause = c) ∧ shareOut es = cs.map (shareFor es) := by
    induction es using List.reverseRecOn with
    | nil => exact ⟨[], List.Pairwise.nil, by simp, rfl⟩
    | append_singleton es e ih =>
      obtain ⟨cs, hcs, hmem, hmap⟩ := ih
      rcases eq_or_ne es [] with rfl | hnonempty
      · -- the very first entry is stored, while its sum starts from zero
        refine ⟨[e.clause], List.pairwise_singleton _ _, by simp [eq_comm], ?_⟩
        rw [List.map_singleton, shareFor_append_self, shareFor_of_notMem (by simp)]
        simp only [hzero, Int.zero_add]
        rfl
      · have habsent : e.clause ∉ cs → shareFor es e.clause = ⟨e.clause, 0, 0⟩ := fun hnot =>
          shareFor_of_notMem fun hex => hnot ((hmem _).2 hex)
        obtain ⟨cs', hcs', hmem', hmap'⟩ := addShare_map (g := shareFor (es ++ [e])) hcs
          (fun _ => rfl) (shareFor_append_self es e) habsent
          fun c hc => shareFor_append_of_ne es hc
        refine ⟨cs', hcs', ?_, ?_⟩
        · intro c
          rw [hmem', hmem]
          simp [or_and_right, exists_or, eq_comm, or_comm]
        · rw [shareOut_append hnonempty, hmap, hmap']
  obtain ⟨cs, hcs, hmem, hmap⟩ := hexists
  rw [hmap, eq_clausesOf hcs hmem]

theorem toClique_ofEntries (hzero : ∀ x : α, 0 + x = x) (es : List (Entry α))
    (literals : List Int) : (ofEntries es literals).toClique = accumulated es literals := by
  simp only [toClique, ofEntries, sharesOf, shareOut_eq hzero, List.map_map, accumulated]
  rfl

end Tally

/-! ### Interleavings -/

section Interleavings

variable {es es' : List (Entry α)}

omit [Scalar α] in
theorem SameByClause.mem_iff (h : SameByClause es es') (e : Entry α) : e ∈ es ↔ e ∈ es' := by
  have hfilter := congrArg (e ∈ ·) (h e.clause)
  simpa [List.mem_filter] using hfilter

omit [Scalar α] in
theorem SameByClause.filter (h : SameByClause es es') (p : Entry α → Bool) :
    SameByClause (es.filter p) (es'.filter p) := by
  intro c
  rw [List.filter_comm, h c, List.filter_comm]

theorem SameByClause.shareFor_eq (h : SameByClause es es') : shareFor es = shareFor es' := by
  funext c
  rw [shareFor, shareFor, h c]

omit [Scalar α] in
theorem SameByClause.clausesOf_eq (h : SameByClause es es') : clausesOf es = clausesOf es' := by
  apply eq_clausesOf (Finset.sortedLT_sort _).pairwise
  intro c
  show c ∈ clausesOf es ↔ _
  rw [mem_clausesOf]
  simp only [h.mem_iff]

/-- What entries add up to depends on the order within each clause only. -/
theorem SameByClause.accumulated_eq (h : SameByClause es es') :
    accumulated es = accumulated es' := by
  funext literals
  have hown := h.filter fun e => e.literals = literals
  rw [accumulated, accumulated, hown.clausesOf_eq, hown.shareFor_eq]

end Interleavings

/-! ### The cliques of a register -/

namespace Register

instance : Std.TransCmp (order : UInt64 × Clique α → UInt64 × Clique α → Ordering) :=
  inferInstanceAs (Std.TransCmp (compareLex (compareOn Prod.fst)
    (compareOn fun p : UInt64 × Clique α => p.2.literals)))

omit [Scalar α] in
theorem literals_eq_of_order_eq {a b : UInt64 × Clique α} (h : order a b = .eq) :
    a.2.literals = b.2.literals :=
  Std.LawfulEqCmp.eq_of_compare (Ordering.then_eq_eq.1 h).2

theorem pairwise_isLE_cliques (r : Register α) :
    r.cliques.Pairwise fun a b => (order a b).isLE = true := by
  apply List.pairwise_mergeSort
  · exact fun a b c hab hbc => Std.TransCmp.isLE_trans hab hbc
  · intro a b
    have hswap : order b a = (order a b).swap := Std.OrientedCmp.eq_swap
    rw [hswap]
    cases order a b <;> rfl

theorem length_cliques (r : Register α) : r.cliques.length = r.tallies.length := by
  rw [cliques, List.length_mergeSort, List.length_map]

omit [Scalar α] in
/-- The size is the number of tallies. -/
theorem size_eq_length_tallies (r : Register α) : r.size = r.tallies.length := by
  have hslots : ∀ (slots : Std.HashMap UInt64 (List (Tally α))) (n : Nat),
      slots.fold (fun n _ ts => n + ts.length) n =
        n + (slots.toList.flatMap fun slot => slot.2.map fun t => (slot.1, t)).length := by
    intro slots n
    rw [Std.HashMap.fold_eq_foldl_toList]
    induction slots.toList generalizing n with
    | nil => rfl
    | cons slot rest ih =>
      rw [List.foldl_cons, ih, List.flatMap_cons, List.length_append, List.length_map,
        Nat.add_assoc]
  have hall : ∀ (parts : List (Std.HashMap UInt64 (List (Tally α)))) (n : Nat),
      parts.foldl (fun n slots => slots.fold (fun n _ ts => n + ts.length) n) n =
        n + (parts.flatMap fun slots =>
          slots.toList.flatMap fun slot => slot.2.map fun t => (slot.1, t)).length := by
    intro parts
    induction parts with
    | nil => exact fun n => rfl
    | cons slots parts ih =>
      intro n
      rw [List.foldl_cons, ih, hslots, List.flatMap_cons, List.length_append, Nat.add_assoc]
  rw [size, ← Array.foldl_toList, hall, Nat.zero_add]
  rfl

/-- What a register is to give back for its entries. -/
structure Accumulates (r : Register α) (es : List (Entry α)) : Prop where
  /-- There is one clique for each set of literals, under its key, and it is what
  the entries over the set add up to. -/
  mem_cliques_iff : ∀ p, p ∈ r.cliques ↔
    ∃ e ∈ es, p = (r.key e.literals, accumulated es e.literals)
  nodup_literals : (r.cliques.map fun p => p.2.literals).Nodup
  /-- The cliques are in strictly increasing order. -/
  sorted : r.cliques.Pairwise fun a b => order a b = .lt
  /-- A clique is found under its literals in any order, with or without
  repetitions. -/
  find?_eq_some_iff : ∀ literals c, r.find? literals = some c ↔
    (∃ p ∈ r.cliques, p.2 = c) ∧ ∀ x, x ∈ literals ↔ x ∈ c.literals
  size_eq : r.size = r.cliques.length

theorem key_insertAll (r : Register α) (es : List (Entry α)) : (r.insertAll es).key = r.key := by
  induction es generalizing r with
  | nil => rfl
  | cons e es ih => exact ih (r.insert e)

section Accumulation

variable (hzero : ∀ x : α, 0 + x = x) (key : List Int → UInt64) (n : Nat) (es : List (Entry α))

include hzero in
theorem mem_cliques_iff {p : UInt64 × Clique α} :
    p ∈ ((empty key n).insertAll es).cliques ↔
      ∃ e ∈ es, p = (key e.literals, accumulated es e.literals) := by
  simp only [mem_cliques_iff_exists_entry, Tally.toClique_ofEntries hzero]

/-- Each set of literals has one clique. -/
theorem nodup_literals_cliques :
    (((empty key n).insertAll es).cliques.map fun p => p.2.literals).Nodup := by
  have hperm := (cliques_perm key n es).map fun p => p.2.literals
  rw [hperm.nodup_iff, List.map_map]
  show ((es.map Entry.literals).eraseDups.map id).Nodup
  rw [List.map_id]
  exact nodup_eraseDups _

/-- No two cliques have the same place in the order. -/
theorem pairwise_lt_cliques :
    ((empty key n).insertAll es).cliques.Pairwise fun a b => order a b = .lt := by
  have hnodup := nodup_literals_cliques key n es
  rw [List.Nodup, List.pairwise_map] at hnodup
  refine hnodup.imp₂ ?_ (pairwise_isLE_cliques _)
  intro a b hne hle
  rcases horder : order a b with _ | _ | _
  · rfl
  · exact absurd (literals_eq_of_order_eq horder) hne
  · rw [horder] at hle
    cases hle

/-- Keys may collide, but in a slot each set of literals has one tally. -/
theorem find?_tallied_filter_eq_some_iff {literals : List Int} {t : Tally α} :
    ((Tally.tallied (es.filter fun e => key e.literals = key literals)).find?
      fun t => t.literals = literals) = some t ↔
      literals ∈ es.map Entry.literals ∧ t = Tally.ofEntries es literals := by
  rw [find?_eq_some_iff_of_unique, Tally.mem_tallied_iff, decide_eq_true_eq]
  · constructor
    · rintro ⟨⟨hmem, ht⟩, hliterals⟩
      rw [hliterals] at hmem ht
      obtain ⟨e, he, heq⟩ := List.mem_map.1 hmem
      refine ⟨List.mem_map.2 ⟨e, (List.mem_filter.1 he).1, heq⟩, ?_⟩
      rw [ht, ofEntries_filter]
    · rintro ⟨hmem, rfl⟩
      obtain ⟨e, he, heq⟩ := List.mem_map.1 hmem
      refine ⟨⟨List.mem_map.2 ⟨e, List.mem_filter.2 ⟨he, ?_⟩, heq⟩, ?_⟩, rfl⟩
      · rw [heq]
        exact decide_eq_true rfl
      · exact (ofEntries_filter key es _).symm
  · intro a ha b hb hla hlb
    rw [(Tally.mem_tallied_iff.1 ha).2, (Tally.mem_tallied_iff.1 hb).2,
      of_decide_eq_true hla, of_decide_eq_true hlb]

/-- What is found are the tallies filed under the key of the literals. -/
theorem find?_insertAll {literals : List Int} {c : Clique α} :
    ((empty key n).insertAll es).find? literals = some c ↔
      literalSet literals ∈ es.map Entry.literals ∧
        c = (Tally.ofEntries es (literalSet literals)).toClique := by
  have hkey : ((empty key n).insertAll es).key = key := key_insertAll _ es
  have hslot : ((empty key n).insertAll es).find? literals =
      ((((empty key n).insertAll es).slotAt (key (literalSet literals))).find?
        fun t => t.literals = literalSet literals).map Tally.toClique := by
    rw [find?, hkey]
    rfl
  rw [hslot, slotAt_insertAll, Option.map_eq_some_iff]
  simp only [find?_tallied_filter_eq_some_iff]
  constructor
  · rintro ⟨t, ⟨hmem, rfl⟩, rfl⟩
    exact ⟨hmem, rfl⟩
  · rintro ⟨hmem, rfl⟩
    exact ⟨_, ⟨hmem, rfl⟩, rfl⟩

include hzero in
/-- **A register gives back what its entries add up to.** -/
theorem accumulates_insertAll (hmade : ∀ e ∈ es, e.IsMade) :
    ((empty key n).insertAll es).Accumulates es where
  mem_cliques_iff p := by
    rw [mem_cliques_iff hzero, key_insertAll]
    rfl
  nodup_literals := nodup_literals_cliques key n es
  sorted := pairwise_lt_cliques key n es
  find?_eq_some_iff literals c := by
    rw [find?_insertAll, Tally.toClique_ofEntries hzero]
    simp only [mem_cliques_iff hzero]
    -- sets that were made are equal if they have the same elements
    have hset : ∀ e ∈ es, literalSet e.literals = e.literals := by
      intro e he
      obtain ⟨ls, w, c, f, rfl⟩ := hmade e he
      exact literalSet_of_pairwise (pairwise_literalSet ls)
    constructor
    · rintro ⟨hmem, rfl⟩
      obtain ⟨e, he, heq⟩ := List.mem_map.1 hmem
      refine ⟨⟨_, ⟨e, he, rfl⟩, by rw [heq]⟩, ?_⟩
      intro x
      exact mem_literalSet.symm
    · rintro ⟨⟨p, ⟨e, he, rfl⟩, rfl⟩, hsame⟩
      have heq : literalSet literals = e.literals := by
        rw [← hset e he]
        exact literalSet_congr hsame
      exact ⟨List.mem_map.2 ⟨e, he, heq.symm⟩, by rw [heq]⟩
  size_eq := by
    rw [size_eq_length_tallies, length_cliques]

end Accumulation

/-- **The cliques of a register do not depend on the order of arrival.**  Take any
key function and entries that were made from literals.  However the entries of
different clauses interleave and however many partitions there are, the register
has the same cliques and finds the same ones, and they are what the entries add
up to: one clique for each set of literals, in strictly increasing order. -/
theorem cliques_eq_of_sameByClause (hzero : ∀ x : α, 0 + x = x) (key : List Int → UInt64)
    (es es' : List (Entry α)) (hmade : ∀ e ∈ es, e.IsMade) (hsame : SameByClause es es')
    (n n' : Nat) :
    ((empty key n').insertAll es').cliques = ((empty key n).insertAll es).cliques ∧
      ((empty key n').insertAll es').find? = ((empty key n).insertAll es).find? ∧
      ((empty key n').insertAll es').size = ((empty key n).insertAll es).size ∧
      ((empty key n).insertAll es).Accumulates es := by
  have hmade' : ∀ e ∈ es', e.IsMade := fun e he => hmade e ((hsame.mem_iff e).2 he)
  have hr := accumulates_insertAll hzero key n es hmade
  have hr' := accumulates_insertAll hzero key n' es' hmade'
  have hcliques : ((empty key n').insertAll es').cliques =
      ((empty key n).insertAll es).cliques := by
    have hmem : ∀ p, p ∈ ((empty key n').insertAll es').cliques ↔
        p ∈ ((empty key n).insertAll es).cliques := by
      intro p
      simp only [mem_cliques_iff hzero, hsame.accumulated_eq, hsame.mem_iff]
    -- two strictly increasing lists with the same elements
    refine List.Perm.eq_of_pairwise ?_ hr'.sorted hr.sorted ?_
    · intro a b _ _ hab hba
      exact absurd hba (Std.OrientedCmp.not_lt_of_lt hab)
    · rw [List.perm_ext_iff_of_nodup hr'.nodup_literals.of_map hr.nodup_literals.of_map]
      exact hmem
  refine ⟨hcliques, ?_, by rw [hr'.size_eq, hr.size_eq, hcliques], hr⟩
  funext literals
  apply Option.ext
  intro c
  rw [hr'.find?_eq_some_iff, hr.find?_eq_some_iff, hcliques]

/-- Two clauses share a set of literals, and the first of them arrives first. -/
def firstInFront : List (Entry (Extended ℚ)) :=
  [.make [2, 1, 2] (.finite (1 / 2)) 0 1, .make [3] .posInf 1 1,
    .make [1, 2] (.finite 3) 1 (-1), .make [1, 2] (.finite 5) 0 1]

/-- The same entries, with those of the second clause in front. -/
def secondInFront : List (Entry (Extended ℚ)) :=
  [.make [3] .posInf 1 1, .make [1, 2] (.finite 3) 1 (-1),
    .make [2, 1, 2] (.finite (1 / 2)) 0 1, .make [1, 2] (.finite 5) 0 1]

/-- All keys collide, and still the two orders give the same cliques. -/
theorem cliques_eq_secondInFront :
    let r := (empty (fun _ => 7) 1).insertAll firstInFront
    let r' := (empty (fun _ => 7) 3).insertAll secondInFront
    (∀ x : Extended ℚ, 0 + x = x) ∧ (∀ e ∈ firstInFront, e.IsMade) ∧
      SameByClause firstInFront secondInFront ∧
      r'.cliques = r.cliques ∧ r'.find? = r.find? ∧ r'.size = r.size ∧
      r.Accumulates firstInFront := by
  have hmade : ∀ e ∈ firstInFront, e.IsMade := by
    intro e he
    simp only [firstInFront, List.mem_cons, List.not_mem_nil, or_false] at he
    rcases he with rfl | rfl | rfl | rfl <;> exact ⟨_, _, _, _, rfl⟩
  have hsame : SameByClause firstInFront secondInFront := by
    intro c
    rcases c with _ | _ | c
    · rfl
    · rfl
    · rfl
  exact ⟨Extended.zero_add_eq, hmade, hsame,
    cliques_eq_of_sameByClause Extended.zero_add_eq _ _ _ hmade hsame 1 3⟩

end Register

end MarkovLogic
