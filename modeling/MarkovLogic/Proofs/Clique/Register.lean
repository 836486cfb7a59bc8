/-
MarkovLogic/Proofs/Clique/Register.lean

What a register holds.

A register does not keep the entries; it files each one under the key of its
literals and adds it to the tally of these literals.  What is in it after all
can be said in terms of the entries alone.  Under a key there is one tally for
each set of literals with this key, in the order of their first appearance,
and the tally collects the shares of the entries over these literals
(`tallied`, `slotAt_insertAll`).  Neither the number of partitions nor the key
function has a say in it.

Main statement: `tallies_perm`, the tallies of a register are those of its
entries, one for each set of literals that occurs.
-/
import Mathlib
import MarkovLogic.Clique.Register
import MarkovLogic.Proofs.Traverse

namespace MarkovLogic

variable {α : Type} [Scalar α]

/-! ### Tallies under one key -/

namespace Tally

/-- The shares that entries over the same literals add up to: the first entry is
stored, the others are added. -/
def shareOut : List (Entry α) → List (Share α)
  | [] => []
  | e :: es => es.foldl (fun ss e => addShare e ss) [.ofEntry e]

/-- The shares that entries with the given literals add up to. -/
def sharesOf (es : List (Entry α)) (literals : List Int) : List (Share α) :=
  shareOut (es.filter fun e => e.literals = literals)

/-- The tally of the entries with the given literals. -/
def ofEntries (es : List (Entry α)) (literals : List Int) : Tally α :=
  ⟨literals, sharesOf es literals⟩

/-- One tally for each set of literals that occurs, by first appearance. -/
def tallied (es : List (Entry α)) : List (Tally α) :=
  (es.map Entry.literals).eraseDups.map (ofEntries es)

/-- An entry after others is added to their shares. -/
theorem shareOut_append {es : List (Entry α)} (h : es ≠ []) (e : Entry α) :
    shareOut (es ++ [e]) = addShare e (shareOut es) := by
  obtain ⟨first, rest, rfl⟩ := List.exists_cons_of_ne_nil h
  rw [List.cons_append, shareOut, List.foldl_append]
  rfl

omit [Scalar α] in
theorem filter_literals_eq_nil_iff {es : List (Entry α)} {literals : List Int} :
    es.filter (fun e => e.literals = literals) = [] ↔ literals ∉ es.map Entry.literals := by
  rw [List.filter_eq_nil_iff, List.mem_map]
  simp only [decide_eq_true_eq, not_exists, not_and]

theorem sharesOf_append_of_mem {es : List (Entry α)} {e : Entry α}
    (h : e.literals ∈ es.map Entry.literals) :
    sharesOf (es ++ [e]) e.literals = addShare e (sharesOf es e.literals) := by
  have hne : es.filter (fun e' => e'.literals = e.literals) ≠ [] := fun hnil =>
    filter_literals_eq_nil_iff.1 hnil h
  rw [sharesOf, sharesOf, List.filter_append, List.filter_singleton, ← shareOut_append hne]
  simp

theorem sharesOf_append_of_notMem {es : List (Entry α)} {e : Entry α}
    (h : e.literals ∉ es.map Entry.literals) :
    sharesOf (es ++ [e]) e.literals = [.ofEntry e] := by
  rw [sharesOf, List.filter_append, filter_literals_eq_nil_iff.2 h, List.nil_append,
    List.filter_singleton]
  simp [shareOut]

theorem sharesOf_append_of_ne (es : List (Entry α)) {e : Entry α} {literals : List Int}
    (h : e.literals ≠ literals) : sharesOf (es ++ [e]) literals = sharesOf es literals := by
  simp [sharesOf, List.filter_append, h]

/-! The clauses that have a share in a tally are those of its entries. -/

theorem mem_clauses_addShare {e : Entry α} {ss : List (Share α)} {c : Nat} :
    c ∈ (addShare e ss).map Share.clause ↔ c = e.clause ∨ c ∈ ss.map Share.clause := by
  induction ss with
  | nil => simp [addShare]
  | cons s ss ih =>
    rw [addShare]
    split
    · simp
    · split
      · rename_i heq
        simp [heq]
      · rw [List.map_cons, List.mem_cons, ih, List.map_cons, List.mem_cons, or_left_comm]

theorem mem_clauses_shareOut {es : List (Entry α)} {c : Nat} :
    c ∈ (shareOut es).map Share.clause ↔ c ∈ es.map Entry.clause := by
  induction es using List.reverseRecOn with
  | nil => simp [shareOut]
  | append_singleton es e ih =>
    rcases eq_or_ne es [] with rfl | hne
    · simp [shareOut, Share.ofEntry]
    · rw [shareOut_append hne, mem_clauses_addShare, ih, List.map_append, List.mem_append,
        List.map_singleton, List.mem_singleton, or_comm]

/-- The dependencies of a clique are the clauses of the entries over its
literals. -/
theorem exists_dependency_iff (es : List (Entry α)) (literals : List Int) (P : Nat → Prop) :
    (∃ dep ∈ (ofEntries es literals).toClique.dependencies, P dep.1) ↔
      ∃ e ∈ es, e.literals = literals ∧ P e.clause := by
  have hshares : (∃ dep ∈ (ofEntries es literals).toClique.dependencies, P dep.1) ↔
      ∃ c ∈ (sharesOf es literals).map Share.clause, P c := by
    simp only [toClique, ofEntries, List.mem_map, exists_exists_and_eq_and]
  simp only [hshares, sharesOf, mem_clauses_shareOut]
  simp only [List.mem_map, List.mem_filter, decide_eq_true_eq, exists_exists_and_eq_and]
  exact exists_congr fun e => and_assoc

/-- An entry over literals without a tally gets one at the end. -/
theorem file_of_notMem {e : Entry α} {ts : List (Tally α)}
    (h : e.literals ∉ ts.map Tally.literals) :
    file e ts = ts ++ [⟨e.literals, [.ofEntry e]⟩] := by
  induction ts with
  | nil => rfl
  | cons t ts ih =>
    rw [List.map_cons, List.mem_cons, not_or] at h
    rw [file, if_neg (Ne.symm h.1), ih h.2, List.cons_append]

/-- An entry changes the tally of its literals and no other. -/
theorem file_map {e : Entry α} {sets : List (List Int)} {f g : List Int → List (Share α)}
    (hnodup : sets.Nodup) (hmem : e.literals ∈ sets)
    (heq : g e.literals = addShare e (f e.literals))
    (hne : ∀ literals, e.literals ≠ literals → g literals = f literals) :
    file e (sets.map fun literals => ⟨literals, f literals⟩) =
      sets.map fun literals => ⟨literals, g literals⟩ := by
  induction sets with
  | nil => simp at hmem
  | cons set sets ih =>
    obtain ⟨hset, hsets⟩ := List.nodup_cons.1 hnodup
    rw [List.map_cons, List.map_cons, file]
    by_cases h : set = e.literals
    · subst h
      rw [if_pos rfl, heq]
      congr 1
      refine List.map_congr_left fun literals hliterals => ?_
      rw [hne literals fun he => hset (he ▸ hliterals)]
    · rw [if_neg h, hne set (Ne.symm h), ih hsets ((List.mem_cons.1 hmem).resolve_left (Ne.symm h))]

theorem literals_tallied (es : List (Entry α)) :
    (tallied es).map Tally.literals = (es.map Entry.literals).eraseDups := by
  rw [tallied, List.map_map]
  exact List.map_id _

theorem mem_tallied_iff {es : List (Entry α)} {t : Tally α} :
    t ∈ tallied es ↔ t.literals ∈ es.map Entry.literals ∧ t = ofEntries es t.literals := by
  rw [tallied, List.mem_map]
  constructor
  · rintro ⟨literals, hliterals, rfl⟩
    exact ⟨List.mem_eraseDups.1 hliterals, rfl⟩
  · rintro ⟨hmem, heq⟩
    exact ⟨t.literals, List.mem_eraseDups.2 hmem, heq.symm⟩

theorem nodup_tallied (es : List (Entry α)) : (tallied es).Nodup := by
  refine List.Nodup.of_map Tally.literals ?_
  rw [literals_tallied]
  exact nodup_eraseDups _

/-- Filing one more entry is tallying one more entry. -/
theorem file_tallied (es : List (Entry α)) (e : Entry α) :
    file e (tallied es) = tallied (es ++ [e]) := by
  by_cases h : e.literals ∈ es.map Entry.literals
  · rw [tallied, tallied, List.map_append, List.map_singleton, eraseDups_append_of_mem h]
    exact file_map (nodup_eraseDups _) (List.mem_eraseDups.2 h) (sharesOf_append_of_mem h)
      fun literals hne => sharesOf_append_of_ne es hne
  · have hsets : ((es ++ [e]).map Entry.literals).eraseDups =
        (es.map Entry.literals).eraseDups ++ [e.literals] := by
      rw [List.map_append, List.map_singleton, eraseDups_append_of_notMem h]
    have hout : e.literals ∉ (tallied es).map Tally.literals := by
      rwa [literals_tallied, List.mem_eraseDups]
    have hlast : ofEntries (es ++ [e]) e.literals = ⟨e.literals, [.ofEntry e]⟩ := by
      rw [ofEntries, sharesOf_append_of_notMem h]
    rw [file_of_notMem hout, tallied, tallied, hsets, List.map_append, List.map_singleton, hlast]
    congr 1
    refine List.map_congr_left fun literals hliterals => ?_
    have hne : e.literals ≠ literals := fun he => h (he ▸ List.mem_eraseDups.1 hliterals)
    rw [ofEntries, ofEntries, sharesOf_append_of_ne es hne]

theorem foldl_file (es : List (Entry α)) :
    es.foldl (fun ts e => file e ts) [] = tallied es := by
  induction es using List.reverseRecOn with
  | nil => rfl
  | append_singleton es e ih => rw [List.foldl_append, ih, List.foldl_cons, List.foldl_nil,
      file_tallied]

end Tally

/-! ### Partitions -/

namespace Register

/-- The tallies filed under a key. -/
def slotAt (r : Register α) (k : UInt64) : List (Tally α) :=
  (r.partitions.getD (r.partitionOf k) ∅).getD k []

/-- Each key is in the partition that it belongs to. -/
structure Filed (r : Register α) : Prop where
  pos : 0 < r.partitions.size
  belongs : ∀ (p : Nat) slots, r.partitions[p]? = some slots →
    ∀ (k : UInt64) ts, slots[k]? = some ts → r.partitionOf k = p

omit [Scalar α] in
theorem filed_empty (key : List Int → UInt64) (n : Nat) : (empty key n : Register α).Filed where
  pos := by
    rw [empty, Array.size_replicate]
    omega
  belongs := by
    intro p slots hslots k ts hts
    rw [empty, Array.getElem?_replicate] at hslots
    split at hslots
    · cases hslots
      simp at hts
    · cases hslots

omit [Scalar α] in
theorem slotAt_empty (key : List Int → UInt64) (n : Nat) (k : UInt64) :
    (empty key n : Register α).slotAt k = [] := by
  simp only [slotAt, empty, Array.getD_eq_getD_getElem?, Array.getElem?_replicate]
  split <;> simp

theorem Filed.insert {r : Register α} (h : r.Filed) (e : Entry α) : (r.insert e).Filed where
  pos := by
    simpa only [Register.insert, Array.size_modify] using h.pos
  belongs := by
    intro p slots hslots k ts hts
    simp only [Register.insert, Array.getElem?_modify] at hslots
    simp only [Register.insert, partitionOf, Array.size_modify]
    split at hslots
    · rename_i hp
      obtain ⟨slots, hold, rfl⟩ := Option.map_eq_some_iff.1 hslots
      rw [Std.HashMap.getElem?_insert] at hts
      split at hts
      · rename_i hk
        rw [← eq_of_beq hk]
        exact hp
      · exact h.belongs p slots hold k ts hts
    · exact h.belongs p slots hslots k ts hts

/-- An entry is filed under the key of its literals and nowhere else. -/
theorem Filed.slotAt_insert {r : Register α} (h : r.Filed) (e : Entry α) (k : UInt64) :
    (r.insert e).slotAt k =
      if r.key e.literals = k then Tally.file e (r.slotAt k) else r.slotAt k := by
  obtain ⟨slots, hslots⟩ : ∃ slots, r.partitions[r.partitionOf k]? = some slots :=
    ⟨_, Array.getElem?_eq_getElem (Nat.mod_lt _ h.pos)⟩
  simp only [slotAt, Register.insert, partitionOf, Array.size_modify, Array.getD_eq_getD_getElem?,
    Array.getElem?_modify]
  simp only [partitionOf] at hslots
  rw [hslots]
  by_cases hk : r.key e.literals = k
  · subst hk
    simp
  · rw [if_neg hk]
    split
    · simp [Std.HashMap.getD_insert, hk]
    · rfl

theorem Filed.insertAll {r : Register α} (h : r.Filed) (es : List (Entry α)) :
    (r.insertAll es).Filed := by
  induction es generalizing r with
  | nil => exact h
  | cons e es ih => exact ih (h.insert e)

theorem Filed.slotAt_insertAll {r : Register α} (h : r.Filed) (es : List (Entry α)) (k : UInt64) :
    (r.insertAll es).slotAt k = (es.filter fun e => r.key e.literals = k).foldl
      (fun ts e => Tally.file e ts) (r.slotAt k) := by
  induction es generalizing r with
  | nil => rfl
  | cons e es ih =>
    have hrest := ih (h.insert e)
    rw [h.slotAt_insert e k] at hrest
    refine hrest.trans ?_
    have hkey : (r.insert e).key = r.key := rfl
    by_cases hk : r.key e.literals = k
    · simp [hkey, hk]
    · simp [hkey, hk]

/-- Under a key there are the tallies of the entries with this key. -/
theorem slotAt_insertAll (key : List Int → UInt64) (n : Nat) (es : List (Entry α)) (k : UInt64) :
    ((empty key n).insertAll es).slotAt k =
      Tally.tallied (es.filter fun e => key e.literals = k) := by
  rw [(filed_empty key n).slotAt_insertAll, slotAt_empty, Tally.foldl_file]
  rfl

/-! ### All tallies -/

omit [Scalar α] in
/-- What a partition holds under a key is what is filed under the key. -/
theorem Filed.slotAt_eq {r : Register α} (h : r.Filed) {p : Nat}
    {slots : Std.HashMap UInt64 (List (Tally α))} (hp : r.partitions[p]? = some slots) {k : UInt64}
    {ts : List (Tally α)} (hts : slots[k]? = some ts) : r.slotAt k = ts := by
  rw [slotAt, h.belongs p slots hp k ts hts, Array.getD_eq_getD_getElem?, hp, Option.getD_some,
    Std.HashMap.getD_eq_getD_getElem?, hts, Option.getD_some]

omit [Scalar α] in
/-- A tally is in some partition under its key. -/
theorem mem_tallies_iff {r : Register α} {k : UInt64} {t : Tally α} :
    (k, t) ∈ r.tallies ↔ ∃ (p : Nat) (slots : _) (ts : _), r.partitions[p]? = some slots ∧
      slots[k]? = some ts ∧ t ∈ ts := by
  rw [tallies, List.mem_flatMap]
  constructor
  · rintro ⟨slots, hslots, ht⟩
    obtain ⟨p, hp⟩ := List.mem_iff_getElem?.1 hslots
    obtain ⟨⟨k', ts⟩, hts, ht⟩ := List.mem_flatMap.1 ht
    obtain ⟨t', ht', heq⟩ := List.mem_map.1 ht
    obtain ⟨rfl, rfl⟩ := Prod.mk.inj heq
    rw [Array.getElem?_toList] at hp
    exact ⟨p, slots, ts, hp, Std.HashMap.mem_toList_iff_getElem?_eq_some.1 hts, ht'⟩
  · rintro ⟨p, slots, ts, hp, hts, ht⟩
    refine ⟨slots, Array.mem_toList_iff.2 (Array.mem_of_getElem? hp), ?_⟩
    rw [List.mem_flatMap]
    exact ⟨(k, ts), Std.HashMap.mem_toList_iff_getElem?_eq_some.2 hts, List.mem_map_of_mem ht⟩

omit [Scalar α] in
/-- The tallies are those filed under their keys. -/
theorem Filed.mem_tallies_iff {r : Register α} (h : r.Filed) {k : UInt64} {t : Tally α} :
    (k, t) ∈ r.tallies ↔ t ∈ r.slotAt k := by
  rw [Register.mem_tallies_iff]
  constructor
  · rintro ⟨p, slots, ts, hp, hts, ht⟩
    rwa [h.slotAt_eq hp hts]
  · intro ht
    rw [slotAt, Array.getD_eq_getD_getElem?] at ht
    rcases hp : r.partitions[r.partitionOf k]? with _ | slots
    · simp [hp] at ht
    rw [hp, Option.getD_some, Std.HashMap.getD_eq_getD_getElem?] at ht
    rcases hts : slots[k]? with _ | ts
    · simp [hts] at ht
    rw [hts] at ht
    exact ⟨r.partitionOf k, slots, ts, hp, hts, ht⟩

omit [Scalar α] in
/-- No tally is there twice, if none is there twice under one key. -/
theorem Filed.nodup_tallies {r : Register α} (h : r.Filed) (hslot : ∀ k, (r.slotAt k).Nodup) :
    r.tallies.Nodup := by
  rw [tallies, List.nodup_flatMap]
  constructor
  · intro slots hslots
    obtain ⟨p, hp⟩ := List.mem_iff_getElem?.1 hslots
    rw [Array.getElem?_toList] at hp
    rw [List.nodup_flatMap]
    constructor
    · rintro ⟨k, ts⟩ hts
      have hnodup := hslot k
      rw [h.slotAt_eq hp (Std.HashMap.mem_toList_iff_getElem?_eq_some.1 hts)] at hnodup
      exact hnodup.map fun a b hab => (Prod.mk.inj hab).2
    · refine Std.HashMap.distinct_keys_toList.imp ?_
      rintro ⟨k, ts⟩ ⟨k', ts'⟩ hne ⟨k'', t⟩ ht ht'
      obtain ⟨_, -, heq⟩ := List.mem_map.1 ht
      obtain ⟨_, -, heq'⟩ := List.mem_map.1 ht'
      obtain rfl : k = k'' := (Prod.mk.inj heq).1
      obtain rfl : k' = k := (Prod.mk.inj heq').1
      simp at hne
  · -- two partitions have no key in common
    have hat : ∀ (p : Nat) (hp : p < r.partitions.toList.length) (k : UInt64) (t : Tally α),
        (k, t) ∈ (r.partitions.toList[p].toList.flatMap fun slot =>
          slot.2.map fun t => (slot.1, t)) → r.partitionOf k = p := by
      intro p hp k t ht
      obtain ⟨⟨k', ts⟩, hts, ht⟩ := List.mem_flatMap.1 ht
      obtain ⟨_, -, heq⟩ := List.mem_map.1 ht
      obtain rfl : k' = k := (Prod.mk.inj heq).1
      refine h.belongs p _ ?_ k' ts (Std.HashMap.mem_toList_iff_getElem?_eq_some.1 hts)
      rw [← Array.getElem?_toList, List.getElem?_eq_getElem hp]
    rw [List.pairwise_iff_getElem]
    rintro p q hp hq hpq ⟨k, t⟩ hkp hkq
    have := hat p hp k t hkp
    have := hat q hq k t hkq
    omega

/-- The entries with the key of a set of literals have all its shares. -/
theorem ofEntries_filter (key : List Int → UInt64) (es : List (Entry α)) (literals : List Int) :
    Tally.ofEntries (es.filter fun e => key e.literals = key literals) literals =
      Tally.ofEntries es literals := by
  have hboth : ∀ e ∈ es, (decide (e.literals = literals) &&
      decide (key e.literals = key literals)) = decide (e.literals = literals) := by
    intro e _
    by_cases he : e.literals = literals <;> simp [he]
  rw [Tally.ofEntries, Tally.sharesOf, List.filter_filter, List.filter_congr hboth]
  rfl

/-- **The tallies of a register are those of its entries**, one for each set of
literals that occurs. -/
theorem tallies_perm (key : List Int → UInt64) (n : Nat) (es : List (Entry α)) :
    ((empty key n).insertAll es).tallies.Perm
      ((es.map Entry.literals).eraseDups.map fun literals =>
        (key literals, Tally.ofEntries es literals)) := by
  have hfiled : ((empty key n).insertAll es).Filed := (filed_empty key n).insertAll es
  rw [List.perm_ext_iff_of_nodup]
  · rintro ⟨k, t⟩
    rw [hfiled.mem_tallies_iff, slotAt_insertAll, Tally.mem_tallied_iff, List.mem_map, List.mem_map]
    constructor
    · rintro ⟨⟨e, he, hliterals⟩, heq⟩
      obtain ⟨hin, hkey⟩ := List.mem_filter.1 he
      obtain rfl : key t.literals = k := hliterals ▸ of_decide_eq_true hkey
      refine ⟨t.literals, List.mem_eraseDups.2 (List.mem_map.2 ⟨e, hin, hliterals⟩), ?_⟩
      rw [← ofEntries_filter key, ← heq]
    · rintro ⟨literals, hmem, heq⟩
      obtain ⟨rfl, rfl⟩ := Prod.mk.inj heq
      obtain ⟨e, he, hliterals⟩ := List.mem_map.1 (List.mem_eraseDups.1 hmem)
      refine ⟨⟨e, List.mem_filter.2 ⟨he, ?_⟩, hliterals⟩, (ofEntries_filter key es literals).symm⟩
      rw [hliterals]
      exact decide_eq_true rfl
  · refine hfiled.nodup_tallies fun k => ?_
    rw [slotAt_insertAll]
    exact Tally.nodup_tallied _
  · refine (nodup_eraseDups _).map fun a b hab => ?_
    exact congrArg Tally.literals (Prod.mk.inj hab).2

/-- The cliques of a register, but for their order. -/
theorem cliques_perm (key : List Int → UInt64) (n : Nat) (es : List (Entry α)) :
    ((empty key n).insertAll es).cliques.Perm
      ((es.map Entry.literals).eraseDups.map fun literals =>
        (key literals, (Tally.ofEntries es literals).toClique)) := by
  have hmap := (tallies_perm key n es).map fun p => (p.1, p.2.toClique)
  rw [List.map_map] at hmap
  exact (List.mergeSort_perm _ _).trans hmap

/-- A clique is what the entries over its literals are tallied to. -/
theorem mem_cliques_iff_exists_entry (key : List Int → UInt64) (n : Nat) (es : List (Entry α))
    {p : UInt64 × Clique α} :
    p ∈ ((empty key n).insertAll es).cliques ↔
      ∃ e ∈ es, p = (key e.literals, (Tally.ofEntries es e.literals).toClique) := by
  rw [(cliques_perm key n es).mem_iff, List.mem_map]
  simp only [List.mem_eraseDups, List.mem_map, exists_exists_and_eq_and]
  exact exists_congr fun e => and_congr_right fun _ => eq_comm

end Register

end MarkovLogic
