/-
MarkovLogic/Proofs/Herbrand/Codec.lean

Encoding and decoding the ground atoms of one predicate.

An atom has a number when each of its arguments is in the domain of its
position, and a number has an atom when it belongs to the block.  Between
these two the number of an atom and the atom of a number determine each other
(`encode?_eq_some_iff`).  Arguments are read by name or by position; the two
readings differ only by a search in the domains (`encode?_of_find?`).
-/
import MarkovLogic.Proofs.Herbrand.Rank
import MarkovLogic.Proofs.Traverse

namespace MarkovLogic

namespace Domain

/-- A name is found if and only if it is in the domain. -/
theorem find?_isSome_iff {d : Domain} {c : String} : (d.find? c).isSome ↔ c ∈ d.toList := by
  rw [Option.isSome_iff_exists, toList, Array.mem_toList_iff, Array.mem_iff_getElem?]
  exact exists_congr fun i => d.position_iff c i

@[simp] theorem toList_empty : empty.toList = [] := rfl

/-- A name is added at the end, unless it is there already. -/
theorem toList_insert (d : Domain) (c : String) :
    (d.insert c).toList = if c ∈ d.toList then d.toList else d.toList ++ [c] := by
  have hmem := find?_isSome_iff (d := d) (c := c)
  unfold insert
  split
  · rename_i i h
    rw [if_pos (hmem.1 (Option.isSome_of_eq_some h))]
  · rename_i h
    rw [if_neg fun hc => by simpa [find?, h] using hmem.2 hc]
    simp [toList]

theorem size_eq_length (d : Domain) : d.size = d.toList.length :=
  Array.length_toList.symm

/-- New names are added in their order. -/
theorem toList_foldl_insert {d : Domain} {cs : List String} (h : (d.toList ++ cs).Nodup) :
    (cs.foldl insert d).toList = d.toList ++ cs := by
  induction cs generalizing d with
  | nil => simp
  | cons c cs ih =>
    have hc : c ∉ d.toList := fun hc => (List.nodup_append.1 h).2.2 c hc c (by simp) rfl
    have hd : (d.insert c).toList = d.toList ++ [c] := by rw [toList_insert, if_neg hc]
    rw [List.foldl_cons, ih (by simpa [hd] using h), hd, List.append_assoc, List.singleton_append]

/-- The constants of a list of distinct names are these names. -/
theorem toList_ofList {cs : List String} (h : cs.Nodup) : (ofList cs).toList = cs :=
  toList_foldl_insert (by simpa [empty, toList] using h)

/-- There is a name at each position below the size. -/
theorem name?_isSome_iff {d : Domain} {i : Nat} : (d.name? i).isSome ↔ i < d.size := by
  simp [name?, size]

end Domain

namespace Herbrand

/-! ### Names and positions -/

/-- Each constant is in the domain of its position. -/
def InDomains (domains : List Domain) (constants : List String) : Prop :=
  List.Forall₂ (fun c d => c ∈ d.toList) constants domains

/-- The positions of constants in their domains. -/
def positions? (domains : List Domain) (constants : List String) : Option (List Nat) :=
  (domains.zip constants).mapM fun (d, c) => d.find? c

/-- The constants at given positions of their domains. -/
def names? (domains : List Domain) (indices : List Nat) : Option (List String) :=
  (domains.zip indices).mapM fun (d, i) => d.name? i

/-- Going from names to positions and back are inverse to each other. -/
theorem positions?_eq_some_iff {ds : List Domain} {cs : List String} {is : List Nat}
    (hcs : cs.length = ds.length) (his : is.length = ds.length) :
    positions? ds cs = some is ↔ names? ds is = some cs := by
  rw [positions?, names?, mapM_eq_some_iff, mapM_eq_some_iff]
  induction ds generalizing cs is with
  | nil => simp_all
  | cons d ds ih =>
    obtain - | ⟨c, cs⟩ := cs
    · simp at hcs
    obtain - | ⟨i, is⟩ := is
    · simp at his
    simp only [List.length_cons, Nat.add_right_cancel_iff] at hcs his
    simp only [List.zip_cons_cons, List.forall₂_cons]
    rw [ih hcs his, Domain.name?_eq_some_iff]

/-- All positions are found if and only if the constants are in their domains. -/
theorem positions?_isSome_iff {ds : List Domain} {cs : List String}
    (hcs : cs.length = ds.length) : (positions? ds cs).isSome ↔ InDomains ds cs := by
  rw [positions?, mapM_isSome_iff]
  induction ds generalizing cs with
  | nil =>
    obtain rfl := List.eq_nil_of_length_eq_zero hcs
    simp [InDomains]
  | cons d ds ih =>
    obtain - | ⟨c, cs⟩ := cs
    · simp at hcs
    simp only [List.length_cons, Nat.add_right_cancel_iff] at hcs
    rw [List.zip_cons_cons, List.forall_mem_cons, ih hcs, Domain.find?_isSome_iff, InDomains,
      InDomains, List.forall₂_cons]

/-- Positions that are found are in range. -/
theorem inRange_of_positions? {ds : List Domain} {cs : List String} {is : List Nat}
    (hcs : cs.length = ds.length) (h : positions? ds cs = some is) :
    List.Forall₂ (· < ·) is (ds.map Domain.size) := by
  rw [positions?, mapM_eq_some_iff] at h
  induction ds generalizing cs is with
  | nil => cases h; exact .nil
  | cons d ds ih =>
    obtain - | ⟨c, cs⟩ := cs
    · simp at hcs
    simp only [List.length_cons, Nat.add_right_cancel_iff] at hcs
    obtain - | ⟨i, is⟩ := is
    · cases h
    rw [List.zip_cons_cons, List.forall₂_cons] at h
    exact .cons (Domain.lt_size_of_find? h.1) (ih hcs h.2)

/-- There are constants at all positions that are in range. -/
theorem names?_isSome_of_inRange {ds : List Domain} {is : List Nat}
    (h : List.Forall₂ (· < ·) is (ds.map Domain.size)) : (names? ds is).isSome := by
  rw [names?, mapM_isSome_iff]
  induction ds generalizing is with
  | nil => simp
  | cons d ds ih =>
    obtain - | ⟨hi, his⟩ := h
    rw [List.zip_cons_cons, List.forall_mem_cons]
    exact ⟨Domain.name?_isSome_iff.2 hi, ih his⟩

/-! ### Blocks -/

namespace Block

variable {b : Block} {cs : List String} {is : List Nat} {id : Nat}

theorem contains_iff : b.contains id ↔ b.start ≤ id ∧ id < b.start + b.size := by
  rw [contains, Bool.and_eq_true, decide_eq_true_iff, decide_eq_true_iff, stop]

/-- The number of an atom and the positions of its arguments determine each
other. -/
theorem encodeIndices?_eq_some_iff :
    b.encodeIndices? is = some id ↔ b.decodeIndices? id = some is := by
  simp only [encodeIndices?, decodeIndices?, Option.map_eq_some_iff, rank?_eq_some_iff,
    Option.ite_none_right_eq_some, contains_iff, Option.some.injEq, size]
  constructor
  · rintro ⟨r, ⟨hr, rfl⟩, rfl⟩
    refine ⟨⟨by omega, by omega⟩, ?_⟩
    rw [Nat.add_sub_cancel_left]
  · rintro ⟨⟨hlow, hhigh⟩, hid⟩
    exact ⟨id - b.start, ⟨by omega, hid⟩, by omega⟩

/-- Exactly the tuples in range are numbered. -/
theorem encodeIndices?_isSome_iff :
    (b.encodeIndices? is).isSome ↔ List.Forall₂ (· < ·) is b.sizes := by
  rw [encodeIndices?, Option.isSome_map, rank?_isSome_iff]

/-- The number of an atom is in the block. -/
theorem contains_of_encodeIndices? (h : b.encodeIndices? is = some id) : b.contains id := by
  rw [encodeIndices?_eq_some_iff, decodeIndices?] at h
  exact (Option.ite_none_right_eq_some.1 h).1

/-- By name, an atom has the number that it has by positions. -/
theorem encode?_of_find? (h : cs.length = b.domains.length) :
    b.encode? cs = (positions? b.domains cs).bind b.encodeIndices? := by
  simp [encode?, h, guard, positions?]

/-- Too few or too many arguments have no number. -/
theorem length_of_encode? (h : b.encode? cs = some id) : cs.length = b.domains.length := by
  by_contra hne
  simp [encode?, hne, guard] at h

/-- Exactly the tuples of constants of the right domains have a number. -/
theorem encode?_isSome_iff : (b.encode? cs).isSome ↔ InDomains b.domains cs := by
  by_cases hcs : cs.length = b.domains.length
  · rw [← positions?_isSome_iff hcs, encode?_of_find? hcs]
    rcases h : positions? b.domains cs with - | is
    · simp
    · simp [encodeIndices?_isSome_iff, sizes, inRange_of_positions? hcs h]
  · constructor
    · intro h
      obtain ⟨id, hid⟩ := Option.isSome_iff_exists.1 h
      exact absurd (length_of_encode? hid) hcs
    · intro h
      exact absurd h.length_eq hcs

/-- The number of an atom and the atom of a number determine each other. -/
theorem encode?_eq_some_iff : b.encode? cs = some id ↔ b.decode? id = some cs := by
  have hdecode : b.decode? id = (b.decodeIndices? id).bind (names? b.domains) := rfl
  have hlen : ∀ {is}, b.decodeIndices? id = some is → is.length = b.domains.length := by
    intro is h
    rw [decodeIndices?, Option.ite_none_right_eq_some] at h
    obtain ⟨-, h⟩ := h
    rw [← Option.some.inj h, length_unrank, sizes, List.length_map]
  rw [hdecode]
  constructor
  · intro h
    have hcs := length_of_encode? h
    rw [encode?_of_find? hcs] at h
    obtain ⟨is, his, h⟩ := Option.bind_eq_some_iff.1 h
    rw [encodeIndices?_eq_some_iff] at h
    rw [h, Option.bind_some, ← positions?_eq_some_iff hcs (hlen h), his]
  · intro h
    obtain ⟨is, his, h⟩ := Option.bind_eq_some_iff.1 h
    have hcs : cs.length = b.domains.length := by
      have := (mapM_eq_some_iff.1 h).length_eq
      simp_all
    rw [encode?_of_find? hcs, (positions?_eq_some_iff hcs (hlen his)).2 h, Option.bind_some,
      encodeIndices?_eq_some_iff, his]

/-- Exactly the numbers of the block have an atom. -/
theorem decode?_isSome_iff : (b.decode? id).isSome ↔ b.contains id := by
  have hdecode : b.decode? id = (b.decodeIndices? id).bind (names? b.domains) := rfl
  by_cases hid : b.contains id
  · have his : b.decodeIndices? id = some (unrank b.sizes (id - b.start)) := if_pos hid
    have hrange := encodeIndices?_isSome_iff.1
      (Option.isSome_of_eq_some (encodeIndices?_eq_some_iff.2 his))
    simp [hdecode, his, hid, names?_isSome_of_inRange hrange]
  · simp [hdecode, decodeIndices?, hid]

end Block

end Herbrand

end MarkovLogic
