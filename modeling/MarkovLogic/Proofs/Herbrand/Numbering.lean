/-
MarkovLogic/Proofs/Herbrand/Numbering.lean

The numbering of ground atoms is a bijection.

For every schema with distinct predicates whose numbering is built and has at
most `2 ^ 31 - 1` atoms, the ground atoms of the schema and the numbers from
`1` to their count correspond one to one, by `encode?` in one direction and by
`decode` in the other (`isCodec_of_build`).  Domains may be empty and may be
shared between predicates, and predicates may have no arguments.

The distinctness of the predicates is consumed only where a predicate is
looked up by its signature, and the bound on the count only by the words of 32
bits.
-/
import MarkovLogic.Proofs.Herbrand.Words
import Mathlib.Data.Set.Function
import Mathlib.Order.Interval.Set.Basic
import Mathlib.Order.Nat

namespace MarkovLogic.Herbrand.Base

/-- The ground atoms of a schema: a predicate applied to constants of its
argument domains, as many as there are domains. -/
def IsGroundAtom (schema : List (Signature × List Domain)) (signature : Signature)
    (constants : List String) : Prop :=
  ∃ domains, (signature, domains) ∈ schema ∧ InDomains domains constants

/-- What a numbering has to be. -/
structure IsCodec (schema : List (Signature × List Domain)) (isQuery : Signature → Bool)
    (b : Base) : Prop where
  /-- Exactly the ground atoms have a number. -/
  encode_isSome_iff : ∀ signature constants,
    (b.encode? signature constants).isSome ↔ IsGroundAtom schema signature constants
  /-- Ground atoms and numbers correspond one to one. -/
  encode_bijOn : Set.BijOn (fun a : Signature × List String => (b.encode? a.1 a.2).getD 0)
    {a | IsGroundAtom schema a.1 a.2} (Set.Icc 1 b.atomCount)
  /-- Decoding undoes encoding. -/
  decode_encode : ∀ signature constants id,
    b.encode? signature constants = some id → b.decode id = .ok (signature, constants)
  /-- Every number is decoded, and encoding undoes that. -/
  encode_decode : ∀ id, 1 ≤ id → id ≤ b.atomCount →
    ∃ signature constants, b.decode id = .ok (signature, constants) ∧
      b.encode? signature constants = some id
  /-- Other numbers are refused by name. -/
  decode_unknown : ∀ id, ¬ (1 ≤ id ∧ id ≤ b.atomCount) → b.decode id = .error (.unknownId id)
  /-- By positions an atom has the number that it has by names. -/
  encode_positions : ∀ block ∈ b.blocks, ∀ constants,
    constants.length = block.domains.length →
      block.encode? constants = (positions? block.domains constants).bind block.encodeIndices?
  /-- Decoding into positions undoes encoding positions, and the other way round. -/
  decodeIndices_iff : ∀ block ∈ b.blocks, ∀ indices id,
    block.encodeIndices? indices = some id ↔ block.decodeIndices? id = some indices
  /-- The first number that is not in use is a word, and so is the end of each
  block. -/
  stop_word : b.next < wordLimit ∧ ∀ block ∈ b.blocks, block.stopWord = some block.stop
  /-- Encoding and decoding with words neither overflow nor divide by zero. -/
  words : ∀ block ∈ b.blocks,
    (∀ constants, block.encodeByWords constants = some (block.encode? constants)) ∧
    (∀ indices, block.encodeIndicesByWords indices = some (block.encodeIndices? indices)) ∧
    ∀ id, block.decodeIndicesByWords id = some (block.decodeIndices? id)
  /-- The block of a number is found by where the non-empty blocks begin. -/
  owner_search : ∀ id,
    b.owner? id = (lastFrom b.blocks id).filter fun block => block.contains id
  /-- A number is asked about if and only if its predicate is. -/
  isQueryAtom_iff : ∀ id,
    b.isQueryAtom id ↔ ∃ block, b.owner? id = some block ∧ isQuery block.signature

variable {schema : List (Signature × List Domain)} {isQuery : Signature → Bool} {b : Base}

/-! ### Encoding and decoding over all predicates -/

theorem encode?_eq (signature : Signature) (cs : List String) :
    b.encode? signature cs = (b.find? signature).bind fun block => block.encode? cs := rfl

theorem decode_of_owner? {id : Nat} {block : Block} {cs : List String}
    (howner : b.owner? id = some block) (hcs : block.decode? id = some cs) :
    b.decode id = .ok (block.signature, cs) := by
  simp [decode, owner, howner, hcs, bind, Except.bind, pure, Except.pure]

theorem decode_of_owner?_eq_none {id : Nat} (howner : b.owner? id = none) :
    b.decode id = .error (.unknownId id) := by
  simp [decode, owner, howner, bind, Except.bind]

/-- An atom has a number exactly when some block with its signature decodes the
number to it. -/
theorem encode?_eq_some_iff (h : build schema isQuery = .ok b)
    (hschema : (schema.map Prod.fst).Nodup) {signature : Signature} {cs : List String} {id : Nat} :
    b.encode? signature cs = some id ↔
      ∃ block, b.owner? id = some block ∧ block.signature = signature ∧
        block.decode? id = some cs := by
  rw [encode?_eq, Option.bind_eq_some_iff]
  refine exists_congr fun block => ?_
  rw [find?_eq_some_iff h hschema, Block.encode?_eq_some_iff, owner?_eq_some_iff h]
  constructor
  · rintro ⟨⟨hmem, hsig⟩, hdec⟩
    exact ⟨⟨hmem, Block.decode?_isSome_iff.1 (Option.isSome_of_eq_some hdec)⟩, hsig, hdec⟩
  · rintro ⟨⟨hmem, -⟩, hsig, hdec⟩
    exact ⟨⟨hmem, hsig⟩, hdec⟩

/-- Exactly the ground atoms of the schema have a number. -/
theorem encode?_isSome_iff (h : build schema isQuery = .ok b)
    (hschema : (schema.map Prod.fst).Nodup) {signature : Signature} {cs : List String} :
    (b.encode? signature cs).isSome ↔ IsGroundAtom schema signature cs := by
  rw [encode?_eq, IsGroundAtom]
  constructor
  · intro hsome
    rcases hfind : b.find? signature with - | block
    · simp [hfind] at hsome
    · rw [hfind, Option.bind_some, Block.encode?_isSome_iff] at hsome
      exact ⟨block.domains, (exists_find?_iff h hschema).1 ⟨block, hfind, rfl⟩, hsome⟩
  · rintro ⟨domains, hmem, hcs⟩
    obtain ⟨block, hfind, rfl⟩ := (exists_find?_iff h hschema).2 hmem
    rw [hfind, Option.bind_some, Block.encode?_isSome_iff]
    exact hcs

/-- Decoding undoes encoding. -/
theorem decode_of_encode? (h : build schema isQuery = .ok b)
    (hschema : (schema.map Prod.fst).Nodup) {signature : Signature} {cs : List String} {id : Nat}
    (hid : b.encode? signature cs = some id) : b.decode id = .ok (signature, cs) := by
  obtain ⟨block, howner, rfl, hdec⟩ := (encode?_eq_some_iff h hschema).1 hid
  exact decode_of_owner? howner hdec

/-- Every number up to the count is that of an atom, to which it is decoded. -/
theorem exists_encode?_eq (h : build schema isQuery = .ok b)
    (hschema : (schema.map Prod.fst).Nodup) {id : Nat} (hlow : 1 ≤ id) (hhigh : id ≤ b.atomCount) :
    ∃ signature cs, b.decode id = .ok (signature, cs) ∧ b.encode? signature cs = some id := by
  obtain ⟨block, howner⟩ := Option.isSome_iff_exists.1 ((owner?_isSome_iff h).2 ⟨hlow, hhigh⟩)
  have hcontains := ((owner?_eq_some_iff h).1 howner).2
  obtain ⟨cs, hcs⟩ := Option.isSome_iff_exists.1 (Block.decode?_isSome_iff.2 hcontains)
  exact ⟨block.signature, cs, decode_of_owner? howner hcs,
    (encode?_eq_some_iff h hschema).2 ⟨block, howner, rfl, hcs⟩⟩

/-- Numbers of atoms lie between `1` and the count. -/
theorem encode?_mem_Icc (h : build schema isQuery = .ok b)
    (hschema : (schema.map Prod.fst).Nodup) {signature : Signature} {cs : List String} {id : Nat}
    (hid : b.encode? signature cs = some id) : id ∈ Set.Icc 1 b.atomCount := by
  obtain ⟨block, howner, -, -⟩ := (encode?_eq_some_iff h hschema).1 hid
  exact (owner?_isSome_iff h).1 (Option.isSome_of_eq_some howner)

/-- Ground atoms and the numbers up to their count correspond one to one. -/
theorem encode?_bijOn (h : build schema isQuery = .ok b)
    (hschema : (schema.map Prod.fst).Nodup) :
    Set.BijOn (fun a : Signature × List String => (b.encode? a.1 a.2).getD 0)
      {a | IsGroundAtom schema a.1 a.2} (Set.Icc 1 b.atomCount) := by
  have hsome : ∀ a : Signature × List String, IsGroundAtom schema a.1 a.2 →
      ∃ id, b.encode? a.1 a.2 = some id := fun a ha =>
    Option.isSome_iff_exists.1 ((encode?_isSome_iff h hschema).2 ha)
  refine ⟨?_, ?_, ?_⟩
  · intro a ha
    obtain ⟨id, hid⟩ := hsome a ha
    simpa [hid] using encode?_mem_Icc h hschema hid
  · intro a ha a' ha' heq
    obtain ⟨id, hid⟩ := hsome a ha
    obtain ⟨id', hid'⟩ := hsome a' ha'
    obtain rfl : id = id' := by simpa [hid, hid'] using heq
    exact Except.ok.inj ((decode_of_encode? h hschema hid).symm.trans
      (decode_of_encode? h hschema hid'))
  · rintro id ⟨hlow, hhigh⟩
    obtain ⟨signature, cs, -, hid⟩ := exists_encode?_eq h hschema hlow hhigh
    refine ⟨(signature, cs), ?_, by simp [hid]⟩
    exact (encode?_isSome_iff h hschema).1 (Option.isSome_of_eq_some hid)

/-! ### The main theorem -/

/-- **The numbering of ground atoms is a bijection**, in both directions, by
names and by positions, and also when it is computed with words of 32 bits. -/
theorem isCodec_of_build (schema : List (Signature × List Domain)) (isQuery : Signature → Bool)
    (b : Base) (hschema : (schema.map Prod.fst).Nodup) (h : build schema isQuery = .ok b)
    (hcount : b.atomCount ≤ Block.maxId) : IsCodec schema isQuery b where
  encode_isSome_iff _ _ := encode?_isSome_iff h hschema
  encode_bijOn := encode?_bijOn h hschema
  decode_encode _ _ _ := decode_of_encode? h hschema
  encode_decode _ := exists_encode?_eq h hschema
  decode_unknown _ hid := decode_of_owner?_eq_none
    (Option.not_isSome_iff_eq_none.1 fun hsome => hid ((owner?_isSome_iff h).1 hsome))
  encode_positions _ _ _ := Block.encode?_of_find?
  decodeIndices_iff _ _ _ _ := Block.encodeIndices?_eq_some_iff
  stop_word := by
    have hnext : b.next < wordLimit := next_lt_wordLimit hcount
    exact ⟨hnext, fun block hblock =>
      Block.stopWord_eq (Nat.lt_of_le_of_lt ((consecutive_of_build h).bounds hblock).2 hnext)⟩
  words block hblock := by
    have hstop : block.stop < wordLimit :=
      Nat.lt_of_le_of_lt ((consecutive_of_build h).bounds hblock).2 (next_lt_wordLimit hcount)
    have hchecked := isChecked_of_build h hblock
    exact ⟨Block.encodeByWords_eq hchecked hstop, Block.encodeIndicesByWords_eq hchecked hstop,
      Block.decodeIndicesByWords_eq hchecked hstop⟩
  owner_search := owner?_eq_search h
  isQueryAtom_iff _ := isQueryAtom_iff h

/-- A schema with a shared domain, an empty one and a predicate without
arguments. -/
def friendsSchema : List (Signature × List Domain) :=
  let people := Domain.ofList ["Anna", "Bob"]
  [(⟨"Friends", 2⟩, [people, people]), (⟨"Ghost", 2⟩, [people, .empty]), (⟨"Rain", 0⟩, []),
    (⟨"Smokes", 1⟩, [people])]

/-- Asked about smokers, the seven atoms of this schema are numbered one to
one. -/
theorem isCodec_friendsSchema :
    (friendsSchema.map Prod.fst).Nodup ∧
      ∃ b, build friendsSchema (· == ⟨"Smokes", 1⟩) = .ok b ∧ b.atomCount = 7 ∧
        IsCodec friendsSchema (· == ⟨"Smokes", 1⟩) b := by
  have hpeople : (Domain.ofList ["Anna", "Bob"]).size = 2 := by
    simp [Domain.size_eq_length, Domain.ofList, Domain.toList_insert]
  have hempty : Domain.empty.size = 0 := rfl
  have hnodup : (friendsSchema.map Prod.fst).Nodup := by decide
  have hbuild : ∃ b, build friendsSchema (· == ⟨"Smokes", 1⟩) = .ok b ∧ b.next = 8 := by
    simp [friendsSchema, build, layOut, Block.make, Block.checkedSize, Block.stop, Block.size,
      Block.sizes, volume, Block.maxId, Block.maxProduct, hpeople, hempty, bind, Except.bind,
      pure, Except.pure]
  obtain ⟨b, hb, hnext⟩ := hbuild
  have hcount : b.atomCount = 7 := by rw [atomCount, hnext]
  refine ⟨hnodup, b, hb, hcount, isCodec_of_build _ _ b hnodup hb ?_⟩
  rw [hcount]
  decide

end MarkovLogic.Herbrand.Base
