/-
MarkovLogic/Proofs/Model.lean

Models that were built.

Building a model numbers the ground atoms of its schema and files the evidence
under the predicates.  Afterwards the parts of the model fit together
(`Model.Built`): there is one collection of evidence for each block of numbers,
each predicate has as many argument domains as arguments, and these are among
the domains of the model.

Main statements: `Declarations.built_of_build`, and from it what grounding
relies on, that the evidence about an atom can be found by its predicate as
well as by its number (`truth_eq`), that the unknown atoms asked about belong to
predicates asked about (`owner?_of_mem_unknownQueryAtoms`), and that the atoms
with a number are those over the declared types (`encode?_isSome_iff`).
-/
import Mathlib
import MarkovLogic.Model
import MarkovLogic.Proofs.Herbrand.Numbering

namespace MarkovLogic

open Herbrand

variable {α : Type}

namespace Model

/-- The parts of the model fit together. -/
structure Built (m : Model α) (schema : List (Signature × List Domain)) : Prop where
  /-- The atoms of the schema are numbered. -/
  base : Base.build schema m.query.contains = .ok m.base
  /-- Each predicate is there once. -/
  nodup : (schema.map Prod.fst).Nodup
  /-- A predicate has as many argument domains as arguments. -/
  length_domains : ∀ p ∈ schema, p.2.length = p.1.arity
  /-- The argument domains are among those of the model. -/
  mem_domains : ∀ p ∈ schema, ∀ domain ∈ p.2,
    ∃ typeName : String, m.domains[typeName]? = some domain
  /-- There is evidence for each block. -/
  blocks : m.evidence.map Evidence.block = m.base.blocks
  /-- The schema has the declared predicates. -/
  contains_iff : ∀ s, m.kb.schema.contains s = true ↔ s ∈ schema.map Prod.fst

end Model

/-! ### Building -/

namespace Declarations

/-- Without computed predicates the predicates of all literals are checked. -/
theorem check_of_computed_empty {d : Declarations α} (h : d.kb.computed = .empty)
    (hfirst : d.check = d.kb.clauses.toList.forM fun c => c.literals.forM fun l =>
      if d.kb.computed.contains l.atom.signature then pure ()
      else d.kb.checkSignature .clause l.atom.signature)
    (hclauses : (d.kb.clauses.toList.forM fun c => c.literals.forM fun l =>
      d.kb.checkSignature .clause l.atom.signature) = .ok ()) : d.check = .ok () := by
  have hcomputed (s : Signature) : d.kb.computed.contains s = false := by
    simp [h, Computed.contains, Computed.empty]
  simp only [hcomputed] at hfirst
  exact hfirst.trans hclauses

/-- Filing facts leaves the blocks as they are. -/
theorem map_block_fileFacts {kb : KnowledgeBase α} {base : Base} {evidence filed : List Evidence}
    {facts : List (Atom × Bool)} (h : fileFacts kb base evidence facts = .ok filed) :
    filed.map Evidence.block = evidence.map Evidence.block := by
  refine foldlM_induction (P := fun es => es.map Evidence.block = evidence.map Evidence.block) h
    rfl ?_
  rintro es ⟨atom, value⟩ es' - hstep hes
  obtain ⟨id, -, hmap⟩ := bind_eq_ok_iff.1 hstep
  rw [← Except.ok.inj hmap, List.map_map, ← hes]
  refine List.map_congr_left fun e _ => ?_
  simp only [Function.comp_apply]
  split <;> rfl

/-- The argument domains of a predicate are those of its types. -/
theorem forall₂_argumentDomains {domains : Std.TreeMap String Domain compare}
    {signature : Signature} {types : List String} {ds : List Domain}
    (h : argumentDomains domains signature types = .ok ds) :
    List.Forall₂ (fun typeName domain => domains[typeName]? = some domain) types ds := by
  refine (mapM_eq_ok_iff.1 h).imp fun typeName domain hd => ?_
  split at hd
  · rename_i found hfound
    rw [hfound, Except.ok.inj hd]
  · cases hd

/-- The predicates with the domains of their arguments. -/
def typedSchema (kb : KnowledgeBase α) (domains : Std.TreeMap String Domain compare) :
    Except KnowledgeError (List (Signature × List Domain)) :=
  kb.schema.toList.mapM fun (signature, types) => do
    return (signature, ← argumentDomains domains signature types)

/-- The entries of the schema are those of the knowledge base, with domains for
types. -/
theorem forall₂_typedSchema {kb : KnowledgeBase α} {domains : Std.TreeMap String Domain compare}
    {schema : List (Signature × List Domain)} (h : typedSchema kb domains = .ok schema) :
    List.Forall₂ (fun (p : Signature × List String) (q : Signature × List Domain) =>
      p.1 = q.1 ∧ argumentDomains domains p.1 p.2 = .ok q.2) kb.schema.toList schema := by
  refine (mapM_eq_ok_iff.1 h).imp fun p q hq => ?_
  obtain ⟨ds, hds, hq⟩ := bind_eq_ok_iff.1 hq
  cases hq
  exact ⟨rfl, hds⟩

/-- What a model is made of.  The entries of its schema are those of the knowledge
base, with domains for types. -/
theorem build_eq_ok {d : Declarations α} {m : Model α} (h : d.build = .ok m) :
    m.kb = d.kb ∧ m.evidence.map Evidence.block = m.base.blocks ∧
      ∃ schema, Base.build schema m.query.contains = .ok m.base ∧
        List.Forall₂ (fun (p : Signature × List String) (q : Signature × List Domain) =>
          p.1 = q.1 ∧ argumentDomains m.domains p.1 p.2 = .ok q.2) d.kb.schema.toList schema := by
  unfold build at h
  obtain ⟨-, -, h⟩ := bind_eq_ok_iff.1 h
  obtain ⟨domains, -, h⟩ := bind_eq_ok_iff.1 h
  obtain ⟨schema, hschema, h⟩ := bind_eq_ok_iff.1 h
  obtain ⟨base, hbase, h⟩ := bind_eq_ok_iff.1 h
  obtain ⟨evidence, hevidence, h⟩ := bind_eq_ok_iff.1 h
  obtain ⟨notes, rfl⟩ : ∃ notes, m = ⟨d.kb, domains, base, evidence, d.query, notes⟩ := by
    dsimp only at h
    split at h
    · obtain ⟨notes, -, h⟩ := bind_eq_ok_iff.1 h
      exact ⟨notes, (Except.ok.inj h).symm⟩
    · obtain ⟨notes, -, h⟩ := bind_eq_ok_iff.1 h
      exact ⟨notes, (Except.ok.inj h).symm⟩
  refine ⟨rfl, ?_, schema, ?_, ?_⟩
  · rw [map_block_fileFacts hevidence, List.map_map]
    exact List.map_id _
  · exact mapError_eq_ok_iff.1 hbase
  · exact forall₂_typedSchema hschema

/-- The parts of a model that was built fit together. -/
theorem built_of_build {d : Declarations α} {m : Model α} (h : d.build = .ok m) :
    ∃ schema, m.Built schema := by
  obtain ⟨hkb, hblocks, schema, hbase, hentries⟩ := build_eq_ok h
  have hfst := map_eq_of_forall₂ (hentries.imp fun p q hpq => hpq.1)
  refine ⟨schema, hbase, ?_, ?_, ?_, hblocks, ?_⟩
  · rw [← hfst, List.Nodup, List.pairwise_map]
    refine Std.TreeMap.distinct_keys_toList.imp fun hne heq => hne ?_
    rw [heq]
    exact Std.ReflCmp.compare_self
  · -- a declaration has as many types as arguments, and each type gives one domain
    intro q hq
    obtain ⟨p, hp, hsame, hds⟩ := exists_mem_of_forall₂ hentries hq
    have htypes := Std.TreeMap.mem_toList_iff_getElem?_eq_some.1 hp
    rw [← hsame, ← d.kb.length_types p.1 p.2 htypes]
    exact (forall₂_argumentDomains hds).length_eq.symm
  · intro q hq domain hdomain
    obtain ⟨p, -, -, hds⟩ := exists_mem_of_forall₂ hentries hq
    obtain ⟨typeName, -, htype⟩ := exists_mem_of_forall₂ (forall₂_argumentDomains hds) hdomain
    exact ⟨typeName, htype⟩
  · intro s
    rw [hkb, ← hfst, Std.TreeMap.map_fst_toList_eq_keys, Std.TreeMap.mem_keys,
      Std.TreeMap.mem_iff_contains]

end Declarations

/-! ### Looking up evidence -/

namespace Model

variable {m : Model α} {schema : List (Signature × List Domain)}

namespace Built

/-- The evidence about a predicate is that of its block. -/
theorem evidenceOf?_eq_some_iff (h : m.Built schema) {signature : Signature} {e : Evidence} :
    m.evidenceOf? signature = some e ↔ e ∈ m.evidence ∧ e.block.signature = signature := by
  have hnodup : (m.evidence.map fun e => e.block.signature).Nodup := by
    have hblocks := Base.nodup_signatures h.base h.nodup
    rwa [← h.blocks, List.map_map] at hblocks
  rw [evidenceOf?, find?_eq_some_iff_of_unique, beq_iff_eq]
  · rfl
  · intro a ha b hb hsa hsb
    exact List.inj_on_of_nodup_map hnodup ha hb ((eq_of_beq hsa).trans (eq_of_beq hsb).symm)

theorem mem_blocks (h : m.Built schema) {e : Evidence} (he : e ∈ m.evidence) :
    e.block ∈ m.base.blocks :=
  h.blocks ▸ List.mem_map_of_mem he

theorem entry_mem (h : m.Built schema) {e : Evidence} (he : e ∈ m.evidence) :
    (e.block.signature, e.block.domains) ∈ schema :=
  (Base.entry_mem_iff h.base).1 (List.mem_map_of_mem (h.mem_blocks he))

/-- There is evidence about exactly the declared predicates. -/
theorem contains_schema_iff (h : m.Built schema) {signature : Signature} :
    m.kb.schema.contains signature = true ↔ ∃ e, m.evidenceOf? signature = some e := by
  rw [h.contains_iff, List.mem_map]
  constructor
  · rintro ⟨p, hp, rfl⟩
    obtain ⟨block, hblock, rfl⟩ := List.mem_map.1 ((Base.entry_mem_iff h.base).2 hp)
    rw [← h.blocks, List.mem_map] at hblock
    obtain ⟨e, he, rfl⟩ := hblock
    exact ⟨e, h.evidenceOf?_eq_some_iff.2 ⟨he, rfl⟩⟩
  · rintro ⟨e, he⟩
    obtain ⟨hmem, rfl⟩ := h.evidenceOf?_eq_some_iff.1 he
    exact ⟨_, h.entry_mem hmem, rfl⟩

theorem find?_of_evidenceOf? (h : m.Built schema) {signature : Signature} {e : Evidence}
    (he : m.evidenceOf? signature = some e) : m.base.find? signature = some e.block := by
  obtain ⟨hmem, hsig⟩ := h.evidenceOf?_eq_some_iff.1 he
  exact (Base.find?_eq_some_iff h.base h.nodup).2 ⟨h.mem_blocks hmem, hsig⟩

/-- The number of an atom belongs to the block of its predicate. -/
theorem owner?_of_contains (h : m.Built schema) {e : Evidence} (he : e ∈ m.evidence) {id : Nat}
    (hid : e.block.contains id) : m.base.owner? id = some e.block :=
  (Base.owner?_eq_some_iff h.base).2 ⟨h.mem_blocks he, hid⟩

/-- What is known about an atom is what the evidence about its predicate
says. -/
theorem truth_eq (h : m.Built schema) {e : Evidence} (he : e ∈ m.evidence) {id : Nat}
    (hid : e.block.contains id) : m.truth id = e.get id := by
  have hfind := h.evidenceOf?_eq_some_iff.2 ⟨he, rfl⟩
  simp only [truth, h.owner?_of_contains he hid, hfind]

/-- The unknown atoms asked about belong to predicates asked about. -/
theorem owner?_of_mem_unknownQueryAtoms (h : m.Built schema) {id : Nat}
    (hid : id ∈ m.unknownQueryAtoms) :
    ∃ block, m.base.owner? id = some block ∧ m.query.contains block.signature = true := by
  obtain ⟨signature, hquery, hid⟩ := List.mem_flatMap.1 hid
  rcases he : m.evidenceOf? signature with _ | e
  · simp [he] at hid
  · obtain ⟨hmem, rfl⟩ := h.evidenceOf?_eq_some_iff.1 he
    rw [he] at hid
    have hcontains : e.block.contains id := by
      simp only [Evidence.unknownIds] at hid
      split at hid
      · have hrange := List.mem_range'_1.1 (List.mem_filter.1 hid).1
        exact Block.contains_iff.2 hrange
      · simp at hid
    refine ⟨e.block, h.owner?_of_contains hmem hcontains, ?_⟩
    exact Std.TreeSet.mem_iff_contains.1 (Std.TreeSet.mem_toList.1 hquery)

end Built

end Model

/-! ### Ground atoms of a model -/

namespace Model

variable {m : Model α}

/-- The arguments are constants of the argument types of the predicate. -/
def HasAtom (m : Model α) (signature : Signature) (args : List String) : Prop :=
  ∃ types, m.kb.schema[signature]? = some types ∧
    List.Forall₂ (fun c typeName => ∃ domain : Domain,
      m.domains[typeName]? = some domain ∧ c ∈ domain.toList) args types

/-- A ground atom has as many arguments as its predicate. -/
theorem HasAtom.length_eq {signature : Signature} {args : List String}
    (h : m.HasAtom signature args) : args.length = signature.arity := by
  obtain ⟨types, htypes, hargs⟩ := h
  rw [hargs.length_eq, m.kb.length_types signature types htypes]

/-- Being in the domains of some types, type by type. -/
theorem inDomains_iff {domains : Std.TreeMap String Domain compare} {types args : List String}
    {ds : List Domain}
    (h : List.Forall₂ (fun typeName domain => domains[typeName]? = some domain) types ds) :
    InDomains ds args ↔ List.Forall₂ (fun c typeName => ∃ domain : Domain,
      domains[typeName]? = some domain ∧ c ∈ domain.toList) args types := by
  induction h generalizing args with
  | nil => simp [InDomains]
  | cons hdomain _ ih =>
    cases args with
    | nil => simp [InDomains]
    | cons c args =>
      rw [InDomains, List.forall₂_cons, List.forall₂_cons, ← ih, hdomain]
      simp [InDomains]

/-- Exactly the ground atoms of the model have a number. -/
theorem encode?_isSome_iff {d : Declarations α} (hbuild : d.build = .ok m) {signature : Signature}
    {args : List String} : (m.base.encode? signature args).isSome ↔ m.HasAtom signature args := by
  obtain ⟨built, h⟩ := Declarations.built_of_build hbuild
  obtain ⟨hkb, -, schema, hbase, hentries⟩ := Declarations.build_eq_ok hbuild
  rw [Base.encode?_isSome_iff h.base h.nodup, Base.IsGroundAtom, HasAtom, hkb]
  simp only [← Base.entry_mem_iff h.base, Base.entry_mem_iff hbase]
  constructor
  · rintro ⟨domains, hmem, hargs⟩
    obtain ⟨⟨_, types⟩, htypes, rfl, hdomains⟩ := exists_mem_of_forall₂ hentries hmem
    exact ⟨types, Std.TreeMap.mem_toList_iff_getElem?_eq_some.1 htypes,
      (inDomains_iff (Declarations.forall₂_argumentDomains hdomains)).1 hargs⟩
  · rintro ⟨types, htypes, hargs⟩
    obtain ⟨⟨_, domains⟩, hmem, rfl, hdomains⟩ := exists_mem_of_forall₂ hentries.flip
      (Std.TreeMap.mem_toList_iff_getElem?_eq_some.2 htypes)
    exact ⟨domains, hmem,
      (inDomains_iff (Declarations.forall₂_argumentDomains hdomains)).2 hargs⟩

end Model

end MarkovLogic
