/-
MarkovLogic/Proofs/Declarations.lean

What declarations that pass their checks are worth.

Building a model checks the predicates and the assumptions, takes the constants
of facts and annotations into the domains of their types, looks up the domains
of the argument types, and numbers the ground atoms (`Declarations.Passes`).
Once a constant is in the domain of a type it stays there, and every argument of
every fact and annotation is looked at.  So afterwards each of them is a ground
atom of the schema, and it has a number (`Passes.encode?_isSome`).  Filing the
facts, the last stage of building, can therefore not fail.
-/
import MarkovLogic.Proofs.Model

namespace MarkovLogic

open Herbrand

/-- A fold that succeeds achieves for each element what its own step achieves and no
other step destroys. -/
theorem foldlM_forall {α β ε : Type} {f : β → α → Except ε β} {P : α → β → Prop} {xs : List α}
    {init final : β} (h : xs.foldlM f init = .ok final)
    (hmake : ∀ b x b', f b x = .ok b' → P x b')
    (hkeep : ∀ b x b' y, f b x = .ok b' → P y b → P y b') : ∀ x ∈ xs, P x final := by
  induction xs generalizing init with
  | nil => simp
  | cons x xs ih =>
    rw [List.foldlM_cons, bind_eq_ok_iff] at h
    obtain ⟨next, hx, hrest⟩ := h
    rw [List.forall_mem_cons]
    refine ⟨?_, ih hrest⟩
    exact foldlM_induction hrest (hmake init x next hx) fun b y b' _ hy => hkeep b y b' x hy

/-- One check after another succeeds if both do. -/
theorem seq_eq_ok_iff {ε : Type} {x y : Except ε Unit} :
    (x >>= fun _ => y) = .ok () ↔ x = .ok () ∧ y = .ok () := by
  rw [bind_eq_ok_iff]
  exact ⟨fun ⟨_, hx, hy⟩ => ⟨hx, hy⟩, fun ⟨hx, hy⟩ => ⟨(), hx, hy⟩⟩

namespace KnowledgeBase

variable {α : Type} {kb : KnowledgeBase α}

/-- Exactly the declared predicates pass. -/
theorem checkSignature_eq_ok_iff {role : Role} {signature : Signature} :
    kb.checkSignature role signature = .ok () ↔ kb.schema.contains signature = true := by
  rw [checkSignature]
  split
  · simp [*]
  · split <;> simp [*]

theorem checkSignatures_eq_ok_iff {role : Role} {set : SignatureSet} :
    set.toList.forM (kb.checkSignature role) = .ok () ↔
      ∀ s ∈ set, kb.schema.contains s = true := by
  simp only [forM_eq_ok_iff, checkSignature_eq_ok_iff, Std.TreeSet.mem_toList]

/-- The predicate of a literal is computed or declared. -/
theorem checkLiteral_eq_ok_iff {signature : Signature} :
    (if kb.computed.contains signature then pure ()
      else kb.checkSignature .clause signature : Except KnowledgeError Unit) = .ok () ↔
      kb.computed.contains signature = true ∨ kb.schema.contains signature = true := by
  split
  · simp [*, pure, Except.pure]
  · simp [*, checkSignature_eq_ok_iff]

end KnowledgeBase

namespace Declarations

variable {α : Type} {d : Declarations α}

/-! ### Checks -/

/-- All predicates are declared, and no assumption conflicts with another. -/
structure Checked (d : Declarations α) : Prop where
  query : ∀ s ∈ d.query, d.kb.schema.contains s = true
  closedWorld : ∀ s ∈ d.closedWorld, d.kb.schema.contains s = true
  openWorld : ∀ s ∈ d.openWorld, d.kb.schema.contains s = true
  /-- No predicate in a closed world is in an open one or asked about. -/
  separate : ∀ s ∈ d.closedWorld, d.openWorld.contains s = false ∧ d.query.contains s = false
  groundAtoms : ∀ a ∈ d.groundAtoms, d.kb.schema.contains a.signature = true
  /-- The predicates of clauses may also be computed. -/
  clauses : ∀ c ∈ d.kb.clauses, ∀ l ∈ c.literals,
    d.kb.computed.contains l.atom.signature = true ∨ d.kb.schema.contains l.atom.signature = true

/-- The check lets exactly such declarations pass. -/
theorem check_eq_ok_iff : d.check = .ok () ↔ d.Checked := by
  have hrest : (d.groundAtoms.forM (fun a => d.kb.checkSignature .evidence a.signature) >>= fun _ =>
      d.kb.clauses.toList.forM fun c => c.literals.forM fun l =>
        if d.kb.computed.contains l.atom.signature then pure ()
        else d.kb.checkSignature .clause l.atom.signature) = .ok () ↔
      (∀ a ∈ d.groundAtoms, d.kb.schema.contains a.signature = true) ∧
      ∀ c ∈ d.kb.clauses, ∀ l ∈ c.literals,
        d.kb.computed.contains l.atom.signature = true ∨
          d.kb.schema.contains l.atom.signature = true := by
    rw [seq_eq_ok_iff]
    simp only [forM_eq_ok_iff, KnowledgeBase.checkSignature_eq_ok_iff,
      KnowledgeBase.checkLiteral_eq_ok_iff, Array.mem_toList_iff]
  unfold check
  dsimp only
  rw [seq_eq_ok_iff, seq_eq_ok_iff, seq_eq_ok_iff, KnowledgeBase.checkSignatures_eq_ok_iff,
    KnowledgeBase.checkSignatures_eq_ok_iff, KnowledgeBase.checkSignatures_eq_ok_iff]
  rcases hfind : d.closedWorld.toList.find? fun s =>
      d.openWorld.contains s || d.query.contains s with _ | s
  · have hseparate : ∀ s ∈ d.closedWorld,
        d.openWorld.contains s = false ∧ d.query.contains s = false := by
      intro s hs
      have hno := List.find?_eq_none.1 hfind s (Std.TreeSet.mem_toList.2 hs)
      exact Bool.or_eq_false_iff.1 (Bool.not_eq_true _ ▸ hno)
    dsimp only
    rw [hrest]
    constructor
    · rintro ⟨hq, hc, ho, hg, hl⟩
      exact ⟨hq, hc, ho, hseparate, hg, hl⟩
    · rintro ⟨hq, hc, ho, -, hg, hl⟩
      exact ⟨hq, hc, ho, hg, hl⟩
  · -- a predicate with two assumptions is refused
    constructor
    · rintro ⟨-, -, -, hthrow⟩
      cases hthrow
    · intro hchecked
      have hs := List.find?_some hfind
      have hmem := Std.TreeSet.mem_toList.1 (List.mem_of_find?_eq_some hfind)
      simp [hchecked.separate s hmem] at hs

/-! ### Constants -/

/-- A constant is in the domain of a type. -/
def Knows (domains : Std.TreeMap String Domain compare) (typeName c : String) : Prop :=
  ∃ domain : Domain, domains[typeName]? = some domain ∧ c ∈ domain.toList

/-- Each argument of an atom is a constant in the domain of its type. -/
def KnowsAtom (kb : KnowledgeBase α) (domains : Std.TreeMap String Domain compare) (a : Atom) :
    Prop :=
  ∀ p ∈ a.terms.zip (kb.schema.getD a.signature []),
    ∃ c, p.1 = .constant c ∧ Knows domains p.2 c

/-- Mentioning adds a constant. -/
theorem mentionTerm_eq_ok {domains domains' : Std.TreeMap String Domain compare}
    {p : Term × String} (h : mentionTerm domains p = .ok domains') :
    ∃ c, p.1 = .constant c ∧
      domains' = domains.insert p.2 ((domains.getD p.2 .empty).insert c) := by
  obtain ⟨_ | c, typeName⟩ := p
  · cases h
  · exact ⟨c, rfl, (Except.ok.inj h).symm⟩

/-- After a constant is mentioned it is known. -/
theorem knows_of_mentionTerm {domains domains' : Std.TreeMap String Domain compare}
    {p : Term × String} (h : mentionTerm domains p = .ok domains') :
    ∃ c, p.1 = .constant c ∧ Knows domains' p.2 c := by
  obtain ⟨c, hc, rfl⟩ := mentionTerm_eq_ok h
  refine ⟨c, hc, _, Std.TreeMap.getElem?_insert_self, ?_⟩
  rw [Domain.toList_insert]
  split <;> simp [*]

/-- What is known stays known. -/
theorem Knows.mentionTerm {domains domains' : Std.TreeMap String Domain compare}
    {p : Term × String} {typeName c : String} (hc : Knows domains typeName c)
    (h : mentionTerm domains p = .ok domains') : Knows domains' typeName c := by
  obtain ⟨c', -, rfl⟩ := mentionTerm_eq_ok h
  obtain ⟨domain, hdomain, hmem⟩ := hc
  rw [Knows, Std.TreeMap.getElem?_insert]
  split
  · rename_i heq
    obtain rfl := Std.LawfulEqCmp.eq_of_compare heq
    refine ⟨_, rfl, ?_⟩
    rw [Std.TreeMap.getD_eq_getD_getElem?, hdomain, Option.getD_some, Domain.toList_insert]
    split
    · exact hmem
    · exact List.mem_append_left _ hmem
  · exact ⟨domain, hdomain, hmem⟩

theorem Knows.mention {kb : KnowledgeBase α} {domains domains' : Std.TreeMap String Domain compare}
    {a : Atom} {typeName c : String} (hc : Knows domains typeName c)
    (h : mention kb domains a = .ok domains') : Knows domains' typeName c :=
  foldlM_induction (P := fun ds => Knows ds typeName c) h hc fun _ _ _ _ hstep hb =>
    hb.mentionTerm hstep

/-- After an atom is mentioned its arguments are known. -/
theorem knowsAtom_of_mention {kb : KnowledgeBase α}
    {domains domains' : Std.TreeMap String Domain compare} {a : Atom}
    (h : mention kb domains a = .ok domains') : KnowsAtom kb domains' a := by
  refine foldlM_forall (P := fun p ds => ∃ c, p.1 = .constant c ∧ Knows ds p.2 c) h
    (fun _ _ _ => knows_of_mentionTerm) ?_
  rintro _ _ _ p hstep ⟨c, hp, hc⟩
  exact ⟨c, hp, hc.mentionTerm hstep⟩

/-- The arguments of all facts and annotations are known in the end. -/
theorem knowsAtom_of_domains {domains : Std.TreeMap String Domain compare}
    (h : d.domains = .ok domains) : ∀ a ∈ d.groundAtoms, KnowsAtom d.kb domains a := by
  refine foldlM_forall (P := fun a ds => KnowsAtom d.kb ds a) h
    (fun _ _ _ => knowsAtom_of_mention) ?_
  intro _ _ _ a hstep ha p hp
  obtain ⟨c, hc, hknown⟩ := ha p hp
  exact ⟨c, hc, hknown.mention hstep⟩

/-! ### The stages of building -/

/-- What the stages of building before the facts are filed arrive at. -/
structure Passes (d : Declarations α) (domains : Std.TreeMap String Domain compare)
    (schema : List (Signature × List Domain)) (base : Base) : Prop where
  /-- All predicates are declared, and no assumption conflicts with another. -/
  checked : d.check = .ok ()
  /-- The arguments of facts and annotations are constants. -/
  mentioned : d.domains = .ok domains
  /-- The types of all arguments have domains. -/
  typed : typedSchema d.kb domains = .ok schema
  /-- The ground atoms can be numbered. -/
  numbered : Base.build schema d.query.contains = .ok base

namespace Passes

variable {domains : Std.TreeMap String Domain compare} {schema : List (Signature × List Domain)}
  {base : Base}

/-- The predicates of the schema are declared predicates, in their order. -/
theorem map_fst (h : d.Passes domains schema base) : schema.map Prod.fst = d.kb.schema.keys := by
  rw [← map_eq_of_forall₂ ((forall₂_typedSchema h.typed).imp fun p q hpq => hpq.1),
    Std.TreeMap.map_fst_toList_eq_keys]

theorem nodup (h : d.Passes domains schema base) : (schema.map Prod.fst).Nodup := by
  rw [h.map_fst]
  exact Std.TreeMap.nodup_keys

/-- **Every fact and every annotation is about a ground atom that has a number.** -/
theorem encode?_isSome (h : d.Passes domains schema base) {a : Atom} (ha : a ∈ d.groundAtoms) :
    (base.encode? a.signature (a.terms.map Term.name)).isSome := by
  have hdeclared := (check_eq_ok_iff.1 h.checked).groundAtoms a ha
  rw [Std.TreeMap.contains_eq_isSome_getElem?] at hdeclared
  obtain ⟨types, htypes⟩ := Option.isSome_iff_exists.1 hdeclared
  obtain ⟨⟨_, ds⟩, hmem, rfl, hds⟩ := exists_mem_of_forall₂ (forall₂_typedSchema h.typed).flip
    (Std.TreeMap.mem_toList_iff_getElem?_eq_some.2 htypes)
  refine (Base.encode?_isSome_iff h.numbered h.nodup).2 ⟨ds, hmem, ?_⟩
  rw [Model.inDomains_iff (forall₂_argumentDomains hds), List.forall₂_map_left_iff,
    List.forall₂_iff_zip]
  refine ⟨(d.kb.length_types _ types htypes).symm, fun {t typeName} hzip => ?_⟩
  have hknown := knowsAtom_of_domains h.mentioned a ha
  rw [KnowsAtom, Std.TreeMap.getD_eq_getD_getElem?, htypes, Option.getD_some] at hknown
  obtain ⟨c, rfl, hc⟩ := hknown (t, typeName) hzip
  exact hc

end Passes

end Declarations

end MarkovLogic
