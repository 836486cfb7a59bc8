/-
MarkovLogic/Proofs/Grounding/Closure.lean

What the rounds reach.

Two atoms belong together if a ground clause that evidence leaves undecided has
both.  The rounds follow these links from the atoms asked about, and when they
end by themselves the atoms of interest are the least set that the links do not
leave.

Design.  The ground clauses that evidence leaves undecided are listed with the
numbers of their clauses (`Model.survivors`), and so are those of a prepared
clause (`Template.survivors`); up to the order the lists are the same
(`survivors_perm`).  So a round discovers exactly what the ground clauses that
touch an atom of interest have besides (`mem_discovered_iff`), although it skips
clauses.  A round therefore keeps that the atoms of interest are in every closed
set (`Reached`), and a round that discovers nothing shows that they are a closed
set themselves.  Each other round uses up one of the unknown atoms that are not
asked about, which bounds the number of rounds (`truncated_expand`).

Main statement: `run_settles`.
-/
import MarkovLogic.Proofs.Evidence.Filing
import MarkovLogic.Proofs.Grounding.Meaning

namespace MarkovLogic

variable {α : Type}

/-! ### Unknown atoms -/

namespace Model

variable {m : Model α} {schema : List (Signature × List Domain)}

/-- The unknown atoms asked about are those with numbers in the range of the
query. -/
theorem Built.mem_unknownQueryAtoms_iff (h : m.Built schema) {id : Nat} :
    id ∈ m.unknownQueryAtoms ↔ m.IsUnknownAtom id ∧ m.base.isQueryAtom id = true := by
  rw [Herbrand.Base.isQueryAtom_iff h.base]
  constructor
  · intro hid
    obtain ⟨block, howner, hquery⟩ := h.owner?_of_mem_unknownQueryAtoms hid
    refine ⟨⟨Option.isSome_of_eq_some howner, ?_⟩, block, howner, hquery⟩
    obtain ⟨signature, -, hid⟩ := List.mem_flatMap.1 hid
    rcases he : m.evidenceOf? signature with _ | e
    · simp [he] at hid
    · rw [he] at hid
      obtain ⟨hcontains, hget⟩ := Evidence.mem_unknownIds_iff.1 hid
      rw [h.truth_eq (h.evidenceOf?_eq_some_iff.1 he).1 hcontains, hget]
  · rintro ⟨⟨-, htruth⟩, block, howner, hquery⟩
    obtain ⟨hblock, hcontains⟩ := (Herbrand.Base.owner?_eq_some_iff h.base).1 howner
    rw [← h.blocks, List.mem_map] at hblock
    obtain ⟨e, he, rfl⟩ := hblock
    rw [h.truth_eq he hcontains] at htruth
    refine List.mem_flatMap.2 ⟨e.block.signature, ?_, ?_⟩
    · exact Std.TreeSet.mem_toList.2 (Std.TreeSet.mem_iff_contains.2 hquery)
    · rw [h.evidenceOf?_eq_some_iff.2 ⟨he, rfl⟩]
      exact Evidence.mem_unknownIds_iff.2 ⟨hcontains, htruth⟩

/-- The unknown atoms that are not asked about. -/
def hiddenAtoms (m : Model α) : Finset Nat :=
  (Finset.Icc 1 m.base.atomCount).filter fun id =>
    m.truth id = .unknown ∧ m.base.isQueryAtom id = false

theorem Built.mem_hiddenAtoms_iff (h : m.Built schema) {id : Nat} :
    id ∈ m.hiddenAtoms ↔ m.IsUnknownAtom id ∧ m.base.isQueryAtom id = false := by
  rw [hiddenAtoms, Finset.mem_filter, Finset.mem_Icc, ← Herbrand.Base.owner?_isSome_iff h.base,
    IsUnknownAtom, and_assoc]

/-! ### Surviving ground clauses -/

variable [Scalar α]

/-- The ground theory with the number of the clause that each ground clause
comes from. -/
def survivors (m : Model α) : List (Nat × GroundClause α) :=
  (m.clauses.toList.zipIdx.filter fun p => !(p.1.weight == 0)).flatMap fun p =>
    (m.clauseTheory p.1).map (Prod.mk p.2)

theorem map_snd_survivors (m : Model α) : m.survivors.map Prod.snd = m.groundTheory := by
  have hclauses : m.clauses.toList = m.clauses.toList.zipIdx.map Prod.fst :=
    (List.zipIdx_map_fst ..).symm
  rw [groundTheory, hclauses, List.filter_map, List.flatMap_map, survivors, List.map_flatMap]
  refine List.flatMap_congr fun p _ => ?_
  rw [List.map_map]
  exact List.map_id _

/-- A set of atoms is closed if it has the unknown atoms asked about, and with an
atom of a ground clause all its atoms. -/
structure IsClosed (m : Model α) (S : Set Nat) : Prop where
  query : ∀ id, m.IsUnknownAtom id → m.base.isQueryAtom id = true → id ∈ S
  link : ∀ p ∈ m.survivors, ∀ x ∈ p.2.literals, x.natAbs ∈ S → ∀ y ∈ p.2.literals, y.natAbs ∈ S

end Model

namespace Grounding

variable [Scalar α] {m : Model α} {schema : List (Signature × List Domain)}
  {ts : List (Template α)} {settings : Settings}

/-- What a prepared clause leaves, with the number of the clause. -/
def Template.survivors (t : Template α) : List (Nat × GroundClause α) :=
  if t.weight == 0 then []
  else ((Odometer.combinations t.radices).filterMap t.remainder?).map fun literals =>
    (t.clause, ⟨t.weight, literals⟩)

/-- **The prepared clauses leave what survives of the clauses**, up to the
order. -/
theorem survivors_perm (h : m.Built schema) (hsize : m.base.atomCount ≤ Herbrand.Block.maxId)
    (hts : templates m = .ok ts) : m.survivors.Perm (ts.flatMap Template.survivors) := by
  have hall := forall₂_templates hts
  rw [Model.survivors]
  clear hts
  generalize m.clauses.toList.zipIdx = ps at hall
  induction hall with
  | nil => exact .refl _
  | @cons p t ps ts hp _ ih =>
    obtain ⟨hclause, hweight, -⟩ := exists_resolved hp.2
    rw [List.flatMap_cons, Template.survivors, hweight]
    rcases hzero : p.1.weight == 0 with _ | _
    · rw [List.filter_cons_of_pos (by rw [hzero]; rfl), List.flatMap_cons,
        if_neg Bool.false_ne_true]
      refine List.Perm.append ?_ ih
      have hperm := (remainders_perm h hsize hp.2).map fun literals =>
        (p.2, GroundClause.mk p.1.weight literals)
      rw [hclause, Model.clauseTheory, ← List.map_filterMap, List.map_map]
      exact hperm
    · -- clauses without weight are left out of both lists
      rw [List.filter_cons_of_neg (by rw [hzero]; exact Bool.false_ne_true), if_pos rfl]
      exact ih

/-- The entries of a clause are those of what it leaves and touches an atom of
interest. -/
theorem entriesUnder_eq_flatMap (options : Options) (interest : Nat → Bool) (t : Template α) :
    entriesUnder options interest t =
      (t.survivors.filter fun p => touches interest p.2.literals).flatMap fun p =>
        entriesOf options p.1 p.2.weight p.2.literals := by
  rw [entriesUnder, Template.survivors]
  split
  · rfl
  · rw [List.filter_map, List.flatMap_map]
    rfl

/-- Grounding a clause brings in the atoms of what it leaves and touches an atom
of interest. -/
theorem mem_atoms_harvest_iff {index : Nat} {c : Clause α} {t : Template α}
    (hmake : Template.make m index c = .ok t) (options : Options) (interest : Nat → Bool)
    (id : Nat) :
    id ∈ (harvest t options interest).atoms ↔
      ∃ p ∈ t.survivors, touches interest p.2.literals = true ∧
        id ∈ p.2.literals.map Int.natAbs := by
  rw [mem_atoms_harvest hmake, Template.survivors]
  rcases t.weight == 0 with _ | _ <;> simp

/-! ### One round -/

/-- **A round discovers the atoms that are linked to an atom of interest**, also
those in clauses that it skips. -/
theorem mem_discovered_iff (h : m.Built schema) (hsize : m.base.atomCount ≤ Herbrand.Block.maxId)
    (hts : templates m = .ok ts) {interest : Std.HashSet Nat} {signatures : SignatureSet}
    (hc : Covered m interest signatures) (id : Nat) :
    id ∈ (Round.run settings (ts.filter (isRelevant m signatures)) interest).discovered ↔
      id ∉ interest ∧ ∃ p ∈ m.survivors, touches interest.contains p.2.literals = true ∧
        id ∈ p.2.literals.map Int.natAbs := by
  rw [mem_discovered_run]
  refine and_congr_right fun _ => ?_
  simp only [(survivors_perm h hsize hts).mem_iff, List.mem_flatMap]
  constructor
  · -- what a clause of the round brings in
    rintro ⟨t, ht, hid⟩
    have ht := (List.mem_filter.1 ht).1
    obtain ⟨index, c, -, hmake⟩ := exists_make_of_mem hts ht
    obtain ⟨p, hp, htouch, hid⟩ := (mem_atoms_harvest_iff hmake _ _ _).1 hid
    exact ⟨p, ⟨t, ht, hp⟩, htouch, hid⟩
  · -- a clause with something to bring in is not skipped
    rintro ⟨p, ⟨t, ht, hp⟩, htouch, hid⟩
    obtain ⟨index, c, hindex, hmake⟩ := exists_make_of_mem hts ht
    refine ⟨t, List.mem_filter.2 ⟨ht, ?_⟩, (mem_atoms_harvest_iff hmake _ _ _).2
      ⟨p, hp, htouch, hid⟩⟩
    rw [Template.survivors] at hp
    split at hp
    · cases hp
    · obtain ⟨rest, hrest, rfl⟩ := List.mem_map.1 hp
      exact isRelevant_of_touches h hsize hindex hmake hc hrest htouch

/-- The atoms of interest are in every closed set, those asked about are among
them, and their predicates are known. -/
structure Reached (m : Model α) (interest : Std.HashSet Nat) (signatures : SignatureSet) :
    Prop where
  covered : Covered m interest signatures
  query : ∀ id ∈ m.unknownQueryAtoms, id ∈ interest
  sound : ∀ S, m.IsClosed S → ∀ id ∈ interest, id ∈ S

theorem reached_query (h : m.Built schema) :
    Reached m (Std.HashSet.ofList m.unknownQueryAtoms) m.query where
  covered := covered_query h
  query id hid := by rwa [Std.HashSet.mem_ofList, List.contains_iff_mem]
  sound S hS id hid := by
    rw [Std.HashSet.mem_ofList, List.contains_iff_mem] at hid
    obtain ⟨hunknown, hquery⟩ := h.mem_unknownQueryAtoms_iff.1 hid
    exact hS.query id hunknown hquery

/-- A round stays within the closed sets. -/
theorem Reached.round (h : m.Built schema) (hsize : m.base.atomCount ≤ Herbrand.Block.maxId)
    (hts : templates m = .ok ts) (settings : Settings) {interest : Std.HashSet Nat}
    {signatures : SignatureSet} (hr : Reached m interest signatures) :
    Reached m (interest.insertMany (Round.run settings (ts.filter (isRelevant m signatures))
        interest).discovered.toList)
      (signatures.insertMany (signaturesOf m (Round.run settings
        (ts.filter (isRelevant m signatures)) interest).discovered.toList)) where
  covered := hr.covered.insertMany _
  query id hid := Std.HashSet.mem_insertMany_of_mem (hr.query id hid)
  sound S hS id hid := by
    rw [Std.HashSet.mem_insertMany_list, List.contains_iff_mem, Std.HashSet.mem_toList,
      mem_discovered_iff h hsize hts hr.covered] at hid
    rcases hid with hid | ⟨-, p, hp, htouch, hid⟩
    · exact hr.sound S hS id hid
    · -- a discovered atom is linked to one that is in the closed set already
      obtain ⟨x, hx, hinterest⟩ := List.any_eq_true.1 htouch
      obtain ⟨y, hy, rfl⟩ := List.mem_map.1 hid
      exact hS.link p hp x hx (hr.sound S hS _ hinterest) y hy

/-- If a round discovers nothing, the atoms of interest are a closed set. -/
theorem Reached.isClosed (h : m.Built schema) (hsize : m.base.atomCount ≤ Herbrand.Block.maxId)
    (hts : templates m = .ok ts) {interest : Std.HashSet Nat} {signatures : SignatureSet}
    (hr : Reached m interest signatures)
    (hempty : (Round.run settings (ts.filter (isRelevant m signatures))
      interest).discovered.isEmpty = true) :
    m.IsClosed {id | id ∈ interest} where
  query id hunknown hquery := hr.query id (h.mem_unknownQueryAtoms_iff.2 ⟨hunknown, hquery⟩)
  link p hp x hx hinterest y hy := by
    by_contra hnew
    refine Std.HashSet.isEmpty_iff_forall_not_mem.1 hempty y.natAbs ?_
    rw [mem_discovered_iff h hsize hts hr.covered]
    exact ⟨hnew, p, hp, List.any_eq_true.2 ⟨x, hx, hinterest⟩, List.mem_map_of_mem hy⟩

/-! ### The number of rounds -/

/-- The unknown atoms that are neither asked about nor of interest. -/
def missing (m : Model α) (interest : Std.HashSet Nat) : Finset Nat :=
  m.hiddenAtoms.filter fun id => id ∉ interest

omit [Scalar α] in
theorem mem_missing_iff {interest : Std.HashSet Nat} {id : Nat} :
    id ∈ missing m interest ↔ id ∈ m.hiddenAtoms ∧ id ∉ interest :=
  Finset.mem_filter

omit [Scalar α] in
/-- When a missing atom becomes of interest, fewer are missing. -/
theorem missing_insertMany_ssubset {interest : Std.HashSet Nat} {ids : List Nat} {id : Nat}
    (hid : id ∈ ids) (hmissing : id ∈ missing m interest) :
    missing m (interest.insertMany ids) ⊂ missing m interest := by
  refine Finset.ssubset_iff_subset_ne.2 ⟨fun k hk => ?_, fun heq => ?_⟩
  · obtain ⟨hhidden, hnew⟩ := mem_missing_iff.1 hk
    exact mem_missing_iff.2 ⟨hhidden, fun hmem => hnew (Std.HashSet.mem_insertMany_of_mem hmem)⟩
  · rw [← heq, mem_missing_iff, Std.HashSet.mem_insertMany_list, List.contains_iff_mem] at hmissing
    exact hmissing.2 (.inr hid)

/-- What a round discovers was missing. -/
theorem Reached.mem_missing (h : m.Built schema) (hsize : m.base.atomCount ≤ Herbrand.Block.maxId)
    (hts : templates m = .ok ts) {interest : Std.HashSet Nat} {signatures : SignatureSet}
    (hr : Reached m interest signatures) {id : Nat}
    (hid : id ∈ (Round.run settings (ts.filter (isRelevant m signatures))
      interest).discovered) : id ∈ missing m interest := by
  obtain ⟨hnew, p, hp, -, hid⟩ := (mem_discovered_iff h hsize hts hr.covered id).1 hid
  obtain ⟨x, hx, rfl⟩ := List.mem_map.1 hid
  have hg : p.2 ∈ m.groundTheory := by
    rw [← m.map_snd_survivors]
    exact List.mem_map_of_mem hp
  have hunknown := isUnknownAtom_of_mem h hg hx
  refine mem_missing_iff.2 ⟨h.mem_hiddenAtoms_iff.2 ⟨hunknown, ?_⟩, hnew⟩
  by_contra hquery
  exact hnew (hr.query _ (h.mem_unknownQueryAtoms_iff.2 ⟨hunknown, by simpa using hquery⟩))

/-- **The rounds end by themselves if as many may follow as there are atoms
missing**: each round that goes on uses up one. -/
theorem truncated_expand (h : m.Built schema) (hsize : m.base.atomCount ≤ Herbrand.Block.maxId)
    (hts : templates m = .ok ts) (left rounds : Nat) {interest : Std.HashSet Nat}
    {signatures : SignatureSet} (hr : Reached m interest signatures)
    (hleft : (missing m interest).card ≤ left) :
    (expand m settings ts left rounds interest signatures).truncated = false := by
  induction left generalizing rounds interest signatures with
  | zero =>
    rw [expand]
    dsimp only
    split
    · rfl
    · -- no atom is missing, so none can be discovered
      rename_i hgrows
      obtain ⟨id, hid⟩ :=
        Std.HashSet.isEmpty_eq_false_iff_exists_mem.1 (Bool.eq_false_iff.2 hgrows)
      have hmissing := hr.mem_missing h hsize hts hid
      rw [Finset.card_eq_zero.1 (Nat.le_zero.1 hleft)] at hmissing
      exact absurd hmissing (Finset.notMem_empty id)
  | succ left ih =>
    rw [expand]
    dsimp only
    split
    · rfl
    · rename_i hgrows
      obtain ⟨id, hid⟩ :=
        Std.HashSet.isEmpty_eq_false_iff_exists_mem.1 (Bool.eq_false_iff.2 hgrows)
      have hfewer := Finset.card_lt_card (missing_insertMany_ssubset
        (Std.HashSet.mem_toList.2 hid) (hr.mem_missing h hsize hts hid))
      exact ih _ (hr.round h hsize hts settings) (by omega)

/-! ### The end of the rounds -/

/-- What the rounds have reached when they end by themselves. -/
structure IsSettled (m : Model α) (settings : Settings) (e : Expansion α) : Prop where
  /-- The atoms of interest are the least closed set. -/
  isLeast : IsLeast {S | m.IsClosed S} {id | id ∈ e.interest}
  /-- The last round grounds some of the clauses under the final interest.  What
  it registers are the entries of all ground clauses that touch an atom of
  interest, each taken once; a ground clause that is not among them has no atom
  of interest. -/
  registered : ∃ (ts relevant : List (Template α)) (kept : List (Nat × GroundClause α)),
    templates m = .ok ts ∧ relevant.Sublist ts ∧
    e.register = (Round.run settings relevant e.interest).register ∧
    (Round.run settings relevant e.interest).register =
      (Register.empty settings.key settings.partitions).insertAll
        (kept.flatMap fun p => entriesOf settings.options p.1 p.2.weight p.2.literals) ∧
    kept.Perm (m.survivors.filter fun p => touches e.interest.contains p.2.literals) ∧
    ∀ p ∈ m.survivors, p ∉ kept → ∀ x ∈ p.2.literals, x.natAbs ∉ e.interest

/-- The rounds settle, unless they are cut short. -/
theorem isSettled_expand (h : m.Built schema) (hsize : m.base.atomCount ≤ Herbrand.Block.maxId)
    (hts : templates m = .ok ts) {left rounds : Nat} {e : Expansion α}
    (he : expand m settings ts left rounds (Std.HashSet.ofList m.unknownQueryAtoms) m.query = e)
    (hfull : e.truncated = false) : IsSettled m settings e := by
  have hround := fun (interest : Std.HashSet Nat) (signatures : SignatureSet)
    (hr : Reached m interest signatures) => hr.round h hsize hts settings
  obtain ⟨signatures, hr, hregister, hempty⟩ := expand_induction hround left rounds
    (reached_query h) he hfull
  refine ⟨⟨hr.isClosed h hsize hts hempty, fun S hS id hid => hr.sound S hS id hid⟩, ts,
    ts.filter (isRelevant m signatures), (ts.flatMap Template.survivors).filter fun p =>
      touches e.interest.contains p.2.literals, hts, List.filter_sublist, hregister, ?_, ?_, ?_⟩
  · -- the clauses that were skipped have no entries under the final interest
    rw [register_run, entries_relevant h hsize hts settings.options hr.covered,
      List.filter_flatMap, List.flatMap_assoc]
    exact congrArg _ (List.flatMap_congr fun t _ => entriesUnder_eq_flatMap _ _ t)
  · exact (survivors_perm h hsize hts).symm.filter _
  · intro p hp hleft x hx hinterest
    refine hleft (List.mem_filter.2 ⟨(survivors_perm h hsize hts).mem_iff.1 hp, ?_⟩)
    exact List.any_eq_true.2 ⟨x, hx, hinterest⟩

/-- **The rounds compute the least closed set of atoms and lose no ground
clause.**  Take a model of at most `2 ^ 31 - 1` ground atoms.  If the rounds are
not cut short, the atoms of interest are the least closed set, and the last round
has registered every ground clause with an atom of interest exactly once,
whatever clauses it skipped.  And the rounds are not cut short if there may be
more of them than there are unknown atoms that are not asked about. -/
theorem run_settles (d : Declarations α) (m : Model α) (hbuild : d.build = .ok m)
    (hsize : m.base.atomCount ≤ Herbrand.Block.maxId) (settings : Settings) (net : Network α)
    (summary : Summary) (hrun : run m settings = .ok (net, summary)) :
    ∃ e, expansion m settings = .ok e ∧
      net = Network.assemble e.register.cliques m.unknownQueryAtoms m.base.queryRange ∧
      summary = ⟨e.rounds, e.counts, e.interest.size, e.truncated⟩ ∧
      (summary.truncated = false → IsSettled m settings e) ∧
      (m.hiddenAtoms.card < settings.maxRounds → summary.truncated = false) := by
  obtain ⟨schema, h⟩ := Declarations.built_of_build hbuild
  obtain ⟨ts, e, hts, hexpansion, he, hnet, rfl⟩ := run_eq_ok hrun
  refine ⟨e, hexpansion, hnet, rfl, isSettled_expand h hsize hts he, fun hrounds => ?_⟩
  have hcard : (missing m (Std.HashSet.ofList m.unknownQueryAtoms)).card ≤ m.hiddenAtoms.card :=
    Finset.card_filter_le _ _
  rw [← he]
  exact truncated_expand h hsize hts _ _ (reached_query h) (by omega)

/-! ### A chain of hidden atoms -/

/-- Of three propositions the first or the second holds, and if the second does,
so does the third. -/
def chainKb : KnowledgeBase (Extended ℚ) :=
  { ((KnowledgeBase.empty : KnowledgeBase (Extended ℚ)).declarePredicate "A" []
      |>.declarePredicate "B" []).declarePredicate "C" [] with
    computed := .empty
    clauses := #[⟨.finite 2, [⟨true, "A", []⟩, ⟨true, "B", []⟩]⟩,
      ⟨.posInf, [⟨false, "B", []⟩, ⟨true, "C", []⟩]⟩] }

/-- Only the first is asked about, and the others are not known. -/
def chainDeclarations : Declarations (Extended ℚ) :=
  { Declarations.ofKnowledgeBase chainKb with
    query := Std.TreeSet.ofList [⟨"A", 0⟩] compare
    openWorld := Std.TreeSet.ofList [⟨"B", 0⟩, ⟨"C", 0⟩] compare }

def chainModel : Model (Extended ℚ) :=
  { kb := chainKb, domains := ∅
    base := ⟨[⟨⟨"A", 0⟩, 1, []⟩, ⟨⟨"B", 0⟩, 2, []⟩, ⟨⟨"C", 0⟩, 3, []⟩], 4, some (1, 1)⟩
    evidence := [openAtom "A" 1, openAtom "B" 2, openAtom "C" 3]
    query := Std.TreeSet.ofList [⟨"A", 0⟩] compare, annotation := none }

/-- One round for each atom and one more. -/
def chainSettings : Settings :=
  ⟨⟨false, true⟩, 1, 4, fun _ => 0⟩

theorem build_chain : chainDeclarations.build = .ok chainModel := by
  rw [Declarations.build, Declarations.check_of_computed_empty (d := chainDeclarations) rfl rfl rfl]
  rfl

def chainTemplates : List (Template (Extended ℚ)) :=
  [⟨0, .finite 2, [], [⟨true, .lookUp (openAtom "A" 1) [], 0⟩,
      ⟨true, .lookUp (openAtom "B" 2) [], 0⟩]⟩,
    ⟨1, .posInf, [], [⟨false, .lookUp (openAtom "B" 2) [], 0⟩,
      ⟨true, .lookUp (openAtom "C" 3) [], 0⟩]⟩]

theorem templates_chain : templates chainModel = .ok chainTemplates := by
  have hfirst : [(⟨true, "A", []⟩ : Literal), ⟨true, "B", []⟩].mapM (resolve chainModel) =
      .ok [⟨⟨true, "A", []⟩, .stored (openAtom "A" 1)⟩,
        ⟨⟨true, "B", []⟩, .stored (openAtom "B" 2)⟩] := rfl
  have hsecond : [(⟨false, "B", []⟩ : Literal), ⟨true, "C", []⟩].mapM (resolve chainModel) =
      .ok [⟨⟨false, "B", []⟩, .stored (openAtom "B" 2)⟩,
        ⟨⟨true, "C", []⟩, .stored (openAtom "C" 3)⟩] := rfl
  refine mapM_eq_ok_iff.2 (.cons ?_ (.cons ?_ .nil))
  · exact Template.make_of_pairwise rfl hfirst (List.pairwise_pair.2 rfl) rfl rfl
      (List.pairwise_pair.2 rfl)
  · exact Template.make_of_pairwise rfl hsecond (List.pairwise_pair.2 rfl) rfl rfl
      (List.pairwise_pair.2 rfl)

/-- The chain can be grounded, however it is grounded. -/
theorem exists_run_chain (settings : Settings) :
    ∃ net summary, run chainModel settings = .ok (net, summary) := by
  rw [run, templates_chain]
  exact ⟨_, _, rfl⟩

/-- The rounds follow the chain to its end. -/
theorem run_settles_chain :
    ∃ net summary e, run chainModel chainSettings = .ok (net, summary) ∧
      expansion chainModel chainSettings = .ok e ∧ summary.truncated = false ∧
      IsSettled chainModel chainSettings e := by
  obtain ⟨net, summary, hrun⟩ := exists_run_chain chainSettings
  obtain ⟨e, he, -, -, hsettled, hrounds⟩ := run_settles chainDeclarations chainModel build_chain
    (by decide) chainSettings net summary hrun
  have hcard : chainModel.hiddenAtoms.card ≤ 3 := Finset.card_filter_le _ _
  have hfull := hrounds (Nat.lt_succ_of_le hcard)
  exact ⟨net, summary, e, hrun, he, hfull, hsettled hfull⟩

end Grounding

end MarkovLogic
