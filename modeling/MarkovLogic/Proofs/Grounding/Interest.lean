/-
MarkovLogic/Proofs/Grounding/Interest.lean

The rounds.

Grounding a clause yields the entries of the ground clauses that touch an atom
of interest, in the order of counting (`entries_harvest`), and the atoms of
these (`mem_atoms_harvest`).  A round grounds only clauses that mention a
predicate with atoms of interest.  The other clauses would yield nothing, as
long as the predicates of all atoms of interest are known (`Covered`), and the
rounds see to that.  So a round finds what all clauses have
(`entries_relevant`), and when the rounds end by themselves, the register holds
what all clauses yield under the final interest (`register_expand`).

What the rounds keep is shown once (`expand_induction`).
-/
import MarkovLogic.Grounding.Rounds
import MarkovLogic.Proofs.Grounding.Correspondence
import MarkovLogic.Proofs.Grounding.Pruning

namespace MarkovLogic.Grounding

variable {α : Type} [Scalar α]

/-! ### Entries of one clause -/

/-- The entries that a clause yields. -/
def entriesUnder (options : Options) (interest : Nat → Bool) (t : Template α) : List (Entry α) :=
  if t.weight == 0 then []
  else (((Odometer.combinations t.radices).filterMap t.remainder?).filter
    (touches interest)).flatMap (entriesOf options t.clause t.weight)

/-- What taking in a substitution does to entries and atoms: they grow by those of what
it leaves, if that touches an atom of interest, and stay as they are otherwise. -/
theorem visit_cases (t : Template α) (options : Options) (interest : Nat → Bool) (h : Harvest α)
    (ds : List Nat) :
    (∃ rest, t.remainder? ds = some rest ∧ touches interest rest = true ∧
      (h.visit t options interest ds).entries =
        h.entries ++ (entriesOf options t.clause t.weight rest).toArray ∧
      (h.visit t options interest ds).atoms = h.atoms.insertMany (rest.map Int.natAbs)) ∨
    ((∀ rest, t.remainder? ds = some rest → touches interest rest = false) ∧
      (h.visit t options interest ds).entries = h.entries ∧
      (h.visit t options interest ds).atoms = h.atoms) := by
  rw [Harvest.visit, Template.remainder?]
  rcases judge ds t.probes [] with - | - | - | literals
  · exact .inr ⟨fun rest hrest => (by cases hrest), rfl, rfl⟩
  · exact .inr ⟨fun rest hrest => (by cases hrest), rfl, rfl⟩
  · exact .inr ⟨fun rest hrest => (by cases hrest), rfl, rfl⟩
  · simp only [Harvest.takePending, Verdict.remainder?]
    by_cases htaut : Harvest.isTautology (literalSet literals) = true
    · simp [htaut]
    · have hany : ((literalSet literals).any fun l => interest l.natAbs) =
          touches interest (literalSet literals) := rfl
      cases htouch : touches interest (literalSet literals) <;> simp [htaut, hany, htouch]

/-- Taking in a substitution adds the entries of what it leaves, if that touches
an atom of interest. -/
theorem entries_visit (t : Template α) (options : Options) (interest : Nat → Bool) (h : Harvest α)
    (ds : List Nat) :
    (h.visit t options interest ds).entries.toList = h.entries.toList ++
      ((t.remainder? ds).toList.filter (touches interest)).flatMap
        (entriesOf options t.clause t.weight) := by
  rcases visit_cases t options interest h ds with
    ⟨rest, hrest, htouch, hentries, -⟩ | ⟨hnone, hentries, -⟩
  · rw [hentries, hrest, Array.toList_append]
    simp [htouch]
  · rw [hentries]
    rcases hrest : t.remainder? ds with _ | rest
    · simp
    · simp [hnone rest hrest]

theorem entries_foldl_visit (t : Template α) (options : Options) (interest : Nat → Bool)
    (h : Harvest α) (dss : List (List Nat)) :
    (dss.foldl (Harvest.visit t options interest) h).entries.toList = h.entries.toList ++
      ((dss.filterMap t.remainder?).filter (touches interest)).flatMap
        (entriesOf options t.clause t.weight) := by
  induction dss generalizing h with
  | nil => simp
  | cons ds dss ih =>
    rw [List.foldl_cons, ih, entries_visit, List.append_assoc]
    congr 1
    rcases hr : t.remainder? ds with _ | literals
    · rw [List.filterMap_cons_none (f := t.remainder?) hr]
      rfl
    · rw [List.filterMap_cons_some (f := t.remainder?) hr, ← List.flatMap_append,
        ← List.filter_append]
      rfl

/-- Grounding a clause yields the entries of what is left of it. -/
theorem entries_harvest {m : Model α} {index : Nat} {c : Clause α} {t : Template α}
    (hmake : Template.make m index c = .ok t) (options : Options) (interest : Nat → Bool) :
    (harvest t options interest).entries.toList = entriesUnder options interest t := by
  rw [(harvest_sameYield_foldl (askedByPivot_of_make hmake) options interest).entries_eq,
    entriesUnder]
  split
  · rfl
  · rw [entries_foldl_visit]
    rfl

/-! ### Atoms of one clause -/

/-- Taking in a substitution adds the atoms of what it leaves, if that touches an
atom of interest. -/
theorem mem_atoms_visit (t : Template α) (options : Options) (interest : Nat → Bool)
    (h : Harvest α) (ds : List Nat) (id : Nat) :
    id ∈ (h.visit t options interest ds).atoms ↔ id ∈ h.atoms ∨
      ∃ rest, t.remainder? ds = some rest ∧ touches interest rest = true ∧
        id ∈ rest.map Int.natAbs := by
  rcases visit_cases t options interest h ds with
    ⟨rest, hrest, htouch, -, hatoms⟩ | ⟨hnone, -, hatoms⟩
  · rw [hatoms, hrest, Std.HashSet.mem_insertMany_list, List.contains_iff_mem]
    simp [htouch]
  · rw [hatoms]
    refine (or_iff_left ?_).symm
    rintro ⟨rest, hrest, htouch, -⟩
    rw [hnone rest hrest] at htouch
    cases htouch

theorem mem_atoms_foldl_visit (t : Template α) (options : Options) (interest : Nat → Bool)
    (h : Harvest α) (dss : List (List Nat)) (id : Nat) :
    id ∈ (dss.foldl (Harvest.visit t options interest) h).atoms ↔ id ∈ h.atoms ∨
      ∃ rest ∈ dss.filterMap t.remainder?, touches interest rest = true ∧
        id ∈ rest.map Int.natAbs := by
  induction dss generalizing h with
  | nil => simp
  | cons ds dss ih =>
    rw [List.foldl_cons, ih, mem_atoms_visit, or_assoc]
    refine or_congr_right ?_
    simp only [List.mem_filterMap, List.mem_cons, or_and_right, exists_or, exists_eq_left]

/-- Grounding a clause brings in the atoms of what is left of it and touches an
atom of interest. -/
theorem mem_atoms_harvest {m : Model α} {index : Nat} {c : Clause α} {t : Template α}
    (hmake : Template.make m index c = .ok t) (options : Options) (interest : Nat → Bool)
    (id : Nat) :
    id ∈ (harvest t options interest).atoms ↔ (t.weight == 0) = false ∧
      ∃ rest ∈ (Odometer.combinations t.radices).filterMap t.remainder?,
        touches interest rest = true ∧ id ∈ rest.map Int.natAbs := by
  rw [(harvest_sameYield_foldl (askedByPivot_of_make hmake) options interest).atoms_eq]
  rcases hzero : t.weight == 0 with _ | _
  · rw [if_neg Bool.false_ne_true, mem_atoms_foldl_visit]
    simp [Harvest.empty]
  · simp [Harvest.empty]

/-! ### Rounds -/

theorem insertAll_append (r : Register α) (es es' : List (Entry α)) :
    r.insertAll (es ++ es') = (r.insertAll es).insertAll es' :=
  List.foldl_append

/-- A round registers the entries of its clauses one after the other. -/
theorem register_run (settings : Settings) (ts : List (Template α)) (interest : Std.HashSet Nat) :
    (Round.run settings ts interest).register =
      (Register.empty settings.key settings.partitions).insertAll
        (ts.flatMap fun t => (harvest t settings.options interest.contains).entries.toList) := by
  have hfold : ∀ r : Round α,
      (ts.foldl (fun r t => r.add interest (harvest t settings.options interest.contains))
        r).register = r.register.insertAll
          (ts.flatMap fun t => (harvest t settings.options interest.contains).entries.toList) := by
    induction ts with
    | nil => exact fun r => rfl
    | cons t ts ih =>
      intro r
      rw [List.foldl_cons, ih, List.flatMap_cons, insertAll_append]
      rfl
  exact hfold _

/-- A round discovers the atoms of its clauses that were not of interest. -/
theorem mem_discovered_run (settings : Settings) (ts : List (Template α))
    (interest : Std.HashSet Nat) (id : Nat) :
    id ∈ (Round.run settings ts interest).discovered ↔
      id ∉ interest ∧ ∃ t ∈ ts, id ∈ (harvest t settings.options interest.contains).atoms := by
  have hfold : ∀ r : Round α,
      id ∈ (ts.foldl (fun r t => r.add interest (harvest t settings.options interest.contains))
        r).discovered ↔ id ∈ r.discovered ∨ (id ∉ interest ∧
          ∃ t ∈ ts, id ∈ (harvest t settings.options interest.contains).atoms) := by
    induction ts with
    | nil => simp
    | cons t ts ih =>
      intro r
      have hadd : id ∈ (r.add interest (harvest t settings.options interest.contains)).discovered ↔
          id ∈ r.discovered ∨
            (id ∉ interest ∧ id ∈ (harvest t settings.options interest.contains).atoms) := by
        simp [Round.add, Std.HashSet.mem_insertMany_list, and_comm]
      rw [List.foldl_cons, ih, hadd, or_assoc, ← and_or_left]
      simp
  refine (hfold _).trans ?_
  simp

/-- A round that meets atoms of interest only discovers none. -/
theorem isEmpty_discovered (settings : Settings) {ts : List (Template α)}
    {interest : Std.HashSet Nat}
    (h : ∀ t ∈ ts, ∀ id ∈ (harvest t settings.options interest.contains).atoms, id ∈ interest) :
    (Round.run settings ts interest).discovered.isEmpty = true := by
  rw [Std.HashSet.isEmpty_iff_forall_not_mem]
  intro id hid
  obtain ⟨hnew, t, ht, hatom⟩ := (mem_discovered_run settings ts interest id).1 hid
  exact hnew (h t ht id hatom)

/-- The predicates of all atoms of interest are known. -/
def Covered (m : Model α) (interest : Std.HashSet Nat) (signatures : SignatureSet) : Prop :=
  ∀ id, interest.contains id = true → ∀ block, m.base.owner? id = some block →
    signatures.contains block.signature = true

omit [Scalar α] in
/-- At first the atoms of interest are those asked about. -/
theorem covered_query {m : Model α} {schema : List (Signature × List Domain)} (h : m.Built schema) :
    Covered m (Std.HashSet.ofList m.unknownQueryAtoms) m.query := by
  intro id hid block howner
  rw [Std.HashSet.contains_ofList, List.contains_iff_mem] at hid
  obtain ⟨block', howner', hquery⟩ := h.owner?_of_mem_unknownQueryAtoms hid
  rw [howner] at howner'
  cases howner'
  exact hquery

omit [Scalar α] in
/-- When atoms become of interest, their predicates become known. -/
theorem Covered.insertMany {m : Model α} {interest : Std.HashSet Nat} {signatures : SignatureSet}
    (h : Covered m interest signatures) (ids : List Nat) :
    Covered m (interest.insertMany ids) (signatures.insertMany (signaturesOf m ids)) := by
  intro id hid block howner
  rw [Std.TreeSet.contains_insertMany_list, Bool.or_eq_true]
  rw [Std.HashSet.contains_insertMany_list, Bool.or_eq_true, List.contains_iff_mem] at hid
  rcases hid with hid | hid
  · exact .inl (h id hid block howner)
  · refine .inr (List.contains_iff_mem.2 (List.mem_filterMap.2 ⟨id, hid, ?_⟩))
    rw [howner]
    rfl

/-- **What each round keeps holds when the rounds end by themselves**, and the
last round is one under the final interest that discovers nothing.  The induction
is on the number of rounds that may follow. -/
theorem expand_induction {m : Model α} {settings : Settings} {ts : List (Template α)}
    {P : Std.HashSet Nat → SignatureSet → Prop}
    (hround : ∀ interest signatures, P interest signatures →
      P (interest.insertMany (Round.run settings (ts.filter (isRelevant m signatures))
          interest).discovered.toList)
        (signatures.insertMany (signaturesOf m (Round.run settings
          (ts.filter (isRelevant m signatures)) interest).discovered.toList)))
    (left rounds : Nat) {interest : Std.HashSet Nat} {signatures : SignatureSet}
    (hP : P interest signatures) {e : Expansion α}
    (he : expand m settings ts left rounds interest signatures = e)
    (hfull : e.truncated = false) :
    ∃ signatures', P e.interest signatures' ∧
      e.register =
        (Round.run settings (ts.filter (isRelevant m signatures')) e.interest).register ∧
      (Round.run settings (ts.filter (isRelevant m signatures'))
        e.interest).discovered.isEmpty = true := by
  induction left generalizing rounds interest signatures with
  | zero =>
    rw [expand] at he
    dsimp only at he
    split at he
    · rename_i hempty
      subst he
      exact ⟨signatures, hP, rfl, hempty⟩
    · subst he
      cases hfull
  | succ left ih =>
    rw [expand] at he
    dsimp only at he
    split at he
    · rename_i hempty
      subst he
      exact ⟨signatures, hP, rfl, hempty⟩
    · exact ih _ (hround _ _ hP) he

/-- Whether or not the rounds end by themselves, the register is that of one
round. -/
theorem exists_register_expand (m : Model α) (settings : Settings) (ts : List (Template α))
    (left rounds : Nat) (interest : Std.HashSet Nat) (signatures : SignatureSet) :
    ∃ (last : Std.HashSet Nat) (signatures' : SignatureSet),
      (expand m settings ts left rounds interest signatures).register =
        (Round.run settings (ts.filter (isRelevant m signatures')) last).register := by
  induction left generalizing rounds interest signatures with
  | zero =>
    refine ⟨interest, signatures, ?_⟩
    rw [expand]
    dsimp only
    split <;> rfl
  | succ left ih =>
    rw [expand]
    dsimp only
    split
    · exact ⟨interest, signatures, rfl⟩
    · exact ih _ _ _

/-! ### Clauses that are left out -/

/-- A clause that leaves something with an atom of interest mentions a predicate
with atoms of interest. -/
theorem isRelevant_of_touches {m : Model α} {schema : List (Signature × List Domain)}
    (h : m.Built schema) (hsize : m.base.atomCount ≤ Herbrand.Block.maxId) {index : Nat}
    {c : Clause α} (hindex : m.clauses[index]? = some c) {t : Template α}
    (hmake : Template.make m index c = .ok t) {interest : Std.HashSet Nat}
    {signatures : SignatureSet} (hc : Covered m interest signatures) {rest : List Int}
    (hrest : rest ∈ (Odometer.combinations t.radices).filterMap t.remainder?)
    (htouch : touches interest.contains rest = true) : isRelevant m signatures t = true := by
  have hclause : t.clause = index := (exists_resolved hmake).1
  obtain ⟨x, hx, hinterest⟩ := List.any_eq_true.1 htouch
  obtain ⟨σ, hσ⟩ := exists_remainder h hsize hmake hrest
  obtain ⟨-, -, l, hl, block, howner, hsig⟩ := unknown_of_remainder h hσ hx
  have hknown := hc x.natAbs hinterest block howner
  rw [hsig] at hknown
  simp only [isRelevant, hclause, hindex]
  exact List.any_eq_true.2 ⟨l, hl, hknown⟩

/-- A clause without a predicate of an atom of interest yields nothing. -/
theorem entriesUnder_of_not_isRelevant {m : Model α} {schema : List (Signature × List Domain)}
    (h : m.Built schema) (hsize : m.base.atomCount ≤ Herbrand.Block.maxId) {index : Nat}
    {c : Clause α} (hindex : m.clauses[index]? = some c) {t : Template α}
    (hmake : Template.make m index c = .ok t) {interest : Std.HashSet Nat}
    {signatures : SignatureSet} (hc : Covered m interest signatures)
    (hnot : isRelevant m signatures t = false) (options : Options) :
    entriesUnder options interest.contains t = [] := by
  rw [entriesUnder]
  split
  · rfl
  · rw [List.flatMap_eq_nil_iff]
    intro rest hrest
    obtain ⟨hmem, htouch⟩ := List.mem_filter.1 hrest
    rw [isRelevant_of_touches h hsize hindex hmake hc hmem htouch] at hnot
    cases hnot

/-- The clauses of a model and how they are prepared. -/
theorem forall₂_templates {m : Model α} {ts : List (Template α)} (hts : templates m = .ok ts) :
    List.Forall₂ (fun p t => m.clauses[p.2]? = some p.1 ∧ Template.make m p.2 p.1 = .ok t)
      m.clauses.toList.zipIdx ts := by
  have hclauses : ∀ p ∈ m.clauses.toList.zipIdx, m.clauses[p.2]? = some p.1 := by
    intro p hp
    rw [← Array.getElem?_toList]
    exact List.mk_mem_zipIdx_iff_getElem?.1 hp
  exact (List.forall₂_and_left _ _).2 ⟨hclauses, mapM_eq_ok_iff.1 hts⟩

theorem exists_make_of_mem {m : Model α} {ts : List (Template α)} (hts : templates m = .ok ts)
    {t : Template α} (ht : t ∈ ts) :
    ∃ index c, m.clauses[index]? = some c ∧ Template.make m index c = .ok t := by
  obtain ⟨p, -, hclause, hp⟩ := exists_mem_of_forall₂ (forall₂_templates hts) ht
  exact ⟨p.2, p.1, hclause, hp⟩

/-- The clauses that a round grounds yield what all clauses yield. -/
theorem entries_relevant {m : Model α} {schema : List (Signature × List Domain)}
    (h : m.Built schema) (hsize : m.base.atomCount ≤ Herbrand.Block.maxId)
    {ts : List (Template α)} (hts : templates m = .ok ts) (options : Options)
    {interest : Std.HashSet Nat} {signatures : SignatureSet} (hc : Covered m interest signatures) :
    ((ts.filter (isRelevant m signatures)).flatMap fun t =>
        (harvest t options interest.contains).entries.toList) =
      ts.flatMap (entriesUnder options interest.contains) := by
  have hmake := fun t (ht : t ∈ ts) => exists_make_of_mem hts ht
  clear hts
  induction ts with
  | nil => rfl
  | cons t ts ih =>
    rw [List.forall_mem_cons] at hmake
    obtain ⟨⟨index, c, hindex, ht⟩, hrest⟩ := hmake
    rcases hrelevant : isRelevant m signatures t with _ | _
    · rw [List.filter_cons_of_neg (by simp [hrelevant]), List.flatMap_cons,
        entriesUnder_of_not_isRelevant h hsize hindex ht hc hrelevant, List.nil_append, ih hrest]
    · rw [List.filter_cons_of_pos hrelevant, List.flatMap_cons, List.flatMap_cons, ih hrest,
        entries_harvest ht]

/-- **If the rounds end by themselves, the register holds what all clauses yield
under the final interest.** -/
theorem register_expand {m : Model α} {schema : List (Signature × List Domain)}
    (h : m.Built schema) (hsize : m.base.atomCount ≤ Herbrand.Block.maxId)
    {ts : List (Template α)} (hts : templates m = .ok ts) (settings : Settings)
    {left rounds : Nat} {e : Expansion α}
    (he : expand m settings ts left rounds (Std.HashSet.ofList m.unknownQueryAtoms) m.query = e)
    (hfull : e.truncated = false) :
    e.register = (Register.empty settings.key settings.partitions).insertAll
      (ts.flatMap (entriesUnder settings.options e.interest.contains)) := by
  have hround := fun (interest : Std.HashSet Nat) (signatures : SignatureSet)
    (hc : Covered m interest signatures) => hc.insertMany (Round.run settings
      (ts.filter (isRelevant m signatures)) interest).discovered.toList
  obtain ⟨signatures, hc, hregister, -⟩ := expand_induction hround left rounds (covered_query h) he
    hfull
  rw [hregister, register_run, entries_relevant h hsize hts settings.options hc]

/-! ### The rounds of a run -/

/-- The rounds of a run. -/
def expansion (m : Model α) (settings : Settings) : Except GroundingError (Expansion α) :=
  (templates m).map fun ts =>
    expand m settings ts (settings.maxRounds - 1) 0 (Std.HashSet.ofList m.unknownQueryAtoms) m.query

/-- What a run makes of its rounds. -/
theorem run_eq_ok {m : Model α} {settings : Settings} {net : Network α} {summary : Summary}
    (hrun : run m settings = .ok (net, summary)) :
    ∃ ts e, templates m = .ok ts ∧ expansion m settings = .ok e ∧
      expand m settings ts (settings.maxRounds - 1) 0 (Std.HashSet.ofList m.unknownQueryAtoms)
        m.query = e ∧
      net = Network.assemble e.register.cliques m.unknownQueryAtoms m.base.queryRange ∧
      summary = ⟨e.rounds, e.counts, e.interest.size, e.truncated⟩ := by
  obtain ⟨ts, hts, hrest⟩ := bind_eq_ok_iff.1 hrun
  obtain ⟨hnet, hsummary⟩ := Prod.mk.inj (Except.ok.inj hrest)
  refine ⟨ts, _, hts, ?_, rfl, hnet.symm, hsummary.symm⟩
  rw [expansion, hts]
  rfl

/-- The network of a run is assembled from what its last round registers. -/
theorem exists_lastRound {m : Model α} {settings : Settings} {net : Network α} {summary : Summary}
    (hrun : run m settings = .ok (net, summary)) :
    ∃ (ts relevant : List (Template α)) (interest : Std.HashSet Nat) (e : Expansion α),
      templates m = .ok ts ∧ relevant.Sublist ts ∧ expansion m settings = .ok e ∧
      e.register = (Round.run settings relevant interest).register ∧
      net = Network.assemble e.register.cliques m.unknownQueryAtoms m.base.queryRange := by
  obtain ⟨ts, e, hts, hexpansion, rfl, hnet, -⟩ := run_eq_ok hrun
  obtain ⟨interest, signatures, hregister⟩ := exists_register_expand m settings ts
    (settings.maxRounds - 1) 0 (Std.HashSet.ofList m.unknownQueryAtoms) m.query
  exact ⟨ts, _, interest, _, hts, List.filter_sublist, hexpansion, hregister, hnet⟩

end MarkovLogic.Grounding
