/-
MarkovLogic/Proofs/Grounding/Meaning.lean

Grounding keeps the meaning of a model.

The network of a run that was not cut short is compared with the ground theory
of the model.  The steps in between each keep the meaning: the substitutions
become combinations of digits (`remainders_perm`), what remains of a clause is
registered as entries (`sameMeaning_entriesOf`), the last round has all of them
(`register_expand`), entries over the same literals are added up
(`sameMeaning_cliques`), and cliques become constraints (`sameMeaning_theory`).

Main statement: `run_preserves_meaning`.
-/
import MarkovLogic.Proofs.Grounding.Entries
import MarkovLogic.Proofs.Grounding.Interest
import MarkovLogic.Proofs.Network.Restriction

namespace MarkovLogic

/-! ### From remainders to entries -/

theorem Model.clauseTheory_eq {α : Type} (m : Model α) (c : Clause α) :
    m.clauseTheory c =
      ((substitutions m.constants c.vars).filterMap (m.remainder c.literals)).map
        (GroundClause.mk c.weight) := by
  rw [clauseTheory, List.map_filterMap]

theorem touching_map_mk {α : Type} (interest : Nat → Bool) (w : α) (sets : List (List Int)) :
    touching interest (sets.map (GroundClause.mk w)) =
      (sets.filter (touches interest)).map (GroundClause.mk w) := by
  rw [touching, List.filter_map]
  rfl

namespace Grounding

variable {K : Type} [Field K] [LinearOrder K] [IsStrictOrderedRing K] [FloorRing K]
  {m : Model (Extended K)} {schema : List (Signature × List Domain)} {options : Options}

omit [Field K] [LinearOrder K] [IsStrictOrderedRing K] [FloorRing K] in
/-- What remains of a clause are literals. -/
theorem areLiterals_of_remainder (h : m.Built schema)
    (hsize : m.base.atomCount ≤ Herbrand.Block.maxId) {literals : List Literal}
    {σ : String → String} {rest : List Int} (hrest : m.remainder literals σ = some rest) :
    AreLiterals rest := by
  intro x hx
  obtain ⟨hne, -, -, -, block, howner, -⟩ := unknown_of_remainder h hrest hx
  have hbound := (Herbrand.Base.owner?_isSome_iff h.base).1 (Option.isSome_of_eq_some howner)
  exact ⟨hne, hbound.2.trans hsize⟩

omit [IsStrictOrderedRing K] in
/-- The weight of a prepared clause is a number. -/
theorem weight_ne_nan {index : Nat} {c : Clause (Extended K)} {t : Template (Extended K)}
    (hmake : Template.make m index c = .ok t) : t.weight ≠ .nan := by
  obtain ⟨-, hweight, hnan, -⟩ := exists_resolved hmake
  rw [hweight]
  intro hc
  rw [hc] at hnan
  cases hnan

/-- The entries of a clause are proper. -/
theorem isProper_entriesUnder {index : Nat} {c : Clause (Extended K)} {t : Template (Extended K)}
    (hmake : Template.make m index c = .ok t) (interest : Nat → Bool) :
    ∀ e ∈ entriesUnder options interest t, e.ground.IsProper := by
  intro e he
  rw [entriesUnder] at he
  split at he
  · simp at he
  · obtain ⟨rest, hrest, he⟩ := List.mem_flatMap.1 he
    obtain ⟨ds, -, hleft⟩ := List.mem_filterMap.1 (List.mem_filter.1 hrest).1
    exact isProper_entriesOf options t.clause (weight_ne_nan hmake)
      (Template.ne_nil_of_remainder? hleft) e he

/-- The entries of a clause mean what remains of it and touches an atom of
interest. -/
theorem sameMeaning_entriesUnder (h : m.Built schema)
    (hsize : m.base.atomCount ≤ Herbrand.Block.maxId) (hsplit : options.splitNegative = false)
    {index : Nat} {c : Clause (Extended K)} {t : Template (Extended K)}
    (hmake : Template.make m index c = .ok t) (interest : Nat → Bool)
    (hzero : (c.weight == 0) = false) :
    SameMeaning (touching interest (m.clauseTheory c))
      ((entriesUnder options interest t).map Entry.ground) := by
  have hweight : t.weight = c.weight := (exists_resolved hmake).2.1
  rw [entriesUnder, hweight, hzero, if_neg Bool.false_ne_true, List.map_flatMap,
    Model.clauseTheory_eq, touching_map_mk, ← hweight]
  have hperm := ((remainders_perm h hsize hmake).filter (touches interest)).map
    (GroundClause.mk t.weight)
  refine (SameMeaning.of_perm hperm).trans (sameMeaning_flatMap fun rest hrest => ?_)
  obtain ⟨σ, hσ⟩ := exists_remainder h hsize hmake (List.mem_filter.1 hrest).1
  exact sameMeaning_entriesOf hsplit t.clause (weight_ne_nan hmake)
    (areLiterals_of_remainder h hsize hσ)

/-- The entries of all clauses mean what the ground clauses that touch an atom of
interest mean. -/
theorem sameMeaning_entries (h : m.Built schema)
    (hsize : m.base.atomCount ≤ Herbrand.Block.maxId) (hsplit : options.splitNegative = false)
    {ts : List (Template (Extended K))} (hts : templates m = .ok ts) (interest : Nat → Bool) :
    SameMeaning (touching interest m.groundTheory)
      ((ts.flatMap (entriesUnder options interest)).map Entry.ground) := by
  have hclauses : m.clauses.toList = m.clauses.toList.zipIdx.map Prod.fst :=
    (List.zipIdx_map_fst ..).symm
  rw [Model.groundTheory, hclauses]
  have hall := forall₂_templates hts
  clear hclauses hts
  generalize m.clauses.toList.zipIdx = ps at hall
  induction hall with
  | nil => exact .refl []
  | @cons p t ps ts hp _ ih =>
    rw [List.map_cons, List.flatMap_cons, List.map_append]
    rcases hzero : p.1.weight == 0 with _ | _
    · rw [List.filter_cons_of_pos (by rw [hzero]; rfl), List.flatMap_cons, touching,
        List.filter_append]
      exact (sameMeaning_entriesUnder h hsize hsplit hp.2 interest hzero).append ih
    · have hweight : t.weight = p.1.weight := (exists_resolved hp.2).2.1
      rw [List.filter_cons_of_neg (by rw [hzero]; exact Bool.false_ne_true), entriesUnder, hweight,
        hzero, if_pos rfl]
      exact ih

/-! ### The network of a run -/

/-- The network of a run that was not cut short means what the ground clauses
that touch an atom of interest mean. -/
theorem sameMeaning_run (h : m.Built schema) (hsize : m.base.atomCount ≤ Herbrand.Block.maxId)
    {settings : Settings} (hsplit : settings.options.splitNegative = false)
    {net : Network (Extended K)} {summary : Summary} (hrun : run m settings = .ok (net, summary))
    (hfull : summary.truncated = false) :
    ∃ e, expansion m settings = .ok e ∧ net.Wired ∧ (∀ c ∈ net.constraints, c.IsRegular) ∧
      SameMeaning (touching e.interest.contains m.groundTheory) net.theory := by
  obtain ⟨ts, e, hts, hexpansion, he, rfl, rfl⟩ := run_eq_ok hrun
  have hproper : ∀ entry ∈ ts.flatMap (entriesUnder settings.options e.interest.contains),
      entry.ground.IsProper := by
    intro entry hentry
    obtain ⟨t, ht, hentry⟩ := List.mem_flatMap.1 hentry
    obtain ⟨p, -, -, hmake⟩ := exists_mem_of_forall₂ (forall₂_templates hts) ht
    exact isProper_entriesUnder hmake _ entry hentry
  have hcliques := isProper_cliques settings.key settings.partitions hproper
  rw [← register_expand h hsize hts settings he hfull] at hcliques
  refine ⟨e, hexpansion, Network.wired_assemble _ _ _,
    Network.isRegular_assemble fun entry hentry => (hcliques entry hentry).2, ?_⟩
  refine (sameMeaning_entries h hsize hsplit hts e.interest.contains).trans ?_
  refine SameMeaning.trans ?_ (Network.sameMeaning_theory hcliques)
  rw [register_expand h hsize hts settings he hfull]
  exact sameMeaning_cliques settings.key settings.partitions fun entry hentry =>
    (hproper entry hentry).2

/-! ### Assignments that agree outside the interest -/

omit [LinearOrder K] [IsStrictOrderedRing K] [FloorRing K] in
/-- Ground clauses on whose atoms two assignments agree make no difference
between them. -/
theorem spread_touching {interest : Nat → Bool} {s t : Nat → Bool}
    {T : List (GroundClause (Extended K))}
    (hagree : ∀ g ∈ T, ∀ x ∈ g.literals, interest x.natAbs = false → s x.natAbs = t x.natAbs) :
    spread s t (touching interest T) = spread s t T := by
  induction T with
  | nil => rfl
  | cons g T ih =>
    rw [List.forall_mem_cons] at hagree
    have hrest := ih hagree.2
    rw [touching] at hrest ⊢
    rcases htouch : touches interest g.literals with _ | _
    · rw [List.filter_cons_of_neg (by simp [htouch]), hrest]
      have hgap : gap K s t g.literals = 0 := by
        refine gap_eq_zero fun x hx => hagree.1 x hx ?_
        rw [touches, List.any_eq_false] at htouch
        simpa using htouch x hx
      rw [spread, spread, List.map_cons, List.sum_cons, hgap, mul_zero, zero_add]
    · rw [List.filter_cons_of_pos (by simp [htouch]), spread, spread, List.map_cons, List.map_cons,
        List.sum_cons, List.sum_cons]
      exact congrArg (g.stake * gap K s t g.literals + ·) hrest

/-- **Grounding keeps the meaning of a model.**  Take a model of at most `2 ^ 31 - 1`
ground atoms, and ground it without splitting soft clauses and without being cut
short.  Then an assignment violates none of the hard ground clauses that touch an
atom of interest exactly if it violates no hard constraint of the network.  And
of two such assignments that agree on the unknown atoms outside the interest, the
difference of the costs in the ground theory is the difference of the costs in
the network. -/
theorem run_preserves_meaning (d : Declarations (Extended K)) (m : Model (Extended K))
    (hbuild : d.build = .ok m) (hsize : m.base.atomCount ≤ Herbrand.Block.maxId)
    (settings : Settings) (hsplit : settings.options.splitNegative = false)
    (net : Network (Extended K)) (summary : Summary) (hrun : run m settings = .ok (net, summary))
    (hfull : summary.truncated = false) :
    ∃ e, expansion m settings = .ok e ∧
      (∀ s : Nat → Bool, Satisfies s (touching e.interest.contains m.groundTheory) ↔
        net.hardViolations (net.restrict s) = 0) ∧
      ∀ s t : Nat → Bool,
        (∀ id, m.IsUnknownAtom id → e.interest.contains id = false → s id = t id) →
        Satisfies s (touching e.interest.contains m.groundTheory) →
        Satisfies t (touching e.interest.contains m.groundTheory) →
        softCost s m.groundTheory - softCost t m.groundTheory =
          net.evaluate (net.restrict s) - net.evaluate (net.restrict t) := by
  obtain ⟨schema, h⟩ := Declarations.built_of_build hbuild
  obtain ⟨e, he, hwired, hregular, hsame⟩ := sameMeaning_run h hsize hsplit hrun hfull
  refine ⟨e, he, fun s => ?_, fun s t hagree hs ht => ?_⟩
  · rw [Network.hardViolations_eq_zero_iff hwired hregular, hsame.satisfies_iff]
  · have hspread : spread s t m.groundTheory = spread s t net.theory := by
      rw [← hsame.spread_eq s t hs ht, spread_touching fun g hg x hx =>
        hagree x.natAbs (isUnknownAtom_of_mem h hg hx)]
    rw [Network.evaluate_eq hwired hregular ((hsame.satisfies_iff s).1 hs),
      Network.evaluate_eq hwired hregular ((hsame.satisfies_iff t).1 ht)]
    simp only [softCost_eq, Extended.finite_sub, totalPenalty_sub, hspread]

/-! ### Two atoms -/

/-- It rather rains, and when it rains the street is wet. -/
def rainKb : KnowledgeBase (Extended ℚ) :=
  { (KnowledgeBase.empty : KnowledgeBase (Extended ℚ)).declarePredicate "Rain" []
      |>.declarePredicate "Wet" [] with
    computed := .empty
    clauses := #[⟨.finite 2, [⟨true, "Rain", []⟩]⟩,
      ⟨.posInf, [⟨false, "Rain", []⟩, ⟨true, "Wet", []⟩]⟩] }

/-- Both atoms are asked about. -/
def rainDeclarations : Declarations (Extended ℚ) :=
  { Declarations.ofKnowledgeBase rainKb with
    query := Std.TreeSet.ofList [⟨"Rain", 0⟩, ⟨"Wet", 0⟩] compare }

/-- A predicate without arguments, and nothing known about it. -/
def openAtom (symbol : String) (id : Nat) : Evidence :=
  .empty ⟨⟨symbol, 0⟩, id, []⟩ .open

def rainModel : Model (Extended ℚ) :=
  { kb := rainKb, domains := ∅
    base := ⟨[⟨⟨"Rain", 0⟩, 1, []⟩, ⟨⟨"Wet", 0⟩, 2, []⟩], 3, some (1, 2)⟩
    evidence := [openAtom "Rain" 1, openAtom "Wet" 2]
    query := Std.TreeSet.ofList [⟨"Rain", 0⟩, ⟨"Wet", 0⟩] compare, annotation := none }

def rainSettings : Settings :=
  ⟨⟨false, true⟩, 1, 1, fun _ => 0⟩

theorem build_rain : rainDeclarations.build = .ok rainModel := by
  rw [Declarations.build, Declarations.check_of_computed_empty (d := rainDeclarations) rfl rfl rfl]
  rfl

def rainTemplates : List (Template (Extended ℚ)) :=
  [⟨0, .finite 2, [], [⟨true, .lookUp (openAtom "Rain" 1) [], 0⟩]⟩,
    ⟨1, .posInf, [], [⟨false, .lookUp (openAtom "Rain" 1) [], 0⟩,
      ⟨true, .lookUp (openAtom "Wet" 2) [], 0⟩]⟩]

theorem templates_rain : templates rainModel = .ok rainTemplates := by
  have hunit : [(⟨true, "Rain", []⟩ : Literal)].mapM (resolve rainModel) =
      .ok [⟨⟨true, "Rain", []⟩, .stored (openAtom "Rain" 1)⟩] := rfl
  have hpair : [(⟨false, "Rain", []⟩ : Literal), ⟨true, "Wet", []⟩].mapM (resolve rainModel) =
      .ok [⟨⟨false, "Rain", []⟩, .stored (openAtom "Rain" 1)⟩,
        ⟨⟨true, "Wet", []⟩, .stored (openAtom "Wet" 2)⟩] := rfl
  refine mapM_eq_ok_iff.2 (.cons ?_ (.cons ?_ .nil))
  · refine Template.make_of_pairwise rfl hunit ?_ rfl rfl ?_
    · exact List.pairwise_singleton _ _
    · exact List.pairwise_singleton _ _
  · refine Template.make_of_pairwise rfl hpair ?_ rfl rfl ?_
    · exact List.pairwise_pair.2 rfl
    · exact List.pairwise_pair.2 rfl

theorem find_openAtom (symbol : String) (id : Nat) :
    Test.find [] (.lookUp (openAtom symbol id) []) = .unknown id := by
  have hget : (openAtom symbol id).get id = .unknown := by
    simp [openAtom, Evidence.empty, Evidence.get, WorldAssumption.default]
  have hencode : ([].mapM (IndexSlot.index? [])).bind
      (openAtom symbol id).block.encodeIndices? = some id := rfl
  rw [Test.find, hencode]
  simp only [hget, Truth.toBool?]

theorem unknownIds_openAtom (symbol : String) (id : Nat) :
    (openAtom symbol id).unknownIds = [id] := by
  simp [openAtom, Evidence.empty, Evidence.unknownIds, Herbrand.Block.size, Herbrand.Block.sizes,
    Herbrand.volume]

theorem unknownQueryAtoms_rain : rainModel.unknownQueryAtoms = [1, 2] := by
  change (openAtom "Rain" 1).unknownIds ++ ((openAtom "Wet" 2).unknownIds ++ []) = [1, 2]
  rw [unknownIds_openAtom, unknownIds_openAtom]
  rfl

/-- No other atom comes up. -/
theorem mem_atoms_rain {interest : Nat → Bool} (hrain : interest 1 = true)
    (hwet : interest 2 = true) {t : Template (Extended ℚ)} (ht : t ∈ rainTemplates) {id : Nat}
    (hid : id ∈ (harvest t rainSettings.options interest).atoms) : id ∈ [1, 2] := by
  rw [harvest] at hid
  split at hid
  · simp [Harvest.empty] at hid
  rcases List.mem_cons.1 ht with rfl | ht
  · have hjudge : judge [] [⟨true, .lookUp (openAtom "Rain" 1) [], 0⟩] [] = .pending [1] := by
      simp only [judge, find_openAtom]
      rfl
    simp [Harvest.walk, Template.radices, Odometer.start, Odometer.size, hjudge,
      Harvest.takePending, literalSet, insertLiteral, Harvest.isTautology, hrain,
      Harvest.empty] at hid
    simp [hid]
  · rcases List.mem_singleton.1 ht with rfl
    have hjudge : judge [] [⟨false, .lookUp (openAtom "Rain" 1) [], 0⟩,
        ⟨true, .lookUp (openAtom "Wet" 2) [], 0⟩] [] = .pending [-1, 2] := by
      simp only [judge, find_openAtom]
      rfl
    simp [Harvest.walk, Template.radices, Odometer.start, Odometer.size, hjudge,
      Harvest.takePending, literalSet, insertLiteral, Harvest.isTautology, hrain, hwet,
      Harvest.empty] at hid
    simpa [eq_comm] using hid

/-- One round is enough. -/
theorem run_rain : ∃ net summary, run rainModel rainSettings = .ok (net, summary) ∧
    summary.truncated = false := by
  have hempty : ∀ p, (Round.run rainSettings (rainTemplates.filter p)
      (Std.HashSet.ofList [1, 2])).discovered.isEmpty = true := by
    intro p
    refine isEmpty_discovered _ fun t ht id hid => ?_
    rw [Std.HashSet.mem_ofList, List.contains_iff_mem]
    refine mem_atoms_rain ?_ ?_ (List.mem_filter.1 ht).1 hid
    · simp
    · simp
  rw [run, templates_rain]
  refine ⟨_, _, rfl, ?_⟩
  dsimp only
  rw [unknownQueryAtoms_rain, expand]
  dsimp only
  rw [if_pos (hempty _)]

/-- The model can be built and grounded, and its network keeps its meaning. -/
theorem run_preserves_meaning_rain :
    ∃ (net : Network (Extended ℚ)) (e : Expansion (Extended ℚ)),
      expansion rainModel rainSettings = .ok e ∧
      (∀ s : Nat → Bool, Satisfies s (touching e.interest.contains rainModel.groundTheory) ↔
        net.hardViolations (net.restrict s) = 0) ∧
      ∀ s t : Nat → Bool,
        (∀ id, rainModel.IsUnknownAtom id → e.interest.contains id = false → s id = t id) →
        Satisfies s (touching e.interest.contains rainModel.groundTheory) →
        Satisfies t (touching e.interest.contains rainModel.groundTheory) →
        softCost s rainModel.groundTheory - softCost t rainModel.groundTheory =
          net.evaluate (net.restrict s) - net.evaluate (net.restrict t) := by
  obtain ⟨net, summary, hrun, hfull⟩ := run_rain
  exact ⟨net, run_preserves_meaning rainDeclarations rainModel build_rain (by decide) rainSettings
    rfl net summary hrun hfull⟩

end Grounding

end MarkovLogic
