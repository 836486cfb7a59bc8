/-
MarkovLogic/Proofs/Grounding/NormalForm.lean

What the two ways of rewriting weights lead to.

Splitting is to leave positive weights only, and flipping is to leave no soft
negated unit.  Each does so if it is the only one.  But a clause is rewritten
once: it is split or flipped or kept, and what comes out is not looked at again.
So with both options a negated unit of positive weight is flipped and leaves a
negative weight, and a clause of negative weight is split and may leave negated
units.  Nothing else can happen (`RegisteredAs`), and that survives the sums over
the entries: the weight of a constraint is not negative unless an entry over its
literals was flipped, and a soft negated unit has an entry that was split off.

The arithmetic is any that keeps signs, exact or not.  Atom numbers beyond 31
bits have no opposite literal, so what is said about negated units is said of
models without them.

Main statement: `run_isNormal`.
-/
import MarkovLogic.Proofs.Clique.Signs
import MarkovLogic.Proofs.Grounding.WellFormed

namespace MarkovLogic

variable {α : Type}

/-! ### Normal networks -/

/-- A soft constraint whose only literal is negative. -/
def Constraint.IsNegatedUnit (c : Constraint α) : Prop :=
  c.isHard = false ∧ ∃ l, l < 0 ∧ c.literals = [l]

/-- A clause whose weight has the property is among the dependencies. -/
def Constraint.DependsOn (m : Model α) (P : α → Prop) (c : Constraint α) : Prop :=
  ∃ dep ∈ c.dependencies, ∃ clause, m.clauses[dep.1]? = some clause ∧ P clause.weight

/-- The form that the options bring a network into. -/
structure Network.IsNormal [Scalar α] (net : Network α) (m : Model α)
    (options : Grounding.Options) : Prop where
  /-- Splitting alone leaves positive weights only. -/
  positive : options.splitNegative = true → options.flipNegatedUnit = false →
    ∀ c ∈ net.constraints, c.isPositive = true
  /-- Flipping alone leaves no soft negated unit. -/
  unnegated : options.flipNegatedUnit = true → options.splitNegative = false →
    m.base.atomCount ≤ Herbrand.Block.maxId → ∀ c ∈ net.constraints, ¬ c.IsNegatedUnit
  /-- With both options, a weight that is not positive stands on a positive unit and
  comes from a clause of positive weight that was flipped. -/
  flipped : options.splitNegative = true → options.flipNegatedUnit = true →
    m.base.atomCount ≤ Herbrand.Block.maxId → ∀ c ∈ net.constraints, c.isPositive = false →
      (∃ l, 0 < l ∧ c.literals = [l]) ∧ c.DependsOn m (0 < ·)
  /-- With both options, a soft negated unit has a positive weight and comes from a
  clause of negative weight that was split. -/
  split : options.splitNegative = true → options.flipNegatedUnit = true →
    m.base.atomCount ≤ Herbrand.Block.maxId → ∀ c ∈ net.constraints, c.IsNegatedUnit →
      c.isPositive = true ∧ c.DependsOn m (· < 0)

namespace Grounding

open Scalar

variable [Scalar α] {options : Options} {clause : Nat} {w : α} {literals : List Int} {e : Entry α}

/-! ### Entries -/

/-- With splitting, an entry that contributes a negative number was flipped. -/
theorem RegisteredAs.isNonneg_or_flipped (signs : KeepsSigns α)
    (h : RegisteredAs options clause w literals e) (hnan : isNaN w = false)
    (hsplit : options.splitNegative = true) :
    IsNonneg e.contribution ∨ options.flipNegatedUnit = true ∧ IsNonneg w ∧
      ∃ l, l < 0 ∧ literals = [l] ∧ e.literals = literalSet [oppositeLiteral l] := by
  have hnonneg (hsign : w < 0 → options.splitNegative = false) : IsNonneg w := by
    refine ⟨hnan, fun hneg => ?_⟩
    rw [hsign hneg] at hsplit
    cases hsplit
  cases h with
  | kept hsign hunit => exact .inl (signs.once (hnonneg fun hneg => (hsign hneg).2))
  | split hneg _ hl hshare =>
    rcases hshare with rfl | ⟨hsoft, rfl⟩
    · exact .inl (signs.opposite hneg)
    · exact .inl (signs.opposite_div hneg hsoft (List.length_pos_of_mem hl))
  | @flipped l hsign hsoft hflip hunit hneg =>
    exact .inr ⟨hflip, hnonneg hsign, l, hneg, hunit, rfl⟩

/-- With flipping, an entry over a negated unit is hard or was split off. -/
theorem RegisteredAs.isInfinite_or_split (signs : KeepsSigns α)
    (h : RegisteredAs options clause w literals e) (hnan : isNaN w = false)
    (hflip : options.flipNegatedUnit = true) (hsorted : literals.Pairwise (· < ·))
    (hbound : ∀ l ∈ literals, l.natAbs ≤ Herbrand.Block.maxId) {l : Int} (hl : l < 0)
    (hunit : e.literals = [l]) :
    IsNonneg e.contribution ∧ isInfinite e.contribution = true ∨
      options.splitNegative = true ∧ w < 0 := by
  cases h with
  | kept hsign hkept =>
    have hliterals : literals = [l] := (literalSet_of_pairwise hsorted).symm.trans hunit
    rcases hhard : isInfinite w with _ | _
    · exact absurd (hkept hhard hflip l hliterals) (not_le.2 hl)
    · have hnonneg : IsNonneg w := by
        refine ⟨hnan, fun hneg => ?_⟩
        rw [(hsign hneg).1] at hhard
        cases hhard
      exact .inl ⟨signs.once hnonneg, signs.infinite_mul one_ne_zero hhard⟩
  | split hneg hsplit _ hshare =>
    rcases hhard : isInfinite w with _ | _
    · refine .inr ⟨hsplit.resolve_left ?_, hneg⟩
      rw [hhard]
      exact Bool.false_ne_true
    · rcases hshare with rfl | ⟨hsoft, -⟩
      · exact .inl ⟨signs.opposite hneg, signs.infinite_mul (neg_ne_zero.2 one_ne_zero) hhard⟩
      · rw [hhard] at hsoft
        cases hsoft
  | @flipped k _ _ _ hliterals hneg =>
    -- the flipped literal is positive
    have hk : k.natAbs ≤ Herbrand.Block.maxId := hbound k (hliterals ▸ List.mem_singleton_self k)
    have hopposite : literalSet [oppositeLiteral k] = [-k] := by
      rw [oppositeLiteral_of_le hk, literalSet_of_pairwise (List.pairwise_singleton _ _)]
    obtain rfl : -k = l := List.singleton_inj.1 (hopposite.symm.trans hunit)
    omega

/-! ### Constraints -/

variable {m : Model α} {schema : List (Signature × List Domain)} {settings : Settings}

/-- The entry is one of a clause of the model, for literals that are left of it. -/
def IsRegistered (m : Model α) (options : Options) (e : Entry α) : Prop :=
  ∃ (c : Clause α) (literals : List Int), m.clauses[e.clause]? = some c ∧
    isNaN c.weight = false ∧ (c.weight == 0) = false ∧
    (m.base.atomCount ≤ Herbrand.Block.maxId → m.IsOpenClause literals) ∧
    RegisteredAs options e.clause c.weight literals e

theorem RegisteredAs.clause_eq (h : RegisteredAs options clause w literals e) :
    e.clause = clause := by
  cases h <;> rfl

/-- The entries of a prepared clause are registered. -/
theorem isRegistered_of_mem_entriesUnder (h : m.Built schema) {index : Nat} {c : Clause α}
    (hindex : m.clauses[index]? = some c) {t : Template α} (hmake : Template.make m index c = .ok t)
    {interest : Nat → Bool} (he : e ∈ entriesUnder options interest t) :
    IsRegistered m options e := by
  obtain ⟨hclause, hweight, hnan, -⟩ := exists_resolved hmake
  rw [entriesUnder, hclause, hweight] at he
  split at he
  · cases he
  · rename_i hzero
    obtain ⟨rest, hrest, he⟩ := List.mem_flatMap.1 he
    have hform := registeredAs_of_mem he
    obtain rfl := hform.clause_eq
    refine ⟨c, rest, hindex, hnan, Bool.eq_false_iff.2 hzero, fun hsize => ?_, hform⟩
    obtain ⟨σ, hσ⟩ := exists_remainder h hsize hmake (List.mem_filter.1 hrest).1
    exact isOpenClause_of_remainder h hσ

/-- A constraint is what registered entries over its literals add up to. -/
theorem exists_tallied (h : m.Built schema) {net : Network α} {summary : Summary}
    (hrun : run m settings = .ok (net, summary)) {c : Constraint α} (hc : c ∈ net.constraints) :
    ∃ es : List (Entry α), (∀ e ∈ es, IsRegistered m settings.options e) ∧
      (∃ e ∈ es, e.literals = c.literals) ∧
      c.strength = Network.strengthOf (Tally.ofEntries es c.literals).toClique.weight ∧
      ((Tally.ofEntries es c.literals).toClique.weight == 0) = false ∧
      c.dependencies = (Tally.ofEntries es c.literals).toClique.dependencies := by
  obtain ⟨ts, relevant, interest, e, hts, hsub, -, hregister, rfl⟩ := exists_lastRound hrun
  rw [hregister, register_run] at hc
  obtain ⟨e, he, hkept, hembodies⟩ := Network.exists_entry hc
  have hliterals : c.literals = e.literals := congrArg Constraint.literals hembodies
  refine ⟨_, fun e' he' => ?_, ⟨e, he, hliterals.symm⟩, ?_, ?_, ?_⟩
  · obtain ⟨t, ht, he'⟩ := List.mem_flatMap.1 he'
    obtain ⟨index, clause, hindex, hmake⟩ := exists_make_of_mem hts (hsub.subset ht)
    rw [entries_harvest hmake] at he'
    exact isRegistered_of_mem_entriesUnder h hindex hmake he'
  · rw [hliterals]
    exact congrArg Constraint.strength hembodies
  · rw [hliterals]
    rw [Network.isKept, Bool.not_eq_true', Bool.or_eq_false_iff] at hkept
    exact hkept.1
  · rw [hliterals]
    exact congrArg Constraint.dependencies hembodies

theorem isPositive_of_isNonneg (signs : KeepsSigns α) {c : Constraint α} {x : α}
    (hstrength : c.strength = Network.strengthOf x) (hx : IsNonneg x) (hne : (x == 0) = false) :
    c.isPositive = true := by
  rw [Network.strengthOf] at hstrength
  rw [Constraint.isPositive, hstrength]
  split
  · rfl
  · rename_i hsoft
    split at hsoft
    · cases hsoft
    · obtain rfl := Strength.soft.inj hsoft
      exact decide_eq_true (signs.pos hx hne)

theorem isHard_of_isInfinite {c : Constraint α} {x : α}
    (hstrength : c.strength = Network.strengthOf x) (hx : isInfinite x = true) :
    c.isHard = true := by
  rw [Constraint.isHard, hstrength, Network.strengthOf, if_pos hx]

/-- A constraint depends on the clauses of the entries over its literals. -/
theorem dependsOn_of_mem {c : Constraint α} {es : List (Entry α)}
    (hdependencies : c.dependencies = (Tally.ofEntries es c.literals).toClique.dependencies)
    (he : e ∈ es) (hliterals : e.literals = c.literals) {clause : Clause α}
    (hindex : m.clauses[e.clause]? = some clause) {P : α → Prop} (hweight : P clause.weight) :
    c.DependsOn m P := by
  rw [Constraint.DependsOn, hdependencies]
  exact (Tally.exists_dependency_iff es c.literals fun index =>
    ∃ clause, m.clauses[index]? = some clause ∧ P clause.weight).2
      ⟨e, he, hliterals, clause, hindex, hweight⟩

/-- With splitting, a weight that is not positive has a part that was flipped. -/
theorem exists_flipped (signs : KeepsSigns α) (h : m.Built schema) {net : Network α}
    {summary : Summary} (hrun : run m settings = .ok (net, summary))
    (hsplit : settings.options.splitNegative = true) {c : Constraint α} (hc : c ∈ net.constraints)
    (hpositive : c.isPositive = false) :
    settings.options.flipNegatedUnit = true ∧ c.DependsOn m (0 < ·) ∧
      (m.base.atomCount ≤ Herbrand.Block.maxId → ∃ l, 0 < l ∧ c.literals = [l]) := by
  obtain ⟨es, hes, hmem, hstrength, hne, hdependencies⟩ := exists_tallied h hrun hc
  obtain ⟨e, he, hliterals, hnegative⟩ : ∃ e ∈ es, e.literals = c.literals ∧
      ¬ IsNonneg e.contribution := by
    by_contra hnone
    have hall : ∀ e ∈ es, e.literals = c.literals → IsNonneg e.contribution := by
      intro e he hliterals
      by_contra hnegative
      exact hnone ⟨e, he, hliterals, hnegative⟩
    rw [isPositive_of_isNonneg signs hstrength (Tally.isNonneg_weight signs hmem hall) hne]
      at hpositive
    cases hpositive
  obtain ⟨clause, literals, hindex, hnan, hzero, hopen, hform⟩ := hes e he
  obtain ⟨hflip, hnonneg, l, hl, rfl, hset⟩ :=
    (hform.isNonneg_or_flipped signs hnan hsplit).resolve_left hnegative
  refine ⟨hflip, ?_, fun hsize => ⟨-l, neg_pos.2 hl, ?_⟩⟩
  · exact dependsOn_of_mem hdependencies he hliterals hindex (signs.pos hnonneg hzero)
  · obtain ⟨-, -, hle, -⟩ := (hopen hsize).unknown l (List.mem_singleton_self l)
    rw [← hliterals, hset, oppositeLiteral_of_le (hle.trans hsize),
      literalSet_of_pairwise (List.pairwise_singleton _ _)]

/-- With flipping, a soft negated unit has a part that was split off. -/
theorem exists_split (signs : KeepsSigns α) (h : m.Built schema)
    (hsize : m.base.atomCount ≤ Herbrand.Block.maxId) {net : Network α}
    {summary : Summary} (hrun : run m settings = .ok (net, summary))
    (hflip : settings.options.flipNegatedUnit = true) {c : Constraint α} (hc : c ∈ net.constraints)
    (hunit : c.IsNegatedUnit) :
    settings.options.splitNegative = true ∧ c.DependsOn m (· < 0) := by
  obtain ⟨es, hes, hmem, hstrength, -, hdependencies⟩ := exists_tallied h hrun hc
  obtain ⟨hsoft, l, hl, hliterals⟩ := hunit
  obtain ⟨e, he, heliterals, hnotHard⟩ : ∃ e ∈ es, e.literals = c.literals ∧
      ¬ (IsNonneg e.contribution ∧ isInfinite e.contribution = true) := by
    by_contra hnone
    have hall : ∀ e ∈ es, e.literals = c.literals →
        IsNonneg e.contribution ∧ isInfinite e.contribution = true := by
      intro e he heliterals
      by_contra hnotHard
      exact hnone ⟨e, he, heliterals, hnotHard⟩
    rw [isHard_of_isInfinite hstrength (Tally.isInfinite_weight signs hmem hall)] at hsoft
    cases hsoft
  obtain ⟨clause, literals, hindex, hnan, -, hopen, hform⟩ := hes e he
  have hbound : ∀ l ∈ literals, l.natAbs ≤ Herbrand.Block.maxId := by
    intro l hl
    obtain ⟨-, -, hle, -⟩ := (hopen hsize).unknown l hl
    exact hle.trans hsize
  obtain ⟨hsplit, hneg⟩ := (hform.isInfinite_or_split signs hnan hflip (hopen hsize).sorted hbound
    hl (heliterals.trans hliterals)).resolve_left hnotHard
  exact ⟨hsplit, dependsOn_of_mem hdependencies he heliterals hindex hneg⟩

/-! ### The main theorem -/

/-- **What the options deliver.**  Ground a model in any arithmetic that keeps
signs, with any number of rounds, cut short or not.  Splitting alone leaves
constraints of positive weight only, and flipping alone leaves no soft negated
unit.  With both, the weights that are not positive are those of positive units
that a clause of positive weight was flipped to, and the soft negated units have
positive weights and were split off from clauses of negative weight.  Where it
matters whether a literal is negative, the model has at most `2 ^ 31 - 1` ground
atoms. -/
theorem run_isNormal (signs : KeepsSigns α) (d : Declarations α) (m : Model α)
    (hbuild : d.build = .ok m) (settings : Settings) (net : Network α) (summary : Summary)
    (hrun : run m settings = .ok (net, summary)) : net.IsNormal m settings.options := by
  obtain ⟨schema, h⟩ := Declarations.built_of_build hbuild
  refine ⟨fun hsplit hflip c hc => ?_, fun hflip hsplit hsize c hc hunit => ?_,
    fun hsplit _ hsize c hc hpositive => ?_, fun hsplit hflip hsize c hc hunit => ?_⟩
  · by_contra hpositive
    have hboth := (exists_flipped signs h hrun hsplit hc (Bool.eq_false_iff.2 hpositive)).1
    rw [hflip] at hboth
    cases hboth
  · have hboth := (exists_split signs h hsize hrun hflip hc hunit).1
    rw [hsplit] at hboth
    cases hboth
  · obtain ⟨-, hdepends, hpositiveUnit⟩ := exists_flipped signs h hrun hsplit hc hpositive
    exact ⟨hpositiveUnit hsize, hdepends⟩
  · refine ⟨?_, (exists_split signs h hsize hrun hflip hc hunit).2⟩
    by_contra hpositive
    -- a weight that is not positive would stand on a positive unit
    obtain ⟨-, -, hpositiveUnit⟩ :=
      exists_flipped signs h hrun hsplit hc (Bool.eq_false_iff.2 hpositive)
    obtain ⟨k, hk, hliterals⟩ := hpositiveUnit hsize
    obtain ⟨-, l, hl, hunit⟩ := hunit
    obtain rfl := List.singleton_inj.1 (hliterals.symm.trans hunit)
    omega

/-! ### Both options at once -/

/-- It rather does not rain, and the street is rather not wet. -/
def dryKb : KnowledgeBase (Extended ℚ) :=
  { rainKb with
    clauses := #[⟨.finite 2, [⟨false, "Rain", []⟩]⟩, ⟨.finite (-3), [⟨true, "Wet", []⟩]⟩] }

/-- Both atoms are asked about. -/
def dryDeclarations : Declarations (Extended ℚ) :=
  { Declarations.ofKnowledgeBase dryKb with query := rainDeclarations.query }

def dryModel : Model (Extended ℚ) :=
  { rainModel with kb := dryKb }

/-- The first clause is to be flipped and the second one to be split. -/
def drySettings : Settings :=
  ⟨⟨true, true⟩, 1, 3, fun _ => 0⟩

theorem build_dry : dryDeclarations.build = .ok dryModel := by
  rw [Declarations.build, Declarations.check_of_computed_empty (d := dryDeclarations) rfl rfl rfl]
  rfl

def dryTemplates : List (Template (Extended ℚ)) :=
  [⟨0, .finite 2, [], [⟨false, .lookUp (openAtom "Rain" 1) [], 0⟩]⟩,
    ⟨1, .finite (-3), [], [⟨true, .lookUp (openAtom "Wet" 2) [], 0⟩]⟩]

theorem templates_dry : templates dryModel = .ok dryTemplates := by
  have hrain : [(⟨false, "Rain", []⟩ : Literal)].mapM (resolve dryModel) =
      .ok [⟨⟨false, "Rain", []⟩, .stored (openAtom "Rain" 1)⟩] := rfl
  have hwet : [(⟨true, "Wet", []⟩ : Literal)].mapM (resolve dryModel) =
      .ok [⟨⟨true, "Wet", []⟩, .stored (openAtom "Wet" 2)⟩] := rfl
  refine mapM_eq_ok_iff.2 (.cons ?_ (.cons ?_ .nil))
  · exact Template.make_of_pairwise rfl hrain (List.pairwise_singleton _ _) rfl rfl
      (List.pairwise_singleton _ _)
  · exact Template.make_of_pairwise rfl hwet (List.pairwise_singleton _ _) rfl rfl
      (List.pairwise_singleton _ _)

/-- The model can be grounded, however it is grounded. -/
theorem exists_run_dry (settings : Settings) :
    ∃ net summary, run dryModel settings = .ok (net, summary) := by
  rw [run, templates_dry]
  exact ⟨_, _, rfl⟩

/-- The network is in the form that both options together deliver. -/
theorem run_isNormal_dry :
    KeepsSigns (Extended ℚ) ∧ dryDeclarations.build = .ok dryModel ∧
      ∃ net summary, run dryModel drySettings = .ok (net, summary) ∧
        net.IsNormal dryModel drySettings.options := by
  obtain ⟨net, summary, hrun⟩ := exists_run_dry drySettings
  exact ⟨Extended.keepsSigns, build_dry, net, summary, hrun,
    run_isNormal Extended.keepsSigns dryDeclarations dryModel build_dry drySettings net summary
      hrun⟩

/-- A clause of one open atom of interest leaves one literal. -/
theorem entriesUnder_openAtom (options : Options) {interest : Nat → Bool} (clause : Nat)
    {w : Extended ℚ} (hw : (w == 0) = false) (positive : Bool) (symbol : String) {id : Nat}
    (hinterest : interest (signedLiteral positive id).natAbs = true) :
    entriesUnder options interest
        ⟨clause, w, [], [⟨positive, .lookUp (openAtom symbol id) [], 0⟩]⟩ =
      entriesOf options clause w [signedLiteral positive id] := by
  have hjudge : judge [] [⟨positive, .lookUp (openAtom symbol id) [], 0⟩] [] =
      .pending [signedLiteral positive id] := by
    simp only [judge, find_openAtom]
    rfl
  have htaut : Harvest.isTautology [signedLiteral positive id] = false := by
    simp [Harvest.isTautology]
    omega
  have hset : literalSet [signedLiteral positive id] = [signedLiteral positive id] :=
    literalSet_of_pairwise (List.pairwise_singleton _ _)
  have hremainder : Template.remainder? (⟨clause, w, [],
      [⟨positive, .lookUp (openAtom symbol id) [], 0⟩]⟩ : Template (Extended ℚ)) [] =
      some [signedLiteral positive id] := by
    rw [Template.remainder?, hjudge, Verdict.remainder?, hset, htaut]
    rfl
  have hcombinations : Odometer.combinations [] = [[]] := rfl
  rw [entriesUnder, hw, if_neg Bool.false_ne_true, Template.radices, List.map_nil, hcombinations,
    List.filterMap_cons_some (f := Template.remainder? _) hremainder]
  simp [touches, hinterest]

/-- The first clause is flipped. -/
def flippedUnit : Entry (Extended ℚ) :=
  .make [1] (.finite 2) 0 (-1)

/-- The second one is split, into a single unit. -/
def splitUnit : Entry (Extended ℚ) :=
  .make [-2] (.finite (-3)) 1 (-1)

/-- The network is assembled from these two. -/
theorem exists_run_units : ∃ net summary, run dryModel drySettings = .ok (net, summary) ∧
    net = Network.assemble ((Register.empty drySettings.key drySettings.partitions).insertAll
      [flippedUnit, splitUnit]).cliques dryModel.unknownQueryAtoms dryModel.base.queryRange := by
  obtain ⟨net, summary, hrun⟩ := exists_run_dry drySettings
  obtain ⟨schema, h⟩ := Declarations.built_of_build build_dry
  have hsize : dryModel.base.atomCount ≤ Herbrand.Block.maxId := by decide
  obtain ⟨ts, e, hts, -, he, hnet, -⟩ := run_eq_ok hrun
  obtain rfl := Except.ok.inj (templates_dry.symm.trans hts)
  have hfull : e.truncated = false := by
    have hcard : (missing dryModel (Std.HashSet.ofList dryModel.unknownQueryAtoms)).card ≤ 2 :=
      (Finset.card_filter_le _ _).trans (Finset.card_filter_le _ _)
    rw [← he]
    exact truncated_expand h hsize hts _ _ (reached_query h) hcard
  -- both atoms are asked about, and what is asked about stays of interest
  have hround := fun (interest : Std.HashSet Nat) (signatures : SignatureSet)
    (hr : Reached dryModel interest signatures) => hr.round h hsize hts drySettings
  obtain ⟨signatures, hr, -⟩ := expand_induction hround _ _ (reached_query h) he hfull
  have hinterest : ∀ id ∈ [1, 2], e.interest.contains id = true := fun id hid =>
    hr.query id (unknownQueryAtoms_rain ▸ hid)
  refine ⟨net, summary, hrun, ?_⟩
  rw [hnet, register_expand h hsize hts drySettings he hfull, dryTemplates, List.flatMap_cons,
    List.flatMap_singleton, entriesUnder_openAtom _ _ rfl _ _ (hinterest 1 (by decide)),
    entriesUnder_openAtom _ _ rfl _ _ (hinterest 2 (by decide))]
  rfl

/-- An entry that is alone over its literals becomes a soft constraint of the weight
that it contributes, unless that is zero. -/
theorem exists_constraint_of_alone (es : List (Entry (Extended ℚ))) (e : Entry (Extended ℚ))
    (halone : (es.filter fun e' => e'.literals = e.literals) = [e]) {x : ℚ}
    (hcontribution : e.contribution = .finite x) (hx : x ≠ 0) (hliterals : e.literals ≠ [])
    (key : List Int → UInt64) (n : Nat) (extra : List Nat) (range : Option (Nat × Nat)) :
    ∃ c ∈ (Network.assemble ((Register.empty key n).insertAll es).cliques extra range).constraints,
      c.literals = e.literals ∧ c.strength = .soft (.finite x) := by
  have hweight : (Tally.ofEntries es e.literals).toClique.weight = .finite x := by
    rw [Tally.toClique, Tally.ofEntries, Tally.sharesOf, halone, ← hcontribution]
    exact Extended.zero_add_eq e.contribution
  have he : e ∈ es := (List.mem_filter.1 (halone ▸ List.mem_singleton_self e)).1
  have hkept : Network.isKept (key e.literals, (Tally.ofEntries es e.literals).toClique) = true :=
    (Network.isKept_iff hliterals (a := (x : WithTop ℚ)) hweight).2 (WithTop.coe_ne_zero.2 hx)
  obtain ⟨c, hc, hembodies⟩ := Network.exists_constraint he hkept extra range
  have hstrength :
      c.strength = Network.strengthOf (Tally.ofEntries es e.literals).toClique.weight :=
    congrArg Constraint.strength hembodies
  refine ⟨c, hc, congrArg Constraint.literals hembodies, ?_⟩
  rw [hstrength, hweight]
  rfl

/-- **With both options on, neither keeps its promise**: the flipped clause leaves a
negative weight, and the split one leaves a soft negated unit. -/
theorem forms_fail_dry :
    dryDeclarations.build = .ok dryModel ∧
      ∃ net summary, run dryModel drySettings = .ok (net, summary) ∧
        ¬ (drySettings.options.splitNegative = true →
          ∀ c ∈ net.constraints, c.isPositive = true) ∧
        ¬ (drySettings.options.flipNegatedUnit = true →
          ∀ c ∈ net.constraints, ¬ c.IsNegatedUnit) := by
  obtain ⟨net, summary, hrun, rfl⟩ := exists_run_units
  refine ⟨build_dry, _, summary, hrun, fun hall => ?_, fun hall => ?_⟩
  · have hcontribution : flippedUnit.contribution = .finite (-2) := by
      simp [flippedUnit, Entry.contribution, Entry.make]
    obtain ⟨c, hc, -, hstrength⟩ := exists_constraint_of_alone [flippedUnit, splitUnit] flippedUnit
      rfl hcontribution (by decide) (by decide) _ _ _ _
    have hnegative : c.isPositive = false := by
      rw [Constraint.isPositive, hstrength]
      rfl
    exact Bool.false_ne_true (hnegative.symm.trans (hall rfl c hc))
  · have hcontribution : splitUnit.contribution = .finite 3 := by
      simp [splitUnit, Entry.contribution, Entry.make]
    obtain ⟨c, hc, hliterals, hstrength⟩ := exists_constraint_of_alone [flippedUnit, splitUnit]
      splitUnit rfl hcontribution (by decide) (by decide) _ _ _ _
    have hsoft : c.isHard = false := by
      rw [Constraint.isHard, hstrength]
    exact hall rfl c hc ⟨hsoft, -2, by decide, hliterals⟩

end Grounding

end MarkovLogic
