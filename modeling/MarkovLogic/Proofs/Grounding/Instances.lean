/-
MarkovLogic/Proofs/Grounding/Instances.lean

Grounding one clause finds its first-order instances.

Grounding hands sets of literals over for registration (`stored`).  They are
described here without sources, digits and pivots: over all functions from the
variables of the clause to names, a function contributes the set of its unknown
literals if it leaves the clause open (`Model.LeavesOpen`).  It does so if the
arguments of declared predicates are in their domains, wherever a variable
stands and whatever its other positions are, if neither evidence nor a rule
satisfies a literal, and if the unknown literals are some and no two of them
are opposite.

The variables take their domains from the literal that comes first in an order
of the sources, and they are found again by name in the other positions.  That
order leaves no trace in the description, so the order in which the literals
are written leaves none either, nor does it decide whether the clause can be
grounded at all (`exists_make_iff`).

Main statement: `stored_instances`.
-/
import MarkovLogic.Proofs.Grounding.Interest

namespace MarkovLogic

open Grounding

/-! ### Substitutions that leave a clause open -/

theorem Truth.toBool?_eq_some_iff {t : Truth} {b : Bool} : t.toBool? = some b ↔ t = .ofBool b := by
  cases t <;> cases b <;> simp [toBool?, ofBool]

namespace Model

variable {α : Type} {m : Model α}

/-- The signed numbers of the literals whose atoms are unknown. -/
def unknowns (m : Model α) (literals : List Literal) (σ : String → String) : Finset Int :=
  (literals.filterMap (m.unknownLiteral? σ)).toFinset

/-- Under the substitution the clause is neither satisfied nor without meaning
nor decided. -/
structure LeavesOpen (m : Model α) (literals : List Literal) (σ : String → String) : Prop where
  /-- The arguments of declared predicates, variables and constants alike, are in
  their domains. -/
  typed : ∀ l ∈ literals, m.kb.schema.contains l.atom.signature = true →
    m.HasAtom l.atom.signature (l.atom.terms.map (Term.under σ))
  /-- Evidence satisfies no literal. -/
  unsatisfied : ∀ l ∈ literals, ∀ id,
    m.base.encode? l.atom.signature (l.atom.terms.map (Term.under σ)) = some id →
      m.truth id ≠ .ofBool l.positive
  /-- No rule satisfies a literal of a predicate that is not declared. -/
  uncomputed : ∀ l ∈ literals, m.kb.schema.contains l.atom.signature = false →
    ∀ rule, m.kb.computed.rule? l.atom.signature = some (some rule) →
      rule (l.atom.terms.map (Term.under σ)) ≠ l.positive
  nonempty : (m.unknowns literals σ).Nonempty
  consistent : ∀ x ∈ m.unknowns literals σ, -x ∉ m.unknowns literals σ

/-- A literal with a source does not settle its clause if its atom exists and
does not make it true. -/
theorem settles_eq_false_iff {d : Declarations α} (hbuild : d.build = .ok m)
    {σ : String → String} {l : Literal} {r : Resolved} (hr : resolve m l = .ok r) :
    m.settles σ l = false ↔
      (m.kb.schema.contains l.atom.signature = true →
        m.HasAtom l.atom.signature (l.atom.terms.map (Term.under σ))) ∧
      (∀ id, m.base.encode? l.atom.signature (l.atom.terms.map (Term.under σ)) = some id →
        m.truth id ≠ .ofBool l.positive) ∧
      (m.kb.schema.contains l.atom.signature = false →
        ∀ rule, m.kb.computed.rule? l.atom.signature = some (some rule) →
          rule (l.atom.terms.map (Term.under σ)) ≠ l.positive) := by
  obtain ⟨schema, h⟩ := Declarations.built_of_build hbuild
  rw [← encode?_isSome_iff hbuild]
  rcases hdeclared : m.kb.schema.contains l.atom.signature with _ | _
  · -- no source but a rule is left
    obtain ⟨rule, hrule⟩ : ∃ rule, m.kb.computed.rule? l.atom.signature = some (some rule) := by
      obtain ⟨-, ⟨e, -, he⟩ | ⟨rule, -, -, hrule⟩⟩ := resolve_eq_ok hr
      · rw [h.contains_schema_iff.2 ⟨e, he⟩] at hdeclared
        cases hdeclared
      · exact ⟨rule, hrule⟩
    have hnone : m.base.encode? l.atom.signature (l.atom.terms.map (Term.under σ)) = none := by
      rw [← Option.not_isSome_iff_eq_none, encode?_isSome_iff hbuild]
      rintro ⟨types, htypes, -⟩
      rw [Std.TreeMap.contains_eq_isSome_getElem?, htypes] at hdeclared
      cases hdeclared
    simp [settles, finding, hdeclared, hrule, hnone]
  · rcases hid : m.base.encode? l.atom.signature (l.atom.terms.map (Term.under σ)) with _ | id
    · simp [settles, finding, hdeclared, hid]
    · have hknown := Truth.toBool?_eq_some_iff (t := m.truth id) (b := l.positive)
      rcases htruth : (m.truth id).toBool? with _ | value
      · rw [htruth] at hknown
        simp [settles, finding, hdeclared, hid, htruth, ← hknown]
      · rw [htruth] at hknown
        simp [settles, finding, hdeclared, hid, htruth, ← hknown]

/-- Something remains of a clause exactly if the substitution leaves it open, and
then it is the set of the unknown literals. -/
theorem remainder_isSome_iff {d : Declarations α} (hbuild : d.build = .ok m)
    {literals : List Literal} (hsources : ∀ l ∈ literals, ∃ r, resolve m l = .ok r)
    (σ : String → String) : (m.remainder literals σ).isSome ↔ m.LeavesOpen literals σ := by
  have hsettles : literals.any (m.settles σ) = false ↔ ∀ l ∈ literals, m.settles σ l = false := by
    simp only [List.any_eq_false, Bool.not_eq_true]
  have hempty : (literalSet (literals.filterMap (m.unknownLiteral? σ))).isEmpty = false ↔
      (m.unknowns literals σ).Nonempty := by
    rw [List.isEmpty_eq_false_iff_exists_mem]
    simp only [mem_literalSet, unknowns, Finset.Nonempty, List.mem_toFinset]
  have hopposite : ((literalSet (literals.filterMap (m.unknownLiteral? σ))).any fun x =>
      (literalSet (literals.filterMap (m.unknownLiteral? σ))).contains (-x)) = false ↔
      ∀ x ∈ m.unknowns literals σ, -x ∉ m.unknowns literals σ := by
    simp only [List.any_eq_false, List.contains_iff_mem, mem_literalSet, unknowns,
      List.mem_toFinset]
  have hsome : (m.remainder literals σ).isSome ↔ literals.any (m.settles σ) = false ∧
      (literalSet (literals.filterMap (m.unknownLiteral? σ))).isEmpty = false ∧
      ((literalSet (literals.filterMap (m.unknownLiteral? σ))).any fun x =>
        (literalSet (literals.filterMap (m.unknownLiteral? σ))).contains (-x)) = false := by
    rw [remainder]
    split
    · rename_i hnone
      simp only [Bool.or_eq_true] at hnone
      simp only [Option.isSome_none, Bool.false_eq_true, false_iff]
      rintro ⟨hs, he, ho⟩
      rw [hs, he, ho] at hnone
      simp at hnone
    · rename_i hopen
      simpa [and_assoc] using hopen
  rw [hsome, hsettles, hempty, hopposite]
  constructor
  · rintro ⟨hs, he, ho⟩
    have hopen (l : Literal) (hl : l ∈ literals) :=
      (settles_eq_false_iff hbuild (hsources l hl).choose_spec).1 (hs l hl)
    exact ⟨fun l hl => (hopen l hl).1, fun l hl => (hopen l hl).2.1,
      fun l hl => (hopen l hl).2.2, he, ho⟩
  · intro h
    refine ⟨fun l hl => ?_, h.nonempty, h.consistent⟩
    obtain ⟨r, hr⟩ := hsources l hl
    exact (settles_eq_false_iff hbuild hr).2
      ⟨h.typed l hl, h.unsatisfied l hl, h.uncomputed l hl⟩

theorem toFinset_of_remainder {literals : List Literal} {σ : String → String} {rest : List Int}
    (h : m.remainder literals σ = some rest) : rest.toFinset = m.unknowns literals σ := by
  ext x
  rw [(remainder_eq_some h).2.1, List.mem_toFinset, mem_literalSet, unknowns, List.mem_toFinset]

/-- The order of the literals does not matter. -/
theorem remainder_perm {literals literals' : List Literal} (h : literals'.Perm literals)
    (σ : String → String) : m.remainder literals' σ = m.remainder literals σ := by
  have hset : literalSet (literals'.filterMap (m.unknownLiteral? σ)) =
      literalSet (literals.filterMap (m.unknownLiteral? σ)) :=
    literalSet_congr fun x => (h.filterMap _).mem_iff
  rw [remainder, remainder, h.any_eq, hset]

end Model

/-! ### Functions on the variables of a clause -/

/-- A function on some variables as a substitution; every other name stays
blank. -/
def blankOutside {vs : List String} (σ : {v // v ∈ vs} → String) (v : String) : String :=
  if h : v ∈ vs then σ ⟨v, h⟩ else ""

theorem blankOutside_restrict {names vs : List String} (hvs : vs.Nodup) {σ : String → String}
    (hσ : σ ∈ substitutions names vs) : blankOutside (fun v : {v // v ∈ vs} => σ v) = σ := by
  funext v
  by_cases hv : v ∈ vs
  · rw [blankOutside, dif_pos hv]
  · rw [blankOutside, dif_neg hv, ((mem_substitutions_iff hvs).1 hσ).2 v hv]

theorem substitutions_perm {names vs vs' : List String} (hnames : names.Nodup) (hvs : vs.Nodup)
    (hvs' : vs'.Nodup) (h : ∀ v, v ∈ vs' ↔ v ∈ vs) :
    (substitutions names vs').Perm (substitutions names vs) := by
  refine (List.perm_ext_iff_of_nodup (nodup_substitutions hnames hvs')
    (nodup_substitutions hnames hvs)).2 fun σ => ?_
  rw [mem_substitutions_iff hvs', mem_substitutions_iff hvs]
  simp only [h]

namespace Grounding

variable {α : Type} [Scalar α] {m : Model α} {index : Nat} {c : Clause α} {t : Template α}

/-! ### Clauses that can be grounded -/

omit [Scalar α] in
theorem exists_domainOf?_iff {rs : List Resolved} {v : String} :
    (∃ domain, domainOf? rs v = some domain) ↔
      ∃ r ∈ rs, ∃ domain, (Term.var v, domain) ∈ r.typedTerms := by
  rw [domainOf?, ← Option.isSome_iff_exists, List.findSome?_isSome_iff]
  constructor
  · rintro ⟨⟨t, domain⟩, htyped, hfound⟩
    obtain ⟨r, hr, htyped⟩ := List.mem_flatMap.1 htyped
    obtain rfl : t = .var v := by
      by_contra hne
      simp [hne] at hfound
    exact ⟨r, hr, domain, htyped⟩
  · rintro ⟨r, hr, domain, htyped⟩
    exact ⟨(.var v, domain), List.mem_flatMap.2 ⟨r, hr, htyped⟩, by simp⟩

/-- Which clauses can be grounded: those of a weight that is a number, whose
literals have sources, and whose variables stand for constants of some type. -/
theorem exists_make_iff : (∃ t, Template.make m index c = .ok t) ↔
    Scalar.isNaN c.weight = false ∧ (∀ l ∈ c.literals, ∃ r, resolve m l = .ok r) ∧
      ∀ v ∈ c.vars, ∃ l ∈ c.literals, ∃ r, resolve m l = .ok r ∧
        ∃ domain, (Term.var v, domain) ∈ r.typedTerms := by
  have hvars : ∀ {resolved}, List.Forall₂ (fun l r => resolve m l = .ok r) c.literals resolved →
      ∀ v, v ∈ variablesOf (ordered resolved) ↔ v ∈ c.vars := fun hresolved v => by
    rw [mem_variablesOf_iff hresolved, Clause.vars, List.mem_eraseDups, List.mem_flatMap]
    simp only [Atom.mem_vars_iff]
  constructor
  · rintro ⟨t, hmake⟩
    obtain ⟨-, -, hnan, resolved, hresolved, hdigits, -⟩ := exists_resolved hmake
    refine ⟨hnan, fun l hl => ?_, fun v hv => ?_⟩
    · obtain ⟨r, -, hr⟩ := exists_mem_of_forall₂ hresolved.flip hl
      exact ⟨r, hr⟩
    · obtain ⟨d, -, -, hdomain⟩ := exists_digit hdigits ((hvars hresolved v).2 hv)
      obtain ⟨r, hr, htyped⟩ := exists_domainOf?_iff.1 ⟨_, hdomain⟩
      obtain ⟨l, hl, hlr⟩ := exists_mem_of_forall₂ hresolved (List.mem_mergeSort.1 hr)
      exact ⟨l, hl, r, hlr, htyped⟩
  · rintro ⟨hnan, hsources, htyped⟩
    obtain ⟨resolved, hresolve⟩ := exists_mapM_eq_ok_iff.2 hsources
    have hresolved := mapM_eq_ok_iff.1 hresolve
    obtain ⟨digits, hdigits⟩ : ∃ digits, digitsOf index (ordered resolved) = .ok digits := by
      refine exists_mapM_eq_ok_iff.2 fun v hv => ?_
      obtain ⟨l, hl, r, hr, hdomain⟩ := htyped v ((hvars hresolved v).1 (List.mem_reverse.1 hv))
      obtain ⟨r', hr', hlr'⟩ := exists_mem_of_forall₂ hresolved.flip hl
      obtain rfl : r = r' := Except.ok.inj (hr.symm.trans hlr')
      have hordered : r ∈ ordered resolved := List.mem_mergeSort.2 hr'
      obtain ⟨domain, hdomain⟩ := exists_domainOf?_iff.2 ⟨r, hordered, hdomain⟩
      exact ⟨⟨v, domain⟩, by rw [hdomain]⟩
    refine ⟨⟨index, c.weight, digits, probesOf digits (ordered resolved)⟩, ?_⟩
    rw [ordered] at hdigits
    rw [Template.make, hnan, hresolve]
    simp only [Bool.false_eq_true, if_false, bind, Except.bind, hdigits]
    rfl

/-! ### What is handed over -/

/-- The sets of literals that grounding a clause registers entries of, in the
order in which it comes to them. -/
def stored (t : Template α) (interest : Nat → Bool) : List (List Int) :=
  if t.weight == 0 then []
  else
    ((Harvest.visited Odometer.skipPast t (Odometer.start t.radices).size
      (Odometer.start t.radices)).filterMap t.remainder?).filter (touches interest)

/-- The entries are those of the sets that are handed over. -/
theorem entries_eq_flatMap_stored (t : Template α) (options : Options) (interest : Nat → Bool) :
    (harvest t options interest).entries.toList =
      (stored t interest).flatMap (entriesOf options t.clause t.weight) := by
  rw [harvest, stored]
  split
  · rfl
  · rw [Harvest.walk_eq_foldl, entries_foldl_visit]
    rfl

omit [Scalar α] in
/-- Decided combinations leave nothing. -/
theorem filterMap_remainder?_filter (t : Template α) (dss : List (List Nat)) :
    (dss.filter (Harvest.isUndecided t)).filterMap t.remainder? = dss.filterMap t.remainder? := by
  rw [List.filterMap_filter]
  refine List.filterMap_congr fun ds _ => ?_
  rw [Harvest.isUndecided, Template.remainder?]
  rcases judge ds t.probes [] with _ | _ | _ | _ <;> rfl

/-- What is handed over is what all combinations leave and touches an atom of
interest. -/
theorem stored_eq (hmake : Template.make m index c = .ok t) (interest : Nat → Bool) :
    stored t interest = if t.weight == 0 then [] else
      ((Odometer.combinations t.radices).filterMap t.remainder?).filter (touches interest) := by
  rw [stored, ← filterMap_remainder?_filter t (Harvest.visited _ _ _ _),
    Harvest.filter_visited_start (askedByPivot_of_make hmake), filterMap_remainder?_filter]

/-- With every atom of interest, it is what remains under all substitutions. -/
theorem stored_perm {schema : List (Signature × List Domain)} (h : m.Built schema)
    (hsize : m.base.atomCount ≤ Herbrand.Block.maxId) (hweight : (c.weight == 0) = false)
    (hmake : Template.make m index c = .ok t) {interest : Nat → Bool}
    (hinterest : ∀ id, 1 ≤ id → id ≤ m.base.atomCount → interest id = true) :
    (stored t interest).Perm
      ((substitutions m.constants c.vars).filterMap (m.remainder c.literals)) := by
  have hall : ((Odometer.combinations t.radices).filterMap t.remainder?).filter
      (touches interest) = (Odometer.combinations t.radices).filterMap t.remainder? := by
    refine List.filter_eq_self.2 fun rest hrest => ?_
    obtain ⟨σ, hσ⟩ := exists_remainder h hsize hmake hrest
    obtain ⟨x, hx⟩ := List.exists_mem_of_ne_nil rest (remainder_eq_some hσ).2.2
    obtain ⟨-, -, l, -, block, howner, -⟩ := unknown_of_remainder h hσ hx
    have hbounds := (Herbrand.Base.owner?_isSome_iff h.base).1 (Option.isSome_of_eq_some howner)
    exact List.any_eq_true.2 ⟨x, hx, hinterest _ hbounds.1 hbounds.2⟩
  rw [stored_eq hmake, (exists_resolved hmake).2.1, hweight, if_neg Bool.false_ne_true, hall]
  exact (remainders_perm h hsize hmake).symm

/-! ### Instances -/

/-- What remains under all substitutions are the unknown literals of those that
leave the clause open. -/
theorem exists_finset_remainders {d : Declarations α} (hbuild : d.build = .ok m)
    (hmake : Template.make m index c = .ok t) :
    ∃ F : Finset ({v // v ∈ c.vars} → String),
      (∀ σ, σ ∈ F ↔ m.LeavesOpen c.literals (blankOutside σ)) ∧
      (((substitutions m.constants c.vars).filterMap (m.remainder c.literals)).map List.toFinset :
        Multiset (Finset Int)) = F.val.map fun σ => m.unknowns c.literals (blankOutside σ) := by
  obtain ⟨schema, h⟩ := Declarations.built_of_build hbuild
  have hsources := (exists_make_iff.1 ⟨t, hmake⟩).2.1
  have hvars : c.vars.Nodup := nodup_eraseDups _
  let all := substitutions m.constants c.vars
  let restrict (σ : String → String) (v : {v // v ∈ c.vars}) : String := σ v
  let leaving := all.filter fun σ => (m.remainder c.literals σ).isSome
  have hback : ∀ σ ∈ leaving, blankOutside (restrict σ) = σ := fun σ hσ =>
    blankOutside_restrict hvars (List.mem_of_mem_filter hσ)
  have hnodup : (leaving.map restrict).Nodup := by
    refine List.Nodup.map_on ?_ ((nodup_substitutions (nodup_eraseDups _) hvars).filter _)
    intro σ hσ τ hτ heq
    rw [← hback σ hσ, heq, hback τ hτ]
  refine ⟨⟨(leaving.map restrict : List _), Multiset.coe_nodup.2 hnodup⟩, fun σ => ?_, ?_⟩
  · rw [Finset.mem_mk, Multiset.mem_coe, List.mem_map, ← Model.remainder_isSome_iff hbuild hsources]
    constructor
    · rintro ⟨τ, hτ, rfl⟩
      rw [hback τ hτ]
      exact (List.mem_filter.1 hτ).2
    · intro hsome
      obtain ⟨rest, hrest⟩ := Option.isSome_iff_exists.1 hsome
      have hty := typing_of_make h hmake
      -- each variable stands in an argument whose domain has its name
      refine ⟨blankOutside σ, List.mem_filter.2 ⟨(mem_substitutions_iff hvars).2
        ⟨fun v hv => ?_, fun v hv => dif_neg hv⟩, hsome⟩, funext fun v => dif_pos v.2⟩
      obtain ⟨digit, hdigit, rfl⟩ := List.mem_map.1 ((hty.mem_vars_iff v).1 hv)
      obtain ⟨l, hl, e, he, hsig, hzip⟩ := hty.argument digit hdigit
      exact mem_constants h he (List.of_mem_zip hzip).2
        (mem_domain_of_remainder h hrest hl he hsig hzip)
  · have hleft : (all.filterMap (m.remainder c.literals)).map List.toFinset =
        leaving.map (m.unknowns c.literals) := by
      rw [List.map_filterMap, ← List.filterMap_eq_map, List.filterMap_filter]
      refine List.filterMap_congr fun σ _ => ?_
      rcases hrest : m.remainder c.literals σ with _ | rest
      · rfl
      · rw [Option.map_some, Model.toFinset_of_remainder hrest]
        rfl
    have hright : (leaving.map restrict).map (fun σ => m.unknowns c.literals (blankOutside σ)) =
        leaving.map (m.unknowns c.literals) := by
      rw [List.map_map]
      exact List.map_congr_left fun σ hσ => congrArg (m.unknowns c.literals) (hback σ hσ)
    rw [Multiset.map_coe, hright, ← hleft]

/-- What is handed over are the first-order instances of the clause. -/
structure Instantiates (m : Model α) (c : Clause α) (t : Template α) (interest : Nat → Bool) :
    Prop where
  /-- Nothing else is registered. -/
  entries : ∀ options, (harvest t options interest).entries.toList =
    (stored t interest).flatMap (entriesOf options t.clause t.weight)
  /-- The functions that leave the clause open contribute their unknown literals,
  and each set is handed over as often as it is contributed. -/
  instances : ∃ F : Finset ({v // v ∈ c.vars} → String),
    (∀ σ, σ ∈ F ↔ m.LeavesOpen c.literals (blankOutside σ)) ∧
      ((stored t interest).map List.toFinset : Multiset (Finset Int)) =
        F.val.map fun σ => m.unknowns c.literals (blankOutside σ)
  /-- With its literals in another order the clause can be grounded too, and
  nothing else is handed over. -/
  reordered : ∀ (index' : Nat) (c' : Clause α), c'.weight = c.weight →
    c'.literals.Perm c.literals → ∃ t', Template.make m index' c' = .ok t' ∧
      (stored t' interest).Perm (stored t interest)

/-- **Grounding one clause hands over its first-order instances**, for every
clause that can be grounded and does not weigh zero, in a model of at most
`2 ^ 31 - 1` ground atoms, all of interest. -/
theorem stored_instances (d : Declarations α) (m : Model α) (hbuild : d.build = .ok m)
    (hsize : m.base.atomCount ≤ Herbrand.Block.maxId) (index : Nat) (c : Clause α)
    (hweight : (c.weight == 0) = false) (t : Template α) (hmake : Template.make m index c = .ok t)
    (interest : Nat → Bool)
    (hinterest : ∀ id, 1 ≤ id → id ≤ m.base.atomCount → interest id = true) :
    Instantiates m c t interest := by
  obtain ⟨schema, h⟩ := Declarations.built_of_build hbuild
  have hstored := stored_perm h hsize hweight hmake hinterest
  refine ⟨fun options => entries_eq_flatMap_stored t options interest, ?_, ?_⟩
  · obtain ⟨F, hmem, hF⟩ := exists_finset_remainders hbuild hmake
    exact ⟨F, hmem, (Multiset.coe_eq_coe.2 (hstored.map _)).trans hF⟩
  · intro index' c' hsame hperm
    have hvars : ∀ v, v ∈ c'.vars ↔ v ∈ c.vars := fun v => by
      rw [Clause.vars, Clause.vars, List.mem_eraseDups, List.mem_eraseDups, List.mem_flatMap,
        List.mem_flatMap]
      simp only [hperm.mem_iff]
    obtain ⟨t', hmake'⟩ : ∃ t', Template.make m index' c' = .ok t' := by
      rw [exists_make_iff, hsame]
      simp only [hperm.mem_iff, hvars]
      exact exists_make_iff.1 ⟨t, hmake⟩
    have hstored' := stored_perm h hsize (hsame ▸ hweight) hmake' hinterest
    have hremainder : m.remainder c'.literals = m.remainder c.literals :=
      funext fun σ => Model.remainder_perm hperm σ
    rw [hremainder] at hstored'
    exact ⟨t', hmake', (hstored'.trans ((substitutions_perm (nodup_eraseDups _) (nodup_eraseDups _)
      (nodup_eraseDups _) hvars).filterMap _)).trans hstored.symm⟩

/-! ### A variable of two types -/

/-- Children play and adults work; Bob is both. -/
def townKb : KnowledgeBase (Extended ℚ) :=
  { ((KnowledgeBase.empty : KnowledgeBase (Extended ℚ)).declarePredicate "Plays" ["child"]
      |>.declarePredicate "Works" ["adult"]
      |>.declareConstants "child" ["Anna", "Bob"]).declareConstants "adult" ["Bob", "Carl"] with
    computed := Computed.empty.register "equals" 2 (Computed.binary fun a b => a == b) }

def townDeclarations : Declarations (Extended ℚ) :=
  { Declarations.ofKnowledgeBase townKb with
    query := Std.TreeSet.ofList [⟨"Plays", 1⟩] compare
    openWorld := Std.TreeSet.ofList [⟨"Works", 1⟩] compare }

/-- Whoever works does not play, except for Anna. -/
def townClause : Clause (Extended ℚ) :=
  ⟨.finite 2, [⟨false, "Works", [.var "x"]⟩, ⟨false, "Plays", [.var "x"]⟩,
    ⟨true, "equals", [.var "x", .constant "Anna"]⟩]⟩

def children : Domain :=
  ["Anna", "Bob"].foldl Domain.insert Domain.empty

def adults : Domain :=
  ["Bob", "Carl"].foldl Domain.insert Domain.empty

def townModel : Model (Extended ℚ) :=
  { kb := townKb, domains := townKb.constants
    base := ⟨[⟨⟨"Plays", 1⟩, 1, [children]⟩, ⟨⟨"Works", 1⟩, 3, [adults]⟩], 5, some (1, 2)⟩
    evidence := [.empty ⟨⟨"Plays", 1⟩, 1, [children]⟩ .open,
      .empty ⟨⟨"Works", 1⟩, 3, [adults]⟩ .open]
    query := Std.TreeSet.ofList [⟨"Plays", 1⟩] compare, annotation := none }

theorem build_town : townDeclarations.build = .ok townModel := by
  have hchildren : children.size = 2 := by
    simp [children, Domain.size_eq_length, Domain.toList_insert]
  have hadults : adults.size = 2 := by
    simp [adults, Domain.size_eq_length, Domain.toList_insert]
  have hcheck : townDeclarations.check = .ok () := rfl
  have hdomains : townDeclarations.domains = .ok townKb.constants := rfl
  have hbase : Herbrand.Base.build [(⟨"Plays", 1⟩, [children]), (⟨"Works", 1⟩, [adults])]
      townDeclarations.query.contains = .ok townModel.base := by
    have hplays : townDeclarations.query.contains ⟨"Plays", 1⟩ = true := rfl
    have hworks : townDeclarations.query.contains ⟨"Works", 1⟩ = false := rfl
    simp [townModel, Herbrand.Base.build, Herbrand.Base.layOut, Herbrand.Block.make,
      Herbrand.Block.checkedSize, Herbrand.Block.stop, Herbrand.Block.size, Herbrand.Block.sizes,
      Herbrand.volume, Herbrand.Block.maxId, Herbrand.Block.maxProduct, hchildren, hadults, hplays,
      hworks, bind, Except.bind, pure, Except.pure]
  have hrest : townDeclarations.build =
      ((Herbrand.Base.build [(⟨"Plays", 1⟩, [children]), (⟨"Works", 1⟩, [adults])]
        townDeclarations.query.contains).mapError .numbering >>= fun base =>
          .ok ⟨townKb, townKb.constants, base, base.blocks.map fun b =>
            .empty b (townDeclarations.assumption b.signature), townDeclarations.query, none⟩) :=
    rfl
  rw [hrest, hbase]
  rfl

/-- The variable has a domain, so the clause can be grounded. -/
theorem exists_make_town : ∃ t, Template.make townModel 0 townClause = .ok t := by
  have hworks : resolve townModel ⟨false, "Works", [.var "x"]⟩ =
      .ok ⟨⟨false, "Works", [.var "x"]⟩, .stored (.empty ⟨⟨"Works", 1⟩, 3, [adults]⟩ .open)⟩ := rfl
  have hplays : resolve townModel ⟨false, "Plays", [.var "x"]⟩ =
      .ok ⟨⟨false, "Plays", [.var "x"]⟩, .stored (.empty ⟨⟨"Plays", 1⟩, 1, [children]⟩ .open)⟩ :=
    rfl
  have hequals : ∃ r, resolve townModel ⟨true, "equals", [.var "x", .constant "Anna"]⟩ = .ok r := by
    have hrule : townModel.kb.computed.rule? ⟨"equals", 2⟩ =
        some (some (Computed.binary fun a b => a == b)) := Std.HashMap.getElem?_insert_self
    have hnone : townModel.evidenceOf? ⟨"equals", 2⟩ = none := rfl
    refine ⟨⟨⟨true, "equals", [.var "x", .constant "Anna"]⟩,
      .computed (Computed.binary fun a b => a == b)⟩, ?_⟩
    simp only [resolve, Atom.signature, List.length_cons, List.length_nil, hnone, hrule]
  refine exists_make_iff.2 ⟨rfl, ?_, fun v hv => ?_⟩
  · simp only [townClause, List.forall_mem_cons]
    exact ⟨⟨_, hworks⟩, ⟨_, hplays⟩, hequals, by simp⟩
  · obtain rfl : v = "x" := by
      have hvars : townClause.vars = ["x"] := by decide
      simpa [hvars] using hv
    exact ⟨_, List.mem_cons_self, _, hworks, adults, List.mem_cons_self⟩

theorem stored_instances_town :
    townDeclarations.build = .ok townModel ∧ townModel.base.atomCount ≤ Herbrand.Block.maxId ∧
      (townClause.weight == 0) = false ∧
      (∀ id, 1 ≤ id → id ≤ townModel.base.atomCount → (fun _ => true : Nat → Bool) id = true) ∧
      ∃ t, Template.make townModel 0 townClause = .ok t ∧
        Instantiates townModel townClause t fun _ => true := by
  obtain ⟨t, hmake⟩ := exists_make_town
  have hsize : townModel.base.atomCount ≤ Herbrand.Block.maxId := by decide
  refine ⟨build_town, hsize, rfl, fun _ _ _ => rfl, t, hmake, ?_⟩
  exact stored_instances townDeclarations townModel build_town hsize 0 townClause rfl t hmake _
    fun _ _ _ => rfl

end Grounding

end MarkovLogic
