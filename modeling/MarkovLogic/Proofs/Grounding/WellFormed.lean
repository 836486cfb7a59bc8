/-
MarkovLogic/Proofs/Grounding/WellFormed.lean

Grounded networks are well-formed.

Search and linear programs take for granted that a constraint has literals, that
it mentions no atom twice and that its atoms are unknown.  What remains of a
clause under a substitution has these properties (`isOpenClause_of_remainder`),
rewriting it into entries keeps them (`isOpenClause_of_mem_entriesUnder`), and
the register and the assembly only collect the entries.  The register has one
clique for each set of literals, and the assembly keeps their order.

Nothing is assumed about addition: the properties are about literals and not
about weights.

Main statement: `run_isWellFormed`.
-/
import MarkovLogic.Proofs.Clique.Accumulation
import MarkovLogic.Proofs.Grounding.Closure

namespace MarkovLogic

/-! ### Open clauses -/

/-- A disjunction that the evidence leaves open: literals over unknown atoms of
the model, in increasing order, with no atom twice. -/
structure Model.IsOpenClause {α : Type} (m : Model α) (literals : List Int) : Prop where
  nonempty : literals ≠ []
  sorted : literals.Pairwise (· < ·)
  /-- No atom stands in both polarities. -/
  consistent : ∀ l ∈ literals, -l ∉ literals
  /-- No literal is zero, and each is about an unknown atom of the model. -/
  unknown : ∀ l ∈ literals, l ≠ 0 ∧ 1 ≤ l.natAbs ∧ l.natAbs ≤ m.base.atomCount ∧
    m.truth l.natAbs = .unknown

/-- What search and linear programs take for granted of a network. -/
structure Network.IsWellFormed {α : Type} (net : Network α) (m : Model α)
    (key : List Int → UInt64) : Prop where
  isOpenClause : ∀ c ∈ net.constraints, m.IsOpenClause c.literals
  /-- No two constraints have the same literals. -/
  nodup : (net.constraints.toList.map Constraint.literals).Nodup
  key_eq : ∀ c ∈ net.constraints, c.key = key c.literals
  /-- The constraints are in strictly increasing order, by key and then by
  literals. -/
  sorted : net.constraints.toList.Pairwise fun a b =>
    (compare a.key b.key).then (compare a.literals b.literals) = .lt
  /-- The unknown atoms that are asked about are nodes. -/
  query : ∀ id, m.IsUnknownAtom id → m.base.isQueryAtom id = true →
    ∃ place, net.find? id = some place ∧ (net.nodes[place]?).map Node.id = some id

namespace Grounding

variable {α : Type} {m : Model α} {schema : List (Signature × List Domain)}

/-- What remains of a clause is open. -/
theorem isOpenClause_of_remainder (h : m.Built schema) {literals : List Literal}
    {σ : String → String} {rest : List Int} (hrest : m.remainder literals σ = some rest) :
    m.IsOpenClause rest where
  nonempty := (remainder_eq_some hrest).2.2
  sorted := by
    rw [(remainder_eq_some hrest).2.1]
    exact pairwise_literalSet _
  consistent := by
    unfold Model.remainder at hrest
    dsimp only at hrest
    split at hrest
    · cases hrest
    · rename_i hopen
      obtain rfl := Option.some.inj hrest
      rw [Bool.or_eq_true, not_or, Bool.not_eq_true, Bool.not_eq_true, List.any_eq_false] at hopen
      simpa using hopen.2
  unknown l hl := by
    obtain ⟨hne, htruth, -, -, block, howner, -⟩ := unknown_of_remainder h hrest hl
    have hbounds := (Herbrand.Base.owner?_isSome_iff h.base).1 (Option.isSome_of_eq_some howner)
    exact ⟨hne, hbounds.1, hbounds.2, htruth⟩

/-- So is the opposite of one of its literals. -/
theorem isOpenClause_opposite (hsize : m.base.atomCount ≤ Herbrand.Block.maxId)
    {literals : List Int} (hopen : m.IsOpenClause literals) {l : Int} (hl : l ∈ literals) :
    m.IsOpenClause [oppositeLiteral l] := by
  obtain ⟨hne, hlow, hhigh, htruth⟩ := hopen.unknown l hl
  rw [oppositeLiteral_of_le (hhigh.trans hsize)]
  refine ⟨List.cons_ne_nil _ _, List.pairwise_singleton _ _, ?_, ?_⟩
  · rw [List.forall_mem_singleton, List.mem_singleton]
    omega
  · rw [List.forall_mem_singleton, Int.natAbs_neg]
    exact ⟨neg_ne_zero.2 hne, hlow, hhigh, htruth⟩

variable [Scalar α]

/-- The entries of a clause are open. -/
theorem isOpenClause_of_mem_entriesUnder (h : m.Built schema)
    (hsize : m.base.atomCount ≤ Herbrand.Block.maxId) {index : Nat} {c : Clause α}
    {t : Template α} (hmake : Template.make m index c = .ok t) {options : Options}
    {interest : Nat → Bool} {e : Entry α} (he : e ∈ entriesUnder options interest t) :
    m.IsOpenClause e.literals := by
  rw [entriesUnder] at he
  split at he
  · cases he
  · obtain ⟨rest, hrest, he⟩ := List.mem_flatMap.1 he
    obtain ⟨σ, hσ⟩ := exists_remainder h hsize hmake (List.mem_filter.1 hrest).1
    have hopen := isOpenClause_of_remainder h hσ
    rcases exists_of_mem_entriesOf he with ⟨rfl, -⟩ | ⟨l, hl, share, rfl, -⟩
    · rw [Entry.make, literalSet_of_pairwise hopen.sorted]
      exact hopen
    · have hopposite := isOpenClause_opposite hsize hopen hl
      rw [Entry.make, literalSet_of_pairwise hopposite.sorted]
      exact hopposite

/-! ### The network -/

/-- The network of any entries with open literals is well-formed. -/
theorem isWellFormed_assemble (h : m.Built schema) (key : List Int → UInt64) (n : Nat)
    {es : List (Entry α)} (hopen : ∀ e ∈ es, m.IsOpenClause e.literals)
    (range : Option (Nat × Nat)) :
    (Network.assemble ((Register.empty key n).insertAll es).cliques m.unknownQueryAtoms
      range).IsWellFormed m key where
  isOpenClause c hc := by
    obtain ⟨e, he, -, hembodies⟩ := Network.exists_entry hc
    rw [show c = Network.constraintOf _ c.lits from hembodies]
    exact hopen e he
  nodup := by
    have hmap := Network.map_constraints_assemble (fun _ literals => literals)
      ((Register.empty key n).insertAll es).cliques m.unknownQueryAtoms range
    rw [show Constraint.literals = fun c : Constraint α => c.literals from rfl, hmap]
    exact (Register.nodup_literals_cliques key n es).sublist (List.filter_sublist.map _)
  key_eq c hc := by
    obtain ⟨e, -, -, hembodies⟩ := Network.exists_entry hc
    rw [show c = Network.constraintOf _ c.lits from hembodies]
    rfl
  sorted := by
    have hmap := Network.map_constraints_assemble Prod.mk
      ((Register.empty key n).insertAll es).cliques m.unknownQueryAtoms range
    have hsorted := (Register.pairwise_lt_cliques key n es).sublist
      (List.filter_sublist (p := Network.isKept))
    have hpairs : (((Register.empty key n).insertAll es).cliques.filter Network.isKept |>.map
        fun entry => (entry.1, entry.2.literals)).Pairwise fun a b =>
          (compare a.1 b.1).then (compare a.2 b.2) = .lt := List.pairwise_map.2 hsorted
    rw [← hmap, List.pairwise_map] at hpairs
    exact hpairs
  query id hunknown hquery := by
    obtain ⟨place, hplace⟩ := Network.exists_find?_assemble
      ((Register.empty key n).insertAll es).cliques range
      (h.mem_unknownQueryAtoms_iff.2 ⟨hunknown, hquery⟩)
    exact ⟨place, hplace, ((Network.wired_assemble _ _ _).indexed id place).1 hplace⟩

/-! ### The main theorem -/

/-- **Grounded networks are well-formed.**  Take a model of at most `2 ^ 31 - 1`
ground atoms and ground it under any options, with any number of partitions and
rounds and any key function, cut short or not.  Each constraint of the network has
at least one literal, the literals increase strictly and are about unknown atoms
of the model, and no atom stands in both polarities.  The constraints have
different literals and increase strictly.  And all unknown atoms that are asked
about are in the network. -/
theorem run_isWellFormed (d : Declarations α) (m : Model α) (hbuild : d.build = .ok m)
    (hsize : m.base.atomCount ≤ Herbrand.Block.maxId) (settings : Settings) (net : Network α)
    (summary : Summary) (hrun : run m settings = .ok (net, summary)) :
    net.IsWellFormed m settings.key := by
  obtain ⟨schema, h⟩ := Declarations.built_of_build hbuild
  obtain ⟨ts, relevant, interest, e, hts, hsub, -, hregister, rfl⟩ := exists_lastRound hrun
  rw [hregister, register_run]
  refine isWellFormed_assemble h settings.key settings.partitions ?_ m.base.queryRange
  intro entry hentry
  obtain ⟨t, ht, hentry⟩ := List.mem_flatMap.1 hentry
  obtain ⟨index, c, -, hmake⟩ := exists_make_of_mem hts (hsub.subset ht)
  rw [entries_harvest hmake] at hentry
  exact isOpenClause_of_mem_entriesUnder h hsize hmake hentry

/-- The chain of hidden atoms with one round only, which is too few. -/
def oneRound : Settings :=
  { chainSettings with maxRounds := 1 }

/-- The network is well-formed all the same. -/
theorem run_isWellFormed_oneRound :
    chainDeclarations.build = .ok chainModel ∧
      chainModel.base.atomCount ≤ Herbrand.Block.maxId ∧
      ∃ net summary, run chainModel oneRound = .ok (net, summary) ∧
        net.IsWellFormed chainModel oneRound.key := by
  have hsize : chainModel.base.atomCount ≤ Herbrand.Block.maxId := by decide
  obtain ⟨net, summary, hrun⟩ := exists_run_chain oneRound
  exact ⟨build_chain, hsize, net, summary, hrun,
    run_isWellFormed chainDeclarations chainModel build_chain hsize oneRound net summary hrun⟩

end Grounding

end MarkovLogic
