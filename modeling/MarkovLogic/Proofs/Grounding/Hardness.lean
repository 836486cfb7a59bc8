/-
MarkovLogic/Proofs/Grounding/Hardness.lean

A constraint is hard exactly if a hard clause put it there.

Infinite weights of both signs pass through the rewriting of clauses into
entries, through sums over the entries of a clause and through sums over the
clauses.  An entry of a hard clause contributes positive infinity, whatever the
sign of the weight, and an entry of a soft clause contributes a number
(`exists_contribution_eq`).  So no sum meets opposite infinities, and a sum is
infinite exactly if one of its terms is (`totalOver_eq_top_iff`).  An infinite
sum is not zero, so the clique is not dropped.

Neither the options nor the number of atoms matter here.

Main statement: `run_hardness`.
-/
import MarkovLogic.Proofs.Grounding.Closure

namespace MarkovLogic

/-- The clause with this index has an infinite weight. -/
def Model.IsHardClause {α : Type} [Scalar α] (m : Model α) (index : Nat) : Prop :=
  ∃ c, m.clauses[index]? = some c ∧ Scalar.isInfinite c.weight = true

variable {K : Type} [Field K] [LinearOrder K] [IsStrictOrderedRing K] [FloorRing K]

/-- What infinite weights do to the network that is assembled from entries. -/
structure KeepsHardness (m : Model (Extended K)) (es : List (Entry (Extended K)))
    (cliques : List (UInt64 × Clique (Extended K))) (net : Network (Extended K)) : Prop where
  weight_ne : ∀ p ∈ cliques, p.2.weight ≠ .nan ∧ p.2.weight ≠ .negInf
  /-- The hard constraints are those that a hard clause has a share in. -/
  hard_iff : ∀ c ∈ net.constraints,
    c.strength = .hard ↔ ∃ dep ∈ c.dependencies, m.IsHardClause dep.1
  /-- The others have a finite weight that is not zero. -/
  soft : ∀ c ∈ net.constraints, ∀ w, c.strength = .soft w → ∃ x, w = .finite x ∧ x ≠ 0
  /-- What a hard clause contributes to is not dropped. -/
  kept : ∀ e ∈ es, m.IsHardClause e.clause →
    ∃ c ∈ net.constraints, c.literals = e.literals ∧ c.strength = .hard ∧
      ∃ dep ∈ c.dependencies, dep.1 = e.clause

namespace Grounding

/-! ### Entries -/

variable {m : Model (Extended K)} {options : Options}

/-- An entry names its clause, and its contribution is infinite exactly if the
clause is hard. -/
theorem addend_eq_top_iff_of_mem {index : Nat} {c : Clause (Extended K)}
    {t : Template (Extended K)} (hindex : m.clauses[index]? = some c)
    (hmake : Template.make m index c = .ok t) {interest : Nat → Bool} {e : Entry (Extended K)}
    (he : e ∈ entriesUnder options interest t) : e.addend = ⊤ ↔ m.IsHardClause e.clause := by
  obtain ⟨hclause, hweight, -⟩ := exists_resolved hmake
  rw [entriesUnder] at he
  split at he
  · cases he
  · obtain ⟨rest, -, he⟩ := List.mem_flatMap.1 he
    obtain ⟨a, ha, htop⟩ := exists_contribution_eq (weight_ne_nan hmake) he
    have hown : e.clause = index := by
      rcases exists_of_mem_entriesOf he with ⟨rfl, -⟩ | ⟨l, -, share, rfl, -⟩
      · exact hclause
      · exact hclause
    rw [Entry.addend_eq ha, htop, hweight, hown, Model.IsHardClause, hindex]
    simp

/-! ### Cliques and constraints -/

omit [IsStrictOrderedRing K] in
theorem strengthOf_ofTop (a : WithTop K) :
    Network.strengthOf (Extended.ofTop a) = if a = ⊤ then .hard else .soft (.ofTop a) := by
  cases a <;> simp [Network.strengthOf, Extended.ofTop]

variable {es : List (Entry (Extended K))}

section Strength

omit [IsStrictOrderedRing K]

variable (hproper : ∀ e ∈ es, e.ground.IsProper) (key : List Int → UInt64)

include hproper in
/-- A tally becomes a hard constraint exactly if it adds up to infinity. -/
theorem strength_constraintOf (literals : List Int) (lits : List NetLiteral) :
    (Network.constraintOf (key literals, (Tally.ofEntries es literals).toClique) lits).strength =
      if totalOver es literals = ⊤ then .hard else .soft (.ofTop (totalOver es literals)) := by
  rw [Network.constraintOf, weight_toClique fun e he => (hproper e he).2, strengthOf_ofTop]

include hproper in
/-- The tallies that are kept are those that do not add up to zero. -/
theorem isKept_ofEntries_iff {e : Entry (Extended K)} (he : e ∈ es) :
    Network.isKept (key e.literals, (Tally.ofEntries es e.literals).toClique) = true ↔
      totalOver es e.literals ≠ 0 :=
  Network.isKept_iff (hproper e he).1 (weight_toClique (fun e he => (hproper e he).2) e.literals)

/-- A tally adds up to infinity exactly if a hard clause has a share in it. -/
theorem totalOver_eq_top_iff_isHardClause (htop : ∀ e ∈ es, e.addend = ⊤ ↔ m.IsHardClause e.clause)
    (literals : List Int) : totalOver es literals = ⊤ ↔
      ∃ dep ∈ (Tally.ofEntries es literals).toClique.dependencies, m.IsHardClause dep.1 := by
  rw [totalOver_eq_top_iff, Tally.exists_dependency_iff]
  exact exists_congr fun e => and_congr_right fun he => and_congr_right fun _ => htop e he

end Strength

omit [IsStrictOrderedRing K] in
/-- A network of entries whose contributions are infinite exactly for hard clauses
keeps the hardness. -/
theorem keepsHardness_assemble (hproper : ∀ e ∈ es, e.ground.IsProper)
    (htop : ∀ e ∈ es, e.addend = ⊤ ↔ m.IsHardClause e.clause) (key : List Int → UInt64) (n : Nat)
    (extra : List Nat) (range : Option (Nat × Nat)) :
    KeepsHardness m es ((Register.empty key n).insertAll es).cliques
      (Network.assemble ((Register.empty key n).insertAll es).cliques extra range) := by
  -- a constraint comes from a clique that was kept, and that is what entries add up to
  have hconstraint : ∀ c ∈ (Network.assemble ((Register.empty key n).insertAll es).cliques extra
      range).constraints, ∃ literals, totalOver es literals ≠ 0 ∧
        c = Network.constraintOf (key literals, (Tally.ofEntries es literals).toClique) c.lits := by
    intro c hc
    obtain ⟨e, he, hkept, hembodies⟩ := Network.exists_entry hc
    exact ⟨e.literals, (isKept_ofEntries_iff hproper key he).1 hkept, hembodies⟩
  refine ⟨fun p hp => ?_, fun c hc => ?_, fun c hc w hw => ?_, fun e he hclause => ?_⟩
  · obtain ⟨e, -, rfl⟩ := (Register.mem_cliques_iff_exists_entry key n es).1 hp
    rw [weight_toClique fun e he => (hproper e he).2]
    cases totalOver es e.literals with
    | top => refine ⟨fun h => ?_, fun h => ?_⟩ <;> cases h
    | coe x => refine ⟨fun h => ?_, fun h => ?_⟩ <;> cases h
  · obtain ⟨literals, -, hc⟩ := hconstraint c hc
    rw [hc, strength_constraintOf hproper]
    refine Iff.trans ?_ (totalOver_eq_top_iff_isHardClause htop literals)
    split
    · rename_i htotal
      exact iff_of_true rfl htotal
    · rename_i htotal
      exact iff_of_false (fun h => by cases h) htotal
  · obtain ⟨literals, hne, hc⟩ := hconstraint c hc
    rw [hc, strength_constraintOf hproper] at hw
    split at hw
    · cases hw
    · rename_i hfinite
      obtain ⟨x, hx⟩ := WithTop.ne_top_iff_exists.1 hfinite
      rw [← hx] at hw hne
      exact ⟨x, (Strength.soft.inj hw).symm, fun hzero => hne (congrArg _ hzero)⟩
  · have htotal : totalOver es e.literals = ⊤ :=
      totalOver_eq_top_iff.2 ⟨e, he, rfl, (htop e he).2 hclause⟩
    have hkept := (isKept_ofEntries_iff hproper key he).2 (htotal ▸ WithTop.top_ne_zero)
    obtain ⟨c, hc, hembodies⟩ := Network.exists_constraint he hkept extra range
    have hc' : c = Network.constraintOf _ c.lits := hembodies
    refine ⟨c, hc, ?_, ?_, ?_⟩
    · rw [hc']
      rfl
    · rw [hc', strength_constraintOf hproper, if_pos htotal]
    · rw [hc']
      exact (Tally.exists_dependency_iff es e.literals (· = e.clause)).2 ⟨e, he, rfl, rfl⟩

/-! ### The main theorem -/

/-- **A constraint is hard exactly if a hard clause put it there.**  Ground any
model under any options.  No clique weighs a NaN or negative infinity.  The hard
constraints of the network are those with a hard clause among their
dependencies, and the others have a finite weight that is not zero.  And every
set of literals that a hard clause contributed to, in the last round, has a
constraint. -/
theorem run_hardness (m : Model (Extended K)) (settings : Settings) (net : Network (Extended K))
    (summary : Summary) (hrun : run m settings = .ok (net, summary)) :
    ∃ (ts relevant : List (Template (Extended K))) (interest : Std.HashSet Nat)
      (e : Expansion (Extended K)),
      templates m = .ok ts ∧ relevant.Sublist ts ∧ expansion m settings = .ok e ∧
      e.register = (Round.run settings relevant interest).register ∧
      net = Network.assemble e.register.cliques m.unknownQueryAtoms m.base.queryRange ∧
      KeepsHardness m
        (relevant.flatMap fun t => (harvest t settings.options interest.contains).entries.toList)
        e.register.cliques net := by
  obtain ⟨ts, relevant, interest, e, hts, hsub, hexpansion, hregister, rfl⟩ := exists_lastRound hrun
  refine ⟨ts, relevant, interest, e, hts, hsub, hexpansion, hregister, rfl, ?_⟩
  -- every entry is one of a prepared clause
  have hentries : ∀ entry ∈ relevant.flatMap fun t =>
      (harvest t settings.options interest.contains).entries.toList,
      entry.ground.IsProper ∧ (entry.addend = ⊤ ↔ m.IsHardClause entry.clause) := by
    intro entry hentry
    obtain ⟨t, ht, hentry⟩ := List.mem_flatMap.1 hentry
    obtain ⟨index, c, hindex, hmake⟩ := exists_make_of_mem hts (hsub.subset ht)
    rw [entries_harvest hmake] at hentry
    exact ⟨isProper_entriesUnder hmake _ entry hentry,
      addend_eq_top_iff_of_mem hindex hmake hentry⟩
  rw [hregister, register_run]
  exact keepsHardness_assemble (fun entry h => (hentries entry h).1)
    (fun entry h => (hentries entry h).2) settings.key settings.partitions _ _

/-- The chain of hidden atoms has a soft and a hard clause. -/
theorem run_hardness_chain :
    ∃ net summary, run chainModel chainSettings = .ok (net, summary) ∧
      ∃ (ts relevant : List (Template (Extended ℚ))) (interest : Std.HashSet Nat)
        (e : Expansion (Extended ℚ)),
        templates chainModel = .ok ts ∧ relevant.Sublist ts ∧
        expansion chainModel chainSettings = .ok e ∧
        e.register = (Round.run chainSettings relevant interest).register ∧
        net = Network.assemble e.register.cliques chainModel.unknownQueryAtoms
          chainModel.base.queryRange ∧
        KeepsHardness chainModel (relevant.flatMap fun t =>
          (harvest t chainSettings.options interest.contains).entries.toList)
          e.register.cliques net := by
  obtain ⟨net, summary, hrun⟩ := exists_run_chain chainSettings
  exact ⟨net, summary, hrun, run_hardness chainModel chainSettings net summary hrun⟩

end Grounding

end MarkovLogic
