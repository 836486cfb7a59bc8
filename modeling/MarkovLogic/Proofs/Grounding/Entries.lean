/-
MarkovLogic/Proofs/Grounding/Entries.lean

The entries of a ground clause mean what the ground clause means.

A clause of weight positive infinity is registered as it stands.  One of weight
negative infinity must fail, so each of its literals must fail, and it becomes
one unit for each literal, with the literal negated; both the weight and the
frequency are negative, so each unit contributes positive infinity.  A soft
clause keeps its literals and its weight, except that a negated unit may become
a unit of the opposite weight, which shifts all costs by the same amount.

Under any options the entries of a hard clause contribute positive infinity and
those of a soft clause numbers (`exists_contribution_eq`).

Main statement: `sameMeaning_entriesOf`, for the options that do not split soft
clauses of negative weight: splitting these into units is not exact.
-/
import MarkovLogic.Grounding.Harvest
import MarkovLogic.Proofs.Clique.Coalescing
import MarkovLogic.Proofs.Clique.Signs

namespace MarkovLogic.Grounding

variable {K : Type} [Field K] [LinearOrder K] [IsStrictOrderedRing K] [FloorRing K]

/-! ### Which entries -/

section Forms

variable {α : Type} [Scalar α]

/-- The forms in which a ground clause is registered. -/
inductive RegisteredAs (options : Options) (clause : Nat) (w : α) (literals : List Int) :
    Entry α → Prop
  /-- The clause as it stands, if it is neither to be split nor to be flipped. -/
  | kept (hsign : w < 0 → Scalar.isInfinite w = false ∧ options.splitNegative = false)
      (hunit : Scalar.isInfinite w = false → options.flipNegatedUnit = true →
        ∀ l, literals = [l] → 0 ≤ l) :
      RegisteredAs options clause w literals (Entry.make literals w clause 1)
  /-- One of the units that a clause of negative weight is split into. -/
  | split {l : Int} {share : α} (hneg : w < 0)
      (hsplit : Scalar.isInfinite w = true ∨ options.splitNegative = true) (hl : l ∈ literals)
      (hshare : share = w ∨
        Scalar.isInfinite w = false ∧ share = w / Scalar.ofNat literals.length) :
      RegisteredAs options clause w literals (Entry.make [oppositeLiteral l] share clause (-1))
  /-- A soft negated unit that is flipped. -/
  | flipped {l : Int} (hsign : w < 0 → options.splitNegative = false)
      (hsoft : Scalar.isInfinite w = false) (hflip : options.flipNegatedUnit = true)
      (hunit : literals = [l]) (hneg : l < 0) :
      RegisteredAs options clause w literals (Entry.make [oppositeLiteral l] w clause (-1))

/-- The entries of a ground clause have these forms. -/
theorem registeredAs_of_mem {options : Options} {clause : Nat} {w : α} {literals : List Int}
    {e : Entry α} (he : e ∈ entriesOf options clause w literals) :
    RegisteredAs options clause w literals e := by
  unfold entriesOf at he
  dsimp only at he
  split at he
  · rename_i hsplit
    split at he
    · rename_i l
      obtain rfl := List.mem_singleton.1 he
      exact .split hsplit.1 hsplit.2 (List.mem_singleton_self l) (.inl rfl)
    · obtain ⟨l, hl, rfl⟩ := List.mem_map.1 he
      refine .split hsplit.1 hsplit.2 hl ?_
      split
      · exact .inl rfl
      · rename_i hsoft
        exact .inr ⟨Bool.eq_false_iff.2 hsoft, rfl⟩
  · rename_i hkeep
    have hsign : w < 0 → Scalar.isInfinite w = false ∧ options.splitNegative = false := by
      intro hneg
      simpa [hneg] using hkeep
    split at he
    · rename_i l
      split at he
      · rename_i hflip
        obtain rfl := List.mem_singleton.1 he
        have hsoft : Scalar.isInfinite w = false := by simpa using hflip.1
        exact .flipped (fun hneg => (hsign hneg).2) hsoft hflip.2.1 rfl hflip.2.2
      · rename_i hflip
        obtain rfl := List.mem_singleton.1 he
        refine .kept hsign fun hsoft hopt m hm => ?_
        obtain rfl := List.singleton_inj.1 hm
        exact not_lt.1 fun hneg => hflip ⟨by simp [hsoft], hopt, hneg⟩
    · rename_i hlong
      obtain rfl := List.mem_singleton.1 he
      exact .kept hsign fun _ _ l hl => absurd hl (hlong l)

/-- An entry has the literals of its ground clause or the opposite of one of them.
A clause of infinite weight keeps its weight, and its literals are negated exactly
if the weight is negative. -/
theorem exists_of_mem_entriesOf {options : Options} {clause : Nat} {w : α}
    {literals : List Int} {e : Entry α} (he : e ∈ entriesOf options clause w literals) :
    (e = Entry.make literals w clause 1 ∧ (Scalar.isInfinite w = true → ¬ w < 0)) ∨
      ∃ l ∈ literals, ∃ share, e = Entry.make [oppositeLiteral l] share clause (-1) ∧
        (share = w ∧ (Scalar.isInfinite w = true → w < 0) ∨
          Scalar.isInfinite w = false ∧ share = w / Scalar.ofNat literals.length) := by
  cases registeredAs_of_mem he with
  | kept hsign hunit =>
    refine .inl ⟨rfl, fun hhard hneg => ?_⟩
    rw [(hsign hneg).1] at hhard
    cases hhard
  | @split l share hneg hsplit hl hshare =>
    exact .inr ⟨l, hl, share, rfl, hshare.imp_left fun h => ⟨h, fun _ => hneg⟩⟩
  | @flipped l hsign hsoft hflip hunit hneg =>
    refine .inr ⟨l, hunit ▸ List.mem_singleton_self l, w, rfl, .inl ⟨rfl, fun hhard => ?_⟩⟩
    rw [hsoft] at hhard
    cases hhard

end Forms

omit [IsStrictOrderedRing K] in
theorem entriesOf_posInf (options : Options) (clause : Nat) (literals : List Int) :
    entriesOf options clause (.posInf : Extended K) literals =
      [Entry.make literals .posInf clause 1] := by
  rcases literals with _ | ⟨l, _ | ⟨m, ls⟩⟩ <;> simp [entriesOf]

omit [IsStrictOrderedRing K] in
theorem entriesOf_negInf (options : Options) (clause : Nat) (literals : List Int) :
    entriesOf options clause (.negInf : Extended K) literals =
      literals.map fun l => Entry.make [oppositeLiteral l] .negInf clause (-1) := by
  rcases literals with _ | ⟨l, _ | ⟨m, ls⟩⟩ <;> simp [entriesOf]

omit [IsStrictOrderedRing K] in
/-- A soft clause that is not split is one entry: its literals or, if it is a negated
unit, the opposite literal. -/
theorem entriesOf_finite {options : Options} {x : K}
    (hsplit : x < 0 → options.splitNegative = false) (clause : Nat) (literals : List Int) :
    entriesOf options clause (Extended.finite x) literals =
        [Entry.make literals (.finite x) clause 1] ∨
      ∃ l, literals = [l] ∧ entriesOf options clause (Extended.finite x) literals =
        [Entry.make [oppositeLiteral l] (.finite x) clause (-1)] := by
  have hkeep : ¬ (x < 0 ∧ options.splitNegative = true) := by
    rintro ⟨hneg, htrue⟩
    rw [hsplit hneg] at htrue
    cases htrue
  rcases literals with _ | ⟨l, _ | ⟨m, ls⟩⟩
  · simp [entriesOf, hkeep]
  · by_cases hflip : options.flipNegatedUnit = true ∧ l < 0
    · exact .inr ⟨l, rfl, by simp [entriesOf, hkeep, hflip]⟩
    · exact .inl (by simp [entriesOf, hkeep, hflip])
  · simp [entriesOf, hkeep]

omit [IsStrictOrderedRing K] in
/-- A soft clause of negative weight that is split is one unit for each literal, with
an equal share of the weight. -/
theorem entriesOf_finite_of_split {options : Options} {x : K} (hneg : x < 0)
    (hsplit : options.splitNegative = true) (clause : Nat) {literals : List Int}
    (hlength : (literals.length : K) ≠ 0) :
    entriesOf options clause (Extended.finite x) literals =
      literals.map fun l =>
        Entry.make [oppositeLiteral l] (.finite (x / literals.length)) clause (-1) := by
  have hshare : (Extended.finite x / Scalar.ofNat literals.length : Extended K) =
      .finite (x / literals.length) := by
    rw [Extended.ofNat_eq]
    exact if_neg hlength
  rcases literals with _ | ⟨l, _ | ⟨m, ls⟩⟩
  · simp [entriesOf, hneg, hsplit]
  · simp [entriesOf, hneg, hsplit]
  · simp only [entriesOf, Extended.zero_eq, Extended.finite_lt, hneg, hsplit, or_true, and_self,
      if_true, Extended.isInfinite_finite, hshare]
    rfl

/-! ### What they contribute -/

theorem ground_make_posInf (literals : List Int) (clause : Nat) :
    (Entry.make literals (.posInf : Extended K) clause 1).ground =
      ⟨.posInf, literalSet literals⟩ := by
  rw [Entry.ground, Entry.contribution, Entry.make, Extended.ofInt_mul_posInf one_pos]

theorem ground_make_negInf (literals : List Int) (clause : Nat) :
    (Entry.make literals (.negInf : Extended K) clause (-1)).ground =
      ⟨.posInf, literalSet literals⟩ := by
  rw [Entry.ground, Entry.contribution, Entry.make, Extended.ofInt_mul_negInf,
    Extended.ofInt_mul_posInf_of_neg neg_one_lt_zero, Extended.neg]

omit [IsStrictOrderedRing K] in
theorem ground_make_finite (literals : List Int) (x : K) (clause : Nat) (n : Int) :
    (Entry.make literals (Extended.finite x) clause n).ground =
      ⟨.finite (n * x), literalSet literals⟩ := by
  rw [Entry.ground, Entry.contribution, Entry.make, Extended.ofInt_eq, Extended.finite_mul]

/-- The entries of a clause that must fail stand for the opposites of its literals. -/
theorem ground_entriesOf_negInf (options : Options) (clause : Nat) (literals : List Int) :
    (entriesOf options clause (.negInf : Extended K) literals).map Entry.ground =
      literals.map fun l => ⟨.posInf, literalSet [oppositeLiteral l]⟩ := by
  rw [entriesOf_negInf, List.map_map]
  exact List.map_congr_left fun l _ => ground_make_negInf _ _

/-! ### The main theorem -/

/-- Literals with atom numbers of at most 31 bits. -/
def AreLiterals (literals : List Int) : Prop :=
  ∀ l ∈ literals, l ≠ 0 ∧ l.natAbs ≤ Herbrand.Block.maxId

/-- The opposite of a literal has the opposite truth value. -/
theorem anyHolds_opposite (s : Nat → Bool) {l : Int} (hne : l ≠ 0)
    (hle : l.natAbs ≤ Herbrand.Block.maxId) :
    anyHolds s (literalSet [oppositeLiteral l]) = !litHolds s l := by
  rw [oppositeLiteral_of_le hle, literalSet_of_pairwise (List.pairwise_singleton _ _),
    anyHolds_singleton, litHolds_neg s hne]

/-- What an entry contributes is infinite exactly if the weight of the clause is,
and never negative infinity. -/
theorem exists_contribution_eq {options : Options} {clause : Nat} {w : Extended K}
    (hnan : w ≠ .nan) {literals : List Int} {e : Entry (Extended K)}
    (he : e ∈ entriesOf options clause w literals) :
    ∃ a : WithTop K, e.contribution = .ofTop a ∧ (a = ⊤ ↔ Scalar.isInfinite w = true) := by
  rcases exists_of_mem_entriesOf he with ⟨rfl, hsign⟩ | ⟨l, hl, share, rfl, hshare⟩
  · cases w with
    | posInf =>
      exact ⟨⊤, congrArg GroundClause.weight (ground_make_posInf literals clause), by simp⟩
    | negInf => exact absurd (Extended.negInf_lt_finite 0) (hsign rfl)
    | finite x =>
      have hweight := congrArg GroundClause.weight (ground_make_finite literals x clause 1)
      exact ⟨_, hweight.trans (Extended.ofTop_coe _).symm, by simp⟩
    | nan => exact absurd rfl hnan
  · cases w with
    | posInf =>
      rcases hshare with ⟨-, hsign⟩ | ⟨hfinite, -⟩
      · exact absurd (hsign rfl) (Extended.not_posInf_lt 0)
      · cases hfinite
    | negInf =>
      rcases hshare with ⟨rfl, -⟩ | ⟨hfinite, -⟩
      · exact ⟨⊤, congrArg GroundClause.weight (ground_make_negInf _ clause), by simp⟩
      · cases hfinite
    | finite x =>
      have hlength : (literals.length : K) ≠ 0 :=
        Nat.cast_ne_zero.2 (List.length_pos_of_mem hl).ne'
      obtain ⟨y, rfl⟩ : ∃ y, share = .finite y := by
        rcases hshare with ⟨rfl, -⟩ | ⟨-, rfl⟩
        · exact ⟨x, rfl⟩
        · refine ⟨x / literals.length, ?_⟩
          rw [Extended.ofNat_eq]
          exact if_neg hlength
      have hweight := congrArg GroundClause.weight
        (ground_make_finite [oppositeLiteral l] y clause (-1))
      exact ⟨_, hweight.trans (Extended.ofTop_coe _).symm, by simp⟩
    | nan => exact absurd rfl hnan

/-- The entries have literals, and they should hold if they are hard. -/
theorem isProper_entriesOf (options : Options) (clause : Nat) {w : Extended K} (hnan : w ≠ .nan)
    {literals : List Int} (hne : literals ≠ []) :
    ∀ e ∈ entriesOf options clause w literals, e.ground.IsProper := by
  have hset : ∀ ls : List Int, ls ≠ [] → literalSet ls ≠ [] := by
    intro ls hls hempty
    obtain ⟨l, hl⟩ := List.exists_mem_of_ne_nil ls hls
    simpa [hempty] using mem_literalSet.2 hl
  intro e he
  obtain ⟨a, ha, -⟩ := exists_contribution_eq hnan he
  refine ⟨?_, a, ha⟩
  rcases exists_of_mem_entriesOf he with ⟨rfl, -⟩ | ⟨l, -, share, rfl, -⟩
  · exact hset _ hne
  · exact hset _ (List.cons_ne_nil _ _)

omit [IsStrictOrderedRing K] in
/-- That a disjunction should fail means that all opposite literals should hold. -/
theorem sameMeaning_opposites {literals : List Int} (hliterals : AreLiterals literals) :
    SameMeaning [(⟨.negInf, literals⟩ : GroundClause (Extended K))]
      (literals.map fun l => ⟨.posInf, literalSet [oppositeLiteral l]⟩) := by
  refine ⟨fun s => ?_, fun s t _ _ => ?_⟩
  · have hfails : anyHolds s literals = false ↔
        ∀ l ∈ literals, anyHolds s (literalSet [oppositeLiteral l]) = true := by
      rw [anyHolds, List.any_eq_false]
      refine forall₂_congr fun l hl => ?_
      rw [anyHolds_opposite s (hliterals l hl).1 (hliterals l hl).2, Bool.not_eq_true',
        Bool.not_eq_true]
    rw [Satisfies, Satisfies, List.forall_mem_singleton, List.forall_mem_map]
    simp only [GroundClause.isHard_negInf, GroundClause.isHard_posInf, forall_const,
      GroundClause.isViolated_negInf, GroundClause.isViolated_posInf, Bool.not_eq_false', hfails]
  · -- hard clauses have no share in the costs
    have hzero : spread s t (literals.map fun l =>
        (⟨.posInf, literalSet [oppositeLiteral l]⟩ : GroundClause (Extended K))) = 0 := by
      refine List.sum_eq_zero fun x hx => ?_
      rw [List.map_map, List.mem_map] at hx
      obtain ⟨l, -, rfl⟩ := hx
      exact zero_mul _
    rw [hzero]
    simp [spread, GroundClause.stake, Extended.value]

/-- A soft unit means what the opposite unit of the opposite weight means. -/
theorem sameMeaning_opposite (x : K) {l : Int} (hne : l ≠ 0)
    (hle : l.natAbs ≤ Herbrand.Block.maxId) :
    SameMeaning [⟨.finite x, [l]⟩]
      [⟨.finite ((-1 : Int) * x), literalSet [oppositeLiteral l]⟩] := by
  refine ⟨fun s => ?_, fun s t _ _ => ?_⟩
  · simp [Satisfies]
  · -- exactly one of the two units fails, so both signs turn at once
    simp only [spread, GroundClause.stake, gap, failing, anyHolds_opposite _ hne hle,
      anyHolds_singleton, List.map_singleton, List.sum_singleton, Extended.value_finite]
    cases litHolds s l <;> cases litHolds t l <;> simp

/-- **The entries of a ground clause mean what the clause means.** -/
theorem sameMeaning_entriesOf {options : Options} (hsplit : options.splitNegative = false)
    (clause : Nat) {w : Extended K} (hnan : w ≠ .nan) {literals : List Int}
    (hliterals : AreLiterals literals) :
    SameMeaning [⟨w, literals⟩] ((entriesOf options clause w literals).map Entry.ground) := by
  cases w with
  | posInf =>
    rw [entriesOf_posInf, List.map_singleton, ground_make_posInf]
    refine ⟨fun s => ?_, fun s t _ _ => ?_⟩
    · simp [Satisfies, anyHolds_literalSet]
    · simp [spread, GroundClause.stake, Extended.value]
  | negInf =>
    rw [ground_entriesOf_negInf]
    exact sameMeaning_opposites hliterals
  | finite x =>
    rcases entriesOf_finite (x := x) (fun _ => hsplit) clause literals with h | ⟨l, rfl, h⟩
    · rw [h, List.map_singleton, ground_make_finite]
      refine ⟨fun s => ?_, fun s t _ _ => ?_⟩
      · simp [Satisfies]
      · simp [spread, GroundClause.stake, gap, failing, anyHolds_literalSet]
    · rw [h, List.map_singleton, ground_make_finite]
      obtain ⟨hne, hle⟩ := hliterals l List.mem_cons_self
      exact sameMeaning_opposite x hne hle
  | nan => exact absurd rfl hnan

end MarkovLogic.Grounding
