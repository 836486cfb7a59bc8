/-
MarkovLogic/Proofs/Clique/Coalescing.lean

Adding up the entries over the same literals keeps the meaning.

The weights that entries contribute are numbers or positive infinity, never
negative infinity: hard clauses that should fail are registered as hard clauses
that should hold.  So the sums are sums in the field with a top element
(`Extended.ofTop`), where the order of addition plays no role.  A clique is
hard if some entry is hard, and such a clique absorbs the soft entries over its
literals.  That costs nothing: assignments that violate no hard clause agree on
its disjunction, so the soft entries make no difference between them.

Main statement: `sameMeaning_cliques`.
-/
import MarkovLogic.Proofs.Clique.Register
import MarkovLogic.Proofs.Clique.Theory

namespace MarkovLogic

variable {K : Type} [Field K] [LinearOrder K] [FloorRing K]

/-! ### Numbers and positive infinity -/

namespace Extended

/-- A number of the field, or positive infinity. -/
def ofTop : WithTop K → Extended K
  | none => posInf
  | some x => finite x

omit [Field K] [LinearOrder K] [FloorRing K] in
@[simp] theorem ofTop_coe (x : K) : ofTop (x : WithTop K) = finite x := rfl

omit [Field K] [LinearOrder K] [FloorRing K] in
@[simp] theorem ofTop_top : ofTop (⊤ : WithTop K) = posInf := rfl

theorem ofTop_add (a b : WithTop K) : ofTop a + ofTop b = ofTop (a + b) := by
  cases a <;> cases b <;> rfl

/-- A sum without negative infinities is the sum in the field with a top. -/
theorem sum_map_ofTop (xs : List (WithTop K)) : Scalar.sum (xs.map ofTop) = ofTop xs.sum := by
  have hfold : ∀ (a : WithTop K), (xs.map ofTop).foldl (· + ·) (ofTop a) = ofTop (a + xs.sum) := by
    induction xs with
    | nil => simp
    | cons x xs ih =>
      intro a
      rw [List.map_cons, List.foldl_cons, ofTop_add, ih, List.sum_cons, add_assoc]
  have hzero := hfold 0
  rw [zero_add] at hzero
  exact hzero

omit [LinearOrder K] [FloorRing K] in
theorem value_ofTop (a : WithTop K) : (ofTop a).value = a.untopD 0 := by
  cases a <;> rfl

end Extended

namespace GroundClause

theorem isHard_ofTop (a : WithTop K) (literals : List Int) :
    (⟨.ofTop a, literals⟩ : GroundClause (Extended K)).isHard = true ↔ a = ⊤ := by
  cases a with
  | top => simp
  | coe x => simp

end GroundClause

/-- Only hard clauses that should hold are hard. -/
theorem satisfies_ofTop {β : Type} {s : Nat → Bool} {xs : List β} {a : β → WithTop K}
    {literals : β → List Int} :
    Satisfies s (xs.map fun x => (⟨.ofTop (a x), literals x⟩ : GroundClause (Extended K))) ↔
      ∀ x ∈ xs, a x = ⊤ → anyHolds s (literals x) = true := by
  rw [Satisfies, List.forall_mem_map]
  refine forall₂_congr fun x _ => ?_
  rw [GroundClause.isHard_ofTop]
  refine imp_congr_right fun htop => ?_
  rw [htop, Extended.ofTop_top, GroundClause.isViolated_posInf, Bool.not_eq_false']

/-! ### Entries and cliques as ground clauses -/

/-- The ground clause that an entry stands for. -/
def Entry.ground {α : Type} [Scalar α] (e : Entry α) : GroundClause α :=
  ⟨e.contribution, e.literals⟩

/-- The ground clause that a clique stands for. -/
def Clique.ground {α : Type} (c : Clique α) : GroundClause α :=
  ⟨c.weight, c.literals⟩

/-- A ground clause that has literals and that should hold if it is hard. -/
def GroundClause.IsProper (g : GroundClause (Extended K)) : Prop :=
  g.literals ≠ [] ∧ ∃ a : WithTop K, g.weight = .ofTop a

/-- What an entry contributes, in the field with a top. -/
def Entry.addend (e : Entry (Extended K)) : WithTop K :=
  match e.contribution with
  | .finite x => x
  | _ => ⊤

theorem Entry.addend_eq {e : Entry (Extended K)} {a : WithTop K} (h : e.contribution = .ofTop a) :
    e.addend = a := by
  rw [Entry.addend, h]
  cases a <;> rfl

theorem Entry.ground_eq {e : Entry (Extended K)} (h : ∃ a : WithTop K, e.contribution = .ofTop a) :
    e.ground = ⟨.ofTop e.addend, e.literals⟩ := by
  obtain ⟨a, ha⟩ := h
  rw [Entry.addend_eq ha, Entry.ground, ha]

/-! ### Weights of cliques -/

namespace Tally

open Extended

/-- One more entry adds its contribution to the sum of the shares. -/
theorem total_addShare {e : Entry (Extended K)} {a : WithTop K} (he : e.contribution = ofTop a)
    {ss : List (Share (Extended K))} {xs : List (WithTop K)}
    (hss : ss.map Share.total = xs.map ofTop) :
    ∃ ys : List (WithTop K),
      (addShare e ss).map Share.total = ys.map ofTop ∧ ys.sum = xs.sum + a := by
  -- a clause that has no share yet starts from zero
  have hzero : 0 + e.contribution = ofTop a := by
    rw [he]
    show ofTop 0 + ofTop a = ofTop a
    rw [ofTop_add, zero_add]
  induction ss generalizing xs with
  | nil =>
    obtain rfl : xs = [] := by simpa using hss.symm
    exact ⟨[a], by rw [addShare, hzero]; rfl, by simp⟩
  | cons s ss ih =>
    obtain ⟨x, xs', rfl, hs, hss'⟩ := List.map_eq_cons_iff.1 hss.symm
    rw [addShare]
    split
    · refine ⟨a :: x :: xs', ?_, by rw [List.sum_cons, add_comm]⟩
      simp only [List.map_cons, hzero, hs, hss']
    · split
      · refine ⟨(x + a) :: xs', by simp [he, ← hs, ← hss', ofTop_add], ?_⟩
        rw [List.sum_cons, List.sum_cons, add_right_comm]
      · obtain ⟨ys, hys, hsum⟩ := ih hss'.symm
        refine ⟨x :: ys, by simp [hs, hys], ?_⟩
        rw [List.sum_cons, List.sum_cons, hsum, add_assoc]

/-- The shares of entries add up to the contributions of the entries. -/
theorem total_shareOut {es : List (Entry (Extended K))}
    (he : ∀ e ∈ es, ∃ a : WithTop K, e.contribution = ofTop a) :
    ∃ ys : List (WithTop K),
      (shareOut es).map Share.total = ys.map ofTop ∧ ys.sum = (es.map Entry.addend).sum := by
  induction es using List.reverseRecOn with
  | nil => exact ⟨[], rfl, rfl⟩
  | append_singleton es e ih =>
    rw [List.forall_mem_append, List.forall_mem_singleton] at he
    obtain ⟨xs, hxs, hsum⟩ := ih he.1
    have hweight : e.contribution = ofTop e.addend :=
      congrArg GroundClause.weight (Entry.ground_eq he.2)
    rcases eq_or_ne es [] with rfl | hne
    · -- the first entry is stored as it is
      exact ⟨[e.addend], congrArg (fun w => [w]) hweight, rfl⟩
    · obtain ⟨ys, hys, hmore⟩ := total_addShare hweight hxs
      refine ⟨ys, by rw [shareOut_append hne, hys], ?_⟩
      rw [hmore, hsum, List.map_append, List.sum_append, List.map_singleton, List.sum_singleton]

end Tally

/-- What the entries over the given literals contribute together. -/
def totalOver (es : List (Entry (Extended K))) (literals : List Int) : WithTop K :=
  ((es.filter fun e => e.literals = literals).map Entry.addend).sum

/-- The weight of a clique is what its entries contribute together. -/
theorem weight_toClique {es : List (Entry (Extended K))}
    (he : ∀ e ∈ es, ∃ a : WithTop K, e.contribution = .ofTop a) (literals : List Int) :
    (Tally.ofEntries es literals).toClique.weight = .ofTop (totalOver es literals) := by
  have hover : ∀ e ∈ es.filter fun e => e.literals = literals,
      ∃ a : WithTop K, e.contribution = .ofTop a :=
    fun e h => he e (List.mem_of_mem_filter h)
  obtain ⟨ys, hys, hsum⟩ := Tally.total_shareOut hover
  rw [Tally.toClique, Tally.ofEntries, Tally.sharesOf, hys, Extended.sum_map_ofTop, hsum, totalOver]

/-- The cliques of a register, as ground clauses and but for their order. -/
theorem cliques_ground_perm (key : List Int → UInt64) (n : Nat) {es : List (Entry (Extended K))}
    (he : ∀ e ∈ es, ∃ a : WithTop K, e.contribution = .ofTop a) :
    (((Register.empty key n).insertAll es).cliques.map fun c => c.2.ground).Perm
      ((es.map Entry.literals).eraseDups.map fun literals =>
        ⟨.ofTop (totalOver es literals), literals⟩) := by
  have hcliques := (Register.cliques_perm key n es).map fun c => c.2.ground
  rw [List.map_map] at hcliques
  have hground : (fun c : UInt64 × Clique (Extended K) => c.2.ground) ∘ (fun literals =>
      (key literals, (Tally.ofEntries es literals).toClique)) = fun literals =>
      ⟨.ofTop (totalOver es literals), literals⟩ := by
    funext literals
    rw [Function.comp_apply, Clique.ground, weight_toClique he]
    rfl
  rwa [hground] at hcliques

/-- Proper entries make proper cliques. -/
theorem isProper_cliques (key : List Int → UInt64) (n : Nat) {es : List (Entry (Extended K))}
    (he : ∀ e ∈ es, e.ground.IsProper) :
    ∀ c ∈ ((Register.empty key n).insertAll es).cliques, c.2.ground.IsProper := by
  intro c hc
  have hmem := (cliques_ground_perm key n fun e h => (he e h).2).mem_iff.1
    (List.mem_map_of_mem hc)
  obtain ⟨literals, hliterals, hground⟩ := List.mem_map.1 hmem
  obtain ⟨e, hes, rfl⟩ := List.mem_map.1 (List.mem_eraseDups.1 hliterals)
  rw [← hground]
  exact ⟨(he e hes).1, _, rfl⟩

/-! ### Coalescing -/

/-- A sum by sets of literals is the sum over all entries. -/
theorem sum_eraseDups_filter {M β : Type} [AddCommMonoid M] (es : List (Entry β))
    (f : Entry β → M) :
    ((es.map Entry.literals).eraseDups.map fun literals =>
      ((es.filter fun e => e.literals = literals).map f).sum).sum = (es.map f).sum := by
  have hall : ∀ sets : List (List Int), sets.Nodup → (∀ e ∈ es, e.literals ∈ sets) →
      (sets.map fun literals => ((es.filter fun e => e.literals = literals).map f).sum).sum =
        (es.map f).sum := by
    intro sets hnodup
    induction es with
    | nil => simp
    | cons e es ih =>
      intro hmem
      rw [List.forall_mem_cons] at hmem
      have hhead : ∀ literals, (((e :: es).filter fun e => e.literals = literals).map f).sum =
          (if e.literals = literals then f e else 0) +
            ((es.filter fun e => e.literals = literals).map f).sum := by
        intro literals
        by_cases h : e.literals = literals <;> simp [h]
      simp only [hhead, List.sum_map_add, ih hmem.2, List.map_cons, List.sum_cons]
      congr 1
      rw [← List.sum_toFinset _ hnodup, Finset.sum_ite_eq, if_pos (List.mem_toFinset.2 hmem.1)]
  exact hall _ (nodup_eraseDups _) fun e he => List.mem_eraseDups.2 (List.mem_map_of_mem he)

omit [LinearOrder K] [FloorRing K] in
/-- A sum is the top exactly if one of its terms is. -/
theorem sum_eq_top_iff {xs : List (WithTop K)} : xs.sum = ⊤ ↔ ⊤ ∈ xs := by
  induction xs with
  | nil => simp
  | cons x xs ih => rw [List.sum_cons, WithTop.add_eq_top, ih, List.mem_cons, eq_comm]

omit [LinearOrder K] [FloorRing K] in
/-- The field part of a sum, unless the sum is the top. -/
theorem untopD_sum {xs : List (WithTop K)} (h : xs.sum ≠ ⊤) :
    xs.sum.untopD 0 = (xs.map fun x => x.untopD 0).sum := by
  induction xs with
  | nil => rfl
  | cons x xs ih =>
    rw [List.sum_cons, WithTop.add_ne_top] at h
    obtain ⟨y, rfl⟩ := WithTop.ne_top_iff_exists.1 h.1
    obtain ⟨z, hz⟩ := WithTop.ne_top_iff_exists.1 h.2
    rw [List.map_cons, List.sum_cons, List.sum_cons, ← ih h.2, ← hz]
    rfl

/-- A clique is hard if one of its entries is. -/
theorem totalOver_eq_top_iff {es : List (Entry (Extended K))} {literals : List Int} :
    totalOver es literals = ⊤ ↔ ∃ e ∈ es, e.literals = literals ∧ e.addend = ⊤ := by
  simp only [totalOver, sum_eq_top_iff, List.mem_map, List.mem_filter, decide_eq_true_eq, and_assoc]

/-- The cliques demand what the entries demand. -/
theorem forall_totalOver_iff {es : List (Entry (Extended K))} {s : Nat → Bool} :
    (∀ literals ∈ (es.map Entry.literals).eraseDups,
        totalOver es literals = ⊤ → anyHolds s literals = true) ↔
      ∀ e ∈ es, e.addend = ⊤ → anyHolds s e.literals = true := by
  simp only [totalOver_eq_top_iff]
  constructor
  · intro h e he htop
    exact h e.literals (List.mem_eraseDups.2 (List.mem_map_of_mem he)) ⟨e, he, rfl, htop⟩
  · rintro h literals - ⟨e, he, rfl, htop⟩
    exact h e he htop

/-- What the soft entries over some literals make of a step is what their clique
makes of it: if the clique is hard, there is no step. -/
theorem untopD_totalOver_mul {es : List (Entry (Extended K))} {literals : List Int} {d : K}
    (h : totalOver es literals = ⊤ → d = 0) :
    (totalOver es literals).untopD 0 * d =
      ((es.filter fun e => e.literals = literals).map fun e => e.addend.untopD 0 * d).sum := by
  by_cases htop : totalOver es literals = ⊤
  · simp [h htop]
  · rw [totalOver] at htop ⊢
    rw [untopD_sum htop, List.map_map, ← List.sum_map_mul_right]
    rfl

/-- **Adding up the entries over the same literals keeps the meaning.** -/
theorem sameMeaning_cliques (key : List Int → UInt64) (n : Nat) {es : List (Entry (Extended K))}
    (he : ∀ e ∈ es, ∃ a : WithTop K, e.contribution = .ofTop a) :
    SameMeaning (es.map Entry.ground)
      (((Register.empty key n).insertAll es).cliques.map fun c => c.2.ground) := by
  have hentries : es.map Entry.ground =
      es.map fun e => (⟨.ofTop e.addend, e.literals⟩ : GroundClause (Extended K)) :=
    List.map_congr_left fun e h => Entry.ground_eq (he e h)
  rw [hentries]
  refine SameMeaning.trans ⟨fun s => ?_, fun s t hs ht => ?_⟩
    (.of_perm (cliques_ground_perm key n he).symm)
  · rw [satisfies_ofTop, satisfies_ofTop, forall_totalOver_iff]
  · rw [satisfies_ofTop, ← forall_totalOver_iff] at hs ht
    rw [spread, spread, List.map_map, List.map_map, ← sum_eraseDups_filter es]
    congr 1
    refine List.map_congr_left fun literals hliterals => ?_
    have hgap : totalOver es literals = ⊤ → gap K s t literals = 0 := by
      intro htop
      rw [gap, failing, failing, hs literals hliterals htop, ht literals hliterals htop, sub_self]
    have hsame : ∀ e ∈ es.filter (fun e => e.literals = literals),
        (Extended.ofTop e.addend).value * gap K s t e.literals =
          e.addend.untopD 0 * gap K s t literals := by
      intro e he
      rw [of_decide_eq_true (List.mem_filter.1 he).2, Extended.value_ofTop]
    simp only [Function.comp_apply, GroundClause.stake, Extended.value_ofTop]
    rw [untopD_totalOver_mul hgap]
    exact congrArg List.sum (List.map_congr_left hsame)

end MarkovLogic
