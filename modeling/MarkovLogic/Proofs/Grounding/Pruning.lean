/-
MarkovLogic/Proofs/Grounding/Pruning.lean

Skipping decided substitutions loses nothing.

One turn of the walk through the substitutions takes one of them in (`visit`).
Stepping on one by one, the walk takes in all combinations of digits, each
once and in the order of counting (`exhaustive_eq_foldl`).  Skipping, it leaves
out substitutions that agree with a decided one from its pivot on; these are
decided too, so the undecided ones are all taken in (`filter_visited`), and
taking in a decided substitution changes no more than the numbers of
substitutions, tautologies and absent atoms.  So both walks find the same
entries in the same order, the same atoms, and the same numbers of falsified,
filtered and emitted ground clauses (`harvest_sameYield`).
-/
import MarkovLogic.Proofs.Grounding.Probes
import MarkovLogic.Proofs.Odometer

namespace MarkovLogic.Grounding

namespace Harvest

variable {α : Type} [Scalar α]

/-- Takes in one substitution. -/
def visit (t : Template α) (options : Options) (interest : Nat → Bool) (h : Harvest α)
    (digits : List Nat) : Harvest α :=
  let h := { h with counts.substitutions := h.counts.substitutions + 1 }
  match judge digits t.probes [] with
  | .satisfied _ => { h with counts.tautologies := h.counts.tautologies + 1 }
  | .absent _ => { h with counts.absent := h.counts.absent + 1 }
  | .falsified => { h with counts.falsified := h.counts.falsified + 1 }
  | .pending literals => h.takePending t options interest literals

/-- The walk that steps on from every substitution. -/
def walkAll (t : Template α) (options : Options) (interest : Nat → Bool) :
    Nat → Odometer → Harvest α → Harvest α :=
  walk (fun o _ => o.advance) t options interest

/-- The combinations that a walk takes in, in their order. -/
def visited (leave : Odometer → Nat → Odometer) (t : Template α) :
    Nat → Odometer → List (List Nat)
  | 0, _ => []
  | fuel + 1, o =>
    match o.digits with
    | none => []
    | some digits =>
      digits :: visited leave t fuel
        (match (judge digits t.probes []).pivot? with
          | some pivot => leave o pivot
          | none => o.advance)

/-- A walk takes in one combination after the other. -/
theorem walk_eq_foldl (leave : Odometer → Nat → Odometer) (t : Template α) (options : Options)
    (interest : Nat → Bool) (fuel : Nat) (o : Odometer) (h : Harvest α) :
    walk leave t options interest fuel o h =
      (visited leave t fuel o).foldl (visit t options interest) h := by
  induction fuel generalizing o h with
  | zero => rfl
  | succ fuel ih =>
    rw [walk, visited]
    rcases o.digits with _ | digits
    · rfl
    · dsimp only
      rw [List.foldl_cons, visit]
      rcases judge digits t.probes [] with _ | _ | _ | _ <;> exact ih _ _

variable {t : Template α} {options : Options} {interest : Nat → Bool}

/-! ### Turns of the walk -/

omit [Scalar α] in
/-- Past the last combination nothing is taken in. -/
theorem visited_of_le {leave : Odometer → Nat → Odometer} {rs : List Nat} {n : Nat}
    (hn : rs.prod ≤ n) (fuel : Nat) : visited leave t fuel (Odometer.at_ rs n) = [] := by
  cases fuel with
  | zero => rfl
  | succ fuel => rw [visited, Odometer.at_digits_of_le hn]

omit [Scalar α] in
/-- A turn takes in the current combination and moves on. -/
theorem visited_succ {leave : Odometer → Nat → Odometer} {rs : List Nat} {n : Nat}
    (hn : n < rs.prod) (fuel : Nat) :
    visited leave t (fuel + 1) (Odometer.at_ rs n) =
      Odometer.digitsAt rs n :: visited leave t fuel
        (match (judge (Odometer.digitsAt rs n) t.probes []).pivot? with
          | some pivot => leave (Odometer.at_ rs n) pivot
          | none => Odometer.at_ rs (n + 1)) := by
  rw [visited, Odometer.at_digits_of_lt hn, Odometer.advance_at]

/-! ### Stepping through all substitutions -/

/-- The combinations from a number on begin with the one at this number. -/
theorem range'_eq_cons {rs : List Nat} {n : Nat} (hn : n < rs.prod) :
    List.range' n (rs.prod - n) = n :: List.range' (n + 1) (rs.prod - (n + 1)) := by
  rw [show rs.prod - n = rs.prod - (n + 1) + 1 by omega, List.range'_succ]

omit [Scalar α] in
/-- Stepping on, a walk takes in all combinations that are left. -/
theorem visited_advance (t : Template α) {rs : List Nat} (fuel n : Nat)
    (hfuel : rs.prod - n ≤ fuel) :
    visited (fun o _ => o.advance) t fuel (Odometer.at_ rs n) =
      (List.range' n (rs.prod - n)).map (Odometer.digitsAt rs) := by
  induction fuel generalizing n with
  | zero =>
    rw [show rs.prod - n = 0 by omega]
    rfl
  | succ fuel ih =>
    by_cases hn : n < rs.prod
    · have hmove : (match (judge (Odometer.digitsAt rs n) t.probes []).pivot? with
          | some _ => (Odometer.at_ rs n).advance
          | none => Odometer.at_ rs (n + 1)) = Odometer.at_ rs (n + 1) := by
        split
        · exact Odometer.advance_at rs n
        · rfl
      rw [visited_succ hn, hmove, range'_eq_cons hn, ih (n + 1) (by omega)]
      rfl
    · rw [visited_of_le (Nat.not_lt.1 hn), show rs.prod - n = 0 by omega]
      rfl

/-! ### Skipping -/

/-- Two harvests that differ at most in the numbers of substitutions,
tautologies and absent atoms. -/
structure SameYield (h h' : Harvest α) : Prop where
  entries_eq : h.entries = h'.entries
  atoms_eq : h.atoms = h'.atoms
  falsified_eq : h.counts.falsified = h'.counts.falsified
  filtered_eq : h.counts.filtered = h'.counts.filtered
  emitted_eq : h.counts.emitted = h'.counts.emitted

omit [Scalar α] in
theorem SameYield.refl (h : Harvest α) : SameYield h h :=
  ⟨rfl, rfl, rfl, rfl, rfl⟩

omit [Scalar α] in
theorem SameYield.symm {h h' : Harvest α} (e : SameYield h h') : SameYield h' h :=
  ⟨e.entries_eq.symm, e.atoms_eq.symm, e.falsified_eq.symm, e.filtered_eq.symm,
    e.emitted_eq.symm⟩

omit [Scalar α] in
theorem SameYield.trans {h h' h'' : Harvest α} (e : SameYield h h') (e' : SameYield h' h'') :
    SameYield h h'' :=
  ⟨e.entries_eq.trans e'.entries_eq, e.atoms_eq.trans e'.atoms_eq,
    e.falsified_eq.trans e'.falsified_eq, e.filtered_eq.trans e'.filtered_eq,
    e.emitted_eq.trans e'.emitted_eq⟩

/-- Taking in a substitution respects the yield. -/
theorem SameYield.visit {h h' : Harvest α} (e : SameYield h h') (digits : List Nat) :
    SameYield (h.visit t options interest digits) (h'.visit t options interest digits) := by
  obtain ⟨he, ha, hfa, hfi, hem⟩ := e
  rw [Harvest.visit, Harvest.visit]
  rcases judge digits t.probes [] with - | - | - | literals
  · exact ⟨he, ha, hfa, hfi, hem⟩
  · exact ⟨he, ha, hfa, hfi, hem⟩
  · exact ⟨he, ha, congrArg (· + 1) hfa, hfi, hem⟩
  · simp only [takePending]
    split
    · exact ⟨he, ha, hfa, hfi, hem⟩
    · split
      · exact ⟨he, ha, hfa, congrArg (· + 1) hfi, hem⟩
      · exact ⟨by rw [he], by rw [ha], hfa, hfi, by rw [hem]⟩

/-- Taking in a decided substitution yields nothing. -/
theorem visit_of_pivot? {h : Harvest α} {digits : List Nat} {pivot : Nat}
    (hp : (judge digits t.probes []).pivot? = some pivot) :
    SameYield (h.visit t options interest digits) h := by
  rw [visit]
  generalize judge digits t.probes [] = verdict at hp
  cases verdict with
  | satisfied p => exact ⟨rfl, rfl, rfl, rfl, rfl⟩
  | absent p => exact ⟨rfl, rfl, rfl, rfl, rfl⟩
  | falsified => cases hp
  | pending literals => cases hp

/-- Whether no literal decides the clause under a combination. -/
def isUndecided (t : Template α) (ds : List Nat) : Bool :=
  (judge ds t.probes []).pivot?.isNone

/-- Decided substitutions may be left out. -/
theorem SameYield.foldl_filter (t : Template α) (options : Options) (interest : Nat → Bool)
    {h h' : Harvest α} (e : SameYield h h') (dss : List (List Nat)) :
    SameYield (dss.foldl (Harvest.visit t options interest) h)
      ((dss.filter (isUndecided t)).foldl (Harvest.visit t options interest) h') := by
  induction dss generalizing h h' with
  | nil => exact e
  | cons ds dss ih =>
    rcases hp : (judge ds t.probes []).pivot? with _ | pivot
    · rw [List.filter_cons_of_pos (by simp [isUndecided, hp])]
      exact ih (e.visit ds)
    · rw [List.filter_cons_of_neg (by simp [isUndecided, hp])]
      exact ih ((visit_of_pivot? hp).trans e)

omit [Scalar α] in
/-- Between a decided substitution and the end of the skip all are decided. -/
theorem decided_of_skip {rs : List Nat} (ht : AskedByPivot t.probes) {n m pivot : Nat}
    (hp : (judge (Odometer.digitsAt rs n) t.probes []).pivot? = some pivot)
    (hm : m / (rs.take pivot).prod = n / (rs.take pivot).prod) :
    (judge (Odometer.digitsAt rs m) t.probes []).pivot? = some pivot := by
  have hdrop : (Odometer.digitsAt rs n).drop pivot = (Odometer.digitsAt rs m).drop pivot := by
    rw [Odometer.drop_digitsAt, Odometer.drop_digitsAt, hm]
  rw [judge_of_drop_eq ht hp hdrop, hp]

omit [Scalar α] in
/-- A turn that skips leaves out decided combinations only. -/
theorem filter_skipped {rs : List Nat} (ht : AskedByPivot t.probes) {n pivot stop : Nat}
    (hp : (judge (Odometer.digitsAt rs n) t.probes []).pivot? = some pivot)
    (hstop : stop ≤ (n / (rs.take pivot).prod + 1) * (rs.take pivot).prod) :
    ((List.range' n (stop - n)).map (Odometer.digitsAt rs)).filter (isUndecided t) = [] := by
  rw [List.filter_eq_nil_iff]
  intro ds hds
  obtain ⟨m, hm, rfl⟩ := List.mem_map.1 hds
  rw [List.mem_range'_1] at hm
  rw [isUndecided, decided_of_skip ht hp (Nat.div_eq_of_lt_le ?_ ?_)]
  · exact Bool.false_ne_true
  · exact Nat.le_trans (Nat.div_mul_le_self n _) hm.1
  · omega

theorem range'_split {n stop total : Nat} (hn : n ≤ stop) (hstop : stop ≤ total) :
    List.range' n (total - n) =
      List.range' n (stop - n) ++ List.range' stop (total - stop) := by
  have happend := List.range'_append_1 (s := n) (m := stop - n) (n := total - stop)
  rw [show n + (stop - n) = stop by omega] at happend
  rw [happend, show stop - n + (total - stop) = total - n by omega]

omit [Scalar α] in
/-- Skipping, a walk takes in all undecided combinations that are left, each once
and in the order of counting.  The induction is on the fuel, that is, on the
turns of the walk; each turn accounts for all combinations up to where it goes. -/
theorem filter_visited {rs : List Nat} (ht : AskedByPivot t.probes) (fuel n : Nat)
    (hfuel : rs.prod - n ≤ fuel) :
    (visited Odometer.skipPast t fuel (Odometer.at_ rs n)).filter (isUndecided t) =
      ((List.range' n (rs.prod - n)).map (Odometer.digitsAt rs)).filter (isUndecided t) := by
  induction fuel generalizing n with
  | zero =>
    rw [show rs.prod - n = 0 by omega]
    rfl
  | succ fuel ih =>
    by_cases hn : n < rs.prod
    · rw [visited_succ hn]
      rcases hp : (judge (Odometer.digitsAt rs n) t.probes []).pivot? with - | pivot
      · -- nothing decided: the walk steps to the next number
        have hundecided : isUndecided t (Odometer.digitsAt rs n) = true := by
          rw [isUndecided, hp]
          rfl
        rw [range'_eq_cons hn, List.map_cons, List.filter_cons_of_pos hundecided,
          List.filter_cons_of_pos hundecided]
        exact congrArg (Odometer.digitsAt rs n :: ·) (ih (n + 1) (by omega))
      · have hdecided : ¬ isUndecided t (Odometer.digitsAt rs n) = true := by
          rw [isUndecided, hp]
          exact Bool.false_ne_true
        have hpos : 0 < (rs.take pivot).prod := by
          refine Nat.pos_of_ne_zero fun hz => ?_
          rw [← List.prod_take_mul_prod_drop rs pivot, hz, Nat.zero_mul] at hn
          omega
        -- the turn accounts for all numbers from `n` to below `stop`
        obtain ⟨stop, hstop⟩ : ∃ stop,
            stop = (n / (rs.take pivot).prod + 1) * (rs.take pivot).prod := ⟨_, rfl⟩
        have hlt : n < stop := by
          rw [hstop, Nat.add_mul, Nat.one_mul]
          exact Nat.lt_div_mul_add hpos
        rw [List.filter_cons_of_neg hdecided]
        simp only [Odometer.skipPast_at]
        rw [← hstop]
        by_cases hbelow : stop ≤ rs.prod
        · rw [ih stop (by omega), range'_split (Nat.le_of_lt hlt) hbelow, List.map_append,
            List.filter_append, filter_skipped ht hp (Nat.le_of_eq hstop), List.nil_append]
        · -- the skip goes past the last combination
          have hpast : rs.prod ≤ stop := Nat.le_of_not_le hbelow
          rw [visited_of_le hpast, filter_skipped ht hp (hstop ▸ hpast), List.filter_nil]
    · rw [visited_of_le (Nat.not_lt.1 hn), show rs.prod - n = 0 by omega]
      rfl

omit [Scalar α] in
/-- Grounding takes in all undecided combinations. -/
theorem filter_visited_start (ht : AskedByPivot t.probes) :
    (visited Odometer.skipPast t (Odometer.start t.radices).size
        (Odometer.start t.radices)).filter (isUndecided t) =
      (Odometer.combinations t.radices).filter (isUndecided t) := by
  have hall := filter_visited ht _ 0 (Nat.le_of_eq (Odometer.size_start t.radices).symm)
  rwa [← Odometer.start_eq_at, Nat.sub_zero, ← List.range_eq_range'] at hall

end Harvest

/-! ### The main theorem -/

variable {α : Type} [Scalar α]

/-- Grounds a clause by asking about every substitution. -/
def exhaustive (t : Template α) (options : Options) (interest : Nat → Bool) : Harvest α :=
  if t.weight == 0 then .empty
  else
    let o := Odometer.start t.radices
    Harvest.walkAll t options interest o.size o .empty

/-- Asking about every substitution takes in all combinations of digits. -/
theorem exhaustive_eq_foldl (t : Template α) (options : Options) (interest : Nat → Bool) :
    exhaustive t options interest =
      if t.weight == 0 then .empty
      else (Odometer.combinations t.radices).foldl (Harvest.visit t options interest) .empty := by
  have hall := Harvest.visited_advance t _ 0 (Nat.le_of_eq (Odometer.size_start t.radices).symm)
  rw [← Odometer.start_eq_at, Nat.sub_zero, ← List.range_eq_range'] at hall
  simp only [exhaustive, Harvest.walkAll, Harvest.walk_eq_foldl, hall, Odometer.combinations]

/-- Grounding a clause yields what taking in all combinations yields. -/
theorem harvest_sameYield_foldl {t : Template α} (ht : AskedByPivot t.probes) (options : Options)
    (interest : Nat → Bool) :
    (harvest t options interest).SameYield
      (if t.weight == 0 then .empty
      else (Odometer.combinations t.radices).foldl (Harvest.visit t options interest) .empty) := by
  rw [harvest]
  split
  · exact .refl _
  · have hvisited := (Harvest.SameYield.refl (.empty : Harvest α)).foldl_filter t options interest
      (Harvest.visited Odometer.skipPast t (Odometer.start t.radices).size
        (Odometer.start t.radices))
    rw [Harvest.filter_visited_start ht] at hvisited
    rw [Harvest.walk_eq_foldl]
    exact hvisited.trans (((Harvest.SameYield.refl _).foldl_filter t options interest _).symm)

/-- **Skipping loses nothing**: grounding a clause finds the same entries in the
same order, the same atoms and the same numbers of falsified, filtered and
emitted ground clauses as asking about every substitution. -/
theorem harvest_sameYield (m : Model α) (index : Nat) (c : Clause α) (t : Template α)
    (h : Template.make m index c = .ok t) (options : Options) (interest : Nat → Bool) :
    (harvest t options interest).SameYield (exhaustive t options interest) ∧
      exhaustive t options interest =
        if t.weight == 0 then .empty
        else (Odometer.combinations t.radices).foldl (Harvest.visit t options interest) .empty := by
  refine ⟨?_, exhaustive_eq_foldl t options interest⟩
  rw [exhaustive_eq_foldl]
  exact harvest_sameYield_foldl (askedByPivot_of_make h) options interest

/-- Two people, of whom some smoke, in a closed world, and some are friends, in
an open one. -/
def smokersModel : Model Float :=
  let people := Domain.ofList ["Anna", "Bob"]
  { kb := .empty, domains := ∅, base := ⟨[], 1, none⟩
    evidence := [
      .empty ⟨⟨"Smokes", 1⟩, 1, [people]⟩ .closed,
      .empty ⟨⟨"Friends", 2⟩, 3, [people, people]⟩ .open]
    query := ∅, annotation := none }

/-- Everybody is a friend of those who do not smoke. -/
def smokersClause : Clause Float :=
  ⟨1.5, [⟨true, "Friends", [.var "x", .var "y"]⟩, ⟨true, "Smokes", [.var "y"]⟩]⟩

/-- The clause can be prepared, and skipping loses none of its ground clauses. -/
theorem harvest_sameYield_smokers :
    ∃ t, Template.make smokersModel 0 smokersClause = .ok t ∧
      (harvest t ⟨false, false⟩ fun _ => true).SameYield
        (exhaustive t ⟨false, false⟩ fun _ => true) := by
  have hweight : Scalar.isNaN (1.5 : Float) = false := by decide
  have hmake : ∃ t, Template.make smokersModel 0 smokersClause = .ok t := by
    simp [Template.make, smokersClause, smokersModel, resolve, Model.evidenceOf?,
      Evidence.signature, Evidence.empty, Atom.signature, hweight, List.mergeSort,
      List.MergeSort.Internal.splitInTwo, List.merge, Resolved.before, Resolved.rank, digitsOf,
      variablesOf, domainOf?, Resolved.typedTerms, Atom.vars, Term.varName?, List.eraseDups_cons,
      bind, Except.bind, pure, Except.pure]
  obtain ⟨t, ht⟩ := hmake
  exact ⟨t, ht, (harvest_sameYield _ _ _ t ht ⟨false, false⟩ fun _ => true).1⟩

end MarkovLogic.Grounding
