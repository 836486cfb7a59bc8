/-
MarkovLogic/Proofs/Relaxation/Decided.lean

What the relaxation decides stays decided.

An atom whose value is close to one or to zero is fixed to that value.  After
that, rounding up and setting atoms to the nearer value touch only the atoms that
are left over, and the local search that follows leaves fixed atoms alone
(`keepsFixed_search`).  So the atom has this value in the assignment that is
returned, whatever the values of the other atoms, and whatever the search does
with them.

Two things have to be seen for that.  An atom is either fixed or left over, never
both, although the list of atoms is gone through without a look at what came
before: the value belongs to the atom, not to its place in the list
(`Consistent`).  And each atom with a variable is in that list, with the value of
its variable, for whatever network the relaxation was built from
(`tabled_ofNetwork`).

Values are compared with the thresholds as they are computed, and one minus the
tolerance may be rounded.  A value above it is looked for first, so for the low
values one thing has to be known of the arithmetic: that no value passes for both
(`ThresholdsApart`).  Exact numbers have this law, and so do floating point ones,
where rounding does not go past one half (`Floating.not_one_sub_lt_half`).

Main statement: `fixed_stay_fixed`.
-/
import MarkovLogic.Proofs.Floating
import MarkovLogic.Proofs.LocalSearch.Fixed
import MarkovLogic.Proofs.Relaxation.Certificate

namespace MarkovLogic

open Linear

variable {α : Type} [Scalar α] {net : Network α}

/-! ### Pinned atoms -/

namespace State

/-- An atom is fixed and has a certain value. -/
structure Pinned (s : State α) (a : Nat) (v : Bool) : Prop where
  isFixed : s.isFixed a = true
  value : s.value a = v

/-- Fixing an atom of the network pins it. -/
theorem pinned_fix {s : State α} (h : Reachable net s) {a : Nat} (ha : a < net.nodes.size)
    (v : Bool) : Pinned (s.fix net a v) a v := by
  constructor
  · rw [State.isFixed, fixing_fix, getD_setIfInBounds,
      if_pos ⟨rfl, by rwa [(sized_of_reachable h).fixing]⟩]
    rfl
  · rw [State.value, getD_values_fix, if_pos ⟨rfl, by rwa [(sized_of_reachable h).values]⟩]

namespace Pinned

variable {s : State α} {a b : Nat} {v w : Bool}

/-- Fixing another atom changes nothing, nor does fixing the same to the same
value. -/
theorem fix (h : Pinned s a v) (hsame : b = a → w = v) : Pinned (s.fix net b w) a v := by
  constructor
  · rw [State.isFixed, fixing_fix, getD_setIfInBounds]
    split
    · rfl
    · exact h.isFixed
  · rw [State.value, getD_values_fix]
    split
    · rename_i hab
      exact hsame hab.1
    · exact h.value

theorem flip (h : Pinned s a v) (hne : b ≠ a) : Pinned (s.flip net b) a v :=
  ⟨(isFixed_congr (rebooked_flip net s b).fixing a).trans h.isFixed,
    (value_flip_of_ne net s hne).trans h.value⟩

theorem search {ρ : Type} [RandomSource ρ] (h : Pinned s a v)
    (settings : LocalSearch.Settings α) (r : ρ) :
    Pinned (LocalSearch.search net settings s r).state a v :=
  have hkept := LocalSearch.keepsFixed_search net settings s r
  ⟨(isFixed_congr hkept.fixing a).trans h.isFixed, (hkept.value a h.isFixed).trans h.value⟩

omit [Scalar α] in
theorem getElem?_values (h : Pinned s a v) (ha : a < s.values.size) : s.values[a]? = some v := by
  have hvalue := h.value
  rw [State.value, Array.getD_eq_getD_getElem?, Array.getElem?_eq_getElem ha] at hvalue
  rw [Array.getElem?_eq_getElem ha]
  exact congrArg some hvalue

end Pinned

end State

namespace Relaxation

open State

/-! ### Thresholds -/

/-- What a tolerance says about a value: that it stands for true, that it stands
for false, or nothing. -/
def verdict? (tolerance x : α) : Option Bool :=
  if 1 - tolerance < x then some true else if x < tolerance then some false else none

/-- What the tolerance says of a value. -/
theorem eq_of_verdict? {tolerance x : α} {v : Bool} (h : verdict? tolerance x = some v) :
    v = decide (1 - tolerance < x) := by
  rw [verdict?] at h
  split at h
  · rename_i habove
    rw [decide_eq_true habove, Option.some.inj h]
  · rename_i habove
    rw [decide_eq_false habove]
    split at h
    · exact (Option.some.inj h).symm
    · cases h

theorem verdict?_eq_none_iff {tolerance x : α} :
    verdict? tolerance x = none ↔ ¬ 1 - tolerance < x ∧ ¬ x < tolerance := by
  rw [verdict?]
  split
  · simp [*]
  · split <;> simp [*]

theorem threshold_eq (net : Network α) (tolerance : α) (t : Thresholded α) (e : Nat × α) :
    threshold net tolerance t e =
      match verdict? tolerance e.2 with
      | some v => { t with state := t.state.fix net e.1 v }
      | none => { t with fractional := t.fractional ++ [e] } := by
  rw [threshold, verdict?]
  split
  · rfl
  · split <;> rfl

theorem thresholds_concat (net : Network α) (tolerance : α) (entries : List (Nat × α))
    (e : Nat × α) : thresholds net tolerance (entries ++ [e]) =
      threshold net tolerance (thresholds net tolerance entries) e := by
  rw [thresholds, List.foldl_append]
  rfl

theorem reachable_thresholds (tolerance : α) (entries : List (Nat × α)) :
    Reachable net (thresholds net tolerance entries).state := by
  refine List.foldlRecOn (motive := fun t : Thresholded α => Reachable net t.state)
    _ _ .refl fun t ht entry _ => ?_
  rw [threshold_eq]
  split
  · exact ht.tail (.fix entry.1 _)
  · exact ht

/-- The atoms that are left over, in their order. -/
theorem fractional_thresholds (net : Network α) (tolerance : α) (entries : List (Nat × α)) :
    (thresholds net tolerance entries).fractional =
      entries.filter fun e => (verdict? tolerance e.2).isNone := by
  induction entries using List.reverseRecOn with
  | nil => rfl
  | append_singleton entries e ih =>
    rw [thresholds_concat, threshold_eq, List.filter_append, ← ih]
    cases hv : verdict? tolerance e.2 <;> simp [hv]

/-- The atoms that are left over are those that the tolerance says nothing
about. -/
theorem mem_fractional {tolerance : α} {entries : List (Nat × α)} {e : Nat × α}
    (h : e ∈ (thresholds net tolerance entries).fractional) :
    e ∈ entries ∧ verdict? tolerance e.2 = none := by
  rwa [fractional_thresholds, List.mem_filter, Option.isNone_iff_eq_none] at h

/-- Each atom comes with one value only. -/
def Consistent (entries : List (Nat × α)) : Prop :=
  ∀ e ∈ entries, ∀ f ∈ entries, e.1 = f.1 → e.2 = f.2

/-- An atom that the tolerance decides is pinned, and no later entry changes
that. -/
theorem pinned_thresholds {tolerance : α} {entries : List (Nat × α)} (hc : Consistent entries)
    {e : Nat × α} (he : e ∈ entries) (ha : e.1 < net.nodes.size) {v : Bool}
    (hv : verdict? tolerance e.2 = some v) :
    Pinned (thresholds net tolerance entries).state e.1 v := by
  -- from the end of the list: the last entry pins the atom, or it was pinned before
  induction entries using List.reverseRecOn with
  | nil => cases he
  | append_singleton entries f ih =>
    rw [thresholds_concat, threshold_eq]
    rcases List.mem_append.mp he with hold | hnew
    · have hpinned := ih
        (fun g hg k hk => hc g (List.mem_append_left _ hg) k (List.mem_append_left _ hk)) hold
      split
      · rename_i w hw
        refine hpinned.fix fun hatom => ?_
        -- the same atom, so the same value and the same verdict
        rw [hc f (List.mem_append_right _ List.mem_cons_self) e he hatom, hv] at hw
        exact (Option.some.inj hw).symm
      · exact hpinned
    · obtain rfl : e = f := List.mem_singleton.mp hnew
      rw [hv]
      exact pinned_fix (reachable_thresholds tolerance entries) ha v

/-! ### Rounding -/

/-- An atom that is decided is not left over. -/
theorem ne_of_mem_fractional {tolerance : α} {entries : List (Nat × α)} (hc : Consistent entries)
    {e : Nat × α} (he : e ∈ entries) {v : Bool} (hv : verdict? tolerance e.2 = some v)
    {f : Nat × α} (hf : f ∈ (thresholds net tolerance entries).fractional) : f.1 ≠ e.1 := by
  intro hatom
  obtain ⟨hmem, hnone⟩ := mem_fractional hf
  rw [hc f hmem e he hatom, hv] at hnone
  cases hnone

/-- What is kept when atoms that are left over are fixed and flipped, and when a
search runs, is kept by both ways of rounding. -/
theorem round_induction {ρ : Type} [RandomSource ρ] {settings : Settings α}
    {searching : LocalSearch.Settings α} {entries : List (Nat × α)} {P : State α → Prop}
    (hfix : ∀ s, ∀ f ∈ (thresholds net settings.tolerance entries).fractional, ∀ v, P s →
      P (s.fix net f.1 v))
    (hflip : ∀ s, ∀ f ∈ (thresholds net settings.tolerance entries).fractional, P s →
      P (s.flip net f.1))
    (hsearch : ∀ s (r : ρ), P s → P (LocalSearch.search net searching s r).state)
    (h : P (thresholds net settings.tolerance entries).state) :
    ∃ s, (round ρ net settings searching entries).assignment = s.values ∧ P s := by
  have hup : P (roundUp net (thresholds net settings.tolerance entries)) :=
    List.foldlRecOn (motive := P) _ _ h fun s hs f hf =>
      hfix s f (List.mem_reverse.mp hf) _ hs
  have hnearest : P (setNearest net (thresholds net settings.tolerance entries)) :=
    List.foldlRecOn (motive := P) _ _ h fun s hs f hf => by
      dsimp only
      split
      · exact hflip s f hf hs
      · exact hs
  rw [round]
  split
  · exact ⟨_, rfl, hup⟩
  · dsimp only
    split
    · exact ⟨_, rfl, hnearest⟩
    · exact ⟨_, rfl, hsearch _ _ hnearest⟩

/-- Rounding assigns every atom. -/
theorem size_round (ρ : Type) [RandomSource ρ] (settings : Settings α)
    (searching : LocalSearch.Settings α) (entries : List (Nat × α)) :
    (round ρ net settings searching entries).assignment.size = net.nodes.size := by
  obtain ⟨s, hvalues, hreachable⟩ :
      ∃ s, (round ρ net settings searching entries).assignment = s.values ∧ Reachable net s :=
    round_induction (P := Reachable net) (fun _ f _ v hs => hs.tail (.fix f.1 v))
      (fun _ f _ hs => hs.tail (.flip f.1))
      (fun _ r hs => LocalSearch.reachable_search hs searching r)
      (reachable_thresholds settings.tolerance entries)
  rw [hvalues, (sized_of_reachable hreachable).values]

/-- Both ways of rounding leave the atoms that are decided as they are. -/
theorem getElem?_round (ρ : Type) [RandomSource ρ] (settings : Settings α)
    (searching : LocalSearch.Settings α) {entries : List (Nat × α)} (hc : Consistent entries)
    {e : Nat × α} (he : e ∈ entries) (ha : e.1 < net.nodes.size) {v : Bool}
    (hv : verdict? settings.tolerance e.2 = some v) :
    (round ρ net settings searching entries).assignment[e.1]? = some v := by
  obtain ⟨s, hvalues, hpinned⟩ :
      ∃ s, (round ρ net settings searching entries).assignment = s.values ∧ Pinned s e.1 v :=
    round_induction
      (fun _ f hf _ hs => hs.fix fun hatom => absurd hatom (ne_of_mem_fractional hc he hv hf))
      (fun _ f hf hs => hs.flip (ne_of_mem_fractional hc he hv hf))
      (fun _ r hs => hs.search searching r) (pinned_thresholds hc he ha hv)
  have hlt : e.1 < s.values.size := by
    rwa [← hvalues, size_round]
  rw [hvalues]
  exact hpinned.getElem?_values hlt

/-- An atom comes with the value of its variable, of which it has one. -/
theorem consistent_atomValues (r : Relaxation α) (values : List α) :
    Consistent (r.atomValues values) := by
  intro e he f hf hatom
  obtain ⟨-, v, hv, hx⟩ := mem_atomValues_iff.1 he
  obtain ⟨-, w, hw, hy⟩ := mem_atomValues_iff.1 hf
  rw [hatom, hw] at hv
  rw [hx, hy, Option.some.inj hv]

/-! ### Inference -/

section Inference

variable {ρ : Type} [RandomSource ρ] {solver : Solver α} {settings : Settings α}
  {searching : LocalSearch.Settings α} {gold : Option (Nat → Bool)} {result : MapState α}

/-- What inference returns is made by rounding as many values as there are
variables. -/
theorem infer_eq_ok (h : infer ρ solver net settings searching gold = .ok result) :
    ∃ solution, solver (relax net settings gold).program = .ok solution ∧
      solution.values.length = (relax net settings gold).program.vars.size ∧
      result.assignment = (round ρ net settings searching
        ((relax net settings gold).atomValues solution.values)).assignment := by
  obtain ⟨solution, hsolution, h⟩ := bind_eq_ok_iff.1 h
  dsimp only at h
  split at h
  · cases h
  · change (if _ then _ else _) = _ at h
    split at h
    · cases h
    · rename_i hlength
      cases h
      refine ⟨solution, ?_, not_not.1 hlength, rfl⟩
      rcases hsolver : solver (relax net settings gold).program with error | found
      · rw [hsolver] at hsolution
        cases hsolution
      · rw [hsolver] at hsolution
        exact congrArg Except.ok (Except.ok.inj hsolution)

/-- Relaxation assigns every atom. -/
theorem size_infer (h : infer ρ solver net settings searching gold = .ok result) :
    result.assignment.size = net.nodes.size := by
  obtain ⟨_, -, -, hassignment⟩ := infer_eq_ok h
  rw [hassignment, size_round]

/-- Every atom with a variable has a value, and if the tolerance decides it, the
atom is assigned accordingly. -/
theorem getElem?_infer (h : infer ρ solver net settings searching gold = .ok result) :
    ∃ solution, solver (relax net settings gold).program = .ok solution ∧
      ∀ a v, (relax net settings gold).atomVars.getD a none = some v →
        ∃ x, solution.values[v]? = some x ∧ ∀ b, verdict? settings.tolerance x = some b →
          result.assignment[a]? = some b := by
  obtain ⟨solution, hsolution, hlength, hassignment⟩ := infer_eq_ok h
  have htabled : Tabled net (relax net settings gold) := tabled_ofNetwork net _
  refine ⟨solution, hsolution, fun a v hv => ?_⟩
  obtain ⟨x, hx⟩ : ∃ x, solution.values[v]? = some x :=
    ⟨_, List.getElem?_eq_getElem (hlength.symm ▸ htabled.lt_size a v hv)⟩
  refine ⟨x, hx, fun b hb => ?_⟩
  have hentry : (a, x) ∈ (relax net settings gold).atomValues solution.values :=
    mem_atomValues_iff.2 ⟨htabled.discovered a v hv, v, hv, by rw [hx]; rfl⟩
  rw [hassignment]
  exact getElem?_round ρ settings searching (consistent_atomValues _ _) hentry
    (htabled.lt_nodes hv) hb

end Inference

/-! ### The main statement -/

/-- No value is below a tolerance of less than one half and above one minus the
tolerance, as this number is computed.  Where numbers are rounded it need not be
the difference itself: a tolerance may be too small to change one at all. -/
def ThresholdsApart (α : Type) [Scalar α] : Prop :=
  ∀ t x : α, t < 0.5 → x < t → ¬ 1 - t < x

section Exact

variable {K : Type} [Field K] [LinearOrder K] [FloorRing K]

theorem half_eq : (0.5 : Extended K) = .finite (1 / 2) := by
  show Extended.finite _ = _
  norm_num

theorem thresholdsApart_extended [IsStrictOrderedRing K] : ThresholdsApart (Extended K) := by
  intro tolerance x hhalf hx hlarge
  cases tolerance with
  | finite t =>
    have ht : t < 1 / 2 := by
      rwa [half_eq, Extended.finite_lt] at hhalf
    cases x with
    | finite y =>
      rw [Extended.one_eq, Extended.finite_sub, Extended.finite_lt] at hlarge
      rw [Extended.finite_lt] at hx
      linarith
    | negInf => cases hlarge
    | posInf => cases hx
    | nan => cases hx
  | posInf => cases hhalf
  | negInf => cases x <;> cases hx
  | nan => cases hhalf

end Exact

/-- Rounding one minus the tolerance does not go past one half. -/
theorem thresholdsApart_float : ThresholdsApart Float := by
  intro t x hhalf hx hlarge
  exact Floating.not_one_sub_lt_half hhalf
    (Floating.lt_trans hlarge (Floating.lt_trans hx hhalf))

/-- A tolerance below one half keeps the values that stand for false apart from
those that stand for true. -/
theorem verdict?_of_lt (hlaw : ThresholdsApart α) {tolerance x : α} (hhalf : tolerance < 0.5)
    (hx : x < tolerance) : verdict? tolerance x = some false := by
  rw [verdict?, if_neg (hlaw tolerance x hhalf hx), if_pos hx]

/-- **Fixed atoms stay fixed.**  A search, from whatever state of whatever network,
with whatever settings and random numbers, leaves the flags of all atoms as they
are, and the values of those that are fixed.  And if inference by relaxation and
rounding returns an assignment, then every atom with a variable has a value in the
solution, whatever the solver returns.  The atom is assigned true if the value is
above one minus the tolerance, as this difference is computed; and it is assigned
false if the value is below the tolerance, provided that the tolerance is below one
half, in an arithmetic that keeps the two thresholds apart, as exact arithmetic
(`thresholdsApart_extended`) and floating point arithmetic (`thresholdsApart_float`)
do.  This is so whichever way of rounding is asked for, and however long the search
that follows takes. -/
theorem fixed_stay_fixed (ρ α : Type) [RandomSource ρ] [Scalar α] :
    (∀ (net : Network α) (settings : LocalSearch.Settings α) (s : State α) (r : ρ),
      (LocalSearch.search net settings s r).state.fixing = s.fixing ∧
        ∀ a, s.isFixed a = true →
          (LocalSearch.search net settings s r).state.value a = s.value a) ∧
    ∀ (net : Network α) (settings : Settings α) (searching : LocalSearch.Settings α)
      (gold : Option (Nat → Bool)) (solver : Solver α) (result : MapState α),
      infer ρ solver net settings searching gold = .ok result →
      ∃ solution, solver (relax net settings gold).program = .ok solution ∧
        ∀ a v, (relax net settings gold).atomVars.getD a none = some v →
          ∃ x, solution.values[v]? = some x ∧
            (1 - settings.tolerance < x → result.assignment[a]? = some true) ∧
            (ThresholdsApart α → settings.tolerance < 0.5 → x < settings.tolerance →
              result.assignment[a]? = some false) := by
  constructor
  · intro net settings s r
    have hkept := LocalSearch.keepsFixed_search net settings s r
    exact ⟨hkept.fixing, hkept.value⟩
  · intro net settings searching gold solver result hinfer
    obtain ⟨solution, hsolution, hdecided⟩ := getElem?_infer hinfer
    refine ⟨solution, hsolution, fun a v hv => ?_⟩
    obtain ⟨x, hx, hverdict⟩ := hdecided a v hv
    refine ⟨x, hx, fun hlarge => hverdict true ?_, fun hlaw hhalf hsmall => hverdict false ?_⟩
    · rw [verdict?, if_pos hlarge]
    · exact verdict?_of_lt hlaw hhalf hsmall

/-- A weight for each of two atoms. -/
def twoUnits (w u : α) : List (UInt64 × Clique α) := [
  (1, ⟨[1], w, [(0, 1)]⟩),
  (2, ⟨[2], u, [(1, 1)]⟩)]

theorem assemble_twoUnits {w u : α} (hw : (w == 0) = false) (hu : (u == 0) = false)
    (hw' : Scalar.isInfinite w = false) (hu' : Scalar.isInfinite u = false) :
    (Network.assemble (twoUnits w u) [] none).constraints = #[
      ⟨1, .soft w, [1], [⟨0, true⟩], [(0, 1)]⟩, ⟨2, .soft u, [2], [⟨1, true⟩], [(1, 1)]⟩] ∧
    (Network.assemble (twoUnits w u) [] none).nodes =
      #[⟨1, #[0], #[]⟩, ⟨2, #[1], #[]⟩] := by
  simp [Network.assemble, twoUnits, Network.addClique, Network.addLiterals, Network.addLiteral,
    Network.intern, Network.blank, Network.strengthOf, hw, hu, hw', hu']

theorem relax_twoUnits {w u : α} (hw : (w == 0) = false) (hu : (u == 0) = false)
    (hw' : Scalar.isInfinite w = false) (hu' : Scalar.isInfinite u = false)
    (settings : Settings α) :
    (relax (Network.assemble (twoUnits w u) [] none) settings none).program.vars.size = 2 ∧
    (relax (Network.assemble (twoUnits w u) [] none) settings none).atomVars =
      #[some 0, some 1] := by
  obtain ⟨hconstraints, hnodes⟩ := assemble_twoUnits hw hu hw' hu'
  simp [relax, ofNetwork, blank, addConstraint, terms, varOf, Program.addVariable,
    Program.addObjective, Program.addOffset, Program.empty, apply_ite, hconstraints, hnodes]

/-- Values within one hundredth of zero and one are decided. -/
def hundredth : Settings Float :=
  ⟨.localSearch, 0.01, false, 100⟩

def floatSearch : LocalSearch.Settings Float :=
  ⟨100, 1, 0, 0.1, 3, 1, 0, .random⟩

/-- Comes close to one for the first variable and to zero for the second. -/
def nearlyIntegral : Solver Float := fun p =>
  .ok ⟨.optimal, [0.995, 0.005], p.evaluate [0.995, 0.005]⟩

theorem fixed_stay_fixed_twoUnits :
    let net := Network.assemble (twoUnits (2 : Float) (-3)) [] none
    let s := (start net).fix net 1 true
    s.isFixed 1 = true ∧
      (LocalSearch.search net floatSearch s (RandomSource.ofSeed 7 : ChaCha)).state.value 1 =
        true ∧
      ThresholdsApart Float ∧ hundredth.tolerance < 0.5 ∧
      ∃ result, infer ChaCha nearlyIntegral net hundredth floatSearch none = .ok result ∧
        result.assignment[0]? = some true ∧ result.assignment[1]? = some false := by
  intro net s
  have hw : ((2 : Float) == 0) = false := by decide +kernel
  have hu : ((-3 : Float) == 0) = false := by decide +kernel
  have hnet := assemble_twoUnits hw hu (by decide +kernel) (by decide +kernel)
  obtain ⟨hsize, hvars⟩ := relax_twoUnits hw hu (by decide +kernel) (by decide +kernel) hundredth
  have hnodes : (1 : Nat) < net.nodes.size := by
    rw [hnet.2]
    decide
  have hpinned : Pinned s 1 true := pinned_fix .refl hnodes true
  have htolerance : hundredth.tolerance < 0.5 := by decide +kernel
  obtain ⟨result, hinfer⟩ :
      ∃ result, infer ChaCha nearlyIntegral net hundredth floatSearch none = .ok result :=
    ⟨_, infer_of_solved ChaCha floatSearch rfl hsize.symm⟩
  obtain ⟨hsearch, hround⟩ := fixed_stay_fixed ChaCha Float
  obtain ⟨-, hvalues⟩ := hsearch net floatSearch s (RandomSource.ofSeed 7)
  obtain ⟨solution, hsolution, hassigned⟩ :=
    hround net hundredth floatSearch none nearlyIntegral result hinfer
  cases hsolution
  obtain ⟨x, hx, hone, -⟩ := hassigned 0 0 (by rw [hvars]; rfl)
  obtain ⟨y, hy, -, hzero⟩ := hassigned 1 1 (by rw [hvars]; rfl)
  cases hx
  cases hy
  exact ⟨hpinned.isFixed, (hvalues 1 hpinned.isFixed).trans hpinned.value,
    thresholdsApart_float, htolerance, result, hinfer, hone (by decide +kernel),
    hzero thresholdsApart_float htolerance (by decide +kernel)⟩

end Relaxation

end MarkovLogic
