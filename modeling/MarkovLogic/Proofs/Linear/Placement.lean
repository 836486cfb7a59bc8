/-
MarkovLogic/Proofs/Linear/Placement.lean

The rows of a program in the first tableau.

Building a tableau brings each row of the program to a normal form with a right side
that is not negative, which turns some rows around but does not change what they say
(`holds_normalRow`).  Then each row is placed with columns of its own for what it
leaves over (`placeRow`).  The slack columns of all rows are numbered one after the
other, and so are the artificial ones, so no row has the basic column of another one
(`pairwise_placeRows`).

A solution of the placed rows without artificial columns satisfies the normal rows
(`holds_of_dot_placeRows`).  Conversely a function that satisfies these is continued
to the slack columns by what the rows leave over, one row after the other (`fill`),
and the result solves the placed rows (`fill_spec`).
-/
import MarkovLogic.Proofs.Linear.Sparse
import MarkovLogic.Linear.Tableau

namespace MarkovLogic.Linear

open scoped ExactField

variable {K : Type} [Field K] [LinearOrder K]

/-- The two sides compare as the relation says. -/
def Relation.Compares : Relation → K → K → Prop
  | .atMost, lhs, rhs => lhs ≤ rhs
  | .atLeast, lhs, rhs => rhs ≤ lhs
  | .equal, lhs, rhs => lhs = rhs

namespace Tableau

/-! ### Normal rows -/

namespace NormalRow

/-- The function satisfies the row. -/
def Holds (r : NormalRow K) (x : Nat → K) : Prop :=
  r.relation.Compares (r.entries.dot x) r.value

/-- The entries are those of a row over the first `n` columns, and the right side is
not negative. -/
structure IsNormal (n : Nat) (r : NormalRow K) : Prop where
  sorted : r.entries.Sorted
  nonzero : ∀ e ∈ r.entries, e.2 ≠ 0
  lt : ∀ j ∈ r.entries.columns, j < n
  nonneg : 0 ≤ r.value

end NormalRow

/-- Turning a row around is scaling it by minus one. -/
theorem map_neg_eq_scale (entries : SparseRow K) :
    (entries.map fun (j, a) => (j, -a)) = entries.scale (-1) :=
  List.map_congr_left fun e _ => congrArg (Prod.mk e.1) (mul_neg_one e.2).symm

section Ordered

variable [IsStrictOrderedRing K]

/-- The normal form of a row says what the row says. -/
theorem holds_normalize (entries : SparseRow K) (relation : Relation) (rhs : K) (x : Nat → K) :
    (normalize entries relation rhs).Holds x ↔ relation.Compares (entries.dot x) rhs := by
  cases relation <;> rw [normalize] <;> split <;>
    simp [NormalRow.Holds, Relation.Compares, map_neg_eq_scale, SparseRow.dot_scale]

theorem isNormal_normalize {n : Nat} {entries : SparseRow K} (hsorted : entries.Sorted)
    (hnonzero : ∀ e ∈ entries, e.2 ≠ 0) (hlt : ∀ j ∈ entries.columns, j < n)
    (relation : Relation) (rhs : K) : (normalize entries relation rhs).IsNormal n := by
  have hsame (r : Relation) (h : 0 ≤ rhs) : NormalRow.IsNormal n ⟨entries, r, rhs⟩ :=
    ⟨hsorted, hnonzero, hlt, h⟩
  have hturned (r : Relation) (h : rhs ≤ 0) :
      NormalRow.IsNormal n ⟨entries.map fun (j, a) => (j, -a), r, -rhs⟩ := by
    refine ⟨?_, ?_, ?_, neg_nonneg.mpr h⟩ <;> rw [map_neg_eq_scale]
    · exact hsorted.scale _
    · intro e he
      obtain ⟨a, ha, heq⟩ := SparseRow.mem_scale.mp he
      rw [heq]
      exact mul_ne_zero (hnonzero _ ha) (neg_ne_zero.mpr one_ne_zero)
    · rwa [SparseRow.columns_scale]
  cases relation <;> rw [normalize] <;> split
  · exact hturned _ (le_of_lt ‹_›)
  · exact hsame _ (not_lt.mp ‹_›)
  · exact hturned _ ‹_›
  · exact hsame _ (not_le.mp ‹_›).le
  · exact hturned _ (le_of_lt ‹_›)
  · exact hsame _ (not_lt.mp ‹_›)

end Ordered

/-- The normal form of a row of a program. -/
def normalRow (row : Row K) : NormalRow K :=
  normalize (SparseRow.ofTerms row.terms) row.relation row.rhs

theorem holds_normalRow [IsStrictOrderedRing K] (row : Row K) (x : Nat → K) :
    (normalRow row).Holds x ↔ row.relation.Compares (SparseRow.dot row.terms x) row.rhs := by
  rw [normalRow, holds_normalize, SparseRow.dot_ofTerms, SparseRow.dot]

theorem isNormal_normalRow [IsStrictOrderedRing K] {n : Nat} {row : Row K}
    (h : ∀ t ∈ row.terms, t.1 < n) : (normalRow row).IsNormal n := by
  refine isNormal_normalize (SparseRow.sorted_ofTerms _) (fun e he => ?_) (fun j hj => ?_) _ _
  · exact bne_iff_ne.mp (List.mem_filter.mp he).2
  · obtain ⟨a, ha⟩ := SparseRow.mem_columns.mp hj
    obtain ⟨t, ht, rfl⟩ := SparseRow.exists_of_mem_ofTerms ha
    exact h t ht

/-! ### Placing the rows -/

/-- The number of slack columns of a row. -/
def slacksOf (relation : Relation) : Nat :=
  if relation != .equal then 1 else 0

/-- The number of artificial columns of a row. -/
def artificialsOf (relation : Relation) : Nat :=
  if relation != .atMost then 1 else 0

/-- The entries of a row for its own columns, where `s` and `a` are the next slack
and artificial columns. -/
def extra (s a : Nat) : Relation → SparseRow K
  | .atMost => [(s, 1)]
  | .atLeast => [(s, -1), (a, 1)]
  | .equal => [(a, 1)]

/-- The column that is basic in a row at first. -/
def firstBasic (s a : Nat) : Relation → Nat
  | .atMost => s
  | .atLeast => a
  | .equal => a

/-- A normal row with its own columns. -/
def placeRow (s a : Nat) (r : NormalRow K) : TableauRow K :=
  ⟨r.entries ++ extra s a r.relation, r.value, firstBasic s a r.relation⟩

/-- The number of slack columns of some rows. -/
def slackCount (rs : List (NormalRow K)) : Nat :=
  rs.countP fun r => r.relation != .equal

/-- The number of artificial columns of some rows. -/
def artificialCount (rs : List (NormalRow K)) : Nat :=
  rs.countP fun r => r.relation != .atMost

/-- One of `k` columns from `s` on or of `l` columns from `a` on. -/
def Added (s k a l j : Nat) : Prop :=
  s ≤ j ∧ j < s + k ∨ a ≤ j ∧ j < a + l

theorem placeRows_cons (s a : Nat) (r : NormalRow K) (rs : List (NormalRow K)) :
    placeRows s a (r :: rs) = placeRow s a r ::
      placeRows (s + slacksOf r.relation) (a + artificialsOf r.relation) rs := by
  rw [placeRows, placeRow]
  cases r.relation <;> rfl

omit [Field K] [LinearOrder K] in
theorem slackCount_cons (r : NormalRow K) (rs : List (NormalRow K)) :
    slackCount (r :: rs) = slacksOf r.relation + slackCount rs := by
  rw [slackCount, List.countP_cons, slacksOf, slackCount, Nat.add_comm]

omit [Field K] [LinearOrder K] in
theorem artificialCount_cons (r : NormalRow K) (rs : List (NormalRow K)) :
    artificialCount (r :: rs) = artificialsOf r.relation + artificialCount rs := by
  rw [artificialCount, List.countP_cons, artificialsOf, artificialCount, Nat.add_comm]

section PlaceRow

variable {n s a : Nat} {r : NormalRow K}

theorem sorted_extra {relation : Relation} (ha : s + slacksOf relation ≤ a) :
    SparseRow.Sorted (extra s a relation : SparseRow K) := by
  cases relation with
  | atLeast => exact List.pairwise_pair.mpr ha
  | atMost => exact List.pairwise_singleton _ _
  | equal => exact List.pairwise_singleton _ _

theorem added_of_mem_extra {relation : Relation} {e : Nat × K} (he : e ∈ extra s a relation) :
    Added s (slacksOf relation) a (artificialsOf relation) e.1 ∧ e.2 ≠ 0 := by
  cases relation <;> simp only [extra, List.mem_cons, List.not_mem_nil, or_false] at he
  · subst he
    exact ⟨.inl ⟨le_rfl, Nat.lt_succ_self s⟩, one_ne_zero⟩
  · rcases he with rfl | rfl
    · exact ⟨.inl ⟨le_rfl, Nat.lt_succ_self s⟩, neg_ne_zero.mpr one_ne_zero⟩
    · exact ⟨.inr ⟨le_rfl, Nat.lt_succ_self a⟩, one_ne_zero⟩
  · subst he
    exact ⟨.inr ⟨le_rfl, Nat.lt_succ_self a⟩, one_ne_zero⟩

theorem own_extra (s a : Nat) (relation : Relation) :
    (firstBasic s a relation, (1 : K)) ∈ (extra s a relation : SparseRow K) := by
  cases relation <;> simp [extra, firstBasic]

/-- The basic column is one of the row's own. -/
theorem added_basic_placeRow (s a : Nat) (r : NormalRow K) :
    Added s (slacksOf r.relation) a (artificialsOf r.relation) (placeRow s a r).basic :=
  (added_of_mem_extra (own_extra (K := K) s a r.relation)).1

theorem mem_columns_placeRow {j : Nat} (hj : j ∈ (placeRow s a r).entries.columns) :
    j ∈ r.entries.columns ∨ Added s (slacksOf r.relation) a (artificialsOf r.relation) j := by
  obtain ⟨b, hb⟩ := SparseRow.mem_columns.mp hj
  rcases List.mem_append.mp hb with hb | hb
  · exact .inl (SparseRow.mem_columns.mpr ⟨b, hb⟩)
  · exact .inr (added_of_mem_extra hb).1

theorem sorted_placeRow (h : r.IsNormal n) (hs : n ≤ s) (ha : s + slacksOf r.relation ≤ a) :
    (placeRow s a r).entries.Sorted := by
  refine List.pairwise_append.mpr ⟨h.sorted, sorted_extra ha, fun e he f hf => ?_⟩
  have hbefore := h.lt e.1 (List.mem_map_of_mem he)
  rcases (added_of_mem_extra hf).1 with ⟨hge, -⟩ | ⟨hge, -⟩ <;> omega

theorem nonzero_placeRow (h : r.IsNormal n) : ∀ e ∈ (placeRow s a r).entries, e.2 ≠ 0 := by
  intro e he
  rcases List.mem_append.mp he with he | he
  · exact h.nonzero e he
  · exact (added_of_mem_extra he).2

end PlaceRow

/-- Each row of the tableau is a normal row that was placed with columns of its
own. -/
theorem exists_of_mem_placeRows {s a : Nat} {rs : List (NormalRow K)} {row : TableauRow K}
    (h : row ∈ placeRows s a rs) : ∃ r ∈ rs, ∃ s' a', row = placeRow s' a' r ∧
      s ≤ s' ∧ s' + slacksOf r.relation ≤ s + slackCount rs ∧
      a ≤ a' ∧ a' + artificialsOf r.relation ≤ a + artificialCount rs := by
  induction rs generalizing s a with
  | nil => cases h
  | cons r rs ih =>
    rw [slackCount_cons, artificialCount_cons]
    rw [placeRows_cons] at h
    rcases List.mem_cons.mp h with rfl | h
    · exact ⟨r, List.mem_cons_self, s, a, rfl, by omega⟩
    · obtain ⟨r', hr', s', a', heq, hbounds⟩ := ih h
      exact ⟨r', List.mem_cons_of_mem r hr', s', a', heq, by omega⟩

/-- The columns of the rows that are placed. -/
theorem columns_placeRows {n s a : Nat} {rs : List (NormalRow K)} (hrs : ∀ r ∈ rs, r.IsNormal n)
    {row : TableauRow K} (h : row ∈ placeRows s a rs) :
    Added s (slackCount rs) a (artificialCount rs) row.basic ∧
      ∀ j ∈ row.entries.columns, j < n ∨ Added s (slackCount rs) a (artificialCount rs) j := by
  obtain ⟨r, hr, s', a', rfl, hbounds⟩ := exists_of_mem_placeRows h
  have hadded {j : Nat} (hj : Added s' (slacksOf r.relation) a' (artificialsOf r.relation) j) :
      Added s (slackCount rs) a (artificialCount rs) j :=
    hj.imp (fun hj => by omega) fun hj => by omega
  exact ⟨hadded (added_basic_placeRow s' a' r), fun j hj =>
    (mem_columns_placeRow hj).imp ((hrs r hr).lt j) hadded⟩

/-- No row has the basic column of another one. -/
theorem pairwise_placeRows {n s a : Nat} {rs : List (NormalRow K)} (hrs : ∀ r ∈ rs, r.IsNormal n)
    (hs : n ≤ s) (ha : s + slackCount rs ≤ a) : (placeRows s a rs).Pairwise fun row row' =>
      row.basic ∉ row'.entries.columns ∧ row'.basic ∉ row.entries.columns := by
  induction rs generalizing s a with
  | nil => exact .nil
  | cons r rs ih =>
    obtain ⟨hr, hrs⟩ := List.forall_mem_cons.mp hrs
    rw [slackCount_cons] at ha
    rw [placeRows_cons]
    -- the columns of the later rows come after those of the first one
    refine List.pairwise_cons.mpr ⟨fun row hrow => ?_, ih hrs (by omega) (by omega)⟩
    obtain ⟨hbasic, hcolumns⟩ := columns_placeRows hrs hrow
    have hfirst := added_basic_placeRow s a r
    rw [Added] at hbasic hfirst
    constructor
    · intro hmem
      have hcolumn := hcolumns _ hmem
      rw [Added] at hcolumn
      omega
    · intro hmem
      have hcolumn := (mem_columns_placeRow hmem).imp_left (hr.lt _)
      rw [Added] at hcolumn
      omega

/-! ### The slack columns -/

/-- What a row leaves over at a function. -/
def slackOf (r : NormalRow K) (x : Nat → K) : K :=
  match r.relation with
  | .atMost => r.value - r.entries.dot x
  | .atLeast => r.entries.dot x - r.value
  | .equal => 0

/-- The function with the slack columns, from `s` on, set to what the rows leave
over. -/
def fill (s : Nat) : List (NormalRow K) → (Nat → K) → Nat → K
  | [], x => x
  | r :: rs, x =>
    fill (s + slacksOf r.relation) rs
      (if r.relation = .equal then x else Function.update x s (slackOf r x))

/-- Only the slack columns are set. -/
theorem fill_of_lt_or_ge {s j : Nat} {rs : List (NormalRow K)} (x : Nat → K)
    (hj : j < s ∨ s + slackCount rs ≤ j) : fill s rs x j = x j := by
  induction rs generalizing s x with
  | nil => rfl
  | cons r rs ih =>
    rw [slackCount_cons] at hj
    rw [fill, ih _ (by omega)]
    split
    · rfl
    · rename_i hrelation
      have hone : slacksOf r.relation = 1 := if_pos (bne_iff_ne.mpr hrelation)
      exact Function.update_of_ne (by omega) _ _

/-- A row that the function satisfies leaves something over. -/
theorem slackOf_nonneg [IsStrictOrderedRing K] {r : NormalRow K} {x : Nat → K} (h : r.Holds x) :
    0 ≤ slackOf r x := by
  rw [NormalRow.Holds] at h
  rw [slackOf]
  split
  · rename_i hrelation
    rw [hrelation] at h
    exact sub_nonneg.mpr h
  · rename_i hrelation
    rw [hrelation] at h
    exact sub_nonneg.mpr h
  · exact le_rfl

/-- A placed row is about the row, its slack column and its artificial column. -/
theorem dot_placeRow {n s a : Nat} {r : NormalRow K} (hr : r.IsNormal n) {x y : Nat → K}
    (hxy : ∀ j < n, y j = x j) : (placeRow s a r).entries.dot y =
      r.entries.dot x + SparseRow.dot (extra s a r.relation) y := by
  rw [placeRow, SparseRow.dot_append]
  congr 1
  exact SparseRow.dot_congr fun e he => hxy e.1 (hr.lt e.1 (List.mem_map_of_mem he))

/-- With what it leaves over a row comes out even. -/
theorem dot_placeRow_eq_value {n s a : Nat} {r : NormalRow K} (hr : r.IsNormal n)
    {x y : Nat → K} (hx : r.Holds x) (hxy : ∀ j < n, y j = x j)
    (hslack : r.relation ≠ .equal → y s = slackOf r x) (hartificial : y a = 0) :
    (placeRow s a r).entries.dot y = (placeRow s a r).value := by
  rw [dot_placeRow hr hxy, show (placeRow s a r).value = r.value from rfl]
  rw [NormalRow.Holds] at hx
  rw [slackOf] at hslack
  cases hrelation : r.relation <;> rw [hrelation] at hx hslack
  · rw [extra, SparseRow.dot_cons, hslack nofun, SparseRow.dot_nil]
    ring
  · rw [extra, SparseRow.dot_cons, SparseRow.dot_cons, hslack nofun, hartificial,
      SparseRow.dot_nil]
    ring
  · rw [extra, SparseRow.dot_cons, hartificial, SparseRow.dot_nil, show r.entries.dot x = r.value
      from hx]
    ring

/-- A row over the first columns depends on these only. -/
theorem NormalRow.IsNormal.holds_congr {n : Nat} {r : NormalRow K} (h : r.IsNormal n)
    {x y : Nat → K} (hxy : ∀ j < n, x j = y j) : r.Holds x ↔ r.Holds y := by
  have hdot : r.entries.dot x = r.entries.dot y :=
    SparseRow.dot_congr fun e he => hxy e.1 (h.lt e.1 (List.mem_map_of_mem he))
  rw [Holds, Holds, hdot]

/-- **A function that satisfies the rows is filled up to a solution.** -/
theorem fill_spec [IsStrictOrderedRing K] {n s a : Nat} {rs : List (NormalRow K)} {x : Nat → K}
    (hrs : ∀ r ∈ rs, r.IsNormal n) (hs : n ≤ s) (ha : s + slackCount rs ≤ a)
    (hx : ∀ r ∈ rs, r.Holds x) (hnonneg : ∀ j, 0 ≤ x j) (hzero : ∀ j, a ≤ j → x j = 0) :
    (∀ j, 0 ≤ fill s rs x j) ∧
      ∀ row ∈ placeRows s a rs, row.entries.dot (fill s rs x) = row.value := by
  induction rs generalizing s a x with
  | nil => exact ⟨hnonneg, fun row hrow => by cases hrow⟩
  | cons r rs ih =>
    obtain ⟨hr, hrs⟩ := List.forall_mem_cons.mp hrs
    obtain ⟨hxr, hxrs⟩ := List.forall_mem_cons.mp hx
    rw [slackCount_cons] at ha
    rw [placeRows_cons, fill, List.forall_mem_cons]
    generalize hset : (if r.relation = .equal then x else Function.update x s (slackOf r x)) = x'
    -- the first row sets its slack column only, and nothing after it changes that
    have hslack (hne : r.relation ≠ .equal) : x' s = slackOf r x ∧ slacksOf r.relation = 1 := by
      rw [← hset, if_neg hne, Function.update_self]
      exact ⟨rfl, if_pos (bne_iff_ne.mpr hne)⟩
    have hothers (j : Nat) (hj : j < s ∨ s + slacksOf r.relation ≤ j) : x' j = x j := by
      rw [← hset]
      split
      · rfl
      · have := (hslack ‹_›).2
        exact Function.update_of_ne (by omega) _ _
    have hnonneg' (j : Nat) : 0 ≤ x' j := by
      by_cases hj : j < s ∨ s + slacksOf r.relation ≤ j
      · exact hothers j hj ▸ hnonneg j
      · -- the slack column of the row
        have hne : r.relation ≠ .equal := fun heq => hj (by rw [slacksOf, heq]; simp; omega)
        obtain rfl : j = s := by
          have := (hslack hne).2
          omega
        exact (hslack hne).1 ▸ slackOf_nonneg hxr
    have hzero' (j : Nat) (hj : a ≤ j) : x' j = 0 := by
      rw [hothers j (by omega)]
      exact hzero j hj
    obtain ⟨hfill, hrows⟩ := ih hrs (s := s + slacksOf r.relation)
      (a := a + artificialsOf r.relation) (x := x') (by omega) (by omega)
      (fun r' hr' => ((hrs r' hr').holds_congr fun j hj => hothers j (by omega)).mpr (hxrs r' hr'))
      hnonneg' fun j hj => hzero' j (by omega)
    refine ⟨hfill, ?_, hrows⟩
    refine dot_placeRow_eq_value hr hxr (fun j hj => ?_) (fun hne => ?_) ?_
    · rw [fill_of_lt_or_ge x' (by omega), hothers j (by omega)]
    · obtain ⟨heq, hone⟩ := hslack hne
      rw [fill_of_lt_or_ge x' (by omega), heq]
    · rw [fill_of_lt_or_ge x' (by omega), hzero' a le_rfl]

/-- **Conversely a solution without artificial columns satisfies the rows.** -/
theorem holds_of_dot_placeRows [IsStrictOrderedRing K] {n s a : Nat} {rs : List (NormalRow K)}
    {y : Nat → K} (hrs : ∀ r ∈ rs, r.IsNormal n)
    (hy : ∀ row ∈ placeRows s a rs, row.entries.dot y = row.value)
    (hnonneg : ∀ j, s ≤ j → j < s + slackCount rs → 0 ≤ y j)
    (hzero : ∀ j, a ≤ j → j < a + artificialCount rs → y j = 0) : ∀ r ∈ rs, r.Holds y := by
  induction rs generalizing s a with
  | nil => exact fun r hr => by cases hr
  | cons r rs ih =>
    obtain ⟨hr, hrs⟩ := List.forall_mem_cons.mp hrs
    rw [slackCount_cons] at hnonneg
    rw [artificialCount_cons] at hzero
    rw [placeRows_cons, List.forall_mem_cons, dot_placeRow hr fun _ _ => rfl] at hy
    refine List.forall_mem_cons.mpr ⟨?_, ih hrs hy.2
      (fun j hge hlt => hnonneg j (by omega) (by omega))
      fun j hge hlt => hzero j (by omega) (by omega)⟩
    -- the artificial column is at zero, and the slack column is not negative
    have hrow : r.entries.dot y + SparseRow.dot (extra s a r.relation) y = r.value := hy.1
    rw [NormalRow.Holds]
    cases hrelation : r.relation <;> rw [hrelation] at hrow hnonneg hzero <;>
      simp only [extra, SparseRow.dot_cons, SparseRow.dot_nil] at hrow
    · have hslack := hnonneg s le_rfl (by simp [slacksOf])
      show r.entries.dot y ≤ r.value
      linarith
    · have hslack := hnonneg s le_rfl (by simp [slacksOf])
      have hartificial := hzero a le_rfl (by simp [artificialsOf])
      show r.value ≤ r.entries.dot y
      linarith
    · have hartificial := hzero a le_rfl (by simp [artificialsOf])
      show r.entries.dot y = r.value
      linarith

end Tableau

end MarkovLogic.Linear
