/-
MarkovLogic/Proofs/Computed/Comparison.lean

How the standard predicates order names.

Two names are compared as numbers if both read as numbers, and as texts otherwise.
Each of the two ways is an order of its own.  The numbers except NaN are ordered by
their ranks (`Floating.rank?`); a NaN counts as equal to every number.

For any two names exactly one of less, greater and equal holds, and turning the
names around turns the answer around.  But answers can be chained only if all three
names are compared in the same way (`ReadAsNumbers`, `ComparedAsTexts`): `9` is less
than `10` as a number, `10` is less than `5x` as a text, and `9` is greater than
`5x`.  A chain of names that are less or equal breaks at a NaN too, for a NaN is
equal to numbers that differ.

Main statement: `comparisonLaws`.
-/
import MarkovLogic.Proofs.Computed
import MarkovLogic.Proofs.Floating

namespace MarkovLogic.Computed

open Floating

/-! ### Floating point numbers -/

theorem compareFloat_of_rank? {x y : Float} {k l : Int × Int × Int} (hx : rank? x = some k)
    (hy : rank? y = some l) : compareFloat x y = compareRanks k l := by
  have hswap : compareRanks l k = (compareRanks k l).swap := Std.OrientedCmp.eq_swap
  simp only [compareFloat, lt_iff, hx, hy, Option.some.injEq, ↓existsAndEq, true_and, hswap]
  cases compareRanks k l <;> rfl

theorem compareFloat_of_rank?_eq_none {x y : Float} (h : rank? x = none ∨ rank? y = none) :
    compareFloat x y = .eq := by
  rcases h with h | h <;> simp [compareFloat, lt_iff, h]

theorem compareFloat_eq_lt_iff {x y : Float} : compareFloat x y = .lt ↔ x < y := by
  rw [compareFloat]
  split
  · simp [*]
  · split <;> simp [*]

theorem compareFloat_swap (x y : Float) : compareFloat y x = (compareFloat x y).swap := by
  rcases hx : rank? x with _ | k
  · rw [compareFloat_of_rank?_eq_none (.inl hx), compareFloat_of_rank?_eq_none (.inr hx)]
    rfl
  rcases hy : rank? y with _ | l
  · rw [compareFloat_of_rank?_eq_none (.inl hy), compareFloat_of_rank?_eq_none (.inr hy)]
    rfl
  rw [compareFloat_of_rank? hx hy, compareFloat_of_rank? hy hx]
  exact Std.OrientedCmp.eq_swap

theorem compareFloat_lt_trans {x y z : Float} (hxy : compareFloat x y = .lt)
    (hyz : compareFloat y z = .lt) : compareFloat x z = .lt := by
  rw [compareFloat_eq_lt_iff] at hxy hyz ⊢
  exact Floating.lt_trans hxy hyz

/-- Chains break only at a NaN. -/
theorem compareFloat_isLE_trans {x y z : Float} (hy : y.isNaN = false)
    (hxy : (compareFloat x y).isLE = true) (hyz : (compareFloat y z).isLE = true) :
    (compareFloat x z).isLE = true := by
  obtain ⟨l, hl⟩ : ∃ l, rank? y = some l := by
    rw [← Option.ne_none_iff_exists', Ne, rank?_eq_none_iff, hy]
    exact Bool.false_ne_true
  rcases hx : rank? x with _ | k
  · rw [compareFloat_of_rank?_eq_none (.inl hx)]
    rfl
  rcases hz : rank? z with _ | n
  · rw [compareFloat_of_rank?_eq_none (.inr hz)]
    rfl
  rw [compareFloat_of_rank? hx hl] at hxy
  rw [compareFloat_of_rank? hl hz] at hyz
  rw [compareFloat_of_rank? hx hz]
  exact Std.TransCmp.isLE_trans hxy hyz

/-! ### Names -/

/-- The name reads as a number, possibly a NaN. -/
def IsNumber (a : String) : Prop :=
  ∃ x, Decimal.readFloat? a.toList = some x

instance (a : String) : Decidable (IsNumber a) :=
  decidable_of_iff _ Option.isSome_iff_exists

/-- The name reads as a NaN. -/
def IsNaN (a : String) : Prop :=
  ∃ x, Decimal.readFloat? a.toList = some x ∧ x.isNaN = true

theorem compareNames_of_readFloat? {a b : String} {x y : Float}
    (ha : Decimal.readFloat? a.toList = some x) (hb : Decimal.readFloat? b.toList = some y) :
    compareNames a b = compareFloat x y := by
  rw [compareNames, ha, hb]

/-- Two names are compared as texts if they are not both numbers. -/
theorem compareNames_of_not {a b : String} (h : ¬ (IsNumber a ∧ IsNumber b)) :
    compareNames a b = compare a b := by
  rw [compareNames]
  split
  · rename_i x y hx hy
    exact absurd ⟨⟨x, hx⟩, ⟨y, hy⟩⟩ h
  · rfl

theorem compareNames_swap (a b : String) : compareNames b a = (compareNames a b).swap := by
  by_cases h : IsNumber a ∧ IsNumber b
  · obtain ⟨⟨x, hx⟩, ⟨y, hy⟩⟩ := h
    rw [compareNames_of_readFloat? hx hy, compareNames_of_readFloat? hy hx, compareFloat_swap]
  · rw [compareNames_of_not h, compareNames_of_not fun hba => h hba.symm]
    exact Std.OrientedOrd.eq_swap

/-- All three names read as numbers. -/
def ReadAsNumbers (a b c : String) : Prop :=
  IsNumber a ∧ IsNumber b ∧ IsNumber c

/-- Each two of the names are ordered as their texts are. -/
def ComparedAsTexts (a b c : String) : Prop :=
  compareNames a b = compare a b ∧ compareNames b c = compare b c ∧
    compareNames a c = compare a c

/-- So they are if at most one of them is a number. -/
theorem comparedAsTexts_of_not {a b c : String} (hab : ¬ (IsNumber a ∧ IsNumber b))
    (hbc : ¬ (IsNumber b ∧ IsNumber c)) (hac : ¬ (IsNumber a ∧ IsNumber c)) :
    ComparedAsTexts a b c :=
  ⟨compareNames_of_not hab, compareNames_of_not hbc, compareNames_of_not hac⟩

theorem compareNames_lt_trans {a b c : String} (h : ReadAsNumbers a b c ∨ ComparedAsTexts a b c)
    (hab : compareNames a b = .lt) (hbc : compareNames b c = .lt) : compareNames a c = .lt := by
  -- one order for all three: that of the numbers or that of the texts
  rcases h with ⟨⟨x, hx⟩, ⟨y, hy⟩, ⟨z, hz⟩⟩ | ⟨hab', hbc', hac'⟩
  · rw [compareNames_of_readFloat? hx hy] at hab
    rw [compareNames_of_readFloat? hy hz] at hbc
    rw [compareNames_of_readFloat? hx hz]
    exact compareFloat_lt_trans hab hbc
  · rw [hab'] at hab
    rw [hbc'] at hbc
    rw [hac']
    exact Std.TransCmp.lt_trans hab hbc

theorem compareNames_isLE_trans {a b c : String}
    (h : ReadAsNumbers a b c ∧ ¬ IsNaN b ∨ ComparedAsTexts a b c)
    (hab : (compareNames a b).isLE = true) (hbc : (compareNames b c).isLE = true) :
    (compareNames a c).isLE = true := by
  rcases h with ⟨⟨⟨x, hx⟩, ⟨y, hy⟩, ⟨z, hz⟩⟩, hnan⟩ | ⟨hab', hbc', hac'⟩
  · rw [compareNames_of_readFloat? hx hy] at hab
    rw [compareNames_of_readFloat? hy hz] at hbc
    rw [compareNames_of_readFloat? hx hz]
    have hy' : y.isNaN = false := Bool.eq_false_iff.2 fun h => hnan ⟨y, hy, h⟩
    exact compareFloat_isLE_trans hy' hab hbc
  · rw [hab'] at hab
    rw [hbc'] at hbc
    rw [hac']
    exact Std.TransCmp.isLE_trans hab hbc

/-! ### Standard predicates -/

/-- A standard predicate of two arguments has a rule, and this holds of the names. -/
def Holds (symbol a b : String) : Prop :=
  ∃ rule, standard.rule? ⟨symbol, 2⟩ = some (some rule) ∧ rule [a, b] = true

theorem holds_iff {symbol : String} {holds : String → String → Bool}
    (h : (symbol, binary holds) ∈ standardRules) {a b : String} :
    Holds symbol a b ↔ holds a b = true := by
  simp [Holds, rule?_standard h, binary]

theorem holds_lessThan {a b : String} : Holds "lessThan" a b ↔ compareNames a b = .lt := by
  have hlisted : ("lessThan", binary fun a b => compareNames a b == .lt) ∈ standardRules := by
    simp [standardRules]
  rw [holds_iff hlisted, beq_iff_eq]

theorem holds_greaterThan {a b : String} : Holds "greaterThan" a b ↔ compareNames a b = .gt := by
  have hlisted : ("greaterThan", binary fun a b => compareNames a b == .gt) ∈ standardRules := by
    simp [standardRules]
  rw [holds_iff hlisted, beq_iff_eq]

theorem holds_lessThanEq {a b : String} :
    Holds "lessThanEq" a b ↔ (compareNames a b).isLE = true := by
  have hlisted : ("lessThanEq", binary fun a b => compareNames a b != .gt) ∈ standardRules := by
    simp [standardRules]
  rw [holds_iff hlisted]
  cases compareNames a b <;> decide

theorem holds_greaterThanEq {a b : String} :
    Holds "greaterThanEq" a b ↔ (compareNames a b).isGE = true := by
  have hlisted : ("greaterThanEq", binary fun a b => compareNames a b != .lt) ∈ standardRules := by
    simp [standardRules]
  rw [holds_iff hlisted]
  cases compareNames a b <;> decide

/-- What the standard predicates have of an order. -/
structure ComparisonLaws : Prop where
  /-- Among numbers, less means a smaller number. -/
  numbers : ∀ a b x y, Decimal.readFloat? a.toList = some x →
    Decimal.readFloat? b.toList = some y → (Holds "lessThan" a b ↔ x < y)
  /-- Among other names, it means an earlier text. -/
  texts : ∀ a b, ¬ (IsNumber a ∧ IsNumber b) → (Holds "lessThan" a b ↔ a < b)
  /-- Exactly one of less, greater and equal holds. -/
  trichotomy : ∀ a b,
    Holds "lessThan" a b ∧ ¬ Holds "greaterThan" a b ∧
        ¬ (Holds "lessThanEq" a b ∧ Holds "greaterThanEq" a b) ∨
      ¬ Holds "lessThan" a b ∧ Holds "greaterThan" a b ∧
        ¬ (Holds "lessThanEq" a b ∧ Holds "greaterThanEq" a b) ∨
      ¬ Holds "lessThan" a b ∧ ¬ Holds "greaterThan" a b ∧
        Holds "lessThanEq" a b ∧ Holds "greaterThanEq" a b
  converse : ∀ a b, Holds "lessThan" a b ↔ Holds "greaterThan" b a
  lessThan_trans : ∀ a b c, ReadAsNumbers a b c ∨ ComparedAsTexts a b c →
    Holds "lessThan" a b → Holds "lessThan" b c → Holds "lessThan" a c
  lessThanEq_trans : ∀ a b c, ReadAsNumbers a b c ∧ ¬ IsNaN b ∨ ComparedAsTexts a b c →
    Holds "lessThanEq" a b → Holds "lessThanEq" b c → Holds "lessThanEq" a c
  /-- Names of which at most one is a number are compared as texts. -/
  asTexts : ∀ a b c, ¬ (IsNumber a ∧ IsNumber b) → ¬ (IsNumber b ∧ IsNumber c) →
    ¬ (IsNumber a ∧ IsNumber c) → ComparedAsTexts a b c

/-- **The standard predicates order names that are compared in the same way.** -/
theorem comparisonLaws : ComparisonLaws where
  numbers a b x y hx hy := by
    rw [holds_lessThan, compareNames_of_readFloat? hx hy, compareFloat_eq_lt_iff]
  texts a b h := by
    rw [holds_lessThan, compareNames_of_not h]
    exact compareOfLessAndEq_eq_lt
  trichotomy a b := by
    simp only [holds_lessThan, holds_greaterThan, holds_lessThanEq, holds_greaterThanEq]
    cases compareNames a b <;> simp
  converse a b := by
    rw [holds_lessThan, holds_greaterThan, compareNames_swap a b]
    cases compareNames a b <;> simp
  lessThan_trans a b c h := by
    simp only [holds_lessThan]
    exact compareNames_lt_trans h
  lessThanEq_trans a b c h := by
    simp only [holds_lessThanEq]
    exact compareNames_isLE_trans h
  asTexts _ _ _ := comparedAsTexts_of_not

/-- A chain of numbers and one of texts. -/
theorem comparisonLaws_chains : (Holds "lessThan" "9" "10" ∧ Holds "lessThan" "10" "1e2" ∧
      Holds "lessThan" "9" "1e2") ∧
    Holds "lessThanEq" "10" "5x" ∧ Holds "lessThanEq" "5x" "Anna" ∧
      Holds "lessThanEq" "10" "Anna" := by
  have hnumbers : ReadAsNumbers "9" "10" "1e2" :=
    ⟨by decide +kernel, by decide +kernel, by decide +kernel⟩
  have htext : ¬ IsNumber "5x" := by decide +kernel
  have hname : ¬ IsNumber "Anna" := by decide +kernel
  have htexts : ComparedAsTexts "10" "5x" "Anna" :=
    comparisonLaws.asTexts _ _ _ (fun h => htext h.2) (fun h => htext h.1) fun h => hname h.2
  have h9 : Holds "lessThan" "9" "10" := holds_lessThan.2 (by decide +kernel)
  have h10 : Holds "lessThan" "10" "1e2" := holds_lessThan.2 (by decide +kernel)
  have h5x : Holds "lessThanEq" "10" "5x" := holds_lessThanEq.2 (by decide +kernel)
  have hAnna : Holds "lessThanEq" "5x" "Anna" := holds_lessThanEq.2 (by decide +kernel)
  exact ⟨⟨h9, h10, comparisonLaws.lessThan_trans _ _ _ (.inl hnumbers) h9 h10⟩, h5x, hAnna,
    comparisonLaws.lessThanEq_trans _ _ _ (.inr htexts) h5x hAnna⟩

/-- Chains break where the way of comparing changes, and at a NaN. -/
theorem not_trans_mixed :
    (Holds "lessThan" "9" "10" ∧ Holds "lessThan" "10" "5x" ∧ ¬ Holds "lessThan" "9" "5x") ∧
      Holds "lessThanEq" "2" "NaN" ∧ Holds "lessThanEq" "NaN" "1" ∧
        ¬ Holds "lessThanEq" "2" "1" := by
  simp only [holds_lessThan, holds_lessThanEq]
  decide +kernel

end MarkovLogic.Computed
