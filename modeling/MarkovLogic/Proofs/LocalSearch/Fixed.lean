/-
MarkovLogic/Proofs/LocalSearch/Fixed.lean

A search leaves fixed atoms alone.

A search changes values in four ways: it flips an atom, it starts a try with all
atoms false or with random values, and at the end it goes back to the assignment
that it recorded as the best.  Only the start of a try looks at the flags of the
atoms.  A flip does not, but the atom was picked among candidates, and none of
these is fixed.  Going back does not either, and an assignment that was recorded
before an atom was fixed may well have the other value.  So what a search keeps
must speak of the recorded assignment as well (`KeepsFixed`), and it holds from
the first moment on because a search begins by recording the state that it is
given.

Main statement: `keepsFixed_search`, for arbitrary numbers, networks, states and
settings.
-/
import MarkovLogic.Proofs.LocalSearch.Safety

namespace MarkovLogic

variable {α : Type} [Scalar α] {net : Network α}

namespace State

/-! ### Flags -/

theorem fixing_fix (net : Network α) (s : State α) (a : Nat) (v : Bool) :
    (s.fix net a v).fixing = s.fixing.setIfInBounds a (.fixed v) := by
  rw [fix]
  split
  · rfl
  · rw [(rebooked_flip net s a).fixing]

omit [Scalar α] in
theorem isFixed_congr {s t : State α} (h : t.fixing = s.fixing) (a : Nat) :
    t.isFixed a = s.isFixed a := by
  rw [isFixed, isFixed, h]

/-- A flip changes the value of no other atom. -/
theorem value_flip_of_ne (net : Network α) (s : State α) {a b : Nat} (h : a ≠ b) :
    (s.flip net a).value b = s.value b := by
  rw [value, values_flip, getD_flipped, if_neg fun hab => h hab.1, value]

/-! ### New values -/

/-- What is drawn are values for the free atoms. -/
theorem getD_drawValues {ρ : Type} [RandomSource ρ] {s : State α} {a : Nat}
    (h : s.isFixed a = true) (atoms : List Nat) (values : Array Bool) (r : ρ) :
    (s.drawValues atoms values r).1.getD a false = values.getD a false := by
  induction atoms generalizing values r with
  | nil => rfl
  | cons b atoms ih =>
    rw [drawValues]
    split
    · exact ih values r
    · rename_i hfree
      have hne : b ≠ a := by
        rintro rfl
        exact hfree h
      rw [ih, getD_setIfInBounds, if_neg fun hba => hne hba.1]

/-! ### What a search keeps -/

/-- A later state of a search that began in `s`: the flags are the same, and the
atoms that are fixed in `s` have the values that they have there, also in the
recorded assignment. -/
structure KeepsFixed (s t : State α) : Prop where
  fixing : t.fixing = s.fixing
  value : ∀ a, s.isFixed a = true → t.value a = s.value a
  lowValue : ∀ a, s.isFixed a = true → t.lowValues.getD a false = s.value a

/-- Whatever was recorded before, it is not once the state is recorded. -/
theorem keepsFixed_saveLow (net : Network α) (s : State α) : KeepsFixed s (s.saveLow net) :=
  ⟨rfl, fun _ _ => rfl, fun _ _ => rfl⟩

namespace KeepsFixed

variable {s t : State α}

theorem saveLow (h : KeepsFixed s t) : KeepsFixed s (t.saveLow net) :=
  ⟨h.fixing, h.value, h.value⟩

/-- The flip of a free atom. -/
theorem flip (h : KeepsFixed s t) {a : Nat} (hfree : t.isFixed a = false) :
    KeepsFixed s (t.flip net a) where
  fixing := (rebooked_flip net t a).fixing.trans h.fixing
  value b hb := by
    have hne : a ≠ b := by
      rintro rfl
      rw [isFixed_congr h.fixing, hb] at hfree
      cases hfree
    rw [value_flip_of_ne net t hne, h.value b hb]
  lowValue b hb := by
    rw [(rebooked_flip net t a).lowValues, h.lowValue b hb]

/-- New values that agree on the fixed atoms. -/
theorem setValues (h : KeepsFixed s t) {values : Array Bool}
    (hvalues : ∀ a, s.isFixed a = true → values.getD a false = s.value a) :
    KeepsFixed s (({ t with values } : State α).recompute net) where
  fixing := (rebooked_recompute net _).fixing.trans h.fixing
  value a ha := by
    rw [State.value, (rebooked_recompute net _).values]
    exact hvalues a ha
  lowValue a ha := by
    rw [(rebooked_recompute net _).lowValues]
    exact h.lowValue a ha

theorem assign (h : KeepsFixed s t) (values : Array Bool) :
    KeepsFixed s (t.assign net values) := by
  refine h.setValues fun a ha => ?_
  have hfixed : t.isFixed a = true := (isFixed_congr h.fixing a).trans ha
  rw [← h.value a ha, State.value, Array.getD_eq_getD_getElem?, Array.getElem?_mapIdx,
    Array.getD_eq_getD_getElem?]
  cases t.values[a]? <;> simp [hfixed]

theorem randomize {ρ : Type} [RandomSource ρ] (h : KeepsFixed s t) (r : ρ) :
    KeepsFixed s (t.randomize net r).1 := by
  refine h.setValues fun a ha => ?_
  rw [getD_drawValues ((isFixed_congr h.fixing a).trans ha)]
  exact h.value a ha

/-- The recorded assignment has the values of the fixed atoms. -/
theorem restoreLow (h : KeepsFixed s t) : KeepsFixed s (t.restoreLow net) := by
  rw [State.restoreLow]
  split
  · exact h
  · split
    · exact h.setValues h.lowValue
    · exact h

end KeepsFixed

end State

/-! ### Searches -/

namespace LocalSearch

open State

variable {ρ : Type} [RandomSource ρ] {settings : Settings α} {s t : State α}

/-- A step flips the atom that was picked, which is free. -/
theorem keepsFixed_flipAndRecord (h : KeepsFixed s t) {r r' : ρ} {a : Nat}
    (hpick : pick net settings t r = (some a, r')) : KeepsFixed s (flipAndRecord net t a) := by
  obtain ⟨_, _, -, -, hcandidate⟩ := exists_of_pick hpick
  have hflip : KeepsFixed s (t.flip net a) := h.flip (mem_candidates_iff.mp hcandidate).2.1
  rw [flipAndRecord_eq]
  split
  · exact hflip.saveLow
  · exact hflip

theorem keepsFixed_begin (h : KeepsFixed s t) (settings : Settings α) (r : ρ) :
    KeepsFixed s (begin net settings t r).1 := by
  rw [begin]
  split
  · exact h.assign _
  · exact h.randomize r

theorem keepsFixed_restart (settings : Settings α) {p : Progress α ρ}
    (h : KeepsFixed s p.state) : KeepsFixed s (restart net settings p).state := by
  have hbegin : KeepsFixed s (begin net settings p.state p.source).1 :=
    keepsFixed_begin h settings p.source
  rw [restart]
  dsimp only
  split
  · exact hbegin.saveLow
  · exact hbegin

/-- **A search leaves the flags of all atoms and the values of the fixed ones as
they are**, whatever the settings, and however many tries it takes. -/
theorem keepsFixed_search (net : Network α) (settings : Settings α) (s : State α) (r : ρ) :
    KeepsFixed s (search net settings s r).state := by
  rw [search_eq]
  -- `s` itself need not have the invariant: what it has recorded may be older than its flags
  have hwalk : KeepsFixed s (walkTries net settings (settings.maxTries - 1)
      ⟨s.saveLow net, r, 0, 0⟩).1.state :=
    (walkTries_induction (P := KeepsFixed s)
      (fun _ _ _ _ h hpick => keepsFixed_flipAndRecord h hpick)
      (fun _ h => keepsFixed_restart settings h) _ (keepsFixed_saveLow net s)).1
  exact hwalk.restoreLow

end LocalSearch

end MarkovLogic
