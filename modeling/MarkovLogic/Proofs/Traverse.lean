/-
MarkovLogic/Proofs/Traverse.lean

Lists through which a computation that can fail is carried.

A traversal succeeds when every step does, and its result is then the list of
the results of the steps, one for one, so that each result has its step; it
fails for the reason of one of its steps.  A fold that succeeds keeps what each
of its steps keeps.  A search that at most one element can satisfy finds exactly
that element.  Erasing repetitions keeps the first appearance of each element.
-/
import Mathlib.Data.List.Forall2
import Mathlib.Data.List.Induction
import Mathlib.Data.List.Nodup

namespace MarkovLogic

variable {α β ε : Type}

/-- A traversal succeeds with the results of its steps. -/
theorem mapM_eq_some_iff {f : α → Option β} {xs : List α} {ys : List β} :
    xs.mapM f = some ys ↔ List.Forall₂ (fun x y => f x = some y) xs ys := by
  induction xs generalizing ys with
  | nil => simp [eq_comm]
  | cons x xs ih =>
    constructor
    · intro h
      rw [List.mapM_cons] at h
      obtain ⟨y, hy, h⟩ := Option.bind_eq_some_iff.1 h
      obtain ⟨ys', hys, h⟩ := Option.bind_eq_some_iff.1 h
      obtain rfl := Option.some.inj h
      exact .cons hy (ih.1 hys)
    · rintro (_ | ⟨hy, hys⟩)
      rw [List.mapM_cons, hy, ih.2 hys]
      rfl

/-- A traversal succeeds if and only if every step does. -/
theorem mapM_isSome_iff {f : α → Option β} {xs : List α} :
    (xs.mapM f).isSome ↔ ∀ x ∈ xs, (f x).isSome := by
  induction xs with
  | nil => simp
  | cons x xs ih =>
    rw [List.mapM_cons, List.forall_mem_cons, ← ih]
    rcases f x with - | y
    · simp
    · rcases xs.mapM f with - | ys <;> simp

/-- Steps that agree on all elements make the same traversal. -/
theorem mapM_congr {f g : α → Option β} {xs : List α} (h : ∀ x ∈ xs, f x = g x) :
    xs.mapM f = xs.mapM g := by
  induction xs with
  | nil => rfl
  | cons x xs ih =>
    rw [List.forall_mem_cons] at h
    rw [List.mapM_cons, List.mapM_cons, h.1, ih h.2]

/-- A traversal that can fail with a reason succeeds with the results of its
steps. -/
theorem mapM_eq_ok_iff {f : α → Except ε β} {xs : List α} {ys : List β} :
    xs.mapM f = .ok ys ↔ List.Forall₂ (fun x y => f x = .ok y) xs ys := by
  induction xs generalizing ys with
  | nil =>
    constructor
    · intro h
      obtain rfl : ([] : List β) = ys := Except.ok.inj h
      exact .nil
    · rintro ⟨⟩
      rfl
  | cons x xs ih =>
    rw [List.mapM_cons]
    constructor
    · intro h
      rcases hx : f x with e | y
      · rw [hx] at h
        cases h
      · rcases hxs : xs.mapM f with e | ys'
        · rw [hx, hxs] at h
          cases h
        · rw [hx, hxs] at h
          obtain rfl : y :: ys' = ys := Except.ok.inj h
          exact .cons hx (ih.1 hxs)
    · rintro (_ | ⟨hy, hys⟩)
      rw [hy, ih.2 hys]
      rfl

/-- It succeeds if and only if every step does. -/
theorem exists_mapM_eq_ok_iff {f : α → Except ε β} {xs : List α} :
    (∃ ys, xs.mapM f = .ok ys) ↔ ∀ x ∈ xs, ∃ y, f x = .ok y := by
  simp only [mapM_eq_ok_iff]
  induction xs with
  | nil => simp
  | cons x xs ih =>
    rw [List.forall_mem_cons, ← ih]
    constructor
    · rintro ⟨ys, hys⟩
      obtain ⟨y, ys', hy, hys', rfl⟩ := List.forall₂_cons_left_iff.1 hys
      exact ⟨⟨y, hy⟩, ys', hys'⟩
    · rintro ⟨⟨y, hy⟩, ys, hys⟩
      exact ⟨y :: ys, .cons hy hys⟩

/-- A traversal that fails does so for the reason of one of its steps. -/
theorem exists_of_mapM_eq_error {f : α → Except ε β} {xs : List α} {e : ε}
    (h : xs.mapM f = .error e) : ∃ x ∈ xs, f x = .error e := by
  induction xs with
  | nil => cases h
  | cons x xs ih =>
    rw [List.mapM_cons] at h
    rcases hx : f x with e' | y
    · rw [hx] at h
      obtain rfl := Except.error.inj h
      exact ⟨x, List.mem_cons_self, hx⟩
    · rcases hxs : xs.mapM f with e' | ys
      · rw [hx, hxs] at h
        obtain rfl := Except.error.inj h
        obtain ⟨x', hx', he⟩ := ih hxs
        exact ⟨x', List.mem_cons_of_mem x hx', he⟩
      · rw [hx, hxs] at h
        cases h

/-- A check of all elements succeeds if each check does. -/
theorem forM_eq_ok_iff {f : α → Except ε Unit} {xs : List α} :
    xs.forM f = .ok () ↔ ∀ x ∈ xs, f x = .ok () := by
  induction xs with
  | nil => exact ⟨fun _ => by simp, fun _ => rfl⟩
  | cons x xs ih =>
    rw [List.forall_mem_cons, ← ih]
    rcases hx : f x with e | ⟨⟩
    · constructor
      · intro h
        rw [List.forM, hx] at h
        cases h
      · rintro ⟨⟨⟩, -⟩
    · rw [List.forM, hx]
      exact ⟨fun h => ⟨rfl, h⟩, fun h => h.2⟩

/-- A computation that goes on from another one succeeds if both do. -/
theorem bind_eq_ok_iff {x : Except ε α} {f : α → Except ε β} {b : β} :
    (x >>= f) = .ok b ↔ ∃ a, x = .ok a ∧ f a = .ok b := by
  cases x with
  | error e => exact ⟨nofun, fun ⟨_, h, _⟩ => nomatch h⟩
  | ok a => exact ⟨fun h => ⟨a, rfl, h⟩, fun ⟨_, ha, h⟩ => Except.ok.inj ha ▸ h⟩

/-- Giving a failure another reason keeps the successes. -/
theorem mapError_eq_ok_iff {δ : Type} {f : ε → δ} {x : Except ε α} {a : α} :
    x.mapError f = .ok a ↔ x = .ok a := by
  cases x <;> simp [Except.mapError]

/-- A fold that succeeds keeps what each of its steps keeps. -/
theorem foldlM_induction {f : β → α → Except ε β} {P : β → Prop} {xs : List α} {init final : β}
    (h : xs.foldlM f init = .ok final) (hinit : P init)
    (hstep : ∀ b x b', x ∈ xs → f b x = .ok b' → P b → P b') : P final := by
  induction xs generalizing init with
  | nil => exact Except.ok.inj h ▸ hinit
  | cons x xs ih =>
    rw [List.foldlM_cons, bind_eq_ok_iff] at h
    obtain ⟨next, hx, hrest⟩ := h
    exact ih hrest (hstep init x next List.mem_cons_self hx hinit)
      fun b y b' hy => hstep b y b' (List.mem_cons_of_mem x hy)

/-- Lists related one for one: each element on the right has one on the left. -/
theorem exists_mem_of_forall₂ {R : α → β → Prop} {xs : List α} {ys : List β}
    (h : List.Forall₂ R xs ys) {y : β} (hy : y ∈ ys) : ∃ x ∈ xs, R x y := by
  induction h with
  | nil => simp at hy
  | cons hxy _ ih =>
    rcases List.mem_cons.1 hy with rfl | hy
    · exact ⟨_, List.mem_cons_self, hxy⟩
    · obtain ⟨x, hx, hR⟩ := ih hy
      exact ⟨x, List.mem_cons_of_mem _ hx, hR⟩

/-- Lists related by a common value have the same list of values. -/
theorem map_eq_of_forall₂ {γ : Type} {f : α → γ} {g : β → γ} {xs : List α} {ys : List β}
    (h : List.Forall₂ (fun x y => f x = g y) xs ys) : xs.map f = ys.map g := by
  induction h with
  | nil => rfl
  | cons hxy _ ih => rw [List.map_cons, List.map_cons, hxy, ih]

/-- A search finds an element if and only if the element satisfies it, when no
two elements do. -/
theorem find?_eq_some_iff_of_unique {p : α → Bool} {xs : List α} {x : α}
    (hp : ∀ a ∈ xs, ∀ b ∈ xs, p a → p b → a = b) :
    xs.find? p = some x ↔ x ∈ xs ∧ p x := by
  constructor
  · intro h
    exact ⟨List.mem_of_find?_eq_some h, List.find?_some h⟩
  · rintro ⟨hx, hpx⟩
    rcases h : xs.find? p with - | y
    · exact absurd hpx (List.find?_eq_none.1 h x hx)
    · rw [hp y (List.mem_of_find?_eq_some h) x hx (List.find?_some h) hpx]

/-- An element that is there already is erased at the end. -/
theorem eraseDups_append_of_mem [BEq α] [LawfulBEq α] {xs : List α} {x : α} (h : x ∈ xs) :
    (xs ++ [x]).eraseDups = xs.eraseDups := by
  have hnone : [x].removeAll xs = [] := by
    rw [List.removeAll, List.filter_singleton]
    simp [h]
  rw [List.eraseDups_append, hnone, List.eraseDups_nil, List.append_nil]

/-- A new element is kept at the end. -/
theorem eraseDups_append_of_notMem [BEq α] [LawfulBEq α] {xs : List α} {x : α} (h : x ∉ xs) :
    (xs ++ [x]).eraseDups = xs.eraseDups ++ [x] := by
  have hone : [x].removeAll xs = [x] := by
    rw [List.removeAll, List.filter_singleton]
    simp [h]
  rw [List.eraseDups_append, hone, List.eraseDups_cons, List.filter_nil, List.eraseDups_nil]

/-- After erasing repetitions no element occurs twice. -/
theorem nodup_eraseDups [BEq α] [LawfulBEq α] (xs : List α) : xs.eraseDups.Nodup := by
  induction xs using List.reverseRecOn with
  | nil => exact List.nodup_nil
  | append_singleton xs x ih =>
    by_cases h : x ∈ xs
    · rwa [eraseDups_append_of_mem h]
    · rw [eraseDups_append_of_notMem h]
      refine ih.append (List.nodup_singleton x) ?_
      rw [List.disjoint_singleton]
      exact fun hx => h (List.mem_eraseDups.1 hx)

end MarkovLogic
