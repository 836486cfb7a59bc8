/-
MarkovLogic/Proofs/Text/Cutting.lean

What is left of a text after trimming and cutting.

Each operation is described by how the text is put together again.  A text is its
trimmed part between blanks, and nothing else that is trimmed stands between blanks
there (`exists_trim_eq`, `trim_append`).  Cutting at the first or the last occurrence
of a character gives the only decomposition in which the character does not occur
before or behind (`cutFirst_eq_some_iff`, `cutLast_eq_some_iff`), and splitting at
every occurrence is the inverse of joining (`splitOn_eq_iff`).
-/
import Mathlib.Data.List.Basic
import Mathlib.Data.List.TakeWhile
import MarkovLogic.Text.Blank

namespace MarkovLogic.Text

/-! ### Trimming -/

/-- Only blanks. -/
def AllBlank (cs : List Char) : Prop :=
  ∀ c ∈ cs, isBlank c = true

/-- Neither the first nor the last character is a blank. -/
structure IsTrimmed (cs : List Char) : Prop where
  head : ∀ c ∈ cs.head?, isBlank c = false
  last : ∀ c ∈ cs.getLast?, isBlank c = false

theorem allBlank_nil : AllBlank [] := by
  simp [AllBlank]

theorem AllBlank.notMem {cs : List Char} (h : AllBlank cs) {c : Char} (hc : isBlank c = false) :
    c ∉ cs :=
  fun hmem => absurd (h c hmem) (by simp [hc])

/-- A text without blanks is trimmed. -/
theorem isTrimmed_of_forall {cs : List Char} (h : ∀ c ∈ cs, isBlank c = false) : IsTrimmed cs where
  head c hc := h c (List.mem_of_mem_head? hc)
  last c hc := h c (List.mem_of_getLast? hc)

theorem trimStart_append {lead : List Char} (h : AllBlank lead) (cs : List Char) :
    trimStart (lead ++ cs) = trimStart cs :=
  List.dropWhile_append_of_pos h

theorem trimStart_eq_self {cs : List Char} (h : ∀ c ∈ cs.head?, isBlank c = false) :
    trimStart cs = cs := by
  cases cs with
  | nil => rfl
  | cons c cs => rw [trimStart, List.dropWhile_cons, h c rfl, if_neg Bool.false_ne_true]

/-- What is dropped at the front are blanks. -/
theorem exists_trimStart_eq (cs : List Char) :
    ∃ lead, AllBlank lead ∧ cs = lead ++ trimStart cs :=
  ⟨cs.takeWhile isBlank, fun _ hc => List.mem_takeWhile_imp hc,
    List.takeWhile_append_dropWhile.symm⟩

theorem head_trimStart (cs : List Char) : ∀ c ∈ (trimStart cs).head?, isBlank c = false := by
  intro c hc
  have hhead := List.head?_dropWhile_not isBlank cs
  rw [show (cs.dropWhile isBlank).head? = some c from hc] at hhead
  exact hhead

theorem trimEnd_eq (cs : List Char) : trimEnd cs = (trimStart cs.reverse).reverse :=
  rfl

/-- What is dropped at the back are blanks. -/
theorem exists_trimEnd_eq (cs : List Char) :
    ∃ trail, AllBlank trail ∧ cs = trimEnd cs ++ trail := by
  obtain ⟨lead, hlead, heq⟩ := exists_trimStart_eq cs.reverse
  refine ⟨lead.reverse, fun c hc => hlead c (List.mem_reverse.1 hc), ?_⟩
  rw [trimEnd_eq, ← List.reverse_append, ← heq, List.reverse_reverse]

/-- A text is its trimmed part between blanks. -/
theorem exists_trim_eq (cs : List Char) :
    ∃ lead trail, AllBlank lead ∧ AllBlank trail ∧ cs = lead ++ trim cs ++ trail := by
  obtain ⟨lead, hlead, hstart⟩ := exists_trimStart_eq cs
  obtain ⟨trail, htrail, hend⟩ := exists_trimEnd_eq (trimStart cs)
  refine ⟨lead, trail, hlead, htrail, ?_⟩
  rw [trim, List.append_assoc, ← hend, ← hstart]

/-- A trimmed text between blanks is what trimming leaves. -/
theorem trim_append {lead core trail : List Char} (hlead : AllBlank lead) (hcore : IsTrimmed core)
    (htrail : AllBlank trail) : trim (lead ++ core ++ trail) = core := by
  rw [trim, List.append_assoc, trimStart_append hlead]
  cases core with
  | nil =>
    have hnone : trimStart trail = [] := List.dropWhile_eq_nil_iff.2 htrail
    rw [List.nil_append, hnone]
    rfl
  | cons c core =>
    have htrail' : AllBlank trail.reverse := fun c hc => htrail c (List.mem_reverse.1 hc)
    have hlast : ∀ d ∈ (c :: core).reverse.head?, isBlank d = false := by
      rw [List.head?_reverse]
      exact hcore.last
    have hstart : trimStart (c :: core ++ trail) = c :: core ++ trail :=
      trimStart_eq_self hcore.head
    rw [hstart, trimEnd_eq, List.reverse_append, trimStart_append htrail', trimStart_eq_self hlast,
      List.reverse_reverse]

theorem IsTrimmed.trim_eq {cs : List Char} (h : IsTrimmed cs) : trim cs = cs := by
  simpa using trim_append allBlank_nil h allBlank_nil

theorem isTrimmed_trim (cs : List Char) : IsTrimmed (trim cs) where
  head := by
    obtain ⟨trail, -, heq⟩ := exists_trimEnd_eq (trimStart cs)
    intro c hc
    refine head_trimStart cs c ?_
    rw [heq]
    exact List.mem_head?_append_of_mem_head? hc
  last := by
    intro c hc
    refine head_trimStart (trimStart cs).reverse c ?_
    rwa [trim, trimEnd_eq, List.getLast?_reverse] at hc

/-- Trimming leaves nothing exactly of a text of blanks. -/
theorem trim_eq_nil_iff {cs : List Char} : trim cs = [] ↔ AllBlank cs := by
  constructor
  · intro h
    obtain ⟨lead, trail, hlead, htrail, heq⟩ := exists_trim_eq cs
    rw [h, List.append_nil] at heq
    rw [heq]
    exact List.forall_mem_append.2 ⟨hlead, htrail⟩
  · intro h
    have hnil : IsTrimmed [] := isTrimmed_of_forall (by simp)
    simpa using trim_append h hnil allBlank_nil

/-! ### Cutting -/

theorem cutFirst_eq_none_iff {sep : Char} {cs : List Char} : cutFirst sep cs = none ↔ sep ∉ cs := by
  induction cs with
  | nil => simp [cutFirst]
  | cons c cs ih =>
    rw [cutFirst]
    by_cases hc : c = sep
    · simp [hc]
    · rw [if_neg hc, Option.map_eq_none_iff, ih, List.mem_cons, not_or, and_iff_right (Ne.symm hc)]

/-- Cutting at the first occurrence: the separator does not occur before. -/
theorem cutFirst_eq_some_iff {sep : Char} {cs before after : List Char} :
    cutFirst sep cs = some (before, after) ↔ cs = before ++ sep :: after ∧ sep ∉ before := by
  induction cs generalizing before with
  | nil => simp [cutFirst]
  | cons c cs ih =>
    rw [cutFirst]
    by_cases hc : c = sep
    · subst hc
      rw [if_pos rfl]
      cases before with
      | nil => simp [eq_comm]
      | cons d before =>
        refine ⟨by simp, ?_⟩
        rintro ⟨heq, hnot⟩
        exact absurd (List.cons.inj heq).1 fun h => hnot (h ▸ List.mem_cons_self)
    · rw [if_neg hc]
      cases before with
      | nil =>
        refine ⟨?_, fun h => absurd (List.cons.inj h.1).1 hc⟩
        intro h
        obtain ⟨p, -, hp⟩ := Option.map_eq_some_iff.1 h
        cases hp
      | cons d before =>
        constructor
        · intro h
          obtain ⟨⟨before', after'⟩, hp, heq⟩ := Option.map_eq_some_iff.1 h
          cases heq
          obtain ⟨rfl, hnot⟩ := ih.1 hp
          exact ⟨rfl, List.not_mem_cons_of_ne_of_not_mem (Ne.symm hc) hnot⟩
        · rintro ⟨heq, hnot⟩
          obtain ⟨rfl, hcs⟩ := List.cons.inj heq
          rw [ih.2 ⟨hcs, fun h => hnot (List.mem_cons_of_mem _ h)⟩]
          rfl

/-- Cutting at the last occurrence: the separator does not occur behind. -/
theorem cutLast_eq_some_iff {sep : Char} {cs before after : List Char} :
    cutLast sep cs = some (before, after) ↔ cs = before ++ sep :: after ∧ sep ∉ after := by
  have hreverse : cutLast sep cs = some (before, after) ↔
      cutFirst sep cs.reverse = some (after.reverse, before.reverse) := by
    rw [cutLast, Option.map_eq_some_iff]
    constructor
    · rintro ⟨⟨after', before'⟩, hcut, heq⟩
      cases heq
      simpa using hcut
    · intro hcut
      exact ⟨_, hcut, by simp⟩
  rw [hreverse, cutFirst_eq_some_iff, List.mem_reverse, List.reverse_eq_iff]
  simp

theorem dropSuffixChar_eq_some_iff {last : Char} {cs init : List Char} :
    dropSuffixChar last cs = some init ↔ cs = init ++ [last] := by
  rw [dropSuffixChar]
  constructor
  · intro h
    split at h
    · rename_i hlast
      rw [← Option.some.inj h]
      exact (List.dropLast_append_getLast? last hlast).symm
    · cases h
  · rintro rfl
    simp

/-! ### Splitting -/

/-- Splitting as the library has it. -/
theorem splitOn_eq (sep : Char) (cs : List Char) : splitOn sep cs = cs.splitOn sep := by
  induction cs with
  | nil => rfl
  | cons c cs ih =>
    rw [splitOn, ih, List.splitOn_eq_splitOnP, List.splitOn_eq_splitOnP,
      List.splitOnP_cons_eq_if_modifyHead]
    by_cases hc : c = sep
    · simp [hc]
    · rw [if_neg hc, if_neg (by simpa using hc)]
      cases hpieces : cs.splitOnP (· == sep) with
      | nil =>
        have hsome := List.splitOn_ne_nil sep cs
        rw [List.splitOn_eq_splitOnP, hpieces] at hsome
        exact absurd rfl hsome
      | cons piece pieces => rfl

theorem notMem_of_mem_splitOn {sep : Char} {cs piece : List Char} (h : piece ∈ splitOn sep cs) :
    sep ∉ piece := by
  induction cs generalizing piece with
  | nil =>
    rw [splitOn, List.mem_singleton] at h
    simp [h]
  | cons c cs ih =>
    rw [splitOn] at h
    split at h
    · rcases List.mem_cons.1 h with rfl | h
      · simp
      · exact ih h
    · rename_i hc
      split at h
      · rw [List.mem_singleton.1 h, List.mem_singleton]
        exact Ne.symm hc
      · rename_i first pieces hsplit
        rcases List.mem_cons.1 h with rfl | h
        · exact List.not_mem_cons_of_ne_of_not_mem (Ne.symm hc)
            (ih (hsplit ▸ List.mem_cons_self))
        · exact ih (hsplit ▸ List.mem_cons_of_mem _ h)

/-- The pieces of a text are those without the separator whose joining is the text. -/
theorem splitOn_eq_iff {sep : Char} {cs : List Char} {pieces : List (List Char)} :
    splitOn sep cs = pieces ↔
      pieces ≠ [] ∧ (∀ piece ∈ pieces, sep ∉ piece) ∧ cs = [sep].intercalate pieces := by
  constructor
  · rintro rfl
    refine ⟨?_, fun piece => notMem_of_mem_splitOn, ?_⟩
    · rw [splitOn_eq]
      exact List.splitOn_ne_nil sep cs
    · rw [splitOn_eq, List.intercalate_splitOn]
  · rintro ⟨hne, hnot, rfl⟩
    rw [splitOn_eq, List.splitOn_intercalate sep hnot hne]

end MarkovLogic.Text
