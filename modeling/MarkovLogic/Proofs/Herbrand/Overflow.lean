/-
MarkovLogic/Proofs/Herbrand/Overflow.lean

When a numbering is refused.

The sizes of the argument domains are multiplied up from the last argument to
the first, and every product on the way is compared with the largest number.
So a numbering is refused exactly if somewhere in the layout the rightmost
arguments of a predicate, as many as one likes, ask for more numbers than are
left behind the predicates before it (`exists_error_iff`).  Where every domain
has a constant these products only grow, and the refusal means that the ground
atoms are too many.  An empty domain takes the product back to zero, but the
products to the right of it have been compared by then: a predicate without any
ground atom is refused if its large domains stand behind the empty one
(`not_overflow_emptyFirst`), and numbered if they stand in front of it.

Main statement: `overflow_of_build`.
-/
import MarkovLogic.Proofs.Herbrand.Limit

namespace MarkovLogic.Herbrand

/-! ### Products from the right -/

theorem volume_append (ms ns : List Nat) : volume (ms ++ ns) = volume ms * volume ns := by
  induction ms with
  | nil => rw [List.nil_append, volume, Nat.one_mul]
  | cons m ms ih => rw [List.cons_append, volume, ih, volume, Nat.mul_assoc]

theorem volume_pos {ns : List Nat} (h : 0 ∉ ns) : 0 < volume ns := by
  induction ns with
  | nil => exact Nat.one_pos
  | cons n ns ih =>
    rw [List.mem_cons, not_or] at h
    exact Nat.mul_pos (Nat.pos_of_ne_zero (Ne.symm h.1)) (ih h.2)

theorem volume_eq_zero {ns : List Nat} (h : 0 ∈ ns) : volume ns = 0 := by
  obtain ⟨front, back, rfl⟩ := List.append_of_mem h
  rw [volume_append, volume, Nat.zero_mul, Nat.mul_zero]

namespace Block

variable {signature : Signature} {start : Nat}

/-- The sizes are refused at the first product from the right that reaches past
the largest number. -/
theorem checkedSize_eq_error {ns : List Nat} {e : NumberingError}
    (h : checkedSize signature start ns = .error e) :
    ∃ front back, ns = front ++ back ∧ back ≠ [] ∧ maxId < start + volume back ∧
      e = .overflow signature start (min (volume back) maxProduct) := by
  induction ns with
  | nil => cases h
  | cons n ns ih =>
    unfold checkedSize at h
    rcases hinner : checkedSize signature start ns with e' | inner
    · rw [hinner] at h
      obtain rfl : e' = e := Except.error.inj h
      obtain ⟨front, back, rfl, hback⟩ := ih hinner
      exact ⟨n :: front, back, rfl, hback⟩
    · obtain rfl := (checkedSize_eq_ok hinner).1
      simp only [hinner, bind, Except.bind] at h
      split at h
      · rename_i hlarge
        obtain rfl := Except.error.inj h
        rw [Nat.mul_comm (volume ns) n] at hlarge ⊢
        refine ⟨[], n :: ns, rfl, List.cons_ne_nil _ _, ?_, rfl⟩
        have hmin : min (n * volume ns) maxProduct ≤ n * volume ns := Nat.min_le_left _ _
        rw [volume]
        omega
      · cases h

/-- Sizes that pass leave the sizes to the right of them passed. -/
theorem checkedSize_append {front back : List Nat} {n : Nat}
    (h : checkedSize signature start (front ++ back) = .ok n) :
    ∃ n', checkedSize signature start back = .ok n' := by
  induction front generalizing n with
  | nil => exact ⟨n, h⟩
  | cons m front ih =>
    rw [List.cons_append, checkedSize] at h
    obtain ⟨inner, hinner, -⟩ := bind_eq_ok_iff.1 h
    exact ih hinner

/-- Sizes that are refused are refused whatever stands in front of them. -/
theorem checkedSize_append_error (front : List Nat) {back : List Nat} {e : NumberingError}
    (h : checkedSize signature start back = .error e) :
    checkedSize signature start (front ++ back) = .error e := by
  induction front with
  | nil => exact h
  | cons n front ih =>
    rw [List.cons_append, checkedSize, ih]
    rfl

/-- The rightmost arguments of a block, as many as one likes, stay below the
limit. -/
theorem IsChecked.add_volume_le {b : Block} (hb : b.IsChecked) {front back : List Domain}
    (hdomains : b.domains = front ++ back) (hback : back ≠ []) :
    b.start + volume (back.map Domain.size) ≤ maxId := by
  obtain ⟨n, hn⟩ := hb
  rw [sizes, hdomains, List.map_append] at hn
  obtain ⟨n', hn'⟩ := checkedSize_append hn
  obtain rfl := (checkedSize_eq_ok hn').1
  exact add_le_of_checkedSize (by simpa using hback) hn'

end Block

/-! ### Places in the layout -/

/-- The number of ground atoms of a schema. -/
def atomTotal (schema : List (Signature × List Domain)) : Nat :=
  (schema.map fun p => volume (p.2.map Domain.size)).sum

theorem atomTotal_append (ps qs : List (Signature × List Domain)) :
    atomTotal (ps ++ qs) = atomTotal ps + atomTotal qs := by
  rw [atomTotal, List.map_append, List.sum_append]
  rfl

theorem atomTotal_cons (p : Signature × List Domain) (ps : List (Signature × List Domain)) :
    atomTotal (p :: ps) = volume (p.2.map Domain.size) + atomTotal ps :=
  List.sum_cons

theorem atomTotal_perm {ps qs : List (Signature × List Domain)} (h : ps.Perm qs) :
    atomTotal ps = atomTotal qs :=
  (h.map _).sum_eq

namespace Consecutive

variable {start next : Nat} {bs : List Block}

/-- The blocks take as many numbers as their predicates have ground atoms. -/
theorem next_eq (h : Consecutive start bs next) :
    next = start + atomTotal (bs.map Block.entry) := by
  induction bs generalizing start with
  | nil => exact (show start = next from h).symm
  | cons b bs ih =>
    obtain ⟨rfl, h⟩ := h
    rw [ih h, List.map_cons, atomTotal_cons, ← Nat.add_assoc]
    rfl

/-- A block begins behind the ground atoms of the predicates before it. -/
theorem start_eq {before after : List Block} {b : Block}
    (h : Consecutive start (before ++ b :: after) next) :
    b.start = start + atomTotal (before.map Block.entry) := by
  induction before generalizing start with
  | nil => exact h.1
  | cons b' before ih =>
    obtain ⟨rfl, h⟩ := h
    rw [ih h, List.map_cons, atomTotal_cons, ← Nat.add_assoc]
    rfl

end Consecutive

/-- The rightmost arguments of a predicate ask for more numbers than are left
behind `used` others. -/
structure Overruns (used : Nat) (domains front back : List Domain) : Prop where
  domains_eq : domains = front ++ back
  back_ne_nil : back ≠ []
  limit_lt : Block.maxId < 1 + used + volume (back.map Domain.size)

/-- Without an empty domain in front of them, these arguments ask for no more than
the predicate needs. -/
theorem Overruns.limit_lt_volume {used : Nat} {domains front back : List Domain}
    (h : Overruns used domains front back) (hfront : ∀ d ∈ front, d.size ≠ 0) :
    Block.maxId < 1 + used + volume (domains.map Domain.size) := by
  have hpos : 0 < volume (front.map Domain.size) :=
    volume_pos fun hzero => by
      obtain ⟨d, hd, hsize⟩ := List.mem_map.1 hzero
      exact hfront d hd hsize
  have hgrow : volume (back.map Domain.size) ≤ volume (domains.map Domain.size) := by
    rw [h.domains_eq, List.map_append, volume_append]
    exact Nat.le_mul_of_pos_left _ hpos
  have hlimit := h.limit_lt
  omega

namespace Base

variable {schema : List (Signature × List Domain)} {isQuery : Signature → Bool}

/-- A layout is refused at a predicate whose sizes are refused. -/
theorem layOut_eq_error {start : Nat} {ps : List (Signature × List Domain)} {e : NumberingError}
    (h : layOut start ps = .error e) :
    ∃ before p after, ps = before ++ p :: after ∧
      Block.checkedSize p.1 (start + atomTotal before) (p.2.map Domain.size) = .error e := by
  induction ps generalizing start with
  | nil => cases h
  | cons p ps ih =>
    obtain ⟨signature, domains⟩ := p
    unfold layOut Block.make at h
    rcases hsize : Block.checkedSize signature start (domains.map Domain.size) with e' | n
    · rw [hsize] at h
      obtain rfl : e' = e := Except.error.inj h
      exact ⟨[], (signature, domains), ps, rfl, hsize⟩
    · simp only [hsize, bind, Except.bind, pure, Except.pure] at h
      rcases hrest : layOut (Block.stop ⟨signature, start, domains⟩) ps with e' | r
      · rw [hrest] at h
        obtain rfl : e' = e := Except.error.inj h
        obtain ⟨before, p, after, rfl, hp⟩ := ih hrest
        refine ⟨(signature, domains) :: before, p, after, rfl, ?_⟩
        rw [atomTotal_cons, ← Nat.add_assoc]
        exact hp
      · rw [hrest] at h
        cases h

/-- The predicates in the order in which they are laid out. -/
def layoutOrder (schema : List (Signature × List Domain)) (isQuery : Signature → Bool) :
    List (Signature × List Domain) :=
  (schema.filter fun p => isQuery p.1) ++ schema.filter fun p => !isQuery p.1

theorem mem_layoutOrder {p : Signature × List Domain} :
    p ∈ layoutOrder schema isQuery ↔ p ∈ schema :=
  (List.filter_append_perm _ schema).mem_iff

theorem atomTotal_layoutOrder (schema : List (Signature × List Domain))
    (isQuery : Signature → Bool) : atomTotal (layoutOrder schema isQuery) = atomTotal schema :=
  atomTotal_perm (List.filter_append_perm _ schema)

theorem map_entry_blocks {b : Base} (h : build schema isQuery = .ok b) :
    b.blocks.map Block.entry = layoutOrder schema isQuery := by
  obtain ⟨queried, others, queryEnd, hl⟩ := layout_of_build h
  rw [hl.blocks_eq, List.map_append, hl.queried_entries, hl.others_entries, layoutOrder]

/-- A numbering counts the ground atoms of its schema. -/
theorem atomCount_eq {b : Base} (h : build schema isQuery = .ok b) :
    b.atomCount = atomTotal schema := by
  have hnext := (consecutive_of_build h).next_eq
  rw [map_entry_blocks h, atomTotal_layoutOrder] at hnext
  rw [atomCount]
  omega

/-- A numbering is refused at a predicate whose sizes are refused. -/
theorem exists_checkedSize_eq_error {e : NumberingError} (h : build schema isQuery = .error e) :
    ∃ before p after, layoutOrder schema isQuery = before ++ p :: after ∧
      Block.checkedSize p.1 (1 + atomTotal before) (p.2.map Domain.size) = .error e := by
  unfold build at h
  rcases hq : layOut 1 (schema.filter fun p => isQuery p.1) with e' | ⟨queried, queryEnd⟩
  · rw [hq] at h
    obtain rfl : e' = e := Except.error.inj h
    obtain ⟨before, p, after, hps, hp⟩ := layOut_eq_error hq
    exact ⟨before, p, _, by rw [layoutOrder, hps, List.append_assoc, List.cons_append], hp⟩
  · simp only [hq, bind, Except.bind] at h
    rcases ho : layOut queryEnd (schema.filter fun p => !isQuery p.1) with e' | r
    · rw [ho] at h
      obtain rfl : e' = e := Except.error.inj h
      obtain ⟨hconsecutive, hentries, -⟩ := layOut_eq_ok hq
      obtain ⟨before, p, after, hps, hp⟩ := layOut_eq_error ho
      refine ⟨(schema.filter fun p => isQuery p.1) ++ before, p, after, ?_, ?_⟩
      · rw [layoutOrder, hps, List.append_assoc]
      · -- the others begin behind the queried predicates
        rwa [hconsecutive.next_eq, hentries, Nat.add_assoc, ← atomTotal_append] at hp
    · rw [ho] at h
      cases h

/-- What is reported where a numbering is refused. -/
theorem build_eq_error {e : NumberingError} (h : build schema isQuery = .error e) :
    ∃ before p after front back, layoutOrder schema isQuery = before ++ p :: after ∧
      Overruns (atomTotal before) p.2 front back ∧
      e = .overflow p.1 (1 + atomTotal before)
        (min (volume (back.map Domain.size)) Block.maxProduct) := by
  obtain ⟨before, p, after, horder, hp⟩ := exists_checkedSize_eq_error h
  obtain ⟨front', back', hsizes, hback, hlimit, rfl⟩ := Block.checkedSize_eq_error hp
  obtain ⟨front, back, hdomains, rfl, rfl⟩ := List.map_eq_append_iff.1 hsizes
  exact ⟨before, p, after, front, back, horder, ⟨hdomains, by simpa using hback, hlimit⟩, rfl⟩

/-- A numbering is refused exactly if the rightmost arguments of some predicate ask
for more numbers than are left where it is laid out. -/
theorem exists_error_iff : (∃ e, build schema isQuery = .error e) ↔
    ∃ before p after front back, layoutOrder schema isQuery = before ++ p :: after ∧
      Overruns (atomTotal before) p.2 front back := by
  constructor
  · rintro ⟨e, h⟩
    obtain ⟨before, p, after, front, back, horder, hover, -⟩ := build_eq_error h
    exact ⟨before, p, after, front, back, horder, hover⟩
  · rintro ⟨before, p, after, front, back, horder, hover⟩
    rcases hb : build schema isQuery with e | b
    · exact ⟨e, rfl⟩
    · have hentries := map_entry_blocks hb
      rw [horder] at hentries
      obtain ⟨before', rest, hblocks, rfl, hrest⟩ := List.map_eq_append_iff.1 hentries
      obtain ⟨block, after', rfl, rfl, -⟩ := List.map_eq_cons_iff.1 hrest
      have hstart := (hblocks ▸ consecutive_of_build hb).start_eq
      have hfits := (isChecked_of_build hb (by simp [hblocks])).add_volume_le
        hover.domains_eq hover.back_ne_nil
      have hlimit := hover.limit_lt
      omega

/-- Where the arguments ask for too many numbers, the ground atoms are too many or an
empty domain stands in front of the arguments. -/
theorem limit_lt_or_of_overruns {before after : List (Signature × List Domain)}
    {p : Signature × List Domain} {front back : List Domain}
    (horder : layoutOrder schema isQuery = before ++ p :: after)
    (h : Overruns (atomTotal before) p.2 front back) :
    Block.maxId < 1 + atomTotal schema ∨
      (∃ d ∈ front, d.size = 0) ∧ volume (p.2.map Domain.size) = 0 := by
  by_cases hfront : ∃ d ∈ front, d.size = 0
  · refine .inr ⟨hfront, ?_⟩
    rw [h.domains_eq, List.map_append, volume_append, volume_eq_zero (by simpa using hfront),
      Nat.zero_mul]
  · have hlimit := h.limit_lt_volume (by simpa using hfront)
    rw [← atomTotal_layoutOrder schema isQuery, horder, atomTotal_append, atomTotal_cons]
    exact .inl (by omega)

/-- Where no domain is empty, a numbering is refused only if the ground atoms are too
many. -/
theorem limit_lt_of_error (hnonempty : ∀ p ∈ schema, ∀ d ∈ p.2, d.size ≠ 0)
    (h : ∃ e, build schema isQuery = .error e) : Block.maxId < 1 + atomTotal schema := by
  obtain ⟨before, p, after, front, back, horder, hover⟩ := exists_error_iff.1 h
  refine (limit_lt_or_of_overruns horder hover).resolve_right fun hempty => ?_
  obtain ⟨d, hd, hsize⟩ := hempty.1
  have hp : p ∈ layoutOrder schema isQuery := by simp [horder]
  exact hnonempty p (mem_layoutOrder.1 hp) d (hover.domains_eq ▸ List.mem_append_left back hd) hsize

/-- If no domain is empty and every predicate has arguments, the numbering is
refused exactly if the ground atoms are too many. -/
theorem exists_error_iff_of_nonempty
    (hschema : ∀ p ∈ schema, p.2 ≠ [] ∧ ∀ d ∈ p.2, d.size ≠ 0) :
    (∃ e, build schema isQuery = .error e) ↔ Block.maxId < 1 + atomTotal schema := by
  refine ⟨limit_lt_of_error fun p hp => (hschema p hp).2, fun hlimit => ?_⟩
  rw [exists_error_iff]
  rw [← atomTotal_layoutOrder schema isQuery] at hlimit
  -- all arguments of the last predicate reach past the limit
  obtain hnil | ⟨before, p, horder⟩ := List.eq_nil_or_concat' (layoutOrder schema isQuery)
  · rw [hnil] at hlimit
    exact absurd hlimit (by decide)
  · have hp : p ∈ layoutOrder schema isQuery := by simp [horder]
    refine ⟨before, p, [], [], p.2, horder, rfl, (hschema p (mem_layoutOrder.1 hp)).1, ?_⟩
    rw [horder, atomTotal_append, atomTotal_cons, ← Nat.add_assoc] at hlimit
    exact hlimit

/-! ### The main theorem -/

/-- **What an overflow tells.**  It names a predicate and where it would begin, and
the rightmost arguments of the predicate ask for more numbers than are left from
there on; so many it reports, up to the largest product.  Then the ground atoms
are too many, or an empty domain stands in front of these arguments and the
predicate has no ground atom.  So where no domain is empty, an overflow is
reported only if the ground atoms are too many; and always, if besides no
predicate is without arguments.  Without an overflow all ground atoms are
numbered. -/
theorem overflow_of_build (schema : List (Signature × List Domain)) (isQuery : Signature → Bool) :
    (∀ e, build schema isQuery = .error e →
      (∃ before p after front back, layoutOrder schema isQuery = before ++ p :: after ∧
        Overruns (atomTotal before) p.2 front back ∧
        e = .overflow p.1 (1 + atomTotal before)
          (min (volume (back.map Domain.size)) Block.maxProduct) ∧
        (Block.maxId < 1 + atomTotal schema ∨
          (∃ d ∈ front, d.size = 0) ∧ volume (p.2.map Domain.size) = 0)) ∧
      ((∀ p ∈ schema, ∀ d ∈ p.2, d.size ≠ 0) → Block.maxId < 1 + atomTotal schema)) ∧
    ((∀ p ∈ schema, p.2 ≠ [] ∧ ∀ d ∈ p.2, d.size ≠ 0) →
      ((∃ e, build schema isQuery = .error e) ↔ Block.maxId < 1 + atomTotal schema)) ∧
    ∀ b, build schema isQuery = .ok b → b.atomCount = atomTotal schema := by
  refine ⟨fun e h => ?_, exists_error_iff_of_nonempty, fun b => atomCount_eq⟩
  obtain ⟨before, p, after, front, back, horder, hover, he⟩ := build_eq_error h
  exact ⟨⟨before, p, after, front, back, horder, hover, he, limit_lt_or_of_overruns horder hover⟩,
    fun hnonempty => limit_lt_of_error hnonempty ⟨_, h⟩⟩

/-! ### A predicate of large domains -/

/-- A predicate of two arguments over a large domain, with more arguments in front
of these. -/
def hugeEntry (large : Domain) (front : List Domain) : Signature × List Domain :=
  (⟨"Huge", front.length + 2⟩, front ++ [large, large])

/-- With an empty domain in front there is no ground atom. -/
theorem atomTotal_emptyFirst (large : Domain) : atomTotal [hugeEntry large [.empty]] = 0 := by
  have hempty : Domain.empty.size = 0 := rfl
  simp [atomTotal, hugeEntry, volume, hempty]

section Huge

variable {large : Domain} (hlarge : large.size = 50000)

include hlarge

/-- The two arguments are refused, whatever stands in front of them. -/
theorem build_hugeEntry (front : List Domain) :
    build [hugeEntry large front] (fun _ => false) =
      .error (.overflow ⟨"Huge", front.length + 2⟩ 1 2500000000) := by
  have hpair : Block.checkedSize ⟨"Huge", front.length + 2⟩ 1 ([large, large].map Domain.size) =
      .error (.overflow ⟨"Huge", front.length + 2⟩ 1 2500000000) := by
    simp only [List.map_cons, List.map_nil, hlarge]
    rfl
  have hsizes := Block.checkedSize_append_error (front.map Domain.size) hpair
  rw [← List.map_append] at hsizes
  have hmake : Block.make ⟨"Huge", front.length + 2⟩ 1 (front ++ [large, large]) =
      .error (.overflow ⟨"Huge", front.length + 2⟩ 1 2500000000) := by
    rw [Block.make, hsizes]
    rfl
  simp only [build, hugeEntry, List.filter_false, List.filter_true, Bool.not_false, layOut, hmake,
    bind, Except.bind]

/-- With an empty domain behind them they are numbered. -/
theorem build_emptyLast :
    ∃ b, build [(⟨"Huge", 3⟩, [large, large, .empty])] (fun _ => false) = .ok b ∧
      b.atomCount = 0 := by
  have hempty : Domain.empty.size = 0 := rfl
  simp [build, layOut, Block.make, Block.checkedSize, Block.stop, Block.size, Block.sizes, volume,
    Block.maxId, hlarge, hempty, atomCount, bind, Except.bind, pure, Except.pure]

end Huge

/-- On its own the predicate is refused, and its ground atoms are too many. -/
theorem overflow_hugeEntry :
    build [hugeEntry (tallyMarks 50000) []] (fun _ => false) =
        .error (.overflow ⟨"Huge", 2⟩ 1 2500000000) ∧
      Block.maxId < 1 + atomTotal [hugeEntry (tallyMarks 50000) []] := by
  have hlarge := size_tallyMarks 50000
  have hbuild := build_hugeEntry hlarge []
  refine ⟨hbuild, ((overflow_of_build _ _).1 _ hbuild).2 fun p hp d hd => ?_⟩
  have hp : p = hugeEntry (tallyMarks 50000) [] := List.mem_singleton.1 hp
  have hd : d = tallyMarks 50000 := by simpa [hp, hugeEntry] using hd
  rw [hd, hlarge]
  exact Nat.succ_ne_zero 49999

/-- With an empty domain in front it has no ground atoms and is refused as before.
With the empty domain at the end it is numbered. -/
theorem not_overflow_emptyFirst :
    build [hugeEntry (tallyMarks 50000) [.empty]] (fun _ => false) =
        .error (.overflow ⟨"Huge", 3⟩ 1 2500000000) ∧
      ¬ Block.maxId < 1 + atomTotal [hugeEntry (tallyMarks 50000) [.empty]] ∧
      ∃ b, build [(⟨"Huge", 3⟩, [tallyMarks 50000, tallyMarks 50000, .empty])] (fun _ => false) =
        .ok b ∧ b.atomCount = 0 := by
  have hlarge := size_tallyMarks 50000
  have hbuild := build_hugeEntry hlarge [.empty]
  refine ⟨hbuild, ?_, build_emptyLast hlarge⟩
  rw [atomTotal_emptyFirst]
  decide

end Base

end MarkovLogic.Herbrand
