/-
MarkovLogic/Proofs/Herbrand/Words.lean

Numbering atoms with words of 32 bits.

A program computes the number of an atom from a table of strides, the place
values of the arguments, with words of 32 bits: it adds up position times
stride, and it takes a number apart by dividing by the strides.  Here these
computations are written with every overflow and every division by zero as a
failure of its own (the outer `Option`).  For a block that was checked when it
was made and that ends below `2 ^ 32` none of them fails, and each gives the
same result as the recursion over the sizes (`encodeByWords_eq`,
`encodeIndicesByWords_eq`, `decodeIndicesByWords_eq`).

Strides can be zero, in front of an empty domain.  Then every sum stays at
zero up to the empty domain, where the search fails; and the block has no
number that could be divided.
-/
import MarkovLogic.Proofs.Herbrand.Layout

namespace MarkovLogic.Herbrand

/-! ### Words -/

/-- The number of words. -/
def wordLimit : Nat := Nat.pow 2 32

/-- A result, if it is a word; otherwise the computation overflows. -/
def word? (n : Nat) : Option Nat :=
  if n < wordLimit then some n else none

/-- What is left of a number when it is cut down to a word. -/
def cut (n : Nat) : Nat :=
  n % wordLimit

theorem word?_of_lt {n : Nat} (h : n < wordLimit) : word? n = some n :=
  if_pos h

theorem cut_of_lt {n : Nat} (h : n < wordLimit) : cut n = n :=
  Nat.mod_eq_of_lt h

/-! ### Sums and digits -/

/-- The place values of the arguments, cut down to words. -/
def strideWords : List Nat → List Nat
  | [] => []
  | _ :: ns => cut (volume ns) :: strideWords ns

/-- Adds up position times stride, as long as the positions are found. -/
def sumWords : List (Option Nat) → List Nat → Nat → Option (Option Nat)
  | none :: _, _, _ => some none
  | some i :: is, stride :: strides, offset => do
    let product ← word? (cut i * stride)
    let offset ← word? (offset + product)
    sumWords is strides offset
  | _, _, offset => some (some offset)

/-- Divides by one stride after the other; a zero cannot be divided by. -/
def digitWords : List Nat → Nat → Option (List Nat)
  | [], _ => some []
  | stride :: strides, rest =>
    if stride = 0 then none
    else (digitWords strides (rest % stride)).map (rest / stride :: ·)

/-- A position, if it is one of the domain. -/
def inRange? (d : Domain) (i : Nat) : Option Nat :=
  if i < d.size then some i else none

namespace Block

/-- One past the last number, as a word. -/
def stopWord (b : Block) : Option Nat :=
  word? (b.start + cut b.size)

/-- The number of an atom whose positions were searched for. -/
def numberWords (b : Block) (found : List (Option Nat)) : Option (Option Nat) := do
  match ← sumWords found (strideWords b.sizes) 0 with
  | none => some none
  | some offset => (word? (b.start + offset)).map some

/-- Encodes arguments given by name, with words. -/
def encodeByWords (b : Block) (constants : List String) : Option (Option Nat) :=
  if constants.length ≠ b.domains.length then some none
  else b.numberWords ((b.domains.zip constants).map fun (d, c) => d.find? c)

/-- Encodes arguments given by position, with words. -/
def encodeIndicesByWords (b : Block) (indices : List Nat) : Option (Option Nat) :=
  if indices.length ≠ b.domains.length then some none
  else b.numberWords ((b.domains.zip indices).map fun (d, i) => inRange? d i)

/-- Decodes a number, with words. -/
def decodeIndicesByWords (b : Block) (id : Nat) : Option (Option (List Nat)) := do
  let stop ← b.stopWord
  if b.start ≤ id ∧ id < stop then
    (digitWords (strideWords b.sizes) (id - b.start)).map some
  else some none

end Block

/-! ### What the check of the sizes gives -/

/-- Every stride is a word. -/
def StridesFit : List Nat → Prop
  | [] => True
  | _ :: ns => volume ns < wordLimit ∧ StridesFit ns

/-- The check computes the volume, and all strides are words. -/
theorem checkedSize_eq_ok {signature : Signature} {start n : Nat} {ns : List Nat}
    (h : Block.checkedSize signature start ns = .ok n) :
    n = volume ns ∧ n ≤ Block.maxId ∧ StridesFit ns := by
  induction ns generalizing n with
  | nil =>
    obtain rfl := Except.ok.inj h
    exact ⟨rfl, by decide, trivial⟩
  | cons m ns ih =>
    unfold Block.checkedSize at h
    rcases hi : Block.checkedSize signature start ns with e | inner
    · rw [hi] at h
      cases h
    · obtain ⟨rfl, hle, hfit⟩ := ih hi
      simp only [hi, bind, Except.bind] at h
      split at h
      · cases h
      · obtain rfl := Except.ok.inj h
        have hlimits : Block.maxId < Block.maxProduct ∧ Block.maxId < wordLimit := by decide
        have hproduct : min (volume ns * m) Block.maxProduct = volume ns * m := by omega
        rw [hproduct] at *
        refine ⟨Nat.mul_comm _ _, by omega, by omega, hfit⟩

/-- Strides that are words are kept as they are. -/
theorem strideWords_cons {n : Nat} {ns : List Nat} (h : StridesFit (n :: ns)) :
    strideWords (n :: ns) = volume ns :: strideWords ns := by
  rw [strideWords, cut_of_lt h.1]

/-! ### The computations do not fail -/

/-- The sum over the positions is their rank.  The invariant is that the sum so
far and the volume that is left fit together below `2 ^ 32`. -/
theorem sumWords_eq {ns : List Nat} {found : List (Option Nat)} {offset : Nat}
    (hrange : List.Forall₂ (fun f n => ∀ i, f = some i → i < n) found ns)
    (hfit : StridesFit ns) (hsum : offset + volume ns < wordLimit) :
    sumWords found (strideWords ns) offset =
      some (((found.mapM id).bind (rank? ns)).map (offset + ·)) := by
  induction hrange generalizing offset with
  | nil => simp [sumWords, rank?]
  | @cons f n found ns hf hrest ih =>
    rcases f with - | i
    · simp [sumWords]
    · have hi : i < n := hf i rfl
      have hsum' : offset + n * volume ns < wordLimit := hsum
      -- with a positive stride the position itself is a word
      have hcut : cut i * volume ns = i * volume ns := by
        rcases Nat.eq_zero_or_pos (volume ns) with hz | hpos
        · simp [hz]
        · have : n ≤ n * volume ns := Nat.le_mul_of_pos_right n hpos
          rw [cut_of_lt (by omega)]
      have hstep : i * volume ns + volume ns ≤ n * volume ns := by
        have := Nat.mul_le_mul_right (volume ns) (show i + 1 ≤ n from hi)
        rwa [Nat.add_mul, Nat.one_mul] at this
      have hproduct : word? (i * volume ns) = some (i * volume ns) := word?_of_lt (by omega)
      have hoffset : word? (offset + i * volume ns) = some (offset + i * volume ns) :=
        word?_of_lt (by omega)
      have hrec := @ih (offset + i * volume ns) hfit.2 (by omega)
      rw [strideWords_cons hfit, sumWords, hcut]
      simp only [hproduct, hoffset, hrec, Option.bind_eq_bind, Option.bind_some]
      rw [List.mapM_cons]
      rcases found.mapM id with - | is
      · simp
      · simp only [id_eq, Option.bind_eq_bind, Option.bind_some, Option.pure_def, rank?, hi,
          if_true, Option.map_map]
        congr 2
        funext r
        simp only [Function.comp_apply]
        omega

/-- Below the volume no stride is zero, and the digits are the positions. -/
theorem digitWords_eq {ns : List Nat} {r : Nat} (hfit : StridesFit ns) (hr : r < volume ns) :
    digitWords (strideWords ns) r = some (unrank ns r) := by
  induction ns generalizing r with
  | nil => rfl
  | cons n ns ih =>
    have hpos : 0 < volume ns := pos_of_lt_mul hr
    rw [strideWords_cons hfit, digitWords, if_neg (by omega), ih hfit.2 (Nat.mod_lt r hpos)]
    rfl

namespace Block

variable {b : Block}

/-- The end of a block is a word. -/
theorem stopWord_eq (hstop : b.stop < wordLimit) : b.stopWord = some b.stop := by
  have hstop' : b.start + b.size < wordLimit := hstop
  rw [stopWord, cut_of_lt (by omega)]
  exact word?_of_lt hstop

theorem stridesFit (hb : b.IsChecked) : StridesFit b.sizes := by
  obtain ⟨n, hn⟩ := hb
  exact (checkedSize_eq_ok hn).2.2

/-- Positions in range are numbered without overflow. -/
theorem numberWords_eq (hb : b.IsChecked) (hstop : b.stop < wordLimit)
    {found : List (Option Nat)}
    (hrange : List.Forall₂ (fun f n => ∀ i, f = some i → i < n) found b.sizes) :
    b.numberWords found = some ((found.mapM id).bind b.encodeIndices?) := by
  have hstop' : b.start + volume b.sizes < wordLimit := hstop
  rw [numberWords, sumWords_eq hrange (stridesFit hb) (by omega)]
  rcases found.mapM id with - | is
  · rfl
  · rcases hr : rank? b.sizes is with - | r
    · simp [encodeIndices?, hr]
    · have := rank?_lt_volume hr
      simp [encodeIndices?, hr, word?_of_lt (show b.start + r < wordLimit by omega)]

/-- What is found in domains is in range. -/
theorem found_inRange {κ : Type} (find : Domain → κ → Option Nat) {ds : List Domain} {xs : List κ}
    (hxs : xs.length = ds.length) (hfind : ∀ d x i, find d x = some i → i < d.size) :
    List.Forall₂ (fun f n => ∀ i, f = some i → i < n)
      ((ds.zip xs).map fun (d, x) => find d x) (ds.map Domain.size) := by
  induction ds generalizing xs with
  | nil => simp
  | cons d ds ih =>
    obtain - | ⟨x, xs⟩ := xs
    · simp at hxs
    exact .cons (fun i => hfind d x i) (ih (by simpa using hxs))

/-- Encoding names with words neither overflows nor differs. -/
theorem encodeByWords_eq (hb : b.IsChecked) (hstop : b.stop < wordLimit) (cs : List String) :
    b.encodeByWords cs = some (b.encode? cs) := by
  by_cases hcs : cs.length = b.domains.length
  · have hrange := found_inRange Domain.find? hcs fun _ _ _ => Domain.lt_size_of_find?
    rw [encodeByWords, if_neg (by simpa using hcs), numberWords_eq hb hstop hrange,
      encode?_of_find? hcs, List.mapM_map]
    rfl
  · have hnone : b.encode? cs = none := by
      rw [Option.eq_none_iff_forall_not_mem]
      exact fun id hid => hcs (length_of_encode? hid)
    rw [encodeByWords, if_pos hcs, hnone]

/-- Checking positions against the sizes lets exactly those in range pass. -/
theorem mapM_inRange_eq_some_iff {ds : List Domain} {is is' : List Nat}
    (his : is.length = ds.length) :
    (ds.zip is).mapM (fun (d, i) => inRange? d i) = some is' ↔
      is' = is ∧ List.Forall₂ (· < ·) is (ds.map Domain.size) := by
  rw [mapM_eq_some_iff]
  induction ds generalizing is is' with
  | nil =>
    obtain rfl := List.eq_nil_of_length_eq_zero his
    simp
  | cons d ds ih =>
    obtain - | ⟨i, is⟩ := is
    · simp at his
    obtain - | ⟨i', is'⟩ := is'
    · simp
    rw [List.zip_cons_cons, List.forall₂_cons, ih (by simpa using his), List.map_cons,
      List.forall₂_cons, List.cons.injEq]
    simp only [inRange?, Option.ite_none_right_eq_some, Option.some.injEq]
    tauto

/-- Encoding positions with words neither overflows nor differs. -/
theorem encodeIndicesByWords_eq (hb : b.IsChecked) (hstop : b.stop < wordLimit) (is : List Nat) :
    b.encodeIndicesByWords is = some (b.encodeIndices? is) := by
  by_cases his : is.length = b.domains.length
  · have hrange := found_inRange inRange? his
      fun d i j h => by
        obtain ⟨hi, hij⟩ := Option.ite_none_right_eq_some.1 h
        exact Option.some.inj hij ▸ hi
    rw [encodeIndicesByWords, if_neg (by simpa using his), numberWords_eq hb hstop hrange,
      List.mapM_map]
    change some (Option.bind (List.mapM (fun (d, i) => inRange? d i) _) _) = _
    -- positions that are out of range have no rank either
    by_cases hall : List.Forall₂ (· < ·) is b.sizes
    · rw [(mapM_inRange_eq_some_iff his).2 ⟨rfl, hall⟩, Option.bind_some]
    · rw [Option.not_isSome_iff_eq_none.1 fun h => hall (encodeIndices?_isSome_iff.1 h),
        Option.eq_none_iff_forall_ne_some.2 fun is' h =>
          hall ((mapM_inRange_eq_some_iff his).1 h).2,
        Option.bind_none]
  · have hnone : b.encodeIndices? is = none := by
      rw [← Option.not_isSome_iff_eq_none, encodeIndices?_isSome_iff]
      exact fun h => his (by simpa [sizes] using h.length_eq)
    rw [encodeIndicesByWords, if_pos his, hnone]

/-- Decoding with words neither overflows nor divides by zero, and gives the
same positions. -/
theorem decodeIndicesByWords_eq (hb : b.IsChecked) (hstop : b.stop < wordLimit) (id : Nat) :
    b.decodeIndicesByWords id = some (b.decodeIndices? id) := by
  rw [decodeIndicesByWords, stopWord_eq hstop, decodeIndices?]
  by_cases hid : b.contains id
  · obtain ⟨hlow, hhigh⟩ := contains_iff.1 hid
    have hrest : id - b.start < volume b.sizes := by
      have : b.size = volume b.sizes := rfl
      omega
    simp [hid, show b.start ≤ id ∧ id < b.stop from ⟨hlow, hhigh⟩,
      digitWords_eq (stridesFit hb) hrest]
  · have hout : ¬ (b.start ≤ id ∧ id < b.stop) := fun h => hid (contains_iff.2 h)
    simp [hid, hout]

end Block

/-- With at most `2 ^ 31 - 1` atoms every number is a word. -/
theorem Base.next_lt_wordLimit {b : Base} (h : b.atomCount ≤ Block.maxId) : b.next < wordLimit := by
  have hlimit : Block.maxId + 1 < wordLimit := by decide
  rw [Base.atomCount] at h
  omega

end MarkovLogic.Herbrand
