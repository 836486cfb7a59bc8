/-
MarkovLogic/Proofs/Floating.lean

Floating point numbers: their order, and what is left of one.

The numbers except NaN are ordered by their class, from minus to plus infinity,
and within a class by exponent and mantissa (`rank?`); nothing is less or greater
than a NaN.

Subtraction rounds, so the laws of an ordered field cannot be used for it.  What
takes their place is that rounding does not go past one half, which is itself a
floating point number.  A sum that is at least one half is cut to a mantissa of
full precision whose exponent is at least that of one half, and that is all there
is to see (`FromHalf`): rounding up can only raise the exponent, and storing the
number keeps both, or makes it infinite.

Main statement: `not_one_sub_lt_half`, a number below one half leaves no less than
one half of one.
-/
import Mathlib

namespace MarkovLogic.Floating

open Float.Model
open Float.Model.UnpackedFloat

/-! ### Order -/

/-- What a number is compared by: its class, then its exponent and its mantissa,
both negated for a negative number.  There is nothing to compare a NaN by. -/
def rankOf? : UnpackedFloat → Option (Int × Int × Int)
  | .infinity .negative => some (-2, 0, 0)
  | .finite .negative m e _ => some (-1, -e, -m)
  | .zero _ => some (0, 0, 0)
  | .finite .positive m e _ => some (1, e, m)
  | .infinity .positive => some (2, 0, 0)
  | .notANumber => none

def rank? (x : Float) : Option (Int × Int × Int) :=
  rankOf? x.toModel.unpack

/-- The lexicographic order. -/
def compareRanks : Int × Int × Int → Int × Int × Int → Ordering :=
  compareLex (compareOn fun k => k.1) (compareLex (compareOn fun k => k.2.1)
    (compareOn fun k => k.2.2))

instance : Std.TransCmp compareRanks :=
  inferInstanceAs (Std.TransCmp (compareLex _ _))

/-- Within a class exponent and mantissa decide. -/
theorem compareRanks_of_class (k a b c d : Int) :
    compareRanks (k, a, b) (k, c, d) = (compare a c).then (compare b d) := by
  simp [compareRanks, compareLex, compareOn]

theorem compare_neg (a b : Int) : compare (-a) (-b) = (compare a b).swap := by
  rw [← Std.OrientedOrd.eq_swap]
  simp only [compare, compareOfLessAndEq]
  grind

theorem compare_natCast (a b : Nat) : compare (a : Int) b = compare a b := by
  simp only [compare, compareOfLessAndEq]
  grind

/-- Numbers are compared by their ranks. -/
theorem compare_eq (u v : UnpackedFloat) :
    u.compare v = (rankOf? u).bind fun k => (rankOf? v).map (compareRanks k) := by
  -- numbers of different classes are compared by these, and only two of one class are left
  rcases u with (_ | _) | _ | _ | ⟨_ | _, m, e, hm⟩ <;>
    rcases v with (_ | _) | _ | _ | ⟨_ | _, m', e', hm'⟩ <;> try rfl
  case finite.negative.finite.negative =>
    change some ((compare e e').then (compare m m')).swap =
      some (compareRanks (-1, -e, -m) (-1, -e', -m'))
    rw [compareRanks_of_class, compare_neg, compare_neg, compare_natCast, Ordering.swap_then]
  case finite.positive.finite.positive =>
    change some ((compare e e').then (compare m m')) = some (compareRanks (1, e, m) (1, e', m'))
    rw [compareRanks_of_class, compare_natCast]

theorem lt_iff (x y : Float) :
    x < y ↔ ∃ k l, rank? x = some k ∧ rank? y = some l ∧ compareRanks k l = .lt := by
  have hlt : x < y ↔ x.toModel.unpack.compare y.toModel.unpack = some .lt := by
    change decide (x.toModel.unpack.lt y.toModel.unpack = true) = true ↔ _
    simp [UnpackedFloat.lt]
  rw [hlt, compare_eq, ← rank?, ← rank?]
  simp [Option.bind_eq_some_iff]

protected theorem lt_trans {x y z : Float} (hxy : x < y) (hyz : y < z) : x < z := by
  obtain ⟨k, l, hx, hy, hkl⟩ := (lt_iff x y).1 hxy
  obtain ⟨l', n, hy', hz, hln⟩ := (lt_iff y z).1 hyz
  obtain rfl : l = l' := Option.some.inj (hy.symm.trans hy')
  exact (lt_iff x z).2 ⟨k, n, hx, hz, Std.TransCmp.lt_trans hkl hln⟩

/-- Exactly a NaN has no rank. -/
theorem rank?_eq_none_iff {x : Float} : rank? x = none ↔ x.isNaN = true := by
  change rankOf? x.toModel.unpack = none ↔ x.toModel.unpack.isNaN = true
  rcases x.toModel.unpack with (_ | _) | _ | _ | ⟨_ | _, m, e, hm⟩ <;>
    constructor <;> intro h <;> first | rfl | cases h

/-! ### Rounding -/

/-- A number not below one half, as floating point numbers are written: with full
precision, or infinite. -/
inductive FromHalf : UnpackedFloat → Prop
  | infinity : FromHalf (.infinity .positive)
  | finite {m : Nat} {e : Int} (hm : 0 < m) (hlow : 2 ^ 52 ≤ m) (hhigh : m < 2 ^ 53)
    (he : -53 ≤ e) : FromHalf (.finite .positive m e hm)

theorem mantissa_shiftRight (em : ExtendedMantissa) (n : Nat) :
    (em >>> n).mantissa = em.mantissa / 2 ^ n := by
  induction n with
  | zero => simp [HShiftRight.hShiftRight, Nat.repeat]
  | succ n ih =>
    change (em >>> n).mantissa / 2 = _
    rw [ih, Nat.div_div_eq_div_mul, Nat.pow_succ]

theorem mantissa_ofMantissaAndAccuracy (m : Nat) (a : Accuracy) :
    (ExtendedMantissa.ofMantissaAndAccuracy m a).mantissa = m := by
  rcases a with _ | _ | _ | _ <;> rfl

/-- Rounding takes the mantissa or its successor. -/
theorem roundToNearestEven_mem (m : Nat) (a : Accuracy) :
    m ≤ a.roundToNearestEven m ∧ a.roundToNearestEven m ≤ m + 1 := by
  rcases a with _ | _ | _ | _ <;> simp only [Accuracy.roundToNearestEven] <;> omega

theorem log2_shiftLeft {m : Nat} (hm : 0 < m) (k : Nat) : (m <<< k).log2 = m.log2 + k := by
  induction k with
  | zero => rfl
  | succ k ih =>
    have hne : m <<< k ≠ 0 := by
      rw [Nat.shiftLeft_eq]
      exact Nat.ne_of_gt (Nat.mul_pos hm (Nat.two_pow_pos k))
    rw [Nat.shiftLeft_succ, Nat.log2_two_mul hne, ih, Nat.add_assoc]

/-- A number not below one half is nowhere near the subnormal ones. -/
theorem targetExponent_of_nonneg {t : Int} (ht : 0 ≤ t) :
    Format.binary64.targetExponent t = t - 53 := by
  change max (t - 53) (-1074) = _
  omega

/-- A mantissa of full precision or more is cut to full precision. -/
theorem shiftToTargetExponent_mem {m : Nat} {e : Int} (a : Accuracy) (hm : 52 ≤ m.log2)
    (he : 0 ≤ totalExponent m e) :
    2 ^ 52 ≤ (shiftToTargetExponent .binary64 m e a).1.mantissa ∧
      (shiftToTargetExponent .binary64 m e a).1.mantissa < 2 ^ 53 ∧
      (shiftToTargetExponent .binary64 m e a).2 = totalExponent m e - 53 := by
  have hamount : (totalExponent m e - 53 - e).toNat = m.log2 - 52 := by
    rw [totalExponent]
    omega
  have hne : m ≠ 0 := by
    rintro rfl
    simp at hm
  obtain ⟨hlow, hhigh⟩ := (Nat.log2_eq_iff hne).1 rfl
  have hbits : 52 + (m.log2 - 52) = m.log2 := by omega
  have hbits' : 53 + (m.log2 - 52) = m.log2 + 1 := by omega
  rw [shiftToTargetExponent, shiftToExponent, targetExponent_of_nonneg he, hamount,
    mantissa_shiftRight, mantissa_ofMantissaAndAccuracy]
  refine ⟨?_, ?_, ?_⟩
  · rwa [Nat.le_div_iff_mul_le (Nat.two_pow_pos _), ← Nat.pow_add, hbits]
  · rwa [Nat.div_lt_iff_lt_mul (Nat.two_pow_pos _), ← Nat.pow_add, hbits']
  · rw [totalExponent]
    dsimp only
    omega

theorem fromHalf_roundWithAccuracy {m : Nat} {e : Int} (a : Accuracy) (hm : 52 ≤ m.log2)
    (he : 0 ≤ totalExponent m e) : FromHalf (roundWithAccuracy .binary64 .positive m e a) := by
  obtain ⟨hlow, hhigh, hexponent⟩ := shiftToTargetExponent_mem a hm he
  rw [roundWithAccuracy]
  rcases hs : shiftToTargetExponent .binary64 m e a with ⟨em, e₁⟩
  rw [hs] at hlow hhigh hexponent
  dsimp only at hlow hhigh hexponent ⊢
  -- the mantissa may round up to the next power of two, and is then shifted once more
  obtain ⟨hge, hle⟩ : em.mantissa ≤ em.roundedMantissa ∧ em.roundedMantissa ≤ em.mantissa + 1 :=
    roundToNearestEven_mem _ _
  have hm₁ : 52 ≤ em.roundedMantissa.log2 := (Nat.le_log2 (by omega)).2 (by omega)
  have he₁ : 0 ≤ totalExponent em.roundedMantissa e₁ := by
    rw [totalExponent]
    omega
  obtain ⟨hlow₂, hhigh₂, hexponent₂⟩ := shiftToTargetExponent_mem .exact hm₁ he₁
  rw [dif_neg (by omega)]
  exact .finite _ hlow₂ hhigh₂ (by omega)

theorem fromHalf_round {m : Nat} {e : Int} (hm : 0 < m) (he : 0 ≤ totalExponent m e) :
    FromHalf (UnpackedFloat.round .binary64 .positive m e) := by
  have hamount : (e - (totalExponent m e - 53)).toNat = 52 - m.log2 := by
    rw [totalExponent]
    omega
  rw [UnpackedFloat.round, decreaseExponent, targetExponent_of_nonneg he, hamount]
  rw [totalExponent] at he
  refine fromHalf_roundWithAccuracy .exact ?_ ?_
  · rw [log2_shiftLeft hm]
    omega
  · rw [totalExponent, log2_shiftLeft hm]
    omega

/-- What is not below one half rounds to such a number. -/
theorem fromHalf_normalize {m e : Int} {zeroSign : Sign} (k : Nat) (hm : 2 ^ k ≤ m)
    (he : -(k + 1) ≤ e) : FromHalf (UnpackedFloat.normalize .binary64 m e zeroSign) := by
  have hpos : 0 < m := Int.lt_of_lt_of_le (Int.pow_pos (by decide)) hm
  have hlog : k ≤ m.toNat.log2 := by
    rw [Nat.le_log2 (by omega), ← Int.ofNat_le, Int.toNat_of_nonneg (Int.le_of_lt hpos)]
    simpa using hm
  rw [UnpackedFloat.normalize, Int.compare_eq_gt.2 hpos]
  refine fromHalf_round (by omega) ?_
  rw [totalExponent]
  omega

/-! ### Storing -/

@[simp]
theorem unpackSign_packComponents {spec : Format} {sign : Sign}
    {exponent : BitVec spec.exponentBits} {mantissa : BitVec spec.mantissaBitsWithoutImplicit} :
    unpackSign (packComponents spec sign exponent mantissa) = sign.toBitVec := by
  ext i hi
  obtain rfl : i = 0 := by omega
  simp [unpackSign, packComponents, BitVec.getLsbD_append, BitVec.getElem_append]

/-- The implicit bit stands in front of the mantissa of a normal number. -/
theorem toNat_implicit (v : BitVec 52) : (1#1 ++ v).toNat = 2 ^ 52 + v.toNat := by
  rw [BitVec.toNat_append, ← Nat.shiftLeft_add_eq_or_of_lt v.isLt]
  rfl

/-- A stored number with the exponent of one half or a larger one. -/
theorem fromHalf_unpack {b : BitVec 11} (v : BitVec 52) (hlow : 1022 ≤ b.toNat)
    (hhigh : b.toNat < 2047) :
    FromHalf (UnpackedFloat.unpack .binary64 (packComponents .binary64 .positive b v)) := by
  have hspecial : b ≠ -1#_ := by
    rintro rfl
    exact absurd hhigh (by decide)
  have hsubnormal : b ≠ 0#_ := by
    rintro rfl
    exact absurd hlow (by decide)
  have hmantissa := toNat_implicit v
  have hbound := v.isLt
  rw [UnpackedFloat.unpack]
  simp only [unpackMantissa_packComponents, unpackExponent_packComponents,
    unpackSign_packComponents]
  rw [if_neg hspecial, if_neg hsubnormal]
  refine .finite _ (by omega) (by omega) ?_
  change -53 ≤ (b.toNat : Int) - (1023 + 52)
  omega

/-- Storing a number that is not below one half gives such a number. -/
theorem FromHalf.unpack_pack {u : UnpackedFloat} (h : FromHalf u) :
    FromHalf (Float.Model.pack u).unpack := by
  have hinfinity : FromHalf
      (UnpackedFloat.unpack .binary64 (packedInfinity .binary64 .positive)) := .infinity
  change FromHalf (UnpackedFloat.unpack .binary64 (UnpackedFloat.pack .binary64 u))
  cases h with
  | infinity => exact hinfinity
  | @finite m e hm hlow hhigh he =>
    rw [UnpackedFloat.pack]
    dsimp only
    split
    · exact hinfinity
    · rename_i hbound
      have hbits : m.log2 + 1 = Format.binary64.mantissaBits := by
        rw [(Nat.log2_eq_iff (Nat.ne_of_gt hm)).2 ⟨hlow, hhigh⟩]
        rfl
      rw [if_pos hbits]
      change ¬ 2048 ≤ (e + 1023 + 52).toNat + 1 at hbound
      have hexponent : (BitVec.ofNat 11 (e + 1023 + 52).toNat).toNat = (e + 1023 + 52).toNat := by
        rw [BitVec.toNat_ofNat]
        omega
      refine fromHalf_unpack (b := BitVec.ofNat 11 (e + 1023 + 52).toNat) _ ?_ ?_ <;> omega

/-- A stored mantissa has 53 bits. -/
theorem mantissa_lt_of_unpack {x : Float} {s : Sign} {m : Nat} {e : Int} {hm : 0 < m}
    (h : x.toModel.unpack = .finite s m e hm) : m < 2 ^ 53 := by
  change UnpackedFloat.unpack .binary64 x.toModel.toBits.toBitVec = _ at h
  rw [UnpackedFloat.unpack] at h
  have hsubnormal := (@unpackMantissa .binary64 x.toModel.toBits.toBitVec).isLt
  have hnormal := toNat_implicit (@unpackMantissa .binary64 x.toModel.toBits.toBitVec)
  dsimp only at h hsubnormal hnormal
  split at h
  · split at h <;> cases h
  · split at h
    · split at h
      · cases h
      · injection h with _ hmantissa
        omega
    · injection h with _ hmantissa
      omega

/-! ### Subtracting from one -/

theorem rank?_half : rank? 0.5 = some (1, -53, 2 ^ 52) := by decide +kernel

theorem not_lt_half {x : Float} (h : FromHalf x.toModel.unpack) : ¬ x < 0.5 := by
  intro hlt
  obtain ⟨k, l, hx, hhalf, hkl⟩ := (lt_iff _ _).1 hlt
  rw [rank?_half] at hhalf
  cases hhalf
  rw [rank?] at hx
  generalize x.toModel.unpack = u at h hx
  cases h with
  | infinity =>
    cases hx
    exact absurd hkl (by decide)
  | @finite m e hm hlow hhigh he =>
    cases hx
    simp only [compareRanks_of_class, Ordering.then_eq_lt, Int.compare_eq_lt,
      Int.compare_eq_eq] at hkl
    omega

/-- One, as it is stored. -/
def one : UnpackedFloat :=
  .finite .positive (2 ^ 52) (-52) (by decide)

/-- A positive number below one half has a smaller exponent than one half has, or
the same exponent and a smaller mantissa. -/
theorem bounds_of_lt_half {x : Float} {m : Nat} {e : Int} {hm : 0 < m}
    (h : x.toModel.unpack = .finite .positive m e hm) (hx : x < 0.5) :
    e < -53 ∨ e = -53 ∧ m < 2 ^ 52 := by
  obtain ⟨k, l, hk, hl, hkl⟩ := (lt_iff _ _).1 hx
  rw [rank?_half] at hl
  cases hl
  rw [rank?, h] at hk
  cases hk
  simp only [compareRanks_of_class, Ordering.then_eq_lt, Int.compare_eq_lt,
    Int.compare_eq_eq] at hkl
  omega

/-- The mantissa of one at a smaller exponent. -/
theorem one_shiftLeft (n : Nat) : 2 ^ 52 <<< n = 2 ^ (52 + n) := by
  rw [Nat.shiftLeft_eq, Nat.pow_add]

theorem fromHalf_one_sub_negative (m : Nat) (e : Int) (hm : 0 < m) :
    FromHalf (UnpackedFloat.sub .binary64 one (.finite .negative m e hm)) := by
  rw [one, UnpackedFloat.sub]
  dsimp only [decreaseExponent, Sign.apply]
  rw [one_shiftLeft]
  generalize hn : (-52 - min (-52) e).toNat = n
  generalize m <<< (e - min (-52) e).toNat = d
  have hcast : ((2 ^ (52 + n) : Nat) : Int) = 2 ^ (52 + n) := by simp
  refine fromHalf_normalize (52 + n) ?_ ?_ <;> omega

/-- At the exponent of a positive number below one half, the number is not more
than half of one. -/
theorem fromHalf_one_sub_positive {m : Nat} {e : Int} (hm : 0 < m) (hprecision : m < 2 ^ 53)
    (hsmall : e < -53 ∨ e = -53 ∧ m < 2 ^ 52) :
    FromHalf (UnpackedFloat.sub .binary64 one (.finite .positive m e hm)) := by
  have hmin : min (-52) e = e := by omega
  rw [one, UnpackedFloat.sub]
  dsimp only [decreaseExponent, Sign.apply]
  rw [hmin, one_shiftLeft, Int.sub_self]
  change FromHalf (UnpackedFloat.normalize _ (_ - (m : Int)) _ _)
  generalize hn : (-52 - e).toNat = n
  have hhalf : m ≤ 2 ^ (51 + n) := by
    rcases hsmall with he | ⟨he, hlow⟩
    · have : 2 ^ 53 ≤ 2 ^ (51 + n) := Nat.pow_le_pow_right (by decide) (by omega)
      omega
    · have : 2 ^ 52 ≤ 2 ^ (51 + n) := Nat.pow_le_pow_right (by decide) (by omega)
      omega
  have htwice : 2 ^ (52 + n) = 2 ^ (51 + n) + 2 ^ (51 + n) := by
    rw [← Nat.two_mul, ← Nat.pow_succ']
    congr 1
    omega
  have hcast : ((2 ^ (51 + n) : Nat) : Int) = 2 ^ (51 + n) := by simp
  refine fromHalf_normalize (51 + n) ?_ ?_ <;> omega

/-- **A number below one half leaves no less than one half of one.** -/
theorem not_one_sub_lt_half {x : Float} (hx : x < 0.5) : ¬ 1 - x < 0.5 := by
  apply not_lt_half
  suffices h : FromHalf (UnpackedFloat.sub .binary64 one x.toModel.unpack) from h.unpack_pack
  obtain ⟨k, l, hk, hl, hkl⟩ := (lt_iff _ _).1 hx
  rw [rank?_half] at hl
  cases hl
  rcases h : x.toModel.unpack with (_ | _) | _ | _ | ⟨_ | _, m, e, hm⟩
  case infinity.negative => exact .infinity
  case infinity.positive =>
    rw [rank?, h] at hk
    cases hk
    exact absurd hkl (by decide)
  case notANumber =>
    rw [rank?, h] at hk
    cases hk
  case zero => exact .finite _ (by decide) (by decide) (by decide)
  case finite.negative => exact fromHalf_one_sub_negative m e hm
  case finite.positive =>
    exact fromHalf_one_sub_positive hm (mantissa_lt_of_unpack h) (bounds_of_lt_half h hx)

end MarkovLogic.Floating
