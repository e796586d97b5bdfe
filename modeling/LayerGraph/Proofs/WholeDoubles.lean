import LayerGraph.Binary64
import Mathlib

namespace LayerGraph

open Float.Model Float.Model.UnpackedFloat

theorem log2_shiftLeft {n : Nat} (hn : n ≠ 0) (k : Nat) : (n <<< k).log2 = n.log2 + k := by
  induction k with
  | zero => rfl
  | succ k ih =>
    have hk : n <<< k ≠ 0 := Nat.shiftLeft_eq_zero_iff.not.mpr hn
    have hdouble : n <<< (k + 1) = 2 * (n <<< k) := by
      rw [Nat.shiftLeft_eq, Nat.shiftLeft_eq, Nat.pow_succ, Nat.mul_comm _ 2, Nat.mul_left_comm]
    rw [hdouble, Nat.log2_two_mul hk, ih, Nat.add_assoc]

/-- No bit that is shifted out is lost when all of them are zero. -/
theorem shiftRight_shiftLeft (m k : Nat) :
    ExtendedMantissa.mk (m <<< k) false false >>> k = ExtendedMantissa.mk m false false := by
  induction k generalizing m with
  | zero => rfl
  | succ k ih =>
    change ExtendedMantissa.shiftRightOne (ExtendedMantissa.mk (m <<< (k + 1)) false false >>> k) = _
    rw [Nat.add_comm k 1, Nat.shiftLeft_add, ih]
    simp [ExtendedMantissa.shiftRightOne, Nat.shiftLeft_eq]

/-- A significand of 53 bits that was shifted to the left is found again. -/
theorem shiftToTargetExponent_shiftLeft {m k : Nat} {e : Int} (hm : m.log2 = 52)
    (he : -1074 ≤ e + k) : shiftToTargetExponent Format.binary64 (m <<< k) e .exact =
      (ExtendedMantissa.mk m false false, e + k) := by
  have hne : m ≠ 0 := by
    rintro rfl
    simp at hm
  have htarget : Format.binary64.targetExponent (totalExponent (m <<< k) e) = e + k := by
    rw [totalExponent, log2_shiftLeft hne, hm]
    simp only [Format.targetExponent, Format.mantissaBits, Format.minExponent]
    push_cast
    omega
  have hshift : (e + k - e).toNat = k := by omega
  simp only [shiftToTargetExponent, shiftToExponent, htarget, hshift,
    ExtendedMantissa.ofMantissaAndAccuracy, shiftRight_shiftLeft]

theorem roundWithAccuracy_shiftLeft {m k : Nat} {e : Int} (hm : m.log2 = 52) (hpos : 0 < m)
    (he : -1074 ≤ e + k) : roundWithAccuracy Format.binary64 .positive (m <<< k) e .exact =
      .finite .positive m (e + k) hpos := by
  have hfirst := shiftToTargetExponent_shiftLeft hm he
  have hsecond : shiftToTargetExponent Format.binary64 m (e + k) .exact =
      (ExtendedMantissa.mk m false false, e + k) := by
    simpa using shiftToTargetExponent_shiftLeft (k := 0) (e := e + k) hm (by simpa using he)
  have hround : (ExtendedMantissa.mk m false false).roundedMantissa = m := rfl
  simp only [roundWithAccuracy, hfirst, hround, hsecond]
  rw [dif_neg hpos.ne']

/-- The significand of 53 bits that a whole number has. -/
def aligned (n : Nat) : Nat := n <<< (52 - n.log2)

variable {a b n : Nat}

theorem log2_le (hn : 0 < n) (hb : n < 2 ^ 53) : n.log2 ≤ 52 :=
  Nat.le_of_lt_succ ((Nat.log2_lt hn.ne').mpr hb)

theorem log2_aligned (hn : 0 < n) (hb : n < 2 ^ 53) : (aligned n).log2 = 52 := by
  rw [aligned, log2_shiftLeft hn.ne', Nat.add_sub_cancel' (log2_le hn hb)]

theorem aligned_pos (hn : 0 < n) : 0 < aligned n := Nat.shiftLeft_pos_iff.mpr hn

/-- A whole number needs no rounding, whatever zeros are appended to it. -/
theorem round_whole (hn : 0 < n) (hb : n < 2 ^ 53) (t : Nat) :
    UnpackedFloat.round Format.binary64 .positive (n <<< t) (-t) =
      .finite .positive (aligned n) (n.log2 - 52) (aligned_pos hn) := by
  have hlog := log2_le hn hb
  have htarget : Format.binary64.targetExponent (totalExponent (n <<< t) (-t)) = n.log2 - 52 := by
    rw [totalExponent, log2_shiftLeft hn.ne']
    simp only [Format.targetExponent, Format.mantissaBits, Format.minExponent]
    push_cast
    omega
  obtain ⟨s, k, hs, hk⟩ : ∃ s k : Nat, (-t - ((n.log2 : Int) - 52)).toNat = s ∧
      t + s = 52 - n.log2 + k := ⟨_, t - (52 - n.log2), rfl, by omega⟩
  have hmantissa : n <<< t <<< s = aligned n <<< k := by
    rw [aligned, ← Nat.shiftLeft_add, ← Nat.shiftLeft_add, hk]
  have hexponent : -(t : Int) - s + k = n.log2 - 52 := by omega
  simp only [UnpackedFloat.round, htarget, decreaseExponent, hs, hmantissa]
  rw [roundWithAccuracy_shiftLeft (log2_aligned hn hb) (aligned_pos hn) (by omega)]
  simp only [hexponent]

theorem toNat_ofNat_append {m : Nat} (hm : m ≠ 0) (hlog : m.log2 = 52) :
    (1#1 ++ BitVec.ofNat 52 m).toNat = m := by
  obtain ⟨hlow, hhigh⟩ := (Nat.log2_eq_iff hm).mp hlog
  have hfraction : (BitVec.ofNat 52 m).toNat = m - 2 ^ 52 := by
    rw [BitVec.toNat_ofNat]
    omega
  rw [BitVec.toNat_append, ← Nat.shiftLeft_add_eq_or_of_lt (BitVec.isLt _), hfraction,
    Nat.shiftLeft_eq, BitVec.toNat_ofNat]
  omega

/-- What is written of a normal double is read back. -/
theorem unpack_pack_normal {m : Nat} {e : Int} (hpos : 0 < m) (hm : m.log2 = 52)
    (hlow : -1074 ≤ e) (hhigh : e ≤ 971) :
    (Float.Model.pack (.finite .positive m e hpos)).unpack = .finite .positive m e hpos := by
  obtain ⟨x, hx, hx0, hx1⟩ : ∃ x : Nat, e = (x : Int) - 1075 ∧ 0 < x ∧ x < 2047 :=
    ⟨(e + 1075).toNat, by omega, by omega, by omega⟩
  have hfield : (BitVec.ofNat 11 x).toNat = x := by
    rw [BitVec.toNat_ofNat]
    omega
  have hzero : BitVec.ofNat 11 x ≠ 0#11 := fun h => by
    have := congrArg BitVec.toNat h
    simp only [hfield, BitVec.toNat_ofNat] at this
    omega
  have hones : BitVec.ofNat 11 x ≠ -1#11 := fun h => by
    have := congrArg BitVec.toNat h
    rw [hfield] at this
    change x = 2047 at this
    omega
  have hbits : UnpackedFloat.pack Format.binary64 (.finite .positive m e hpos) =
      packComponents Format.binary64 .positive (BitVec.ofNat 11 x) (BitVec.ofNat 52 m) := by
    have hbiased : (e + Format.binary64.exponentBias +
        Format.binary64.mantissaBitsWithoutImplicit).toNat = x := by
      change (e + 1023 + 52).toNat = x
      omega
    simp only [UnpackedFloat.pack, hbiased, hm]
    exact (if_neg (show ¬ 2 ^ 11 ≤ x + 1 by omega)).trans (if_pos rfl)
  change UnpackedFloat.unpack Format.binary64 (UnpackedFloat.pack Format.binary64 _) = _
  rw [hbits]
  simp only [UnpackedFloat.unpack, unpackExponent_packComponents, unpackMantissa_packComponents,
    unpackSign_packComponents, Sign.ofBitVec_toBitVec]
  rw [if_neg hones, if_neg hzero]
  simp only [hfield, toNat_ofNat_append hpos.ne' hm]
  congr 1
  change (x : Int) - (1023 + 52) = e
  omega

theorem ofNat_eq_pack (hn : 0 < n) (hb : n < 2 ^ 53) : Float.Model.ofNat n =
    .pack (.finite .positive (aligned n) (n.log2 - 52) (aligned_pos hn)) := by
  rw [← round_whole hn hb 0, Float.Model.ofNat, UnpackedFloat.ofNat, UnpackedFloat.ofInt,
    UnpackedFloat.normalize, Int.compare_eq_gt.mpr (Int.natCast_pos.mpr hn)]
  rfl

theorem unpack_ofNat (hn : 0 < n) (hb : n < 2 ^ 53) : (Float.Model.ofNat n).unpack =
    .finite .positive (aligned n) (n.log2 - 52) (aligned_pos hn) := by
  have hlog := log2_le hn hb
  rw [ofNat_eq_pack hn hb]
  exact unpack_pack_normal _ (log2_aligned hn hb) (by omega) (by omega)

theorem decreaseExponent_aligned {t : Nat} (hlog : n.log2 ≤ 52) (ht : 52 - n.log2 ≤ t) :
    (decreaseExponent (aligned n) (n.log2 - 52) (-t)).1 = n <<< t := by
  have hshift : ((n.log2 : Int) - 52 - -t).toNat = t - (52 - n.log2) := by omega
  simp only [decreaseExponent, hshift, aligned]
  rw [← Nat.shiftLeft_add, Nat.add_sub_cancel' ht]

theorem ofNat_add_ofNat (ha : 0 < a) (hb : 0 < b) (hab : a + b < 2 ^ 53) :
    Float.Model.ofNat a + Float.Model.ofNat b = Float.Model.ofNat (a + b) := by
  have hloga := log2_le ha (by omega)
  have hlogb := log2_le hb (by omega)
  obtain ⟨t, ht, hta, htb⟩ : ∃ t : Nat, min ((a.log2 : Int) - 52) (b.log2 - 52) = -t ∧
      52 - a.log2 ≤ t ∧ 52 - b.log2 ≤ t := ⟨52 - min a.log2 b.log2, by omega, by omega, by omega⟩
  have hsum : (Sign.positive.apply (a <<< t : Nat) + Sign.positive.apply (b <<< t : Nat) : Int) =
      ((a + b) <<< t : Nat) := by
    simp only [Sign.apply, Nat.shiftLeft_eq, Nat.add_mul]
    push_cast
    rfl
  have hpos : 0 < (a + b) <<< t := Nat.shiftLeft_pos_iff.mpr (by omega)
  change Float.Model.pack (UnpackedFloat.add Format.binary64 (Float.Model.ofNat a).unpack
    (Float.Model.ofNat b).unpack) = _
  rw [unpack_ofNat ha (by omega), unpack_ofNat hb (by omega)]
  have hround := round_whole (Nat.add_pos_left ha b) hab t
  simp only [UnpackedFloat.add, ht, decreaseExponent_aligned hloga hta,
    decreaseExponent_aligned hlogb htb, hsum, UnpackedFloat.normalize]
  rw [Int.compare_eq_gt.mpr (Int.natCast_pos.mpr hpos)]
  change Float.Model.pack (UnpackedFloat.round _ _ ((a + b) <<< t) _) = _
  rw [hround, ofNat_eq_pack (Nat.add_pos_left ha b) hab]

theorem ofNat_inj (ha : 0 < a) (ha' : a < 2 ^ 53) (hb : 0 < b) (hb' : b < 2 ^ 53)
    (h : Float.Model.ofNat a = Float.Model.ofNat b) : a = b := by
  have hunpacked := congrArg Float.Model.unpack h
  rw [unpack_ofNat ha ha', unpack_ofNat hb hb'] at hunpacked
  injection hunpacked with _ hmantissa hexponent
  have hlog : a.log2 = b.log2 := by omega
  rw [aligned, aligned, hlog, Nat.shiftLeft_eq, Nat.shiftLeft_eq] at hmantissa
  exact Nat.eq_of_mul_eq_mul_right (Nat.two_pow_pos _) hmantissa

def wholeDouble (n : Nat) : Float := .ofModel (.ofNat n)

theorem wholeDouble_add (ha : 0 < a) (hb : 0 < b) (hab : a + b < 2 ^ 53) :
    wholeDouble a + wholeDouble b = wholeDouble (a + b) :=
  congrArg Float.ofModel (ofNat_add_ofNat ha hb hab)

theorem wholeDouble_inj (ha : 0 < a) (ha' : a < 2 ^ 53) (hb : 0 < b) (hb' : b < 2 ^ 53)
    (h : wholeDouble a = wholeDouble b) : a = b :=
  ofNat_inj ha ha' hb hb' (congrArg Float.toModel h)

/-- Only the two zeros are equal without being the same. -/
theorem eq_wholeDouble_of_beq {x : Float} (hn : 0 < n) (hb : n < 2 ^ 53)
    (h : (x == wholeDouble n) = true) : x = wholeDouble n := by
  have hunpack : (wholeDouble n).toModel.unpack = _ := unpack_ofNat hn hb
  obtain ⟨-, -, heq | ⟨-, heq⟩ | ⟨-, heq⟩⟩ := Float.beq_iff_ne_nan_and_eq.mp h
  · exact heq
  · rw [heq] at hunpack
    cases hunpack
  · rw [heq] at hunpack
    cases hunpack

end LayerGraph
