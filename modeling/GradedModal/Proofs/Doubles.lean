import Mathlib
import GradedModal.Json.Basic

/-!
This module follows a natural through the conversion to a double and back. The double is the nearest one, so the way
back gives the natural with all but its first 53 binary digits rounded to zero.
-/

namespace GradedModal
namespace Double

open Float.Model Float.Model.UnpackedFloat Float.Model.UnpackedFloat.ExtendedMantissa

/--
A quotient by a power of two, rounded to the nearest natural, and to the even one if there are two.
-/
def roundedQuotient (n s : Nat) : Nat :=
  if 2 ^ s < 2 * (n % 2 ^ s) ∨ (2 ^ s = 2 * (n % 2 ^ s) ∧ n / 2 ^ s % 2 = 1) then n / 2 ^ s + 1 else n / 2 ^ s

/--
The natural among the doubles that is nearest to a natural.
-/
def nearest (n : Nat) : Nat :=
  roundedQuotient n (n.log2 - 52) * 2 ^ (n.log2 - 52)

theorem roundedQuotient_mul (n s t : Nat) : roundedQuotient (n * 2 ^ t) (s + t) = roundedQuotient n s := by
  have ht : 0 < 2 ^ t := Nat.two_pow_pos t
  unfold roundedQuotient
  rw [Nat.pow_add, Nat.mul_mod_mul_right, Nat.mul_div_mul_right _ _ ht, ← Nat.mul_assoc]
  simp only [Nat.mul_lt_mul_right ht, Nat.mul_left_inj (Nat.ne_of_gt ht)]

theorem roundedQuotient_zero (n : Nat) : roundedQuotient n 0 = n := by
  simp [roundedQuotient, Nat.mod_one]

theorem le_roundedQuotient (n s : Nat) : n / 2 ^ s ≤ roundedQuotient n s := by
  unfold roundedQuotient
  split <;> omega

theorem roundedQuotient_le (n s : Nat) : roundedQuotient n s ≤ n / 2 ^ s + 1 := by
  unfold roundedQuotient
  split <;> omega

theorem shiftRight_succ (em : ExtendedMantissa) (s : Nat) : em >>> (s + 1) = (em >>> s).shiftRightOne :=
  rfl

theorem shiftRight_eq (m s : Nat)
    : (ofMantissaAndAccuracy m .exact >>> s).mantissa = m / 2 ^ s ∧
        ((ofMantissaAndAccuracy m .exact >>> s).roundBit = true ↔ 2 ^ s ≤ 2 * (m % 2 ^ s)) ∧
        ((ofMantissaAndAccuracy m .exact >>> s).stickyBit = true ↔
          m % 2 ^ s ≠ 0 ∧ 2 ^ s ≠ 2 * (m % 2 ^ s)) := by
  induction s with
  | zero =>
    change m = _ ∧ (false = true ↔ _) ∧ (false = true ↔ _)
    simp [Nat.mod_one]
  | succ s ih =>
    obtain ⟨hmantissa, hround, hsticky⟩ := ih
    have hlt : m % 2 ^ s < 2 ^ s := Nat.mod_lt m (Nat.two_pow_pos s)
    have hmod : m % 2 ^ (s + 1) = m % 2 ^ s + 2 ^ s * (m / 2 ^ s % 2) := by
      rw [Nat.pow_succ, Nat.mod_mul]
    have hpow : 2 ^ (s + 1) = 2 * 2 ^ s := by
      rw [Nat.pow_succ, Nat.mul_comm]
    rw [shiftRight_succ, shiftRightOne]
    simp only [hmantissa, bne_iff_ne, Bool.or_eq_true, hround, hsticky, hmod]
    refine ⟨by rw [Nat.div_div_eq_div_mul, Nat.pow_succ], ?_⟩
    rcases Nat.mod_two_eq_zero_or_one (m / 2 ^ s) with hbit | hbit
    . rw [hbit]
      omega
    . rw [hbit]
      omega

theorem roundedMantissa_shiftRight (m s : Nat)
    : (ofMantissaAndAccuracy m .exact >>> s).roundedMantissa = roundedQuotient m s := by
  obtain ⟨hmantissa, hround, hsticky⟩ := shiftRight_eq m s
  have hs : 0 < 2 ^ s := Nat.two_pow_pos s
  generalize ofMantissaAndAccuracy m .exact >>> s = em at *
  obtain ⟨q, round, sticky⟩ := em
  dsimp only at hmantissa hround hsticky
  subst hmantissa
  unfold roundedMantissa roundedQuotient
  cases round with
  | true =>
    have hround := hround.mp rfl
    cases sticky with
    | true =>
      have hsticky := hsticky.mp rfl
      change m / 2 ^ s + 1 = _
      rw [if_pos (by omega)]
    | false =>
      have hsticky := mt hsticky.mpr Bool.false_ne_true
      change m / 2 ^ s + m / 2 ^ s % 2 = _
      split <;> omega
  | false =>
    have hround := mt hround.mpr Bool.false_ne_true
    rw [if_neg (by omega)]
    cases sticky with
    | true => rfl
    | false => rfl

theorem targetExponent_eq (x : Int) : Format.binary64.targetExponent x = max (x - 53) (-1074) :=
  rfl

theorem shiftToTargetExponent_eq {m s : Nat} {e : Int} (hs : m.log2 = 52 + s) (he : -1074 ≤ e)
    : shiftToTargetExponent Format.binary64 m e .exact = (ofMantissaAndAccuracy m .exact >>> s, e + s) := by
  have hshift : (Format.binary64.targetExponent (totalExponent m e) - e).toNat = s := by
    rw [targetExponent_eq, totalExponent, hs]
    omega
  unfold shiftToTargetExponent shiftToExponent
  dsimp only
  rw [hshift]

/--
Rounding keeps 53 digits. If they overflow, all but the first are zero, and one more digit is dropped.
-/
theorem roundWithAccuracy_exact {m s : Nat} {e : Int} (hs : m.log2 = 52 + s) (he : -1074 ≤ e)
    : ∃ (m' t : Nat) (hpos : 0 < m'),
        roundWithAccuracy Format.binary64 .positive m e .exact = .finite .positive m' (e + s + t) hpos ∧
        m'.log2 = 52 ∧ t ≤ 1 ∧ m' * 2 ^ t = roundedQuotient m s := by
  have hm : m ≠ 0 := by
    rintro rfl
    simp at hs
    omega
  have hlog := (Nat.log2_eq_iff hm).mp hs
  have hlow : 2 ^ 52 ≤ m / 2 ^ s := by
    rw [Nat.le_div_iff_mul_le (Nat.two_pow_pos s), ← Nat.pow_add]
    exact hlog.1
  have hhigh : m / 2 ^ s < 2 ^ 53 := by
    rw [Nat.div_lt_iff_lt_mul (Nat.two_pow_pos s), ← Nat.pow_add]
    have hexp : 53 + s = 52 + s + 1 := by omega
    rw [hexp]
    exact hlog.2
  have hle := le_roundedQuotient m s
  have hge := roundedQuotient_le m s
  unfold roundWithAccuracy
  rw [shiftToTargetExponent_eq hs he]
  dsimp only
  rw [roundedMantissa_shiftRight]
  generalize roundedQuotient m s = q at *
  by_cases hq : q < 2 ^ 53
  . have hqlog : q.log2 = 52 + 0 := (Nat.log2_eq_iff (by omega)).mpr ⟨by omega, by omega⟩
    rw [shiftToTargetExponent_eq hqlog (by omega)]
    refine ⟨q, 0, by omega, ?_, hqlog, by omega, by omega⟩
    change (if h : q = 0 then _ else _) = _
    rw [dif_neg (by omega)]
    rfl
  . obtain rfl : q = 2 ^ 53 := by omega
    have hqlog : (2 ^ 53).log2 = 52 + 1 := by decide
    rw [shiftToTargetExponent_eq hqlog (by omega)]
    exact ⟨2 ^ 52, 1, by omega, rfl, by decide, by omega, by decide⟩

theorem unpackSign_packComponents {spec : Format} {sign : Sign} {exponent : BitVec spec.exponentBits}
    {mantissa : BitVec spec.mantissaBitsWithoutImplicit}
    : unpackSign (packComponents spec sign exponent mantissa) = sign.toBitVec := by
  ext i hi
  obtain rfl : i = 0 := by omega
  simp [unpackSign, packComponents, BitVec.getLsbD_append, BitVec.getElem_append]

theorem unpack_pack {m : Nat} {e : Int} (hpos : 0 < m) (hm : m.log2 = 52) (hlow : -1074 ≤ e) (hhigh : e ≤ 971)
    : (Float.Model.pack (.finite .positive m e hpos)).unpack = .finite .positive m e hpos := by
  have hlog := (Nat.log2_eq_iff (Nat.ne_of_gt hpos)).mp hm
  have hbias : (Format.binary64.exponentBias : Int) = 1023 := by decide
  have hbits : Format.binary64.mantissaBits = 53 := rfl
  obtain ⟨b, hb⟩ : ∃ b : Nat, e = b - 1075 := ⟨(e + 1075).toNat, by omega⟩
  have hbiased : (e + Format.binary64.exponentBias + Format.binary64.mantissaBitsWithoutImplicit).toNat = b := by
    rw [hbias]
    change (e + 1023 + 52).toNat = b
    omega
  have hpack : UnpackedFloat.pack Format.binary64 (.finite .positive m e hpos) =
      packComponents Format.binary64 .positive (BitVec.ofNat 11 b) (BitVec.ofNat 52 m) := by
    unfold UnpackedFloat.pack
    dsimp only
    rw [hbiased, if_neg (by omega), if_pos (by rw [hm, hbits])]
  have hexponent : (BitVec.ofNat 11 b).toNat = b := by
    rw [BitVec.toNat_ofNat, Nat.mod_eq_of_lt (by omega)]
  have hnotMax : BitVec.ofNat 11 b ≠ -1#11 := by
    intro h
    have := congrArg BitVec.toNat h
    rw [hexponent] at this
    change b = 2047 at this
    omega
  have hnotZero : BitVec.ofNat 11 b ≠ 0#11 := by
    intro h
    have := congrArg BitVec.toNat h
    rw [hexponent] at this
    change b = 0 at this
    omega
  have hmantissa : (1#1 ++ BitVec.ofNat 52 m).toNat = m := by
    rw [BitVec.toNat_append, ← Nat.shiftLeft_add_eq_or_of_lt (BitVec.isLt _), BitVec.toNat_ofNat]
    change 2 ^ 52 + m % 2 ^ 52 = m
    omega
  change UnpackedFloat.unpack _ (UnpackedFloat.pack _ _) = _
  rw [hpack]
  unfold UnpackedFloat.unpack
  simp only [unpackMantissa_packComponents, unpackExponent_packComponents, unpackSign_packComponents, hnotMax,
    hnotZero, if_false, hexponent, hmantissa, hbias]
  congr 1
  omega

theorem log2_mul_pow {n : Nat} (hn : 0 < n) (s : Nat) : (n * 2 ^ s).log2 = n.log2 + s := by
  rw [Nat.log2_eq_iff (Nat.ne_of_gt (Nat.mul_pos hn (Nat.two_pow_pos s)))]
  have hlog := (Nat.log2_eq_iff (Nat.ne_of_gt hn)).mp rfl
  constructor
  . rw [Nat.pow_add]
    exact Nat.mul_le_mul_right _ hlog.1
  . rw [Nat.add_right_comm, Nat.pow_add]
    exact Nat.mul_lt_mul_of_pos_right hlog.2 (Nat.two_pow_pos s)

theorem roundToInt_natCast (m s : Nat) : roundToInt .positive m s = (m * 2 ^ s : Nat) := by
  have hshift : ((s : Int) - 0).toNat = s := by omega
  have hback : ((0 : Int) - ((s : Int) - (s : Int))).toNat = 0 := by omega
  unfold roundToInt decreaseExponent shiftToExponent
  dsimp only
  rw [hshift, hback, Nat.shiftLeft_eq]
  rfl

theorem roundToInt_neg (m s : Nat) : roundToInt .positive m (-s) = (m / 2 ^ s : Nat) := by
  have hshift : (-(s : Int) - 0).toNat = 0 := by omega
  have hback : ((0 : Int) - (-(s : Int) - (0 : Nat))).toNat = s := by omega
  unfold roundToInt decreaseExponent shiftToExponent
  dsimp only
  rw [hshift, hback, Nat.shiftLeft_zero, (shiftRight_eq m s).1]
  rfl

theorem toNat_ofNatClamp (n : Nat) : (UInt64.ofNatClamp n).toNat = min n maxWord := by
  unfold UInt64.ofNatClamp
  split
  . next h =>
    have hle : n ≤ maxWord := Nat.le_pred_of_lt h
    rw [UInt64.toNat_ofNatLT, Nat.min_eq_left hle]
  . next h =>
    have hle : maxWord ≤ n := Nat.le_trans (by decide) (Nat.le_of_not_lt h)
    rw [UInt64.toNat_ofNatLT, Nat.min_eq_right hle]
    rfl

theorem toUInt64_pack {m s : Nat} (hpos : 0 < m) (hm : m.log2 = 52) (hs : s ≤ 971)
    : (Float.ofModel (.pack (.finite .positive m s hpos))).toUInt64.toNat = min (m * 2 ^ s) maxWord := by
  change (UnpackedFloat.toUInt64 (Float.Model.pack (.finite .positive m s hpos)).unpack).toNat = _
  rw [unpack_pack hpos hm (by omega) (by omega), UnpackedFloat.toUInt64, toNat_ofNatClamp, UnpackedFloat.toInt,
    roundToInt_natCast]
  rfl

theorem toUInt64_pack_neg {m s : Nat} (hpos : 0 < m) (hm : m.log2 = 52) (hs : s ≤ 1074)
    : (Float.ofModel (.pack (.finite .positive m (-s) hpos))).toUInt64.toNat = min (m / 2 ^ s) maxWord := by
  change (UnpackedFloat.toUInt64 (Float.Model.pack (.finite .positive m (-s) hpos)).unpack).toNat = _
  rw [unpack_pack hpos hm (by omega) (by omega), UnpackedFloat.toUInt64, toNat_ofNatClamp, UnpackedFloat.toInt,
    roundToInt_neg]
  rfl

theorem mul_finite {spec : Format} {m n : Nat} {e f : Int} {hm : 0 < m} {hn : 0 < n}
    : UnpackedFloat.mul spec (.finite .positive m e hm) (.finite .positive n f hn) =
        roundWithAccuracy spec .positive (m * n) (e + f) .exact :=
  rfl

theorem ofScientific_eq {n : Nat} (hn : 0 < n)
    : UnpackedFloat.ofScientific Format.binary64 n 0 =
        roundWithAccuracy Format.binary64 .positive (n * 2 ^ 53) (-53) .exact := by
  have hbits : Format.binary64.mantissaBits = 53 := rfl
  have hlow : ¬ (0 : Int) < -((2 ^ Format.binary64.exponentBits : Int) + n.log2) := by
    change ¬ (0 : Int) < -(2048 + n.log2)
    omega
  unfold UnpackedFloat.ofScientific
  rw [dif_neg (Nat.ne_of_gt hn), if_neg (by decide), if_neg hlow, if_pos (by decide)]
  have hm : n <<< Format.binary64.mantissaBits * 10 ^ Int.toNat 0 = n * 2 ^ 53 := by
    rw [hbits, Nat.shiftLeft_eq, Int.toNat_zero, Nat.pow_zero, Nat.mul_one]
  have he : -(Format.binary64.mantissaBits : Int) + 0 = -53 := by
    rw [hbits]
    rfl
  rw [mul_finite, hm, he]

theorem ofNat_of_le {n : Nat} (hn : 2 ^ 53 ≤ n) : Float.ofNat n = .ofModel (.ofScientific n 0) := by
  change Float.ofScientific n false 0 = _
  unfold Float.ofScientific
  rw [dif_neg (by omega)]
  rfl

theorem toUInt64_ofNat_of_le {n : Nat} (hn : 2 ^ 53 ≤ n) (hword : n ≤ maxWord)
    : (Float.ofNat n).toUInt64.toNat = min (nearest n) maxWord := by
  have hlow : 53 ≤ n.log2 := (Nat.le_log2 (by omega)).mpr hn
  have hhigh : n.log2 < 64 := (Nat.log2_lt (by omega)).mpr (Nat.lt_of_le_pred (by decide) hword)
  have hlog : (n * 2 ^ 53).log2 = 52 + (n.log2 - 52 + 53) := by
    rw [log2_mul_pow (by omega)]
    omega
  obtain ⟨m, t, hpos, hround, hm, ht, hvalue⟩ := roundWithAccuracy_exact hlog (by omega : -1074 ≤ (-53 : Int))
  have hexp : (-53 : Int) + (n.log2 - 52 + 53 : Nat) + t = (n.log2 - 52 + t : Nat) := by omega
  rw [hexp] at hround
  rw [ofNat_of_le hn, Float.Model.ofScientific, ofScientific_eq (by omega), hround, toUInt64_pack hpos hm (by omega)]
  rw [roundedQuotient_mul] at hvalue
  rw [nearest, ← hvalue, Nat.pow_add, Nat.mul_comm (2 ^ (n.log2 - 52)), Nat.mul_assoc]

theorem ofNat_of_lt {n : Nat} (hn : n < 2 ^ 53)
    : Float.ofNat n = n.toUInt64.toFloat * Float.ofBits 0x3FF0000000000000 := by
  change Float.ofScientific n false 0 = _
  unfold Float.ofScientific
  rw [dif_pos ⟨hn, by omega⟩]
  rfl

theorem roundWithAccuracy_mul_pow {m : Nat} {e : Int} (hpos : 0 < m) (hm : m.log2 = 52) (s : Nat) (he : -1074 ≤ e)
    : roundWithAccuracy Format.binary64 .positive (m * 2 ^ s) e .exact = .finite .positive m (e + s) hpos := by
  have hlog : (m * 2 ^ s).log2 = 52 + s := by
    rw [log2_mul_pow hpos, hm]
  obtain ⟨m', t, hpos', hround, hm', ht, hvalue⟩ := roundWithAccuracy_exact hlog he
  have hquotient : m' * 2 ^ t = m := by
    have hdropped := roundedQuotient_mul m 0 s
    rw [Nat.zero_add, roundedQuotient_zero] at hdropped
    rw [hvalue, hdropped]
  obtain rfl : t = 0 := by
    have := log2_mul_pow hpos' t
    rw [hquotient, hm, hm'] at this
    omega
  obtain rfl : m' = m := by omega
  rw [hround]
  congr 1
  omega

theorem ofNat_unpacked {n : Nat} (hn : 0 < n) (hlog : n.log2 ≤ 52) (hpos : 0 < n * 2 ^ (52 - n.log2))
    : UnpackedFloat.ofNat Format.binary64 n =
        .finite .positive (n * 2 ^ (52 - n.log2)) (-(52 - n.log2 : Nat)) hpos := by
  have hm : (n * 2 ^ (52 - n.log2)).log2 = 52 := by
    rw [log2_mul_pow hn]
    omega
  have hshift : ((0 : Int) - Format.binary64.targetExponent (totalExponent n 0)).toNat = 52 - n.log2 := by
    rw [targetExponent_eq, totalExponent]
    omega
  have hcompare : compare (n : Int) 0 = .gt := Int.compare_eq_gt.mpr (by omega)
  unfold UnpackedFloat.ofNat UnpackedFloat.ofInt UnpackedFloat.normalize
  rw [hcompare]
  dsimp only
  unfold UnpackedFloat.round decreaseExponent
  dsimp only
  have hround := roundWithAccuracy_mul_pow hpos hm 0 (by omega : -1074 ≤ (0 : Int) - (52 - n.log2 : Nat))
  rw [Nat.pow_zero, Nat.mul_one] at hround
  rw [Int.toNat_natCast, hshift, Nat.shiftLeft_eq, hround]
  congr 1
  omega

theorem unpack_one : (Float.Model.ofBits 0x3FF0000000000000).unpack = .finite .positive (2 ^ 52) (-52) (by decide) :=
  rfl

theorem toUInt64_ofNat_of_lt {n : Nat} (hn : n < 2 ^ 53) : (Float.ofNat n).toUInt64.toNat = n := by
  rcases Nat.eq_zero_or_pos n with rfl | hpos
  . rfl
  have hlog : n.log2 < 53 := (Nat.log2_lt (Nat.ne_of_gt hpos)).mpr hn
  have hm : (n * 2 ^ (52 - n.log2)).log2 = 52 := by
    rw [log2_mul_pow hpos]
    omega
  have hmpos : 0 < n * 2 ^ (52 - n.log2) := Nat.mul_pos hpos (Nat.two_pow_pos _)
  have hword : n.toUInt64.toNat = n := UInt64.toNat_ofNat_of_lt (Nat.lt_trans hn (by decide))
  have hexp : (-(52 - n.log2 : Nat) : Int) + -52 + (52 : Nat) = -(52 - n.log2 : Nat) := by omega
  have hle : n ≤ maxWord := Nat.le_trans (Nat.le_of_lt hn) (by decide)
  rw [ofNat_of_lt hn]
  change (Float.ofModel (.pack (UnpackedFloat.mul Format.binary64
    (Float.Model.pack (UnpackedFloat.ofNat Format.binary64 n.toUInt64.toNat)).unpack
    (Float.Model.ofBits 0x3FF0000000000000).unpack))).toUInt64.toNat = n
  rw [hword, ofNat_unpacked hpos (by omega) hmpos, unpack_pack hmpos hm (by omega) (by omega), unpack_one, mul_finite,
    roundWithAccuracy_mul_pow hmpos hm 52 (by omega), hexp, toUInt64_pack_neg hmpos hm (by omega),
    Nat.mul_div_cancel _ (Nat.two_pow_pos _), Nat.min_eq_left hle]

theorem toUInt64_ofNat {n : Nat} (hn : n ≤ maxWord) : (Float.ofNat n).toUInt64.toNat = min (nearest n) maxWord := by
  by_cases h : n < 2 ^ 53
  . have hlog : n.log2 - 52 = 0 := by
      rcases Nat.eq_zero_or_pos n with rfl | hpos
      . rfl
      . have := (Nat.log2_lt (Nat.ne_of_gt hpos)).mpr h
        omega
    rw [toUInt64_ofNat_of_lt h, nearest, hlog, roundedQuotient_zero, Nat.pow_zero, Nat.mul_one, Nat.min_eq_left hn]
  . exact toUInt64_ofNat_of_le (by omega) hn

theorem nearest_eq_iff (n : Nat) : nearest n = n ↔ 2 ^ (n.log2 - 52) ∣ n := by
  unfold nearest
  constructor
  . exact Dvd.intro_left _
  . intro h
    have hpos : 0 < 2 ^ (n.log2 - 52) := Nat.two_pow_pos _
    rw [roundedQuotient, Nat.mod_eq_zero_of_dvd h, if_neg (by omega), Nat.div_mul_cancel h]

theorem toUInt64_ofNat_eq_iff {n : Nat} (hn : n ≤ maxWord)
    : (Float.ofNat n).toUInt64.toNat = n ↔ 2 ^ (n.log2 - 52) ∣ n ∨ n = maxWord := by
  rw [toUInt64_ofNat hn, ← nearest_eq_iff]
  constructor
  . omega
  . rintro (h | rfl)
    . rw [h, Nat.min_eq_left hn]
    . decide

end Double
end GradedModal
