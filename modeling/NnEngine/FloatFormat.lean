import Mathlib

/-!
# Conversions between floating-point formats

Unpacked floats of the core library, converted from one format to another.  A float that is in canonical
form for a format survives the way through a wider format and back (`convert_convert`), and packing and
unpacking lose nothing (`unpack_pack`, `pack_unpack`).
-/

namespace NnEngine
namespace FloatFormat

open Float.Model Float.Model.UnpackedFloat

/-- Round to a format. -/
def convert (spec : Format) : UnpackedFloat → UnpackedFloat
  | .finite s m e _ => round spec s m e
  | x => x

/-- The exponent is the one that the format wants, and not too large for it. -/
def Canonical (spec : Format) : UnpackedFloat → Prop
  | .finite _ m e _ => e = spec.targetExponent (totalExponent m e) ∧
      e + spec.exponentBias + spec.mantissaBitsWithoutImplicit + 1 < 2 ^ spec.exponentBits
  | _ => True

/-- Every number of the first format is one of the second. -/
structure Narrower (spec spec' : Format) : Prop where
  mantissa : spec.mantissaBits ≤ spec'.mantissaBits
  exponent : spec'.minExponent ≤ spec.minExponent
  overflow : (2 ^ spec.exponentBits : Int) - spec.exponentBias - spec.mantissaBitsWithoutImplicit ≤
    2 ^ spec'.exponentBits - spec'.exponentBias - spec'.mantissaBitsWithoutImplicit

variable {spec spec' : Format} {s : Sign} {m : Nat} {e : Int} {k : Nat}

/-! ### Rounding -/

theorem log2_shiftLeft (hm : 0 < m) (k : Nat) : (m <<< k).log2 = m.log2 + k := by
  rw [Nat.shiftLeft_eq, Nat.log2_eq_iff (by positivity)]
  have hle := Nat.log2_self_le hm.ne'
  have hlt := (Nat.log2_lt hm.ne').mp (Nat.lt_succ_self _)
  constructor
  · rw [Nat.pow_add]
    exact Nat.mul_le_mul_right _ hle
  · rw [show m.log2 + k + 1 = m.log2 + 1 + k by omega, Nat.pow_add]
    exact Nat.mul_lt_mul_of_pos_right hlt (by positivity)

theorem totalExponent_shiftLeft (hm : 0 < m) (e : Int) (k : Nat) :
    totalExponent (m <<< k) (e - k) = totalExponent m e := by
  rw [totalExponent, totalExponent, log2_shiftLeft hm]
  push_cast
  ring

/-- Dropping zeros from the end of a mantissa leaves no residue. -/
theorem shiftRight_shiftLeft (m k : Nat) :
    (ExtendedMantissa.mk (m <<< k) false false) >>> k = ExtendedMantissa.mk m false false := by
  show k.repeat ExtendedMantissa.shiftRightOne _ = _
  induction k with
  | zero => rfl
  | succ k ih =>
      have hcomm : ∀ (n : Nat) (em : ExtendedMantissa),
          (n + 1).repeat ExtendedMantissa.shiftRightOne em =
            n.repeat ExtendedMantissa.shiftRightOne em.shiftRightOne := by
        intro n
        induction n with
        | zero => exact fun _ => rfl
        | succ n ihn => exact fun em => congrArg ExtendedMantissa.shiftRightOne (ihn em)
      have hone : (ExtendedMantissa.mk (m <<< (k + 1)) false false).shiftRightOne =
          ExtendedMantissa.mk (m <<< k) false false := by
        rw [ExtendedMantissa.shiftRightOne, Nat.shiftLeft_succ]
        simp
      rw [hcomm, hone, ih]

/-- Shifting to the exponent that the mantissa already has. -/
theorem shiftToTargetExponent_self (h : e = spec.targetExponent (totalExponent m e)) :
    shiftToTargetExponent spec m e .exact = (ExtendedMantissa.mk m false false, e) := by
  rw [shiftToTargetExponent, shiftToExponent, ← h, Int.sub_self]
  show (_, e + 0) = _
  rw [Int.add_zero]
  rfl

theorem shiftToTargetExponent_shiftLeft (hm : 0 < m)
    (h : e = spec.targetExponent (totalExponent m e)) :
    shiftToTargetExponent spec (m <<< k) (e - k) .exact = (ExtendedMantissa.mk m false false, e) := by
  rw [shiftToTargetExponent, shiftToExponent, totalExponent_shiftLeft hm, ← h]
  have hk : (e - (e - k)).toNat = k := by omega
  rw [hk]
  refine Prod.ext ?_ ?_
  · exact shiftRight_shiftLeft m k
  · show e - k + k = e
    omega

theorem roundWithAccuracy_shiftLeft (hm : 0 < m)
    (h : e = spec.targetExponent (totalExponent m e)) :
    roundWithAccuracy spec s (m <<< k) (e - k) .exact = .finite s m e hm := by
  have hself : shiftToTargetExponent spec (ExtendedMantissa.mk m false false).roundedMantissa e
      .exact = (ExtendedMantissa.mk m false false, e) := shiftToTargetExponent_self h
  unfold roundWithAccuracy
  rw [shiftToTargetExponent_shiftLeft hm h]
  dsimp only
  rw [hself]
  exact dif_neg hm.ne'

/-- Rounding a number with zeros at its end that the format does not need. -/
theorem round_shiftLeft (hm : 0 < m) (h : e = spec.targetExponent (totalExponent m e)) (k : Nat) :
    round spec s (m <<< k) (e - k) = .finite s m e hm := by
  unfold UnpackedFloat.round
  rw [totalExponent_shiftLeft hm, ← h]
  have hk : (e - k - e).toNat = 0 := by omega
  show roundWithAccuracy spec s (m <<< k <<< (e - k - e).toNat) (e - k - (e - k - e).toNat) _ = _
  rw [hk]
  show roundWithAccuracy spec s (m <<< k) (e - k - 0) _ = _
  rw [Int.sub_zero]
  exact roundWithAccuracy_shiftLeft hm h

/-- Rounding to a wider format appends zeros. -/
theorem round_wider (hw : Narrower spec spec') (hm : 0 < m)
    (h : e = spec.targetExponent (totalExponent m e)) :
    ∃ k : Nat, ∃ hmk : 0 < m <<< k, round spec' s m e = .finite s (m <<< k) (e - k) hmk ∧
      e - k = spec'.targetExponent (totalExponent (m <<< k) (e - k)) := by
  have hle : spec'.targetExponent (totalExponent m e) ≤ e := by
    have hmb := hw.mantissa
    have hme := hw.exponent
    rw [Format.targetExponent] at h ⊢
    omega
  obtain ⟨k, hk⟩ := Int.eq_ofNat_of_zero_le (Int.sub_nonneg_of_le hle)
  have hpos : 0 < m <<< k := by
    rw [Nat.shiftLeft_eq]
    positivity
  have htarget : e - k = spec'.targetExponent (totalExponent (m <<< k) (e - k)) := by
    rw [totalExponent_shiftLeft hm]
    omega
  refine ⟨k, hpos, ?_, htarget⟩
  unfold UnpackedFloat.round
  show roundWithAccuracy spec' s (m <<< (e - spec'.targetExponent (totalExponent m e)).toNat)
    (e - (e - spec'.targetExponent (totalExponent m e)).toNat) _ = _
  rw [hk, Int.toNat_natCast]
  have hround := roundWithAccuracy_shiftLeft (s := s) (k := 0) hpos htarget
  rw [Nat.shiftLeft_zero, Int.natCast_zero, Int.sub_zero] at hround
  exact hround

/-- A float goes through a wider format and comes back. -/
theorem convert_convert (hw : Narrower spec spec') {x : UnpackedFloat} (hx : Canonical spec x) :
    convert spec (convert spec' x) = x := by
  cases x with
  | infinity s => rfl
  | notANumber => rfl
  | zero s => rfl
  | finite s m e hm =>
      obtain ⟨k, hmk, hround, -⟩ := round_wider (s := s) hw hm hx.1
      show convert spec (round spec' s m e) = _
      rw [hround]
      exact round_shiftLeft hm hx.1 k

theorem Canonical.wider (hw : Narrower spec spec') {x : UnpackedFloat} (hx : Canonical spec x) :
    Canonical spec' (convert spec' x) := by
  cases x with
  | infinity s => trivial
  | notANumber => trivial
  | zero s => trivial
  | finite s m e hm =>
      obtain ⟨k, hmk, hround, htarget⟩ := round_wider (s := s) hw hm hx.1
      show Canonical spec' (round spec' s m e)
      rw [hround]
      refine ⟨htarget, ?_⟩
      have hfits := hx.2
      have hoverflow := hw.overflow
      omega

/-! ### Packing -/

/-- What the target exponent says about the size of the mantissa. -/
theorem canonical_cases (h : e = spec.targetExponent (totalExponent m e)) :
    spec.minExponent ≤ e ∧ m.log2 + 1 ≤ spec.mantissaBits ∧
      (m.log2 + 1 = spec.mantissaBits ∨ e = spec.minExponent) := by
  rw [Format.targetExponent, totalExponent] at h
  omega

theorem minExponent_eq (spec : Format) :
    spec.minExponent + spec.exponentBias + spec.mantissaBitsWithoutImplicit = 1 := by
  have hpos : 1 ≤ 2 ^ (spec.exponentBits - 1) := Nat.one_le_two_pow
  rw [Format.minExponent, Format.exponentBias, Format.mantissaBits]
  push_cast [Nat.cast_sub hpos]
  ring

@[simp]
theorem unpackSign_packComponents {sign : Sign} {exponent : BitVec spec.exponentBits}
    {mantissa : BitVec spec.mantissaBitsWithoutImplicit} :
    unpackSign (packComponents spec sign exponent mantissa) = sign.toBitVec := by
  ext i hi
  simp [unpackSign, packComponents, BitVec.getLsbD_append]
  rw [if_neg (by omega), if_neg (by omega), ← BitVec.getLsbD_eq_getElem]
  congr 1
  omega

@[simp]
theorem ofBitVec_toBitVec (sign : Sign) : Sign.ofBitVec sign.toBitVec = sign := by
  cases sign <;> rfl

@[simp]
theorem toBitVec_ofBitVec (b : BitVec 1) : (Sign.ofBitVec b).toBitVec = b := by
  rcases BitVec.eq_zero_or_eq_one b with rfl | rfl <;> rfl

/-- A packed float is put together from its parts. -/
theorem packComponents_unpack (b : BitVec spec.numBits) :
    packComponents spec (Sign.ofBitVec (unpackSign b)) (unpackExponent b) (unpackMantissa b) = b := by
  have hm := spec.hm
  have he := spec.he
  rw [packComponents, toBitVec_ofBitVec]
  apply BitVec.eq_of_getLsbD_eq
  intro i hi
  rw [BitVec.getLsbD_append, BitVec.getLsbD_append]
  split
  · simp [unpackMantissa]
    omega
  · split
    · simp [unpackExponent]
      rw [decide_eq_true (by omega), Bool.true_and]
      congr 1
      omega
    · simp [unpackSign]
      rw [decide_eq_true (by omega), Bool.true_and]
      congr 1
      omega

/-- The exponent of all ones. -/
theorem ofNat_ne_neg_one {n w : Nat} (h : n + 1 < 2 ^ w) : BitVec.ofNat w n ≠ -1#w := by
  intro heq
  have hnat := congrArg BitVec.toNat heq
  rw [BitVec.neg_one_eq_allOnes, BitVec.toNat_allOnes, BitVec.toNat_ofNat,
    Nat.mod_eq_of_lt (by omega)] at hnat
  omega

theorem toNat_implicit {w : Nat} (x : BitVec w) : (1#1 ++ x).toNat = 2 ^ w + x.toNat := by
  rw [BitVec.toNat_append, ← Nat.shiftLeft_add_eq_or_of_lt x.isLt, Nat.shiftLeft_eq]
  simp

theorem unpack_pack {x : UnpackedFloat} (hx : Canonical spec x) :
    UnpackedFloat.unpack spec (UnpackedFloat.pack spec x) = x := by
  have hm := spec.hm
  cases x with
  | infinity s => simp [UnpackedFloat.pack, packedInfinity, UnpackedFloat.unpack]
  | notANumber =>
      have hne : BitVec.ofNat spec.mantissaBitsWithoutImplicit 1 <<<
          (spec.mantissaBitsWithoutImplicit - 1) ≠ 0#_ := by
        intro heq
        have hbit := congrArg (fun x => x.getLsbD (spec.mantissaBitsWithoutImplicit - 1)) heq
        simp [hm] at hbit
      simp [UnpackedFloat.pack, packedNaN, UnpackedFloat.unpack, hne]
  | zero s =>
      have he := spec.he.ne'
      simp [UnpackedFloat.pack, packedZero, UnpackedFloat.unpack, he]
  | finite s m e hpos =>
      obtain ⟨htarget, hfits⟩ := hx
      obtain ⟨hmin, hlog, hor⟩ := canonical_cases htarget
      have hmineq := minExponent_eq spec
      obtain ⟨n, hn⟩ := Int.eq_ofNat_of_zero_le
        (show 0 ≤ e + spec.exponentBias + spec.mantissaBitsWithoutImplicit by omega)
      have hn' : n + 1 < 2 ^ spec.exponentBits := by
        rw [hn] at hfits
        exact_mod_cast hfits
      have hlt : m < 2 ^ (m.log2 + 1) := (Nat.log2_lt hpos.ne').mp (Nat.lt_succ_self _)
      have hmb : spec.mantissaBits = 1 + spec.mantissaBitsWithoutImplicit := rfl
      unfold UnpackedFloat.pack
      dsimp only
      rw [hn, Int.toNat_natCast, if_neg (Nat.not_le_of_lt hn')]
      split
      · rename_i hnormal
        -- the implicit bit is the first one
        have hlog' : m.log2 = spec.mantissaBitsWithoutImplicit := by omega
        have hge := Nat.log2_self_le hpos.ne'
        rw [hlog'] at hge hlt
        have hmant : (1#1 ++ BitVec.ofNat spec.mantissaBitsWithoutImplicit m).toNat = m := by
          rw [toNat_implicit, BitVec.toNat_ofNat]
          rw [Nat.pow_succ] at hlt
          have hsub : m % 2 ^ spec.mantissaBitsWithoutImplicit =
              m - 2 ^ spec.mantissaBitsWithoutImplicit := by
            rw [Nat.mod_eq_sub_mod hge, Nat.mod_eq_of_lt (by omega)]
          omega
        have hexp : (BitVec.ofNat spec.exponentBits n).toNat = n := by
          rw [BitVec.toNat_ofNat, Nat.mod_eq_of_lt (by omega)]
        have hne : BitVec.ofNat spec.exponentBits n ≠ 0#_ := by
          intro heq
          have hnat := congrArg BitVec.toNat heq
          rw [hexp, BitVec.toNat_zero] at hnat
          omega
        simp only [UnpackedFloat.unpack, unpackExponent_packComponents,
          unpackMantissa_packComponents, unpackSign_packComponents, ofBitVec_toBitVec,
          if_neg (ofNat_ne_neg_one hn'), if_neg hne, hmant, hexp]
        congr 1
        omega
      · rename_i hsubnormal
        have hlt' : m < 2 ^ spec.mantissaBitsWithoutImplicit :=
          hlt.trans_le (Nat.pow_le_pow_right (by omega) (by omega))
        have hmant : (BitVec.ofNat spec.mantissaBitsWithoutImplicit m).toNat = m := by
          rw [BitVec.toNat_ofNat, Nat.mod_eq_of_lt hlt']
        have hne : BitVec.ofNat spec.mantissaBitsWithoutImplicit m ≠ 0#_ := by
          intro heq
          have hnat := congrArg BitVec.toNat heq
          rw [hmant, BitVec.toNat_zero] at hnat
          omega
        have hzero : BitVec.ofNat spec.exponentBits 0 ≠ -1#_ := ofNat_ne_neg_one (by omega)
        simp only [UnpackedFloat.unpack, unpackExponent_packComponents,
          unpackMantissa_packComponents, unpackSign_packComponents, ofBitVec_toBitVec,
          if_neg hzero, if_true, dif_neg hne, hmant, BitVec.toNat_zero]
        congr 1
        omega

/-- The mantissa of a normal number has all its bits. -/
theorem log2_implicit {w : Nat} (x : BitVec w) : (2 ^ w + x.toNat).log2 = w := by
  have hlt := x.isLt
  have hpos := Nat.two_pow_pos w
  rw [Nat.log2_eq_iff (by omega), Nat.pow_succ]
  omega

theorem toNat_add_one_lt {w : Nat} {x : BitVec w} (h : x ≠ -1#w) : x.toNat + 1 < 2 ^ w := by
  have hlt := x.isLt
  by_contra hge
  apply h
  apply BitVec.eq_of_toNat_eq
  rw [BitVec.neg_one_eq_allOnes, BitVec.toNat_allOnes]
  omega

theorem toNat_pos {w : Nat} {x : BitVec w} (h : x ≠ 0#w) : 0 < x.toNat := by
  rw [Nat.pos_iff_ne_zero]
  intro heq
  exact h (BitVec.eq_of_toNat_eq (by rw [heq, BitVec.toNat_zero]))

theorem canonical_unpack (he : 2 ≤ spec.exponentBits) (b : BitVec spec.numBits) :
    Canonical spec (UnpackedFloat.unpack spec b) := by
  have hm := spec.hm
  have hmineq := minExponent_eq spec
  have hmb : spec.mantissaBits = 1 + spec.mantissaBitsWithoutImplicit := rfl
  unfold UnpackedFloat.unpack
  dsimp only
  split
  · split <;> trivial
  · rename_i hones
    split
    · rename_i hzero
      split
      · trivial
      · rename_i hne
        have hlog := (Nat.log2_lt (toNat_pos hne).ne').mpr (unpackMantissa b).isLt
        have hpow : (2 : Int) ^ 2 ≤ 2 ^ spec.exponentBits := pow_le_pow_right₀ (by norm_num) he
        rw [hzero, BitVec.toNat_zero]
        constructor
        · rw [Format.targetExponent, totalExponent]
          omega
        · omega
    · rename_i hne
      have hpos := toNat_pos hne
      have hlt : ((unpackExponent b).toNat : Int) + 1 < 2 ^ spec.exponentBits := by
        exact_mod_cast toNat_add_one_lt hones
      have hlog : (1#1 ++ unpackMantissa b).toNat.log2 = spec.mantissaBitsWithoutImplicit := by
        rw [toNat_implicit, log2_implicit]
      constructor
      · rw [Format.targetExponent, totalExponent, hlog]
        omega
      · omega

theorem pack_unpack (he : 2 ≤ spec.exponentBits) {b : BitVec spec.numBits} (hb : spec.Valid b) :
    UnpackedFloat.pack spec (UnpackedFloat.unpack spec b) = b := by
  have hm := spec.hm
  have hmineq := minExponent_eq spec
  have hmb : spec.mantissaBits = 1 + spec.mantissaBitsWithoutImplicit := rfl
  have hparts := packComponents_unpack b
  unfold UnpackedFloat.unpack
  dsimp only
  split
  · rename_i hones
    split
    · rename_i hzero
      rw [hones, hzero] at hparts
      exact hparts
    · rename_i hne
      exact (hb.eq_packedNaN hones hne).symm
  · rename_i hones
    split
    · rename_i hzero
      split
      · rename_i hmant
        rw [hzero, hmant] at hparts
        exact hparts
      · rename_i hne
        have hlog := (Nat.log2_lt (toNat_pos hne).ne').mpr (unpackMantissa b).isLt
        have hpow : 2 ^ 2 ≤ 2 ^ spec.exponentBits := Nat.pow_le_pow_right (by norm_num) he
        unfold UnpackedFloat.pack
        dsimp only
        rw [hzero, BitVec.toNat_zero, if_neg (by omega), if_neg (by omega), BitVec.ofNat_toNat,
          BitVec.setWidth_eq, ← hzero]
        exact hparts
    · rename_i hne
      have hpos := toNat_pos hne
      have hlt := toNat_add_one_lt hones
      have hbiased : ((unpackExponent b).toNat - (spec.exponentBias +
          spec.mantissaBitsWithoutImplicit : Int) + spec.exponentBias +
          spec.mantissaBitsWithoutImplicit).toNat = (unpackExponent b).toNat := by omega
      have hlog : (1#1 ++ unpackMantissa b).toNat.log2 = spec.mantissaBitsWithoutImplicit := by
        rw [toNat_implicit, log2_implicit]
      have hmant : BitVec.ofNat spec.mantissaBitsWithoutImplicit (1#1 ++ unpackMantissa b).toNat =
          unpackMantissa b := by
        apply BitVec.eq_of_toNat_eq
        rw [toNat_implicit, BitVec.toNat_ofNat, Nat.add_mod_left,
          Nat.mod_eq_of_lt (unpackMantissa b).isLt]
      unfold UnpackedFloat.pack
      dsimp only
      rw [hbiased, if_neg (Nat.not_le_of_lt hlt), if_pos (by omega), hmant, BitVec.ofNat_toNat,
        BitVec.setWidth_eq]
      exact hparts

end FloatFormat
end NnEngine
