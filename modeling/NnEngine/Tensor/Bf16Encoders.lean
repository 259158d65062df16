import NnEngine.Codegen.CastAgreement
import NnEngine.FloatPattern

/-!
# The encoders of `bf16`

`StrictTensor::from` of `session.rs`, `f64_to_bf16_bits` of `load.rs`, `f32_to_bf16_bits_rne` of `quantize.rs` and
`f32_to_bf16_bits` of `translator.rs` on the patterns of `f32`.  The runtime and the saver have the number as an
`f64`, and all NaNs of a conversion are one; the quantiser and the compiled code have the pattern itself.
-/

namespace NnEngine
namespace Bf16

open FloatFormat FloatPattern CpuCast

/-! ### The encoders -/

/-- A `bf16` of `StrictTensor::from`. -/
def strictBits (x : F64) : UInt16 := (x.asF32.toBits >>> 16).toUInt16

def roundingBias (bits : UInt32) : UInt32 := (0x7FFF : UInt32) + ((bits >>> 16) &&& 1)

/-- `f32_to_bf16_bits_rne`. -/
def f32ToBf16BitsRne (bits : UInt32) : UInt16 :=
  if (Float32.Model.ofBits bits).isNaN then 0x7FC0 else ((bits + roundingBias bits) >>> 16).toUInt16

/-- `f32_to_bf16_bits`, whose additions wrap around. -/
def f32ToBf16Bits (bits : UInt32) : UInt16 :=
  let lsb := (bits >>> 16) &&& 1
  let bias := lsb + 0x7FFF
  let rounded := bits + bias
  (rounded >>> 16).toUInt16

/-- `bf16_bits_to_f32`. -/
def bf16BitsToF32 (bits : UInt16) : UInt32 := bits.toUInt32 <<< 16

/-! ### What they are for -/

/-- A NaN of `f32`. -/
def IsNan32 (x : UInt32) : Prop := 0x7F800000 < x.toNat % 2 ^ 31

/-- A NaN of `bf16`. -/
def IsNan16 (b : UInt16) : Prop := 0x7F80 < b.toNat % 2 ^ 15

instance (x : UInt32) : Decidable (IsNan32 x) := inferInstanceAs (Decidable (_ < _))

instance (b : UInt16) : Decidable (IsNan16 b) := inferInstanceAs (Decidable (_ < _))

/-- One value: all NaNs are equal. -/
def SameValue (b b' : UInt16) : Prop := b = b' ∨ IsNan16 b ∧ IsNan16 b'

instance (b b' : UInt16) : Decidable (SameValue b b') := inferInstanceAs (Decidable (_ ∨ _))

/-- The sign is kept, and what is below it is rounded to the nearest, to an even one from the middle. -/
structure RoundsTo (x : UInt32) (b : UInt16) : Prop where
  sign : b.toNat / 2 ^ 15 = x.toNat / 2 ^ 31
  nearest : NearestEven (units 23) (2 ^ 16) (x.toNat % 2 ^ 31) (b.toNat % 2 ^ 15)

/-- A NaN stays one, anything else is rounded. -/
def Represents (x : UInt32) (b : UInt16) : Prop := if IsNan32 x then IsNan16 b else RoundsTo x b

/-- What is asked of the encoders of a pattern. -/
structure EncodersAgree (x : UInt32) : Prop where
  strict : SameValue (strictBits (F32.asF64 (.ofBits x))) (f32ToBf16BitsRne x)
  saver : SameValue (f64ToBf16Bits (F32.asF64 (.ofBits x))) (f32ToBf16BitsRne x)
  compiled : SameValue (f32ToBf16Bits x) (f32ToBf16BitsRne x)
  represents : Represents x (f32ToBf16BitsRne x)
  no_overflow : x.toNat + (roundingBias x).toNat < 2 ^ 32

/-- Adding the bias to a NaN leaves a NaN: it does not become an infinity, nor does it leave the sign's bit. -/
def BiasKeepsNan (x : UInt32) : Prop :=
  (x.toNat % 2 ^ 31 / 2 ^ 16 = 0x7F80 → ¬RoundsDown x.toNat) ∧
    (x.toNat % 2 ^ 31 / 2 ^ 16 = 0x7FFF → RoundsDown x.toNat)

instance (x : UInt32) : Decidable (BiasKeepsNan x) := inferInstanceAs (Decidable (_ ∧ _))

/-! ### Patterns -/

theorem isNaN_ofBits (x : UInt32) : (Float32.Model.ofBits x).isNaN = true ↔ IsNan32 x := by
  have hunpack : (Float32.Model.ofBits x).unpack = Float.Model.UnpackedFloat.unpack .binary32 x.toBitVec :=
    unpack_pack (canonical_unpack (by decide) _)
  have hexp := toNat_unpackExponent x
  have hman := toNat_unpackMantissa x
  have hones : @Float.Model.UnpackedFloat.unpackExponent .binary32 x.toBitVec = -1#_ ↔ x.toNat / 2 ^ 23 % 2 ^ 8 = 255 := by
    rw [← BitVec.toNat_inj, hexp]
    rfl
  have hzero : @Float.Model.UnpackedFloat.unpackMantissa .binary32 x.toBitVec = 0#_ ↔ x.toNat % 2 ^ 23 = 0 := by
    rw [← BitVec.toNat_inj, hman]
    rfl
  show (Float32.Model.ofBits x).unpack.isNaN = true ↔ _
  rw [hunpack, IsNan32]
  unfold Float.Model.UnpackedFloat.unpack
  dsimp only
  split
  · rename_i h
    rw [hones] at h
    split
    · rename_i h0
      rw [hzero] at h0
      simp [Float.Model.UnpackedFloat.isNaN]
      omega
    · rename_i h0
      rw [hzero] at h0
      simp [Float.Model.UnpackedFloat.isNaN]
      omega
  · rename_i h
    rw [hones] at h
    split
    · split <;> simp [Float.Model.UnpackedFloat.isNaN] <;> omega
    · simp [Float.Model.UnpackedFloat.isNaN]
      omega

theorem rounded_eq (k : Nat) : rounded (2 ^ 16) k = k / 2 ^ 16 + if RoundsDown k then 0 else 1 := by
  have hiff : (2 * (k % 2 ^ 16) < 2 ^ 16 ∨ 2 * (k % 2 ^ 16) = 2 ^ 16 ∧ k / 2 ^ 16 % 2 = 0) ↔ RoundsDown k := by
    unfold RoundsDown
    omega
  rw [rounded, if_congr hiff rfl rfl]

theorem roundingBias_toNat (x : UInt32) : (roundingBias x).toNat = x.toNat / 2 ^ 16 % 2 + 32767 := by
  have hone : ((x >>> 16) &&& 1).toNat = x.toNat / 65536 % 2 := by
    rw [UInt32.toNat_and, UInt32.toNat_shiftRight, Nat.shiftRight_eq_div_pow]
    simp only [UInt32.reduceToNat, Nat.reduceMod, Nat.reducePow]
    exact Nat.and_one_is_mod _
  rw [roundingBias, UInt32.toNat_add, hone]
  simp only [UInt32.reduceToNat, Nat.reducePow]
  omega

/-- Adding the bias and cutting is rounding, as long as it fits. -/
theorem biased_toNat (x : UInt32) :
    ((x + roundingBias x) >>> 16).toUInt16.toNat = rounded (2 ^ 16) x.toNat % 2 ^ 16 := by
  have hround := bias_div x.toNat
  rw [rounded_eq, UInt32.toNat_toUInt16, UInt32.toNat_shiftRight, UInt32.toNat_add, roundingBias_toNat,
    Nat.shiftRight_eq_div_pow]
  simp only [UInt32.reduceToNat, Nat.reduceMod, Nat.reducePow] at hround ⊢
  omega

theorem f32ToBf16Bits_eq (x : UInt32) : f32ToBf16Bits x = ((x + roundingBias x) >>> 16).toUInt16 := by
  simp only [f32ToBf16Bits, roundingBias, UInt32.add_comm ((x >>> 16) &&& 1)]

/-- The sign is above what is rounded. -/
theorem rounded_sign (x : Nat) :
    rounded (2 ^ 16) x = 2 ^ 15 * (x / 2 ^ 31) + rounded (2 ^ 16) (x % 2 ^ 31) := by
  have hiff : RoundsDown x ↔ RoundsDown (x % 2 ^ 31) := by
    unfold RoundsDown
    omega
  rw [rounded_eq, rounded_eq, if_congr hiff rfl rfl]
  omega

theorem rounded_le (x : UInt32) (h : ¬IsNan32 x) : rounded (2 ^ 16) (x.toNat % 2 ^ 31) ≤ 0x7F80 := by
  rw [rounded_eq]
  unfold IsNan32 at h
  split
  · omega
  · rename_i hup
    unfold RoundsDown at hup
    omega

/-! ### Numbers and infinities -/

theorem rne_toNat (x : UInt32) (h : ¬IsNan32 x) : (f32ToBf16BitsRne x).toNat = rounded (2 ^ 16) x.toNat := by
  have hlt := x.toNat_lt
  have hle := rounded_le x h
  have hsign := rounded_sign x.toNat
  rw [f32ToBf16BitsRne, if_neg (by rwa [isNaN_ofBits]), biased_toNat]
  omega

/-- The quantiser rounds to the nearest. -/
theorem represents_rne (x : UInt32) : Represents x (f32ToBf16BitsRne x) := by
  unfold Represents
  split
  · rename_i h
    rw [f32ToBf16BitsRne, if_pos ((isNaN_ofBits x).mpr h)]
    decide
  · rename_i h
    have hle := rounded_le x h
    have hsign := rounded_sign x.toNat
    constructor
    · rw [rne_toNat x h]
      omega
    · rw [nearestEven_iff (by decide), rne_toNat x h]
      omega

theorem rne_not_nan (x : UInt32) (h : ¬IsNan32 x) : ¬IsNan16 (f32ToBf16BitsRne x) := by
  have hle := rounded_le x h
  have hsign := rounded_sign x.toNat
  rw [IsNan16, rne_toNat x h]
  omega

theorem sameValue_iff {b b' : UInt16} (h : ¬IsNan16 b') : SameValue b b' ↔ b = b' := by
  simp [SameValue, h]

/-- The saver does what the quantiser does, whatever the pattern. -/
theorem saver_eq (x : UInt32) : f64ToBf16Bits (F32.asF64 (.ofBits x)) = f32ToBf16BitsRne x := by
  unfold f64ToBf16Bits f32ToBf16BitsRne
  rw [F64.asF32_asF64]
  dsimp only
  split
  · rfl
  · rename_i hnan
    rw [F32.toBits_ofBits (by simpa using hnan)]
    rfl

theorem compiled_eq (x : UInt32) (h : ¬IsNan32 x) : f32ToBf16Bits x = f32ToBf16BitsRne x := by
  rw [f32ToBf16Bits_eq, f32ToBf16BitsRne, if_neg (by rwa [isNaN_ofBits])]

theorem strict_toNat (x : UInt32) (h : ¬IsNan32 x) : (strictBits (F32.asF64 (.ofBits x))).toNat = x.toNat / 2 ^ 16 := by
  have hlt := x.toNat_lt
  have hbits : (Float32.Model.ofBits x).toBits = x := 
    F32.toBits_ofBits (Bool.eq_false_iff.mpr (by rwa [ne_eq, isNaN_ofBits]))
  rw [strictBits, F64.asF32_asF64, hbits, UInt32.toNat_toUInt16, UInt32.toNat_shiftRight, Nat.shiftRight_eq_div_pow]
  simp only [UInt32.reduceToNat, Nat.reduceMod, Nat.reducePow] at hlt ⊢
  omega

/-- The runtime cuts, which rounds down. -/
theorem strict_iff (x : UInt32) (h : ¬IsNan32 x) :
    SameValue (strictBits (F32.asF64 (.ofBits x))) (f32ToBf16BitsRne x) ↔ RoundsDown x.toNat := by
  rw [sameValue_iff (rne_not_nan x h), ← UInt16.toNat_inj, strict_toNat x h, rne_toNat x h, rounded_eq]
  split <;> simp [*]

theorem no_overflow (x : UInt32) (h : x.toNat % 2 ^ 31 < 0x7FFF8000) : x.toNat + (roundingBias x).toNat < 2 ^ 32 := by
  have hlt := x.toNat_lt
  rw [roundingBias_toNat]
  omega

theorem encodersAgree_number (x : UInt32) (h : ¬IsNan32 x) : EncodersAgree x ↔ RoundsDown x.toNat := by
  constructor
  · intro hagree
    exact (strict_iff x h).mp hagree.strict
  · intro hdown
    exact {
      strict := (strict_iff x h).mpr hdown
      saver := .inl (saver_eq x)
      compiled := .inl (compiled_eq x h)
      represents := represents_rne x
      no_overflow := no_overflow x (by unfold IsNan32 at h; omega) }

/-! ### NaNs -/

theorem strict_nan (x : UInt32) (h : IsNan32 x) : strictBits (F32.asF64 (.ofBits x)) = 0x7FC0 := by
  rw [strictBits, F64.asF32_asF64, F32.eq_nan ((isNaN_ofBits x).mpr h)]
  decide

theorem compiled_nan_iff (x : UInt32) (h : IsNan32 x) : IsNan16 (f32ToBf16Bits x) ↔ BiasKeepsNan x := by
  have hlt := x.toNat_lt
  have hsign := rounded_sign x.toNat
  have hdown : RoundsDown (x.toNat % 2 ^ 31) ↔ RoundsDown x.toNat := by
    unfold RoundsDown
    omega
  rw [rounded_eq (x.toNat % 2 ^ 31), if_congr hdown rfl rfl] at hsign
  have hbelow : x.toNat / 2 ^ 31 < 2 := by omega
  have hhalf : 0x7F80 ≤ x.toNat % 2 ^ 31 / 2 ^ 16 ∧ x.toNat % 2 ^ 31 / 2 ^ 16 < 2 ^ 15 := by
    unfold IsNan32 at h
    omega
  rw [IsNan16, f32ToBf16Bits_eq, biased_toNat, hsign, BiasKeepsNan]
  generalize x.toNat % 2 ^ 31 / 2 ^ 16 = half at hhalf ⊢
  generalize x.toNat / 2 ^ 31 = sign at hbelow ⊢
  by_cases hround : RoundsDown x.toNat
  · rw [if_pos hround]
    simp only [hround, not_true_eq_false, implies_true, and_true, imp_false]
    omega
  · rw [if_neg hround]
    simp only [hround, not_false_eq_true, implies_true, true_and, imp_false]
    omega

theorem encodersAgree_nan (x : UInt32) (h : IsNan32 x) : EncodersAgree x ↔ BiasKeepsNan x := by
  have hrne : f32ToBf16BitsRne x = 0x7FC0 := if_pos ((isNaN_ofBits x).mpr h)
  have hnan : IsNan16 (f32ToBf16BitsRne x) := by rw [hrne]; decide
  constructor
  · intro hagree
    rcases hagree.compiled with heq | ⟨hboth, -⟩
    · exact (compiled_nan_iff x h).mp (by rwa [heq])
    · exact (compiled_nan_iff x h).mp hboth
  · intro hkeeps
    exact {
      strict := .inl (by rw [strict_nan x h, hrne])
      saver := .inl (saver_eq x)
      compiled := .inr ⟨(compiled_nan_iff x h).mpr hkeeps, hnan⟩
      represents := represents_rne x
      no_overflow := by
        apply no_overflow
        have hlast := hkeeps.2
        unfold RoundsDown at hlast
        omega }

/-! ### Every pattern -/

/-- Where the four encoders are one, a number is not rounded up, and a NaN is not carried out of the NaNs; they are
the inverse of the decoders. -/
theorem encoders_iff (x : UInt32) (b : UInt16) :
    (EncodersAgree x ↔ if IsNan32 x then BiasKeepsNan x else RoundsDown x.toNat) ∧
    (¬IsNan16 b → strictBits (bf16AsF64 b) = b ∧ f64ToBf16Bits (bf16AsF64 b) = b ∧
      f32ToBf16BitsRne (bf16BitsToF32 b) = b ∧ f32ToBf16Bits (bf16BitsToF32 b) = b) := by
  constructor
  · split
    · rename_i h
      exact encodersAgree_nan x h
    · rename_i h
      exact encodersAgree_number x h
  · intro hb
    have hlt := b.toNat_lt
    have hpattern : (bf16BitsToF32 b).toNat = b.toNat * 2 ^ 16 := by
      rw [bf16BitsToF32, UInt32.toNat_shiftLeft, UInt16.toNat_toUInt32, Nat.shiftLeft_eq]
      exact Nat.mod_eq_of_lt (by simp only [UInt32.reduceToNat, Nat.reduceMod, Nat.reducePow]; omega)
    have hnan : ¬IsNan32 (bf16BitsToF32 b) := by
      unfold IsNan16 at hb
      rw [IsNan32, hpattern]
      omega
    have hdown : RoundsDown (bf16BitsToF32 b).toNat := by
      rw [hpattern]
      unfold RoundsDown
      omega
    have hrne : f32ToBf16BitsRne (bf16BitsToF32 b) = b := by
      rw [← UInt16.toNat_inj, rne_toNat _ hnan, rounded_eq, if_pos hdown, hpattern]
      omega
    have hstrict : strictBits (bf16AsF64 b) = f32ToBf16BitsRne (bf16BitsToF32 b) :=
      (sameValue_iff (rne_not_nan _ hnan)).mp ((strict_iff _ hnan).mpr hdown)
    exact ⟨hstrict.trans hrne, (saver_eq (bf16BitsToF32 b)).trans hrne, hrne, (compiled_eq _ hnan).trans hrne⟩

theorem three_halves : EncodersAgree 0x3FC00000 ∧ f32ToBf16Bits (bf16BitsToF32 0x3FC0) = 0x3FC0 :=
  ⟨(encoders_iff 0x3FC00000 0x3FC0).1.mpr (by decide), ((encoders_iff 0x3FC00000 0x3FC0).2 (by decide)).2.2.2⟩

/-- A number that the runtime cuts below its neighbour, and a NaN that the compiled code makes an infinity. -/
theorem above_the_middle : ¬EncodersAgree 0x3F80C000 ∧ ¬EncodersAgree 0x7F800001 := by
  constructor
  · intro h
    have hstrict : strictBits (F32.asF64 (.ofBits 0x3F80C000)) = 0x3F80 := by
      rw [strictBits, F64.asF32_asF64]
      decide
    have hsame := h.strict
    rw [hstrict] at hsame
    revert hsame
    decide
  · intro h
    exact absurd h.compiled (by decide)

end Bf16
end NnEngine
