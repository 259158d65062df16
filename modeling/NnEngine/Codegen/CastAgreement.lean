import NnEngine.Codegen.CpuCast

/-!
# The compiled cast against the folded one

Which elements a compiled cast, and compiled integer arithmetic, treats as constant folding does.  An extension
is signed in the compiled code and follows the source in constant folding.  An integer becomes an `f32` directly
in the one and by way of an `f64` in the other.  A float becomes a `bf16` by rounding to nearest in the one, by
cutting in the other, and is compared with zero before or after its fraction is dropped.
-/

namespace NnEngine
namespace CpuCast

open FloatFormat

/-! ### When they agree -/

/-- Cutting off the low half of a pattern rounds it to the nearest, to an even one from the middle. -/
def RoundsDown (bits : Nat) : Prop := bits % 2 ^ 16 < 2 ^ 15 ∨ bits % 2 ^ 16 = 2 ^ 15 ∧ bits / 2 ^ 16 % 2 = 0

instance (bits : Nat) : Decidable (RoundsDown bits) := inferInstanceAs (Decidable (_ ∨ _))

/-- The upper half of the second pattern is that of the first, rounded. -/
def CutMatches (y y' : F32) : Prop :=
  y'.toBits.toNat / 2 ^ 16 = y.toBits.toNat / 2 ^ 16 + if RoundsDown y.toBits.toNat then 0 else 1

/-- Rounding an integer to an `f64` first changes nothing, and a `bf16` is not cut off too low. -/
def IntToFloatAgrees (n : Int) : FloatType → Prop
  | .F64 => True
  | .F32 => significant 24 (significant 53 n.natAbs) = significant 24 n.natAbs
  | .BF16 => CutMatches (.ofInt n) (F64.asF32 (.ofInt n))

/-- A number that is not zero, with an integer part of zero. -/
def vanishes : Float.Model.UnpackedFloat → Bool
  | .finite s m e _ => Float.Model.UnpackedFloat.roundToInt s m e = 0
  | _ => false

/-- The sign bit of an unsigned number is not copied into a wider type. -/
def ExtendAgrees {w : Nat} (x : BitVec w) (w' : Nat) : Prop := w' ≤ w ∨ x.toNat < 2 ^ (w - 1)

/-- What a cast asks of the element. -/
def CastAgrees : Element → DataType → Prop
  | .uInt _ x, .sInt t => ExtendAgrees x t.bitWidth
  | .uInt _ x, .uInt t => ExtendAgrees x t.bitWidth
  | .uInt _ x, .float t => IntToFloatAgrees x.toNat t
  | .sInt _ x, .float t => IntToFloatAgrees x.toInt t
  | .bf16 bits, .bool => ¬vanishes (Float32.Model.ofBits (bits.toUInt32 <<< 16)).unpack
  | .f32 x, .bool => ¬vanishes x.unpack
  | .f64 x, .bool => ¬vanishes x.unpack
  | .f32 x, .float .BF16 => RoundsDown x.toBits.toNat
  | .f64 x, .float .BF16 => RoundsDown x.asF32.toBits.toNat
  | _, _ => True

/-- A number whose integer part is one of the type. -/
def FitsInt (x : Float.Model.UnpackedFloat) : DataType → Prop
  | .sInt t => ∃ n, integerPart x = some n ∧ -2 ^ (t.bitWidth - 1) ≤ n ∧ n < 2 ^ (t.bitWidth - 1)
  | .uInt t => ∃ n, integerPart x = some n ∧ 0 ≤ n ∧ n < 2 ^ t.bitWidth
  | _ => True

/-- The cast has a result: only a float may not fit. -/
def CastDefined (x : Element) (target : DataType) : Prop :=
  match (load x).unpack with
  | some x => FitsInt x target
  | none => True

/-- The exact result is a value of the type. -/
def ArithDefined (op : ArithOp) : Element → Element → Prop
  | .sInt t x, .sInt t' y => t = t' ∧
      ∃ r, op.exact x.toInt y.toInt = some r ∧ -2 ^ (t.bitWidth - 1) ≤ r ∧ r < 2 ^ (t.bitWidth - 1)
  | .uInt t x, .uInt t' y => t = t' ∧ ∃ r, op.exact x.toNat y.toNat = some r ∧ 0 ≤ r ∧ r < 2 ^ t.bitWidth
  | _, _ => False

/-- What a signed division asks of unsigned numbers. -/
def DivAgrees (w x y : Nat) : Prop := x < 2 ^ (w - 1) ∧ (y < 2 ^ (w - 1) ∨ x + y < 2 ^ w) ∨ y = 1 ∨ x = y

def ArithAgrees : ArithOp → Element → Element → Prop
  | .Div, .uInt t x, .uInt _ y => DivAgrees t.bitWidth x.toNat y.toNat
  | _, _, _ => True

/-! ### Integers -/

variable {w w' : Nat}

theorem signExtend_eq_setWidth_iff (x : BitVec w) :
    x.signExtend w' = x.setWidth w' ↔ w' ≤ w ∨ x.msb = false := by
  constructor
  · intro h
    by_contra hnot
    simp only [not_or, Nat.not_le, Bool.not_eq_false] at hnot
    have hbit := congrArg (·.getLsbD w) h
    simp [hnot, BitVec.getElem_signExtend] at hbit
  · rintro (hle | hmsb)
    · exact BitVec.signExtend_eq_setWidth_of_le x hle
    · exact BitVec.signExtend_eq_setWidth_of_msb_false hmsb

theorem extendAgrees_iff (x : BitVec w) : ExtendAgrees x w' ↔ x.signExtend w' = x.setWidth w' := by
  rw [signExtend_eq_setWidth_iff, ExtendAgrees, BitVec.msb_eq_false_iff_two_mul_lt]
  refine or_congr_right ?_
  cases w with
  | zero => simp [BitVec.eq_nil x]
  | succ w => rw [Nat.add_sub_cancel, Nat.pow_succ]; omega

theorem setWidth_signExtend (x : BitVec w) (h : w' ≤ 64) : (x.signExtend 64).setWidth w' = x.signExtend w' := by
  ext i hi
  have hlt : i < 64 := by omega
  simp [BitVec.getElem_signExtend, hlt]

theorem setWidth_setWidth (x : BitVec w) (h : w' ≤ 64) : (x.setWidth 64).setWidth w' = x.setWidth w' :=
  BitVec.setWidth_setWidth_of_le x h


theorem SIntType.bitWidth_le (t : SIntType) : 2 ≤ t.bitWidth ∧ t.bitWidth ≤ 64 := by cases t <;> decide

theorem UIntType.bitWidth_le (t : UIntType) : 2 ≤ t.bitWidth ∧ t.bitWidth ≤ 64 := by cases t <;> decide

theorem store_sInt (t : SIntType) (x : BitVec t.bitWidth) : store (.sInt t) (.int t.bitWidth x) = some (.sInt t x) := by
  simp [store]

theorem store_uInt (t : UIntType) (x : BitVec t.bitWidth) : store (.uInt t) (.int t.bitWidth x) = some (.uInt t x) := by
  simp [store]

/-- An integer cast of the compiled code copies the sign bit, whatever the types are. -/
theorem castElement_sInt_sInt (t t' : SIntType) (x : BitVec t.bitWidth) :
    castElement (.sInt t x) (.sInt t') = some (.sInt t' (x.signExtend _)) := by
  unfold castElement
  show (if t = t' then some (Value.int t.bitWidth x)
    else (Value.int t.bitWidth x).intCast t'.bitWidth).bind (store (.sInt t')) = _
  split
  · rename_i heq
    subst heq
    rw [Option.bind_some, store_sInt, BitVec.signExtend_eq]
  · exact store_sInt t' _

theorem castElement_uInt_uInt (t t' : UIntType) (x : BitVec t.bitWidth) :
    castElement (.uInt t x) (.uInt t') = some (.uInt t' (x.signExtend _)) := by
  unfold castElement
  show (if t = t' then some (Value.int t.bitWidth x)
    else (Value.int t.bitWidth x).intCast t'.bitWidth).bind (store (.uInt t')) = _
  split
  · rename_i heq
    subst heq
    rw [Option.bind_some, store_uInt, BitVec.signExtend_eq]
  · exact store_uInt t' _

theorem castElement_sInt_uInt (t : SIntType) (t' : UIntType) (x : BitVec t.bitWidth) :
    castElement (.sInt t x) (.uInt t') = some (.uInt t' (x.signExtend _)) := store_uInt t' _

theorem castElement_uInt_sInt (t : UIntType) (t' : SIntType) (x : BitVec t.bitWidth) :
    castElement (.uInt t x) (.sInt t') = some (.sInt t' (x.signExtend _)) := store_sInt t' _

/-- Constant folding has a signed number with its sign. -/
theorem foldedElement_sInt_sInt (t t' : SIntType) (x : BitVec t.bitWidth) :
    foldedElement (.sInt t x) (.sInt t') = .sInt t' (x.signExtend _) :=
  congrArg (Element.sInt t') (setWidth_signExtend x (SIntType.bitWidth_le t').2)

theorem foldedElement_sInt_uInt (t : SIntType) (t' : UIntType) (x : BitVec t.bitWidth) :
    foldedElement (.sInt t x) (.uInt t') = .uInt t' (x.signExtend _) :=
  congrArg (Element.uInt t') (setWidth_signExtend x (UIntType.bitWidth_le t').2)

/-- Constant folding has an unsigned number with zeros in front. -/
theorem foldedElement_uInt_sInt (t : UIntType) (t' : SIntType) (x : BitVec t.bitWidth) :
    foldedElement (.uInt t x) (.sInt t') = .sInt t' (x.setWidth _) :=
  congrArg (Element.sInt t') (setWidth_setWidth x (SIntType.bitWidth_le t').2)

theorem foldedElement_uInt_uInt (t t' : UIntType) (x : BitVec t.bitWidth) :
    foldedElement (.uInt t x) (.uInt t') = .uInt t' (x.setWidth _) :=
  congrArg (Element.uInt t') (setWidth_setWidth x (UIntType.bitWidth_le t').2)

theorem ext_eq_zero_iff {y : BitVec 64} {x : BitVec w} (hw : w ≤ 64) (h : y = x.signExtend 64 ∨ y = x.setWidth 64) :
    (⟨⟨y⟩⟩ : Int64) ≠ 0 ↔ x ≠ 0#w := by
  have hback : y.setWidth w = x := by
    rcases h with rfl | rfl
    · rw [setWidth_signExtend x hw, BitVec.signExtend_eq]
    · rw [setWidth_setWidth x hw, BitVec.setWidth_eq]
  have hzero : (⟨⟨y⟩⟩ : Int64) = 0 ↔ y = 0#64 :=
    ⟨fun heq => congrArg Int64.toBitVec heq, fun heq => congrArg (fun y => (⟨⟨y⟩⟩ : Int64)) heq⟩
  rw [ne_eq, hzero, not_iff_not]
  constructor
  · rintro rfl
    rw [← hback, BitVec.setWidth_zero]
  · rintro rfl
    rcases h with h | h
    · rw [h, (signExtend_eq_setWidth_iff _).mpr (.inr (by simp)), BitVec.setWidth_zero]
    · rw [h, BitVec.setWidth_zero]

theorem store_flag (b : Bool) : store .bool (.flag b) = some (.bool b) := by cases b <;> rfl

theorem strict_flag (v : Int64) : strict (.bool (if v ≠ 0 then 1 else 0)) = .bool (decide (v ≠ 0)) := by
  by_cases h : v ≠ 0
  · rw [if_pos h, decide_eq_true h]
    rfl
  · rw [if_neg h, decide_eq_false h]
    rfl

/-! ### Integers as floats -/

theorem F32.pack_injective {x y : Float.Model.UnpackedFloat} (hx : Canonical .binary32 x) (hy : Canonical .binary32 y)
    (h : Float32.Model.pack x = .pack y) : x = y := by
  have hunpack : (Float32.Model.pack x).unpack = (Float32.Model.pack y).unpack := by rw [h]
  have hx' : (Float32.Model.pack x).unpack = x := unpack_pack hx
  have hy' : (Float32.Model.pack y).unpack = y := unpack_pack hy
  rw [← hx', hunpack, hy']

theorem canonical_binary32 {n : Int} (h : n.natAbs.log2 ≤ 64) :
    Canonical .binary32 (Float.Model.UnpackedFloat.ofInt .binary32 n) := by
  have hspec : Float.Model.Format.binary32.minExponent ≤ 1 - Float.Model.Format.binary32.mantissaBits := by decide
  have hbias : Float.Model.Format.binary32.exponentBias = 127 := by decide
  have hbits : Float.Model.Format.binary32.exponentBits = 8 := rfl
  apply canonical_ofInt hspec
  rw [hbias, hbits]
  omega

theorem canonical_binary64 {n : Int} (h : n.natAbs.log2 ≤ 64) :
    Canonical .binary64 (Float.Model.UnpackedFloat.ofInt .binary64 n) := by
  have hspec : Float.Model.Format.binary64.minExponent ≤ 1 - Float.Model.Format.binary64.mantissaBits := by decide
  have hbias : Float.Model.Format.binary64.exponentBias = 1023 := by decide
  have hbits : Float.Model.Format.binary64.exponentBits = 11 := rfl
  apply canonical_ofInt hspec
  rw [hbias, hbits]
  omega

theorem log2_significant {n : Int} (hn : n.natAbs.log2 ≤ 63) :
    (n.sign * (significant 53 n.natAbs : Int)).natAbs.log2 ≤ 64 := by
  rcases eq_or_ne n 0 with rfl | hne
  · decide
  · have hpos := Int.natAbs_pos.mpr hne
    have hsig := significant_pos (p := 53) hpos (by decide)
    have hle := significant_le (p := 53) hpos (by decide)
    have hpow : 2 ^ (n.natAbs.log2 + 1) ≤ 2 ^ 64 := Nat.pow_le_pow_right Nat.two_pos (by omega)
    rw [Int.natAbs_mul, Int.natAbs_sign_of_ne_zero hne, Nat.one_mul, Int.natAbs_natCast]
    refine Nat.lt_succ_iff.mp ((Nat.log2_lt hsig.ne').mpr (lt_of_le_of_lt (hle.trans hpow) ?_))
    exact Nat.pow_lt_pow_right (by decide) (by decide)

/-- Rounding an integer to an `f64` and then to an `f32`. -/
theorem asF32_ofInt_iff {n : Int} (hn : n.natAbs.log2 ≤ 63) :
    F64.asF32 (.ofInt n) = .ofInt n ↔ significant 24 (significant 53 n.natAbs) = significant 24 n.natAbs := by
  have hspec32 : Float.Model.Format.binary32.minExponent ≤ 1 - Float.Model.Format.binary32.mantissaBits := by decide
  have hspec64 : Float.Model.Format.binary64.minExponent ≤ 1 - Float.Model.Format.binary64.mantissaBits := by decide
  have h64 := canonical_binary64 (n := n) (by omega)
  have h32 := canonical_binary32 (n := n) (by omega)
  have htwice : Canonical .binary32 (convert .binary32 (Float.Model.UnpackedFloat.ofInt .binary64 n)) := by
    rw [convert_ofInt hspec64]
    exact canonical_binary32 (log2_significant hn)
  have hasF32 : F64.asF32 (.ofInt n) =
      .pack (convert .binary32 (Float.Model.UnpackedFloat.ofInt .binary64 n)) :=
    congrArg (fun x => Float32.Model.pack (convert .binary32 x)) (unpack_pack h64)
  have hiff : convert .binary32 (Float.Model.UnpackedFloat.ofInt .binary64 n) = .ofInt .binary32 n ↔
      significant 24 (significant 53 n.natAbs) = significant 24 n.natAbs :=
    convert_ofInt_eq_iff hspec32 hspec64 n
  rw [hasF32]
  constructor
  · intro h
    exact hiff.mp (F32.pack_injective htwice h32 h)
  · intro h
    exact congrArg Float32.Model.pack (hiff.mpr h)

/-! ### Patterns -/

theorem toNat_unpackExponent (n : UInt32) :
    (@Float.Model.UnpackedFloat.unpackExponent .binary32 n.toBitVec).toNat = n.toNat / 2 ^ 23 % 2 ^ 8 := by
  unfold Float.Model.UnpackedFloat.unpackExponent
  rw [BitVec.toNat_cast, BitVec.extractLsb_toNat, Nat.shiftRight_eq_div_pow]
  rfl

theorem toNat_unpackMantissa (n : UInt32) :
    (@Float.Model.UnpackedFloat.unpackMantissa .binary32 n.toBitVec).toNat = n.toNat % 2 ^ 23 := by
  unfold Float.Model.UnpackedFloat.unpackMantissa
  rw [BitVec.toNat_cast, BitVec.extractLsb_toNat, Nat.shiftRight_zero]
  rfl

/-- No pattern is above that of the negative infinity. -/
theorem F32.toBits_le (y : F32) : y.toBits.toNat ≤ 0xFF800000 := by
  by_contra hgt
  have hlt := y.toBits.toNat_lt
  have hones : @Float.Model.UnpackedFloat.unpackExponent .binary32 y.toBits.toBitVec = -1#_ := by
    apply BitVec.eq_of_toNat_eq
    rw [toNat_unpackExponent]
    show _ = 255
    omega
  have hne : @Float.Model.UnpackedFloat.unpackMantissa .binary32 y.toBits.toBitVec ≠ 0#_ := by
    intro hzero
    have hnat := congrArg BitVec.toNat hzero
    rw [toNat_unpackMantissa] at hnat
    have hnat : y.toBits.toNat % 2 ^ 23 = 0 := hnat
    omega
  have hnan := congrArg BitVec.toNat (y.valid.eq_packedNaN hones hne)
  have hnan : y.toBits.toNat = 0x7FC00000 := hnan
  omega

/-- Adding the bias and cutting rounds to the nearest. -/
theorem bias_div (k : Nat) : (k + (k / 65536 % 2 + 32767)) / 65536 = k / 65536 + if RoundsDown k then 0 else 1 := by
  have hlsb := Nat.mod_two_eq_zero_or_one (k / 65536)
  have hlow : k % 65536 < 65536 := Nat.mod_lt k (by decide)
  have hsplit : k = 65536 * (k / 65536) + k % 65536 := (Nat.div_add_mod k 65536).symm
  generalize hq : k / 65536 = q at hlsb hsplit ⊢
  generalize hr : k % 65536 = r at hlow hsplit ⊢
  by_cases hdown : RoundsDown k
  · rw [if_pos hdown]
    simp only [RoundsDown, Nat.reducePow, hq, hr] at hdown
    omega
  · rw [if_neg hdown]
    simp only [RoundsDown, Nat.reducePow, hq, hr] at hdown
    omega

theorem f32ToBf16Bits_toNat (y : F32) : (f32ToBf16Bits y).toNat =
    y.toBits.toNat / 2 ^ 16 + if RoundsDown y.toBits.toNat then 0 else 1 := by
  have hle := F32.toBits_le y
  unfold f32ToBf16Bits
  generalize y.toBits = n at hle ⊢
  have hone : ((n >>> 16) &&& 1).toNat = n.toNat / 65536 % 2 := by
    rw [UInt32.toNat_and, UInt32.toNat_shiftRight, Nat.shiftRight_eq_div_pow]
    simp only [UInt32.reduceToNat, Nat.reduceMod, Nat.reducePow]
    exact Nat.and_one_is_mod _
  have hbias : (((n >>> 16) &&& 1) + (0x7FFF : UInt32)).toNat = n.toNat / 65536 % 2 + 32767 := by
    rw [UInt32.toNat_add, hone]
    simp only [UInt32.reduceToNat, Nat.reducePow]
    omega
  rw [UInt32.toNat_toUInt16, UInt32.toNat_shiftRight, UInt32.toNat_add, hbias, Nat.shiftRight_eq_div_pow]
  simp only [UInt32.reduceToNat, Nat.reduceMod, Nat.reducePow]
  rw [Nat.mod_eq_of_lt (b := 4294967296) (by omega), bias_div]
  apply Nat.mod_eq_of_lt
  split <;> omega

theorem bf16_eq_iff (y y' : F32) : f32ToBf16Bits y = (y'.toBits >>> 16).toUInt16 ↔ CutMatches y y' := by
  rw [← UInt16.toNat_inj, f32ToBf16Bits_toNat, CutMatches]
  have hlt := y'.toBits.toNat_lt
  have hcut : (y'.toBits >>> 16).toUInt16.toNat = y'.toBits.toNat / 2 ^ 16 := by
    rw [UInt32.toNat_toUInt16, UInt32.toNat_shiftRight, Nat.shiftRight_eq_div_pow]
    simp only [UInt32.reduceToNat, Nat.reduceMod, Nat.reducePow] at hlt ⊢
    omega
  rw [hcut, eq_comm]

/-! ### The casts -/

/-- What an integer becomes as a float in memory, through an `f64` or at once. -/
theorem intToFloat_iff {n : Int} (hn : n.natAbs.log2 ≤ 63) (t : FloatType) :
    store (.float t) (.ofInt t n) = some (strict (.float t (.ofInt n))) ↔ IntToFloatAgrees n t := by
  cases t with
  | F64 => exact iff_of_true rfl trivial
  | F32 =>
      rw [IntToFloatAgrees, ← asF32_ofInt_iff hn, eq_comm]
      simp [store, strict, Value.ofInt]
  | BF16 =>
      rw [IntToFloatAgrees, ← bf16_eq_iff]
      simp [store, strict, Value.ofInt]

theorem log2_natAbs_toInt {x : BitVec w} (hw : w ≤ 64) : x.toInt.natAbs.log2 ≤ 63 := by
  have hle := BitVec.le_two_mul_toInt (x := x)
  have hlt := BitVec.two_mul_toInt_lt (x := x)
  have hpow : (2 : Int) ^ w ≤ 2 ^ 64 := pow_le_pow_right₀ (by decide) hw
  rcases Nat.eq_zero_or_pos x.toInt.natAbs with hzero | hpos
  · rw [hzero]
    decide
  · refine Nat.lt_succ_iff.mp ((Nat.log2_lt hpos.ne').mpr ?_)
    omega

theorem log2_toNat {x : BitVec w} (hw : w ≤ 64) : (x.toNat : Int).natAbs.log2 ≤ 63 := by
  have hlt := x.isLt
  have hpow : 2 ^ w ≤ 2 ^ 64 := Nat.pow_le_pow_right Nat.two_pos hw
  rw [Int.natAbs_natCast]
  rcases Nat.eq_zero_or_pos x.toNat with hzero | hpos
  · rw [hzero]
    decide
  · exact Nat.lt_succ_iff.mp ((Nat.log2_lt hpos.ne').mpr (by omega))

theorem castElement_sInt_iff (t : SIntType) (x : BitVec t.bitWidth) (target : DataType) :
    castElement (.sInt t x) target = some (foldedElement (.sInt t x) target) ↔ CastAgrees (.sInt t x) target := by
  have hw := (SIntType.bitWidth_le t).2
  cases target with
  | bool =>
      have hfold : foldedElement (.sInt t x) .bool = .bool (decide ((⟨⟨x.signExtend 64⟩⟩ : Int64) ≠ 0)) :=
        strict_flag ⟨⟨x.signExtend 64⟩⟩
      have hcast : castElement (.sInt t x) .bool = some (.bool (decide (x ≠ 0#t.bitWidth))) := store_flag _
      have hiff : decide ((⟨⟨x.signExtend 64⟩⟩ : Int64) ≠ 0) = decide (x ≠ 0#t.bitWidth) :=
        decide_eq_decide.mpr (ext_eq_zero_iff hw (.inl rfl))
      exact iff_of_true (by rw [hfold, hcast, hiff]) trivial
  | sInt t' => exact iff_of_true (by rw [castElement_sInt_sInt, foldedElement_sInt_sInt]) trivial
  | uInt t' => exact iff_of_true (by rw [castElement_sInt_uInt, foldedElement_sInt_uInt]) trivial
  | float t' =>
      have htoInt : (x.signExtend 64).toInt = x.toInt := BitVec.toInt_signExtend_of_le hw
      have hfold : foldedElement (.sInt t x) (.float t') = strict (.float t' (.ofInt x.toInt)) := by
        rw [← htoInt]
        rfl
      rw [hfold]
      exact intToFloat_iff (log2_natAbs_toInt hw) t'

theorem castElement_uInt_iff (t : UIntType) (x : BitVec t.bitWidth) (target : DataType) :
    castElement (.uInt t x) target = some (foldedElement (.uInt t x) target) ↔ CastAgrees (.uInt t x) target := by
  have hw := (UIntType.bitWidth_le t).2
  cases target with
  | bool =>
      have hfold : foldedElement (.uInt t x) .bool = .bool (decide ((⟨⟨x.setWidth 64⟩⟩ : Int64) ≠ 0)) :=
        strict_flag ⟨⟨x.setWidth 64⟩⟩
      have hcast : castElement (.uInt t x) .bool = some (.bool (decide (x ≠ 0#t.bitWidth))) := store_flag _
      have hiff : decide ((⟨⟨x.setWidth 64⟩⟩ : Int64) ≠ 0) = decide (x ≠ 0#t.bitWidth) :=
        decide_eq_decide.mpr (ext_eq_zero_iff hw (.inr rfl))
      exact iff_of_true (by rw [hfold, hcast, hiff]) trivial
  | sInt t' =>
      rw [castElement_uInt_sInt, foldedElement_uInt_sInt]
      show _ ↔ ExtendAgrees x t'.bitWidth
      rw [extendAgrees_iff]
      simp
  | uInt t' =>
      rw [castElement_uInt_uInt, foldedElement_uInt_uInt]
      show _ ↔ ExtendAgrees x t'.bitWidth
      rw [extendAgrees_iff]
      simp
  | float t' =>
      have htoNat : (x.setWidth 64).toNat = x.toNat := by
        rw [BitVec.toNat_setWidth]
        exact Nat.mod_eq_of_lt (lt_of_lt_of_le x.isLt (Nat.pow_le_pow_right Nat.two_pos hw))
      have hfold : foldedElement (.uInt t x) (.float t') = strict (.float t' (.ofInt x.toNat)) := by
        rw [← htoNat]
        rfl
      rw [hfold]
      exact intToFloat_iff (log2_toNat hw) t'

theorem castElement_bool_eq (b : Bool) (target : DataType) :
    castElement (.bool b) target = some (foldedElement (.bool b) target) := by
  cases target with
  | bool => cases b <;> rfl
  | sInt t => cases b <;> cases t <;> rfl
  | uInt t => cases b <;> cases t <;> rfl
  | float t => cases b <;> cases t <;> rfl

/-! ### Casts of floats -/

theorem setWidth_ofInt {n : Int} (hw : w ≤ 64) (hle : -2 ^ 63 ≤ n) (hlt : n < 2 ^ 63) :
    (BitVec.ofInt 64 n).setWidth w = BitVec.ofInt w n := by
  rw [← BitVec.signExtend_eq_setWidth_of_le _ hw, BitVec.signExtend,
    BitVec.toInt_ofInt_eq_self (by decide) hle hlt]

/-- A float in a register and the `f64` that constant folding has are the same number. -/
structure SameNumber (z v : Float.Model.UnpackedFloat) : Prop where
  integer : integerPart v = integerPart z
  nonzero : Value.isNonzero v = Value.isNonzero z
  vanishing : vanishes v = vanishes z

theorem sameNumber_asF64 (y : F32) : SameNumber y.unpack y.asF64.unpack := by
  have hcanonical : Canonical .binary32 y.unpack := canonical_unpack (by decide) _
  have hunpack : y.asF64.unpack = convert .binary64 y.unpack := unpack_pack (hcanonical.wider binary32_narrower)
  have hinteger := integerPart_convert binary32_narrower hcanonical
  rw [hunpack]
  refine ⟨hinteger, ?_, ?_⟩
  · cases hz : y.unpack with
    | finite s m e hm =>
        rw [hz] at hcanonical
        obtain ⟨k, hmk, hround, -⟩ := round_wider (s := s) binary32_narrower hm hcanonical.1
        show Value.isNonzero (.round .binary64 s m e) = _
        rw [hround]
        rfl
    | _ => rfl
  · cases hz : y.unpack with
    | finite s m e hm =>
        rw [hz] at hcanonical hinteger
        obtain ⟨k, hmk, hround, -⟩ := round_wider (s := s) binary32_narrower hm hcanonical.1
        have hinteger : integerPart (.round .binary64 s m e) = _ := hinteger
        show vanishes (.round .binary64 s m e) = _
        rw [hround] at hinteger ⊢
        have hsame := Option.some.inj hinteger
        rw [vanishes, vanishes, hsame]
    | _ => rfl

theorem toBitVec_toInt64 {v : F64} {n : Int} (h : integerPart v.unpack = some n) (hle : -2 ^ 63 ≤ n)
    (hlt : n < 2 ^ 63) : v.toInt64.toBitVec = BitVec.ofInt 64 n := by
  have hval : v.unpack.toInt Int64.minValue.toInt Int64.maxValue.toInt = n := by
    cases hv : v.unpack with
    | zero s => rw [hv] at h; exact Option.some.inj h
    | finite s m e hm => rw [hv] at h; exact Option.some.inj h
    | infinity s => rw [hv] at h; cases h
    | notANumber => rw [hv] at h; cases h
  have hclamp : v.toInt64 = Int64.ofIntClamp n := congrArg Int64.ofIntClamp hval
  have hmin : Int64.minValue.toInt = -2 ^ 63 := by decide
  have hmax : Int64.maxValue.toInt = 2 ^ 63 - 1 := by decide
  rw [hclamp, Int64.ofIntClamp, dif_pos (by omega), dif_pos (by omega)]
  rfl

theorem toBitVec_toUInt64 {v : F64} {n : Int} (h : integerPart v.unpack = some n) (hle : 0 ≤ n)
    (hlt : n < 2 ^ 64) : v.toUInt64.toBitVec = BitVec.ofInt 64 n := by
  have hval : v.unpack.toInt 0 (UInt64.size - 1) = n := by
    cases hv : v.unpack with
    | zero s => rw [hv] at h; exact Option.some.inj h
    | finite s m e hm => rw [hv] at h; exact Option.some.inj h
    | infinity s => rw [hv] at h; cases h
    | notANumber => rw [hv] at h; cases h
  have hclamp : v.toUInt64 = UInt64.ofNatClamp n.toNat :=
    congrArg (fun n : Int => UInt64.ofNatClamp n.toNat) hval
  have hsize : n.toNat < UInt64.size := by
    show n.toNat < 2 ^ 64
    omega
  rw [hclamp, UInt64.ofNatClamp_eq_ofNat _ hsize]
  show BitVec.ofNat 64 n.toNat = _
  rw [← BitVec.ofInt_natCast, Int.toNat_of_nonneg hle]

theorem ofIntClamp_eq_zero_iff (n : Int) : Int64.ofIntClamp n = 0 ↔ n = 0 := by
  have hmin : Int64.minValue.toInt = -2 ^ 63 := by decide
  have hmax : Int64.maxValue.toInt = 2 ^ 63 - 1 := by decide
  constructor
  · intro h
    unfold Int64.ofIntClamp at h
    split at h
    · split at h
      · have hn := congrArg Int64.toInt h
        rw [Int64.ofIntLE, Int64.toInt_ofInt_of_le (by omega) (by omega)] at hn
        exact hn
      · exact absurd h (by decide)
    · exact absurd h (by decide)
  · rintro rfl
    decide

/-- Only a fraction below one becomes zero in an `i64`. -/
theorem toInt64_ne_zero_iff (v : F64) :
    v.toInt64 ≠ 0 ↔ Value.isNonzero v.unpack = true ∧ vanishes v.unpack = false := by
  show Int64.ofIntClamp (v.unpack.toInt Int64.minValue.toInt Int64.maxValue.toInt) ≠ 0 ↔ _
  rw [ne_eq, ofIntClamp_eq_zero_iff]
  cases v.unpack with
  | notANumber => decide
  | zero s => cases s <;> decide
  | infinity s => cases s <;> decide
  | finite s m e hm => simp [Float.Model.UnpackedFloat.toInt, Value.isNonzero, vanishes]

section Floats

variable {x : Element} {t : FloatType} {z : Float.Model.UnpackedFloat} {v : F64} {n : Int}
  (htype : x.type = .float t) (hload : (load x).unpack = some z) (hhost : host x = .float t v)
  (hsame : SameNumber z v.unpack)
include htype hload hhost hsame

theorem castElement_float_bool_iff :
    castElement x .bool = some (foldedElement x .bool) ↔ ¬vanishes z := by
  have hcast : castElement x .bool = some (.bool (Value.isNonzero z)) := by
    unfold castElement
    rw [htype]
    show ((load x).floatIsNonzero.map Value.flag).bind (store .bool) = _
    rw [Value.floatIsNonzero, hload]
    exact store_flag _
  have hfold : foldedElement x .bool = .bool (decide (v.toInt64 ≠ 0)) := by
    unfold foldedElement
    rw [hhost]
    exact strict_flag v.toInt64
  have himp : vanishes z = true → Value.isNonzero z = true := by
    cases z with
    | finite s m e hm => exact fun _ => rfl
    | _ => exact fun h => absurd h Bool.false_ne_true
  rw [hcast, hfold, Option.some_inj, Element.bool.injEq, eq_comm, Bool.eq_iff_iff, decide_eq_true_iff,
    toInt64_ne_zero_iff, hsame.nonzero, hsame.vanishing, ← Bool.not_eq_true]
  constructor
  · intro h hvanish
    exact (h.mpr (himp hvanish)).2 hvanish
  · exact fun h => ⟨And.left, fun hnonzero => ⟨hnonzero, h⟩⟩

theorem castElement_float_sInt (target : SIntType) (hn : integerPart z = some n)
    (hle : -2 ^ (target.bitWidth - 1) ≤ n) (hlt : n < 2 ^ (target.bitWidth - 1)) :
    castElement x (.sInt target) = some (foldedElement x (.sInt target)) := by
  have hw := SIntType.bitWidth_le target
  have hpow : (2 : Int) ^ (target.bitWidth - 1) ≤ 2 ^ 63 := pow_le_pow_right₀ (by decide) (by omega)
  have hcast : castElement x (.sInt target) = some (.sInt target (.ofInt _ n)) := by
    unfold castElement
    rw [htype]
    show ((load x).floatToSignedInt target.bitWidth).bind (store (.sInt target)) = _
    unfold Value.floatToSignedInt
    simp only [hload, hn, Option.bind_eq_bind, Option.bind_some]
    rw [if_pos ⟨hle, hlt⟩]
    exact store_sInt target _
  have hfold : foldedElement x (.sInt target) = .sInt target (v.toInt64.toBitVec.setWidth _) := by
    unfold foldedElement
    rw [hhost]
    rfl
  rw [hcast, hfold, toBitVec_toInt64 (hsame.integer.trans hn) (by omega) (by omega),
    setWidth_ofInt hw.2 (by omega) (by omega)]

theorem castElement_float_uInt (target : UIntType) (hn : integerPart z = some n) (hle : 0 ≤ n)
    (hlt : n < 2 ^ target.bitWidth) : castElement x (.uInt target) = some (foldedElement x (.uInt target)) := by
  have hw := UIntType.bitWidth_le target
  have hpow : (2 : Int) ^ target.bitWidth ≤ 2 ^ 64 := pow_le_pow_right₀ (by decide) hw.2
  have hcast : castElement x (.uInt target) = some (.uInt target (.ofInt _ n)) := by
    unfold castElement
    rw [htype]
    show ((load x).floatToUnsignedInt target.bitWidth).bind (store (.uInt target)) = _
    unfold Value.floatToUnsignedInt
    simp only [hload, hn, Option.bind_eq_bind, Option.bind_some]
    rw [if_pos ⟨hle, hlt⟩]
    exact store_uInt target _
  have hfold : foldedElement x (.uInt target) = .uInt target (v.toUInt64.toBitVec.setWidth _) := by
    unfold foldedElement
    rw [hhost]
    rfl
  have hnat : BitVec.ofInt 64 n = BitVec.ofNat 64 n.toNat := by
    rw [← BitVec.ofInt_natCast, Int.toNat_of_nonneg hle]
  have hnat' : BitVec.ofInt target.bitWidth n = BitVec.ofNat _ n.toNat := by
    rw [← BitVec.ofInt_natCast, Int.toNat_of_nonneg hle]
  rw [hcast, hfold, toBitVec_toUInt64 (hsame.integer.trans hn) hle (by omega), hnat, hnat',
    BitVec.setWidth_ofNat_of_le hw.2]

end Floats

theorem cutMatches_self (y : F32) : CutMatches y y ↔ RoundsDown y.toBits.toNat := by
  unfold CutMatches
  split
  · exact iff_of_true rfl ‹_›
  · exact iff_of_false (by omega) ‹_›

theorem castElement_f32_iff (y : F32) (target : DataType) (h : CastDefined (.f32 y) target) :
    castElement (.f32 y) target = some (foldedElement (.f32 y) target) ↔ CastAgrees (.f32 y) target := by
  have hsame := sameNumber_asF64 y
  cases target with
  | bool => exact castElement_float_bool_iff rfl rfl rfl hsame
  | sInt t =>
      obtain ⟨n, hn, hle, hlt⟩ := h
      exact iff_of_true (castElement_float_sInt rfl rfl rfl hsame t hn hle hlt) trivial
  | uInt t =>
      obtain ⟨n, hn, hle, hlt⟩ := h
      exact iff_of_true (castElement_float_uInt rfl rfl rfl hsame t hn hle hlt) trivial
  | float t =>
      cases t with
      | F64 => exact iff_of_true rfl trivial
      | F32 =>
          refine iff_of_true ?_ trivial
          show some (Element.f32 y) = some (.f32 (F64.asF32 (F32.asF64 y)))
          rw [F64.asF32_asF64]
      | BF16 =>
          show some (Element.bf16 (f32ToBf16Bits y)) =
            some (.bf16 ((F64.asF32 (F32.asF64 y)).toBits >>> 16).toUInt16) ↔ RoundsDown y.toBits.toNat
          rw [F64.asF32_asF64, Option.some_inj, Element.bf16.injEq, bf16_eq_iff, cutMatches_self]

theorem castElement_f64_iff (x : F64) (target : DataType) (h : CastDefined (.f64 x) target) :
    castElement (.f64 x) target = some (foldedElement (.f64 x) target) ↔ CastAgrees (.f64 x) target := by
  have hsame : SameNumber x.unpack x.unpack := ⟨rfl, rfl, rfl⟩
  cases target with
  | bool => exact castElement_float_bool_iff rfl rfl rfl hsame
  | sInt t =>
      obtain ⟨n, hn, hle, hlt⟩ := h
      exact iff_of_true (castElement_float_sInt rfl rfl rfl hsame t hn hle hlt) trivial
  | uInt t =>
      obtain ⟨n, hn, hle, hlt⟩ := h
      exact iff_of_true (castElement_float_uInt rfl rfl rfl hsame t hn hle hlt) trivial
  | float t =>
      cases t with
      | F64 => exact iff_of_true rfl trivial
      | F32 => exact iff_of_true rfl trivial
      | BF16 =>
          show some (Element.bf16 (f32ToBf16Bits x.asF32)) =
            some (.bf16 (x.asF32.toBits >>> 16).toUInt16) ↔ RoundsDown x.asF32.toBits.toNat
          rw [Option.some_inj, Element.bf16.injEq, bf16_eq_iff, cutMatches_self]

/-- A `bf16` has nothing to cut off. -/
theorem roundsDown_bf16 (bits : UInt16) :
    RoundsDown (Float32.Model.ofBits (bits.toUInt32 <<< 16)).toBits.toNat := by
  by_cases hnan : (Float32.Model.ofBits (bits.toUInt32 <<< 16)).isNaN = true
  · rw [F32.eq_nan hnan]
    decide
  · have hlt := bits.toNat_lt
    rw [F32.toBits_ofBits (by simpa using hnan), UInt32.toNat_shiftLeft, UInt16.toNat_toUInt32, Nat.shiftLeft_eq]
    left
    simp only [UInt32.reduceToNat, Nat.reduceMod, Nat.reducePow]
    omega

theorem castElement_bf16_iff (bits : UInt16) (target : DataType) (h : CastDefined (.bf16 bits) target) :
    castElement (.bf16 bits) target = some (foldedElement (.bf16 bits) target) ↔ CastAgrees (.bf16 bits) target := by
  have hcast : castElement (.bf16 bits) target = castElement (.f32 (.ofBits (bits.toUInt32 <<< 16))) target := by
    cases target with
    | float t => cases t <;> rfl
    | _ => rfl
  have hfold : foldedElement (.bf16 bits) target = foldedElement (.f32 (.ofBits (bits.toUInt32 <<< 16))) target := by
    cases target <;> rfl
  rw [hcast, hfold, castElement_f32_iff _ target h]
  cases target with
  | float t =>
      cases t with
      | BF16 => exact iff_of_true (roundsDown_bf16 bits) trivial
      | _ => rfl
  | _ => rfl

/-- The compiled cast and the folded one agree. -/
theorem castElement_iff (x : Element) (target : DataType) (h : CastDefined x target) :
    castElement x target = some (foldedElement x target) ↔ CastAgrees x target := by
  cases x with
  | bool b => exact iff_of_true (castElement_bool_eq b target) trivial
  | sInt t x => exact castElement_sInt_iff t x target
  | uInt t x => exact castElement_uInt_iff t x target
  | bf16 bits => exact castElement_bf16_iff bits target h
  | f32 y => exact castElement_f32_iff y target h
  | f64 x => exact castElement_f64_iff x target h

/-! ### Arithmetic -/

/-- The result of an operation on bit vectors, besides the division. -/
theorem buildArith_int (op : ArithOp) (x y : BitVec w) : buildArith op (.int w x) (.int w y) =
    match op with
    | .Add => some (.int w (x + y))
    | .Div => if y = 0#w ∨ x = .intMin w ∧ y = -1#w then none else some (.int w (x.sdiv y))
    | .Mul => some (.int w (x * y))
    | .Sub => some (.int w (x - y)) := by
  cases op <;> simp only [buildArith, if_true, BitVec.setWidth_eq]

/-- The pattern of an exact result is what the operation on the patterns gives. -/
theorem ofInt_exact {op : ArithOp} (hop : op ≠ .Div) {a b r : Int} {x y : BitVec w} (hx : BitVec.ofInt w a = x)
    (hy : BitVec.ofInt w b = y) (hr : op.exact a b = some r) :
    buildArith op (.int w x) (.int w y) = some (.int w (.ofInt w r)) := by
  subst hx hy
  rw [buildArith_int]
  cases op with
  | Div => exact absurd rfl hop
  | Add =>
      obtain rfl := Option.some.inj hr
      rw [BitVec.ofInt_add]
  | Mul =>
      obtain rfl := Option.some.inj hr
      rw [BitVec.ofInt_mul]
  | Sub =>
      obtain rfl := Option.some.inj hr
      rw [Int.sub_eq_add_neg, BitVec.ofInt_add, BitVec.ofInt_neg, BitVec.sub_eq_add_neg]

theorem foldedArith_sInt {op : ArithOp} {t : SIntType} {x y : BitVec t.bitWidth} {r : Int}
    (hr : op.exact x.toInt y.toInt = some r) (hle : -2 ^ (t.bitWidth - 1) ≤ r) (hlt : r < 2 ^ (t.bitWidth - 1)) :
    foldedArith op (.sInt t x) (.sInt t y) = some (.sInt t (.ofInt _ r)) := by
  have hw := SIntType.bitWidth_le t
  have hpow : (2 : Int) ^ (t.bitWidth - 1) ≤ 2 ^ 63 := pow_le_pow_right₀ (by decide) (by omega)
  have htoInt : ∀ x : BitVec t.bitWidth, (⟨⟨x.signExtend 64⟩⟩ : Int64).toInt = x.toInt :=
    fun x => BitVec.toInt_signExtend_of_le hw.2
  show ((op.exact (⟨⟨x.signExtend 64⟩⟩ : Int64).toInt (⟨⟨y.signExtend 64⟩⟩ : Int64).toInt).bind fun r =>
    if -2 ^ 63 ≤ r ∧ r < 2 ^ 63 then some (.sInt t (.ofInt r)) else none).map strict = _
  rw [htoInt, htoInt, hr, Option.bind_some, if_pos (by omega), Option.map_some]
  exact congrArg (fun x => some (Element.sInt t x)) (setWidth_ofInt hw.2 (by omega) (by omega))

theorem foldedArith_uInt {op : ArithOp} {t : UIntType} {x y : BitVec t.bitWidth} {r : Int}
    (hr : op.exact x.toNat y.toNat = some r) (hle : 0 ≤ r) (hlt : r < 2 ^ t.bitWidth) :
    foldedArith op (.uInt t x) (.uInt t y) = some (.uInt t (.ofInt _ r)) := by
  have hw := UIntType.bitWidth_le t
  have hpow : (2 : Int) ^ t.bitWidth ≤ 2 ^ 64 := pow_le_pow_right₀ (by decide) hw.2
  have htoNat : ∀ x : BitVec t.bitWidth, (⟨x.setWidth 64⟩ : UInt64).toNat = x.toNat := by
    intro x
    show (x.setWidth 64).toNat = x.toNat
    rw [BitVec.toNat_setWidth]
    exact Nat.mod_eq_of_lt (lt_of_lt_of_le x.isLt (Nat.pow_le_pow_right Nat.two_pos hw.2))
  have hnat : BitVec.ofInt t.bitWidth r = BitVec.ofNat _ r.toNat := by
    rw [← BitVec.ofInt_natCast, Int.toNat_of_nonneg hle]
  show ((op.exact (⟨x.setWidth 64⟩ : UInt64).toNat (⟨y.setWidth 64⟩ : UInt64).toNat).bind fun r =>
    if 0 ≤ r ∧ r < 2 ^ 64 then some (.uInt t (.ofNat r.toNat)) else none).map strict = _
  rw [htoNat, htoNat, hr, Option.bind_some, if_pos (by omega), Option.map_some, hnat]
  exact congrArg (fun x => some (Element.uInt t x)) (BitVec.setWidth_ofNat_of_le hw.2 r.toNat)

/-- A quotient that fits is the signed quotient of the patterns. -/
theorem sdiv_eq_ofInt {x y : BitVec w} (hy : y.toInt ≠ 0) (hw : 0 < w)
    (hlt : x.toInt.tdiv y.toInt < 2 ^ (w - 1)) :
    buildArith .Div (.int w x) (.int w y) = some (.int w (.ofInt w (x.toInt.tdiv y.toInt))) := by
  have hzero : y ≠ 0#w := by
    rintro rfl
    exact hy BitVec.toInt_zero
  have hmin : ¬(x = .intMin w ∧ y = -1#w) := by
    rintro ⟨rfl, rfl⟩
    rw [BitVec.toInt_intMin_of_pos hw, BitVec.neg_one_eq_allOnes, BitVec.toInt_allOnes, if_pos hw, Int.tdiv_neg,
      Int.tdiv_one] at hlt
    omega
  rw [buildArith_int]
  simp only [if_neg (not_or.mpr ⟨hzero, hmin⟩)]
  congr 2
  apply BitVec.eq_of_toInt_eq
  rw [BitVec.toInt_sdiv, BitVec.toInt_ofInt]

theorem neg_div_eq_iff {h x y : Nat} (hle : h ≤ x) (hx : x < 2 * h) (hy : 0 < y) (hlt : y < h) :
    (2 * h - (2 * h - x) / y) % (2 * h) = x / y ↔ y = 1 := by
  constructor
  · intro heq
    by_contra hne
    have hquot : 1 ≤ x / y := (Nat.one_le_div_iff hy).mpr (by omega)
    have hsum : (2 * h - x) / y + x / y ≤ 2 * h / y := by
      refine Nat.div_add_div_le_add_div.trans_eq ?_
      rw [Nat.sub_add_cancel hx.le]
    have hhalf : 2 * h / y ≤ 2 * h / 2 := Nat.div_le_div_left (by omega) Nat.two_pos
    rcases Nat.eq_zero_or_pos ((2 * h - x) / y) with hzero | hpos
    · rw [hzero, Nat.sub_zero, Nat.mod_self] at heq
      omega
    · rw [Nat.mod_eq_of_lt (by omega)] at heq
      omega
  · rintro rfl
    rw [Nat.div_one, Nat.div_one, Nat.mod_eq_of_lt (by omega)]
    omega

theorem div_neg_eq_iff {h x y : Nat} (hx : x < h) (hle : h ≤ y) (hy : y < 2 * h) :
    (2 * h - x / (2 * h - y)) % (2 * h) = x / y ↔ x + y < 2 * h := by
  have hquot : x / (2 * h - y) ≤ x := Nat.div_le_self _ _
  have hzero : x / (2 * h - y) = 0 ↔ x < 2 * h - y := by
    rw [Nat.div_eq_zero_iff]
    omega
  rw [Nat.div_eq_of_lt (show x < y by omega)]
  generalize x / (2 * h - y) = q at hquot hzero ⊢
  constructor
  · intro heq
    by_contra hge
    rw [Nat.mod_eq_of_lt (by omega)] at heq
    omega
  · intro hlt
    rw [hzero.mpr (by omega), Nat.sub_zero, Nat.mod_self]

theorem neg_div_neg_eq_iff {h x y : Nat} (hx : h ≤ x) (hx' : x < 2 * h) (hy : h ≤ y) (hy' : y < 2 * h) :
    (2 * h - x) / (2 * h - y) = x / y ↔ x = y := by
  rcases lt_trichotomy x y with hlt | rfl | hlt
  · have hpos : 1 ≤ (2 * h - x) / (2 * h - y) := (Nat.one_le_div_iff (by omega)).mpr (by omega)
    rw [Nat.div_eq_of_lt hlt]
    omega
  · rw [Nat.div_self (by omega), Nat.div_self (by omega)]
    simp
  · have hpos : 1 ≤ x / y := (Nat.one_le_div_iff (by omega)).mpr hlt.le
    rw [Nat.div_eq_of_lt (show 2 * h - x < 2 * h - y by omega)]
    omega

/-- When the signed quotient of unsigned numbers is their quotient. -/
theorem sdiv_eq_udiv_iff {x y : BitVec w} (hw : 2 ≤ w) (hy : y ≠ 0#w) :
    buildArith .Div (.int w x) (.int w y) = some (.int w (x / y)) ↔ DivAgrees w x.toNat y.toNat := by
  obtain ⟨h, hh, hpow, hpow'⟩ : ∃ h, 2 ≤ h ∧ 2 ^ w = 2 * h ∧ 2 ^ (w - 1) = h := by
    refine ⟨2 ^ (w - 1), ?_, ?_, rfl⟩
    · exact (show 2 = 2 ^ 1 from rfl) ▸ Nat.pow_le_pow_right Nat.two_pos (by omega)
    · rw [← Nat.pow_succ']
      congr 1
      omega
  have hxlt := x.isLt
  have hylt := y.isLt
  have hypos : y.toNat ≠ 0 := by
    intro hzero
    exact hy (BitVec.toNat_inj.mp hzero)
  have hneg : ∀ z : BitVec w, z.toNat ≠ 0 → (-z).toNat = 2 * h - z.toNat := by
    intro z hz
    rw [BitVec.toNat_neg, hpow, Nat.mod_eq_of_lt (by omega)]
  rw [buildArith_int, DivAgrees, hpow, hpow']
  rw [hpow] at hxlt hylt
  simp only
  split
  · rename_i hnone
    -- the quotient overflows as a signed one only
    obtain ⟨rfl, rfl⟩ := hnone.resolve_left hy
    have hmin : (BitVec.intMin w).toNat = h := by rw [BitVec.toNat_intMin_of_pos (by omega), hpow']
    have hones : (-1#w).toNat = 2 * h - 1 := by
      rw [BitVec.neg_one_eq_allOnes, BitVec.toNat_allOnes, hpow]
    rw [hmin, hones]
    exact iff_of_false (by simp) (by omega)
  · have hsome : ∀ z z' : BitVec w, some (Value.int w z) = some (.int w z') ↔ z.toNat = z'.toNat := by
      intro z z'
      rw [BitVec.toNat_inj, Option.some_inj, Value.int.injEq, heq_eq_eq, and_iff_right rfl]
    rw [hsome, BitVec.sdiv_eq, BitVec.toNat_udiv]
    cases hxs : x.msb <;> cases hys : y.msb <;>
      simp only [BitVec.msb_eq_true_iff_two_mul_ge, BitVec.msb_eq_false_iff_two_mul_lt, hpow] at hxs hys <;>
      simp only [BitVec.udiv_eq]
    · rw [BitVec.toNat_udiv]
      exact iff_of_true rfl (by omega)
    · rw [BitVec.toNat_neg, BitVec.toNat_udiv, hneg y hypos, hpow,
        div_neg_eq_iff (by omega) (by omega) (by omega)]
      omega
    · rw [BitVec.toNat_neg, BitVec.toNat_udiv, hneg x (by omega), hpow,
        neg_div_eq_iff (by omega) (by omega) (by omega) (by omega)]
      omega
    · rw [BitVec.toNat_udiv, hneg x (by omega), hneg y hypos,
        neg_div_neg_eq_iff (by omega) (by omega) (by omega) (by omega)]
      omega

theorem arithElement_sInt {op : ArithOp} {t : SIntType} {x y : BitVec t.bitWidth} {r : Int}
    (hr : op.exact x.toInt y.toInt = some r) (hlt : r < 2 ^ (t.bitWidth - 1)) :
    arithElement op (.sInt t x) (.sInt t y) = some (.sInt t (.ofInt _ r)) := by
  have hbuild : buildArith op (.int _ x) (.int _ y) = some (.int _ (.ofInt t.bitWidth r)) := by
    by_cases hop : op = .Div
    · subst hop
      obtain ⟨hzero, hquot⟩ : y.toInt ≠ 0 ∧ x.toInt.tdiv y.toInt = r := by
        simpa [ArithOp.exact] using hr
      subst hquot
      exact sdiv_eq_ofInt hzero (by have := SIntType.bitWidth_le t; omega) hlt
    · exact ofInt_exact hop (BitVec.ofInt_toInt ..) (BitVec.ofInt_toInt ..) hr
  show (buildArith op (.int _ x) (.int _ y)).bind (store (.sInt t)) = _
  rw [hbuild, Option.bind_some, store_sInt]

theorem arithElement_uInt {op : ArithOp} (hop : op ≠ .Div) {t : UIntType} {x y : BitVec t.bitWidth} {r : Int}
    (hr : op.exact x.toNat y.toNat = some r) :
    arithElement op (.uInt t x) (.uInt t y) = some (.uInt t (.ofInt _ r)) := by
  have hofInt : ∀ x : BitVec t.bitWidth, BitVec.ofInt t.bitWidth x.toNat = x := by
    intro x
    rw [BitVec.ofInt_natCast, BitVec.ofNat_toNat, BitVec.setWidth_eq]
  show (buildArith op (.int _ x) (.int _ y)).bind (store (.uInt t)) = _
  rw [ofInt_exact hop (hofInt x) (hofInt y) hr, Option.bind_some, store_uInt]

theorem arithElement_uInt_div_iff {t : UIntType} {x y : BitVec t.bitWidth} (hy : y ≠ 0#_) :
    arithElement .Div (.uInt t x) (.uInt t y) = some (.uInt t (x / y)) ↔ DivAgrees t.bitWidth x.toNat y.toNat := by
  rw [← sdiv_eq_udiv_iff (UIntType.bitWidth_le t).1 hy]
  show (buildArith .Div (.int _ x) (.int _ y)).bind (store (.uInt t)) = _ ↔ _
  rw [buildArith_int]
  simp only
  split
  · simp
  · simp [store_uInt]

/-- Compiled arithmetic is folded arithmetic, except that unsigned numbers are divided as signed ones. -/
theorem arithElement_iff (op : ArithOp) (x y : Element) (h : ArithDefined op x y) :
    (∃ r, foldedArith op x y = some r ∧ arithElement op x y = some r) ↔ ArithAgrees op x y := by
  cases x with
  | sInt t x =>
      cases y with
      | sInt t' y =>
          obtain ⟨rfl, r, hr, hle, hlt⟩ := h
          refine iff_of_true ⟨_, foldedArith_sInt hr hle hlt, arithElement_sInt hr hlt⟩ ?_
          cases op <;> trivial
      | _ => exact absurd h id
  | uInt t x =>
      cases y with
      | uInt t' y =>
          obtain ⟨rfl, r, hr, hle, hlt⟩ := h
          rw [foldedArith_uInt hr hle hlt]
          by_cases hop : op = .Div
          · subst hop
            obtain ⟨hzero, rfl⟩ : y.toNat ≠ 0 ∧ ((x.toNat : Int).tdiv y.toNat) = r := by
              simpa [ArithOp.exact] using hr
            have hquot : BitVec.ofInt t.bitWidth ((x.toNat : Int).tdiv y.toNat) = x / y := by
              rw [← Int.ofNat_tdiv, BitVec.ofInt_natCast, BitVec.udiv_def]
            rw [hquot]
            refine Iff.trans ?_ (arithElement_uInt_div_iff ?_)
            · simp
            · rintro rfl
              exact hzero rfl
          · refine iff_of_true ⟨_, rfl, arithElement_uInt hop hr⟩ ?_
            cases op with
            | Div => exact (hop rfl).elim
            | _ => trivial
      | _ => exact absurd h id
  | _ => exact absurd h id

end CpuCast
end NnEngine
