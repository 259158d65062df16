import NnEngine.FloatFormat
import NnEngine.LeBytes
import NnEngine.Tensor.Types

/-!
# Tensor data

`TensorData`, `ScalarData` and `Tensor` of `src/tensor/data.rs` and `src/tensor.rs`, as far as the ONNX
loader and saver and the passes read them.  A float is its bit pattern; all NaNs are one.
-/

namespace NnEngine

open FloatFormat

/-- `f32`. -/
abbrev F32 := Float32.Model

/-- `f64`. -/
abbrev F64 := Float.Model

instance : Repr F32 where
  reprPrec x := reprPrec x.toBits

instance : Repr F64 where
  reprPrec x := reprPrec x.toBits

namespace F32

/-- `as f64`. -/
def asF64 (x : F32) : F64 := .pack (convert .binary64 x.unpack)

end F32

namespace F64

/-- `as f32`. -/
def asF32 (x : F64) : F32 := .pack (convert .binary32 x.unpack)

end F64

theorem binary32_narrower : Narrower .binary32 .binary64 where
  mantissa := by decide
  exponent := by decide
  overflow := by decide

theorem F32.pack_unpack (x : F32) : Float32.Model.pack x.unpack = x := by
  have hbits := FloatFormat.pack_unpack (by decide) x.valid
  cases x
  rw [Float32.Model.pack, Float32.Model.mk.injEq]
  exact congrArg UInt32.ofBitVec hbits

@[simp]
theorem F64.asF32_asF64 (x : F32) : F64.asF32 (F32.asF64 x) = x := by
  have hx : Canonical .binary32 x.unpack := canonical_unpack (by decide) _
  have hunpack : (F32.asF64 x).unpack = convert .binary64 x.unpack :=
    unpack_pack (hx.wider binary32_narrower)
  rw [F64.asF32, hunpack, convert_convert binary32_narrower hx]
  exact F32.pack_unpack x

/-! ### bf16 -/

/-- `f32::from_bits((bits as u32) << 16) as f64`. -/
def bf16AsF64 (bits : UInt16) : F64 := F32.asF64 (.ofBits (bits.toUInt32 <<< 16))

/-- `f64_to_bf16_bits`. -/
def f64ToBf16Bits (x : F64) : UInt16 :=
  let x := F64.asF32 x
  if x.isNaN then 0x7FC0
  else
    let bits := x.toBits
    let roundingBias := (0x7FFF : UInt32) + ((bits >>> 16) &&& 1)
    ((bits + roundingBias) >>> 16).toUInt16

theorem F32.eq_nan {x : F32} (h : x.isNaN = true) : x = .pack .notANumber := by
  rw [← F32.pack_unpack x]
  congr 1
  change x.unpack.isNaN = true at h
  cases hx : x.unpack with
  | notANumber => rfl
  | infinity s => rw [hx] at h; cases h
  | zero s => rw [hx] at h; cases h
  | finite s m e hm => rw [hx] at h; cases h

theorem F32.toBits_ofBits {n : UInt32} (h : (Float32.Model.ofBits n).isNaN = false) :
    (Float32.Model.ofBits n).toBits = n := by
  have hvalid : Float.Model.Format.binary32.Valid n.toBitVec := by
    constructor
    intro hones hne
    have hnan : Float.Model.UnpackedFloat.unpack .binary32 n.toBitVec = .notANumber := by
      unfold Float.Model.UnpackedFloat.unpack
      dsimp only
      rw [if_pos hones, if_neg hne]
    rw [Float32.Model.ofBits, hnan] at h
    exact absurd h (by decide)
  exact congrArg UInt32.ofBitVec (FloatFormat.pack_unpack (by decide) hvalid)

/-- Rounding away sixteen zeros. -/
theorem roundingBias_eq {bits : UInt16} {n : UInt32} (hn : n = bits.toUInt32 <<< 16) :
    ((n + ((0x7FFF : UInt32) + ((n >>> 16) &&& 1))) >>> 16).toUInt16 = bits := by
  have hlt := bits.toNat_lt
  have hn' : n.toNat = bits.toNat * 65536 := by
    rw [hn, UInt32.toNat_shiftLeft, UInt16.toNat_toUInt32, Nat.shiftLeft_eq]
    exact Nat.mod_eq_of_lt (by simp only [UInt32.reduceToNat, Nat.reduceMod, Nat.reducePow]; omega)
  have hone : ((n >>> 16) &&& 1).toNat ≤ 1 := by
    rw [UInt32.toNat_and]
    exact Nat.and_le_right
  have hbias : ((0x7FFF : UInt32) + ((n >>> 16) &&& 1)).toNat =
      32767 + ((n >>> 16) &&& 1).toNat := by
    rw [UInt32.toNat_add]
    exact Nat.mod_eq_of_lt (by simp only [UInt32.reduceToNat, Nat.reducePow]; omega)
  apply UInt16.toNat_inj.mp
  rw [UInt32.toNat_toUInt16, UInt32.toNat_shiftRight, UInt32.toNat_add, hbias, hn',
    Nat.shiftRight_eq_div_pow]
  generalize ((n >>> 16) &&& 1).toNat = bit at hone
  simp only [UInt32.reduceToNat, Nat.reduceMod, Nat.reducePow]
  omega

/-- A `bf16` is not rounded on its way through `f64`. -/
theorem bf16AsF64_f64ToBf16Bits (bits : UInt16) :
    bf16AsF64 (f64ToBf16Bits (bf16AsF64 bits)) = bf16AsF64 bits := by
  have hnarrow : F64.asF32 (bf16AsF64 bits) = .ofBits (bits.toUInt32 <<< 16) := F64.asF32_asF64 _
  unfold f64ToBf16Bits
  rw [hnarrow]
  dsimp only
  split
  · rename_i hnan
    rw [bf16AsF64, bf16AsF64, F32.eq_nan hnan]
    rfl
  · rename_i hnan
    rw [F32.toBits_ofBits (by simpa using hnan), roundingBias_eq rfl]

/-! ### Tensors -/

/-- `TensorData`. -/
inductive TensorData
  | bool (v : List UInt8)
  | sInt (t : SIntType) (v : List Int64)
  | uInt (t : UIntType) (v : List UInt64)
  | float (t : FloatType) (v : List F64)
  deriving DecidableEq, Repr

/-- `ScalarData`. -/
inductive ScalarData
  | bool (v : UInt8)
  | sInt (t : SIntType) (v : Int64)
  | uInt (t : UIntType) (v : UInt64)
  | float (t : FloatType) (v : F64)
  deriving DecidableEq, Repr

namespace TensorData

/-- `size`. -/
def size : TensorData → Nat
  | bool v => v.length
  | sInt _ v => v.length
  | uInt _ v => v.length
  | float _ v => v.length

/-- `elem_type`. -/
def elemType : TensorData → DataType
  | bool _ => .bool
  | sInt t _ => .sInt t
  | uInt t _ => .uInt t
  | float t _ => .float t

/-- `if v != 0 { 1u8 } else { 0u8 }`. -/
def flag (v : UInt8) : UInt8 := if v ≠ 0 then 1 else 0

/-- `from_bytes`. -/
def fromBytes (ty : DataType) (raw : List UInt8) : TensorData :=
  match ty with
  | .bool => .bool (raw.map flag)
  | .sInt .I8 => .sInt .I8 (raw.map fun b => b.toInt8.toInt64)
  | .sInt .I32 =>
      .sInt .I32 ((chunksExact 4 raw).map fun c => (UInt32.ofNat (fromLeBytes c)).toInt32.toInt64)
  | .sInt .I64 =>
      .sInt .I64 ((chunksExact 8 raw).map fun c => (UInt64.ofNat (fromLeBytes c)).toInt64)
  | .uInt .U8 => .uInt .U8 (raw.map fun b => b.toUInt64)
  | .uInt .U64 => .uInt .U64 ((chunksExact 8 raw).map fun c => UInt64.ofNat (fromLeBytes c))
  | .float .F32 => .float .F32 ((chunksExact 4 raw).map fun c =>
      F32.asF64 (.ofBits (UInt32.ofNat (fromLeBytes c))))
  | .float .F64 => .float .F64 ((chunksExact 8 raw).map fun c =>
      .ofBits (UInt64.ofNat (fromLeBytes c)))
  | .float .BF16 => .float .BF16 ((chunksExact 2 raw).map fun c =>
      bf16AsF64 (UInt16.ofNat (fromLeBytes c)))

theorem elemType_fromBytes (ty : DataType) (raw : List UInt8) : (fromBytes ty raw).elemType = ty := by
  cases ty with
  | bool => rfl
  | sInt t => cases t <;> rfl
  | uInt t => cases t <;> rfl
  | float t => cases t <;> rfl

/-- `to_scalar_data`, and `try_into` without its error. -/
def toScalarData : TensorData → Option ScalarData
  | bool [v] => some (.bool v)
  | sInt t [v] => some (.sInt t v)
  | uInt t [v] => some (.uInt t v)
  | float t [v] => some (.float t v)
  | _ => none

/-- `to_scalars`. -/
def toScalars : TensorData → List ScalarData
  | bool v => v.map .bool
  | sInt t v => v.map (.sInt t)
  | uInt t v => v.map (.uInt t)
  | float t v => v.map (.float t)

end TensorData

namespace ScalarData

/-- `elem_type`. -/
def elemType : ScalarData → DataType
  | bool _ => .bool
  | sInt t _ => .sInt t
  | uInt t _ => .uInt t
  | float t _ => .float t

/-- `as usize`. -/
def asUsize : ScalarData → Nat
  | bool v => v.toNat
  | sInt _ v => v.toUInt64.toNat
  | uInt _ v => v.toNat
  | float _ v => v.toUInt64.toNat

/-- `as f64`. -/
def asF64 : ScalarData → F64
  | bool v => .ofUInt8 v
  | sInt _ v => .ofInt64 v
  | uInt _ v => .ofUInt64 v
  | float _ v => v

end ScalarData

/-- `Tensor`: `new` checks the number of elements. -/
structure Tensor where
  data : TensorData
  dims : ResolvedTensorDims
  hsize : max (ResolvedTensorDims.size dims) 1 = max data.size 1
  deriving DecidableEq, Repr

namespace Tensor

theorem hsize_scalar : max (ResolvedTensorDims.size []) 1 = max 1 1 := rfl
theorem hsize_one : max (ResolvedTensorDims.size [1]) 1 = max 1 1 := rfl

/-- `new`. -/
def new (dims : ResolvedTensorDims) (data : TensorData) : Option Tensor :=
  if h : max (ResolvedTensorDims.size dims) 1 = max data.size 1 then some ⟨data, dims, h⟩ else none

/-- `tensor_type`. -/
def tensorType (tensor : Tensor) : ResolvedTensorType :=
  .new tensor.data.elemType tensor.dims

/-- `to_1d_floats`. -/
def to1dFloats (tensor : Tensor) : Option (List F64) :=
  if tensor.dims.length ≠ 1 then none
  else
    match tensor.data with
    | .float _ v => some v
    | _ => none

/-- `to_1d_sints`. -/
def to1dSints (tensor : Tensor) : Option (List Int64) :=
  if tensor.dims.length ≠ 1 then none
  else
    match tensor.data with
    | .sInt _ v => some v
    | _ => none

@[simp]
theorem new_eq (tensor : Tensor) : new tensor.dims tensor.data = some tensor := dif_pos tensor.hsize

end Tensor

end NnEngine
