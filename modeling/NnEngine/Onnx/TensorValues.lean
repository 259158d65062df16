import NnEngine.Onnx.TensorRoundTrip
import NnEngine.Tensor.ElementTypes

/-!
# What a tensor in a file denotes

A `TensorProto` has its elements in raw bytes or in the field of its element type.  Every tensor of values of its
type is read back as it was written, and what is read from a file is written again with the same values; the
exceptions are `bf16` tensors without elements and dims that the loader does not keep.
-/

namespace NnEngine

/-- An element, whatever it is stored in.  There is one value that is not a number. -/
inductive Value
  | flag (b : Bool)
  | int (n : Int)
  | float (x : F64)
  deriving DecidableEq, Repr

namespace Onnx

/-- The elements in raw bytes, little-endian. -/
def rawValues (raw : List UInt8) : DataType → List Value
  | .bool => raw.map fun b => .flag (b ≠ 0)
  | .sInt .I8 => raw.map fun b => .int b.toInt8.toInt
  | .sInt .I32 => (chunksExact 4 raw).map fun c => .int (UInt32.ofNat (fromLeBytes c)).toInt32.toInt
  | .sInt .I64 => (chunksExact 8 raw).map fun c => .int (UInt64.ofNat (fromLeBytes c)).toInt64.toInt
  | .uInt .U8 => raw.map fun b => .int b.toNat
  | .uInt .U64 => (chunksExact 8 raw).map fun c => .int (UInt64.ofNat (fromLeBytes c)).toNat
  | .float .BF16 => (chunksExact 2 raw).map fun c => .float (bf16AsF64 (UInt16.ofNat (fromLeBytes c)))
  | .float .F32 => (chunksExact 4 raw).map fun c => .float (F32.asF64 (.ofBits (UInt32.ofNat (fromLeBytes c))))
  | .float .F64 => (chunksExact 8 raw).map fun c => .float (.ofBits (UInt64.ofNat (fromLeBytes c)))

/-- The elements in the field of their type. -/
def fieldValues (p : TensorProto) : DataType → List Value
  | .bool => p.int32Data.map fun x => .flag (x ≠ 0)
  | .sInt .I8 | .sInt .I32 | .uInt .U8 => p.int32Data.map fun x => .int x.toInt
  | .sInt .I64 => p.int64Data.map fun x => .int x.toInt
  | .uInt .U64 => p.uint64Data.map fun x => .int x.toNat
  | .float .BF16 => p.int32Data.map fun x => .float (bf16AsF64 x.toUInt32.toUInt16)
  | .float .F32 => p.floatData.map fun x => .float x.asF64
  | .float .F64 => p.doubleData.map .float

/-- The element type and the elements of a tensor that is not in a file of its own. -/
def Denotes (p : TensorProto) (ty : DataType) (values : List Value) : Prop :=
  p.externalData = [] ∧ dataTypeTryFrom p.dataType = .ok ty ∧
    values = if p.rawData = [] then fieldValues p ty else rawValues p.rawData ty

/-- A tensor is read back with its dims and its values, as they are in the file. -/
def TensorRoundTrips (files : Files) (baseDir : Option String) (t : Tensor) : Prop :=
  ∃ t', loadTensor files (tensorToProto t) baseDir = .ok t' ∧ t'.dims = t.dims ∧ t'.data = t.data.rounded

/-- What is read is written with the same element type and the same values. -/
def KeepsValues (files : Files) (baseDir : Option String) (p : TensorProto) : Prop :=
  ∀ t ty values, Denotes p ty values → loadTensor files p baseDir = .ok t → Denotes (tensorToProto t) ty values

variable {files : Files} {baseDir : Option String} {t : Tensor} {p : TensorProto} {ty : DataType}

/-! ### From a tensor -/

theorem loaded_of_ofType {data : TensorData} (h : data.OfType) : data.Loaded := by
  match data with
  | .bool v =>
      intro x hx
      obtain rfl | rfl := h x hx <;> rfl
  | .sInt .I8 v =>
      intro x hx
      obtain ⟨y, rfl⟩ := h x hx
      simp
  | .sInt .I32 v =>
      intro x hx
      obtain ⟨y, rfl⟩ := h x hx
      simp
  | .sInt .I64 v => trivial
  | .uInt .U8 v =>
      intro x hx
      obtain ⟨y, rfl⟩ := h x hx
      simp [UInt8.toUInt64_toInt64_toInt32]
  | .uInt .U64 v => trivial
  | .float .F32 v =>
      intro x hx
      obtain ⟨y, rfl⟩ := h x hx
      rw [F64.asF32_asF64]
  | .float .F64 v => trivial
  | .float .BF16 v =>
      intro x hx
      obtain ⟨bits, rfl⟩ := h x hx
      exact bf16AsF64_f64ToBf16Bits bits

theorem new_eq_self_iff {dims : ResolvedTensorDims} :
    ResolvedTensorDims.new dims = dims ↔ dims = [] ∨ ∃ d ∈ dims, d ≠ 0 := by
  unfold ResolvedTensorDims.new
  split
  · rename_i hsum
    have hzero := List.sum_eq_zero_iff.mp hsum
    constructor
    · exact fun hnil => Or.inl hnil.symm
    · rintro (rfl | ⟨d, hd, hne⟩)
      · rfl
      · exact absurd (hzero d hd) hne
  · rename_i hsum
    refine iff_of_true rfl (Or.inr ?_)
    by_contra hzero
    push Not at hzero
    exact hsum (List.sum_eq_zero_iff.mpr hzero)

/-- Which tensors are read back. -/
theorem tensorRoundTrips_iff (hdata : t.data.elemType ≠ .float .BF16 → t.data.OfType) :
    TensorRoundTrips files baseDir t ↔
      t.data ≠ .float .BF16 [] ∧ (t.dims = [] ∨ ∃ d ∈ t.dims, d ≠ 0) ∧ ∀ d ∈ t.dims, d < 2 ^ 63 := by
  constructor
  · rintro ⟨t', ht', hdims, -⟩
    have hloaded := loadedTensor ht'
    rw [← hdims, ← new_eq_self_iff]
    refine ⟨?_, hloaded.dims_new, hloaded.dims_lt⟩
    rintro hempty
    have hnew := hloaded.dims_new
    have hlt := hloaded.dims_lt
    rw [hdims] at hnew hlt
    rw [loadTensor_saved (fun hne => loaded_of_ofType (hdata hne)) hlt hnew, if_pos hempty] at ht'
    cases ht'
  · rintro ⟨hne, hdims, hlt⟩
    have hload := @loadTensor_saved files baseDir t (fun hne => loaded_of_ofType (hdata hne)) hlt
      (new_eq_self_iff.mpr hdims)
    rw [if_neg hne] at hload
    exact ⟨_, hload, rfl, rfl⟩

/-! ### From a file -/

theorem toInt_toUInt32 (b : UInt8) : b.toUInt32.toInt32.toInt = b.toNat := by
  have hlt := b.toNat_lt
  have hwide : (b.toBitVec.setWidth 32).toNat = b.toNat := by
    rw [BitVec.toNat_setWidth]
    exact Nat.mod_eq_of_lt (Nat.lt_of_lt_of_le hlt (by decide))
  change (b.toBitVec.setWidth 32).toInt = b.toNat
  rw [BitVec.toInt_eq_toNat_cond, hwide, if_pos (by omega)]

theorem flag_ne_zero (b : UInt8) : (TensorData.flag b).toUInt32.toInt32 ≠ 0 ↔ b ≠ 0 := by
  unfold TensorData.flag
  split <;> simp [*]

/-- Raw bytes of every other type become numbers of its field. -/
theorem fieldValues_fromBytes (proto : TensorProto) {raw : List UInt8} (hbf16 : ty ≠ .float .BF16) :
    fieldValues (dataToProto proto (TensorData.fromBytes ty raw)) ty = rawValues raw ty := by
  match ty with
  | .bool => simp [TensorData.fromBytes, dataToProto, fieldValues, rawValues, ← flag_ne_zero]
  | .sInt .I8 => simp [TensorData.fromBytes, dataToProto, fieldValues, rawValues]
  | .sInt .I32 => simp [TensorData.fromBytes, dataToProto, fieldValues, rawValues]
  | .sInt .I64 => simp [TensorData.fromBytes, dataToProto, fieldValues, rawValues]
  | .uInt .U8 => simp [TensorData.fromBytes, dataToProto, fieldValues, rawValues, toInt_toUInt32]
  | .uInt .U64 => simp [TensorData.fromBytes, dataToProto, fieldValues, rawValues]
  | .float .F32 => simp [TensorData.fromBytes, dataToProto, fieldValues, rawValues, F64.asF32_asF64]
  | .float .F64 => simp [TensorData.fromBytes, dataToProto, fieldValues, rawValues]
  | .float .BF16 => exact absurd rfl hbf16

/-- Numbers of a field become numbers of the same field. -/
theorem fieldValues_inlineData (proto : TensorProto) {data : TensorData} (h : inlineData p ty = .ok data) :
    fieldValues (dataToProto proto data) ty = fieldValues p ty := by
  match ty with
  | .bool =>
      cases h
      simp only [dataToProto, fieldValues, List.map_map]
      refine List.map_congr_left fun x _ => ?_
      by_cases hx : x = 0 <;> simp [hx]
  | .sInt .I8 | .sInt .I32 | .sInt .I64 | .uInt .U64 | .float .F64 =>
      cases h
      simp [dataToProto, fieldValues]
  | .uInt .U8 =>
      cases h
      simp [dataToProto, fieldValues, Int32.toInt32_toUInt32_toUInt64]
  | .float .F32 =>
      cases h
      simp [dataToProto, fieldValues, F64.asF32_asF64]
  | .float .BF16 => cases h

/-- A value of two bytes is written as the bytes of the value it rounds to, which is itself. -/
theorem rawValues_bf16 (bits : List UInt16) :
    rawValues ((bits.map bf16AsF64).flatMap fun x => toLeBytes 2 (f64ToBf16Bits x).toNat) (.float .BF16) =
      bits.map fun b => .float (bf16AsF64 b) := by
  have hread := fromBytes_bf16 (bits.map bf16AsF64)
  have hvalues : ∀ raw v, TensorData.fromBytes (.float .BF16) raw = .float .BF16 v →
      rawValues raw (.float .BF16) = v.map .float := by
    rintro raw v ⟨⟩
    simp [rawValues]
  rw [hvalues _ _ hread, List.map_map, List.map_map]
  refine List.map_congr_left fun b _ => ?_
  simp [bf16AsF64_f64ToBf16Bits]

theorem elemType_inlineData {data : TensorData} (h : inlineData p ty = .ok data) : data.elemType = ty := by
  cases ty with
  | bool => cases h; rfl
  | sInt s => cases s <;> cases h <;> rfl
  | uInt u => cases u <;> cases h <;> rfl
  | float f => cases f <;> cases h <;> rfl

/-- The values of a `bf16` tensor go through raw bytes both ways. -/
theorem values_bf16 (proto : TensorProto) (hfield : proto.int32Data = []) (raw : List UInt8) :
    rawValues raw (.float .BF16) =
      if (dataToProto proto (TensorData.fromBytes (.float .BF16) raw)).rawData = [] then
        fieldValues (dataToProto proto (TensorData.fromBytes (.float .BF16) raw)) (.float .BF16)
      else rawValues (dataToProto proto (TensorData.fromBytes (.float .BF16) raw)).rawData (.float .BF16) := by
  let bits := (chunksExact 2 raw).map fun c => UInt16.ofNat (fromLeBytes c)
  have hdata : TensorData.fromBytes (.float .BF16) raw = .float .BF16 (bits.map bf16AsF64) := by
    simp [TensorData.fromBytes, bits]
  have hvalues : rawValues raw (.float .BF16) = bits.map fun b => .float (bf16AsF64 b) := by
    simp [rawValues, bits]
  rw [hvalues, hdata]
  clear_value bits
  cases bits with
  | nil => simp [dataToProto, fieldValues, hfield]
  | cons b bits =>
      rw [if_neg (by simp [dataToProto, toLeBytes])]
      exact (rawValues_bf16 (b :: bits)).symm

/-- What is read from a file is written with the same values. -/
theorem keepsValues_of_loads (files : Files) (baseDir : Option String) (p : TensorProto) :
    KeepsValues files baseDir p := by
  rintro t ty values ⟨hexternal, htype, rfl⟩ hload
  simp only [loadTensor, do_eq_ok] at hload
  obtain ⟨ty', htype', data, hdata, dims, -, hload⟩ := hload
  obtain rfl : ty = ty' := Except.ok.inj (htype.symm.trans htype')
  have ht : t.data = data := by
    split at hload
    · rename_i t' hnew
      cases pure_eq_ok.mp hload
      exact (Tensor.new_eq_some hnew).2
    · cases hload
  rw [loadData, if_neg (not_not_intro hexternal)] at hdata
  have helem : data.elemType = ty := by
    split at hdata
    · exact elemType_inlineData hdata
    · cases hdata
      exact TensorData.elemType_fromBytes ty p.rawData
  obtain ⟨-, htypeOf, hext⟩ := dataToProto_fields
    { dims := t.dims.map Int64.ofNat, dataType := dataTypeToI32 t.data.elemType } t.data
  refine ⟨hext, ?_, ?_⟩
  · rw [tensorToProto, htypeOf, ht, helem, dataTypeTryFrom_dataTypeToI32]
  · by_cases hbf16 : ty = .float .BF16
    · subst hbf16
      split at hdata
      · cases hdata
      · rename_i hraw
        cases hdata
        rw [if_neg hraw, tensorToProto, ht]
        exact values_bf16 _ rfl p.rawData
    · have hraw : (tensorToProto t).rawData = [] := rawData_dataToProto _ (by rw [ht, helem]; exact hbf16)
      rw [if_pos hraw, tensorToProto, ht]
      split at hdata
      · rename_i hnil
        rw [if_pos hnil, fieldValues_inlineData _ hdata]
      · rename_i hne
        cases hdata
        rw [if_neg hne, fieldValues_fromBytes _ hbf16]

/-- A tensor of values of its type is read back unless it is a `bf16` tensor without elements or has dims that are
not kept, and a tensor that is read is written with the same values. -/
theorem tensor_file_iff (files : Files) (baseDir : Option String) (t : Tensor) (p : TensorProto)
    (hdata : t.data.elemType ≠ .float .BF16 → t.data.OfType) :
    (TensorRoundTrips files baseDir t ∧ KeepsValues files baseDir p) ↔
      t.data ≠ .float .BF16 [] ∧ (t.dims = [] ∨ ∃ d ∈ t.dims, d ≠ 0) ∧ ∀ d ∈ t.dims, d < 2 ^ 63 := by
  rw [and_iff_left (keepsValues_of_loads files baseDir p)]
  exact tensorRoundTrips_iff hdata

/-- A pair of flags. -/
theorem flags_file :
    TensorRoundTrips (fun _ => none) none ⟨.bool [1, 0], [2], rfl⟩ ∧ KeepsValues (fun _ => none) none {} :=
  (tensor_file_iff (fun _ => none) none ⟨.bool [1, 0], [2], rfl⟩ {} fun _ => by
    simp [TensorData.OfType]).mpr ⟨nofun, Or.inr ⟨2, by simp, by decide⟩, by simp⟩

/-- A `bf16` tensor of no rows. -/
theorem no_rows_file :
    (TensorData.float .BF16 []).OfType ∧
      loadTensor (fun _ => none) (tensorToProto ⟨.float .BF16 [], [0, 2], rfl⟩) none = .error .typeError ∧
      ¬ TensorRoundTrips (fun _ => none) none ⟨.float .BF16 [], [0, 2], rfl⟩ := by
  have hload : loadTensor (fun _ => none) (tensorToProto ⟨.float .BF16 [], [0, 2], rfl⟩) none = .error .typeError := rfl
  refine ⟨by simp [TensorData.OfType], hload, ?_⟩
  rintro ⟨t', ht', -⟩
  rw [hload] at ht'
  cases ht'

end Onnx
end NnEngine
