import NnEngine.Onnx.Load
import NnEngine.Onnx.Save
import NnEngine.Result

/-!
# Tensors through a file

What `load_tensor` can return, and that saving such a tensor and loading it gives it back: except for a
`bf16` tensor without elements, which `load_tensor` rejects because it has no raw bytes.
-/

namespace NnEngine

/-! ### Integers through a 32-bit field -/

theorem Int32.toInt32_toUInt32_toUInt64 (x : Int32) : x.toInt64.toUInt64.toUInt32.toInt32 = x := by
  apply Int32.toBitVec_inj.mp
  change (x.toBitVec.signExtend 64).setWidth 32 = x.toBitVec
  ext i hi
  rw [BitVec.getElem_setWidth, BitVec.getLsbD_signExtend]
  simp [hi, Nat.lt_trans hi (by decide : 32 < 64)]

theorem UInt8.toUInt64_toInt64_toInt32 (b : UInt8) : b.toUInt32.toInt32.toInt64.toUInt64 = b.toUInt64 := by
  apply UInt64.toBitVec_inj.mp
  change (b.toBitVec.setWidth 32).signExtend 64 = b.toBitVec.setWidth 64
  have hmsb : (b.toBitVec.setWidth 32).msb = false := by simp [BitVec.msb_setWidth]
  rw [BitVec.signExtend_eq_setWidth_of_msb_false hmsb, BitVec.setWidth_setWidth (by omega)]

namespace TensorData

/-- A flag that was saved as a number. -/
def flagOf (x : Int32) : UInt8 := if x ≠ 0 then 1 else 0

/-- Each element survives the field that `tensor_to_proto` puts it in. -/
def Loaded : TensorData → Prop
  | bool v => ∀ x ∈ v, flagOf x.toUInt32.toInt32 = x
  | sInt .I8 v => ∀ x ∈ v, x.toInt32.toInt64 = x
  | sInt .I32 v => ∀ x ∈ v, x.toInt32.toInt64 = x
  | sInt .I64 _ => True
  | uInt .U8 v => ∀ x ∈ v, x.toUInt32.toInt32.toInt64.toUInt64 = x
  | uInt .U64 _ => True
  | float .F32 v => ∀ x ∈ v, F32.asF64 (F64.asF32 x) = x
  | float .F64 _ => True
  | float .BF16 v => ∀ x ∈ v, bf16AsF64 (f64ToBf16Bits x) = x

/-- The values as they are in the file: `bf16` values are rounded. -/
def rounded : TensorData → TensorData
  | float .BF16 v => float .BF16 (v.map fun x => bf16AsF64 (f64ToBf16Bits x))
  | data => data

theorem rounded_of_loaded {data : TensorData} (h : data.Loaded) : data.rounded = data := by
  unfold rounded
  split
  · rename_i v
    congr 1
    exact (List.map_congr_left h).trans (List.map_id v)
  · rfl

theorem flagOf_flagOf (x : Int32) : flagOf (flagOf x).toUInt32.toInt32 = flagOf x := by
  unfold flagOf
  split <;> rfl

theorem flagOf_flag (b : UInt8) : flagOf (flag b).toUInt32.toInt32 = flag b := by
  unfold flag
  split <;> rfl

theorem loaded_fromBytes (ty : DataType) (raw : List UInt8) : (fromBytes ty raw).Loaded := by
  cases ty with
  | bool => simp [fromBytes, Loaded, flagOf_flag]
  | sInt t => cases t <;> simp [fromBytes, Loaded]
  | uInt t => cases t <;> simp [fromBytes, Loaded, UInt8.toUInt64_toInt64_toInt32]
  | float t => cases t <;> simp [fromBytes, Loaded, bf16AsF64_f64ToBf16Bits]

end TensorData

namespace Onnx

theorem loaded_inlineData {tensor : TensorProto} {ty : DataType} {data : TensorData}
    (h : inlineData tensor ty = .ok data) : data.Loaded := by
  cases ty with
  | bool =>
      cases h
      simp only [TensorData.Loaded, List.mem_map, forall_exists_index, and_imp,
        forall_apply_eq_imp_iff₂]
      exact fun x _ => TensorData.flagOf_flagOf x
  | sInt t => cases t <;> cases h <;> simp [TensorData.Loaded]
  | uInt t => cases t <;> cases h <;> simp [TensorData.Loaded, Int32.toInt32_toUInt32_toUInt64]
  | float t => cases t <;> cases h <;> simp [TensorData.Loaded]

/-! ### What the loader returns -/

theorem loadDim_eq_ok {dim : Int64} {d : Nat} (h : loadDim dim = .ok d) : d < 2 ^ 63 := by
  unfold loadDim at h
  split at h
  · cases h
  · cases h
    exact dim.toNatClampNeg_lt

theorem ofNat_not_neg {d : Nat} (h : d < 2 ^ 63) : ¬ Int64.ofNat d < 0 := by
  rw [Int64.lt_iff_toInt_lt, Int64.toInt_ofNat_of_lt h]
  simp

theorem loadDim_ofNat {d : Nat} (h : d < 2 ^ 63) : loadDim (Int64.ofNat d) = .ok d := by
  rw [loadDim, if_neg (ofNat_not_neg h), Int64.toNatClampNeg_ofNat_of_lt h]

theorem ResolvedTensorDims.new_new (v : List Nat) :
    ResolvedTensorDims.new (ResolvedTensorDims.new v) = ResolvedTensorDims.new v := by
  unfold ResolvedTensorDims.new
  split <;> simp_all

theorem ResolvedTensorDims.mem_new {v : List Nat} {d : Nat} (h : d ∈ ResolvedTensorDims.new v) : d ∈ v := by
  unfold ResolvedTensorDims.new at h
  split at h
  · cases h
  · exact h

/-- A tensor that the loader can return. -/
structure LoadedTensor (tensor : Tensor) : Prop where
  data : tensor.data.Loaded
  dims_lt : ∀ d ∈ tensor.dims, d < 2 ^ 63
  dims_new : ResolvedTensorDims.new tensor.dims = tensor.dims

theorem Tensor.new_eq_some {dims : ResolvedTensorDims} {data : TensorData} {tensor : Tensor}
    (h : Tensor.new dims data = some tensor) : tensor.dims = dims ∧ tensor.data = data := by
  unfold Tensor.new at h
  split at h
  · cases h
    exact ⟨rfl, rfl⟩
  · cases h

theorem loaded_loadData {files : Files} {proto : TensorProto} {baseDir : Option String}
    {elemType : DataType} {data : TensorData} (h : loadData files proto baseDir elemType = .ok data) :
    data.Loaded := by
  unfold loadData at h
  split at h
  · obtain ⟨raw, -, rfl⟩ := map_eq_ok.mp h
    exact TensorData.loaded_fromBytes elemType raw
  · split at h
    · exact loaded_inlineData h
    · cases h
      exact TensorData.loaded_fromBytes elemType proto.rawData

theorem loadedTensor {files : Files} {proto : TensorProto} {baseDir : Option String} {tensor : Tensor}
    (h : loadTensor files proto baseDir = .ok tensor) : LoadedTensor tensor := by
  simp only [loadTensor, do_eq_ok] at h
  obtain ⟨elemType, -, data, hdata, dims, hdims, h⟩ := h
  split at h
  · rename_i tensor' hnew
    cases pure_eq_ok.mp h
    obtain ⟨hd, rfl⟩ := Tensor.new_eq_some hnew
    refine ⟨loaded_loadData hdata, fun d hmem => ?_, hd ▸ ResolvedTensorDims.new_new dims⟩
    rw [hd] at hmem
    obtain ⟨dim, -, hdim⟩ := mapM_eq_ok_mem hdims d (ResolvedTensorDims.mem_new hmem)
    exact loadDim_eq_ok hdim
  · cases h

/-! ### Saving and loading -/

theorem dataTypeTryFrom_dataTypeToI32 (ty : DataType) : dataTypeTryFrom (dataTypeToI32 ty) = .ok ty := by
  cases ty with
  | bool => rfl
  | sInt t => cases t <;> rfl
  | uInt t => cases t <;> rfl
  | float t => cases t <;> rfl

theorem dataToProto_fields (proto : TensorProto) (data : TensorData) :
    (dataToProto proto data).dims = proto.dims ∧
      (dataToProto proto data).dataType = proto.dataType ∧
        (dataToProto proto data).externalData = proto.externalData := by
  cases data with
  | bool v => exact ⟨rfl, rfl, rfl⟩
  | sInt t v => cases t <;> exact ⟨rfl, rfl, rfl⟩
  | uInt t v => cases t <;> exact ⟨rfl, rfl, rfl⟩
  | float t v => cases t <;> exact ⟨rfl, rfl, rfl⟩

theorem map_map_eq_self {α β : Type} {f : α → β} {g : β → α} {l : List α} (h : ∀ x ∈ l, g (f x) = x) :
    (l.map f).map g = l := by
  rw [List.map_map]
  exact (List.map_congr_left h).trans (List.map_id l)

/-- The elements in the fields of numbers. -/
theorem inlineData_dataToProto (proto : TensorProto) {data : TensorData} (h : data.Loaded)
    (hbf16 : data.elemType ≠ .float .BF16) :
    inlineData (dataToProto proto data) data.elemType = .ok data := by
  cases data with
  | bool v => exact congrArg (fun v => Except.ok (TensorData.bool v)) (map_map_eq_self h)
  | sInt t v =>
      cases t with
      | I64 => rfl
      | I8 => exact congrArg (fun v => Except.ok (TensorData.sInt .I8 v)) (map_map_eq_self h)
      | I32 => exact congrArg (fun v => Except.ok (TensorData.sInt .I32 v)) (map_map_eq_self h)
  | uInt t v =>
      cases t with
      | U64 => rfl
      | U8 => exact congrArg (fun v => Except.ok (TensorData.uInt .U8 v)) (map_map_eq_self h)
  | float t v =>
      cases t with
      | BF16 => exact absurd rfl hbf16
      | F32 => exact congrArg (fun v => Except.ok (TensorData.float .F32 v)) (map_map_eq_self h)
      | F64 => rfl

theorem rawData_dataToProto (proto : TensorProto) {data : TensorData} (hbf16 : data.elemType ≠ .float .BF16) :
    (dataToProto proto data).rawData = proto.rawData := by
  cases data with
  | bool v => rfl
  | sInt t v => cases t <;> rfl
  | uInt t v => cases t <;> rfl
  | float t v =>
      cases t with
      | BF16 => exact absurd rfl hbf16
      | F32 => rfl
      | F64 => rfl

/-- The elements in raw bytes. -/
theorem fromBytes_bf16 (v : List F64) :
    TensorData.fromBytes (.float .BF16) (v.flatMap fun x => toLeBytes 2 (f64ToBf16Bits x).toNat) =
      (TensorData.float .BF16 v).rounded := by
  have hchunks : chunksExact 2 (v.flatMap fun x => toLeBytes 2 (f64ToBf16Bits x).toNat) =
      v.map fun x => toLeBytes 2 (f64ToBf16Bits x).toNat := by
    rw [List.flatMap_def]
    refine chunksExact_flatten (by decide) _ fun l hl => ?_
    obtain ⟨x, -, rfl⟩ := List.mem_map.mp hl
    exact toLeBytes_length 2 _
  have hbits : ∀ bits : UInt16, UInt16.ofNat (fromLeBytes (toLeBytes 2 bits.toNat)) = bits := by
    intro bits
    have hlt : bits.toNat < 256 ^ 2 := bits.toNat_lt
    rw [fromLeBytes_toLeBytes, Nat.mod_eq_of_lt hlt, UInt16.ofNat_toNat]
  rw [TensorData.fromBytes, hchunks, List.map_map]
  refine congrArg (TensorData.float .BF16) (List.map_congr_left fun x _ => ?_)
  rw [Function.comp_apply, hbits]

/-- What `dataToProto` writes is what `loadData` reads. -/
theorem loadData_dataToProto {files : Files} {proto : TensorProto} {baseDir : Option String}
    {data : TensorData} (h : data.elemType ≠ .float .BF16 → data.Loaded) (hexternal : proto.externalData = [])
    (hraw : proto.rawData = []) :
    loadData files (dataToProto proto data) baseDir data.elemType =
      if data = .float .BF16 [] then .error .typeError else .ok data.rounded := by
  have hext : (dataToProto proto data).externalData = [] := (dataToProto_fields proto data).2.2.trans hexternal
  rw [loadData, if_neg (not_not_intro hext)]
  by_cases hbf16 : data.elemType = .float .BF16
  · obtain ⟨v, rfl⟩ : ∃ v, data = .float .BF16 v := by
      cases data with
      | float t v => exact ⟨v, by rw [TensorData.elemType, DataType.float.injEq] at hbf16; rw [hbf16]⟩
      | bool v => cases hbf16
      | sInt t v => cases hbf16
      | uInt t v => cases hbf16
    cases v with
    | nil => rfl
    | cons x v =>
        rw [if_neg (by simp [dataToProto, toLeBytes]), if_neg (by simp)]
        rw [← fromBytes_bf16]
        rfl
  · have hne : data ≠ .float .BF16 [] := fun heq => hbf16 (heq ▸ rfl)
    rw [if_pos ((rawData_dataToProto proto hbf16).trans hraw), if_neg hne, TensorData.rounded_of_loaded (h hbf16)]
    exact inlineData_dataToProto proto (h hbf16) hbf16

theorem rounded_size (data : TensorData) : data.rounded.size = data.size := by
  unfold TensorData.rounded
  split
  · exact List.length_map _
  · rfl

/-- The tensor as it is in the file. -/
def roundedTensor (tensor : Tensor) : Tensor :=
  ⟨tensor.data.rounded, tensor.dims, by rw [rounded_size, tensor.hsize]⟩

/-- Only a `bf16` tensor without elements is not read back. -/
theorem loadTensor_saved {files : Files} {baseDir : Option String} {tensor : Tensor}
    (hdata : tensor.data.elemType ≠ .float .BF16 → tensor.data.Loaded) (hlt : ∀ d ∈ tensor.dims, d < 2 ^ 63)
    (hnew : ResolvedTensorDims.new tensor.dims = tensor.dims) :
    loadTensor files (tensorToProto tensor) baseDir =
      if tensor.data = .float .BF16 [] then .error .typeError else .ok (roundedTensor tensor) := by
  obtain ⟨hdims, htype, -⟩ := dataToProto_fields
    { dims := tensor.dims.map Int64.ofNat, dataType := dataTypeToI32 tensor.data.elemType } tensor.data
  have hload : (tensor.dims.map Int64.ofNat).mapM loadDim = .ok tensor.dims := by
    rw [mapM_eq_ok, List.forall₂_map_left_iff, List.forall₂_same]
    exact fun d hd => loadDim_ofNat (hlt d hd)
  rw [loadTensor, tensorToProto, htype, dataTypeTryFrom_dataTypeToI32, hdims, hload]
  have hdata := @loadData_dataToProto files
    { dims := tensor.dims.map Int64.ofNat, dataType := dataTypeToI32 tensor.data.elemType } baseDir
    tensor.data hdata rfl rfl
  change (loadData files _ baseDir tensor.data.elemType >>= _) = _
  rw [hdata]
  split
  · rfl
  · have hrounded : Tensor.new tensor.dims tensor.data.rounded = some (roundedTensor tensor) :=
      Tensor.new_eq (roundedTensor tensor)
    simp only [bind, Except.bind, hnew, hrounded]
    rfl

/-- The same of a tensor that the loader can return. -/
theorem loadTensor_tensorToProto {files : Files} {baseDir : Option String} {tensor : Tensor}
    (h : LoadedTensor tensor) :
    loadTensor files (tensorToProto tensor) baseDir =
      if tensor.data = .float .BF16 [] then .error .typeError else .ok tensor := by
  have hrounded : roundedTensor tensor = tensor := by
    obtain ⟨data, dims, hsize⟩ := tensor
    exact Tensor.mk.injEq .. ▸ ⟨TensorData.rounded_of_loaded h.data, rfl⟩
  rw [loadTensor_saved (fun _ => h.data) h.dims_lt h.dims_new, hrounded]

/-! ### Scalars -/

theorem eq_scalarData {data : TensorData} {scalar : ScalarData} (h : data.toScalarData = some scalar) :
    data = scalarData scalar := by
  unfold TensorData.toScalarData at h
  split at h <;> cases h <;> rfl

theorem toScalarData_scalarData (scalar : ScalarData) :
    (scalarData scalar).toScalarData = some scalar := by
  cases scalar <;> rfl

theorem loadTensor_scalarToTensorProto {files : Files} {baseDir : Option String} {scalar : ScalarData}
    {proto : TensorProto} (h : (scalarData scalar).Loaded) (hproto : scalarToTensorProto scalar = some proto) :
    ∃ tensor, loadTensor files proto baseDir = .ok tensor ∧ tensor.data.toScalarData = some scalar := by
  unfold scalarToTensorProto at hproto
  split at hproto
  · cases hproto
  · rename_i hbf16
    cases hproto
    have htype : (scalarData scalar).elemType = scalar.elemType := by cases scalar <;> rfl
    have hsize : (scalarData scalar).size = 1 := by cases scalar <;> rfl
    have hne : scalarData scalar ≠ .float .BF16 [] := by cases scalar <;> simp [scalarData]
    have htensor : LoadedTensor ⟨scalarData scalar, [1], by rw [hsize]; rfl⟩ := ⟨h, by simp, rfl⟩
    have hload := @loadTensor_tensorToProto files baseDir _ htensor
    rw [if_neg hne, tensorToProto, htype] at hload
    exact ⟨_, hload, toScalarData_scalarData scalar⟩

end Onnx
end NnEngine
