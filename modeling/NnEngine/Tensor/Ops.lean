import NnEngine.NdArray
import NnEngine.Graph.Operator
import NnEngine.Result

/-!
# Tensor operations

The operations of `src/tensor.rs` and `src/tensor/ops.rs` that constant folding uses.  They convert the
elements to a native type, call `ndarray` and convert back: an array of `u8` becomes a `Bool` tensor, and
there is no native type for `bf16`.
-/

namespace NnEngine

/-- Why no tensor is returned: an early return with `?`, or a panic. -/
inductive FoldError
  | unfolded
  | panic
  deriving DecidableEq, Repr

/-- `?` on an `Option`. -/
def orUnfolded {α : Type} : Option α → Except FoldError α
  | some a => .ok a
  | none => .error .unfolded

/-- `unwrap()`. -/
def orPanics {α : Type} : Option α → Except FoldError α
  | some a => .ok a
  | none => .error .panic

@[simp] theorem orUnfolded_eq_ok {α : Type} {x : Option α} {a : α} : orUnfolded x = .ok a ↔ x = some a := by
  cases x <;> simp [orUnfolded]

@[simp] theorem orPanics_eq_ok {α : Type} {x : Option α} {a : α} : orPanics x = .ok a ↔ x = some a := by
  cases x <;> simp [orPanics]

/-! ### Native types -/

/-- A Rust number type with its `as` casts, and its `From<Vec<_>>`. -/
structure Native where
  T : Type
  ofBool : UInt8 → T
  ofSInt : Int64 → T
  ofUInt : UInt64 → T
  ofFloat : F64 → T
  toData : List T → TensorData
  elemType : DataType
  toScalar : T → ScalarData
  elemType_toData : ∀ v, (toData v).elemType = elemType
  toScalars_toData : ∀ v, (toData v).toScalars = v.map toScalar

namespace Native

/-- `u8`: `From<Vec<u8>>` makes a `Bool`. -/
def u8 : Native where
  T := UInt8
  ofBool b := b
  ofSInt x := x.toUInt64.toUInt8
  ofUInt x := x.toUInt8
  ofFloat x := x.toUInt8
  toData v := .bool (v.map TensorData.flag)
  elemType := .bool
  toScalar x := .bool (TensorData.flag x)
  elemType_toData _ := rfl
  toScalars_toData v := by simp [TensorData.toScalars]

def i8 : Native where
  T := Int8
  ofBool b := b.toInt8
  ofSInt x := x.toInt8
  ofUInt x := x.toUInt8.toInt8
  ofFloat x := x.toInt8
  toData v := .sInt .I8 (v.map Int8.toInt64)
  elemType := .sInt .I8
  toScalar x := .sInt .I8 x.toInt64
  elemType_toData _ := rfl
  toScalars_toData v := by simp [TensorData.toScalars]

def i32 : Native where
  T := Int32
  ofBool b := b.toUInt32.toInt32
  ofSInt x := x.toInt32
  ofUInt x := x.toUInt32.toInt32
  ofFloat x := x.toInt32
  toData v := .sInt .I32 (v.map Int32.toInt64)
  elemType := .sInt .I32
  toScalar x := .sInt .I32 x.toInt64
  elemType_toData _ := rfl
  toScalars_toData v := by simp [TensorData.toScalars]

def i64 : Native where
  T := Int64
  ofBool b := b.toUInt64.toInt64
  ofSInt x := x
  ofUInt x := x.toInt64
  ofFloat x := x.toInt64
  toData v := .sInt .I64 v
  elemType := .sInt .I64
  toScalar x := .sInt .I64 x
  elemType_toData _ := rfl
  toScalars_toData _ := rfl

def u64 : Native where
  T := UInt64
  ofBool b := b.toUInt64
  ofSInt x := x.toUInt64
  ofUInt x := x
  ofFloat x := x.toUInt64
  toData v := .uInt .U64 v
  elemType := .uInt .U64
  toScalar x := .uInt .U64 x
  elemType_toData _ := rfl
  toScalars_toData _ := rfl

def f32 : Native where
  T := F32
  ofBool b := .ofUInt8 b
  ofSInt x := .ofInt64 x
  ofUInt x := .ofUInt64 x
  ofFloat x := x.asF32
  toData v := .float .F32 (v.map F32.asF64)
  elemType := .float .F32
  toScalar x := .float .F32 x.asF64
  elemType_toData _ := rfl
  toScalars_toData v := by simp [TensorData.toScalars]

def f64 : Native where
  T := F64
  ofBool b := .ofUInt8 b
  ofSInt x := .ofInt64 x
  ofUInt x := .ofUInt64 x
  ofFloat x := x
  toData v := .float .F64 v
  elemType := .float .F64
  toScalar x := .float .F64 x
  elemType_toData _ := rfl
  toScalars_toData _ := rfl

/-- The native type that an operation on a tensor of this type runs on. -/
def of : DataType → Option Native
  | .bool | .uInt .U8 => some u8
  | .sInt .I8 => some i8
  | .sInt .I32 => some i32
  | .sInt .I64 => some i64
  | .uInt .U64 => some u64
  | .float .F32 => some f32
  | .float .F64 => some f64
  | .float .BF16 => none

/-- The cast of one element. -/
def cast (N : Native) : ScalarData → N.T
  | .bool b => N.ofBool b
  | .sInt _ x => N.ofSInt x
  | .uInt _ x => N.ofUInt x
  | .float _ x => N.ofFloat x

/-- An element after the way to the native type and back. -/
def convert (N : Native) (x : ScalarData) : ScalarData := N.toScalar (N.cast x)

end Native

structure RawTensor (α : Type) where
  data : List α
  dims : List Nat

/-- `into_array_view!(tensor).unwrap()`. -/
def RawTensor.view {α : Type} (tensor : RawTensor α) : Option (NdArray α) :=
  NdArray.fromShape tensor.dims tensor.data

/-- `into_raw_tensor!`. -/
def Tensor.intoRaw (N : Native) (t : Tensor) : RawTensor N.T :=
  match t.data with
  | .bool v => ⟨v.map N.ofBool, t.dims⟩
  | .sInt _ v => ⟨v.map N.ofSInt, t.dims⟩
  | .uInt _ v => ⟨v.map N.ofUInt, t.dims⟩
  | .float _ v => ⟨v.map N.ofFloat, t.dims⟩

/-- `try_from` of an array. -/
def Tensor.ofArray (N : Native) (a : NdArray N.T) : Option Tensor := Tensor.new (.new a.shape) (N.toData a.data)

section Functions

variable (nd : Ndarray) {α : Type}

/-- `ndarray_transpose`. -/
def ndarrayTranspose (perms : List Nat) (tensor : RawTensor α) : Option (NdArray α) :=
  tensor.view.bind fun a => nd.permutedAxes a perms

/-- `ndarray_slices`. -/
def ndarraySlices (starts ends : List Nat) (tensor : RawTensor α) : Option (NdArray α) :=
  tensor.view.bind fun a => nd.sliceEachAxis a starts ends

/-- `ndarray_concat`. -/
def ndarrayConcat (axis : Nat) (data : List (RawTensor α)) : Option (NdArray α) :=
  (data.mapM RawTensor.view).bind fun arrays => nd.concatenate axis arrays

/-- The dims of a gather. -/
def gatherDims (axis : Nat) (dims indices : List Nat) : List Nat :=
  dims.take axis ++ indices ++ dims.drop (axis + 1)

/-- `ndarray_gather`, with the conversion of an index to `isize`. -/
def ndarrayGather {β : Type} (toIsize : β → Option Int64) (axis : Nat) (indices : RawTensor β)
    (data : RawTensor α) : Option (NdArray α) := do
  let axisDim ← data.dims[axis]?
  let flat ← indices.view
  let flatIndices ← flat.data.mapM fun x => (toIsize x).map fun i => TensorIndex.index ⟨i⟩ axisDim
  let a ← data.view
  let selected ← nd.select axis a flatIndices
  NdArray.fromShape (gatherDims axis data.dims indices.dims) selected.data

/-- `ndarray_broadcast`. -/
def ndarrayBroadcast (target : List Nat) (tensor : RawTensor α) : Option (NdArray α) :=
  tensor.view.bind fun a => nd.broadcast a target

end Functions

namespace Tensor

/-- `apply_ndarray_ops!`, with `unwrap()`. -/
def applyNdarrayOps (t : Tensor) (func : {α : Type} → RawTensor α → Option (NdArray α)) : Except FoldError Tensor :=
  match Native.of t.data.elemType with
  | some N => (orPanics (func (t.intoRaw N))).bind fun a => orPanics (ofArray N a)
  | none => .error .panic

variable (nd : Ndarray)

def transpose (t : Tensor) (perms : List Nat) : Except FoldError Tensor :=
  t.applyNdarrayOps fun raw => ndarrayTranspose nd perms raw

def slices (t : Tensor) (starts ends : List Nat) : Except FoldError Tensor :=
  t.applyNdarrayOps fun raw => ndarraySlices nd starts ends raw

/-- `concat`, on the native type of the first tensor. -/
def concat (tensors : List Tensor) (axis : Nat) : Except FoldError Tensor :=
  match tensors.head?.bind fun first => Native.of first.data.elemType with
  | some N => (orPanics (ndarrayConcat nd axis (tensors.map (intoRaw N)))).bind fun a => orUnfolded (ofArray N a)
  | none => .error .panic

/-- `u64` to `isize`, which fails for a large number. -/
def isizeOfU64 (x : UInt64) : Option Int64 := if x.toNat < 2 ^ 63 then some x.toInt64 else none

def gather (t indices : Tensor) (axis : Nat) : Except FoldError Tensor :=
  match indices.data with
  | .sInt _ v => t.applyNdarrayOps fun raw => ndarrayGather nd some axis ⟨v, indices.dims⟩ raw
  | .uInt _ v => t.applyNdarrayOps fun raw => ndarrayGather nd isizeOfU64 axis ⟨v, indices.dims⟩ raw
  | _ => .error .panic

def broadcast (t : Tensor) (dims : ResolvedTensorDims) : Except FoldError Tensor :=
  t.applyNdarrayOps fun raw => ndarrayBroadcast nd dims raw

/-! ### Elements -/

/-- The element at an index. -/
def scalarAt (t : Tensor) (idx : List Nat) : Option ScalarData := t.data.toScalars[rowMajor t.dims idx]?

/-- The tensor holds as many elements as its dims have.  A scalar, or dims with a zero, may hold none or
one. -/
def Full (t : Tensor) : Prop := t.data.size = t.dims.prod

instance (t : Tensor) : Decidable t.Full := inferInstanceAs (Decidable (_ = _))

theorem toScalars_length (data : TensorData) : data.toScalars.length = data.size := by
  cases data <;> simp [TensorData.toScalars, TensorData.size]

theorem intoRaw_eq (N : Native) (t : Tensor) : t.intoRaw N = ⟨t.data.toScalars.map N.cast, t.dims⟩ := by
  unfold intoRaw
  cases t.data <;> simp only [TensorData.toScalars, List.map_map] <;> rfl

theorem view_intoRaw (N : Native) {t : Tensor} (h : t.Full) :
    ∃ a, (t.intoRaw N).view = some a ∧ a.shape = t.dims ∧
      ∀ idx, a.at? idx = (t.scalarAt idx).map N.cast := by
  have hlen : (t.data.toScalars.map N.cast).length = t.dims.prod := by
    rw [List.length_map, toScalars_length, h]
  refine ⟨⟨t.dims, t.data.toScalars.map N.cast, hlen⟩, ?_, rfl, fun idx => ?_⟩
  · rw [intoRaw_eq, RawTensor.view, NdArray.fromShape, dif_pos hlen]
  · rw [NdArray.at?, scalarAt, List.getElem?_map]

theorem view_intoRaw_of_not_full (N : Native) {t : Tensor} (h : ¬ t.Full) : (t.intoRaw N).view = none := by
  rw [intoRaw_eq, RawTensor.view, NdArray.fromShape, dif_neg]
  rw [List.length_map, toScalars_length]
  exact h

/-- What an operation makes: the elements that it takes, after the way to the native type and back. -/
structure Gathered (t' : Tensor) (N : Native) (shape : List Nat) (elem : List Nat → Option ScalarData) : Prop where
  dims : t'.dims = .new shape
  elemType : t'.data.elemType = N.elemType
  size : t'.data.size = shape.prod
  elems : ∀ idx, Inside idx shape → t'.scalarAt idx = (elem idx).map N.convert

theorem new_of_inside {shape idx : List Nat} (h : Inside idx shape) : ResolvedTensorDims.new shape = shape := by
  unfold ResolvedTensorDims.new
  split
  · rename_i hsum
    cases h with
    | nil => rfl
    | @cons i d idx dims hlt _ =>
        rw [List.sum_cons] at hsum
        omega
  · rfl

theorem size_new (shape : List Nat) : max (ResolvedTensorDims.size (.new shape)) 1 = max shape.prod 1 := by
  unfold ResolvedTensorDims.new
  split
  · rename_i hsum
    cases shape with
    | nil => rfl
    | cons d shape =>
        have hzero : d = 0 := by
          rw [List.sum_cons] at hsum
          omega
        simp [hzero, ResolvedTensorDims.size]
  · rename_i hsum
    cases shape with
    | nil => rfl
    | cons d shape => rfl

theorem ofArray_gathered {N : Native} {a : NdArray N.T} {shape : List Nat} {elem : List Nat → Option ScalarData}
    (hshape : a.shape = shape) (helem : ∀ idx, Inside idx shape → a.at? idx = (elem idx).map N.cast) :
    ∃ t', ofArray N a = some t' ∧ t'.Gathered N shape elem := by
  subst hshape
  have hsize : (N.toData a.data).size = a.shape.prod := by
    rw [← toScalars_length, N.toScalars_toData, List.length_map, a.hsize]
  have hnew : max (ResolvedTensorDims.size (.new a.shape)) 1 = max (N.toData a.data).size 1 := by
    rw [size_new, hsize]
  refine ⟨⟨N.toData a.data, .new a.shape, hnew⟩, dif_pos hnew, rfl, N.elemType_toData _, hsize, fun idx hidx => ?_⟩
  show (N.toData a.data).toScalars[rowMajor (ResolvedTensorDims.new a.shape) idx]? = _
  rw [N.toScalars_toData, new_of_inside hidx, List.getElem?_map]
  show (a.at? idx).map N.toScalar = _
  rw [helem idx hidx, Option.map_map]
  rfl

section Apply

variable {t t' : Tensor} {func : {α : Type} → RawTensor α → Option (NdArray α)}
  {f : {α : Type} → NdArray α → Option (NdArray α)} {ok : Prop} {shape : List Nat} {src : List Nat → List Nat}

/-- What an operation on a tensor makes, if it does not panic. -/
theorem gathered_of_applyNdarrayOps (hfunc : ∀ {α : Type} (raw : RawTensor α), raw.dims = t.dims → func raw = raw.view.bind f)
    (hf : ∀ {α : Type} (a : NdArray α), a.shape = t.dims →
      NdArray.Yields (f a) ok shape fun idx => a.at? (src idx))
    (h : t.applyNdarrayOps func = .ok t') :
    t.Full ∧ ok ∧ ∃ N, Native.of t.data.elemType = some N ∧
      t'.Gathered N shape fun idx => t.scalarAt (src idx) := by
  unfold applyNdarrayOps at h
  split at h
  · rename_i N hN
    obtain ⟨a, ha, ht'⟩ := bind_eq_ok.mp h
    have ha : func (t.intoRaw N) = some a := orPanics_eq_ok.mp ha
    rw [hfunc _ (by rw [intoRaw_eq])] at ha
    by_cases hfull : t.Full
    · obtain ⟨v, hv, hvshape, hvat⟩ := view_intoRaw N hfull
      rw [hv, Option.bind_some, (hf v hvshape).eq_some_iff] at ha
      obtain ⟨hok, hshape, helem⟩ := ha
      obtain ⟨t'', ht'', hgathered⟩ := ofArray_gathered (N := N) hshape fun idx hidx => by
        rw [helem idx hidx, hvat (src idx)]
      rw [orPanics_eq_ok, ht''] at ht'
      obtain rfl := Option.some.inj ht'
      exact ⟨hfull, hok, N, hN, hgathered⟩
    · rw [view_intoRaw_of_not_full N hfull] at ha
      cases ha
  · cases h

/-- When an operation on a tensor does not panic. -/
theorem exists_applyNdarrayOps (hfunc : ∀ {α : Type} (raw : RawTensor α), raw.dims = t.dims → func raw = raw.view.bind f)
    (hf : ∀ {α : Type} (a : NdArray α), a.shape = t.dims →
      NdArray.Yields (f a) ok shape fun idx => a.at? (src idx))
    (hfull : t.Full) (hok : ok) {N : Native} (hN : Native.of t.data.elemType = some N) :
    ∃ t', t.applyNdarrayOps func = .ok t' := by
  obtain ⟨v, hv, hvshape, hvat⟩ := view_intoRaw N hfull
  obtain ⟨a, ha, hshape, helem⟩ := (hf v hvshape).returns hok
  obtain ⟨t', ht', -⟩ := ofArray_gathered (N := N) hshape fun idx hidx => by
    rw [helem idx hidx, hvat (src idx)]
  refine ⟨t', ?_⟩
  unfold applyNdarrayOps
  rw [hN]
  refine bind_eq_ok.mpr ⟨a, ?_, ?_⟩
  · refine orPanics_eq_ok.mpr ?_
    show func (t.intoRaw N) = some a
    rw [hfunc _ (by rw [intoRaw_eq]), hv, Option.bind_some, ha]
  · rw [orPanics_eq_ok, ht']

end Apply

section Single

variable {nd : Ndarray} {t t' : Tensor}

/-- What a transposition makes, if it does not panic. -/
theorem gathered_of_transpose {perms : List Nat} (h : t.transpose nd perms = .ok t') :
    t.Full ∧ IsPerm perms t.dims.length ∧ ∃ N, Native.of t.data.elemType = some N ∧
      t'.Gathered N (permute perms t.dims) fun idx => t.scalarAt (unpermute perms idx) :=
  gathered_of_applyNdarrayOps (fun _ _ => rfl)
    (fun a ha => by have := nd.permutedAxes_yields a perms; rwa [ha] at this) h

theorem exists_transpose {perms : List Nat} (hfull : t.Full) (hperm : IsPerm perms t.dims.length) {N : Native}
    (hN : Native.of t.data.elemType = some N) : ∃ t', t.transpose nd perms = .ok t' :=
  exists_applyNdarrayOps (fun _ _ => rfl)
    (fun a ha => by have := nd.permutedAxes_yields a perms; rwa [ha] at this) hfull hperm hN

/-- What slices make, if they do not panic. -/
theorem gathered_of_slices {starts ends : List Nat} (h : t.slices nd starts ends = .ok t') :
    t.Full ∧ (List.Forall₂ (· ≤ ·) starts t.dims ∧ List.Forall₂ (· ≤ ·) ends t.dims) ∧
      ∃ N, Native.of t.data.elemType = some N ∧
        t'.Gathered N (List.zipWith (· - ·) ends starts) fun idx => t.scalarAt (sliceSource starts idx) :=
  gathered_of_applyNdarrayOps (fun _ _ => rfl)
    (fun a ha => by have := nd.sliceEachAxis_yields a starts ends; rwa [ha] at this) h

theorem exists_slices {starts ends : List Nat} (hfull : t.Full)
    (hok : List.Forall₂ (· ≤ ·) starts t.dims ∧ List.Forall₂ (· ≤ ·) ends t.dims) {N : Native}
    (hN : Native.of t.data.elemType = some N) : ∃ t', t.slices nd starts ends = .ok t' :=
  exists_applyNdarrayOps (fun _ _ => rfl)
    (fun a ha => by have := nd.sliceEachAxis_yields a starts ends; rwa [ha] at this) hfull hok hN

/-- What a broadcast makes, if it does not panic. -/
theorem gathered_of_broadcast {target : ResolvedTensorDims} (h : t.broadcast nd target = .ok t') :
    t.Full ∧ Broadcasts t.dims target ∧ ∃ N, Native.of t.data.elemType = some N ∧
      t'.Gathered N target fun idx => t.scalarAt (broadcastSource t.dims target idx) :=
  gathered_of_applyNdarrayOps (fun _ _ => rfl)
    (fun a ha => by have := nd.broadcast_yields a target; rwa [ha] at this) h

theorem exists_broadcast {target : ResolvedTensorDims} (hfull : t.Full) (hok : Broadcasts t.dims target)
    {N : Native} (hN : Native.of t.data.elemType = some N) : ∃ t', t.broadcast nd target = .ok t' :=
  exists_applyNdarrayOps (fun _ _ => rfl)
    (fun a ha => by have := nd.broadcast_yields a target; rwa [ha] at this) hfull hok hN

end Single

/-! ### Gather -/

/-- The places that the indices of a gather name. -/
def gatherIndices (indices : Tensor) (axisDim : Nat) : Option (List Nat) :=
  match indices.data with
  | .sInt _ v => v.mapM fun x => (some x).map fun i => TensorIndex.index ⟨i⟩ axisDim
  | .uInt _ v => v.mapM fun x => (isizeOfU64 x).map fun i => TensorIndex.index ⟨i⟩ axisDim
  | _ => none

/-- The index that a gather has its element from. -/
def gatherSource (axis : Nat) (indicesDims flat idx : List Nat) : List Nat :=
  idx.take axis ++ [flat.getD (rowMajor indicesDims ((idx.drop axis).take indicesDims.length)) 0] ++
    idx.drop (axis + indicesDims.length)

theorem yields_gather (nd : Ndarray) {α : Type} (a : NdArray α) {axis : Nat} {indicesDims flat : List Nat}
    (hflat : flat.length = indicesDims.prod) (haxis : axis < a.shape.length) :
    NdArray.Yields
      ((nd.select axis a flat).bind fun s => NdArray.fromShape (gatherDims axis a.shape indicesDims) s.data)
      (∀ i ∈ flat, i < a.shape.getD axis 0) (gatherDims axis a.shape indicesDims)
      fun idx => a.at? (gatherSource axis indicesDims flat idx) := by
  have hyields := nd.select_yields axis a flat
  have hset : a.shape.set axis flat.length = a.shape.take axis ++ flat.length :: a.shape.drop (axis + 1) :=
    List.set_eq_take_append_cons_drop.trans (if_pos haxis)
  constructor
  · intro hnot
    rw [hyields.fails fun h => hnot h.2]
    rfl
  · intro hok
    obtain ⟨s, hs, hshape, helem⟩ := hyields.returns ⟨haxis, hok⟩
    have hsize : s.data.length = (gatherDims axis a.shape indicesDims).prod := by
      rw [s.hsize, hshape, hset, hflat, gatherDims]
      simp only [List.prod_append, List.prod_cons, Nat.mul_assoc]
    refine ⟨⟨_, s.data, hsize⟩, by rw [hs, Option.bind_some, NdArray.fromShape, dif_pos hsize], rfl, fun idx hidx => ?_⟩
    -- the axes before, of the indices, and behind
    have hlen : (a.shape.take axis).length = axis := List.length_take_of_le (Nat.le_of_lt haxis)
    have hidx' : Inside idx (a.shape.take axis ++ (indicesDims ++ a.shape.drop (axis + 1))) := by
      rw [← List.append_assoc]
      exact hidx
    have hp : Inside (idx.take axis) (a.shape.take axis) := by
      have := List.forall₂_take_append _ _ _ hidx'
      rwa [hlen] at this
    have hrest : Inside (idx.drop axis) (indicesDims ++ a.shape.drop (axis + 1)) := by
      have := List.forall₂_drop_append _ _ _ hidx'
      rwa [hlen] at this
    have hm := List.forall₂_take_append _ _ _ hrest
    have hq := List.forall₂_drop_append _ _ _ hrest
    have hparts : idx = idx.take axis ++ ((idx.drop axis).take indicesDims.length ++
        (idx.drop axis).drop indicesDims.length) := by
      rw [List.take_append_drop, List.take_append_drop]
    have hplace : rowMajor indicesDims ((idx.drop axis).take indicesDims.length) < flat.length := by
      rw [hflat]
      exact rowMajor_lt hm
    have hsource : gatherSource axis indicesDims flat idx = idx.take axis ++
        flat.getD (rowMajor indicesDims ((idx.drop axis).take indicesDims.length)) 0 ::
          (idx.drop axis).drop indicesDims.length := by
      rw [gatherSource, List.drop_drop, List.append_assoc]
      rfl
    generalize idx.take axis = i at *
    generalize (idx.drop axis).take indicesDims.length = j at *
    generalize (idx.drop axis).drop indicesDims.length = k at *
    have hinner : Inside (i ++ rowMajor indicesDims j :: k) (a.shape.set axis flat.length) := by
      rw [hset]
      exact List.rel_append hp (.cons hplace hq)
    have hselected := helem _ hinner
    have haxis' : i.length = axis := hp.length_eq.trans hlen
    have hselect : selectSource axis flat (i ++ rowMajor indicesDims j :: k) =
        i ++ flat.getD (rowMajor indicesDims j) 0 :: k := by
      have hget : (i ++ rowMajor indicesDims j :: k).getD axis 0 = rowMajor indicesDims j := by
        rw [← haxis', List.getD_eq_getElem?_getD, List.getElem?_append_right (Nat.le_refl _), Nat.sub_self]
        rfl
      rw [selectSource, hget, ← haxis', List.set_append_right _ _ (Nat.le_refl _), Nat.sub_self]
      rfl
    show s.data[rowMajor (gatherDims axis a.shape indicesDims) idx]? = _
    rw [hsource, ← hselect, ← hselected, NdArray.at?, hshape, hset, rowMajor_append hp, hparts, gatherDims,
      List.append_assoc, rowMajor_append hp, rowMajor_append hm, rowMajor, hflat, List.prod_append, List.prod_cons]

theorem ndarrayGather_eq_some {nd : Ndarray} {α β : Type} {toIsize : β → Option Int64} {axis : Nat}
    {indices : RawTensor β} {data : RawTensor α} {b : NdArray α}
    (h : ndarrayGather nd toIsize axis indices data = some b) :
    axis < data.dims.length ∧ indices.data.length = indices.dims.prod ∧ ∃ flat, indices.data.mapM (fun x =>
      (toIsize x).map fun i => TensorIndex.index ⟨i⟩ (data.dims.getD axis 0)) = some flat := by
  unfold ndarrayGather at h
  obtain ⟨axisDim, haxis, h⟩ := Option.bind_eq_some_iff.mp h
  obtain ⟨view, hview, h⟩ := Option.bind_eq_some_iff.mp h
  obtain ⟨flat, hflat, -⟩ := Option.bind_eq_some_iff.mp h
  obtain ⟨hlt, rfl⟩ := List.getElem?_eq_some_iff.mp haxis
  obtain ⟨hsize, hview⟩ := Option.dite_none_right_eq_some.mp hview
  obtain rfl := Option.some.inj hview
  exact ⟨hlt, hsize, flat, by rw [getD_of_lt hlt]; exact hflat⟩

theorem ndarrayGather_eq {nd : Ndarray} {α β : Type} {toIsize : β → Option Int64} {axis : Nat}
    {indices : RawTensor β} {data : RawTensor α} {flat : List Nat} (haxis : axis < data.dims.length)
    (hsize : indices.data.length = indices.dims.prod) (hflat : indices.data.mapM (fun x =>
      (toIsize x).map fun i => TensorIndex.index ⟨i⟩ (data.dims.getD axis 0)) = some flat) :
    ndarrayGather nd toIsize axis indices data = data.view.bind fun a =>
      (nd.select axis a flat).bind fun s => NdArray.fromShape (gatherDims axis data.dims indices.dims) s.data := by
  rw [getD_of_lt haxis] at hflat
  unfold ndarrayGather
  have hview : indices.view = some ⟨indices.dims, indices.data, hsize⟩ := dif_pos hsize
  rw [List.getElem?_eq_getElem haxis, hview]
  dsimp only [bind, Option.bind_some]
  rw [hflat]
  rfl

section Gather

variable {nd : Ndarray} {t t' : Tensor} {β : Type} {toIsize : β → Option Int64} {axis : Nat} {indices : RawTensor β}

theorem yields_select {flat : List Nat} {α : Type} (hflat : flat.length = indices.dims.prod)
    (haxis : axis < t.dims.length) (a : NdArray α) (ha : a.shape = t.dims) :
    NdArray.Yields
      ((nd.select axis a flat).bind fun s => NdArray.fromShape (gatherDims axis t.dims indices.dims) s.data)
      (∀ i ∈ flat, i < t.dims.getD axis 0) (gatherDims axis t.dims indices.dims)
      fun idx => a.at? (gatherSource axis indices.dims flat idx) := by
  have hyields := yields_gather nd a hflat (ha.symm ▸ haxis)
  rw [ha] at hyields
  exact hyields

theorem mapM_length {α γ : Type} {f : α → Option γ} {l : List α} {ys : List γ} (h : l.mapM f = some ys) :
    ys.length = l.length := by
  induction l generalizing ys with
  | nil =>
      obtain rfl : [] = ys := Option.some.inj h
      rfl
  | cons x l ih =>
      rw [List.mapM_cons] at h
      obtain ⟨y, -, h⟩ := Option.bind_eq_some_iff.mp h
      obtain ⟨ys', hys, h⟩ := Option.bind_eq_some_iff.mp h
      obtain rfl := Option.some.inj h
      rw [List.length_cons, List.length_cons, ih hys]

theorem gathered_of_ndarrayGather
    (h : t.applyNdarrayOps (fun raw => ndarrayGather nd toIsize axis indices raw) = .ok t') :
    t.Full ∧ indices.data.length = indices.dims.prod ∧ axis < t.dims.length ∧ ∃ flat,
      indices.data.mapM (fun x => (toIsize x).map fun i =>
        TensorIndex.index ⟨i⟩ (t.dims.getD axis 0)) = some flat ∧
      (∀ i ∈ flat, i < t.dims.getD axis 0) ∧ ∃ N, Native.of t.data.elemType = some N ∧
        t'.Gathered N (gatherDims axis t.dims indices.dims) fun idx =>
          t.scalarAt (gatherSource axis indices.dims flat idx) := by
  have hsome : ∃ N : Native, ∃ b, ndarrayGather nd toIsize axis indices (t.intoRaw N) = some b := by
    unfold applyNdarrayOps at h
    split at h
    · rename_i N _
      obtain ⟨b, hb, -⟩ := bind_eq_ok.mp h
      exact ⟨N, b, orPanics_eq_ok.mp hb⟩
    · cases h
  obtain ⟨N, b, hb⟩ := hsome
  obtain ⟨haxis, hsize, flat, hflat⟩ := ndarrayGather_eq_some hb
  rw [intoRaw_eq] at haxis hflat
  have hlen : flat.length = indices.dims.prod := by rw [mapM_length hflat, hsize]
  obtain ⟨hfull, hok, hgathered⟩ := gathered_of_applyNdarrayOps (fun raw hraw =>
    ndarrayGather_eq (by rw [hraw]; exact haxis) hsize (by rw [hraw]; exact hflat) |>.trans (by rw [hraw]))
    (fun a ha => yields_select hlen haxis a ha) h
  exact ⟨hfull, hsize, haxis, flat, hflat, hok, hgathered⟩

theorem exists_ndarrayGather {flat : List Nat} (hfull : t.Full) (hsize : indices.data.length = indices.dims.prod)
    (haxis : axis < t.dims.length) (hflat : indices.data.mapM (fun x => (toIsize x).map fun i =>
      TensorIndex.index ⟨i⟩ (t.dims.getD axis 0)) = some flat) (hok : ∀ i ∈ flat, i < t.dims.getD axis 0)
    {N : Native} (hN : Native.of t.data.elemType = some N) :
    ∃ t', t.applyNdarrayOps (fun raw => ndarrayGather nd toIsize axis indices raw) = .ok t' := by
  have hlen : flat.length = indices.dims.prod := by rw [mapM_length hflat, hsize]
  exact exists_applyNdarrayOps (fun raw hraw =>
    ndarrayGather_eq (by rw [hraw]; exact haxis) hsize (by rw [hraw]; exact hflat) |>.trans (by rw [hraw]))
    (fun a ha => yields_select hlen haxis a ha) hfull hok hN

end Gather

/-- What a gather makes, if it does not panic. -/
theorem gathered_of_gather {nd : Ndarray} {t t' indices : Tensor} {axis : Nat}
    (h : t.gather nd indices axis = .ok t') :
    t.Full ∧ indices.Full ∧ axis < t.dims.length ∧ ∃ flat, gatherIndices indices (t.dims.getD axis 0) = some flat ∧
      (∀ i ∈ flat, i < t.dims.getD axis 0) ∧ ∃ N, Native.of t.data.elemType = some N ∧
        t'.Gathered N (gatherDims axis t.dims indices.dims) fun idx =>
          t.scalarAt (gatherSource axis indices.dims flat idx) := by
  unfold gather at h
  unfold Full gatherIndices
  split at h
  · rename_i hdata
    rw [hdata]
    exact gathered_of_ndarrayGather h
  · rename_i hdata
    rw [hdata]
    exact gathered_of_ndarrayGather h
  · cases h

/-- When a gather does not panic. -/
theorem exists_gather {nd : Ndarray} {t indices : Tensor} {axis : Nat} {flat : List Nat} (hfull : t.Full)
    (hindices : indices.Full) (haxis : axis < t.dims.length)
    (hflat : gatherIndices indices (t.dims.getD axis 0) = some flat) (hok : ∀ i ∈ flat, i < t.dims.getD axis 0)
    {N : Native} (hN : Native.of t.data.elemType = some N) : ∃ t', t.gather nd indices axis = .ok t' := by
  unfold gather
  unfold Full at hindices
  unfold gatherIndices at hflat
  split at hflat
  · rename_i hdata
    rw [hdata] at hindices
    exact exists_ndarrayGather hfull hindices haxis hflat hok hN
  · rename_i hdata
    rw [hdata] at hindices
    exact exists_ndarrayGather hfull hindices haxis hflat hok hN
  · cases hflat

theorem mapM_view (N : Native) {tensors : List Tensor} (h : ∀ t ∈ tensors, t.Full) :
    ∃ arrays, (tensors.map (intoRaw N)).mapM RawTensor.view = some arrays ∧
      arrays.map NdArray.shape = tensors.map Tensor.dims ∧ ∀ (k : Nat) (idx : List Nat),
        ((arrays[k]?).bind fun a => a.at? idx) = ((tensors[k]?).bind fun t => t.scalarAt idx).map N.cast := by
  induction tensors with
  | nil => exact ⟨[], rfl, rfl, fun k idx => rfl⟩
  | cons t tensors ih =>
      obtain ⟨a, ha, hshape, hat⟩ := view_intoRaw N (h t List.mem_cons_self)
      obtain ⟨arrays, harrays, hshapes, hall⟩ := ih fun t' ht' => h t' (List.mem_cons_of_mem t ht')
      refine ⟨a :: arrays, ?_, by rw [List.map_cons, List.map_cons, hshape, hshapes], fun k idx => ?_⟩
      · rw [List.map_cons, List.mapM_cons, ha, harrays]
        rfl
      · cases k with
        | zero => exact hat idx
        | succ k => exact hall k idx

theorem full_of_mapM_view {N : Native} {tensors : List Tensor} {arrays : List (NdArray N.T)}
    (h : (tensors.map (intoRaw N)).mapM RawTensor.view = some arrays) : ∀ t ∈ tensors, t.Full := by
  induction tensors generalizing arrays with
  | nil => nofun
  | cons t tensors ih =>
      rw [List.map_cons, List.mapM_cons] at h
      obtain ⟨a, ha, h⟩ := Option.bind_eq_some_iff.mp h
      obtain ⟨rest, hrest, -⟩ := Option.bind_eq_some_iff.mp h
      intro t' ht'
      rcases List.mem_cons.mp ht' with rfl | ht'
      · by_contra hfull
        rw [view_intoRaw_of_not_full N hfull] at ha
        cases ha
      · exact ih hrest t' ht'

/-- The element of a concatenation. -/
def concatScalar (axis : Nat) (tensors : List Tensor) (idx : List Nat) : Option ScalarData :=
  let place := concatSource axis (tensors.map Tensor.dims) idx
  (tensors[place.1]?).bind fun t => t.scalarAt place.2

/-- What a concatenation makes, if it does not panic. -/
theorem gathered_of_concat {nd : Ndarray} {tensors : List Tensor} {axis : Nat} {t' : Tensor}
    (h : concat nd tensors axis = .ok t') :
    (∀ t ∈ tensors, t.Full) ∧ Concats axis (tensors.map Tensor.dims) ∧ ∃ first N, tensors.head? = some first ∧
      Native.of first.data.elemType = some N ∧
      t'.Gathered N (concatShape axis (tensors.map Tensor.dims)) (concatScalar axis tensors) := by
  unfold concat at h
  split at h
  · rename_i N hN
    obtain ⟨first, hfirst, hN⟩ := Option.bind_eq_some_iff.mp hN
    obtain ⟨a, ha, ht'⟩ := bind_eq_ok.mp h
    rw [orPanics_eq_ok, ndarrayConcat] at ha
    obtain ⟨arrays, harrays, ha⟩ := Option.bind_eq_some_iff.mp ha
    have hfull := full_of_mapM_view harrays
    obtain ⟨arrays', harrays', hshapes, hall⟩ := mapM_view N hfull
    obtain rfl := Option.some.inj (harrays.symm.trans harrays')
    obtain ⟨hok, hshape, helem⟩ := (nd.concatenate_yields axis arrays).eq_some_iff.mp ha
    rw [hshapes] at hok hshape helem
    obtain ⟨t'', ht'', hgathered⟩ := ofArray_gathered (N := N) hshape fun idx hidx => (helem idx hidx).trans (hall _ _)
    rw [orUnfolded_eq_ok, ht''] at ht'
    obtain rfl := Option.some.inj ht'
    exact ⟨hfull, hok, first, N, hfirst, hN, hgathered⟩
  · cases h

/-- When a concatenation does not panic. -/
theorem exists_concat {nd : Ndarray} {tensors : List Tensor} {axis : Nat} (hfull : ∀ t ∈ tensors, t.Full)
    (hok : Concats axis (tensors.map Tensor.dims)) {first : Tensor} (hfirst : tensors.head? = some first)
    {N : Native} (hN : Native.of first.data.elemType = some N) : ∃ t', concat nd tensors axis = .ok t' := by
  obtain ⟨arrays, harrays, hshapes, hall⟩ := mapM_view N hfull
  obtain ⟨a, ha, hshape, helem⟩ := (nd.concatenate_yields axis arrays).returns (hshapes ▸ hok)
  rw [hshapes] at hshape helem
  obtain ⟨t', ht', -⟩ := ofArray_gathered (N := N) hshape fun idx hidx => (helem idx hidx).trans (hall _ _)
  refine ⟨t', ?_⟩
  unfold concat
  rw [hfirst, Option.bind_some, hN]
  refine bind_eq_ok.mpr ⟨a, ?_, orUnfolded_eq_ok.mpr ht'⟩
  rw [orPanics_eq_ok, ndarrayConcat, harrays, Option.bind_some, ha]

end Tensor

end NnEngine
