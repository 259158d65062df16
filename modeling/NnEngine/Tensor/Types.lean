import Mathlib.Tactic

/-!
# Tensor types

The element types, dims and strides of `src/tensor/types.rs`, as far as the schedulers and the code
generators read them.  `usize` is `Nat`: no size computed here is reduced modulo `2 ^ 64`.
-/

namespace NnEngine

inductive SIntType
  | I8
  | I32
  | I64
  deriving DecidableEq, Repr

inductive UIntType
  | U8
  | U64
  deriving DecidableEq, Repr

inductive FloatType
  | BF16
  | F32
  | F64
  deriving DecidableEq, Repr

inductive DataType
  | bool
  | sInt (t : SIntType)
  | uInt (t : UIntType)
  | float (t : FloatType)
  deriving DecidableEq, Repr

def SIntType.bitWidth : SIntType → Nat
  | I8 => 8
  | I32 => 32
  | I64 => 64

def UIntType.bitWidth : UIntType → Nat
  | U8 => 8
  | U64 => 64

def FloatType.bitWidth : FloatType → Nat
  | BF16 => 16
  | F32 => 32
  | F64 => 64

def DataType.bitWidth : DataType → Nat
  | bool => 8
  | sInt t => t.bitWidth
  | uInt t => t.bitWidth
  | float t => t.bitWidth

/-- Every element type occupies at least one byte. -/
theorem DataType.one_le_bytes (t : DataType) : 1 ≤ t.bitWidth / 8 := by
  cases t with
  | bool => decide
  | sInt t => cases t <;> decide
  | uInt t => cases t <;> decide
  | float t => cases t <;> decide

/-- `ResolvedTensorDims`: the empty list is a scalar. -/
abbrev ResolvedTensorDims := List Nat

/-- `ResolvedTensorDims::new`: a vector whose entries sum to zero becomes a scalar. -/
def ResolvedTensorDims.new (v : List Nat) : ResolvedTensorDims :=
  if v.sum = 0 then [] else v

/-- `ResolvedTensorDims::size`: zero for a scalar, else the product of the dims. -/
def ResolvedTensorDims.size (dims : ResolvedTensorDims) : Nat :=
  if dims.isEmpty then 0 else dims.prod

/-- `calc_stride`: row-major strides, zero on the axes of extent one. -/
def calcStride : List Nat → List Nat
  | [] => []
  | d :: dims => (if d = 1 then 0 else dims.prod) :: calcStride dims

structure ResolvedTensorType where
  elemType : DataType
  dims : ResolvedTensorDims
  stride : List Nat
  deriving DecidableEq, Repr

/-- `ResolvedTensorType::new`. -/
def ResolvedTensorType.new (elemType : DataType) (dims : ResolvedTensorDims) :
    ResolvedTensorType :=
  { elemType, dims, stride := calcStride dims }

/-- `ResolvedTensorType::is_scalar`: no dims, or a single element. -/
def ResolvedTensorType.isScalar (ty : ResolvedTensorType) : Bool :=
  ty.dims.isEmpty || ResolvedTensorDims.size ty.dims == 1

/-- `Dimension`. -/
inductive Dimension
  | const (x : Nat)
  | param (key : String)
  deriving DecidableEq, Repr

/-- The extent of a dimension that is not a parameter. -/
def Dimension.value? : Dimension → Option Nat
  | const x => some x
  | param _ => none

/-- `UnresolvedTensorDims::to_resolved`. -/
def toResolved (dims : List Dimension) : Option ResolvedTensorDims :=
  (dims.mapM Dimension.value?).map ResolvedTensorDims.new

structure UnresolvedTensorType where
  elemType : DataType
  dims : Option (List Dimension)
  deriving DecidableEq, Repr

inductive TensorType
  | resolved (ty : ResolvedTensorType)
  | unresolved (ty : UnresolvedTensorType)
  deriving DecidableEq, Repr

/-- `TensorType::normalize`. -/
def TensorType.normalize : TensorType → TensorType
  | unresolved ty =>
      match ty.dims.bind toResolved with
      | some dims => resolved (.new ty.elemType dims)
      | none => unresolved ty
  | ty => ty

/-- The products `dim.max(&1) * stride` over the axes. -/
def axisExtents (dims stride : List Nat) : List Nat :=
  List.zipWith (fun d s => max d 1 * s) dims stride

/-- `ResolvedTensorType::storage_num_elements`. -/
def ResolvedTensorType.storageNumElements (ty : ResolvedTensorType) : Nat :=
  if ty.isScalar then 1
  else if ty.dims.any (· == 0) then 0
  else (axisExtents ty.dims ty.stride).foldr max 0

/-- The bytes of one value of this type: `storage_num_elements() * (bit_width() / 8)`. -/
def ResolvedTensorType.byteSize (ty : ResolvedTensorType) : Nat :=
  ty.storageNumElements * (ty.elemType.bitWidth / 8)

end NnEngine
