import NnEngine.Tensor.Data

/-!
# Operators

The operator enumeration of `src/graph/operator.rs`.  A structure with one field is flattened to the
field.  `isize` and `i64` are `Int64`.
-/

namespace NnEngine

/-- `Id<ValueInfo>`: the index of a value in the graph's value arena. -/
abbrev ValueId := Nat

/-- `Id<Node>`: the index of a node in the graph's node arena. -/
abbrev NodeId := Nat

inductive Layout
  | NCHW
  | NHWC
  deriving DecidableEq, Repr

structure TensorIndex where
  raw : Int64
  deriving DecidableEq, Repr

/-- `TensorIndex::index`: a negative index counts from the end. -/
def TensorIndex.index (i : TensorIndex) (rank : Nat) : Nat :=
  if i.raw < 0 then (Int64.ofNat rank + i.raw).toUInt64.toNat else i.raw.toUInt64.toNat

structure Attention where
  isCausal : Bool
  scale : F32
  deriving DecidableEq, Repr

structure BatchNormalization where
  epsilon : F32
  momentum : F32
  deriving DecidableEq, Repr

/-- `OptionalVec`: the default is what an entry of an absent vector is. -/
structure OptionalVec (α : Type) where
  vec : Option (List α)
  default : α
  deriving DecidableEq, Repr

structure DynamicQuantizeLinear where
  axis : Option TensorIndex
  symmetric : Bool
  deriving DecidableEq, Repr

inductive ConvPad
  | notSet (pads : OptionalVec (Nat × Nat))
  | sameUpper
  | sameLower
  | valid
  deriving DecidableEq, Repr

inductive Activation
  | identity
  | reLU
  deriving DecidableEq, Repr

structure Conv where
  pad : ConvPad
  dilations : OptionalVec Nat
  group : Nat
  kernelShape : ResolvedTensorDims
  strides : OptionalVec Nat
  inputLayout : Layout
  outputLayout : Layout
  activation : Activation
  deriving DecidableEq, Repr

/-- `LayerNormalization` and `RMSNormalization`. -/
structure Normalization where
  axis : TensorIndex
  epsilon : F64
  deriving DecidableEq, Repr

structure Clip where
  min : Option F64
  max : Option F64
  deriving DecidableEq, Repr

structure Pooling where
  pad : ConvPad
  ceilMode : Bool
  dilations : OptionalVec Nat
  kernelShape : ResolvedTensorDims
  strides : OptionalVec Nat
  layout : Layout
  deriving DecidableEq, Repr

structure OneHot where
  axis : Int64
  depth : Option Nat
  offValue : Option ScalarData
  onValue : Option ScalarData
  deriving DecidableEq, Repr

structure Reduce where
  axes : List Int64
  keepdims : Bool
  deriving DecidableEq, Repr

inductive ResizeNearestMode
  | roundPreferFloor
  | roundPreferCeil
  | floor
  | ceil
  deriving DecidableEq, Repr

inductive ResizeCoordinateTransformationMode
  | halfPixel
  deriving DecidableEq, Repr

inductive ResizeKeepAspectRatioPolicy
  | stretch
  | notLarger
  | notSmaller
  deriving DecidableEq, Repr

inductive ResizeMode
  | nearest (mode : ResizeNearestMode)
  deriving DecidableEq, Repr

inductive ResizeScale
  | scales (v : List F64)
  | sizes (v : List Int64)
  deriving DecidableEq, Repr

structure Resize where
  axes : Option (List TensorIndex)
  coordinateTransformationMode : ResizeCoordinateTransformationMode
  keepAspectRatioPolicy : ResizeKeepAspectRatioPolicy
  mode : ResizeMode
  scale : Option ResizeScale
  deriving DecidableEq, Repr

structure Shape where
  start : TensorIndex
  finish : Option TensorIndex
  deriving DecidableEq, Repr

inductive SplitOutputs
  | numOutputs (n : Nat)
  | split (sizes : List Nat)
  deriving DecidableEq, Repr

structure Split where
  axis : TensorIndex
  outputs : Option SplitOutputs
  deriving DecidableEq, Repr

/-- `Gemm` and `BatchedGemm`. -/
structure Gemm where
  alpha : F64
  beta : F64
  transA : Bool
  transB : Bool
  deriving DecidableEq, Repr

inductive ReduceOp
  | max
  | mean
  | variance
  | sum
  deriving DecidableEq, Repr

inductive TransferKind
  | hostToDevice
  | deviceToHost
  deriving DecidableEq, Repr

/-- A step of a `Contiguous` or a `Reinterpret`. -/
inductive ReinterpretType
  | reshape (before after : List Nat)
  | transpose (perm : Option (List Nat))
  | broadcast (before after : List Nat)
  deriving DecidableEq, Repr

inductive Operator
  | add | and
  | attention (attn : Attention)
  | averagePool (p : Pooling)
  | batchedGemm (gemm : Gemm)
  | batchNormalization (bn : BatchNormalization)
  | cast (target : DataType)
  | clip (c : Clip)
  | concat (axis : TensorIndex)
  | constant (value : Tensor)
  | constantOfShape (value : ScalarData)
  | conv (conv : Conv)
  | cos
  | dequantizeLinear (axis : TensorIndex)
  | dequantMatMul (axis : TensorIndex)
  | dynamicQuantizeLinear (d : DynamicQuantizeLinear)
  | quantizedMatMul (axis : TensorIndex)
  | div | equal | expand | exp
  | flatten (axis : TensorIndex)
  | gather (axis : TensorIndex)
  | geLU (approximate : Bool)
  | gemm (g : Gemm)
  | globalAveragePool | identity | isNaN
  | layerNormalization (l : Normalization)
  | leakyReLU (alpha : F64)
  | lessOrEqual | log | matMul
  | maxPool (p : Pooling)
  | mul | neg | nonZero
  | oneHot (o : OneHot)
  | pow | range | reciprocal
  | reduceMax (r : Reduce)
  | reduceMean (r : Reduce)
  | reduceSum (r : Reduce)
  | reLU | reshape
  | resize (r : Resize)
  | rmsNormalization (r : Normalization)
  | shape (s : Shape)
  | sigmoid | sin | slice
  | softmax (axis : TensorIndex)
  | split (s : Split)
  | sqrt
  | squeeze (axes : Option (List TensorIndex))
  | sub
  | swish (alpha : F32)
  | tanh
  | transpose (perm : Option (List Nat))
  | unsqueeze (axes : List TensorIndex)
  | where_
  | allReduce
  | contiguous (ops : List ReinterpretType)
  | kvCacheUpdate | quantizingKVCacheUpdate
  | rope (headDim : Nat)
  | transfer (kind : TransferKind)
  | nhwc2nchw
  | reduceMatrix (op : ReduceOp)
  | reinterpret (ops : List ReinterpretType)
  | input (v : ValueId)
  | output (v : ValueId)
  | sessionState (v : ValueId)
  deriving DecidableEq, Repr

inductive OperatorType
  | elementwise
  | bijective
  | opaqueOp
  | dummy
  deriving DecidableEq, Repr

/-- `Operator::operator_type`.  `Identity` counts as elementwise. -/
def Operator.operatorType : Operator → OperatorType
  | add | and | batchNormalization _ | cast _ | clip _ | cos | div | equal | exp | geLU _ | identity
  | isNaN | leakyReLU _ | lessOrEqual | log | mul | neg | pow | reciprocal | reLU | sigmoid | sin
  | sqrt | sub | swish _ | tanh => .elementwise
  | contiguous _ | flatten _ | nhwc2nchw | reshape | squeeze _ | transpose _ | unsqueeze _ => .bijective
  | input _ | output _ | sessionState _ => .dummy
  | _ => .opaqueOp

namespace args

def GEMM_A : Nat := 0
def GEMM_B : Nat := 1
def GEMM_C : Nat := 2
def GEMM_WORKSPACE : Nat := 3
def BATCHED_GEMM_WORKSPACE : Nat := 2
def DEQUANTIZE_X : Nat := 0
def DEQUANTIZE_SCALE : Nat := 1
def DEQUANT_MATMUL_LHS : Nat := 0
def DEQUANT_MATMUL_RHS : Nat := 1
def CONV_WEIGHT : Nat := 1
def CONV_BIAS : Nat := 2
def BATCHNORM_SCALE : Nat := 1
def BATCHNORM_BIAS : Nat := 2
def BATCHNORM_MEAN : Nat := 3
def BATCHNORM_VAR : Nat := 4
def KVCACHE_UPDATE_CACHE : Nat := 0
def QKVCACHE_UPDATE_CACHE : Nat := 0
def ONEHOT_DEPTH : Nat := 1
def ONEHOT_VALUES : Nat := 2
def CLIP_MIN : Nat := 1
def CLIP_MAX : Nat := 2
def RESIZE_ROI : Nat := 1
def RESIZE_SCALES : Nat := 2
def RESIZE_SIZES : Nat := 3

end args

end NnEngine
