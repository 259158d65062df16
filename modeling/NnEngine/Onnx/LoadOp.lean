import NnEngine.Onnx.Load

/-!
# Loading operators

`load_op` of `src/onnx/load.rs` with the `load` functions of the operators.
-/

namespace NnEngine
namespace Onnx

/-! ### Default values -/

namespace F32Const

/-- `1.0`. -/
def one : F32 := .ofNat 1

/-- `1e-5`. -/
def epsilon : F32 := .ofScientific 1 (-5)

/-- `0.9`. -/
def momentum : F32 := .ofScientific 9 (-1)

/-- `0.01`. -/
def leakyAlpha : F32 := .ofScientific 1 (-2)

end F32Const

/-! ### The operators -/

/-- `BatchNormalization::load`. -/
def loadBatchNormalization (attributes : Attributes) : LoadResult BatchNormalization := do
  let epsilon ← attributes.getOr "epsilon" Attribute.f F32Const.epsilon
  let momentum ← attributes.getOr "momentum" Attribute.f F32Const.momentum
  pure { epsilon, momentum }

/-- `Attention::load`, which panics without a scale. -/
def loadAttention (attributes : Attributes) : LoadResult Attention := do
  let isCausal ← attributes.getOr "is_causal" Attribute.b false
  match ← attributes.get "scale" Attribute.f with
  | some scale => pure { isCausal, scale }
  | none => .error .panic

/-- The `load` functions that read an optional axis. -/
def loadAxis (attributes : Attributes) (dflt : Int64) : LoadResult TensorIndex :=
  attributes.getOr "axis" Attribute.index ⟨dflt⟩

/-- `DynamicQuantizeLinear::load`. -/
def loadDynamicQuantizeLinear (attributes : Attributes) : LoadResult DynamicQuantizeLinear := do
  let axis ← attributes.get "axis" Attribute.index
  let symmetric ← attributes.getOr "symmetric" Attribute.b false
  pure { axis, symmetric }

/-- `ConstantOfShape::load`. -/
def loadConstantOfShape (attributes : Attributes) : LoadResult ScalarData := do
  let value ← attributes.get "value" Attribute.tensor'
  pure ((value.bind fun tensor => tensor.data.toScalarData).getD (.float .F32 (.ofNat 0)))

/-- The pairs of begin and end paddings. -/
def loadPads (v : List Nat) : LoadResult (List (Nat × Nat)) :=
  if v.length % 2 ≠ 0 then .error (.unexpected "Invalid pads")
  else .ok ((v.take (v.length / 2)).zip (v.drop (v.length / 2)))

/-- `ConvPad::load`. -/
def loadConvPad (attributes : Attributes) : LoadResult ConvPad := do
  let autoPad ← attributes.getOr "auto_pad" Attribute.s "NOTSET"
  let pads ← attributes.get "pads" fun x => x.usizes.bind loadPads
  match autoPad, pads with
  | "NOTSET", pads => pure (.notSet { vec := pads, default := (0, 0) })
  | "SAME_UPPER", none => pure .sameUpper
  | "SAME_LOWER", none => pure .sameLower
  | "VALID", none => pure .valid
  | _, _ => .error (.unexpected "Invalid padding")

/-- A vector whose absent entries are 1. -/
def loadOnes (attributes : Attributes) (name : String) : LoadResult (OptionalVec Nat) :=
  (attributes.get name Attribute.usizes).map fun vec => { vec, default := 1 }

/-- The kernel shape in `Conv::load`. -/
def loadConvKernelShape (attributes : Attributes) : LoadResult (List Nat) :=
  match attributes "kernel_shape" with
  | none => .error (.unexpected "TODO: support inference of kernel_shape")
  | some x => x.usizes

/-- `Conv::load`. -/
def loadConv (attributes : Attributes) : LoadResult Conv := do
  let dilations ← loadOnes attributes "dilations"
  let group ← attributes.getOr "group" Attribute.i 1
  let kernelShape ← loadConvKernelShape attributes
  let strides ← loadOnes attributes "strides"
  let pad ← loadConvPad attributes
  pure
    { pad, dilations, group := group.toUInt64.toNat, kernelShape, strides, inputLayout := .NCHW,
      outputLayout := .NCHW, activation := .identity }

/-- `GeLU::load`. -/
def loadGeLU (attributes : Attributes) : LoadResult Bool := do
  match ← attributes.getOr "approximate" Attribute.s "none" with
  | "none" => pure false
  | "tanh" => pure true
  | _ => .error (.unexpected "Invalid approximate")

/-- `Gemm::load`. -/
def loadGemm (attributes : Attributes) : LoadResult Gemm := do
  let transA ← attributes.getOr "transA" Attribute.b false
  let transB ← attributes.getOr "transB" Attribute.b false
  let alpha ← attributes.getOr "alpha" Attribute.f F32Const.one
  let beta ← attributes.getOr "beta" Attribute.f F32Const.one
  pure { alpha := F32.asF64 alpha, beta := F32.asF64 beta, transA, transB }

/-- `LayerNormalization::load`. -/
def loadLayerNormalization (attributes : Attributes) : LoadResult Normalization := do
  let axis ← loadAxis attributes (-1)
  let epsilon ← attributes.getOr "epsilon" Attribute.f F32Const.epsilon
  pure { axis, epsilon := F32.asF64 epsilon }

/-- `LeakyReLU::load`. -/
def loadLeakyReLU (attributes : Attributes) : LoadResult F64 :=
  (attributes.getOr "alpha" Attribute.f F32Const.leakyAlpha).map F32.asF64

/-- `Pooling::load`. -/
def loadPooling (attributes : Attributes) : LoadResult Pooling := do
  let dilations ← loadOnes attributes "dilations"
  let ceilMode ← attributes.getOr "ceil_mode" Attribute.b false
  let kernelShape ← (attributes.required "kernel_shape").bind Attribute.usizes
  let strides ← loadOnes attributes "strides"
  let pad ← loadConvPad attributes
  pure { pad, ceilMode, dilations, kernelShape, strides, layout := .NCHW }

/-- `OneHot::load`. -/
def loadOneHot (attributes : Attributes) : LoadResult OneHot := do
  let axis ← attributes.getOr "axis" Attribute.i (-1)
  pure { axis, depth := none, offValue := none, onValue := none }

/-- `Reduce::load`. -/
def loadReduce (attributes : Attributes) : LoadResult Reduce := do
  let keepdims ← attributes.getOr "keepdims" Attribute.b true
  let axes ← attributes.getOr "axes" Attribute.ints' []
  pure { axes, keepdims }

/-- `ResizeNearestMode::load`. -/
def loadResizeNearestMode (attributes : Attributes) : LoadResult ResizeNearestMode := do
  match ← attributes.get "nearest_mode" Attribute.s with
  | some "round_prefer_floor" | none => pure .roundPreferFloor
  | some "round_prefer_ceil" => pure .roundPreferCeil
  | some "floor" => pure .floor
  | some "ceil" => pure .ceil
  | some _ => .error (.unexpected "Invalid nearest_mode")

/-- `ResizeMode::load`, which panics for every other mode. -/
def loadResizeMode (attributes : Attributes) : LoadResult ResizeMode := do
  match ← attributes.getOr "mode" Attribute.s "nearest" with
  | "nearest" => (loadResizeNearestMode attributes).map .nearest
  | _ => .error .panic

/-- `ResizeCoordinateTransformationMode::load`. -/
def loadResizeCoordinateTransformationMode (attributes : Attributes) :
    LoadResult ResizeCoordinateTransformationMode := do
  match ← attributes.get "coordinate_transformation_mode" Attribute.s with
  | some "half_pixel" | none => pure .halfPixel
  | some "pytorch_half_pixel" | some "align_corners" | some "asymmetric" => .error .panic
  | some _ => .error (.unexpected "Invalid coordinate_transformation_mode")

/-- `ResizeKeepAspectRatioPolicy::load`. -/
def loadResizeKeepAspectRatioPolicy (attributes : Attributes) :
    LoadResult ResizeKeepAspectRatioPolicy := do
  match ← attributes.get "keep_aspect_ratio" Attribute.s with
  | some "stretch" | none => pure .stretch
  | some "not_larger" => pure .notLarger
  | some "not_smaller" => pure .notSmaller
  | some _ => .error (.unexpected "Invalid keep_aspect_ratio")

/-- `Resize::load`. -/
def loadResize (attributes : Attributes) : LoadResult Resize := do
  let axes ← attributes.get "axes" Attribute.indexes
  let coordinateTransformationMode ← loadResizeCoordinateTransformationMode attributes
  let keepAspectRatioPolicy ← loadResizeKeepAspectRatioPolicy attributes
  let mode ← loadResizeMode attributes
  pure { axes, coordinateTransformationMode, keepAspectRatioPolicy, mode, scale := none }

/-- `Shape::load`. -/
def loadShape (attributes : Attributes) : LoadResult Shape := do
  let start ← attributes.getOr "start" Attribute.index ⟨0⟩
  let finish ← attributes.get "end" Attribute.index
  pure { start, finish }

/-- `Split::load`, with `SplitOutputs::load`. -/
def loadSplit (attributes : Attributes) : LoadResult Split := do
  let axis ← loadAxis attributes 0
  let outputs ← attributes.get "split" fun x => x.usizes.map .split
  pure { axis, outputs }

/-- `load_op`. -/
def loadOp (op : String) (attributes : Attributes) : LoadResult Operator :=
  match op with
  | "Add" => .ok .add
  | "And" => .ok .and
  | "Attention" => (loadAttention attributes).map .attention
  | "BatchNormalization" => (loadBatchNormalization attributes).map .batchNormalization
  | "Cast" => ((attributes.required "to").bind Attribute.ty).map .cast
  | "Clip" => .ok (.clip { min := none, max := none })
  | "Concat" => ((attributes.required "axis").bind Attribute.index).map .concat
  | "Constant" => ((attributes.required "value").bind Attribute.tensor').map .constant
  | "ConstantOfShape" => (loadConstantOfShape attributes).map .constantOfShape
  | "AveragePool" => (loadPooling attributes).map .averagePool
  | "Conv" => (loadConv attributes).map .conv
  | "Cos" => .ok .cos
  | "DequantizeLinear" => (loadAxis attributes 1).map .dequantizeLinear
  | "DequantMatMul" => (loadAxis attributes 0).map .dequantMatMul
  | "DynamicQuantizeLinear" => (loadDynamicQuantizeLinear attributes).map .dynamicQuantizeLinear
  | "QuantizedMatMul" => (loadAxis attributes 0).map .quantizedMatMul
  | "Div" => .ok .div
  | "Equal" => .ok .equal
  | "Expand" => .ok .expand
  | "Exp" => .ok .exp
  | "Flatten" => (loadAxis attributes 1).map .flatten
  | "Gather" => (loadAxis attributes 0).map .gather
  | "Gelu" => (loadGeLU attributes).map .geLU
  | "Gemm" => (loadGemm attributes).map .gemm
  | "GlobalAveragePool" => .ok .globalAveragePool
  | "LayerNormalization" => (loadLayerNormalization attributes).map .layerNormalization
  | "LeakyRelu" => (loadLeakyReLU attributes).map .leakyReLU
  | "LessOrEqual" => .ok .lessOrEqual
  | "Log" => .ok .log
  | "Identity" => .ok .identity
  | "IsNaN" => .ok .isNaN
  | "MatMul" => .ok .matMul
  | "MaxPool" => (loadPooling attributes).map .maxPool
  | "Mul" => .ok .mul
  | "Neg" => .ok .neg
  | "NonZero" => .ok .nonZero
  | "OneHot" => (loadOneHot attributes).map .oneHot
  | "Pow" => .ok .pow
  | "Range" => .ok .range
  | "Reciprocal" => .ok .reciprocal
  | "ReduceMax" => (loadReduce attributes).map .reduceMax
  | "ReduceMean" => (loadReduce attributes).map .reduceMean
  | "ReduceSum" => (loadReduce attributes).map .reduceSum
  | "Relu" => .ok .reLU
  | "Reshape" => .ok .reshape
  | "Resize" => (loadResize attributes).map .resize
  | "Sigmoid" => .ok .sigmoid
  | "Sin" => .ok .sin
  | "Shape" => (loadShape attributes).map .shape
  | "Slice" => .ok .slice
  | "Softmax" => (loadAxis attributes (-1)).map .softmax
  | "Split" => (loadSplit attributes).map .split
  | "Sqrt" => .ok .sqrt
  | "Squeeze" => (attributes.get "axes" Attribute.indexes).map .squeeze
  | "Sub" => .ok .sub
  | "Swish" => (attributes.getOr "alpha" Attribute.f F32Const.one).map .swish
  | "Tanh" => .ok .tanh
  | "Transpose" => (attributes.get "perm" Attribute.usizes).map .transpose
  | "Unsqueeze" => (attributes.getOr "axes" Attribute.indexes []).map .unsqueeze
  | "Where" => .ok .where_
  | "AllReduce" => .ok .allReduce
  | "KVCacheUpdate" => .ok .kvCacheUpdate
  | "QuantizingKVCacheUpdate" => .ok .quantizingKVCacheUpdate
  | x => .error (.unsupportedOp x)

end Onnx
end NnEngine
