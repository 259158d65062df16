import NnEngine.Graph.Operator
import NnEngine.Onnx.Proto

/-!
# Saving tensors and operators

`tensor_to_proto` of `src/onnx/load.rs`, and `operator_attrs` of `src/onnx/save.rs` with the functions it
calls.  A panic is `none`.
-/

namespace NnEngine
namespace Onnx

/-! ### Attributes -/

/-- `attr_float`. -/
def attrFloat (name : String) (value : F32) : AttributeProto := { name, type := .float, f := value }

/-- `attr_int`. -/
def attrInt (name : String) (value : Int64) : AttributeProto := { name, type := .int, i := value }

/-- `attr_ints`. -/
def attrInts (name : String) (values : List Int64) : AttributeProto :=
  { name, type := .ints, ints := values }

/-- `attr_string`. -/
def attrString (name value : String) : AttributeProto := { name, type := .string, s := value.toUTF8 }

/-- `attr_tensor`. -/
def attrTensor (name : String) (proto : TensorProto) : AttributeProto :=
  { name, type := .tensor, t := some proto }

/-! ### Tensors -/

/-- `data_type_to_i32`. -/
def dataTypeToI32 : DataType → Int32
  | .bool => ProtoDataType.BOOL
  | .sInt .I8 => ProtoDataType.INT8
  | .sInt .I32 => ProtoDataType.INT32
  | .sInt .I64 => ProtoDataType.INT64
  | .uInt .U8 => ProtoDataType.UINT8
  | .uInt .U64 => ProtoDataType.UINT64
  | .float .BF16 => ProtoDataType.BFLOAT16
  | .float .F32 => ProtoDataType.FLOAT
  | .float .F64 => ProtoDataType.DOUBLE

/-- The elements of `tensor_to_proto` and `scalar_to_tensor_proto`, each type in its field. -/
def dataToProto (proto : TensorProto) : TensorData → TensorProto
  | .bool v => { proto with int32Data := v.map fun b => b.toUInt32.toInt32 }
  | .float .F32 v => { proto with floatData := v.map F64.asF32 }
  | .float .F64 v => { proto with doubleData := v }
  | .float .BF16 v => { proto with rawData := v.flatMap fun x => toLeBytes 2 (f64ToBf16Bits x).toNat }
  | .sInt .I8 v => { proto with int32Data := v.map Int64.toInt32 }
  | .sInt .I32 v => { proto with int32Data := v.map Int64.toInt32 }
  | .sInt .I64 v => { proto with int64Data := v }
  | .uInt .U8 v => { proto with int32Data := v.map fun x => x.toUInt32.toInt32 }
  | .uInt .U64 v => { proto with uint64Data := v }

/-- `tensor_to_proto`. -/
def tensorToProto (tensor : Tensor) : TensorProto :=
  dataToProto
    { dims := tensor.dims.map Int64.ofNat, dataType := dataTypeToI32 tensor.data.elemType } tensor.data

/-- `to_tensor_data(1)`. -/
def scalarData : ScalarData → TensorData
  | .bool v => .bool [v]
  | .sInt t v => .sInt t [v]
  | .uInt t v => .uInt t [v]
  | .float t v => .float t [v]

/-- `scalar_to_tensor_proto`, which panics for a `bf16`. -/
def scalarToTensorProto (scalar : ScalarData) : Option TensorProto :=
  if scalar.elemType = .float .BF16 then none
  else some (dataToProto { dims := [1], dataType := dataTypeToI32 scalar.elemType } (scalarData scalar))

/-! ### Operators -/

/-- `conv_pad_attrs`. -/
def convPadAttrs : ConvPad → List AttributeProto
  | .notSet pads =>
      match pads.vec with
      | some v => [attrInts "pads" (v.map (fun p => Int64.ofNat p.1) ++ v.map fun p => Int64.ofNat p.2)]
      | none => []
  | .sameUpper => [attrString "auto_pad" "SAME_UPPER"]
  | .sameLower => [attrString "auto_pad" "SAME_LOWER"]
  | .valid => [attrString "auto_pad" "VALID"]

/-- `if let Some(v) = … { attrs.push(attr_ints(…)) }`. -/
def optionalInts (name : String) {α : Type} (f : α → Int64) : Option (List α) → List AttributeProto
  | some v => [attrInts name (v.map f)]
  | none => []

/-- `if b { 1 } else { 0 }`. -/
def flagInt (b : Bool) : Int64 := if b then 1 else 0

def axisAttr (axis : TensorIndex) : AttributeProto := attrInt "axis" axis.raw

/-- The attributes of `Conv`. -/
def convAttrs (c : Conv) : List AttributeProto :=
  optionalInts "dilations" Int64.ofNat c.dilations.vec ++
    (if c.group ≠ 1 then [attrInt "group" (Int64.ofNat c.group)] else []) ++
    [attrInts "kernel_shape" (c.kernelShape.map Int64.ofNat)] ++
    optionalInts "strides" Int64.ofNat c.strides.vec ++ convPadAttrs c.pad

/-- The attributes of `AveragePool` and `MaxPool`. -/
def poolingAttrs (p : Pooling) : List AttributeProto :=
  (if p.ceilMode then [attrInt "ceil_mode" 1] else []) ++
    optionalInts "dilations" Int64.ofNat p.dilations.vec ++
    [attrInts "kernel_shape" (p.kernelShape.map Int64.ofNat)] ++
    optionalInts "strides" Int64.ofNat p.strides.vec ++ convPadAttrs p.pad

/-- The attributes of `Gemm`. -/
def gemmAttrs (g : Gemm) : List AttributeProto :=
  (if g.transA then [attrInt "transA" 1] else []) ++
    (if g.transB then [attrInt "transB" 1] else []) ++
    (if g.alpha ≠ .ofNat 1 then [attrFloat "alpha" (F64.asF32 g.alpha)] else []) ++
    (if g.beta ≠ .ofNat 1 then [attrFloat "beta" (F64.asF32 g.beta)] else [])

/-- The attributes of `ReduceMax`, `ReduceMean` and `ReduceSum`. -/
def reduceAttrs (r : Reduce) : List AttributeProto :=
  (if r.axes ≠ [] then [attrInts "axes" r.axes] else []) ++
    (if r.keepdims then [] else [attrInt "keepdims" 0])

def resizeNearestAttrs : ResizeNearestMode → List AttributeProto
  | .roundPreferFloor => []
  | .roundPreferCeil => [attrString "nearest_mode" "round_prefer_ceil"]
  | .floor => [attrString "nearest_mode" "floor"]
  | .ceil => [attrString "nearest_mode" "ceil"]

def resizePolicyAttrs : ResizeKeepAspectRatioPolicy → List AttributeProto
  | .stretch => []
  | .notLarger => [attrString "keep_aspect_ratio" "not_larger"]
  | .notSmaller => [attrString "keep_aspect_ratio" "not_smaller"]

/-- The attributes of `Resize`. -/
def resizeAttrs (r : Resize) : List AttributeProto :=
  optionalInts "axes" TensorIndex.raw r.axes ++
    (match r.coordinateTransformationMode with
    | .halfPixel => [attrString "coordinate_transformation_mode" "half_pixel"]) ++
    resizePolicyAttrs r.keepAspectRatioPolicy ++
    match r.mode with
    | .nearest nearest => attrString "mode" "nearest" :: resizeNearestAttrs nearest

/-- The attributes of `Shape`. -/
def shapeAttrs (s : Shape) : List AttributeProto :=
  (if s.start.raw ≠ 0 then [attrInt "start" s.start.raw] else []) ++
    match s.finish with
    | some finish => [attrInt "end" finish.raw]
    | none => []

/-- The attributes of `Split`. -/
def splitAttrs (s : Split) : List AttributeProto :=
  axisAttr s.axis ::
    match s.outputs with
    | some (.numOutputs n) => [attrInt "num_outputs" (Int64.ofNat n)]
    | some (.split sizes) => [attrInts "split" (sizes.map Int64.ofNat)]
    | none => []

/-- The attributes of `Clip`. -/
def clipAttrs (c : Clip) : List AttributeProto :=
  (match c.min with
    | some min => [attrFloat "min" (F64.asF32 min)]
    | none => []) ++
    match c.max with
    | some max => [attrFloat "max" (F64.asF32 max)]
    | none => []

/-- The attributes of `DynamicQuantizeLinear`. -/
def dynamicQuantizeLinearAttrs (d : DynamicQuantizeLinear) : List AttributeProto :=
  (match d.axis with
    | some axis => [axisAttr axis]
    | none => []) ++ if d.symmetric then [attrInt "symmetric" 1] else []

/-- `operator_attrs`. -/
def operatorAttrs : Operator → Option (List AttributeProto)
  | .add | .allReduce | .and | .cos | .sub | .mul | .neg | .div | .equal | .expand | .exp
  | .lessOrEqual | .log | .pow | .range | .sqrt | .reciprocal | .reLU | .sigmoid | .sin | .tanh
  | .identity | .isNaN | .kvCacheUpdate | .quantizingKVCacheUpdate | .matMul | .reshape | .slice
  | .nonZero | .globalAveragePool | .transfer _ | .where_ => some []
  | .attention attn =>
      some [attrInt "is_causal" (flagInt attn.isCausal), attrFloat "scale" attn.scale]
  | .batchedGemm gemm =>
      some
        [attrFloat "alpha" (F64.asF32 gemm.alpha), attrFloat "beta" (F64.asF32 gemm.beta),
          attrInt "trans_a" (flagInt gemm.transA), attrInt "trans_b" (flagInt gemm.transB)]
  | .batchNormalization bn =>
      some [attrFloat "epsilon" bn.epsilon, attrFloat "momentum" bn.momentum]
  | .clip c => some (clipAttrs c)
  | .cast target => some [attrInt "to" (dataTypeToI32 target).toInt64]
  | .concat axis => some [axisAttr axis]
  | .dequantizeLinear axis => some [axisAttr axis]
  | .dequantMatMul axis => some [axisAttr axis]
  | .quantizedMatMul axis => some [axisAttr axis]
  | .dynamicQuantizeLinear d => some (dynamicQuantizeLinearAttrs d)
  | .constant value => some [attrTensor "value" (tensorToProto value)]
  | .constantOfShape value =>
      (scalarToTensorProto value).map fun proto => [attrTensor "value" proto]
  | .conv c => some (convAttrs c)
  | .flatten axis => some [axisAttr axis]
  | .gather axis => some [axisAttr axis]
  | .geLU approximate => some [attrString "approximate" (if approximate then "tanh" else "none")]
  | .gemm g => some (gemmAttrs g)
  | .layerNormalization l => some [axisAttr l.axis, attrFloat "epsilon" (F64.asF32 l.epsilon)]
  | .rmsNormalization r => some [axisAttr r.axis, attrFloat "epsilon" (F64.asF32 r.epsilon)]
  | .rope headDim => some [attrInt "head_dim" (Int64.ofNat headDim)]
  | .leakyReLU alpha => some [attrFloat "alpha" (F64.asF32 alpha)]
  | .averagePool p => some (poolingAttrs p)
  | .maxPool p => some (poolingAttrs p)
  | .oneHot o => some [attrInt "axis" o.axis]
  | .reduceMax r => some (reduceAttrs r)
  | .reduceMean r => some (reduceAttrs r)
  | .reduceSum r => some (reduceAttrs r)
  | .resize r => some (resizeAttrs r)
  | .shape s => some (shapeAttrs s)
  | .softmax axis => some [axisAttr axis]
  | .split s => some (splitAttrs s)
  | .squeeze axes => some (optionalInts "axes" TensorIndex.raw axes)
  | .swish alpha => some (if alpha ≠ .ofNat 1 then [attrFloat "alpha" alpha] else [])
  | .transpose perm => some (optionalInts "perm" Int64.ofNat perm)
  | .unsqueeze axes => some (if axes ≠ [] then [attrInts "axes" (axes.map TensorIndex.raw)] else [])
  | .contiguous _ => some []
  | .nhwc2nchw => some []
  | .reduceMatrix op =>
      let op := match op with
        | .max => "max"
        | .mean => "mean"
        | .variance => "variance"
        | .sum => "sum"
      some [attrString "reduction" op]
  | .reinterpret _ => some []
  | .input _ | .output _ | .sessionState _ => none

/-- `Operator::name`. -/
def operatorName : Operator → String
  | .add => "Add"
  | .and => "And"
  | .attention _ => "Attention"
  | .averagePool _ => "AveragePool"
  | .batchedGemm _ => "BatchedGemm"
  | .batchNormalization _ => "BatchNormalization"
  | .cast _ => "Cast"
  | .clip _ => "Clip"
  | .concat _ => "Concat"
  | .constant _ => "Constant"
  | .constantOfShape _ => "ConstantOfShape"
  | .conv _ => "Conv"
  | .cos => "Cos"
  | .dequantizeLinear _ => "DequantizeLinear"
  | .dequantMatMul _ => "DequantMatMul"
  | .dynamicQuantizeLinear _ => "DynamicQuantizeLinear"
  | .quantizedMatMul _ => "QuantizedMatMul"
  | .div => "Div"
  | .equal => "Equal"
  | .expand => "Expand"
  | .exp => "Exp"
  | .flatten _ => "Flatten"
  | .gather _ => "Gather"
  | .geLU _ => "Gelu"
  | .gemm _ => "Gemm"
  | .globalAveragePool => "GlobalAveragePool"
  | .identity => "Identity"
  | .isNaN => "IsNaN"
  | .layerNormalization _ => "LayerNormalization"
  | .leakyReLU _ => "LeakyRelu"
  | .lessOrEqual => "LessOrEqual"
  | .log => "Log"
  | .matMul => "MatMul"
  | .maxPool _ => "MaxPool"
  | .mul => "Mul"
  | .neg => "Neg"
  | .nonZero => "NonZero"
  | .oneHot _ => "OneHot"
  | .pow => "Pow"
  | .range => "Range"
  | .reciprocal => "Reciprocal"
  | .reduceMax _ => "ReduceMax"
  | .reduceMean _ => "ReduceMean"
  | .reduceSum _ => "ReduceSum"
  | .reLU => "Relu"
  | .reshape => "Reshape"
  | .resize _ => "Resize"
  | .rmsNormalization _ => "RMSNormalization"
  | .shape _ => "Shape"
  | .sigmoid => "Sigmoid"
  | .sin => "Sin"
  | .slice => "Slice"
  | .softmax _ => "Softmax"
  | .split _ => "Split"
  | .sqrt => "Sqrt"
  | .squeeze _ => "Squeeze"
  | .sub => "Sub"
  | .swish _ => "Swish"
  | .tanh => "Tanh"
  | .transpose _ => "Transpose"
  | .unsqueeze _ => "Unsqueeze"
  | .where_ => "Where"
  | .allReduce => "AllReduce"
  | .contiguous _ => "Contiguous"
  | .kvCacheUpdate => "KVCacheUpdate"
  | .quantizingKVCacheUpdate => "QuantizingKVCacheUpdate"
  | .rope _ => "Rope"
  | .transfer _ => "Transfer"
  | .nhwc2nchw => "NHWC2NCHW"
  | .reduceMatrix _ => "ReduceMatrix"
  | .reinterpret _ => "Reinterpret"
  | .input _ => "Input"
  | .output _ => "Output"
  | .sessionState _ => "SessionState"

end Onnx
end NnEngine
