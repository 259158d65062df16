import NnEngine.Tensor.Data

/-!
# ONNX messages

The messages of `onnx.proto3` as the loader and the saver use them: the fields that one of them reads or
writes.  Their wire format is left to the code generator that is not part of the repository.
-/

namespace NnEngine
namespace Onnx

/-! ### The numbers of `tensor_proto::DataType` -/

namespace ProtoDataType

def UNDEFINED : Int32 := 0
def FLOAT : Int32 := 1
def UINT8 : Int32 := 2
def INT8 : Int32 := 3
def INT32 : Int32 := 6
def INT64 : Int32 := 7
def BOOL : Int32 := 9
def DOUBLE : Int32 := 11
def UINT64 : Int32 := 13
def BFLOAT16 : Int32 := 16

end ProtoDataType

/-! ### Messages -/

/-- `attribute_proto::AttributeType`. -/
inductive AttributeType
  | float
  | int
  | string
  | tensor
  | ints
  | strings
  | other (n : Int32)
  deriving DecidableEq, Repr

structure TensorProto where
  dims : List Int64 := []
  dataType : Int32 := 0
  floatData : List F32 := []
  int32Data : List Int32 := []
  int64Data : List Int64 := []
  doubleData : List F64 := []
  uint64Data : List UInt64 := []
  rawData : List UInt8 := []
  externalData : List (String × String) := []
  name : String := ""
  deriving DecidableEq, Repr

structure AttributeProto where
  name : String
  type : AttributeType
  f : F32 := default
  i : Int64 := 0
  s : ByteArray := ByteArray.empty
  t : Option TensorProto := none
  ints : List Int64 := []
  strings : List ByteArray := []
  deriving DecidableEq

structure NodeProto where
  input : List String
  output : List String
  name : String
  opType : String
  attributes : List AttributeProto
  deriving DecidableEq

/-- `tensor_shape_proto::dimension::Value`. -/
inductive DimensionValue
  | dimValue (v : Int64)
  | dimParam (name : String)
  deriving DecidableEq, Repr

/-- `type_proto::Tensor`, with the dimensions of its shape. -/
structure TensorTypeProto where
  elemType : Int32
  shape : Option (List (Option DimensionValue))
  deriving DecidableEq, Repr

/-- `type_proto::Value`. -/
inductive TypeValue
  | tensorType (t : TensorTypeProto)
  | other
  deriving DecidableEq, Repr

/-- `ValueInfoProto`; a type is an optional `TypeProto` with an optional value. -/
structure ValueInfoProto where
  name : String
  type : Option (Option TypeValue)
  deriving DecidableEq, Repr

structure GraphProto where
  node : List NodeProto
  initializer : List TensorProto
  input : List ValueInfoProto
  output : List ValueInfoProto
  deriving DecidableEq

end Onnx
end NnEngine
