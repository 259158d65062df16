import NnEngine.Graph.Operator
import NnEngine.Onnx.Proto

/-!
# Loading tensors and operators

`load_tensor`, `load_attributes` and `load_op` of `src/onnx/load.rs`.  `LoadError` leaves out the debug
texts of attributes, of decoding errors and of the standard library, and does not tell element types
that ONNX does not have from those that the engine does not support.  The file system is a parameter.
-/

namespace NnEngine
namespace Onnx

/-- The files, by their paths. -/
abbrev Files := String → Option (List UInt8)

/-- `Path::join`. -/
def joinPath (base location : String) : String :=
  if location.startsWith "/" || base.isEmpty then location else base ++ "/" ++ location

/-- `Attribute`. -/
inductive Attribute
  | float (x : F32)
  | int (x : Int64)
  | ints (x : List Int64)
  | str (x : String)
  | strings (x : List String)
  | tensor (x : Tensor)
  deriving DecidableEq, Repr

/-- `ModelLoadError`; a panic is one too. -/
inductive LoadError
  | panic
  | fileRead
  | elemTypeUnspecified
  | noGraph
  | unsupportedElemType (n : Int32)
  | unsupportedValueType
  | unsupportedAttributeType (type : AttributeType)
  | unsupportedOp (name : String)
  | negativeDimension (dim : Int64)
  | typeError
  | required (name : String)
  | unexpected (msg : String)
  | unexpectedAttribute (x : Attribute)
  deriving DecidableEq, Repr

abbrev LoadResult := Except LoadError

/-! ### Tensors -/

/-- `DataType::try_from`. -/
def dataTypeTryFrom (value : Int32) : LoadResult DataType :=
  if value = ProtoDataType.BOOL then .ok .bool
  else if value = ProtoDataType.BFLOAT16 then .ok (.float .BF16)
  else if value = ProtoDataType.FLOAT then .ok (.float .F32)
  else if value = ProtoDataType.DOUBLE then .ok (.float .F64)
  else if value = ProtoDataType.INT8 then .ok (.sInt .I8)
  else if value = ProtoDataType.INT32 then .ok (.sInt .I32)
  else if value = ProtoDataType.INT64 then .ok (.sInt .I64)
  else if value = ProtoDataType.UINT8 then .ok (.uInt .U8)
  else if value = ProtoDataType.UINT64 then .ok (.uInt .U64)
  else if value = ProtoDataType.UNDEFINED then .error .elemTypeUnspecified
  else .error (.unsupportedElemType value)

/-- `s.parse::<u64>().ok()`. -/
def parseU64 (s : String) : Option Nat :=
  let digits := if s.startsWith "+" then s.toList.drop 1 else s.toList
  if digits.isEmpty || !digits.all Char.isDigit then none
  else
    let n := digits.foldl (fun n c => 10 * n + (c.toNat - '0'.toNat)) 0
    if n < 2 ^ 64 then some n else none

/-- The value of a key, the last one if there are several. -/
def lookupLast (entries : List (String × String)) (key : String) : Option String :=
  (entries.reverse.find? fun e => e.1 = key).map Prod.snd

/-- Where external data lie. -/
structure ExternalData where
  path : String
  offset : Nat
  length : Option Nat
  deriving DecidableEq, Repr

/-- `parse_external_data`. -/
def parseExternalData (tensor : TensorProto) (baseDir : Option String) : LoadResult ExternalData := do
  let location ← match lookupLast tensor.externalData "location" with
    | some location => .ok location
    | none => .error (.unexpected "external_data missing location")
  let offset := ((lookupLast tensor.externalData "offset").bind parseU64).getD 0
  let length := (lookupLast tensor.externalData "length").bind parseU64
  match baseDir with
  | some base => .ok { path := joinPath base location, offset, length }
  | none => .error (.unexpected "external_data requires base_dir")

/-- The bytes that `load_tensor` reads from a file. -/
def readExternal (files : Files) (external : ExternalData) : LoadResult (List UInt8) :=
  match files external.path with
  | none => .error .fileRead
  | some bytes =>
      let rest := bytes.drop external.offset
      match external.length with
      | none => .ok rest
      | some len => if rest.length < len then .error .fileRead else .ok (rest.take len)

/-- The elements of a tensor that has no raw bytes. -/
def inlineData (tensor : TensorProto) : DataType → LoadResult TensorData
  | .bool => .ok (.bool (tensor.int32Data.map fun v => if v ≠ 0 then 1 else 0))
  | .sInt .I8 => .ok (.sInt .I8 (tensor.int32Data.map Int32.toInt64))
  | .sInt .I32 => .ok (.sInt .I32 (tensor.int32Data.map Int32.toInt64))
  | .sInt .I64 => .ok (.sInt .I64 tensor.int64Data)
  | .uInt .U8 => .ok (.uInt .U8 (tensor.int32Data.map fun v => v.toInt64.toUInt64))
  | .uInt .U64 => .ok (.uInt .U64 tensor.uint64Data)
  | .float .F32 => .ok (.float .F32 (tensor.floatData.map F32.asF64))
  | .float .F64 => .ok (.float .F64 tensor.doubleData)
  | .float .BF16 => .error .typeError

/-- `usize::try_from` of a dimension. -/
def loadDim (dim : Int64) : LoadResult Nat :=
  if dim < 0 then .error (.negativeDimension dim) else .ok dim.toNatClampNeg

/-- The elements in `load_tensor`. -/
def loadData (files : Files) (tensor : TensorProto) (baseDir : Option String) (elemType : DataType) :
    LoadResult TensorData :=
  if tensor.externalData ≠ [] then
    ((parseExternalData tensor baseDir).bind (readExternal files)).map (TensorData.fromBytes elemType)
  else if tensor.rawData = [] then inlineData tensor elemType
  else .ok (TensorData.fromBytes elemType tensor.rawData)

/-- `load_tensor`. -/
def loadTensor (files : Files) (tensor : TensorProto) (baseDir : Option String) : LoadResult Tensor := do
  let elemType ← dataTypeTryFrom tensor.dataType
  let data ← loadData files tensor baseDir elemType
  let dims ← tensor.dims.mapM loadDim
  match Tensor.new (ResolvedTensorDims.new dims) data with
  | some tensor => pure tensor
  | none => .error .typeError

/-! ### Attributes -/

namespace Attribute

/-- `f`. -/
def f : Attribute → LoadResult F32
  | float x => .ok x
  | x => .error (.unexpectedAttribute x)

/-- `i`. -/
def i : Attribute → LoadResult Int64
  | int x => .ok x
  | x => .error (.unexpectedAttribute x)

/-- `index`. -/
def index (x : Attribute) : LoadResult TensorIndex := x.i.map TensorIndex.mk

/-- `b`. -/
def b (x : Attribute) : LoadResult Bool := x.i.map fun i => decide (i ≠ 0)

/-- `ints::<i64>`, and `ints::<isize>`, which cannot fail either. -/
def ints' : Attribute → LoadResult (List Int64)
  | ints x => .ok x
  | x => .error (.unexpectedAttribute x)

/-- `usize::try_from` of an integer. -/
def usize (i : Int64) : LoadResult Nat :=
  if i < 0 then .error (.unexpected "") else .ok i.toNatClampNeg

/-- `ints::<usize>`. -/
def usizes (x : Attribute) : LoadResult (List Nat) := x.ints'.bind fun l => l.mapM usize

/-- `indexes`. -/
def indexes (x : Attribute) : LoadResult (List TensorIndex) := x.ints'.map fun l => l.map TensorIndex.mk

/-- `s`. -/
def s : Attribute → LoadResult String
  | str x => .ok x
  | x => .error (.unexpectedAttribute x)

/-- `ty`. -/
def ty (x : Attribute) : LoadResult DataType := x.i.bind fun i => dataTypeTryFrom i.toInt32

/-- `tensor`. -/
def tensor' : Attribute → LoadResult Tensor
  | tensor x => .ok x
  | x => .error (.unexpectedAttribute x)

end Attribute

/-- `Attributes`. -/
abbrev Attributes := String → Option Attribute

/-- `load_utf8`. -/
def loadUtf8 (v : ByteArray) : LoadResult String :=
  match String.fromUTF8? v with
  | some s => .ok s
  | none => .error (.unexpected "invalid utf-8")

/-- The value of an attribute in `load_attributes`. -/
def loadAttribute (files : Files) (baseDir : Option String) (attr : AttributeProto) :
    LoadResult Attribute :=
  match attr.type with
  | .float => .ok (.float attr.f)
  | .int => .ok (.int attr.i)
  | .ints => .ok (.ints attr.ints)
  | .string => (loadUtf8 attr.s).map .str
  | .strings => (attr.strings.mapM loadUtf8).map .strings
  | .tensor =>
      match attr.t with
      | none => .error .panic
      | some t => (loadTensor files t baseDir).map .tensor
  | type => .error (.unsupportedAttributeType type)

/-- `load_attributes`, from the attributes that are there already. -/
def loadAttributesFrom (files : Files) (baseDir : Option String) (res : Attributes)
    (v : List AttributeProto) : LoadResult Attributes :=
  v.foldlM (fun res attr => (loadAttribute files baseDir attr).map fun value =>
    Function.update res attr.name (some value)) res

/-- `load_attributes`. -/
def loadAttributes (files : Files) (baseDir : Option String) (v : List AttributeProto) :
    LoadResult Attributes := loadAttributesFrom files baseDir (fun _ => none) v

namespace Attributes

/-- `get(name).map(read).transpose()?`. -/
def get (attributes : Attributes) {α : Type} (name : String) (read : Attribute → LoadResult α) :
    LoadResult (Option α) :=
  match attributes name with
  | none => .ok none
  | some x => (read x).map some

/-- `get(name).map(read).transpose()?.unwrap_or(default)`. -/
def getOr (attributes : Attributes) {α : Type} (name : String) (read : Attribute → LoadResult α)
    (dflt : α) : LoadResult α := (attributes.get name read).map fun x => x.getD dflt

/-- `required`. -/
def required (attributes : Attributes) (name : String) : LoadResult Attribute :=
  match attributes name with
  | none => .error (.required name)
  | some x => .ok x

end Attributes

end Onnx
end NnEngine
