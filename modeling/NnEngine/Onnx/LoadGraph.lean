import NnEngine.Graph.Modify
import NnEngine.Interner
import NnEngine.Onnx.LoadOp
import NnEngine.Result

/-!
# Loading graphs

`GraphLoader` of `src/onnx/load.rs` with `load_type` and `make_external_ref`, and `get_initializer` of
`src/graph.rs`.  The graph's own name is left out.
-/

namespace NnEngine
namespace Onnx

/-! ### Types -/

/-- `Dimension::try_from` of a dimension that must have a value. -/
def loadDimension : Option DimensionValue → LoadResult Dimension
  | none => .error (.unexpected "Dimension.value must be specified")
  | some (.dimValue x) => (loadDim x).map .const
  | some (.dimParam x) => .ok (.param x)

/-- `load_tensor_type`. -/
def loadTensorType (tensor : TensorTypeProto) : LoadResult TensorType := do
  let elemType ← dataTypeTryFrom tensor.elemType
  match tensor.shape with
  | some dims => do
      let shape ← dims.mapM loadDimension
      pure (TensorType.unresolved { elemType, dims := some shape }).normalize
  | none => pure (.unresolved { elemType, dims := none })

/-- `load_type`. -/
def loadType : Option TypeValue → LoadResult TensorType
  | none => .error (.unexpected "TypeProto.value must be specified")
  | some (.tensorType tensor) => loadTensorType tensor
  | some .other => .error .unsupportedValueType

/-! ### Initializers -/

/-- `make_external_ref`, where a dimension is converted with `as usize`. -/
def makeExternalRef (tensor : TensorProto) (baseDir : Option String) : LoadResult ExternalTensorRef := do
  let elemType ← dataTypeTryFrom tensor.dataType
  let external ← parseExternalData tensor baseDir
  let dims := ResolvedTensorDims.new (tensor.dims.map fun x => x.toUInt64.toNat)
  pure { path := external.path, offset := external.offset, length := external.length, elemType, dims }

/-- `load_external`; a range that is not in the file panics. -/
def loadExternal (files : Files) (r : ExternalTensorRef) : Option Tensor :=
  (files r.path).bind fun bytes =>
    let finish := match r.length with
      | some length => r.offset + length
      | none => bytes.length
    if finish < r.offset ∨ bytes.length < finish then none
    else Tensor.new r.dims (TensorData.fromBytes r.elemType ((bytes.take finish).drop r.offset))

/-- `get_initializer`. -/
def getInitializer (files : Files) (g : Graph) (v : ValueId) : Option Tensor :=
  match g.initializer v with
  | some tensor => some tensor
  | none => (g.externalRefs v).bind (loadExternal files)

/-! ### The loader -/

/-- `GraphLoader`: `entries` and `values`, and the external tensors. -/
structure GraphLoader where
  table : Interner String ValueInfo
  externalRefs : ValueId → Option ExternalTensorRef

namespace GraphLoader

/-- `entries.entry(name).or_insert_with(|| values.alloc(ValueInfo { name, ty }))`. -/
def intern (l : GraphLoader) (info : ValueInfo) : ValueId × GraphLoader :=
  let (v, table) := l.table.intern ValueInfo.name info
  (v, { l with table })

/-- The body of the loop of `load_value_info_vec`. -/
def loadValueInfo (l : GraphLoader) (info : ValueInfoProto) : LoadResult (ValueId × GraphLoader) :=
  match info.type with
  | none => .error (.unexpected "ValueInfo.type must be specified")
  | some ty => (loadType ty).map fun ty => l.intern { name := info.name, ty := some ty }

/-- `load_value_info_vec`. -/
def loadValueInfoVec (l : GraphLoader) (v : List ValueInfoProto) : LoadResult (List ValueId × GraphLoader) :=
  mapState loadValueInfo l v

/-- The tensors that are loaded, by their values. -/
abbrev Initializers := ValueId → Option Tensor

/-- The body of the loop of `load_initializer`. -/
def loadInitializerTensor (files : Files) (baseDir : Option String) (x : Initializers × GraphLoader)
    (tensor : TensorProto) : LoadResult (Initializers × GraphLoader) :=
  let (res, l) := x
  if tensor.externalData ≠ [] then
    (makeExternalRef tensor baseDir).map fun r =>
      let ty := ResolvedTensorType.new r.elemType r.dims
      let (id, l) := l.intern { name := tensor.name, ty := some (.resolved ty) }
      (res, { l with externalRefs := Function.update l.externalRefs id (some r) })
  else
    (loadTensor files tensor baseDir).map fun loaded =>
      let (id, l) := l.intern { name := tensor.name, ty := some (.resolved loaded.tensorType) }
      (Function.update res id (some loaded), l)

/-- `load_initializer`. -/
def loadInitializer (l : GraphLoader) (files : Files) (baseDir : Option String) (v : List TensorProto) :
    LoadResult (Initializers × GraphLoader) :=
  v.foldlM (loadInitializerTensor files baseDir) (fun _ => none, l)

/-- `resolve`. -/
def resolve (l : GraphLoader) (x : String) : ValueId × GraphLoader := l.intern { name := x, ty := none }

/-- An input, which is absent if its name is empty. -/
def resolveInput (l : GraphLoader) (x : String) : LoadResult (Option ValueId × GraphLoader) :=
  if x.isEmpty then .ok (none, l) else .ok (some (l.resolve x).1, (l.resolve x).2)

/-- The body of the loop of `load_nodes`. -/
def loadNode (files : Files) (baseDir : Option String) (l : GraphLoader) (node : NodeProto) :
    LoadResult (Node × GraphLoader) := do
  let (inputs, l) ← mapState resolveInput l node.input
  let (outputs, l) ← mapState (fun l x => .ok (resolve l x)) l node.output
  let attributes ← loadAttributes files baseDir node.attributes
  let op ← loadOp node.opType attributes
  pure ({ name := node.name, inputs, outputs, op, markAsDeleted := false }, l)

/-- `load_nodes`. -/
def loadNodes (l : GraphLoader) (files : Files) (baseDir : Option String) (nodes : List NodeProto) :
    LoadResult (List Node × GraphLoader) := mapState (loadNode files baseDir) l nodes

end GraphLoader

/-- The node of a graph input. -/
def inputNode (values : List ValueInfo) (v : ValueId) : Node where
  name := ((values[v]?).map ValueInfo.name).getD ""
  inputs := []
  outputs := [v]
  op := .input v
  markAsDeleted := false

/-- The node of a graph output. -/
def outputNode (values : List ValueInfo) (v : ValueId) : Node where
  name := ((values[v]?).map ValueInfo.name).getD ""
  inputs := [some v]
  outputs := []
  op := .output v
  markAsDeleted := false

/-- What stands for a value that nothing defines. -/
def dummyTensor : Tensor := ⟨.float .F32 [.neg (.ofNat 42)], [], Tensor.hsize_scalar⟩

/-- The values that a node reads and nothing defines. -/
def undefinedValues (initializer : GraphLoader.Initializers) (l : GraphLoader) (nodes : List Node) :
    List ValueId :=
  (nodes.flatMap fun node => node.inputs.filterMap id).filter fun v =>
    (initializer v).isNone ∧ (l.externalRefs v).isNone ∧ v ∉ nodes.flatMap Node.outputs

/-- The graph with what was loaded. -/
def assemble (initializer : GraphLoader.Initializers) (l : GraphLoader) (inputs outputs : List ValueId)
    (nodes : List Node) : Graph :=
  let values := l.table.values
  let allNodes := nodes ++ inputs.map (inputNode values) ++ outputs.map (outputNode values)
  let undefineds := undefinedValues initializer l allNodes
  { nodes := allNodes
    inputs := List.range' nodes.length inputs.length
    outputs := List.range' (nodes.length + inputs.length) outputs.length
    values := values.mapIdx fun v info =>
      if v ∈ undefineds then { info with ty := some (.resolved dummyTensor.tensorType) } else info
    initializer := fun v => if v ∈ undefineds then some dummyTensor else initializer v
    externalRefs := fun v => if v ∈ undefineds then none else l.externalRefs v }

/-- `load_graph`. -/
def loadGraph (files : Files) (graph : GraphProto) (baseDir : Option String) : LoadResult Graph := do
  let l : GraphLoader := { table := .empty, externalRefs := fun _ => none }
  let input := graph.input.filter fun x => x.name ∉ graph.initializer.map TensorProto.name
  let (initializer, l) ← l.loadInitializer files baseDir graph.initializer
  let (inputs, l) ← l.loadValueInfoVec input
  let (outputs, l) ← l.loadValueInfoVec graph.output
  let (nodes, l) ← l.loadNodes files baseDir graph.node
  pure (assemble initializer l inputs outputs nodes)

end Onnx
end NnEngine
