import NnEngine.Graph.Modify
import NnEngine.Onnx.Save

/-!
# Saving graphs

`graph_to_proto` of `src/onnx/save.rs`.  A panic is `none`; a value that a graph names is one of its
values.
-/

namespace NnEngine
namespace Onnx

def dimensionToProto : Dimension → Option DimensionValue
  | .const x => some (.dimValue (Int64.ofNat x))
  | .param p => some (.dimParam p)

/-- `type_to_proto`. -/
def typeToProto : TensorType → TypeValue
  | .resolved ty =>
      .tensorType
        { elemType := dataTypeToI32 ty.elemType
          shape := some (ty.dims.map fun d => some (.dimValue (Int64.ofNat d))) }
  | .unresolved ty =>
      .tensorType
        { elemType := dataTypeToI32 ty.elemType, shape := ty.dims.map fun dims => dims.map dimensionToProto }

/-- `value_info_to_proto`. -/
def valueInfoToProto (graph : Graph) (v : ValueId) : Option ValueInfoProto :=
  (graph.values[v]?).map fun info => { name := info.name, type := info.ty.map fun ty => some (typeToProto ty) }

/-- The name of a value. -/
def valueName (graph : Graph) (v : ValueId) : Option String := (graph.values[v]?).map ValueInfo.name

/-- The name of an input of a node, which is empty if the input is absent. -/
def inputValueName (graph : Graph) : Option ValueId → Option String
  | some v => valueName graph v
  | none => some ""

/-- The message of a node. -/
def nodeToProto (graph : Graph) (node : Node) : Option NodeProto := do
  let attributes ← operatorAttrs node.op
  let input ← node.inputs.mapM (inputValueName graph)
  let output ← node.outputs.mapM (valueName graph)
  some { input, output, name := node.name, opType := operatorName node.op, attributes }

/-- `input_values`. -/
def inputValues (graph : Graph) : Option (List ValueId) :=
  graph.inputs.mapM fun id =>
    match (graph.node? id).map Node.op with
    | some (.input v) => some v
    | some (.sessionState v) => some v
    | _ => none

/-- `output_values`. -/
def outputValues (graph : Graph) : Option (List ValueId) :=
  graph.outputs.mapM fun id =>
    match (graph.node? id).map Node.op with
    | some (.output v) => some v
    | _ => none

/-- The message of an initializer of the map. -/
def initializerToProto (graph : Graph) (v : ValueId) : Option TensorProto :=
  (graph.initializer v).bind fun tensor =>
    (valueName graph v).map fun name => { tensorToProto tensor with name }

/-- `graph_to_proto`. -/
def graphToProto (graph : Graph) : Option GraphProto := do
  let node ← ((graph.iter.map Prod.snd).filter fun node => !node.isDummy).mapM (nodeToProto graph)
  let inputs ← inputValues graph
  let input ← (inputs.filter fun v => !graph.hasInitializer v).mapM (valueInfoToProto graph)
  let outputs ← outputValues graph
  let output ← outputs.mapM (valueInfoToProto graph)
  let initializer := (List.range graph.values.length).filterMap (initializerToProto graph)
  some { node, initializer, input, output }

end Onnx
end NnEngine
