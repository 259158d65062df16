import NnEngine.DepthFirst
import NnEngine.Graph.Operator
import NnEngine.InverseIndex

/-!
# Modifying a graph

`SimpleGraphOp` of `src/transform/modify.rs`: the operations of `GraphOp` and `NodeDelete` on a graph,
with the maps from a value to its users and to its definition.  A panic is `Stop.panic`.

An index set is a list; the order in which a hash set is walked is the order of the set it was taken
from.
-/

namespace NnEngine

open DepthFirst InverseIndex

structure ValueInfo where
  name : String
  ty : Option TensorType
  deriving DecidableEq, Repr

/-- `ExternalTensorRef`. -/
structure ExternalTensorRef where
  path : String
  offset : Nat
  length : Option Nat
  elemType : DataType
  dims : ResolvedTensorDims
  deriving DecidableEq, Repr

structure Node where
  inputs : List (Option ValueId)
  outputs : List ValueId
  name : String
  op : Operator
  markAsDeleted : Bool
  deriving DecidableEq, Repr

/-- `is_dummy`. -/
def Node.isDummy (node : Node) : Bool := node.op.operatorType == .dummy

structure Graph where
  nodes : List Node
  inputs : List NodeId
  outputs : List NodeId
  values : List ValueInfo
  initializer : ValueId → Option Tensor
  externalRefs : ValueId → Option ExternalTensorRef

namespace Graph

/-- `nodes[id]`, which panics for a deleted node. -/
def node? (g : Graph) (id : NodeId) : Option Node := (g.nodes[id]?).filter fun node => !node.markAsDeleted

/-- `nodes.iter()`, which hides the deleted nodes. -/
def iter (g : Graph) : List (NodeId × Node) :=
  (g.nodes.zipIdx.map Prod.swap).filter fun x => !x.2.markAsDeleted

def setNode (g : Graph) (id : NodeId) (node : Node) : Graph := { g with nodes := g.nodes.set id node }

/-- `has_initializer`. -/
def hasInitializer (g : Graph) (v : ValueId) : Bool := (g.initializer v).isSome || (g.externalRefs v).isSome

/-- `get_resolved_tensor_type`. -/
def getResolvedTensorType (g : Graph) (v : ValueId) : Option ResolvedTensorType :=
  match (g.values[v]?).bind ValueInfo.ty with
  | some (.resolved ty) => some ty
  | _ => none

/-- `set_initializer`. -/
def setInitializer (g : Graph) (v : ValueId) (tensor : Tensor) : Graph :=
  { g with
    initializer := Function.update g.initializer v (some tensor)
    externalRefs := Function.update g.externalRefs v none }

end Graph

/-- A place in a node's inputs or outputs. -/
abbrev Place := NodeId × Nat

structure SimpleGraphOp where
  value2defined : ValueId → Option Place
  value2used : Index ValueId Place

/-- The inputs of a node that are present, with their places. -/
def inputPlaces (id : NodeId) (node : Node) : List (ValueId × Place) :=
  node.inputs.zipIdx.filterMap fun x => x.1.map fun v => (v, id, x.2)

def outputPlaces (id : NodeId) (node : Node) : List (ValueId × Place) :=
  node.outputs.zipIdx.map fun x => (x.1, id, x.2)

namespace SimpleGraphOp

/-- The two loops over a node that `calc_value2xx` and `register_new_node` share. -/
def addNode (maps : SimpleGraphOp) (id : NodeId) (node : Node) : SimpleGraphOp where
  value2used := (inputPlaces id node).foldl (fun m x => insert m x.1 x.2) maps.value2used
  value2defined :=
    (outputPlaces id node).foldl (fun m x => Function.update m x.1 (some x.2)) maps.value2defined

/-- `calc_value2xx`, which is also `SimpleGraphOp::new`. -/
def calcValue2xx (g : Graph) : SimpleGraphOp :=
  g.iter.foldl (fun maps x => maps.addNode x.1 x.2)
    { value2defined := fun _ => none, value2used := fun _ => none }

/-- The nodes that `used_nodes_dfs` goes on to. -/
def usedNodes (g : Graph) (maps : SimpleGraphOp) (id : NodeId) : Option (List NodeId) :=
  (g.node? id).bind fun node =>
    match node.op with
    | .input _ => some []
    | _ =>
        ((node.inputs.filterMap fun v => v).filter fun v => !g.hasInitializer v).mapM fun v =>
          (maps.value2defined v).map Prod.fst

/-- The visited set of `used_nodes_dfs` from all outputs. -/
def usedNodesDfs (g : Graph) (maps : SimpleGraphOp) : Except Stop (List NodeId) :=
  search (maps.usedNodes g) (g.nodes.length + 1) g.outputs

end SimpleGraphOp

/-- A graph with its maps. -/
structure GraphState where
  graph : Graph
  maps : SimpleGraphOp

namespace GraphState

/-- `SimpleGraphOp::new`. -/
def new (g : Graph) : GraphState := { graph := g, maps := .calcValue2xx g }

/-- An `unwrap`, an index or an assertion that panics. -/
def orPanic {α : Type} : Option α → Except Stop α
  | none => .error .panic
  | some a => .ok a

theorem orPanic_some_bind {α β : Type} (a : α) (f : α → Except Stop β) : (orPanic (some a)).bind f = f a := rfl

/-- `register_new_value`. -/
def registerNewValue (st : GraphState) (name : String) (ty : ResolvedTensorType) :
    ValueId × GraphState :=
  (st.graph.values.length,
    { st with
      graph :=
        { st.graph with values := st.graph.values ++ [{ name, ty := some (.resolved ty) }] } })

/-- `register_new_node`. -/
def registerNewNode (st : GraphState) (node : Node) : GraphState where
  graph := { st.graph with nodes := st.graph.nodes ++ [node] }
  maps := st.maps.addNode st.graph.nodes.length node

/-- `register_new_tensor`. -/
def registerNewTensor (st : GraphState) (tensor : Tensor) (name : String) : GraphState :=
  let (v, st) := st.registerNewValue name tensor.tensorType
  { st with graph := st.graph.setInitializer v tensor }

/-- The users of `old` that satisfy the predicate.  A deleted user would panic. -/
def changed (st : GraphState) (old : ValueId) (pred : NodeId → Node → Bool) :
    Except Stop (List Place) :=
  let used := places st.maps.value2used old
  if used.all fun x => (st.graph.node? x.1).isSome then
    .ok (used.filter fun x => (st.graph.node? x.1).any (pred x.1))
  else .error .panic

/-- The body of the loop over the changed places. -/
def replaceAt (old new : ValueId) (g : Graph) (x : Place) : Except Stop Graph :=
  (orPanic (g.node? x.1)).bind fun node =>
    let op : Except Stop Operator :=
      match node.op with
      | .output v => if v = old then .ok (.output new) else .error .panic
      | op => .ok op
    op.bind fun op =>
      if node.inputs.length ≤ x.2 then .error .panic
      else .ok (g.setNode x.1 { node with op, inputs := node.inputs.set x.2 (some new) })

/-- `replace_input_value_if_without_typecheck`. -/
def replaceInputValueIfWithoutTypecheck (st : GraphState) (old new : ValueId)
    (pred : NodeId → Node → Bool) : Except Stop GraphState :=
  (st.changed old pred).bind fun changed =>
    if changed.isEmpty then .ok st
    else
      let used := (remove st.maps.value2used old changed).getD st.maps.value2used
      (changed.foldlM (replaceAt old new) st.graph).map fun graph =>
        { graph
          maps := { st.maps with value2used := changed.foldl (fun m x => insert m new x) used } }

/-- `replace_input_value_if`. -/
def replaceInputValueIf (st : GraphState) (old new : ValueId) (pred : NodeId → Node → Bool) :
    Except Stop GraphState :=
  (orPanic (st.graph.getResolvedTensorType old)).bind fun oldTy =>
    (orPanic (st.graph.getResolvedTensorType new)).bind fun newTy =>
      if oldTy ≠ newTy then .error .panic
      else st.replaceInputValueIfWithoutTypecheck old new pred

/-- `walk_chain_backward`.  The loop ends only if the chain does, so it has fuel. -/
def walkChainBackward (st : GraphState) (pred : Node → Bool) :
    Nat → ValueId → Except Stop (ValueId × List NodeId)
  | 0, _ => .error .fuel
  | fuel + 1, v =>
      match st.maps.value2defined v with
      | none => .ok (v, [])
      | some x =>
          (orPanic (st.graph.node? x.1)).bind fun node =>
            if pred node then
              (orPanic (node.inputs[0]?).join).bind fun u =>
                (walkChainBackward st pred fuel u).map fun r => (r.1, x.1 :: r.2)
            else .ok (v, [])

/-- `replace_op`. -/
def replaceOp (st : GraphState) (id : NodeId) (op : Operator) : Except Stop GraphState :=
  (orPanic (st.graph.node? id)).map fun node =>
    { st with graph := st.graph.setNode id { node with op } }

/-- `replace_tensor_type`. -/
def replaceTensorType (st : GraphState) (v : ValueId) (ty : ResolvedTensorType) :
    Except Stop GraphState :=
  (orPanic st.graph.values[v]?).map fun info =>
    { st with
      graph :=
        { st.graph with
          values := st.graph.values.set v { info with ty := some (.resolved ty) } } }

/-- `replace_tensor`. -/
def replaceTensor (st : GraphState) (v : ValueId) (tensor : Tensor) : Except Stop GraphState :=
  (st.replaceTensorType v tensor.tensorType).map fun st =>
    { st with graph := st.graph.setInitializer v tensor }

/-- `set_node_input`. -/
def setNodeInput (st : GraphState) (id : NodeId) (index : Nat) (value : ValueId) :
    Except Stop GraphState :=
  (orPanic (st.graph.node? id)).map fun node =>
    let inputs := node.inputs ++ List.replicate (index + 1 - node.inputs.length) none
    let used :=
      match inputs.getD index none with
      | none => st.maps.value2used
      | some old => (remove st.maps.value2used old [(id, index)]).getD st.maps.value2used
    { graph := st.graph.setNode id { node with inputs := inputs.set index (some value) }
      maps := { st.maps with value2used := insert used value (id, index) } }

/-- `drop_node_input`. -/
def dropNodeInput (st : GraphState) (id : NodeId) (index : Nat) : Except Stop GraphState :=
  (orPanic (st.graph.node? id)).bind fun node =>
    match node.inputs[index]? with
    | none => .error .panic
    | some none => .ok st
    | some (some old) =>
        (orPanic (remove st.maps.value2used old [(id, index)])).map fun value2used =>
          { graph := st.graph.setNode id { node with inputs := node.inputs.set index none }
            maps := { st.maps with value2used } }

/-- The body of the first loop of `update_deleted_nodes`. -/
def deleteNode (st : GraphState) (x : NodeId × Node) : Except Stop GraphState :=
  if x.2.isDummy then .ok st
  else
    ((inputPlaces x.1 x.2).foldlM (fun m y => orPanic (remove m y.1 [y.2]))
      st.maps.value2used).map fun value2used =>
        { graph := st.graph.setNode x.1 { x.2 with markAsDeleted := true }
          maps := { st.maps with value2used } }

/-- The second loop of `update_deleted_nodes`.  `iter` hides the nodes that the first one deleted. -/
def dropDefinitions (st : GraphState) (visited : List NodeId) : GraphState :=
  { st with
    maps :=
      { st.maps with
        value2defined := (st.graph.iter.filter (·.1 ∉ visited)).foldl
          (fun m x => x.2.outputs.foldl (fun m v => Function.update m v none) m)
          st.maps.value2defined } }

/-- `update_deleted_nodes`. -/
def updateDeletedNodes (st : GraphState) : Except Stop GraphState :=
  (st.maps.usedNodesDfs st.graph).bind fun visited =>
    ((st.graph.iter.filter (·.1 ∉ visited)).foldlM deleteNode st).map fun st =>
      st.dropDefinitions visited

end GraphState

/-- An operation.  A node that is registered is a new one, so not deleted. -/
inductive GraphOp
  | registerNewValue (name : String) (ty : ResolvedTensorType)
  | registerNewNode (node : Node) (hnew : node.markAsDeleted = false)
  | registerNewTensor (tensor : Tensor) (name : String)
  | replaceInputValueIf (old new : ValueId) (pred : NodeId → Node → Bool)
  | replaceInputValueIfWithoutTypecheck (old new : ValueId) (pred : NodeId → Node → Bool)
  | replaceOp (id : NodeId) (op : Operator)
  | replaceTensorType (v : ValueId) (ty : ResolvedTensorType)
  | replaceTensor (v : ValueId) (tensor : Tensor)
  | setNodeInput (id : NodeId) (index : Nat) (value : ValueId)
  | dropNodeInput (id : NodeId) (index : Nat)
  | updateDeletedNodes

def GraphOp.apply (st : GraphState) : GraphOp → Except Stop GraphState
  | registerNewValue name ty => .ok (st.registerNewValue name ty).2
  | registerNewNode node _ => .ok (st.registerNewNode node)
  | registerNewTensor tensor name => .ok (st.registerNewTensor tensor name)
  | replaceInputValueIf old new pred => st.replaceInputValueIf old new pred
  | replaceInputValueIfWithoutTypecheck old new pred =>
      st.replaceInputValueIfWithoutTypecheck old new pred
  | replaceOp id op => st.replaceOp id op
  | replaceTensorType v ty => st.replaceTensorType v ty
  | replaceTensor v tensor => st.replaceTensor v tensor
  | setNodeInput id index value => st.setNodeInput id index value
  | dropNodeInput id index => st.dropNodeInput id index
  | updateDeletedNodes => st.updateDeletedNodes

/-- A sequence of operations. -/
def GraphState.run (st : GraphState) (ops : List GraphOp) : Except Stop GraphState :=
  ops.foldlM GraphOp.apply st

end NnEngine
