import NnEngine.Graph.Meaning

/-!
# Contiguous operands

`ContiguousInsertion` of `src/transform/lower/contiguous_insertion.rs`: the kernels of some operators take contiguous
operands only, so these read a copy that a `Contiguous` makes.  A value that has a copy already is not copied
again: the pass takes the first `Contiguous` among the readers, whatever steps it carries.
-/

namespace NnEngine

open DepthFirst InverseIndex SimpleGraphOp GraphState

namespace args

def ATTENTION_Q : Nat := 0
def ATTENTION_K : Nat := 1
def ATTENTION_V : Nat := 2
def ATTENTION_MASK : Nat := 3
def KVCACHE_UPDATE_NEW : Nat := 1
def QKVCACHE_UPDATE_NEW : Nat := 2
def ROPE_X : Nat := 0

end args

/-- `contiguous`. -/
def ResolvedTensorType.contiguous (ty : ResolvedTensorType) : ResolvedTensorType := .new ty.elemType ty.dims

namespace ContiguousInsertion

/-- The operators whose nodes `run` collects. -/
def isHandled : Operator → Bool
  | .batchedGemm _ | .attention _ | .averagePool _ | .conv _ | .maxPool _ | .kvCacheUpdate
  | .quantizingKVCacheUpdate | .rope _ => true
  | _ => false

def isContiguous : Operator → Bool
  | .contiguous _ => true
  | _ => false

/-- The loop of `find_or_create_contiguous`, over the users of the value. -/
def findContiguous (g : Graph) (input : ValueId) : List Place → Except Stop (Option ValueId)
  | [] => .ok none
  | x :: users =>
      (orPanic (g.node? x.1)).bind fun user =>
        if isContiguous user.op then
          (orPanic user.inputs[0]?.join).bind fun first =>
            if first = input then (orPanic user.outputs[0]?).map some else findContiguous g input users
        else findContiguous g input users

/-- What `find_or_create_contiguous` finds. -/
def find (st : GraphState) (input : ValueId) : Except Stop (Option ValueId) :=
  findContiguous st.graph input (places st.maps.value2used input)

/-- The `Contiguous` that it registers otherwise, with its output. -/
def create (st : GraphState) (input : ValueId) (name : String) (inputType : ResolvedTensorType) :
    ValueId × GraphState :=
  let (newValue, st) := st.registerNewValue s!"{name}_contiguous" inputType.contiguous
  (newValue, st.registerNewNode {
    inputs := [some input]
    outputs := [newValue]
    name := s!"{name}_contiguous"
    op := .contiguous []
    markAsDeleted := false })

/-- `find_or_create_contiguous`. -/
def findOrCreateContiguous (st : GraphState) (input : ValueId) (name : String) :
    Except Stop (ValueId × GraphState) :=
  (find st input).bind fun
    | some output => .ok (output, st)
    | none => (orPanic (st.graph.getResolvedTensorType input)).map (create st input name)

/-! ### The handlers -/

/-- An operand that a handler replaces.  It is read when the handler starts, or by `handle_attention` when its turn
comes. -/
inductive Slot
  | cloned (arg : Nat) (input : Option ValueId) (name : String)
  | live (arg : Nat) (name : String)

namespace Slot

def arg : Slot → Nat
  | cloned arg _ _ => arg
  | live arg _ => arg

def name : Slot → String
  | cloned _ _ name => name
  | live _ name => name

/-- The value that the handler takes the slot of node `id` for, which it unwraps. -/
def input (g : Graph) (id : NodeId) : Slot → Option ValueId
  | cloned _ input _ => input
  | live arg _ => (g.node? id).bind fun node => node.inputs[arg]?.join

end Slot

/-- A slot with the operand that the node has now. -/
def clone (node : Node) (arg : Nat) (name : String) : Slot := .cloned arg node.inputs[arg]?.join name

/-- `handle_batched_gemm`: all operands. -/
def handleBatchedGemm (node : Node) : List Slot :=
  (List.range node.inputs.length).map fun i => clone node i s!"{node.name}_input_{i}"

/-- `handle_conv_pool`. -/
def handleConvPool (node : Node) : List Slot := [clone node 0 s!"{node.name}_input_0"]

/-- `handle_kv_cache_update`. -/
def handleKvCacheUpdate (node : Node) : List Slot :=
  [clone node args.KVCACHE_UPDATE_NEW s!"{node.name}_input_new"]

/-- `handle_quantizing_kv_cache_update`. -/
def handleQuantizingKvCacheUpdate (node : Node) : List Slot :=
  [clone node args.QKVCACHE_UPDATE_NEW s!"{node.name}_input_new"]

/-- `handle_rope`. -/
def handleRope (node : Node) : List Slot := [clone node args.ROPE_X s!"{node.name}_input_x"]

/-- `handle_attention`: the mask only if there is one. -/
def handleAttention (node : Node) : List Slot :=
  let inputs := [args.ATTENTION_Q, args.ATTENTION_K, args.ATTENTION_V] ++
    (if node.inputs[args.ATTENTION_MASK]?.join.isSome then [args.ATTENTION_MASK] else [])
  inputs.map fun arg => .live arg s!"{node.name}_input_{arg}"

/-- The slots of the handler that `run` calls.  The other operators are unreachable. -/
def slots (node : Node) : Option (List Slot) :=
  match node.op with
  | .batchedGemm _ => some (handleBatchedGemm node)
  | .attention _ => some (handleAttention node)
  | .averagePool _ | .conv _ | .maxPool _ => some (handleConvPool node)
  | .kvCacheUpdate => some (handleKvCacheUpdate node)
  | .quantizingKVCacheUpdate => some (handleQuantizingKvCacheUpdate node)
  | .rope _ => some (handleRope node)
  | _ => none

/-- What a handler does for one slot. -/
def turn (id : NodeId) (st : GraphState) (slot : Slot) : Except Stop GraphState :=
  (orPanic (slot.input st.graph id)).bind fun input =>
    (findOrCreateContiguous st input slot.name).bind fun (newValue, st) =>
      st.replaceInputValueIfWithoutTypecheck input newValue fun id2 _ => id == id2

/-- The body of the loop of `run`. -/
def visit (st : GraphState) (id : NodeId) : Except Stop GraphState :=
  (orPanic (st.graph.node? id)).bind fun node =>
    (orPanic (slots node)).bind fun slots => slots.foldlM (turn id) st

/-- The nodes that `run` collects. -/
def candidates (g : Graph) : List NodeId := (g.iter.filter fun x => isHandled x.2.op).map Prod.fst

/-- `run`. -/
def run (st : GraphState) : Except Stop GraphState := (candidates st.graph).foldlM visit st

end ContiguousInsertion
end NnEngine
