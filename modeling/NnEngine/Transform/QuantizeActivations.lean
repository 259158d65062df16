import NnEngine.Codegen.QuantizersSound
import NnEngine.Graph.Exact
import NnEngine.Graph.Readers
import NnEngine.Graph.ViewShapes

/-!
# Quantisation of activations

`QuantizeActivations` of `src/transform/optimize/quantize_activations.rs`: a `DequantMatMul` becomes a
`QuantizedMatMul` of its activation, which a `DynamicQuantizeLinear` quantises row by row.  A map from activations to
their quantised values lets several products share one.  The map is keyed by the value that a node reads when its
turn comes, and a turn in between may give the activation another name.
-/

namespace NnEngine

open DepthFirst InverseIndex SimpleGraphOp GraphState

/-! ### Shape inference -/

/-- `infer` of a `DequantMatMul`. -/
def inferDequantMatMul (axis : TensorIndex) (lhs rhs scale : ResolvedTensorType) :
    Except InferStop ResolvedTensorType :=
  let axisIdx := axis.index rhs.dims.length
  match rhs.dims[axisIdx]?, rhs.dims[1 - axisIdx]? with
  | some n, some k =>
      if 2 ≤ lhs.dims.length ∧ rhs.dims.length = 2 ∧ scale.dims.length = 1 ∧ scale.dims[0]? = some n ∧
          lhs.dims.getLast? = some k then
        .ok (.new scale.elemType (.new (lhs.dims.dropLast ++ [n])))
      else .error .panic
  | _, _ => .error .panic

/-- `infer` of a `DynamicQuantizeLinear`: the types of its three outputs. -/
def inferDynamicQuantizeLinear (d : DynamicQuantizeLinear) (x : ResolvedTensorType) :
    Except InferStop (List ResolvedTensorType) :=
  let yDtype : DataType := if d.symmetric then .sInt .I8 else .uInt .U8
  let scaleDims : Except InferStop ResolvedTensorDims :=
    match d.axis with
    | some a =>
        match x.dims[a.index x.dims.length]? with
        | some dim => .ok (.new [dim])
        | none => .error .panic
    | none => .ok (.new [])
  scaleDims.map fun scaleDims => [.new yDtype x.dims, .new x.elemType scaleDims, .new yDtype scaleDims]

def DataType.isFloat : DataType → Bool
  | .float _ => true
  | _ => false

/-- `infer` of a `QuantizedMatMul`. -/
def inferQuantizedMatMul (axis : TensorIndex) (lhs lhsScale rhs rhsScale : ResolvedTensorType) :
    Except InferStop ResolvedTensorType :=
  let axisIdx := axis.index rhs.dims.length
  match rhs.dims[axisIdx]?, rhs.dims[1 - axisIdx]?, lhs.dims[lhs.dims.length - 2]? with
  | some n, some k, some m =>
      if 2 ≤ lhs.dims.length ∧ rhs.dims.length = 2 ∧ lhs.elemType = .sInt .I8 ∧ rhs.elemType = .sInt .I8 ∧
          lhsScale.elemType.isFloat ∧ lhsScale.elemType = rhsScale.elemType ∧ rhsScale.dims[0]? = some n ∧
          lhs.dims.getLast? = some k ∧
          (if lhsScale.dims.length = 1 then lhsScale.dims[0]? = some m else lhsScale.dims = []) then
        .ok (.new lhsScale.elemType (.new (lhs.dims.dropLast ++ [n])))
      else .error .panic
  | _, _, _ => .error .panic

def args.DEQUANT_MATMUL_SCALE : Nat := 2

namespace QuantizeActivations

/-! ### The pass -/

structure Plan where
  nodeId : NodeId
  actValue : ValueId
  weightValue : ValueId
  weightScaleValue : ValueId
  axis : TensorIndex
  scaleFloatTy : FloatType
  m : ℕ

/-- The checks of `Plan::build` on the types of the activation and of the weight. -/
def quantizable (axis : TensorIndex) (actTy rhsTy : ResolvedTensorType) : Match (FloatType × ℕ) := do
  Match.check (rhsTy.dims.length == 2)
  Match.check (axis.index rhsTy.dims.length == 0)
  let k ← Match.unwrap rhsTy.dims[1]?
  Match.check (k % 32 == 0)
  let scaleFloatTy ← Match.ofOption (match actTy.elemType with | .float f => some f | _ => none)
  Match.check (actTy.dims.length == 2 && actTy.dims.getLast? == some k)
  -- the division panics for zero
  let m ← Match.unwrap (if k = 0 then none else some (ResolvedTensorDims.size actTy.dims / k))
  Match.check (ResolvedTensorDims.size actTy.dims % k == 0)
  pure (scaleFloatTy, m)

/-- `Plan::build`. -/
def Plan.build (g : Graph) (nodeId : NodeId) : Match Plan := do
  let node ← Match.unwrap (g.node? nodeId)
  let axis ← Match.ofOption (match node.op with | .dequantMatMul axis => some axis | _ => none)
  let actValue ← inputAt node args.DEQUANT_MATMUL_LHS
  let weightValue ← inputAt node args.DEQUANT_MATMUL_RHS
  let weightScaleValue ← inputAt node args.DEQUANT_MATMUL_SCALE
  let actTy ← Match.ofOption (g.getResolvedTensorType actValue)
  let rhsTy ← Match.ofOption (g.getResolvedTensorType weightValue)
  let (scaleFloatTy, m) ← quantizable axis actTy rhsTy
  pure { nodeId, actValue, weightValue, weightScaleValue, axis, scaleFloatTy, m }

/-- A graph with its maps, and `act_quant_cache`. -/
structure State where
  st : GraphState
  actQuantCache : ValueId → Option (ValueId × ValueId)

/-- The operator of the node that quantises an activation. -/
def rowwise : Operator := .dynamicQuantizeLinear { axis := some ⟨0⟩, symmetric := true }

/-- The part of `ensure_quantized_act` that adds a node. -/
def registerQuantized (st : GraphState) (plan : Plan) (actTy : ResolvedTensorType) :
    (ValueId × ValueId) × GraphState :=
  let scaleDims := ResolvedTensorDims.new [plan.m]
  let valuePrefix := s!"QuantizeActivations_{debugId plan.actValue}"
  let (actInt8, st) := st.registerNewValue (valuePrefix ++ "_int8") (.new (.sInt .I8) actTy.dims)
  let (actScale, st) := st.registerNewValue (valuePrefix ++ "_scale") (.new (.float plan.scaleFloatTy) scaleDims)
  let (actZp, st) := st.registerNewValue (valuePrefix ++ "_zp") (.new (.sInt .I8) scaleDims)
  ((actInt8, actScale), st.registerNewNode {
    inputs := [some plan.actValue]
    outputs := [actInt8, actScale, actZp]
    name := valuePrefix
    op := rowwise
    markAsDeleted := false })

/-- `ensure_quantized_act`. -/
def ensureQuantizedAct (s : State) (plan : Plan) : Except Stop ((ValueId × ValueId) × State) :=
  match s.actQuantCache plan.actValue with
  | some pair => .ok (pair, s)
  | none => (orPanic (s.st.graph.getResolvedTensorType plan.actValue)).map fun actTy =>
      let (pair, st) := registerQuantized s.st plan actTy
      (pair, { st, actQuantCache := Function.update s.actQuantCache plan.actValue (some pair) })

/-- `apply`. -/
def apply (s : State) (plan : Plan) : Except Stop State :=
  (ensureQuantizedAct s plan).bind fun (pair, s) =>
    (orPanic (s.st.graph.node? plan.nodeId)).bind fun node =>
      (orPanic node.outputs[0]?).bind fun oldOutput =>
        (s.st.replaceByNode oldOutput s!"QuantizedMatMul_Output_{debugId plan.nodeId}"
          s!"QuantizedMatMul_{debugId plan.nodeId}"
          [some pair.1, some pair.2, some plan.weightValue, some plan.weightScaleValue]
          (.quantizedMatMul plan.axis)).map fun st => { s with st }

/-- The body of the loop of `run`. -/
def visit (s : State) (id : NodeId) : Except Stop State :=
  (Plan.build s.st.graph id).run.bind fun
    | none => .ok s
    | some plan => apply s plan

/-- The `DequantMatMul` nodes of a graph. -/
def candidates (g : Graph) : List NodeId :=
  (g.iter.filter fun x => match x.2.op with | .dequantMatMul _ => true | _ => false).map Prod.fst

/-- `run`. -/
def run (st : GraphState) : Except Stop State :=
  (candidates st.graph).foldlM visit { st, actQuantCache := fun _ => none }

end QuantizeActivations
end NnEngine
