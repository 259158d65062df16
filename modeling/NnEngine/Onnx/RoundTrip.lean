import NnEngine.Onnx.Build
import NnEngine.Onnx.OperatorRoundTrip

/-!
# Graphs through a file

A graph that `load_graph` returned, saved and loaded again.  The wire format of the messages is left out.
What comes back is the graph of the same names, except that an initializer that is stored outside the
file is not saved: the loader puts a dummy in its place.
-/

namespace NnEngine
namespace Onnx

variable {files : Files} {baseDir : Option String}

/-! ### Types -/

/-- A type that the loader can return. -/
def LoadedType : TensorType → Prop
  | .resolved ty =>
      (∀ d ∈ ty.dims, d < 2 ^ 63) ∧ ResolvedTensorDims.new ty.dims = ty.dims ∧ ty.stride = calcStride ty.dims
  | .unresolved ty =>
      ∀ dims, ty.dims = some dims → toResolved dims = none ∧ ∀ x, .const x ∈ dims → x < 2 ^ 63

theorem toResolved_const (dims : List Nat) :
    toResolved (dims.map Dimension.const) = some (ResolvedTensorDims.new dims) := by
  have hmapM : (dims.map Dimension.const).mapM Dimension.value? = some dims := by
    induction dims with
    | nil => rfl
    | cons d dims ih =>
        rw [List.map_cons, List.mapM_cons, ih]
        rfl
  rw [toResolved, hmapM]
  rfl

theorem loadDimension_dimensionToProto {d : Dimension} (h : ∀ x, d = .const x → x < 2 ^ 63) :
    loadDimension (dimensionToProto d) = .ok d := by
  cases d with
  | param key => rfl
  | const x =>
      change (loadDim (Int64.ofNat x)).map _ = _
      rw [loadDim_ofNat (h x rfl)]
      rfl

/-- Loading a shape that was saved. -/
theorem loadTensorType_shape {elemType : DataType} {dims : List Dimension}
    (h : ∀ x, .const x ∈ dims → x < 2 ^ 63) :
    loadTensorType { elemType := dataTypeToI32 elemType, shape := some (dims.map dimensionToProto) } =
      .ok (TensorType.unresolved { elemType, dims := some dims }).normalize := by
  have hshape : (dims.map dimensionToProto).mapM loadDimension = .ok dims := by
    rw [mapM_eq_ok, List.forall₂_map_left_iff, List.forall₂_same]
    exact fun d hd => loadDimension_dimensionToProto fun x hx => h x (hx ▸ hd)
  rw [loadTensorType, dataTypeTryFrom_dataTypeToI32]
  change ((dims.map dimensionToProto).mapM loadDimension >>= _) = _
  rw [hshape]
  rfl

theorem loadType_typeToProto {ty : TensorType} (h : LoadedType ty) :
    loadType (some (typeToProto ty)) = .ok ty := by
  cases ty with
  | resolved ty =>
      obtain ⟨elemType, dims, stride⟩ := ty
      obtain ⟨hlt, hnew, hstride⟩ := h
      dsimp only at hlt hnew hstride
      have hload := @loadTensorType_shape elemType (dims.map .const) fun x hx => by
        obtain ⟨d, hd, heq⟩ := List.mem_map.mp hx
        cases heq
        exact hlt _ hd
      rw [TensorType.normalize, Option.bind_some, toResolved_const, hnew, List.map_map] at hload
      rw [hstride]
      exact hload
  | unresolved ty =>
      obtain ⟨elemType, dims⟩ := ty
      cases dims with
      | none =>
          change loadTensorType _ = _
          rw [loadTensorType, dataTypeTryFrom_dataTypeToI32]
          rfl
      | some dims =>
          obtain ⟨hnone, hlt⟩ := h dims rfl
          have hload := @loadTensorType_shape elemType dims hlt
          rw [TensorType.normalize, Option.bind_some, hnone] at hload
          exact hload

theorem ResolvedTensorType.loadedType_new {elemType : DataType} {dims : List Nat}
    (h : ∀ d ∈ dims, d < 2 ^ 63) : LoadedType (.resolved (.new elemType (ResolvedTensorDims.new dims))) :=
  ⟨fun d hd => h d (ResolvedTensorDims.mem_new hd), ResolvedTensorDims.new_new dims, rfl⟩

theorem loadDimension_lt {v : Option DimensionValue} {x : Nat} (h : loadDimension v = .ok (.const x)) :
    x < 2 ^ 63 := by
  unfold loadDimension at h
  split at h
  · cases h
  · obtain ⟨y, hy, heq⟩ := map_eq_ok.mp h
    cases heq
    exact loadDim_eq_ok hy
  · cases h

/-- Extents that are all known. -/
theorem toResolved_eq_some {dims : List Dimension} {resolved : ResolvedTensorDims}
    (h : toResolved dims = some resolved) :
    ∃ v, dims = v.map .const ∧ resolved = ResolvedTensorDims.new v := by
  obtain ⟨v, hv, rfl⟩ := Option.map_eq_some_iff.mp h
  refine ⟨v, ?_, rfl⟩
  clear h
  induction dims generalizing v with
  | nil =>
      cases hv
      rfl
  | cons d dims ih =>
      rw [List.mapM_cons] at hv
      cases d with
      | param key => cases hv
      | const x =>
          cases htail : dims.mapM Dimension.value? with
          | none => rw [htail] at hv; cases hv
          | some w =>
              rw [htail] at hv
              cases hv
              rw [ih w htail]
              rfl

theorem loadedType {v : Option TypeValue} {ty : TensorType} (h : loadType v = .ok ty) : LoadedType ty := by
  unfold loadType at h
  split at h
  · cases h
  · rename_i tensor
    simp only [loadTensorType, do_eq_ok] at h
    obtain ⟨elemType, -, h⟩ := h
    split at h
    · rename_i dims hdims
      simp only [do_eq_ok, pure_eq_ok] at h
      obtain ⟨shape, hshape, rfl⟩ := h
      have hlt : ∀ x, .const x ∈ shape → x < 2 ^ 63 := by
        intro x hx
        obtain ⟨value, -, hvalue⟩ := mapM_eq_ok_mem hshape _ hx
        exact loadDimension_lt hvalue
      rw [TensorType.normalize, Option.bind_some]
      cases hresolved : toResolved shape with
      | none =>
          intro dims hdims
          cases hdims
          exact ⟨hresolved, hlt⟩
      | some resolved =>
          obtain ⟨v, rfl, rfl⟩ := toResolved_eq_some hresolved
          exact ResolvedTensorType.loadedType_new fun d hd => hlt d (List.mem_map_of_mem hd)
    · cases pure_eq_ok.mp h
      intro dims hdims
      cases hdims
  · cases h

/-! ### What was read -/

/-- What holds of a graph that was read from a file. -/
structure Readable (graph : NamedGraph) : Prop where
  ops : ∀ node ∈ graph.nodes, LoadedOperator node.op
  names : ∀ node ∈ graph.nodes, ∀ name, some name ∈ node.inputs → name.isEmpty = false
  tensors : ∀ x ∈ graph.initializer, ∀ tensor, x.stored = .inline tensor → LoadedTensor tensor
  inputs : ∀ info ∈ graph.inputs, ∃ ty, info.ty = some ty ∧ LoadedType ty
  outputs : ∀ info ∈ graph.outputs, ∃ ty, info.ty = some ty ∧ LoadedType ty
  inputs_new : ∀ info ∈ graph.inputs, info.name ∉ graph.initializer.map NamedTensor.name

theorem readValueInfo_type {v : ValueInfoProto} {info : ValueInfo} (h : readValueInfo v = .ok info) :
    info.name = v.name ∧ ∃ ty, info.ty = some ty ∧ LoadedType ty := by
  unfold readValueInfo at h
  split at h
  · cases h
  · obtain ⟨ty, hty, rfl⟩ := map_eq_ok.mp h
    exact ⟨rfl, ty, rfl, loadedType hty⟩

theorem readInitializer_name {v : TensorProto} {x : NamedTensor} (h : readInitializer files baseDir v = .ok x) :
    x.name = v.name := by
  unfold readInitializer at h
  split at h
  · obtain ⟨_, -, rfl⟩ := map_eq_ok.mp h
    rfl
  · obtain ⟨_, -, rfl⟩ := map_eq_ok.mp h
    rfl

theorem readInitializer_tensor {v : TensorProto} {x : NamedTensor} {tensor : Tensor}
    (h : readInitializer files baseDir v = .ok x) (hx : x.stored = .inline tensor) : LoadedTensor tensor := by
  unfold readInitializer at h
  split at h
  · obtain ⟨_, -, rfl⟩ := map_eq_ok.mp h
    cases hx
  · obtain ⟨_, hload, rfl⟩ := map_eq_ok.mp h
    cases hx
    exact loadedTensor hload

theorem readNode_eq_ok {v : NodeProto} {node : NamedNode} (h : readNode files baseDir v = .ok node) :
    LoadedOperator node.op ∧ node.inputs = v.input.map inputName := by
  simp only [readNode, do_eq_ok, pure_eq_ok] at h
  obtain ⟨attributes, hattributes, op, hop, rfl⟩ := h
  exact ⟨loadedOperator (loadedAttributes hattributes) hop, rfl⟩

theorem inputName_eq_some {x name : String} (h : inputName x = some name) : x = name ∧ name.isEmpty = false := by
  unfold inputName at h
  split at h
  · cases h
  · rename_i hx
    cases h
    exact ⟨rfl, Bool.eq_false_iff.mpr hx⟩

/-- The names that are read are those of the file. -/
theorem readInitializer_names {l : List TensorProto} {xs : List NamedTensor}
    (h : l.mapM (readInitializer files baseDir) = .ok xs) :
    xs.map NamedTensor.name = l.map TensorProto.name := by
  have hall := mapM_eq_ok.mp h
  clear h
  induction hall with
  | nil => rfl
  | cons hx _ ih => rw [List.map_cons, List.map_cons, ih, readInitializer_name hx]

theorem readGraph_eq_ok {proto : GraphProto} {graph : NamedGraph}
    (h : readGraph files proto baseDir = .ok graph) :
    proto.initializer.mapM (readInitializer files baseDir) = .ok graph.initializer ∧
      (proto.input.filter fun x => x.name ∉ proto.initializer.map TensorProto.name).mapM readValueInfo =
        .ok graph.inputs ∧
      proto.output.mapM readValueInfo = .ok graph.outputs ∧
      proto.node.mapM (readNode files baseDir) = .ok graph.nodes := by
  simp only [readGraph, do_eq_ok, pure_eq_ok] at h
  obtain ⟨initializer, hinitializer, inputs, hinputs, outputs, houtputs, nodes, hnodes, rfl⟩ := h
  exact ⟨hinitializer, hinputs, houtputs, hnodes⟩

theorem readable {proto : GraphProto} {graph : NamedGraph} (h : readGraph files proto baseDir = .ok graph) :
    Readable graph := by
  obtain ⟨hinitializer, hinputs, houtputs, hnodes⟩ := readGraph_eq_ok h
  constructor
  case ops =>
      intro node hnode
      obtain ⟨v, -, hv⟩ := mapM_eq_ok_mem hnodes node hnode
      exact (readNode_eq_ok hv).1
  case names =>
      intro node hnode name hname
      obtain ⟨v, -, hv⟩ := mapM_eq_ok_mem hnodes node hnode
      rw [(readNode_eq_ok hv).2] at hname
      obtain ⟨x, -, hx⟩ := List.mem_map.mp hname
      exact (inputName_eq_some hx).2
  case tensors =>
      intro x hx tensor htensor
      obtain ⟨v, -, hv⟩ := mapM_eq_ok_mem hinitializer x hx
      exact readInitializer_tensor hv htensor
  case inputs =>
      intro info hinfo
      obtain ⟨v, -, hv⟩ := mapM_eq_ok_mem hinputs info hinfo
      exact (readValueInfo_type hv).2
  case outputs =>
      intro info hinfo
      obtain ⟨v, -, hv⟩ := mapM_eq_ok_mem houtputs info hinfo
      exact (readValueInfo_type hv).2
  case inputs_new =>
      intro info hinfo
      obtain ⟨v, hmem, hv⟩ := mapM_eq_ok_mem hinputs info hinfo
      rw [readInitializer_names hinitializer, (readValueInfo_type hv).1]
      exact of_decide_eq_true (List.mem_filter.mp hmem).2

theorem Readable.noDummies {graph : NamedGraph} (h : Readable graph) : graph.NoDummies := by
  intro node hnode hdummy
  have hloaded := h.ops node hnode
  cases hop : node.op <;> rw [hop] at hdummy hloaded <;> first | exact hloaded | cases hdummy

/-! ### Saving -/

namespace NamedGraph

variable {graph : NamedGraph} {name : String}

/-- The initializers that are saved, in the order of their values. -/
def savedTensor (graph : NamedGraph) (v : ValueId) : Option NamedTensor :=
  (graph.build.initializer v).bind fun tensor =>
    (valueName graph.build v).map fun name => { name, stored := .inline tensor }

def savedTensors (graph : NamedGraph) : List NamedTensor :=
  (List.range graph.build.values.length).filterMap graph.savedTensor

/-- The graph input or output as it is saved. -/
def savedInfo (graph : NamedGraph) (info : ValueInfo) : ValueInfo :=
  { name := info.name, ty := graph.typeOf info.name }

/-- The graph as it is saved, with the operators of these nodes. -/
def savedGraph (graph : NamedGraph) (nodes : List NamedNode) : NamedGraph where
  initializer := graph.savedTensors
  inputs := graph.inputs.map graph.savedInfo
  outputs := graph.outputs.map graph.savedInfo
  nodes := nodes

/-- The message of an inline initializer. -/
def tensorMessage (x : NamedTensor) : TensorProto :=
  match x.stored with
  | .inline tensor => { tensorToProto tensor with name := x.name }
  | .external _ => {}

/-- The message of a graph input or output. -/
def infoMessage (info : ValueInfo) : ValueInfoProto :=
  { name := info.name, type := info.ty.map fun ty => some (typeToProto ty) }

/-- The message of a node. -/
def nodeMessage (node : NamedNode) (attributes : List AttributeProto) : NodeProto where
  input := node.inputs.map fun x => x.getD ""
  output := node.outputs
  name := node.name
  opType := operatorName node.op
  attributes := attributes

theorem nodeToProto_resolve (h : graph.Distinct) {node : NamedNode} (hnode : node ∈ graph.nodes) :
    nodeToProto graph.build (node.resolve graph.table) = (operatorAttrs node.op).map (nodeMessage node) := by
  have hinputs : (node.inputs.map (Option.map graph.table.index)).mapM (inputValueName graph.build) =
      some (node.inputs.map fun x => x.getD "") := by
    refine mapM_map_eq_some fun x hx => ?_
    cases x with
    | none => rfl
    | some name => exact build_valueName h (named_nodeInput hnode hx)
  have houtputs : (node.outputs.map graph.table.index).mapM (valueName graph.build) =
      some (node.outputs.map id) :=
    mapM_map_eq_some fun name hname => build_valueName h (named_nodeOutput hnode hname)
  unfold nodeToProto NamedNode.resolve
  dsimp only
  rw [hinputs, houtputs, List.map_id]
  cases operatorAttrs node.op <;> rfl

/-- Maps over a list that agree. -/
theorem mapM_congr {α β : Type} {f g : α → Option β} {l : List α} (h : ∀ x ∈ l, f x = g x) :
    l.mapM f = l.mapM g := by
  induction l with
  | nil => rfl
  | cons x l ih =>
      rw [List.mapM_cons, List.mapM_cons, h x List.mem_cons_self, ih fun y hy => h y (List.mem_cons_of_mem x hy)]

theorem valueInfoToProto_index (h : graph.Distinct) (hname : graph.Named name) :
    valueInfoToProto graph.build (graph.table.index name) =
      some (infoMessage { name, ty := graph.typeOf name }) := by
  rw [valueInfoToProto, build_value h hname]
  rfl

theorem initializer_message (graph : NamedGraph) :
    (List.range graph.build.values.length).filterMap (initializerToProto graph.build) =
      graph.savedTensors.map tensorMessage := by
  rw [savedTensors, List.map_filterMap]
  congr 1
  funext v
  unfold initializerToProto savedTensor
  cases graph.build.initializer v with
  | none => rfl
  | some tensor =>
      cases valueName graph.build v <;> rfl

theorem inlineOf_input (hread : Readable graph) {info : ValueInfo} (hinfo : info ∈ graph.inputs) :
    graph.inlineOf info.name = none := by
  have hundefined : ¬ graph.Undefined info.name := fun h => h.2.2.1 (List.mem_map_of_mem hinfo)
  rw [inlineOf, if_neg hundefined, stored_eq_none.mpr (hread.inputs_new info hinfo)]
  rfl

/-- No graph input has an initializer. -/
theorem input_hasInitializer (h : graph.Distinct) (hread : Readable graph) {info : ValueInfo}
    (hinfo : info ∈ graph.inputs) : graph.build.hasInitializer (graph.table.index info.name) = false := by
  have hname := named_input hinfo
  have hstored := stored_eq_none.mpr (hread.inputs_new info hinfo)
  rw [Graph.hasInitializer, build_initializer h hname, build_externalRefs h hname,
    inlineOf_input hread hinfo, hstored]
  rfl

/-- What the saver writes. -/
theorem graphToProto_build (h : graph.Distinct) (hread : Readable graph) :
    graphToProto graph.build =
      (graph.nodes.mapM fun node => (operatorAttrs node.op).map (nodeMessage node)).map fun nodes =>
        { node := nodes
          initializer := graph.savedTensors.map tensorMessage
          input := graph.inputs.map fun info => infoMessage (graph.savedInfo info)
          output := graph.outputs.map fun info => infoMessage (graph.savedInfo info) } := by
  have hnodes : (graph.nodes.map (NamedNode.resolve graph.table)).mapM (nodeToProto graph.build) =
      graph.nodes.mapM fun node => (operatorAttrs node.op).map (nodeMessage node) := by
    rw [List.mapM_map]
    exact mapM_congr fun node hnode => nodeToProto_resolve h hnode
  have hfilter : (graph.inputs.map fun info => graph.table.index info.name).filter
      (fun v => !graph.build.hasInitializer v) = graph.inputs.map fun info => graph.table.index info.name := by
    refine List.filter_eq_self.mpr fun v hv => ?_
    obtain ⟨info, hinfo, rfl⟩ := List.mem_map.mp hv
    rw [input_hasInitializer h hread hinfo]
    rfl
  have hinputs : (graph.inputs.map fun info => graph.table.index info.name).mapM
      (valueInfoToProto graph.build) = some (graph.inputs.map fun info => infoMessage (graph.savedInfo info)) :=
    mapM_map_eq_some fun info hinfo => valueInfoToProto_index h (named_input hinfo)
  have houtputs : (graph.outputs.map fun info => graph.table.index info.name).mapM
      (valueInfoToProto graph.build) = some (graph.outputs.map fun info => infoMessage (graph.savedInfo info)) :=
    mapM_map_eq_some fun info hinfo => valueInfoToProto_index h (named_output hinfo)
  rw [graphToProto, build_liveNodes hread.noDummies, hnodes, build_inputValues, build_outputValues]
  cases graph.nodes.mapM fun node => (operatorAttrs node.op).map (nodeMessage node) with
  | none => rfl
  | some nodes =>
      simp only [Option.bind_eq_bind, Option.bind_some, hfilter, hinputs, houtputs, initializer_message,
        Option.map_some]

end NamedGraph

end Onnx
end NnEngine
