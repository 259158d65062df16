import NnEngine.Onnx.SavedGraph

/-!
# The round trip of graphs

When a graph that was loaded from a file is saved and loaded, the same graph comes back if and only if it
has no initializer that is stored outside the file, up to those that are what a dummy is.
-/

namespace NnEngine
namespace Onnx

variable {files files' : Files} {baseDir baseDir' : Option String}

/-! ### What is compared -/

/-- The initializer of a name. -/
def initializerOf (files : Files) (g : Graph) (name : String) : Option Tensor :=
  (g.values.findIdx? fun info => info.name = name).bind (getInitializer files g)

/-- The nodes other than those that stand for the graph inputs and outputs. -/
def operatorNodes (g : Graph) : List Node := (g.iter.map Prod.snd).filter fun node => !node.isDummy

/-- A node with the names of its values. -/
def nodeNames (g : Graph) (node : Node) :
    String × Operator × List (Option (Option String)) × List (Option String) :=
  (node.name, node.op, node.inputs.map (Option.map (valueName g)), node.outputs.map (valueName g))

/-- The graphs have the same inputs and outputs, the same nodes, and the same initializers. -/
structure SameGraph (files files' : Files) (g g' : Graph) : Prop where
  inputs : (inputValues g').map (List.map fun v => g'.values[v]?) =
    (inputValues g).map (List.map fun v => g.values[v]?)
  outputs : (outputValues g').map (List.map fun v => g'.values[v]?) =
    (outputValues g).map (List.map fun v => g.values[v]?)
  nodes : (operatorNodes g').map (nodeNames g') = (operatorNodes g).map (nodeNames g)
  initializers : ∀ name, initializerOf files' g' name = initializerOf files g name

/-- What ONNX asks of the initializers of a file: different names, extents that are not negative, and
external data that is there. -/
structure ValidFile (files : Files) (proto : GraphProto) (g : Graph) : Prop where
  names : (proto.initializer.map TensorProto.name).Nodup
  dims : ∀ tensor ∈ proto.initializer, ∀ d ∈ tensor.dims, ¬ d < 0
  external : ∀ v r, g.externalRefs v = some r → (loadExternal files r).isSome

/-- What is written in full: operators that are kept, inline tensors that can be read back, and no external
tensor other than one that a dummy stands for as well. -/
structure RoundTrips (files : Files) (g : Graph) : Prop where
  ops : ∀ node ∈ g.nodes, Kept node.op
  tensors : ∀ v tensor, g.initializer v = some tensor → tensor.data ≠ .float .BF16 []
  external : ∀ v r, g.externalRefs v = some r → loadExternal files r = some dummyTensor ∧
    (∃ node ∈ g.nodes, some v ∈ node.inputs) ∧ ∀ node ∈ g.nodes, v ∉ node.outputs

namespace NamedGraph

variable {graph : NamedGraph} {nodes : List NamedNode} {name : String}

/-! ### A built graph -/

theorem build_findIdx? (h : graph.Distinct) (hname : graph.Named name) :
    (graph.build.values.findIdx? fun info => info.name = name) = some (graph.table.index name) := by
  obtain ⟨hlt, hvalue⟩ := List.getElem?_eq_some_iff.mp (build_value h hname)
  rw [List.findIdx?_eq_some_iff_getElem]
  refine ⟨hlt, ?_, ?_⟩
  · rw [hvalue]
    exact decide_eq_true rfl
  · intro v hv heq
    have hv' : v < graph.build.values.length := hv.trans hlt
    obtain ⟨name', hname', rfl⟩ := exists_name hv'
    have hvalue' := (List.getElem?_eq_some_iff.mp (build_value h hname')).2
    rw [hvalue'] at heq
    cases (of_decide_eq_true heq : name' = name)
    exact absurd hv (Nat.lt_irrefl _)

theorem not_named_findIdx? (h : graph.Distinct) (hname : ¬ graph.Named name) :
    (graph.build.values.findIdx? fun info => info.name = name) = none := by
  rw [List.findIdx?_eq_none_iff]
  intro info hinfo
  refine decide_eq_false fun heq => hname ?_
  obtain ⟨v, hv⟩ := List.getElem?_of_mem hinfo
  obtain ⟨name', hname', rfl⟩ := exists_name (List.getElem?_eq_some_iff.mp hv).1
  rw [build_value h hname'] at hv
  cases hv
  exact heq ▸ hname'

/-- The external tensor of a name. -/
def externalOf (graph : NamedGraph) (name : String) : Option ExternalTensorRef :=
  (graph.stored name).bind StoredTensor.external?

theorem externalOf_named {r : ExternalTensorRef} (h : graph.externalOf name = some r) : graph.Named name := by
  obtain ⟨t, ht, -⟩ := Option.bind_eq_some_iff.mp h
  exact stored_named ht

theorem initializerOf_build (h : graph.Distinct) (files : Files) (name : String) :
    initializerOf files graph.build name =
      (graph.inlineOf name).or ((graph.externalOf name).bind (loadExternal files)) := by
  unfold initializerOf
  by_cases hname : graph.Named name
  · rw [build_findIdx? h hname, Option.bind_some, getInitializer, build_initializer h hname,
      build_externalRefs h hname]
    cases graph.inlineOf name <;> rfl
  · have hinline : graph.inlineOf name = none :=
      Option.eq_none_iff_forall_ne_some.mpr fun tensor htensor => hname (inlineOf_named htensor)
    have hexternal : graph.externalOf name = none :=
      Option.eq_none_iff_forall_ne_some.mpr fun r hr => hname (externalOf_named hr)
    rw [not_named_findIdx? h hname, hinline, hexternal]
    rfl

theorem build_infos (h : graph.Distinct) {infos : List ValueInfo} (hinfos : ∀ info ∈ infos, graph.Named info.name) :
    (infos.map fun info => graph.table.index info.name).map (fun v => graph.build.values[v]?) =
      infos.map fun info => some (graph.savedInfo info) := by
  rw [List.map_map]
  exact List.map_congr_left fun info hinfo => build_value h (hinfos info hinfo)

theorem build_inputInfos (h : graph.Distinct) :
    (inputValues graph.build).map (List.map fun v => graph.build.values[v]?) =
      some (graph.inputs.map fun info => some (graph.savedInfo info)) := by
  rw [build_inputValues, Option.map_some, build_infos h fun info hinfo => named_input hinfo]

theorem build_outputInfos (h : graph.Distinct) :
    (outputValues graph.build).map (List.map fun v => graph.build.values[v]?) =
      some (graph.outputs.map fun info => some (graph.savedInfo info)) := by
  rw [build_outputValues, Option.map_some, build_infos h fun info hinfo => named_output hinfo]

theorem build_nodeNames (h : graph.Distinct) (hnodes : graph.NoDummies) :
    (operatorNodes graph.build).map (nodeNames graph.build) =
      graph.nodes.map fun node => (node.name, node.op, node.inputs.map (Option.map some), node.outputs.map some) := by
  rw [operatorNodes, build_liveNodes hnodes, List.map_map]
  refine List.map_congr_left fun node hnode => ?_
  have hinputs : (node.inputs.map (Option.map graph.table.index)).map (Option.map (valueName graph.build)) =
      node.inputs.map (Option.map some) := by
    rw [List.map_map]
    refine List.map_congr_left fun x hx => ?_
    cases x with
    | none => rfl
    | some name => exact congrArg some (build_valueName h (named_nodeInput hnode hx))
  have houtputs : (node.outputs.map graph.table.index).map (valueName graph.build) = node.outputs.map some := by
    rw [List.map_map]
    exact List.map_congr_left fun name hname => build_valueName h (named_nodeOutput hnode hname)
  exact congrArg₂ (fun x y => (node.name, node.op, x, y)) hinputs houtputs

/-! ### The saved graph -/

/-- Every readable tensor has the type of its reference. -/
theorem loadExternal_tensorType {files : Files} {r : ExternalTensorRef} {tensor : Tensor}
    (h : loadExternal files r = some tensor) : tensor.tensorType = .new r.elemType r.dims := by
  obtain ⟨bytes, -, hload⟩ := Option.bind_eq_some_iff.mp h
  obtain ⟨-, hload⟩ := Option.ite_none_left_eq_some.mp hload
  obtain ⟨hdims, hdata⟩ := Tensor.new_eq_some hload
  rw [Tensor.tensorType, hdims, hdata, TensorData.elemType_fromBytes]

theorem externalOf_stored {r : ExternalTensorRef} (h : graph.externalOf name = some r) :
    graph.stored name = some (.external r) := by
  obtain ⟨t, ht, hr⟩ := Option.bind_eq_some_iff.mp h
  cases t with
  | inline tensor => cases hr
  | external r' =>
      cases hr
      exact ht

theorem externalOf_inlineOf {r : ExternalTensorRef} (h : graph.externalOf name = some r) :
    graph.inlineOf name = none := by
  have hstored := externalOf_stored h
  have hundefined : ¬ graph.Undefined name := by
    intro hundefined
    rw [stored_eq_none.mpr hundefined.2.1] at hstored
    cases hstored
  rw [inlineOf, if_neg hundefined, hstored]
  rfl

/-- Only an external tensor is lost. -/
theorem Lost.external (h : graph.Lost name) : ∃ r, graph.externalOf name = some r := by
  obtain ⟨hused, hinline, hinputs, hdefined⟩ := h
  cases hstored : graph.stored name with
  | none =>
      have hundefined : graph.Undefined name := ⟨hused, stored_eq_none.mp hstored, hinputs, hdefined⟩
      rw [inlineOf, if_pos hundefined] at hinline
      cases hinline
  | some t =>
      have hundefined : ¬ graph.Undefined name := by
        intro h
        rw [stored_eq_none.mpr h.2.1] at hstored
        cases hstored
      rw [inlineOf, if_neg hundefined, hstored] at hinline
      cases t with
      | inline tensor => cases hinline
      | external r => exact ⟨r, by rw [externalOf, hstored]; rfl⟩

theorem savedGraph_externalOf (h : graph.Distinct) (nodes : List NamedNode) (name : String) :
    (graph.savedGraph nodes).externalOf name = none := by
  rw [externalOf, savedGraph_stored h]
  cases graph.inlineOf name <;> rfl

/-- The initializers that come back. -/
theorem initializerOf_savedGraph (h : graph.Distinct) (hnodes : SameNames graph.nodes nodes) (files : Files)
    (name : String) : initializerOf files (graph.savedGraph nodes).build name =
      if graph.Lost name then some dummyTensor else graph.inlineOf name := by
  rw [initializerOf_build (distinct_savedGraph h nodes), savedGraph_externalOf h, savedGraph_inlineOf h hnodes,
    Option.bind_none, Option.or_none]

/-- Every external tensor is the dummy that stands for it. -/
def Replaced (files : Files) (graph : NamedGraph) : Prop :=
  ∀ name r, graph.externalOf name = some r → loadExternal files r = some dummyTensor ∧ graph.Lost name

theorem Replaced.typeOf (h : graph.Replaced files) (hlost : graph.Lost name) :
    graph.typeOf name = some (.resolved dummyTensor.tensorType) := by
  obtain ⟨r, hr⟩ := hlost.external
  rw [typeOf_stored (externalOf_stored hr), loadExternal_tensorType (h name r hr).1]
  rfl

theorem sameGraph_savedGraph (h : graph.Distinct) (hdummies : graph.NoDummies)
    (hreplaced : graph.Replaced files) :
    SameGraph files files' graph.build (graph.savedGraph graph.nodes).build := by
  have hdistinct := distinct_savedGraph h graph.nodes
  have hnodes : SameNames graph.nodes graph.nodes := List.forall₂_same.mpr fun _ _ => ⟨rfl, rfl⟩
  have hinfos : ∀ infos : List ValueInfo, (∀ info ∈ infos, info ∈ graph.inputs ++ graph.outputs) →
      ((infos.map graph.savedInfo).map fun info => some ((graph.savedGraph graph.nodes).savedInfo info)) =
        infos.map fun info => some (graph.savedInfo info) := by
    intro infos hmem
    rw [List.map_map]
    refine List.map_congr_left fun info hinfo => ?_
    have htype : (graph.savedGraph graph.nodes).typeOf info.name = graph.typeOf info.name := by
      rw [savedGraph_typeOf h hnodes (hmem info hinfo)]
      split
      · rename_i hlost
        exact (hreplaced.typeOf hlost).symm
      · rfl
    exact congrArg (fun ty => some (ValueInfo.mk info.name ty)) htype
  constructor
  case inputs =>
      rw [build_inputInfos h, build_inputInfos hdistinct]
      exact congrArg some (hinfos graph.inputs fun info hinfo => List.mem_append_left _ hinfo)
  case outputs =>
      rw [build_outputInfos h, build_outputInfos hdistinct]
      exact congrArg some (hinfos graph.outputs fun info hinfo => List.mem_append_right _ hinfo)
  case nodes =>
      rw [build_nodeNames h hdummies, build_nodeNames hdistinct hdummies]
      rfl
  case initializers =>
      intro name
      rw [initializerOf_savedGraph h hnodes, initializerOf_build h]
      split
      · rename_i hlost
        obtain ⟨r, hr⟩ := hlost.external
        rw [hlost.2.1, hr, Option.none_or, Option.bind_some, (hreplaced name r hr).1]
      · rename_i hlost
        cases hr : graph.externalOf name with
        | none => rw [Option.bind_none, Option.or_none]
        | some r => exact absurd (hreplaced name r hr).2 hlost

/-- What the same graph says about the file. -/
theorem replaced_of_sameGraph (hsame : SameGraph files files' graph.build (graph.savedGraph nodes).build)
    (h : graph.Distinct) (hnodes : SameNames graph.nodes nodes)
    (hexternal : ∀ name r, graph.externalOf name = some r → (loadExternal files r).isSome) :
    graph.Replaced files := by
  intro name r hr
  have heq := hsame.initializers name
  rw [initializerOf_savedGraph h hnodes, initializerOf_build h, externalOf_inlineOf hr, hr, Option.none_or,
    Option.bind_some] at heq
  split at heq
  · rename_i hlost
    exact ⟨heq.symm, hlost⟩
  · have hsome := hexternal name r hr
    rw [← heq] at hsome
    cases hsome

theorem nodes_of_sameGraph (hsame : SameGraph files files' graph.build (graph.savedGraph nodes).build)
    (h : graph.Distinct) (hdummies : graph.NoDummies) (hdummies' : (graph.savedGraph nodes).NoDummies) :
    nodes = graph.nodes := by
  have heq := hsame.nodes
  rw [build_nodeNames h hdummies, build_nodeNames (distinct_savedGraph h nodes) hdummies'] at heq
  refine List.map_injective_iff.mpr ?_ heq
  intro node node' hnode
  obtain ⟨name, op, inputs, outputs⟩ := node
  obtain ⟨name', op', inputs', outputs'⟩ := node'
  obtain ⟨rfl, rfl, hinputs, houtputs⟩ : name = name' ∧ op = op' ∧
      inputs.map (Option.map some) = inputs'.map (Option.map some) ∧ outputs.map some = outputs'.map some := by
    simpa using hnode
  have hinjective : Function.Injective (Option.map (some : String → Option String)) :=
    Option.map_injective (Option.some_injective _)
  rw [List.map_injective_iff.mpr hinjective hinputs,
    List.map_injective_iff.mpr (Option.some_injective _) houtputs]

/-! ### Reading the saved graph -/

/-- A node with its operator saved and loaded. -/
def reloadNode (files : Files) (baseDir : Option String) (node : NamedNode) : LoadResult NamedNode :=
  (reload files baseDir node.op).map fun op => { node with op }

theorem readNode_nodeMessage {node : NamedNode} {attributes : List AttributeProto}
    (hnames : ∀ name, some name ∈ node.inputs → name.isEmpty = false)
    (hattributes : operatorAttrs node.op = some attributes) :
    readNode files baseDir (nodeMessage node attributes) = reloadNode files baseDir node := by
  have hname : ∀ x ∈ node.inputs, inputName (x.getD "") = x := by
    intro x hx
    cases x with
    | none => rfl
    | some name => rw [Option.getD_some, inputName, hnames name hx, if_neg Bool.false_ne_true]
  have hinputs : (nodeMessage node attributes).input.map inputName = node.inputs := by
    rw [nodeMessage, List.map_map]
    exact (List.map_congr_left hname).trans (List.map_id node.inputs)
  have hreload : reload files baseDir node.op =
      (loadAttributes files baseDir attributes).bind (loadOp (operatorName node.op)) := by
    rw [reload, hattributes]
  rw [readNode, hinputs, reloadNode, hreload]
  change (loadAttributes files baseDir attributes >>= fun m => loadOp (operatorName node.op) m >>= _) = _
  cases loadAttributes files baseDir attributes with
  | error e => rfl
  | ok m =>
      change (loadOp (operatorName node.op) m >>= _) = (loadOp (operatorName node.op) m).map _
      cases loadOp (operatorName node.op) m <;> rfl

theorem readNodes {l : List NamedNode} {saved : List NodeProto}
    (hnames : ∀ node ∈ l, ∀ name, some name ∈ node.inputs → name.isEmpty = false)
    (hsaved : (l.mapM fun node => (operatorAttrs node.op).map (nodeMessage node)) = some saved) :
    saved.mapM (readNode files baseDir) = l.mapM (reloadNode files baseDir) := by
  induction l generalizing saved with
  | nil =>
      cases hsaved
      rfl
  | cons node l ih =>
      rw [List.mapM_cons] at hsaved
      obtain ⟨message, hmessage, hrest⟩ := Option.bind_eq_some_iff.mp hsaved
      obtain ⟨messages, hmessages, heq⟩ := Option.bind_eq_some_iff.mp hrest
      cases heq
      obtain ⟨attributes, hattributes, rfl⟩ := Option.map_eq_some_iff.mp hmessage
      rw [List.mapM_cons, List.mapM_cons, readNode_nodeMessage (hnames node List.mem_cons_self) hattributes,
        ih (fun node' hnode' => hnames node' (List.mem_cons_of_mem node hnode')) hmessages]

theorem loadedTensor_dummyTensor : LoadedTensor dummyTensor where
  data := by
    intro x hx
    cases List.mem_singleton.mp hx
    decide
  dims_lt := nofun
  dims_new := rfl

theorem loadedTensor_inlineOf (hread : Readable graph) {tensor : Tensor} (h : graph.inlineOf name = some tensor) :
    LoadedTensor tensor := by
  unfold inlineOf at h
  split at h
  · cases h
    exact loadedTensor_dummyTensor
  · obtain ⟨t, ht, hinline⟩ := Option.bind_eq_some_iff.mp h
    obtain ⟨x, hx, -, hstored⟩ := stored_mem ht
    cases t with
    | inline tensor' =>
        cases hinline
        exact hread.tensors x hx tensor hstored
    | external r => cases hinline

theorem readInitializer_tensorMessage {tensor : Tensor} (h : LoadedTensor tensor) (name : String) :
    readInitializer files baseDir (tensorMessage { name, stored := .inline tensor }) =
      if tensor.data = .float .BF16 [] then .error .typeError
      else .ok { name, stored := .inline tensor } := by
  have hexternal : (tensorMessage { name, stored := .inline tensor }).externalData = [] :=
    (dataToProto_fields _ tensor.data).2.2
  have hload : loadTensor files (tensorMessage { name, stored := .inline tensor }) baseDir =
      if tensor.data = .float .BF16 [] then .error .typeError else .ok tensor := loadTensor_tensorToProto h
  rw [readInitializer, if_neg (not_not_intro hexternal), hload]
  split <;> rfl

/-- The saved tensors can be read back. -/
def TensorsKept (graph : NamedGraph) : Prop :=
  ∀ name tensor, graph.inlineOf name = some tensor → tensor.data ≠ .float .BF16 []

theorem readInitializers (h : graph.Distinct) (hread : Readable graph) (initializer : List NamedTensor) :
    (graph.savedTensors.map tensorMessage).mapM (readInitializer files baseDir) = .ok initializer ↔
      graph.TensorsKept ∧ initializer = graph.savedTensors := by
  have hmessage : ∀ x ∈ graph.savedTensors, ∃ tensor, graph.inlineOf x.name = some tensor ∧
      readInitializer files baseDir (tensorMessage x) =
        if tensor.data = .float .BF16 [] then .error .typeError else .ok x := by
    intro x hx
    obtain ⟨tensor, htensor, hstored⟩ := (mem_savedTensors h).mp hx
    obtain ⟨name, stored⟩ := x
    cases hstored
    exact ⟨tensor, htensor, readInitializer_tensorMessage (loadedTensor_inlineOf hread htensor) name⟩
  rw [List.mapM_map]
  constructor
  · intro hmapM
    have hkept : ∀ x ∈ graph.savedTensors, readInitializer files baseDir (tensorMessage x) = .ok x := by
      intro x hx
      obtain ⟨tensor, -, heq⟩ := hmessage x hx
      obtain ⟨y, -, hy⟩ := mapM_eq_ok_of_mem hmapM x hx
      rw [Function.comp_apply, heq] at hy
      split at hy
      · cases hy
      · rename_i hne
        rw [heq, if_neg hne]
    refine ⟨fun name tensor htensor hbf16 => ?_, ?_⟩
    · have hmem : { name, stored := .inline tensor } ∈ graph.savedTensors :=
        (mem_savedTensors h).mpr ⟨tensor, htensor, rfl⟩
      have hok := hkept _ hmem
      rw [readInitializer_tensorMessage (loadedTensor_inlineOf hread htensor), if_pos hbf16] at hok
      cases hok
    · have hok : graph.savedTensors.mapM (readInitializer files baseDir ∘ tensorMessage) =
          .ok (graph.savedTensors.map id) := mapM_ok hkept
      rw [hok, List.map_id] at hmapM
      cases hmapM
      rfl
  · rintro ⟨hkept, rfl⟩
    refine (mapM_ok (g := id) fun x hx => ?_).trans (congrArg Except.ok (List.map_id _))
    obtain ⟨tensor, htensor, heq⟩ := hmessage x hx
    rw [Function.comp_apply, heq, if_neg (hkept x.name tensor htensor)]
    rfl

/-- The types of the graph inputs and outputs can be read back. -/
theorem loadedType_typeOf (hread : Readable graph)
    (hdims : ∀ name r, graph.externalOf name = some r → LoadedType (.resolved (.new r.elemType r.dims)))
    {info : ValueInfo} (hinfo : info ∈ graph.inputs ++ graph.outputs) :
    ∃ ty, graph.typeOf info.name = some ty ∧ LoadedType ty := by
  by_cases hundefined : graph.Undefined info.name
  · exact ⟨_, if_pos hundefined, @ResolvedTensorType.loadedType_new (.float .F32) [] nofun⟩
  cases hstored : graph.stored info.name with
  | some t =>
      refine ⟨_, typeOf_stored hstored, ?_⟩
      cases t with
      | inline tensor =>
          obtain ⟨x, hx, -, hinline⟩ := stored_mem hstored
          have hloaded := hread.tensors x hx tensor hinline
          exact ⟨hloaded.dims_lt, hloaded.dims_new, rfl⟩
      | external r =>
          have hexternal : graph.externalOf info.name = some r := by
            rw [externalOf, hstored]
            rfl
          exact hdims info.name r hexternal
  | none =>
      have hnone : (graph.initializer.map NamedTensor.info).find? (fun x => x.name = info.name) = none := by
        rw [List.find?_map]
        exact congrArg (Option.map NamedTensor.info) (Option.map_eq_none_iff.mp hstored)
      have hinfos : graph.infos = graph.initializer.map NamedTensor.info ++
          ((graph.inputs ++ graph.outputs) ++ graph.nodes.flatMap NamedNode.infos) := by
        rw [← List.append_assoc, ← List.append_assoc]
        rfl
      cases hfind : (graph.inputs ++ graph.outputs).find? fun x => x.name = info.name with
      | none => exact absurd (decide_eq_true rfl) (List.find?_eq_none.mp hfind info hinfo)
      | some x =>
          obtain ⟨ty, hty, hloaded⟩ : ∃ ty, x.ty = some ty ∧ LoadedType ty := by
            obtain hx | hx := List.mem_append.mp (List.mem_of_find?_eq_some hfind)
            · exact hread.inputs x hx
            · exact hread.outputs x hx
          refine ⟨ty, ?_, hloaded⟩
          rw [typeOf, if_neg hundefined, hinfos, List.find?_append, hnone, List.find?_append, hfind]
          exact hty

theorem readValueInfo_infoMessage {info : ValueInfo} {ty : TensorType} (hty : info.ty = some ty)
    (h : LoadedType ty) : readValueInfo (infoMessage info) = .ok info := by
  obtain ⟨name, ty'⟩ := info
  cases hty
  change (loadType (some (typeToProto ty))).map _ = _
  rw [loadType_typeToProto h]
  rfl

theorem readInfos (hread : Readable graph)
    (hdims : ∀ name r, graph.externalOf name = some r → LoadedType (.resolved (.new r.elemType r.dims)))
    {infos : List ValueInfo} (hinfos : ∀ info ∈ infos, info ∈ graph.inputs ++ graph.outputs) :
    (infos.map fun info => infoMessage (graph.savedInfo info)).mapM readValueInfo =
      .ok (infos.map graph.savedInfo) := by
  rw [List.mapM_map]
  refine mapM_ok fun info hinfo => ?_
  obtain ⟨ty, hty, hloaded⟩ := loadedType_typeOf hread hdims (hinfos info hinfo)
  exact readValueInfo_infoMessage hty hloaded

/-- What is read of the saved graph. -/
theorem readGraph_saved (h : graph.Distinct) (hread : Readable graph)
    (hdims : ∀ name r, graph.externalOf name = some r → LoadedType (.resolved (.new r.elemType r.dims)))
    {saved : GraphProto} (hsaved : graphToProto graph.build = some saved) (graph' : NamedGraph) :
    readGraph files saved baseDir = .ok graph' ↔
      graph.TensorsKept ∧ ∃ nodes, graph.nodes.mapM (reloadNode files baseDir) = .ok nodes ∧
        graph' = graph.savedGraph nodes := by
  rw [graphToProto_build h hread] at hsaved
  obtain ⟨messages, hmessages, rfl⟩ := Option.map_eq_some_iff.mp hsaved
  have hnames : (graph.savedTensors.map tensorMessage).map TensorProto.name =
      graph.savedTensors.map NamedTensor.name := by
    rw [List.map_map]
    refine List.map_congr_left fun x hx => ?_
    obtain ⟨tensor, -, hstored⟩ := (mem_savedTensors h).mp hx
    obtain ⟨name, stored⟩ := x
    cases hstored
    rfl
  have hfilter : (graph.inputs.map fun info => infoMessage (graph.savedInfo info)).filter
      (fun x => x.name ∉ (graph.savedTensors.map tensorMessage).map TensorProto.name) =
        graph.inputs.map fun info => infoMessage (graph.savedInfo info) := by
    refine List.filter_eq_self.mpr fun x hx => decide_eq_true ?_
    obtain ⟨info, hinfo, rfl⟩ := List.mem_map.mp hx
    rw [hnames]
    exact (savedGraph_initializer h [] info.name).mpr (inlineOf_input hread hinfo)
  have hinputs := @readInfos graph hread hdims graph.inputs fun info hinfo => List.mem_append_left _ hinfo
  have houtputs := @readInfos graph hread hdims graph.outputs fun info hinfo => List.mem_append_right _ hinfo
  simp only [readGraph, hfilter, hinputs, houtputs, readNodes hread.names hmessages, do_eq_ok, pure_eq_ok,
    readInitializers h hread, Except.ok.injEq]
  constructor
  · rintro ⟨_, ⟨hkept, rfl⟩, _, rfl, _, rfl, nodes, hnodes, rfl⟩
    exact ⟨hkept, nodes, hnodes, rfl⟩
  · rintro ⟨hkept, nodes, hnodes, rfl⟩
    exact ⟨_, ⟨hkept, rfl⟩, _, rfl, _, rfl, nodes, hnodes, rfl⟩

theorem sameNames_reload {l nodes : List NamedNode} (h : l.mapM (reloadNode files baseDir) = .ok nodes) :
    SameNames l nodes := by
  refine (mapM_eq_ok.mp h).imp fun node node' hnode => ?_
  obtain ⟨op, -, rfl⟩ := map_eq_ok.mp hnode
  exact ⟨rfl, rfl⟩

/-- The nodes are read back if and only if their operators are kept. -/
theorem reload_nodes_iff (hread : Readable graph) :
    graph.nodes.mapM (reloadNode files baseDir) = .ok graph.nodes ↔ ∀ node ∈ graph.nodes, Kept node.op := by
  have hnode : ∀ node ∈ graph.nodes, reloadNode files baseDir node = .ok node ↔ Kept node.op := by
    intro node hmem
    rw [← (hread.ops node hmem).reload_iff, reloadNode, map_eq_ok]
    constructor
    · rintro ⟨op, hop, heq⟩
      rw [hop, ← heq]
    · exact fun hop => ⟨node.op, hop, rfl⟩
  rw [mapM_eq_ok, List.forall₂_same]
  exact forall₂_congr hnode

/-! ### Values and names -/

theorem foldl_add_named (h : graph.Distinct) {β : Type} {part : StoredTensor → Option β} {v : ValueId} {b : β}
    (hv : graph.initializer.foldl (NamedTensor.add part graph.table) (fun _ => none) v = some b) :
    ∃ name, graph.Named name ∧ graph.table.index name = v := by
  rw [foldl_add h.nodup_index, Option.or_none] at hv
  obtain ⟨x, hx, -⟩ := Option.bind_eq_some_iff.mp hv
  have hindex : graph.table.index x.name = v := of_decide_eq_true (List.find?_some hx :)
  exact ⟨x.name, named_initializer (List.mem_of_find?_eq_some hx), hindex⟩

theorem initializer_named (h : graph.Distinct) {v : ValueId} {tensor : Tensor}
    (hv : graph.build.initializer v = some tensor) : ∃ name, graph.Named name ∧ graph.table.index name = v := by
  change (if v ∈ graph.undefineds then _ else graph.inlines v) = _ at hv
  split at hv
  · rename_i hundefined
    have hreads := List.mem_of_mem_filter hundefined
    rw [reads_eq] at hreads
    obtain ⟨name, hname, rfl⟩ := List.mem_map.mp hreads
    exact ⟨name, named_used hname, rfl⟩
  · exact foldl_add_named h hv

theorem externalRefs_named (h : graph.Distinct) {v : ValueId} {r : ExternalTensorRef}
    (hv : graph.build.externalRefs v = some r) : ∃ name, graph.Named name ∧ graph.table.index name = v := by
  change (if v ∈ graph.undefineds then none else graph.externals v) = _ at hv
  split at hv
  · cases hv
  · exact foldl_add_named h hv

theorem reads_index (hname : graph.Named name) :
    (∃ node ∈ graph.build.nodes, some (graph.table.index name) ∈ node.inputs) ↔ name ∈ graph.used := by
  rw [← mem_map_index (fun x => named_used) hname, ← reads_eq, List.mem_flatMap, build_nodes]
  refine exists_congr fun node => and_congr_right fun _ => ?_
  rw [List.mem_filterMap]
  constructor
  · exact fun hv => ⟨_, hv, rfl⟩
  · rintro ⟨x, hx, rfl : x = _⟩
    exact hx

theorem defines_index (hname : graph.Named name) :
    (∀ node ∈ graph.build.nodes, graph.table.index name ∉ node.outputs) ↔
      name ∉ graph.inputs.map ValueInfo.name ∧ name ∉ graph.defined := by
  have hnames : ∀ x ∈ graph.defined ++ graph.inputs.map ValueInfo.name, graph.Named x := by
    intro x hx
    obtain hx | hx := List.mem_append.mp hx
    · exact named_defined hx
    · obtain ⟨info, hinfo, rfl⟩ := List.mem_map.mp hx
      exact named_input hinfo
  have hmem := mem_map_index hnames hname
  rw [← defines_eq, List.mem_append, List.mem_flatMap] at hmem
  rw [← not_or, or_comm, ← hmem, build_nodes]
  push Not
  rfl

/-- What round trips, said with names. -/
theorem roundTrips_iff (h : graph.Distinct) :
    RoundTrips files graph.build ↔
      (∀ node ∈ graph.nodes, Kept node.op) ∧ graph.TensorsKept ∧ graph.Replaced files := by
  constructor
  · rintro ⟨hops, htensors, hexternal⟩
    refine ⟨fun node hnode => ?_, fun name tensor htensor => ?_, fun name r hr => ?_⟩
    · have hmem : node.resolve graph.table ∈ graph.build.nodes := by
        rw [build_nodes, allNodes, List.append_assoc]
        exact List.mem_append_left _ (List.mem_map_of_mem hnode)
      exact hops _ hmem
    · rw [← build_initializer h (inlineOf_named htensor)] at htensor
      exact htensors _ tensor htensor
    · have hname := externalOf_named hr
      have hinline := externalOf_inlineOf hr
      rw [externalOf, ← build_externalRefs h hname] at hr
      obtain ⟨hload, hreads, hdefines⟩ := hexternal _ r hr
      obtain ⟨hinputs, hdefined⟩ := (defines_index hname).mp hdefines
      exact ⟨hload, (reads_index hname).mp hreads, hinline, hinputs, hdefined⟩
  · rintro ⟨hops, htensors, hreplaced⟩
    constructor
    case ops =>
        intro node hnode
        rw [build_nodes] at hnode
        obtain hnode | hnode := List.mem_append.mp hnode
        · obtain hnode | hnode := List.mem_append.mp hnode
          · obtain ⟨n, hn, rfl⟩ := List.mem_map.mp hnode
            exact hops n hn
          · obtain ⟨v, -, rfl⟩ := List.mem_map.mp hnode
            trivial
        · obtain ⟨v, -, rfl⟩ := List.mem_map.mp hnode
          trivial
    case tensors =>
        intro v tensor hv
        obtain ⟨name, hname, rfl⟩ := initializer_named h hv
        rw [build_initializer h hname] at hv
        exact htensors name tensor hv
    case external =>
        intro v r hv
        obtain ⟨name, hname, rfl⟩ := externalRefs_named h hv
        rw [build_externalRefs h hname] at hv
        obtain ⟨hload, hused, -, hinputs, hdefined⟩ := hreplaced name r hv
        exact ⟨hload, (reads_index hname).mpr hused, (defines_index hname).mpr ⟨hinputs, hdefined⟩⟩

/-- An operator that is kept is saved. -/
theorem exists_nodeMessage {node : NamedNode} (h : LoadedOperator node.op) (hkept : Kept node.op) :
    ∃ message, (operatorAttrs node.op).map (nodeMessage node) = some message := by
  have hreload := (@LoadedOperator.reload_iff (fun _ => none) none _ h).mpr hkept
  unfold reload at hreload
  cases hattributes : operatorAttrs node.op with
  | none =>
      rw [hattributes] at hreload
      cases hreload
  | some attributes => exact ⟨_, rfl⟩

theorem exists_saved (h : graph.Distinct) (hread : Readable graph) (hops : ∀ node ∈ graph.nodes, Kept node.op) :
    ∃ saved, graphToProto graph.build = some saved := by
  obtain ⟨messages, hmessages⟩ := exists_mapM_eq_some fun node hnode =>
    exists_nodeMessage (hread.ops node hnode) (hops node hnode)
  rw [graphToProto_build h hread, hmessages]
  exact ⟨_, rfl⟩

/-- The saved graph, when it is read, is the same graph. -/
theorem saved_iff (h : graph.Distinct) (hread : Readable graph)
    (hdims : ∀ name r, graph.externalOf name = some r → LoadedType (.resolved (.new r.elemType r.dims)))
    (hexternal : ∀ name r, graph.externalOf name = some r → (loadExternal files r).isSome) :
    (∃ saved g', graphToProto graph.build = some saved ∧ loadGraph files' saved baseDir' = .ok g' ∧
      SameGraph files files' graph.build g') ↔ RoundTrips files graph.build := by
  rw [roundTrips_iff h]
  constructor
  · rintro ⟨saved, g', hsaved, hload, hsame⟩
    rw [loadGraph_eq] at hload
    obtain ⟨graph', hgraph', rfl⟩ := map_eq_ok.mp hload
    have hdummies' := (readable hgraph').noDummies
    obtain ⟨hkept, nodes, hnodes, rfl⟩ := (readGraph_saved h hread hdims hsaved graph').mp hgraph'
    have hreplaced := replaced_of_sameGraph hsame h (sameNames_reload hnodes) hexternal
    have heq := nodes_of_sameGraph hsame h hread.noDummies hdummies'
    exact ⟨(reload_nodes_iff hread).mp (heq ▸ hnodes), hkept, hreplaced⟩
  · rintro ⟨hops, hkept, hreplaced⟩
    have hnodes := (@reload_nodes_iff files' baseDir' graph hread).mpr hops
    obtain ⟨saved, hsaved⟩ := exists_saved h hread hops
    have hread' := (@readGraph_saved files' baseDir' graph h hread hdims saved hsaved _).mpr
      ⟨hkept, graph.nodes, hnodes, rfl⟩
    refine ⟨saved, _, hsaved, ?_, sameGraph_savedGraph h hread.noDummies hreplaced⟩
    rw [loadGraph_eq, hread']
    rfl

end NamedGraph

/-! ### Files -/

theorem toUInt64_lt {x : Int64} (h : ¬ x < 0) : x.toUInt64.toNat < 2 ^ 63 := by
  have hnonneg : 0 ≤ x.toBitVec.toInt := by
    rw [Int64.lt_iff_toInt_lt] at h
    exact Int.not_lt.mp h
  rw [BitVec.toInt_eq_toNat_cond] at hnonneg
  have hlt : x.toBitVec.toNat < 2 ^ 64 := x.toBitVec.isLt
  show x.toBitVec.toNat < 2 ^ 63
  split at hnonneg <;> omega

/-- The extents of an external tensor. -/
theorem loadedType_external {v : TensorProto} {x : NamedTensor} {r : ExternalTensorRef}
    (h : readInitializer files baseDir v = .ok x) (hx : x.stored = .external r) (hdims : ∀ d ∈ v.dims, ¬ d < 0) :
    LoadedType (.resolved (.new r.elemType r.dims)) := by
  unfold readInitializer at h
  split at h
  · obtain ⟨r', hr', rfl⟩ := map_eq_ok.mp h
    cases hx
    simp only [makeExternalRef, do_eq_ok, pure_eq_ok] at hr'
    obtain ⟨elemType, -, external, -, rfl⟩ := hr'
    refine ResolvedTensorType.loadedType_new fun d hd => ?_
    obtain ⟨y, hy, rfl⟩ := List.mem_map.mp hd
    exact toUInt64_lt (hdims y hy)
  · obtain ⟨tensor, -, rfl⟩ := map_eq_ok.mp h
    cases hx

/-! ### One weight -/

/-- The output of a graph with one weight. -/
def weightOutput : ValueInfoProto :=
  { name := "y", type := some (some (.tensorType { elemType := ProtoDataType.INT8, shape := some [] })) }

/-- A graph that applies `Relu` to one weight. -/
def weightProto (weight : TensorProto) : GraphProto where
  node := [{ input := ["w"], output := ["y"], name := "relu", opType := "Relu", attributes := [] }]
  initializer := [weight]
  input := []
  output := [weightOutput]

/-- The same graph, read. -/
def weightGraph (stored : StoredTensor) : NamedGraph where
  initializer := [{ name := "w", stored }]
  inputs := []
  outputs := [{ name := "y", ty := some (.resolved { elemType := .sInt .I8, dims := [], stride := [] }) }]
  nodes := [{ name := "relu", op := .reLU, inputs := [some "w"], outputs := ["y"] }]

/-- The weight in the file. -/
def inlineWeight : TensorProto := { name := "w", dataType := ProtoDataType.INT8, int32Data := [7] }

/-- The weight in a file of its own. -/
def externalWeight : TensorProto :=
  { name := "w", dataType := ProtoDataType.INT8, externalData := [("location", "w.bin")] }

/-- The file of the weight. -/
def weightFile : Files := fun _ => some [7]

def externalWeightRef : ExternalTensorRef :=
  { path := joinPath "dir" "w.bin", offset := 0, length := none, elemType := .sInt .I8, dims := [] }

theorem external_weight_read : readGraph weightFile (weightProto externalWeight) (some "dir") =
    .ok (weightGraph (.external externalWeightRef)) := by rfl

/-- The weight in the file, read. -/
def inlineStored : StoredTensor := .inline ⟨.sInt .I8 [7], [], Tensor.hsize_scalar⟩

theorem inline_weight_read : readGraph weightFile (weightProto inlineWeight) (some "dir") =
    .ok (weightGraph inlineStored) := by rfl

theorem weightGraph_distinct (stored : StoredTensor) : (weightGraph stored).Distinct := List.nodup_singleton _

theorem weightGraph_stored {stored t : StoredTensor} {name : String} (h : (weightGraph stored).stored name = some t) :
    name = "w" ∧ t = stored := by
  obtain ⟨x, hx, rfl, rfl⟩ := NamedGraph.stored_mem h
  cases List.mem_singleton.mp hx
  exact ⟨rfl, rfl⟩

theorem weightGraph_kept (stored : StoredTensor) : ∀ node ∈ (weightGraph stored).nodes, Kept node.op := by
  intro node hnode
  cases List.mem_singleton.mp hnode
  trivial

theorem weightGraph_tensorsKept {stored : StoredTensor}
    (h : ∀ tensor, stored = .inline tensor → tensor.data ≠ .float .BF16 []) :
    (weightGraph stored).TensorsKept := by
  intro name tensor htensor
  unfold NamedGraph.inlineOf at htensor
  split at htensor
  · cases htensor
    nofun
  · obtain ⟨t, ht, hinline⟩ := Option.bind_eq_some_iff.mp htensor
    obtain ⟨-, rfl⟩ := weightGraph_stored ht
    cases t with
    | inline tensor' =>
        cases hinline
        exact h tensor rfl
    | external r => cases hinline

/-- A graph that was loaded from a valid file, saved and loaded again, is the same graph if and only if
nothing of it is external or cannot be read back. -/
theorem graph_round_trip (files files' : Files) (baseDir baseDir' : Option String) {proto : GraphProto}
    {g : Graph} (hload : loadGraph files proto baseDir = .ok g) (hvalid : ValidFile files proto g) :
    (∃ saved g', graphToProto g = some saved ∧ loadGraph files' saved baseDir' = .ok g' ∧
      SameGraph files files' g g') ↔ RoundTrips files g := by
  rw [loadGraph_eq] at hload
  obtain ⟨graph, hgraph, rfl⟩ := map_eq_ok.mp hload
  have hinitializer := (readGraph_eq_ok hgraph).1
  have hdistinct : graph.Distinct := by
    rw [NamedGraph.Distinct, readInitializer_names hinitializer]
    exact hvalid.names
  refine NamedGraph.saved_iff hdistinct (readable hgraph) (fun name r hr => ?_) fun name r hr => ?_
  · obtain ⟨x, hx, -, hstored⟩ := NamedGraph.stored_mem (NamedGraph.externalOf_stored hr)
    obtain ⟨v, hv, hread⟩ := mapM_eq_ok_mem hinitializer x hx
    exact loadedType_external hread hstored (hvalid.dims v hv)
  · refine hvalid.external (graph.table.index name) r ?_
    rw [NamedGraph.build_externalRefs hdistinct (NamedGraph.externalOf_named hr)]
    exact hr

/-- The weight in the file comes back. -/
theorem inline_weight_comes_back :
    ∃ g, loadGraph weightFile (weightProto inlineWeight) (some "dir") = .ok g ∧
      ∃ saved g', graphToProto g = some saved ∧ loadGraph weightFile saved (some "dir") = .ok g' ∧
        SameGraph weightFile weightFile g g' := by
  have h := weightGraph_distinct inlineStored
  have hexternal : ∀ name r, (weightGraph inlineStored).externalOf name ≠ some r := by
    intro name r hr
    obtain ⟨-, heq⟩ := weightGraph_stored (NamedGraph.externalOf_stored hr)
    cases heq
  have hload : loadGraph weightFile (weightProto inlineWeight) (some "dir") =
      .ok (weightGraph inlineStored).build := by
    rw [loadGraph_eq, inline_weight_read]
    rfl
  refine ⟨_, hload, (graph_round_trip weightFile weightFile (some "dir") (some "dir") hload ?_).mpr ?_⟩
  · refine ⟨List.nodup_singleton _, fun tensor htensor => ?_, fun v r hr => ?_⟩
    · cases List.mem_singleton.mp htensor
      nofun
    · obtain ⟨name, hname, rfl⟩ := NamedGraph.externalRefs_named h hr
      rw [NamedGraph.build_externalRefs h hname] at hr
      exact absurd hr (hexternal name r)
  · refine (NamedGraph.roundTrips_iff h).mpr ⟨weightGraph_kept _, weightGraph_tensorsKept fun tensor heq => ?_,
      fun name r hr => absurd hr (hexternal name r)⟩
    cases heq
    nofun

/-- The weight in its own file comes back as another number. -/
theorem external_weight_lost :
    ∃ g, loadGraph weightFile (weightProto externalWeight) (some "dir") = .ok g ∧
      ValidFile weightFile (weightProto externalWeight) g ∧
      ∃ saved g', graphToProto g = some saved ∧ loadGraph weightFile saved (some "dir") = .ok g' ∧
        ¬ SameGraph weightFile weightFile g g' := by
  have h := weightGraph_distinct (.external externalWeightRef)
  have hread := readable external_weight_read
  have hexternal : ∀ name r, (weightGraph (.external externalWeightRef)).externalOf name = some r →
      r = externalWeightRef := by
    intro name r hr
    obtain ⟨-, heq⟩ := weightGraph_stored (NamedGraph.externalOf_stored hr)
    cases heq
    rfl
  have hvalid : ValidFile weightFile (weightProto externalWeight)
      (weightGraph (.external externalWeightRef)).build := by
    refine ⟨List.nodup_singleton _, fun tensor htensor => ?_, fun v r hr => ?_⟩
    · cases List.mem_singleton.mp htensor
      nofun
    · obtain ⟨name, hname, rfl⟩ := NamedGraph.externalRefs_named h hr
      rw [NamedGraph.build_externalRefs h hname] at hr
      cases hexternal name r hr
      rfl
  obtain ⟨saved, hsaved⟩ := NamedGraph.exists_saved h hread (weightGraph_kept _)
  have hnodes := (@NamedGraph.reload_nodes_iff weightFile (some "dir") _ hread).mpr (weightGraph_kept _)
  have hkept := @weightGraph_tensorsKept (.external externalWeightRef) nofun
  have hdims : ∀ name r, (weightGraph (.external externalWeightRef)).externalOf name = some r →
      LoadedType (.resolved (.new r.elemType r.dims)) := by
    intro name r hr
    cases hexternal name r hr
    exact @ResolvedTensorType.loadedType_new (.sInt .I8) [] nofun
  have hsavedRead := (@NamedGraph.readGraph_saved weightFile (some "dir") _ h hread hdims saved hsaved _).mpr
    ⟨hkept, _, hnodes, rfl⟩
  refine ⟨_, by rw [loadGraph_eq, external_weight_read]; rfl, hvalid, saved, _, hsaved,
    by rw [loadGraph_eq, hsavedRead]; rfl, fun hsame => ?_⟩
  have hreplaced := NamedGraph.replaced_of_sameGraph hsame h (NamedGraph.sameNames_reload hnodes)
    fun name r hr => by
      cases hexternal name r hr
      rfl
  have hload := (hreplaced "w" externalWeightRef rfl).1
  cases hload

end Onnx
end NnEngine
