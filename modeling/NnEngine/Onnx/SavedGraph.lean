import NnEngine.Onnx.RoundTrip

/-!
# The saved graph, by names

What the graph that was saved and read says of each name, when its nodes name what they named.  An
initializer that is stored outside the file is gone, and a dummy stands for it where it is used.
-/

namespace NnEngine
namespace Onnx

/-- Nodes that name the same values. -/
def SameNames (nodes nodes' : List NamedNode) : Prop :=
  List.Forall₂ (fun node node' => node'.inputs = node.inputs ∧ node'.outputs = node.outputs) nodes nodes'

theorem SameNames.reads {nodes nodes' : List NamedNode} (h : SameNames nodes nodes') :
    (nodes'.flatMap fun node => node.inputs.filterMap id) =
      nodes.flatMap fun node => node.inputs.filterMap id := by
  induction h with
  | nil => rfl
  | cons hnode _ ih => rw [List.flatMap_cons, List.flatMap_cons, ih, hnode.1]

theorem SameNames.defines {nodes nodes' : List NamedNode} (h : SameNames nodes nodes') :
    nodes'.flatMap NamedNode.outputs = nodes.flatMap NamedNode.outputs := by
  induction h with
  | nil => rfl
  | cons hnode _ ih => rw [List.flatMap_cons, List.flatMap_cons, ih, hnode.2]

namespace NamedGraph

variable {graph : NamedGraph} {nodes : List NamedNode} {name : String} {tensor : Tensor}

theorem stored_mem {t : StoredTensor} (h : graph.stored name = some t) :
    ∃ x ∈ graph.initializer, x.name = name ∧ x.stored = t := by
  obtain ⟨x, hx, hstored⟩ := Option.map_eq_some_iff.mp h
  exact ⟨x, List.mem_of_find?_eq_some hx, of_decide_eq_true (List.find?_some hx :), hstored⟩

theorem stored_named {t : StoredTensor} (h : graph.stored name = some t) : graph.Named name := by
  obtain ⟨x, hx, rfl, -⟩ := stored_mem h
  exact named_initializer hx

theorem inlineOf_named (h : graph.inlineOf name = some tensor) : graph.Named name := by
  unfold inlineOf at h
  split at h
  · rename_i hundefined
    exact named_used hundefined.1
  · obtain ⟨t, ht, -⟩ := Option.bind_eq_some_iff.mp h
    exact stored_named ht

/-! ### The saved initializers -/

theorem savedTensor_index (h : graph.Distinct) (hname : graph.Named name) :
    graph.savedTensor (graph.table.index name) =
      (graph.inlineOf name).map fun tensor => { name, stored := .inline tensor } := by
  rw [savedTensor, build_initializer h hname, build_valueName h hname]
  cases graph.inlineOf name <;> rfl

theorem savedTensor_name (h : graph.Distinct) {v : ValueId} {x : NamedTensor} (hx : graph.savedTensor v = some x) :
    graph.Named x.name ∧ graph.table.index x.name = v := by
  obtain ⟨tensor, -, hmap⟩ := Option.bind_eq_some_iff.mp hx
  obtain ⟨name, hname, rfl⟩ := Option.map_eq_some_iff.mp hmap
  obtain ⟨info, hinfo, hinfoName⟩ := Option.map_eq_some_iff.mp hname
  obtain ⟨name', hname', rfl⟩ := exists_name (List.getElem?_eq_some_iff.mp hinfo).1
  rw [build_valueName h hname'] at hname
  cases hname
  exact ⟨hname', rfl⟩

theorem mem_savedTensors (h : graph.Distinct) {x : NamedTensor} :
    x ∈ graph.savedTensors ↔ ∃ tensor, graph.inlineOf x.name = some tensor ∧ x.stored = .inline tensor := by
  constructor
  · intro hx
    obtain ⟨v, -, hv⟩ := List.mem_filterMap.mp hx
    obtain ⟨hname, rfl⟩ := savedTensor_name h hv
    rw [savedTensor_index h hname] at hv
    obtain ⟨tensor, htensor, heq⟩ := Option.map_eq_some_iff.mp hv
    exact ⟨tensor, htensor, (congrArg NamedTensor.stored heq).symm⟩
  · rintro ⟨tensor, htensor, hstored⟩
    obtain ⟨name, stored⟩ := x
    cases hstored
    have hname := inlineOf_named htensor
    have hlt : graph.table.index name < graph.build.values.length :=
      (List.getElem?_eq_some_iff.mp (build_value h hname)).1
    refine List.mem_filterMap.mpr ⟨graph.table.index name, List.mem_range.mpr hlt, ?_⟩
    rw [savedTensor_index h hname, htensor]
    rfl

/-- The saved initializers have different names. -/
theorem distinct_savedGraph (h : graph.Distinct) (nodes : List NamedNode) :
    (graph.savedGraph nodes).Distinct := by
  change (graph.savedTensors.map NamedTensor.name).Nodup
  rw [savedTensors, List.map_filterMap]
  refine List.Nodup.filterMap ?_ List.nodup_range
  intro v v' name hv hv'
  obtain ⟨x, hx, rfl⟩ := Option.map_eq_some_iff.mp hv
  obtain ⟨x', hx', hname⟩ := Option.map_eq_some_iff.mp hv'
  rw [← (savedTensor_name h hx).2, ← (savedTensor_name h hx').2, hname]

theorem find?_savedTensors (h : graph.Distinct) (name : String) :
    (graph.savedTensors.find? fun x => x.name = name) =
      (graph.inlineOf name).map fun tensor => { name, stored := .inline tensor } := by
  cases htensor : graph.inlineOf name with
  | none =>
      rw [Option.map_none, List.find?_eq_none]
      intro x hx hname
      obtain ⟨tensor, hsome, -⟩ := (mem_savedTensors h).mp hx
      rw [of_decide_eq_true hname, htensor] at hsome
      cases hsome
  | some tensor =>
      have hmem : { name, stored := .inline tensor } ∈ graph.savedTensors :=
        (mem_savedTensors h).mpr ⟨tensor, htensor, rfl⟩
      exact (distinct_savedGraph h []).find?_eq hmem

theorem savedGraph_stored (h : graph.Distinct) (nodes : List NamedNode) (name : String) :
    (graph.savedGraph nodes).stored name = (graph.inlineOf name).map .inline := by
  change (graph.savedTensors.find? fun x => x.name = name).map NamedTensor.stored = _
  rw [find?_savedTensors h, Option.map_map]
  rfl

theorem savedGraph_initializer (h : graph.Distinct) (nodes : List NamedNode) (name : String) :
    name ∉ (graph.savedGraph nodes).initializer.map NamedTensor.name ↔ graph.inlineOf name = none := by
  rw [← stored_eq_none, savedGraph_stored h, Option.map_eq_none_iff]

/-! ### Undefined names -/

theorem savedGraph_used (h : SameNames graph.nodes nodes) : (graph.savedGraph nodes).used = graph.used := by
  rw [used, used, savedGraph, h.reads, List.map_map]
  rfl

theorem savedGraph_defined (h : SameNames graph.nodes nodes) :
    (graph.savedGraph nodes).defined = graph.defined := h.defines

/-- An initializer that the saver drops and that a dummy stands for then. -/
def Lost (graph : NamedGraph) (name : String) : Prop :=
  name ∈ graph.used ∧ graph.inlineOf name = none ∧ name ∉ graph.inputs.map ValueInfo.name ∧
    name ∉ graph.defined

instance (graph : NamedGraph) (name : String) : Decidable (graph.Lost name) := by
  unfold Lost
  infer_instance

theorem savedGraph_undefined (h : graph.Distinct) (hnodes : SameNames graph.nodes nodes) :
    (graph.savedGraph nodes).Undefined name ↔ graph.Lost name := by
  have hinputs : (graph.savedGraph nodes).inputs.map ValueInfo.name = graph.inputs.map ValueInfo.name :=
    List.map_map
  rw [Undefined, Lost, savedGraph_used hnodes, savedGraph_defined hnodes, savedGraph_initializer h, hinputs]

/-- The inline tensors of the saved graph. -/
theorem savedGraph_inlineOf (h : graph.Distinct) (hnodes : SameNames graph.nodes nodes) :
    (graph.savedGraph nodes).inlineOf name =
      if graph.Lost name then some dummyTensor else graph.inlineOf name := by
  rw [inlineOf, savedGraph_stored h]
  refine if_congr (savedGraph_undefined h hnodes) rfl ?_
  cases graph.inlineOf name <;> rfl

/-! ### Types -/

/-- An initializer gives its value the type. -/
theorem typeOf_stored {t : StoredTensor} (h : graph.stored name = some t) :
    graph.typeOf name = some (.resolved t.tensorType) := by
  have hundefined : ¬ graph.Undefined name := by
    intro hundefined
    rw [stored_eq_none.mpr hundefined.2.1] at h
    cases h
  obtain ⟨x, hx, rfl⟩ := Option.map_eq_some_iff.mp h
  have hfind : (graph.initializer.map NamedTensor.info).find? (fun info => info.name = name) = some x.info := by
    rw [List.find?_map]
    exact congrArg (Option.map NamedTensor.info) hx
  rw [typeOf, if_neg hundefined, infos, List.find?_append, List.find?_append, List.find?_append, hfind]
  rfl

theorem typeOf_inline (h : graph.inlineOf name = some tensor) :
    graph.typeOf name = some (.resolved tensor.tensorType) := by
  unfold inlineOf at h
  split at h
  · rename_i hundefined
    cases h
    exact if_pos hundefined
  · obtain ⟨t, ht, hinline⟩ := Option.bind_eq_some_iff.mp h
    rw [typeOf_stored ht]
    cases t with
    | inline tensor' =>
        cases hinline
        rfl
    | external r => cases hinline

/-- The graph inputs and outputs keep their types, unless a dummy stands for them. -/
theorem savedGraph_typeOf (h : graph.Distinct) (hnodes : SameNames graph.nodes nodes) {info : ValueInfo}
    (hinfo : info ∈ graph.inputs ++ graph.outputs) :
    (graph.savedGraph nodes).typeOf info.name =
      if graph.Lost info.name then some (.resolved dummyTensor.tensorType) else graph.typeOf info.name := by
  rw [typeOf]
  refine if_congr (savedGraph_undefined h hnodes) rfl ?_
  have hinfos : (graph.savedGraph nodes).infos = graph.savedTensors.map NamedTensor.info ++
      ((graph.inputs ++ graph.outputs).map graph.savedInfo ++ nodes.flatMap NamedNode.infos) := by
    rw [List.map_append, ← List.append_assoc, ← List.append_assoc]
    rfl
  have hfind : (graph.savedTensors.map NamedTensor.info).find? (fun x => x.name = info.name) =
      (graph.inlineOf info.name).map fun tensor =>
        { name := info.name, ty := some (.resolved tensor.tensorType) } := by
    rw [List.find?_map]
    refine (congrArg (Option.map NamedTensor.info) (find?_savedTensors h info.name)).trans ?_
    rw [Option.map_map]
    rfl
  rw [hinfos, List.find?_append, hfind]
  cases htensor : graph.inlineOf info.name with
  | some tensor => exact (typeOf_inline htensor).symm
  | none =>
      have hmem : graph.savedInfo info ∈ (graph.inputs ++ graph.outputs).map graph.savedInfo :=
        List.mem_map_of_mem hinfo
      cases hsaved : ((graph.inputs ++ graph.outputs).map graph.savedInfo).find? fun x => x.name = info.name with
      | none => exact absurd (decide_eq_true rfl) (List.find?_eq_none.mp hsaved (graph.savedInfo info) hmem)
      | some x =>
          have hname : x.name = info.name := of_decide_eq_true (List.find?_some hsaved :)
          obtain ⟨info', -, rfl⟩ := List.mem_map.mp (List.mem_of_find?_eq_some hsaved)
          rw [List.find?_append, hsaved]
          exact congrArg graph.typeOf hname

end NamedGraph

end Onnx
end NnEngine
