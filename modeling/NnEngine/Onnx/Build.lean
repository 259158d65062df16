import NnEngine.Onnx.Named
import NnEngine.Onnx.SaveGraph

/-!
# The built graph, by names

The values, the initializers and the nodes of the graph that `NamedGraph.build` returns, said with the
names of the file.  The names of the initializers differ.
-/

namespace NnEngine
namespace Onnx

namespace NamedGraph

/-! ### Names -/

/-- The names that nodes and graph outputs read. -/
def used (graph : NamedGraph) : List String :=
  graph.nodes.flatMap (fun node => node.inputs.filterMap id) ++ graph.outputs.map ValueInfo.name

/-- The names that nodes define. -/
def defined (graph : NamedGraph) : List String := graph.nodes.flatMap NamedNode.outputs

/-- A name that is read and that nothing defines. -/
def Undefined (graph : NamedGraph) (name : String) : Prop :=
  name ∈ graph.used ∧ name ∉ graph.initializer.map NamedTensor.name ∧
    name ∉ graph.inputs.map ValueInfo.name ∧ name ∉ graph.defined

instance (graph : NamedGraph) (name : String) : Decidable (graph.Undefined name) := by
  unfold Undefined
  infer_instance

/-- The initializer of a name. -/
def stored (graph : NamedGraph) (name : String) : Option StoredTensor :=
  (graph.initializer.find? fun x => x.name = name).map NamedTensor.stored

/-- The type of a name: that of its first use, except where a dummy stands for it. -/
def typeOf (graph : NamedGraph) (name : String) : Option TensorType :=
  if graph.Undefined name then some (.resolved dummyTensor.tensorType)
  else (graph.infos.find? fun info => info.name = name).bind ValueInfo.ty

/-- The names of the values. -/
def Named (graph : NamedGraph) (name : String) : Prop := ∃ info ∈ graph.infos, info.name = name

variable {graph : NamedGraph} {name : String}

theorem indexed_table (graph : NamedGraph) : Interner.Indexed ValueInfo.name graph.table :=
  (Interner.indexed_empty ValueInfo.name).internAll graph.infos

theorem lookup_table (graph : NamedGraph) (name : String) :
    graph.table.lookup name = graph.infos.find? fun info => info.name = name :=
  (Interner.lookup_internAll (Interner.indexed_empty ValueInfo.name) graph.infos name).trans rfl

theorem Named.entries (h : graph.Named name) : (graph.table.entries name).isSome := by
  obtain ⟨info, hinfo, rfl⟩ := h
  exact Interner.empty.internAll_entries hinfo

/-- The value of a name. -/
theorem Named.value (h : graph.Named name) :
    ∃ info, graph.table.values[graph.table.index name]? = some info ∧ info.name = name ∧
      (graph.infos.find? fun info => info.name = name) = some info := by
  obtain ⟨i, hi⟩ := Option.isSome_iff_exists.mp h.entries
  obtain ⟨info, hinfo, hname⟩ := (graph.indexed_table name i).mp hi
  have hindex : graph.table.index name = i := by
    rw [Interner.index, hi]
    rfl
  refine ⟨info, hindex ▸ hinfo, hname, ?_⟩
  rw [← lookup_table, Interner.lookup, hi]
  exact hinfo

/-- Different names are different values. -/
theorem index_inj {name' : String} (h : graph.Named name) (h' : graph.Named name')
    (heq : graph.table.index name = graph.table.index name') : name = name' := by
  obtain ⟨info, hinfo, hname, -⟩ := h.value
  obtain ⟨info', hinfo', hname', -⟩ := h'.value
  rw [heq, hinfo'] at hinfo
  cases hinfo
  rw [← hname, hname']

/-- Every value has a name. -/
theorem named_of_value {v : ValueId} {info : ValueInfo} (h : graph.table.values[v]? = some info) :
    graph.Named info.name ∧ graph.table.index info.name = v := by
  have hentry := (graph.indexed_table info.name v).mpr ⟨info, h, rfl⟩
  have hlookup : graph.table.lookup info.name = some info := by
    rw [Interner.lookup, hentry]
    exact h
  rw [lookup_table] at hlookup
  refine ⟨⟨info, List.mem_of_find?_eq_some hlookup, rfl⟩, ?_⟩
  rw [Interner.index, hentry]
  rfl

theorem named_initializer {x : NamedTensor} (hx : x ∈ graph.initializer) : graph.Named x.name := by
  refine ⟨x.info, ?_, rfl⟩
  rw [infos, List.append_assoc, List.append_assoc]
  exact List.mem_append_left _ (List.mem_map_of_mem hx)

theorem named_input {info : ValueInfo} (hinfo : info ∈ graph.inputs) : graph.Named info.name := by
  refine ⟨info, ?_, rfl⟩
  rw [infos, List.append_assoc, List.append_assoc]
  exact List.mem_append_right _ (List.mem_append_left _ hinfo)

theorem named_output {info : ValueInfo} (hinfo : info ∈ graph.outputs) : graph.Named info.name := by
  refine ⟨info, ?_, rfl⟩
  rw [infos]
  exact List.mem_append_left _ (List.mem_append_right _ hinfo)

theorem named_node {node : NamedNode} (hnode : node ∈ graph.nodes) {info : ValueInfo}
    (hinfo : info ∈ node.infos) : graph.Named info.name :=
  ⟨info, List.mem_append_right _ (List.mem_flatMap.mpr ⟨node, hnode, hinfo⟩), rfl⟩

theorem named_nodeInput {node : NamedNode} (hnode : node ∈ graph.nodes) (h : some name ∈ node.inputs) :
    graph.Named name :=
  @named_node graph _ hnode (untyped name) (List.mem_append_left _
    (List.mem_map_of_mem (List.mem_filterMap.mpr ⟨some name, h, rfl⟩)))

theorem named_nodeOutput {node : NamedNode} (hnode : node ∈ graph.nodes) (h : name ∈ node.outputs) :
    graph.Named name :=
  @named_node graph _ hnode (untyped name) (List.mem_append_right _ (List.mem_map_of_mem h))

theorem named_used (h : name ∈ graph.used) : graph.Named name := by
  obtain h | h := List.mem_append.mp h
  · obtain ⟨node, hnode, hmem⟩ := List.mem_flatMap.mp h
    obtain ⟨input, hinput, rfl : input = some name⟩ := List.mem_filterMap.mp hmem
    exact named_nodeInput hnode hinput
  · obtain ⟨info, hinfo, rfl⟩ := List.mem_map.mp h
    exact named_output hinfo

/-! ### Initializers -/

/-- A map that is filled one by one, under different values. -/
theorem foldl_add {β : Type} {part : StoredTensor → Option β} {table : Interner String ValueInfo}
    {xs : List NamedTensor} (hnodup : (xs.map fun x => table.index x.name).Nodup) (f : ValueId → Option β)
    (v : ValueId) :
    xs.foldl (NamedTensor.add part table) f v =
      ((xs.find? fun x => table.index x.name = v).bind fun x => part x.stored).or (f v) := by
  induction xs generalizing f with
  | nil => rfl
  | cons x xs ih =>
      obtain ⟨hx, hnodup⟩ := List.nodup_cons.mp hnodup
      rw [List.foldl_cons, ih hnodup, List.find?_cons]
      by_cases hv : table.index x.name = v
      · have hnone : (xs.find? fun x => table.index x.name = v) = none := by
          rw [List.find?_eq_none]
          intro y hy hyv
          exact hx (List.mem_map.mpr ⟨y, hy, (of_decide_eq_true hyv).trans hv.symm⟩)
        have hadd : NamedTensor.add part table f x v = (part x.stored).or (f v) := by
          unfold NamedTensor.add
          cases part x.stored with
          | none => rfl
          | some b => exact hv ▸ Function.update_self _ _ _
        rw [hnone, decide_eq_true hv, hadd]
        rfl
      · have hadd : NamedTensor.add part table f x v = f v := by
          unfold NamedTensor.add
          cases part x.stored with
          | none => rfl
          | some b => exact Function.update_of_ne (Ne.symm hv) _ _
        rw [hadd, decide_eq_false hv]

/-- The file, in which no initializer is stored twice. -/
def Distinct (graph : NamedGraph) : Prop := (graph.initializer.map NamedTensor.name).Nodup

theorem Distinct.find?_eq (h : graph.Distinct) {x : NamedTensor} (hx : x ∈ graph.initializer) :
    (graph.initializer.find? fun y => y.name = x.name) = some x := by
  cases hfind : graph.initializer.find? fun y => y.name = x.name with
  | none => exact absurd (decide_eq_true rfl) (List.find?_eq_none.mp hfind x hx)
  | some y =>
      have hname : y.name = x.name := by simpa using List.find?_some hfind
      exact congrArg some (List.inj_on_of_nodup_map h (List.mem_of_find?_eq_some hfind) hx hname)

theorem Distinct.nodup_index (h : graph.Distinct) :
    (graph.initializer.map fun x => graph.table.index x.name).Nodup := by
  have hmap : (graph.initializer.map fun x => graph.table.index x.name) =
      (graph.initializer.map NamedTensor.name).map graph.table.index := by
    rw [List.map_map]
    rfl
  rw [hmap]
  refine h.map_on fun name hname name' hname' heq => ?_
  obtain ⟨x, hx, rfl⟩ := List.mem_map.mp hname
  obtain ⟨y, hy, rfl⟩ := List.mem_map.mp hname'
  exact index_inj (named_initializer hx) (named_initializer hy) heq

theorem foldl_add_index (h : graph.Distinct) {β : Type} (part : StoredTensor → Option β) (hname : graph.Named name) :
    graph.initializer.foldl (NamedTensor.add part graph.table) (fun _ => none) (graph.table.index name) =
      (graph.stored name).bind part := by
  have hfind : (graph.initializer.find? fun x => graph.table.index x.name = graph.table.index name) =
      graph.initializer.find? fun x => x.name = name := by
    refine List.find?_congr fun x hx => decide_eq_decide.mpr ?_
    exact ⟨index_inj (named_initializer hx) hname, congrArg _⟩
  rw [foldl_add h.nodup_index, Option.or_none, stored, Option.bind_map, hfind]
  rfl

theorem inlines_index (h : graph.Distinct) (hname : graph.Named name) :
    graph.inlines (graph.table.index name) = (graph.stored name).bind StoredTensor.inline? :=
  foldl_add_index h StoredTensor.inline? hname

theorem externals_index (h : graph.Distinct) (hname : graph.Named name) :
    graph.externals (graph.table.index name) = (graph.stored name).bind StoredTensor.external? :=
  foldl_add_index h StoredTensor.external? hname

/-! ### The nodes -/

/-- The nodes of the graph: those of the file, then its inputs and its outputs. -/
def allNodes (graph : NamedGraph) : List Node :=
  graph.nodes.map (NamedNode.resolve graph.table) ++
    (graph.inputs.map fun info => graph.table.index info.name).map (inputNode graph.table.values) ++
    (graph.outputs.map fun info => graph.table.index info.name).map (outputNode graph.table.values)

theorem build_nodes (graph : NamedGraph) : graph.build.nodes = graph.allNodes := rfl

theorem reads_inputNodes (values : List ValueInfo) (l : List ValueId) :
    ((l.map (inputNode values)).flatMap fun node => node.inputs.filterMap id) = [] := by
  induction l with
  | nil => rfl
  | cons v l ih => exact ih

theorem reads_outputNodes (values : List ValueInfo) (l : List ValueId) :
    ((l.map (outputNode values)).flatMap fun node => node.inputs.filterMap id) = l := by
  induction l with
  | nil => rfl
  | cons v l ih => exact congrArg (v :: ·) ih

theorem defines_inputNodes (values : List ValueInfo) (l : List ValueId) :
    (l.map (inputNode values)).flatMap Node.outputs = l := by
  induction l with
  | nil => rfl
  | cons v l ih => exact congrArg (v :: ·) ih

theorem defines_outputNodes (values : List ValueInfo) (l : List ValueId) :
    (l.map (outputNode values)).flatMap Node.outputs = [] := by
  induction l with
  | nil => rfl
  | cons v l ih => exact ih

/-- The values that the nodes read. -/
theorem reads_eq (graph : NamedGraph) :
    (graph.allNodes.flatMap fun node => node.inputs.filterMap id) = graph.used.map graph.table.index := by
  have hnode : ∀ node : NamedNode, (node.resolve graph.table).inputs.filterMap id =
      (node.inputs.filterMap id).map graph.table.index := by
    intro node
    rw [NamedNode.resolve, List.filterMap_map, List.map_filterMap]
    rfl
  rw [allNodes, List.flatMap_append, List.flatMap_append, reads_inputNodes, reads_outputNodes,
    List.append_nil, used, List.map_append, List.map_flatMap, List.map_map, List.flatMap_map]
  simp only [hnode]
  rfl

/-- The values that the nodes define. -/
theorem defines_eq (graph : NamedGraph) : graph.allNodes.flatMap Node.outputs =
    (graph.defined ++ graph.inputs.map ValueInfo.name).map graph.table.index := by
  rw [allNodes, List.flatMap_append, List.flatMap_append, defines_inputNodes, defines_outputNodes,
    List.append_nil, defined, List.map_append, List.map_flatMap, List.map_map, List.flatMap_map]
  rfl

theorem named_defined (h : name ∈ graph.defined) : graph.Named name := by
  obtain ⟨node, hnode, hname⟩ := List.mem_flatMap.mp h
  exact named_nodeOutput hnode hname

theorem mem_map_index {names : List String} (hnames : ∀ x ∈ names, graph.Named x) (hname : graph.Named name) :
    graph.table.index name ∈ names.map graph.table.index ↔ name ∈ names := by
  constructor
  · intro h
    obtain ⟨x, hx, heq⟩ := List.mem_map.mp h
    exact index_inj (hnames x hx) hname heq ▸ hx
  · exact List.mem_map_of_mem

theorem stored_eq_none : graph.stored name = none ↔ name ∉ graph.initializer.map NamedTensor.name := by
  rw [stored, Option.map_eq_none_iff, List.find?_eq_none, List.mem_map]
  constructor
  · rintro h ⟨x, hx, hname⟩
    exact h x hx (decide_eq_true hname)
  · exact fun h x hx hname => h ⟨x, hx, of_decide_eq_true hname⟩

/-- The values that a dummy stands for. -/
def undefineds (graph : NamedGraph) : List ValueId :=
  undefinedValues graph.inlines { table := graph.table, externalRefs := graph.externals } graph.allNodes

theorem index_mem_undefineds (h : graph.Distinct) (hname : graph.Named name) :
    graph.table.index name ∈ graph.undefineds ↔ graph.Undefined name := by
  have hstored : ((graph.stored name).bind StoredTensor.inline?).isNone ∧
      ((graph.stored name).bind StoredTensor.external?).isNone ↔
        name ∉ graph.initializer.map NamedTensor.name := by
    rw [← stored_eq_none]
    cases graph.stored name with
    | none => simp
    | some t => cases t <;> simp [StoredTensor.inline?, StoredTensor.external?]
  have hdefines : ∀ x ∈ graph.defined ++ graph.inputs.map ValueInfo.name, graph.Named x := by
    intro x hx
    obtain hx | hx := List.mem_append.mp hx
    · exact named_defined hx
    · obtain ⟨info, hinfo, rfl⟩ := List.mem_map.mp hx
      exact named_input hinfo
  rw [undefineds, undefinedValues, List.mem_filter, reads_eq, decide_eq_true_iff,
    mem_map_index (fun x => named_used) hname, defines_eq, mem_map_index hdefines hname]
  dsimp only
  rw [inlines_index h hname, externals_index h hname, ← and_assoc (c := name ∉ _), hstored, Undefined,
    List.mem_append, not_or, and_comm (a := name ∉ graph.defined)]

/-! ### The graph -/

/-- The value of a name has its name and its type. -/
theorem build_value (h : graph.Distinct) (hname : graph.Named name) :
    graph.build.values[graph.table.index name]? = some { name, ty := graph.typeOf name } := by
  obtain ⟨info, hinfo, hinfoName, hfind⟩ := hname.value
  change (graph.table.values.mapIdx fun v info => if v ∈ graph.undefineds then _ else info)[_]? = _
  rw [List.getElem?_mapIdx, hinfo, Option.map_some, typeOf, hfind]
  by_cases hundefined : graph.Undefined name
  · rw [if_pos ((index_mem_undefineds h hname).mpr hundefined), if_pos hundefined, hinfoName]
  · rw [if_neg ((index_mem_undefineds h hname).not.mpr hundefined), if_neg hundefined, ← hinfoName]
    rfl

theorem build_valueName (h : graph.Distinct) (hname : graph.Named name) :
    valueName graph.build (graph.table.index name) = some name := by
  rw [valueName, build_value h hname]
  rfl

theorem build_values_length (graph : NamedGraph) : graph.build.values.length = graph.table.values.length :=
  List.length_mapIdx

/-- Every value of the graph is that of a name. -/
theorem exists_name {v : ValueId} (hv : v < graph.build.values.length) :
    ∃ name, graph.Named name ∧ graph.table.index name = v := by
  rw [build_values_length] at hv
  obtain ⟨hname, hindex⟩ := named_of_value (List.getElem?_eq_getElem hv)
  exact ⟨_, hname, hindex⟩

/-- The inline tensor of a name. -/
def inlineOf (graph : NamedGraph) (name : String) : Option Tensor :=
  if graph.Undefined name then some dummyTensor else (graph.stored name).bind StoredTensor.inline?

theorem build_initializer (h : graph.Distinct) (hname : graph.Named name) :
    graph.build.initializer (graph.table.index name) = graph.inlineOf name := by
  change (if _ ∈ graph.undefineds then _ else graph.inlines _) = _
  rw [inlines_index h hname, inlineOf]
  exact if_congr (index_mem_undefineds h hname) rfl rfl

theorem build_externalRefs (h : graph.Distinct) (hname : graph.Named name) :
    graph.build.externalRefs (graph.table.index name) = (graph.stored name).bind StoredTensor.external? := by
  change (if _ ∈ graph.undefineds then _ else graph.externals _) = _
  rw [externals_index h hname]
  by_cases hundefined : graph.Undefined name
  · rw [if_pos ((index_mem_undefineds h hname).mpr hundefined), stored_eq_none.mpr hundefined.2.1]
    rfl
  · exact if_neg ((index_mem_undefineds h hname).not.mpr hundefined)

/-- The operators are no dummies of graph inputs and outputs. -/
def NoDummies (graph : NamedGraph) : Prop := ∀ node ∈ graph.nodes, node.op.operatorType ≠ .dummy

theorem allNodes_live {node : Node} (h : node ∈ graph.allNodes) : node.markAsDeleted = false := by
  obtain h | h := List.mem_append.mp h
  · obtain h | h := List.mem_append.mp h
    · obtain ⟨_, -, rfl⟩ := List.mem_map.mp h
      rfl
    · obtain ⟨_, -, rfl⟩ := List.mem_map.mp h
      rfl
  · obtain ⟨_, -, rfl⟩ := List.mem_map.mp h
    rfl

theorem build_iter (graph : NamedGraph) : graph.build.iter.map Prod.snd = graph.allNodes := by
  have hall : ∀ x ∈ graph.allNodes.zipIdx.map Prod.swap, !x.2.markAsDeleted := by
    intro x hx
    obtain ⟨y, hy, rfl⟩ := List.mem_map.mp hx
    rw [Prod.snd_swap, allNodes_live (List.fst_mem_of_mem_zipIdx hy)]
    rfl
  rw [Graph.iter, build_nodes, List.filter_eq_self.mpr hall, List.map_map]
  exact List.zipIdx_map_fst 0 graph.allNodes

theorem build_node? (graph : NamedGraph) (id : NodeId) : graph.build.node? id = graph.allNodes[id]? := by
  rw [Graph.node?, build_nodes]
  cases hnode : graph.allNodes[id]? with
  | none => rfl
  | some node =>
      refine Option.filter_some_pos ?_
      rw [allNodes_live (List.mem_of_getElem? hnode)]
      rfl

theorem filter_dummies {l : List Node} (h : ∀ node ∈ l, node.isDummy = true) :
    l.filter (fun node => !node.isDummy) = [] := by
  rw [List.filter_eq_nil_iff]
  intro node hnode
  rw [h node hnode]
  decide

theorem build_liveNodes (h : graph.NoDummies) :
    (graph.build.iter.map Prod.snd).filter (fun node => !node.isDummy) =
      graph.nodes.map (NamedNode.resolve graph.table) := by
  have hnodes : ∀ node ∈ graph.nodes.map (NamedNode.resolve graph.table), !node.isDummy := by
    intro node hnode
    obtain ⟨n, hn, rfl⟩ := List.mem_map.mp hnode
    rw [Node.isDummy, NamedNode.resolve, beq_eq_false_iff_ne.mpr (h n hn)]
    rfl
  have hinputs : ∀ l : List ValueId, ∀ node ∈ l.map (inputNode graph.table.values), node.isDummy = true := by
    intro l node hnode
    obtain ⟨v, -, rfl⟩ := List.mem_map.mp hnode
    rfl
  have houtputs : ∀ l : List ValueId, ∀ node ∈ l.map (outputNode graph.table.values), node.isDummy = true := by
    intro l node hnode
    obtain ⟨v, -, rfl⟩ := List.mem_map.mp hnode
    rfl
  rw [build_iter, allNodes, List.filter_append, List.filter_append, List.filter_eq_self.mpr hnodes,
    filter_dummies (hinputs _), filter_dummies (houtputs _), List.append_nil, List.append_nil]

/-- A map that always returns. -/
theorem mapM_map_eq_some {α β γ : Type} {f : β → Option γ} {g : α → β} {h : α → γ} {l : List α}
    (hfg : ∀ x ∈ l, f (g x) = some (h x)) : (l.map g).mapM f = some (l.map h) := by
  induction l with
  | nil => rfl
  | cons x l ih =>
      rw [List.map_cons, List.mapM_cons, hfg x List.mem_cons_self,
        ih fun y hy => hfg y (List.mem_cons_of_mem x hy)]
      rfl

/-- A map over consecutive indices. -/
theorem mapM_range' {β : Type} {f : Nat → Option β} {l : List β} {a : Nat}
    (h : ∀ i b, l[i]? = some b → f (a + i) = some b) : (List.range' a l.length).mapM f = some l := by
  induction l generalizing a with
  | nil => rfl
  | cons b l ih =>
      have htail := @ih (a + 1) fun i c hc => by
        rw [Nat.add_assoc, Nat.add_comm 1 i]
        exact h (i + 1) c hc
      have hhead : f a = some b := h 0 b rfl
      rw [List.length_cons, List.range'_succ, List.mapM_cons, htail, hhead]
      rfl

theorem build_inputValues (graph : NamedGraph) :
    inputValues graph.build = some (graph.inputs.map fun info => graph.table.index info.name) := by
  refine mapM_range' fun i v hv => ?_
  have hnode : graph.allNodes[(graph.nodes.map (NamedNode.resolve graph.table)).length + i]? =
      some (inputNode graph.table.values v) := by
    rw [allNodes, List.append_assoc, List.getElem?_append_right (Nat.le_add_right _ _),
      Nat.add_sub_cancel_left]
    refine (List.getElem?_append_left ?_).trans (by rw [List.getElem?_map, hv]; rfl)
    rw [List.length_map]
    exact (List.getElem?_eq_some_iff.mp hv).1
  rw [build_node?, hnode]
  rfl

theorem build_outputValues (graph : NamedGraph) :
    outputValues graph.build = some (graph.outputs.map fun info => graph.table.index info.name) := by
  refine mapM_range' fun i v hv => ?_
  have hnode : graph.allNodes[(graph.nodes.map (NamedNode.resolve graph.table)).length +
      (graph.inputs.map fun info => graph.table.index info.name).length + i]? =
      some (outputNode graph.table.values v) := by
    have hlen : (graph.nodes.map (NamedNode.resolve graph.table)).length +
        (graph.inputs.map fun info => graph.table.index info.name).length =
        (graph.nodes.map (NamedNode.resolve graph.table) ++
          (graph.inputs.map fun info => graph.table.index info.name).map
            (inputNode graph.table.values)).length := by
      rw [List.length_append, List.length_map (inputNode _)]
    rw [allNodes, hlen, List.getElem?_append_right (Nat.le_add_right _ _), Nat.add_sub_cancel_left,
      List.getElem?_map, hv]
    rfl
  rw [build_node?, hnode]
  rfl

end NamedGraph

end Onnx
end NnEngine
