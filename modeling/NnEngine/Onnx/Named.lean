import NnEngine.Onnx.LoadGraph

/-!
# Graphs by names

What a file says about a graph, with names in the place of values, and that `load_graph` reads this and
then gives each name a value at its first use.
-/

namespace NnEngine
namespace Onnx

/-- An initializer, as it is stored. -/
inductive StoredTensor
  | inline (tensor : Tensor)
  | external (r : ExternalTensorRef)

namespace StoredTensor

def tensorType : StoredTensor → ResolvedTensorType
  | inline tensor => tensor.tensorType
  | external r => .new r.elemType r.dims

def inline? : StoredTensor → Option Tensor
  | inline tensor => some tensor
  | external _ => none

def external? : StoredTensor → Option ExternalTensorRef
  | inline _ => none
  | external r => some r

end StoredTensor

structure NamedTensor where
  name : String
  stored : StoredTensor

structure NamedNode where
  name : String
  op : Operator
  inputs : List (Option String)
  outputs : List String

structure NamedGraph where
  initializer : List NamedTensor
  inputs : List ValueInfo
  outputs : List ValueInfo
  nodes : List NamedNode

variable {files : Files} {baseDir : Option String}

/-! ### Reading -/

def readValueInfo (info : ValueInfoProto) : LoadResult ValueInfo :=
  match info.type with
  | none => .error (.unexpected "ValueInfo.type must be specified")
  | some ty => (loadType ty).map fun ty => { name := info.name, ty := some ty }

def readInitializer (files : Files) (baseDir : Option String) (tensor : TensorProto) :
    LoadResult NamedTensor :=
  if tensor.externalData ≠ [] then
    (makeExternalRef tensor baseDir).map fun r => { name := tensor.name, stored := .external r }
  else
    (loadTensor files tensor baseDir).map fun loaded => { name := tensor.name, stored := .inline loaded }

/-- The name of an input, if it is present. -/
def inputName (x : String) : Option String := if x.isEmpty then none else some x

def readNode (files : Files) (baseDir : Option String) (node : NodeProto) : LoadResult NamedNode := do
  let attributes ← loadAttributes files baseDir node.attributes
  let op ← loadOp node.opType attributes
  pure { name := node.name, op, inputs := node.input.map inputName, outputs := node.output }

def readGraph (files : Files) (graph : GraphProto) (baseDir : Option String) : LoadResult NamedGraph := do
  let initializer ← graph.initializer.mapM (readInitializer files baseDir)
  let inputs ← (graph.input.filter fun x => x.name ∉ graph.initializer.map TensorProto.name).mapM readValueInfo
  let outputs ← graph.output.mapM readValueInfo
  let nodes ← graph.node.mapM (readNode files baseDir)
  pure { initializer, inputs, outputs, nodes }

/-! ### The table of values -/

namespace NamedTensor

/-- The value of an initializer. -/
def info (tensor : NamedTensor) : ValueInfo :=
  { name := tensor.name, ty := some (.resolved tensor.stored.tensorType) }

/-- An entry of the map of the values that have this part. -/
def add {β : Type} (part : StoredTensor → Option β) (table : Interner String ValueInfo)
    (res : ValueId → Option β) (tensor : NamedTensor) : ValueId → Option β :=
  match part tensor.stored with
  | some b => Function.update res (table.index tensor.name) (some b)
  | none => res

end NamedTensor

/-- A value that only nodes name. -/
def untyped (name : String) : ValueInfo := { name, ty := none }

namespace NamedNode

/-- The values of a node. -/
def infos (node : NamedNode) : List ValueInfo :=
  (node.inputs.filterMap id).map untyped ++ node.outputs.map untyped

/-- The node with values for names. -/
def resolve (table : Interner String ValueInfo) (node : NamedNode) : Node where
  name := node.name
  inputs := node.inputs.map (Option.map table.index)
  outputs := node.outputs.map table.index
  op := node.op
  markAsDeleted := false

end NamedNode

namespace NamedGraph

/-- The values in the order of `load_graph`. -/
def infos (graph : NamedGraph) : List ValueInfo :=
  graph.initializer.map NamedTensor.info ++ graph.inputs ++ graph.outputs ++
    graph.nodes.flatMap NamedNode.infos

def table (graph : NamedGraph) : Interner String ValueInfo :=
  Interner.empty.internAll ValueInfo.name graph.infos

/-- The inline tensors, by their values. -/
def inlines (graph : NamedGraph) : GraphLoader.Initializers :=
  graph.initializer.foldl (NamedTensor.add StoredTensor.inline? graph.table) fun _ => none

/-- The external tensors, by their values. -/
def externals (graph : NamedGraph) : ValueId → Option ExternalTensorRef :=
  graph.initializer.foldl (NamedTensor.add StoredTensor.external? graph.table) fun _ => none

/-- The graph with values for names. -/
def build (graph : NamedGraph) : Graph :=
  assemble graph.inlines { table := graph.table, externalRefs := graph.externals }
    (graph.inputs.map fun info => graph.table.index info.name)
    (graph.outputs.map fun info => graph.table.index info.name)
    (graph.nodes.map (NamedNode.resolve graph.table))

end NamedGraph

/-! ### Interning -/

namespace GraphLoader

/-- Interning values one after the other. -/
def internAll (l : GraphLoader) (infos : List ValueInfo) : GraphLoader :=
  { l with table := l.table.internAll ValueInfo.name infos }

theorem foldl_intern (l : GraphLoader) (infos : List ValueInfo) :
    infos.foldl (fun l info => (intern l info).2) l = l.internAll infos := by
  induction infos generalizing l with
  | nil => rfl
  | cons info infos ih => exact ih (l.intern info).2

/-- No value changes. -/
def Extends (l l' : GraphLoader) : Prop := l.table.Extends l'.table

theorem Extends.trans {l l' l'' : GraphLoader} (h : l.Extends l') (h' : l'.Extends l'') : l.Extends l'' :=
  Interner.Extends.trans h h'

theorem Extends.refl (l : GraphLoader) : l.Extends l := Interner.Extends.refl l.table

theorem internAll_extends (l : GraphLoader) (infos : List ValueInfo) : l.Extends (l.internAll infos) :=
  l.table.internAll_extends infos

theorem intern_index {l t : GraphLoader} {info : ValueInfo} (h : (l.intern info).2.Extends t) :
    (l.intern info).1 = t.table.index info.name := by
  have hentry := h.entries (l.table.intern_entries info)
  rw [Interner.index, hentry]
  rfl

/-- Values along a run of the loader that can be read off its end. -/
theorem outputsOf_eq {β γ : Type} {g : GraphLoader → γ → β} {next : GraphLoader → γ → GraphLoader}
    {G : GraphLoader → γ → β} (hnext : ∀ l x, Extends l (next l x))
    (hg : ∀ {l x t}, Extends (next l x) t → g l x = G t x) (l : GraphLoader) (xs : List γ) :
    outputsOf g next l xs = xs.map (G (xs.foldl next l)) :=
  @outputsOf_eq_map _ _ _ g next Extends G Extends.trans Extends.refl hnext hg l _ xs (Extends.refl _)

theorem loadValueInfo_eq (l : GraphLoader) (info : ValueInfoProto) :
    loadValueInfo l info = (readValueInfo info).map fun info => ((l.intern info).1, (l.intern info).2) := by
  obtain ⟨name, ty⟩ := info
  cases ty with
  | none => rfl
  | some ty =>
      change (loadType ty).map _ = ((loadType ty).map _).map _
      cases loadType ty <;> rfl

theorem loadValueInfoVec_eq (l : GraphLoader) (v : List ValueInfoProto) :
    l.loadValueInfoVec v = (v.mapM readValueInfo).map fun infos =>
      (infos.map fun info => (l.internAll infos).table.index info.name, l.internAll infos) := by
  rw [loadValueInfoVec, mapState_eq_map loadValueInfo_eq]
  congr 1
  funext infos
  have houtputs := @outputsOf_eq _ _ (fun l info => (intern l info).1) (fun l info => (intern l info).2)
    (fun l info => l.table.index info.name) (fun l info => l.table.intern_extends info) intern_index l infos
  rw [houtputs, foldl_intern]

/-! ### Nodes -/

/-- Naming an input. -/
def nameInput (l : GraphLoader) : Option String → GraphLoader
  | none => l
  | some x => (l.resolve x).2

theorem resolveInput_eq (l : GraphLoader) (x : String) :
    resolveInput l x = (Except.ok (inputName x) : LoadResult (Option String)).map fun name =>
      (name.map fun x => (l.resolve x).1, l.nameInput name) := by
  unfold resolveInput inputName
  split <;> rfl

theorem foldl_nameInput (l : GraphLoader) (names : List (Option String)) :
    names.foldl nameInput l = l.internAll ((names.filterMap id).map untyped) := by
  induction names generalizing l with
  | nil => rfl
  | cons name names ih =>
      cases name with
      | none => exact ih l
      | some x => exact ih (l.resolve x).2

theorem foldl_resolve (l : GraphLoader) (names : List String) :
    names.foldl (fun l x => (resolve l x).2) l = l.internAll (names.map untyped) := by
  induction names generalizing l with
  | nil => rfl
  | cons x names ih => exact ih (l.resolve x).2

theorem resolveInputs_eq (l : GraphLoader) (names : List String) :
    mapState resolveInput l names =
      .ok ((names.map inputName).map (Option.map
        (l.internAll (((names.map inputName).filterMap id).map untyped)).table.index),
        l.internAll (((names.map inputName).filterMap id).map untyped)) := by
  rw [mapState_eq_map resolveInput_eq, mapM_ok fun x _ => rfl]
  have houtputs := @outputsOf_eq _ _ (fun l name => name.map fun x => (resolve l x).1) nameInput
    (fun l name => name.map l.table.index)
    (fun l name => by
      cases name with
      | none => exact Extends.refl l
      | some x => exact l.table.intern_extends (untyped x))
    (fun {l name t} h => by
      cases name with
      | none => rfl
      | some x => exact congrArg some (intern_index h)) l (names.map inputName)
  rw [Except.map, houtputs, foldl_nameInput]

theorem resolveOutputs_eq (l : GraphLoader) (names : List String) :
    mapState (fun l x => (Except.ok (resolve l x) : LoadResult _)) l names =
      .ok (names.map (l.internAll (names.map untyped)).table.index, l.internAll (names.map untyped)) := by
  have hstep : ∀ l x, (Except.ok (resolve l x) : LoadResult _) =
      (Except.ok x : LoadResult String).map fun x => ((resolve l x).1, (resolve l x).2) := fun _ _ => rfl
  rw [mapState_eq_map hstep, mapM_ok fun x _ => rfl]
  have houtputs := @outputsOf_eq _ _ (fun l x => (resolve l x).1) (fun l x => (resolve l x).2)
    (fun l x => l.table.index x) (fun l x => l.table.intern_extends (untyped x)) intern_index l names
  rw [Except.map, List.map_id', houtputs, foldl_resolve]

theorem internAll_append (l : GraphLoader) (infos infos' : List ValueInfo) :
    l.internAll (infos ++ infos') = (l.internAll infos).internAll infos' := by
  unfold internAll
  rw [l.table.internAll_append]

/-- The index of a name that was interned. -/
theorem index_eq {l t : GraphLoader} {infos : List ValueInfo} (h : (l.internAll infos).Extends t) {info : ValueInfo}
    (hinfo : info ∈ infos) : t.table.index info.name = (l.internAll infos).table.index info.name :=
  h.index (l.table.internAll_entries hinfo)

theorem map_index_inputs {l t : GraphLoader} {names : List (Option String)} {infos : List ValueInfo}
    (h : (l.internAll infos).Extends t) (hinfos : ∀ x ∈ names.filterMap id, untyped x ∈ infos) :
    names.map (Option.map t.table.index) = names.map (Option.map (l.internAll infos).table.index) := by
  refine List.map_congr_left fun name hname => ?_
  cases name with
  | none => rfl
  | some x =>
      have hmem : x ∈ names.filterMap id := List.mem_filterMap.mpr ⟨some x, hname, rfl⟩
      exact congrArg some (index_eq h (hinfos x hmem))

theorem resolve_eq {l t : GraphLoader} {node : NamedNode} (h : (l.internAll node.infos).Extends t) :
    node.resolve t.table = node.resolve (l.internAll node.infos).table := by
  unfold NamedNode.resolve
  congr 1
  · exact map_index_inputs h fun x hx => List.mem_append_left _ (List.mem_map_of_mem hx)
  · exact List.map_congr_left fun x hx => index_eq h (List.mem_append_right _ (List.mem_map_of_mem hx))

theorem loadNode_eq (files : Files) (baseDir : Option String) (l : GraphLoader) (node : NodeProto) :
    loadNode files baseDir l node = (readNode files baseDir node).map fun n =>
      (n.resolve (l.internAll n.infos).table, l.internAll n.infos) := by
  rw [loadNode, resolveInputs_eq]
  change (mapState _ _ node.output >>= _) = _
  rw [resolveOutputs_eq, ← internAll_append, readNode]
  generalize hinputs : ((node.input.map inputName).filterMap id).map untyped = inputs
  have hindex := @map_index_inputs l (l.internAll (inputs ++ node.output.map untyped))
    (node.input.map inputName) inputs (by rw [internAll_append]; exact internAll_extends _ _)
    fun x hx => hinputs ▸ List.mem_map_of_mem hx
  rw [← hindex, ← hinputs]
  cases loadAttributes files baseDir node.attributes with
  | error e => rfl
  | ok attributes =>
      change (loadOp node.opType attributes >>= _) = Except.map _ (loadOp node.opType attributes >>= _)
      cases loadOp node.opType attributes with
      | error e => rfl
      | ok op => rfl

theorem loadNodes_eq (l : GraphLoader) (files : Files) (baseDir : Option String) (nodes : List NodeProto) :
    l.loadNodes files baseDir nodes = (nodes.mapM (readNode files baseDir)).map fun ns =>
      (ns.map (NamedNode.resolve (l.internAll (ns.flatMap NamedNode.infos)).table),
        l.internAll (ns.flatMap NamedNode.infos)) := by
  rw [loadNodes, mapState_eq_map (loadNode_eq files baseDir)]
  congr 1
  funext ns
  have houtputs := @outputsOf_eq _ _ (fun l n => NamedNode.resolve (internAll l n.infos).table n)
    (fun l n => internAll l n.infos) (fun l n => n.resolve l.table)
    (fun l n => l.internAll_extends n.infos) (fun h => (resolve_eq h).symm) l ns
  have hfoldl : ns.foldl (fun l n => internAll l n.infos) l = l.internAll (ns.flatMap NamedNode.infos) := by
    clear houtputs
    induction ns generalizing l with
    | nil => rfl
    | cons n ns ih => rw [List.foldl_cons, ih, List.flatMap_cons, internAll_append]
  rw [houtputs, hfoldl]

/-! ### Initializers -/

/-- An initializer in `load_initializer`. -/
def addInitializer (x : Initializers × GraphLoader) (tensor : NamedTensor) : Initializers × GraphLoader :=
  match tensor.stored with
  | .inline t => (Function.update x.1 (x.2.intern tensor.info).1 (some t), (x.2.intern tensor.info).2)
  | .external r =>
      (x.1, { (x.2.intern tensor.info).2 with
        externalRefs := Function.update x.2.externalRefs (x.2.intern tensor.info).1 (some r) })

theorem loadInitializerTensor_eq (files : Files) (baseDir : Option String) (x : Initializers × GraphLoader)
    (tensor : TensorProto) :
    loadInitializerTensor files baseDir x tensor =
      (readInitializer files baseDir tensor).map (addInitializer x) := by
  obtain ⟨res, l⟩ := x
  unfold loadInitializerTensor readInitializer
  dsimp only
  by_cases h : tensor.externalData ≠ []
  · rw [if_pos h, if_pos h]
    cases makeExternalRef tensor baseDir <;> rfl
  · rw [if_neg h, if_neg h]
    cases loadTensor files tensor baseDir <;> rfl

theorem foldl_addInitializer {t : GraphLoader} {tensors : List NamedTensor} {x : Initializers × GraphLoader}
    (h : (x.2.internAll (tensors.map NamedTensor.info)).Extends t) :
    tensors.foldl addInitializer x =
      (tensors.foldl (NamedTensor.add StoredTensor.inline? t.table) x.1,
        { x.2.internAll (tensors.map NamedTensor.info) with
          externalRefs := tensors.foldl (NamedTensor.add StoredTensor.external? t.table) x.2.externalRefs }) := by
  induction tensors generalizing x with
  | nil => rfl
  | cons tensor tensors ih =>
      have hext : (x.2.intern tensor.info).2.Extends t := Extends.trans (internAll_extends _ _) h
      have hindex : (x.2.intern tensor.info).1 = t.table.index tensor.name := intern_index hext
      rw [List.foldl_cons, List.foldl_cons, List.foldl_cons]
      obtain ⟨name, stored⟩ := tensor
      cases stored with
      | inline loaded =>
          rw [ih h, addInitializer, hindex]
          rfl
      | external r =>
          rw [ih h, addInitializer, hindex]
          rfl

end GraphLoader

open GraphLoader

/-- The run of the loader over what was read is what `build` puts together. -/
theorem assemble_eq_build (graph : NamedGraph) :
    let x := graph.initializer.foldl addInitializer
      (fun _ => none, { table := .empty, externalRefs := fun _ => none })
    let l₁ := x.2.internAll graph.inputs
    let l₂ := l₁.internAll graph.outputs
    let l := l₂.internAll (graph.nodes.flatMap NamedNode.infos)
    assemble x.1 l (graph.inputs.map fun info => l₁.table.index info.name)
      (graph.outputs.map fun info => l₂.table.index info.name) (graph.nodes.map (NamedNode.resolve l.table)) =
        graph.build := by
  intro x l₁ l₂ l
  let t : GraphLoader := { table := graph.table, externalRefs := graph.externals }
  have htable : graph.table = (((Interner.empty.internAll ValueInfo.name
      (graph.initializer.map NamedTensor.info)).internAll ValueInfo.name graph.inputs).internAll
      ValueInfo.name graph.outputs).internAll ValueInfo.name (graph.nodes.flatMap NamedNode.infos) := by
    rw [NamedGraph.table, NamedGraph.infos, Interner.internAll_append, Interner.internAll_append,
      Interner.internAll_append]
  have hx : x = (graph.inlines,
      { table := Interner.empty.internAll ValueInfo.name (graph.initializer.map NamedTensor.info)
        externalRefs := graph.externals }) := by
    refine (@foldl_addInitializer t graph.initializer _ ?_).trans rfl
    change Interner.Extends _ graph.table
    rw [htable]
    exact ((Interner.internAll_extends _ _).trans (Interner.internAll_extends _ _)).trans
      (Interner.internAll_extends _ _)
  have hl : l = t := by
    have hrun := congrArg (fun x : Initializers × GraphLoader =>
      ((x.2.internAll graph.inputs).internAll graph.outputs).internAll
        (graph.nodes.flatMap NamedNode.infos)) hx
    exact hrun.trans (congrArg (fun table => GraphLoader.mk table graph.externals) htable.symm)
  have hext₂ : l₂.Extends t := hl ▸ internAll_extends l₂ _
  have hext₁ : l₁.Extends t := Extends.trans (internAll_extends l₁ graph.outputs) hext₂
  have hinputs : graph.inputs.map (fun info => l₁.table.index info.name) =
      graph.inputs.map fun info => graph.table.index info.name :=
    List.map_congr_left fun info hinfo => (@index_eq x.2 t graph.inputs hext₁ info hinfo).symm
  have houtputs : graph.outputs.map (fun info => l₂.table.index info.name) =
      graph.outputs.map fun info => graph.table.index info.name :=
    List.map_congr_left fun info hinfo => (@index_eq l₁ t graph.outputs hext₂ info hinfo).symm
  rw [hinputs, houtputs, hl, hx]
  rfl

/-- `load_graph` reads the names and then gives them values. -/
theorem loadGraph_eq (files : Files) (graph : GraphProto) (baseDir : Option String) :
    loadGraph files graph baseDir = (readGraph files graph baseDir).map NamedGraph.build := by
  rw [loadGraph, readGraph, loadInitializer, foldlM_eq_map (loadInitializerTensor_eq files baseDir)]
  generalize (graph.input.filter fun x => x.name ∉ graph.initializer.map TensorProto.name) = input
  cases graph.initializer.mapM (readInitializer files baseDir) with
  | error e => rfl
  | ok initializer =>
      change ((loadValueInfoVec _ input) >>= _) = Except.map _ (input.mapM readValueInfo >>= _)
      rw [loadValueInfoVec_eq]
      cases input.mapM readValueInfo with
      | error e => rfl
      | ok inputs =>
          change ((loadValueInfoVec _ graph.output) >>= _) =
            Except.map _ (graph.output.mapM readValueInfo >>= _)
          rw [loadValueInfoVec_eq]
          cases graph.output.mapM readValueInfo with
          | error e => rfl
          | ok outputs =>
              change ((loadNodes _ files baseDir graph.node) >>= _) =
                Except.map _ (graph.node.mapM (readNode files baseDir) >>= _)
              rw [loadNodes_eq]
              cases graph.node.mapM (readNode files baseDir) with
              | error e => rfl
              | ok nodes =>
                  exact congrArg Except.ok (assemble_eq_build { initializer, inputs, outputs, nodes })

end Onnx
end NnEngine
