import NnEngine.Graph.Consistency
import NnEngine.Result

/-!
# Removing dead nodes

`update_deleted_nodes`, and `delete_nodes` of `src/graph.rs` after it.  `update_deleted_nodes` looks for the
nodes that the graph outputs need through `value2defined`, which it does not keep in order itself: a graph input
that nothing needs stays in the graph without its entry.  `removal_exact_iff` says in which states of a run the
two keep what they should.
-/

namespace NnEngine

open DepthFirst InverseIndex SimpleGraphOp GraphState

namespace Graph

/-- `delete_nodes`.  `iter` hides the deleted nodes, so the panic in it is never met. -/
def deleteNodes (g : Graph) : Except Stop Graph :=
  if g.iter.any fun x => x.2.markAsDeleted && x.2.isDummy then .error .panic
  else
    let nodes := (g.iter.filter fun x => !x.2.markAsDeleted && !x.2.isDummy).map Prod.snd
    (g.inputs.mapM fun n => orPanic (g.node? n)).bind fun inputs =>
      (g.outputs.mapM fun n => orPanic (g.node? n)).map fun outputs =>
        { g with
          nodes := nodes ++ inputs ++ outputs
          inputs := List.range' nodes.length inputs.length
          outputs := List.range' (nodes ++ inputs).length outputs.length }

end Graph

/-! ### What is needed -/

/-- Node `a` reads a value that node `b` defines and that has no initializer. -/
def Uses (g : Graph) (a b : NodeId) : Prop :=
  ∃ node node' v, g.node? a = some node ∧ g.node? b = some node' ∧ some v ∈ node.inputs ∧
    g.hasInitializer v = false ∧ v ∈ node'.outputs

/-- A graph output can be reached from the node. -/
def Needed (g : Graph) (id : NodeId) : Prop := ∃ o ∈ g.outputs, Relation.ReflTransGen (Uses g) o id

/-- A graph with these input and output nodes, whose values have one definition at most. -/
structure Formed (g : Graph) : Prop where
  dummies : Dummies g
  listed : ∀ id node, g.node? id = some node → node.isDummy → id ∈ g.inputs ∨ id ∈ g.outputs
  sources : ∀ id ∈ g.inputs, ∀ node, g.node? id = some node → node.inputs = []
  defines : ∀ a b node node' v, g.node? a = some node → g.node? b = some node' → v ∈ node.outputs →
    v ∈ node'.outputs → a = b

/-- What is left of a graph: the nodes `kept` of it that are not dummies, and all its input and output nodes in
their order. -/
structure Cleaned (g g' : Graph) (kept : List (NodeId × Node)) (inputs outputs : List Node) : Prop where
  sublist : kept.Sublist g.iter
  kept_iff : ∀ x, x ∈ kept ↔ x ∈ g.iter ∧ x.2.isDummy = false ∧ Needed g x.1
  inputNodes : g.inputs.map g.node? = inputs.map some
  outputNodes : g.outputs.map g.node? = outputs.map some
  graph : g' =
    { g with
      nodes := kept.map Prod.snd ++ inputs ++ outputs
      inputs := List.range' kept.length inputs.length
      outputs := List.range' (kept.length + inputs.length) outputs.length }
  operands : ∀ node ∈ g'.nodes, ∀ v, some v ∈ node.inputs → g'.hasInitializer v ∨ ∃ node' ∈ g'.nodes, v ∈ node'.outputs

/-- Removing the dead nodes of this state returns and keeps what it should. -/
def Exact (st : GraphState) : Prop :=
  ∃ st' g' kept inputs outputs, st.updateDeletedNodes = .ok st' ∧ st'.graph.deleteNodes = .ok g' ∧
    Cleaned st.graph g' kept inputs outputs

/-- Every value that a needed node reads has an initializer or an entry at a node that is not deleted. -/
def Ready (st : GraphState) : Prop :=
  ∀ id node v, Needed st.graph id → st.graph.node? id = some node → some v ∈ node.inputs →
    st.graph.hasInitializer v ∨ ∃ x, st.maps.value2defined v = some x ∧ (st.graph.node? x.1).isSome

/-- What runs of the passes keep up: the users of each value, entries of `value2defined` that are right where they
name a node of the graph, and the form of the graph. -/
structure Settled (st : GraphState) : Prop where
  used : IsIndex st.maps.value2used (inputPairs st.graph)
  defined_lt : ∀ v x, st.maps.value2defined v = some x → x.1 < st.graph.nodes.length
  defined : ∀ v x node, st.maps.value2defined v = some x → st.graph.node? x.1 = some node →
    node.outputs[x.2]? = some v
  formed : Formed st.graph

/-! ### The search -/

section Search

variable {st st' : GraphState} {id : NodeId} {node : Node} {v : ValueId}

/-- A node that reads a value is not a graph input. -/
theorem Formed.not_input {g : Graph} (h : Formed g) (hnode : g.node? id = some node) (hv : some v ∈ node.inputs)
    (u : ValueId) : node.op ≠ .input u := by
  intro hop
  rcases h.listed id node hnode (isDummy_of_op (.inl hop)) with hin | hout
  · rw [h.sources id hin node hnode] at hv
    cases hv
  · obtain ⟨n, w, hn, hop', -⟩ := h.dummies.outputs id hout
    obtain rfl := Option.some.inj (hnode.symm.trans hn)
    rw [hop] at hop'
    cases hop'

/-- The values that the search looks up. -/
def operands (g : Graph) (node : Node) : List ValueId :=
  (node.inputs.filterMap fun v => v).filter fun v => !g.hasInitializer v

theorem mem_operands {g : Graph} : v ∈ operands g node ↔ some v ∈ node.inputs ∧ g.hasInitializer v = false := by
  simp [operands, List.mem_filter, List.mem_filterMap]

theorem usedNodes_eq (h : Formed st.graph) (hnode : st.graph.node? id = some node) : st.maps.usedNodes st.graph id =
    (operands st.graph node).mapM fun v => (st.maps.value2defined v).map Prod.fst := by
  unfold usedNodes
  rw [hnode, Option.bind_some]
  split
  · rename_i u hop
    -- a graph input reads nothing
    have hnil : operands st.graph node = [] := List.eq_nil_iff_forall_not_mem.mpr fun v hv =>
      absurd hop (h.not_input hnode (mem_operands.mp hv).1 u)
    rw [hnil]
    rfl
  · rfl

/-- What the search goes on to. -/
theorem usedNodes_eq_some (h : Formed st.graph) {next : List NodeId}
    (hnext : st.maps.usedNodes st.graph id = some next) : ∃ node, st.graph.node? id = some node ∧
      List.Forall₂ (fun v b => ∃ x, st.maps.value2defined v = some x ∧ x.1 = b) (operands st.graph node) next := by
  cases hnode : st.graph.node? id with
  | none =>
      unfold usedNodes at hnext
      rw [hnode] at hnext
      cases hnext
  | some node =>
      rw [usedNodes_eq h hnode, mapM_eq_some] at hnext
      exact ⟨node, rfl, hnext.imp fun v b hb => Option.map_eq_some_iff.mp hb⟩

theorem exists_right {α β : Type} {R : α → β → Prop} {l : List α} {l' : List β} (h : List.Forall₂ R l l') :
    (∀ a ∈ l, ∃ b ∈ l', R a b) ∧ ∀ b ∈ l', ∃ a ∈ l, R a b := by
  induction h with
  | nil => exact ⟨nofun, nofun⟩
  | @cons a b l l' hab _ ih =>
      constructor
      · intro c hc
        rcases List.mem_cons.mp hc with rfl | hc
        · exact ⟨b, List.mem_cons_self, hab⟩
        · obtain ⟨d, hd, hR⟩ := ih.1 c hc
          exact ⟨d, List.mem_cons_of_mem b hd, hR⟩
      · intro c hc
        rcases List.mem_cons.mp hc with rfl | hc
        · exact ⟨a, List.mem_cons_self, hab⟩
        · obtain ⟨d, hd, hR⟩ := ih.2 c hc
          exact ⟨d, List.mem_cons_of_mem a hd, hR⟩

/-- An entry at a node that is not deleted leads to the definition. -/
theorem Settled.uses (h : Settled st) {x : Place} {node' : Node} (hnode : st.graph.node? id = some node)
    (hv : some v ∈ node.inputs) (hinit : st.graph.hasInitializer v = false)
    (hx : st.maps.value2defined v = some x) (hb : st.graph.node? x.1 = some node') : Uses st.graph id x.1 :=
  ⟨node, node', v, hnode, hb, hv, hinit, List.mem_of_getElem? (h.defined v x node' hx hb)⟩

/-- In a ready state the search comes to the needed nodes and never stops there. -/
theorem reached_of_ready (h : Settled st) (hready : Ready st) {id : NodeId}
    (hreach : Reached (st.maps.usedNodes st.graph) st.graph.outputs id) :
    Needed st.graph id ∧ (st.graph.node? id).isSome := by
  obtain ⟨o, ho, hpath⟩ := hreach
  induction hpath with
  | refl =>
      obtain ⟨node, v, hnode, -⟩ := h.formed.dummies.outputs o ho
      exact ⟨⟨o, ho, .refl⟩, by rw [hnode]; rfl⟩
  | @tail a b _ hedge ih =>
      obtain ⟨⟨o', ho', hneeded⟩, -⟩ := ih
      obtain ⟨next, hnext, hb⟩ := hedge
      obtain ⟨node, hnode, hall⟩ := usedNodes_eq_some h.formed hnext
      obtain ⟨v, hv, x, hx, rfl⟩ := (exists_right hall).2 b hb
      obtain ⟨hv, hinit⟩ := mem_operands.mp hv
      rcases hready a node v ⟨o', ho', hneeded⟩ hnode hv with hsome | ⟨y, hy, hlive⟩
      · rw [hinit] at hsome
        cases hsome
      · obtain rfl := Option.some.inj (hx.symm.trans hy)
        obtain ⟨node', hnode'⟩ := Option.isSome_iff_exists.mp hlive
        exact ⟨⟨o', ho', hneeded.tail (h.uses hnode hv hinit hx hnode')⟩, hlive⟩

theorem usedNodes_ne_none (h : Settled st) (hready : Ready st) {id : NodeId} (hneeded : Needed st.graph id)
    (hlive : (st.graph.node? id).isSome) : st.maps.usedNodes st.graph id ≠ none := by
  obtain ⟨node, hnode⟩ := Option.isSome_iff_exists.mp hlive
  rw [usedNodes_eq h.formed hnode]
  have hall : ∀ v ∈ operands st.graph node, ∃ b, (st.maps.value2defined v).map Prod.fst = some b := by
    intro v hv
    obtain ⟨hv, hinit⟩ := mem_operands.mp hv
    rcases hready id node v hneeded hnode hv with hsome | ⟨x, hx, -⟩
    · rw [hinit] at hsome
      cases hsome
    · exact ⟨x.1, by rw [hx]; rfl⟩
  choose! b hb using hall
  rw [mapM_some hb]
  nofun

/-- A search that returns has found an entry for each value that a needed node reads. -/
theorem search_spec (h : Settled st) {visited : List NodeId} (hdfs : st.maps.usedNodesDfs st.graph = .ok visited) :
    Ready st ∧ ∀ id, Needed st.graph id → id ∈ visited := by
  have hlive {id : NodeId} (hid : Reached (st.maps.usedNodes st.graph) st.graph.outputs id) :
      ∃ next node, st.maps.usedNodes st.graph id = some next ∧ st.graph.node? id = some node ∧
        List.Forall₂ (fun v b => ∃ x, st.maps.value2defined v = some x ∧ x.1 = b) (operands st.graph node) next := by
    obtain ⟨next, hnext⟩ := search_succ hdfs hid
    obtain ⟨node, hnode, hall⟩ := usedNodes_eq_some h.formed hnext
    exact ⟨next, node, hnext, hnode, hall⟩
  -- where the search has come, the values that are read have entries at nodes to which it goes on
  have hread {id : NodeId} {node : Node} {v : ValueId}
      (hid : Reached (st.maps.usedNodes st.graph) st.graph.outputs id) (hnode : st.graph.node? id = some node)
      (hv : some v ∈ node.inputs) (hinit : st.graph.hasInitializer v = false) :
      ∃ x, st.maps.value2defined v = some x ∧ Reached (st.maps.usedNodes st.graph) st.graph.outputs x.1 := by
    obtain ⟨next, node', hnext, hnode', hall⟩ := hlive hid
    obtain rfl := Option.some.inj (hnode.symm.trans hnode')
    obtain ⟨b, hb, x, hx, rfl⟩ := (exists_right hall).1 v (mem_operands.mpr ⟨hv, hinit⟩)
    obtain ⟨o, ho, hpath⟩ := hid
    exact ⟨x, hx, o, ho, hpath.tail ⟨next, hnext, hb⟩⟩
  have hneeded {id : NodeId} (hid : Needed st.graph id) :
      Reached (st.maps.usedNodes st.graph) st.graph.outputs id := by
    obtain ⟨o, ho, hpath⟩ := hid
    induction hpath with
    | refl => exact ⟨o, ho, .refl⟩
    | @tail a b _ hedge ih =>
        obtain ⟨node, node', v, hnode, hnode', hv, hinit, hdef⟩ := hedge
        obtain ⟨x, hx, hreach⟩ := hread ih hnode hv hinit
        obtain ⟨-, n, -, hn, -⟩ := hlive hreach
        have hmem := List.mem_of_getElem? (h.defined v x n hx hn)
        rwa [h.formed.defines x.1 b n node' v hn hnode' hmem hdef] at hreach
  refine ⟨fun id node v hid hnode hv => ?_, fun id hid => (search_mem_iff hdfs id).mpr (hneeded hid)⟩
  cases hinit : st.graph.hasInitializer v with
  | true => exact .inl rfl
  | false =>
      obtain ⟨x, hx, hreach⟩ := hread (hneeded hid) hnode hv hinit
      obtain ⟨-, n, -, hn, -⟩ := hlive hreach
      exact .inr ⟨x, hx, by rw [hn]; rfl⟩

/-- A ready state is searched. -/
theorem exists_visited (h : Settled st) (hready : Ready st) : ∃ visited,
    st.maps.usedNodesDfs st.graph = .ok visited ∧ ∀ id, id ∈ visited ↔ Needed st.graph id := by
  obtain ⟨visited, hdfs⟩ := search_ok (usedNodesDfs_ne_fuel st.graph st.maps) fun u hu => by
    obtain ⟨hneeded, hlive⟩ := reached_of_ready h hready hu
    exact usedNodes_ne_none h hready hneeded hlive
  refine ⟨visited, hdfs, fun id => ⟨fun hid => ?_, (search_spec h hdfs).2 id⟩⟩
  exact (reached_of_ready h hready ((search_mem_iff hdfs id).mp hid)).1

end Search

/-! ### The deletion -/

section Deletion

variable {st st' : GraphState} {id : NodeId} {node : Node} {v : ValueId}

/-- The first loop returns, takes nodes out of the list and changes nothing else of the graph. -/
theorem deleteNodes_ok (l : List (NodeId × Node)) : ∀ st : GraphState, (l.map Prod.fst).Nodup →
    (∀ x ∈ l, st.graph.node? x.1 = some x.2) → IsIndex st.maps.value2used (inputPairs st.graph) →
    ∃ st', l.foldlM deleteNode st = .ok st' ∧ st'.graph.iter.Sublist st.graph.iter ∧
      st'.graph = { st.graph with nodes := st'.graph.nodes } ∧ st'.graph.nodes.length = st.graph.nodes.length := by
  induction l with
  | nil => exact fun st _ _ _ => ⟨st, rfl, List.Sublist.refl _, rfl, rfl⟩
  | cons x l ih =>
      intro st hnodup hlive hindex
      obtain ⟨hx, hnodup⟩ := List.nodup_cons.mp hnodup
      have hnode := hlive x List.mem_cons_self
      obtain ⟨st₁, hst₁, hsub, hgraph, hlength⟩ : ∃ st₁, deleteNode st x = .ok st₁ ∧
          st₁.graph.iter.Sublist st.graph.iter ∧ st₁.graph = { st.graph with nodes := st₁.graph.nodes } ∧
          st₁.graph.nodes.length = st.graph.nodes.length := by
        unfold deleteNode
        split
        · exact ⟨st, rfl, List.Sublist.refl _, rfl, rfl⟩
        · obtain ⟨used, hused, -⟩ := removeAll_isIndex (inputPlaces x.1 x.2) (inputPlaces_nodup x.1 x.2)
            (fun p hp => by
              obtain ⟨hid, hget⟩ := mem_inputPlaces.mp hp
              exact ⟨x.2, by rw [hid]; exact hnode, hget⟩) hindex
          rw [hused]
          obtain ⟨before, after, hiter, -, hset⟩ := iter_eq_append hnode
          refine ⟨_, rfl, ?_, rfl, List.length_set ..⟩
          dsimp only
          rw [hset, hiter, if_pos rfl, List.append_nil]
          exact (List.Sublist.refl before).append (List.Sublist.cons x (List.Sublist.refl after))
      obtain ⟨hindex₁, -, hnode₁, -, -, -⟩ := deleteNodes_spec [x] st (by simp) (by simpa using hnode) hindex
        (by rw [List.foldlM_cons, hst₁]; rfl)
      obtain ⟨st', hst', hsub', hgraph', hlength'⟩ := ih st₁ hnodup (fun y hy => by
        rw [hnode₁, if_neg]
        · exact hlive y (List.mem_cons_of_mem x hy)
        · have hne : (x.1 == y.1) = false := beq_false_of_ne fun heq => hx (heq ▸ List.mem_map_of_mem hy)
          simp [deletes, hne]) hindex₁
      refine ⟨st', by rw [List.foldlM_cons, hst₁]; exact hst', hsub'.trans hsub, ?_, hlength'.trans hlength⟩
      exact hgraph'.trans (congrArg (fun g : Graph => { g with nodes := st'.graph.nodes }) hgraph)

/-- What the first loop deletes of the nodes that have not been visited. -/
theorem deletes_iff {g : Graph} {visited : List NodeId} (hnode : g.node? id = some node) :
    deletes (g.iter.filter (·.1 ∉ visited)) id = true ↔ id ∉ visited ∧ node.isDummy = false := by
  unfold deletes
  rw [List.any_eq_true]
  constructor
  · rintro ⟨x, hx, hcond⟩
    obtain ⟨hx, hnot⟩ := List.mem_filter.mp hx
    rw [Bool.and_eq_true, beq_iff_eq, Bool.not_eq_true'] at hcond
    obtain ⟨rfl, hdummy⟩ := hcond
    obtain rfl := Option.some.inj (hnode.symm.trans (mem_iter.mp hx))
    exact ⟨of_decide_eq_true hnot, hdummy⟩
  · rintro ⟨hnot, hdummy⟩
    refine ⟨(id, node), List.mem_filter.mpr ⟨mem_iter.mpr hnode, decide_eq_true hnot⟩, ?_⟩
    simp [hdummy]

/-- `update_deleted_nodes` after the search. -/
theorem updateDeletedNodes_ok (h : Settled st) {visited : List NodeId}
    (hdfs : st.maps.usedNodesDfs st.graph = .ok visited) : ∃ st', st.updateDeletedNodes = .ok st' ∧
      st'.graph.iter.Sublist st.graph.iter ∧ st'.graph = { st.graph with nodes := st'.graph.nodes } ∧
      st'.graph.nodes.length = st.graph.nodes.length ∧
      (∀ id node, st'.graph.node? id = some node ↔
        st.graph.node? id = some node ∧ (id ∈ visited ∨ node.isDummy = true)) ∧
      IsIndex st'.maps.value2used (inputPairs st'.graph) ∧
      ∀ v x, st'.maps.value2defined v = some x → st.maps.value2defined v = some x := by
  have hnodup : ((st.graph.iter.filter (·.1 ∉ visited)).map Prod.fst).Nodup :=
    (List.filter_sublist.map Prod.fst).nodup (iter_nodup st.graph)
  have hlive : ∀ x ∈ st.graph.iter.filter (·.1 ∉ visited), st.graph.node? x.1 = some x.2 :=
    fun x hx => mem_iter.mp (List.mem_filter.mp hx).1
  obtain ⟨st₁, hst₁, hsub, hgraph, hlength⟩ := deleteNodes_ok _ st hnodup hlive h.used
  obtain ⟨hindex, hdefined, hnode?, -⟩ := deleteNodes_spec _ st hnodup hlive h.used hst₁
  refine ⟨st₁.dropDefinitions visited, ?_, hsub, hgraph, hlength, fun id node => ?_, hindex, fun v x hx => ?_⟩
  · unfold updateDeletedNodes
    rw [hdfs]
    show Except.map _ _ = _
    rw [hst₁]
    rfl
  · show st₁.graph.node? id = some node ↔ _
    rw [hnode?]
    constructor
    · intro hnode
      split at hnode
      · cases hnode
      · rename_i hstay
        rw [deletes_iff hnode, not_and_or, not_not, Bool.not_eq_false] at hstay
        exact ⟨hnode, hstay⟩
    · rintro ⟨hnode, hstay⟩
      rw [if_neg, hnode]
      rw [deletes_iff hnode, not_and_or, not_not, Bool.not_eq_false]
      exact hstay
  · change List.foldl _ st₁.maps.value2defined _ v = some x at hx
    rw [dropAll, hdefined] at hx
    split at hx
    · cases hx
    · exact hx

theorem exists_nodes {g : Graph} {l : List NodeId} (h : ∀ id ∈ l, (g.node? id).isSome) :
    ∃ nodes : List Node, (l.mapM fun id => orPanic (g.node? id)) = .ok nodes ∧ l.map g.node? = nodes.map some := by
  induction l with
  | nil => exact ⟨[], rfl, rfl⟩
  | cons id l ih =>
      obtain ⟨node, hnode⟩ := Option.isSome_iff_exists.mp (h id List.mem_cons_self)
      obtain ⟨nodes, hnodes, hmap⟩ := ih fun id' hid' => h id' (List.mem_cons_of_mem id hid')
      refine ⟨node :: nodes, ?_, by rw [List.map_cons, List.map_cons, hnode, hmap]⟩
      rw [List.mapM_cons, hnode, hnodes]
      rfl

theorem isDummy_of_listed {g : Graph} (h : Dummies g) (hid : id ∈ g.inputs ∨ id ∈ g.outputs) :
    ∃ node, g.node? id = some node ∧ node.isDummy = true := by
  rcases hid with hid | hid
  · obtain ⟨node, v, hnode, hop, -⟩ := h.inputs id hid
    exact ⟨node, hnode, isDummy_of_op (hop.imp_right .inl)⟩
  · obtain ⟨node, v, hnode, hop, -⟩ := h.outputs id hid
    exact ⟨node, hnode, isDummy_of_op (.inr (.inr hop))⟩

/-- What `delete_nodes` puts together. -/
theorem deleteNodes_eq {g : Graph} {inputs outputs : List Node}
    (hinputs : (g.inputs.mapM fun id => orPanic (g.node? id)) = .ok inputs)
    (houtputs : (g.outputs.mapM fun id => orPanic (g.node? id)) = .ok outputs) (kept : List (NodeId × Node))
    (hkept : kept = g.iter.filter fun x => !x.2.markAsDeleted && !x.2.isDummy) : g.deleteNodes = .ok
      { g with
        nodes := kept.map Prod.snd ++ inputs ++ outputs
        inputs := List.range' kept.length inputs.length
        outputs := List.range' (kept.length + inputs.length) outputs.length } := by
  have hany : ¬(g.iter.any fun x => x.2.markAsDeleted && x.2.isDummy) = true := by
    rw [List.any_eq_true]
    rintro ⟨x, hx, hcond⟩
    have hlive := (node?_eq_some.mp (mem_iter.mp hx)).2
    rw [hlive] at hcond
    cases hcond
  unfold Graph.deleteNodes
  rw [if_neg hany, hinputs, houtputs, hkept]
  simp [Except.bind, Except.map]

/-- In a ready state the removal keeps what it should. -/
theorem exact_of_ready (h : Settled st) (hready : Ready st) : Exact st := by
  obtain ⟨visited, hdfs, hvisited⟩ := exists_visited h hready
  obtain ⟨st', hst', hsub, hgraph, -, hnode?, -⟩ := updateDeletedNodes_ok h hdfs
  have hins : st'.graph.inputs = st.graph.inputs := (congrArg Graph.inputs hgraph :)
  have houts : st'.graph.outputs = st.graph.outputs := (congrArg Graph.outputs hgraph :)
  -- the dummies stay
  have hstays {id : NodeId} (hid : id ∈ st.graph.inputs ∨ id ∈ st.graph.outputs) :
      st'.graph.node? id = st.graph.node? id := by
    obtain ⟨node, hnode, hdummy⟩ := isDummy_of_listed h.formed.dummies hid
    rw [hnode]
    exact (hnode? id node).mpr ⟨hnode, .inr hdummy⟩
  have hsome {id : NodeId} (hid : id ∈ st.graph.inputs ∨ id ∈ st.graph.outputs) : (st'.graph.node? id).isSome := by
    obtain ⟨node, hnode, -⟩ := isDummy_of_listed h.formed.dummies hid
    rw [hstays hid, hnode]
    rfl
  obtain ⟨inputs, hinputs, hinputNodes⟩ := exists_nodes fun id (hid : id ∈ st'.graph.inputs) =>
    hsome (.inl (hins ▸ hid))
  obtain ⟨outputs, houtputs, houtputNodes⟩ := exists_nodes fun id (hid : id ∈ st'.graph.outputs) =>
    hsome (.inr (houts ▸ hid))
  let kept := st'.graph.iter.filter fun x => !x.2.markAsDeleted && !x.2.isDummy
  have hlive : ∀ x ∈ st'.graph.iter, x.2.markAsDeleted = false := fun x hx => (node?_eq_some.mp (mem_iter.mp hx)).2
  have hkept (x : NodeId × Node) :
      x ∈ kept ↔ x ∈ st.graph.iter ∧ x.2.isDummy = false ∧ Needed st.graph x.1 := by
    rw [List.mem_filter, mem_iter, mem_iter, hnode?, hvisited]
    constructor
    · rintro ⟨⟨hnode, hstay⟩, hcond⟩
      have hdummy : x.2.isDummy = false := by simpa using (Bool.and_eq_true_iff.mp hcond).2
      rw [hdummy] at hstay
      exact ⟨hnode, hdummy, hstay.resolve_right nofun⟩
    · rintro ⟨hnode, hdummy, hneeded⟩
      refine ⟨⟨hnode, .inl hneeded⟩, ?_⟩
      rw [(node?_eq_some.mp hnode).2, hdummy]
      rfl
  have hinputs' : st.graph.inputs.map st.graph.node? = inputs.map some := by
    rw [← hinputNodes, hins]
    exact List.map_congr_left fun id hid => (hstays (.inl hid)).symm
  have houtputs' : st.graph.outputs.map st.graph.node? = outputs.map some := by
    rw [← houtputNodes, houts]
    exact List.map_congr_left fun id hid => (hstays (.inr hid)).symm
  let g' : Graph :=
    { st.graph with
      nodes := kept.map Prod.snd ++ inputs ++ outputs
      inputs := List.range' kept.length inputs.length
      outputs := List.range' (kept.length + inputs.length) outputs.length }
  have hdelete : st'.graph.deleteNodes = .ok g' := by
    rw [deleteNodes_eq hinputs houtputs kept rfl]
    exact congrArg (fun g : Graph => Except.ok { g with
      nodes := kept.map Prod.snd ++ inputs ++ outputs
      inputs := List.range' kept.length inputs.length
      outputs := List.range' (kept.length + inputs.length) outputs.length }) hgraph
  have hlisted {ids : List NodeId} {nodes : List Node} (hmap : ids.map st.graph.node? = nodes.map some) {node : Node} :
      node ∈ nodes ↔ ∃ id ∈ ids, st.graph.node? id = some node := by
    rw [← List.mem_map, hmap, List.mem_map]
    simp
  have hmem {id : NodeId} {node : Node} (hnode : st.graph.node? id = some node) (hneeded : Needed st.graph id) :
      node ∈ g'.nodes := by
    show node ∈ kept.map Prod.snd ++ inputs ++ outputs
    rw [List.mem_append, List.mem_append]
    cases hdummy : node.isDummy with
    | false => exact .inl (.inl (List.mem_map.mpr ⟨(id, node), (hkept _).mpr ⟨mem_iter.mpr hnode, hdummy, hneeded⟩, rfl⟩))
    | true =>
        rcases h.formed.listed id node hnode hdummy with hid | hid
        · exact .inl (.inr ((hlisted hinputs').mpr ⟨id, hid, hnode⟩))
        · exact .inr ((hlisted houtputs').mpr ⟨id, hid, hnode⟩)
  -- a node that a needed node reads from is kept or a dummy
  have hread {id : NodeId} {node : Node} (hneeded : Needed st.graph id) (hnode : st.graph.node? id = some node)
      (v : ValueId) (hv : some v ∈ node.inputs) : g'.hasInitializer v ∨ ∃ node' ∈ g'.nodes, v ∈ node'.outputs := by
    cases hinit : st.graph.hasInitializer v with
    | true => exact .inl hinit
    | false =>
        rcases hready id node v hneeded hnode hv with hsome | ⟨x, hx, hlive⟩
        · exact .inl hsome
        · obtain ⟨node', hnode'⟩ := Option.isSome_iff_exists.mp hlive
          have huses := h.uses hnode hv hinit hx hnode'
          refine .inr ⟨node', ?_, List.mem_of_getElem? (h.defined v x node' hx hnode')⟩
          obtain ⟨o, ho, hpath⟩ := hneeded
          exact hmem hnode' ⟨o, ho, hpath.tail huses⟩
  refine ⟨st', g', kept, inputs, outputs, hst', hdelete, List.Sublist.trans List.filter_sublist hsub, hkept, hinputs',
    houtputs', rfl, fun node hnode v hv => ?_⟩
  rcases List.mem_append.mp hnode with hnode | hout
  · rcases List.mem_append.mp hnode with hnode | hin
    · obtain ⟨x, hx, rfl⟩ := List.mem_map.mp hnode
      obtain ⟨hiter, -, hneeded⟩ := (hkept x).mp hx
      exact hread hneeded (mem_iter.mp hiter) v hv
    · -- an input node reads nothing
      obtain ⟨id, hid, hnode⟩ := (hlisted hinputs').mp hin
      rw [h.formed.sources id hid node hnode] at hv
      cases hv
  · obtain ⟨id, hid, hnode⟩ := (hlisted houtputs').mp hout
    exact hread ⟨id, hid, .refl⟩ hnode v hv

/-- The removal is exact in the ready states. -/
theorem exact_iff (h : Settled st) : Exact st ↔ Ready st := by
  constructor
  · rintro ⟨st', -, -, -, -, hst', -⟩
    unfold updateDeletedNodes at hst'
    obtain ⟨visited, hdfs, -⟩ := bind_eq_ok.mp hst'
    exact (search_spec h hdfs).1
  · exact exact_of_ready h

end Deletion

/-! ### Runs -/

/-- The nodes that are left keep what they define and whether they are dummies, and the graph inputs still read
nothing. -/
structure Touched (g g' : Graph) : Prop where
  length : g'.nodes.length = g.nodes.length
  inputs : g'.inputs = g.inputs
  outputs : g'.outputs = g.outputs
  back : ∀ id node', g'.node? id = some node' → ∃ node, g.node? id = some node ∧ node'.outputs = node.outputs ∧
    node'.isDummy = node.isDummy ∧ (id ∈ g.inputs → node.inputs = [] → node'.inputs = [])

section Runs

variable {g g' : Graph} {st st' : GraphState} {id : NodeId} {node node' : Node} {old new : ValueId}

theorem Touched.of_nodes (hnodes : g'.nodes = g.nodes) (hin : g'.inputs = g.inputs) (hout : g'.outputs = g.outputs) :
    Touched g g' := by
  refine ⟨congrArg List.length hnodes, hin, hout, fun id node' hnode' => ⟨node', ?_, rfl, rfl, fun _ h => h⟩⟩
  unfold Graph.node? at hnode' ⊢
  rwa [hnodes] at hnode'

theorem Touched.trans {g₁ g₂ g₃ : Graph} (h : Touched g₁ g₂) (h' : Touched g₂ g₃) : Touched g₁ g₃ := by
  refine ⟨h'.length.trans h.length, h'.inputs.trans h.inputs, h'.outputs.trans h.outputs, fun id node₃ h₃ => ?_⟩
  obtain ⟨node₂, h₂, houts, hdummy, hreads⟩ := h'.back id node₃ h₃
  obtain ⟨node₁, h₁, houts', hdummy', hreads'⟩ := h.back id node₂ h₂
  exact ⟨node₁, h₁, houts.trans houts', hdummy.trans hdummy',
    fun hid hnil => hreads (h.inputs ▸ hid) (hreads' hid hnil)⟩

theorem Touched.setNode (hnode : g.node? id = some node) (houts : node'.outputs = node.outputs)
    (hdummy : node'.isDummy = node.isDummy) (hreads : id ∈ g.inputs → node.inputs = [] → node'.inputs = []) :
    Touched g (g.setNode id node') := by
  refine ⟨List.length_set .., rfl, rfl, fun j n hn => ?_⟩
  rw [node?_setNode hnode] at hn
  split at hn
  · rename_i hj
    rw [hj]
    split at hn
    · cases hn
    · obtain rfl := Option.some.inj hn
      exact ⟨node, hnode, houts, hdummy, hreads⟩
  · exact ⟨n, hn, rfl, rfl, fun _ h => h⟩

theorem Settled.touched (h : Settled st) (ht : Touched st.graph st'.graph)
    (hused : IsIndex st'.maps.value2used (inputPairs st'.graph)) (hdummies : Dummies st'.graph)
    (hdefined : ∀ v x, st'.maps.value2defined v = some x → st.maps.value2defined v = some x) : Settled st' where
  used := hused
  defined_lt v x hx := ht.length ▸ h.defined_lt v x (hdefined v x hx)
  defined v x node hx hnode := by
    obtain ⟨n, hn, houts, -⟩ := ht.back x.1 node hnode
    rw [houts]
    exact h.defined v x n (hdefined v x hx) hn
  formed :=
    { dummies := hdummies
      listed := fun id node hnode hdummy => by
        obtain ⟨n, hn, -, hd, -⟩ := ht.back id node hnode
        rw [ht.inputs, ht.outputs]
        exact h.formed.listed id n hn (hd ▸ hdummy)
      sources := fun id hid node hnode => by
        rw [ht.inputs] at hid
        obtain ⟨n, hn, -, -, hreads⟩ := ht.back id node hnode
        exact hreads hid (h.formed.sources id hid n hn)
      defines := fun a b node node' v hnode hnode' hv hv' => by
        obtain ⟨n, hn, houts, -⟩ := ht.back a node hnode
        obtain ⟨n', hn', houts', -⟩ := ht.back b node' hnode'
        exact h.formed.defines a b n n' v hn hn' (houts ▸ hv) (houts' ▸ hv') }

theorem settled_new (hg : Formed g) : Settled (GraphState.new g) := by
  obtain ⟨hindex, hlast⟩ := calcValue2xx_spec g
  have hentry {v : ValueId} {x : Place} (hx : (calcValue2xx g).value2defined v = some x) :
      ∃ node, g.node? x.1 = some node ∧ node.outputs[x.2]? = some v := by
    rw [hlast] at hx
    exact mem_outputPairs.mp (lastOf_mem hx)
  refine ⟨hindex, fun v x hx => ?_, fun v x node hx hnode => ?_, hg⟩
  · obtain ⟨node, hnode, -⟩ := hentry hx
    exact (List.getElem?_eq_some_iff.mp (node?_eq_some.mp hnode).1).1
  · obtain ⟨n, hn, hget⟩ := hentry hx
    obtain rfl := Option.some.inj (hnode.symm.trans hn)
    exact hget

theorem settled_registerNewNode (h : Settled st) (hnew : node.markAsDeleted = false) (hdummy : node.isDummy = false)
    (hfresh : ∀ v ∈ node.outputs, ∀ id n, st.graph.node? id = some n → v ∉ n.outputs) :
    Settled (st.registerNewNode node) := by
  have hback {j : NodeId} {n : Node} (hn : (st.registerNewNode node).graph.node? j = some n) :
      j = st.graph.nodes.length ∧ n = node ∨ j < st.graph.nodes.length ∧ st.graph.node? j = some n := by
    rw [node?_registerNewNode st hnew] at hn
    split at hn
    · rename_i hj
      exact .inl ⟨hj, (Option.some.inj hn).symm⟩
    · exact .inr ⟨(List.getElem?_eq_some_iff.mp (node?_eq_some.mp hn).1).1, hn⟩
  have hlength : (st.registerNewNode node).graph.nodes.length = st.graph.nodes.length + 1 := List.length_append ..
  -- an entry is new or an old one
  have hentry {v : ValueId} {x : Place} (hx : (st.registerNewNode node).maps.value2defined v = some x) :
      x.1 = st.graph.nodes.length ∧ node.outputs[x.2]? = some v ∨ st.maps.value2defined v = some x := by
    change (outputPlaces st.graph.nodes.length node).foldl
      (fun (m : ValueId → Option Place) (e : ValueId × Place) => Function.update m e.1 (some e.2))
      st.maps.value2defined v = some x at hx
    exact (updates_mem hx).imp_left fun hmem => mem_outputPlaces.mp hmem
  have hconsistent := registerNewNode_consistent (consistent_iff.mpr
    (show IsIndex ({ st with maps := { st.maps with value2defined := lastOf (outputPairs st.graph) } } :
      GraphState).maps.value2used _ ∧ _ ∧ _ from ⟨h.used, rfl, h.formed.dummies⟩)) hnew
  obtain ⟨hused, -, hdummies⟩ := consistent_iff.mp hconsistent
  refine ⟨hused, fun v x hx => ?_, fun v x n hx hn => ?_, hdummies, fun id n hn hd => ?_, fun id hid n hn => ?_,
    fun a b n n' v hn hn' hv hv' => ?_⟩
  · rw [hlength]
    rcases hentry hx with ⟨hid, -⟩ | hold
    · rw [hid]
      exact Nat.lt_succ_self _
    · exact Nat.lt_succ_of_lt (h.defined_lt v x hold)
  · rcases hentry hx with ⟨hid, hget⟩ | hold
    · rcases hback hn with ⟨-, rfl⟩ | ⟨hlt, -⟩
      · exact hget
      · exact absurd hid (Nat.ne_of_lt hlt)
    · rcases hback hn with ⟨hid, -⟩ | ⟨-, hn⟩
      · exact absurd hid (Nat.ne_of_lt (h.defined_lt v x hold))
      · exact h.defined v x n hold hn
  · rcases hback hn with ⟨-, rfl⟩ | ⟨-, hn⟩
    · rw [hdummy] at hd
      cases hd
    · exact h.formed.listed id n hn hd
  · rcases hback hn with ⟨rfl, rfl⟩ | ⟨-, hn⟩
    · obtain ⟨m, v, hm, -⟩ := h.formed.dummies.inputs _ hid
      exact absurd (List.getElem?_eq_some_iff.mp (node?_eq_some.mp hm).1).1 (Nat.lt_irrefl _)
    · exact h.formed.sources id hid n hn
  · rcases hback hn with ⟨ha, hnode⟩ | ⟨-, hold⟩ <;> rcases hback hn' with ⟨hb, hnode'⟩ | ⟨-, hold'⟩
    · exact ha.trans hb.symm
    · exact absurd hv' (hfresh v (hnode ▸ hv) b n' hold')
    · exact absurd hv (hfresh v (hnode' ▸ hv') a n hold)
    · exact h.formed.defines a b n n' v hold hold' hv hv'

theorem settled_updateDeletedNodes (h : Settled st) (hok : st.updateDeletedNodes = .ok st') : Settled st' := by
  obtain ⟨visited, hdfs, -⟩ := bind_eq_ok.mp (show Except.bind _ _ = _ from hok)
  obtain ⟨st₁, hst₁, -, hgraph, hlength, hnode?, hused, hdefined⟩ := updateDeletedNodes_ok h hdfs
  obtain rfl := Except.ok.inj (hst₁.symm.trans hok)
  have hins : st₁.graph.inputs = st.graph.inputs := (congrArg Graph.inputs hgraph :)
  have houts : st₁.graph.outputs = st.graph.outputs := (congrArg Graph.outputs hgraph :)
  have hstays {id : NodeId} {node : Node} (hnode : st.graph.node? id = some node) (hdummy : node.isDummy = true) :
      st₁.graph.node? id = some node := (hnode? id node).mpr ⟨hnode, .inr hdummy⟩
  refine h.touched ⟨hlength, hins, houts, fun id node hnode => ?_⟩ hused ⟨?_, ?_⟩ hdefined
  · exact ⟨node, ((hnode? id node).mp hnode).1, rfl, rfl, fun _ h => h⟩
  · rw [hins]
    intro id hid
    obtain ⟨node, v, hnode, hop, hval⟩ := h.formed.dummies.inputs id hid
    exact ⟨node, v, hstays hnode (isDummy_of_op (hop.imp_right .inl)), hop, hval⟩
  · rw [houts]
    intro id hid
    obtain ⟨node, v, hnode, hop, hval⟩ := h.formed.dummies.outputs id hid
    exact ⟨node, v, hstays hnode (isDummy_of_op (.inr (.inr hop))), hop, hval⟩

theorem replaceInputs_touched {l : List Place} : ∀ {g g' : Graph}, l.foldlM (replaceAt old new) g = .ok g' →
    Touched g g' := by
  induction l with
  | nil =>
      intro g g' h
      obtain rfl := Except.ok.inj h
      exact .of_nodes rfl rfl rfl
  | cons x l ih =>
      intro g g' h
      rw [List.foldlM_cons] at h
      obtain ⟨g₁, h₁, h⟩ := bind_eq_ok.mp h
      obtain ⟨node, op, hnode, hlt, hop, rfl⟩ := replaceAt_eq_ok h₁
      have hstep : Touched g (g.setNode x.1 { node with op, inputs := node.inputs.set x.2 (some new) }) := by
        refine Touched.setNode hnode rfl ?_ fun _ hnil => ?_
        · rcases hop with ⟨hold, rfl⟩ | ⟨-, rfl⟩
          · unfold Node.isDummy
            rw [hold]
            rfl
          · rfl
        · rw [hnil] at hlt
          cases hlt
      exact hstep.trans (ih h)

theorem replaceInputValue_touched {pred : NodeId → Node → Bool}
    (hok : st.replaceInputValueIfWithoutTypecheck old new pred = .ok st') : Touched st.graph st'.graph := by
  unfold GraphState.replaceInputValueIfWithoutTypecheck at hok
  obtain ⟨changed, -, hok⟩ := bind_eq_ok.mp hok
  split at hok
  · obtain rfl := Except.ok.inj hok
    exact .of_nodes rfl rfl rfl
  · obtain ⟨graph, hgraph, rfl⟩ := map_eq_ok.mp hok
    exact replaceInputs_touched hgraph

/-- What the passes do: new nodes are no dummies and define new values, and the graph inputs and outputs stay what
they are. -/
def Proper (st : GraphState) : GraphOp → Prop
  | .registerNewNode node _ => node.isDummy = false ∧
      ∀ v ∈ node.outputs, ∀ id n, st.graph.node? id = some n → v ∉ n.outputs
  | .replaceOp id op => ∀ node, st.graph.node? id = some node → ({ node with op } : Node).isDummy = node.isDummy ∧
      (id ∈ st.graph.inputs → ∃ v, (op = .input v ∨ op = .sessionState v) ∧ node.outputs = [v]) ∧
      (id ∈ st.graph.outputs → ∃ v, op = .output v ∧ node.inputs = [some v])
  | .setNodeInput id index value => id ∉ st.graph.inputs ∧ (id ∈ st.graph.outputs →
      index = 0 ∧ (st.graph.node? id).map Node.op = some (.output value))
  | .dropNodeInput id _ => id ∉ st.graph.outputs
  | _ => True

/-- The state with the definitions that the nodes give. -/
def withDefined (st : GraphState) (m : ValueId → Option Place) : GraphState :=
  { st with maps := { st.maps with value2defined := m } }

theorem Settled.consistent (h : Settled st) : Consistent (withDefined st (lastOf (outputPairs st.graph))) :=
  consistent_iff.mpr ⟨h.used, rfl, h.formed.dummies⟩

theorem replaceInputValue_withDefined (m : ValueId → Option Place) (pred : NodeId → Node → Bool) :
    (withDefined st m).replaceInputValueIfWithoutTypecheck old new pred =
      (st.replaceInputValueIfWithoutTypecheck old new pred).map fun st => withDefined st m := by
  unfold GraphState.replaceInputValueIfWithoutTypecheck
  show Except.bind (st.changed old pred) _ = _
  cases st.changed old pred with
  | error e => rfl
  | ok changed =>
      simp only [Except.bind]
      split
      · rfl
      · show Except.map _ (changed.foldlM (replaceAt old new) st.graph) = _
        cases changed.foldlM (replaceAt old new) st.graph <;> rfl

theorem setNodeInput_withDefined (m : ValueId → Option Place) (index : Nat) (value : ValueId) :
    (withDefined st m).setNodeInput id index value =
      (st.setNodeInput id index value).map fun st => withDefined st m := by
  unfold GraphState.setNodeInput
  show Except.map _ (orPanic (st.graph.node? id)) = _
  cases orPanic (st.graph.node? id) <;> rfl

theorem dropNodeInput_withDefined (m : ValueId → Option Place) (index : Nat) :
    (withDefined st m).dropNodeInput id index = (st.dropNodeInput id index).map fun st => withDefined st m := by
  unfold GraphState.dropNodeInput
  show Except.bind (orPanic (st.graph.node? id)) _ = _
  cases orPanic (st.graph.node? id) with
  | error e => rfl
  | ok node =>
      simp only [Except.bind]
      split
      · rfl
      · rfl
      · rename_i old _
        show Except.map _ (orPanic (remove st.maps.value2used old [(id, index)])) = _
        cases orPanic (remove st.maps.value2used old [(id, index)]) <;> rfl

theorem Settled.of_nodes (h : Settled st) (hnodes : st'.graph.nodes = st.graph.nodes)
    (hin : st'.graph.inputs = st.graph.inputs) (hout : st'.graph.outputs = st.graph.outputs)
    (hmaps : st'.maps = st.maps) : Settled st' := by
  have hconsistent : Consistent (withDefined st' (lastOf (outputPairs st.graph))) :=
    h.consistent.of_nodes hnodes hin hout (by unfold withDefined; rw [hmaps])
  obtain ⟨hused, -, hdummies⟩ := consistent_iff.mp hconsistent
  exact h.touched (.of_nodes hnodes hin hout) hused hdummies fun v x hx => hmaps ▸ hx

/-- An operation that neither reads nor changes the definitions, told by what it does with those that the nodes
give. -/
theorem Settled.of_withDefined (h : Settled st) {f : GraphState → Except Stop GraphState}
    (hf : ∀ m, f (withDefined st m) = (f st).map fun st => withDefined st m) (hok : f st = .ok st')
    (ht : Touched st.graph st'.graph)
    (hc : ∀ st₁, f (withDefined st (lastOf (outputPairs st.graph))) = .ok st₁ → Consistent st₁) : Settled st' := by
  have hghost := hf (lastOf (outputPairs st.graph))
  rw [hok] at hghost
  obtain ⟨hused, -, hdummies⟩ := consistent_iff.mp (hc _ hghost)
  have hself := hf st.maps.value2defined
  rw [show withDefined st st.maps.value2defined = st from rfl, hok] at hself
  have hdefined : st'.maps.value2defined = st.maps.value2defined :=
    (congrArg (fun st : GraphState => st.maps.value2defined) (Except.ok.inj hself)).trans rfl
  exact h.touched ht hused hdummies fun v x hx => hdefined ▸ hx

theorem settled_replaceInputValue (h : Settled st) {pred : NodeId → Node → Bool}
    (hok : st.replaceInputValueIfWithoutTypecheck old new pred = .ok st') : Settled st' :=
  h.of_withDefined (f := fun st => st.replaceInputValueIfWithoutTypecheck old new pred)
    (fun m => replaceInputValue_withDefined m pred) hok (replaceInputValue_touched hok) fun _ h₁ =>
      replaceInputValue_consistent h.consistent h₁

/-- An operation of a pass keeps the state settled. -/
theorem settled_apply (op : GraphOp) (h : Settled st) (hproper : Proper st op) (hok : op.apply st = .ok st') :
    Settled st' := by
  cases op with
  | registerNewValue name ty =>
      obtain rfl := Except.ok.inj hok
      exact h.of_nodes rfl rfl rfl rfl
  | registerNewNode node hnew =>
      obtain rfl := Except.ok.inj hok
      exact settled_registerNewNode h hnew hproper.1 hproper.2
  | registerNewTensor tensor name =>
      obtain rfl := Except.ok.inj hok
      exact h.of_nodes rfl rfl rfl rfl
  | replaceInputValueIf old new pred =>
      obtain ⟨oldTy, -, hok⟩ := orPanic_bind_eq_ok hok
      obtain ⟨newTy, -, hok⟩ := orPanic_bind_eq_ok hok
      split at hok
      · cases hok
      · exact settled_replaceInputValue h hok
  | replaceInputValueIfWithoutTypecheck old new pred => exact settled_replaceInputValue h hok
  | replaceOp id op =>
      obtain ⟨node, hnode, rfl⟩ := orPanic_map_eq_ok (show Except.map _ (orPanic (st.graph.node? id)) = _ from hok)
      obtain ⟨hdummy, hcarries⟩ := hproper node hnode
      refine h.of_withDefined (f := fun st => st.replaceOp id op) (fun m => ?_) hok
        (.setNode hnode rfl hdummy fun _ h => h) fun st₁ h₁ => ?_
      · unfold GraphState.replaceOp
        show Except.map _ (orPanic (st.graph.node? id)) = _
        cases orPanic (st.graph.node? id) <;> rfl
      · refine (replaceOp_consistent h.consistent h₁).mpr fun n hn => ?_
        obtain rfl := Option.some.inj (hnode.symm.trans hn)
        exact hcarries
  | replaceTensorType v ty =>
      obtain ⟨info, -, rfl⟩ := orPanic_map_eq_ok hok
      exact h.of_nodes rfl rfl rfl rfl
  | replaceTensor v tensor =>
      obtain ⟨st₁, hst₁, rfl⟩ := map_eq_ok.mp (show Except.map _ (st.replaceTensorType v tensor.tensorType) = _ from hok)
      obtain ⟨info, -, rfl⟩ := orPanic_map_eq_ok hst₁
      exact h.of_nodes rfl rfl rfl rfl
  | setNodeInput id index value =>
      obtain ⟨node, hnode, hst'⟩ := orPanic_map_eq_ok (show Except.map _ (orPanic (st.graph.node? id)) = _ from hok)
      have ht : Touched st.graph st'.graph := by
        rw [← hst']
        exact .setNode hnode rfl rfl fun hid => absurd hid hproper.1
      exact h.of_withDefined (f := fun st => st.setNodeInput id index value)
        (fun m => setNodeInput_withDefined m index value) hok ht
        fun _ h₁ => (setNodeInput_consistent h.consistent h₁).mpr hproper.2
  | dropNodeInput id index =>
      have ht : Touched st.graph st'.graph := by
        obtain ⟨node, hnode, hbody⟩ := orPanic_bind_eq_ok (show Except.bind (orPanic (st.graph.node? id)) _ = _ from hok)
        split at hbody
        · cases hbody
        · obtain rfl := Except.ok.inj hbody
          exact .of_nodes rfl rfl rfl
        · obtain ⟨used, -, rfl⟩ := orPanic_map_eq_ok hbody
          exact .setNode hnode rfl rfl fun _ hnil => by rw [hnil]; rfl
      exact h.of_withDefined (f := fun st => st.dropNodeInput id index)
        (fun m => dropNodeInput_withDefined m index) hok ht
        fun _ h₁ => (dropNodeInput_consistent h.consistent h₁).mpr hproper
  | updateDeletedNodes => exact settled_updateDeletedNodes h hok

/-- In a run of the passes from a graph of this form, the removal is exact in the ready states. -/
theorem removal_exact_iff (g : Graph) (hg : Formed g) (ops : List GraphOp)
    (hproper : ∀ done op rest, ops = done ++ op :: rest → ∀ st, (GraphState.new g).run done = .ok st →
      Proper st op) (st : GraphState) (hrun : (GraphState.new g).run ops = .ok st) : Exact st ↔ Ready st := by
  suffices h : Settled st from exact_iff h
  -- on the operations, from the end
  induction ops using List.reverseRecOn generalizing st with
  | nil =>
      obtain rfl := Except.ok.inj hrun
      exact settled_new hg
  | append_singleton done op ih =>
      obtain ⟨st₁, hst₁, happly⟩ := run_concat_eq_ok hrun
      have hbefore := ih (fun done' op' rest' heq st' hst' =>
        hproper done' op' (rest' ++ [op]) (by rw [heq, List.append_assoc]; rfl) st' hst') st₁ hst₁
      exact settled_apply op hbefore (hproper done op [] rfl st₁ hst₁) happly

end Runs

/-! ### A graph input that is needed again -/

/-- The graph input 0 is the graph output, and the graph input 1 is not used. -/
def spareInput : Graph where
  nodes :=
    [{ inputs := [], outputs := [0], name := "x", op := .input 0, markAsDeleted := false },
      { inputs := [], outputs := [1], name := "z", op := .input 1, markAsDeleted := false },
      { inputs := [some 0], outputs := [], name := "y", op := .output 0, markAsDeleted := false }]
  inputs := [0, 1]
  outputs := [2]
  values := []
  initializer := fun _ => none
  externalRefs := fun _ => none

theorem spareInput_node {id : NodeId} {node : Node} (h : spareInput.node? id = some node) :
    (id = 0 ∧ node.inputs = [] ∧ node.outputs = [0] ∧ node.op = .input 0) ∨
      (id = 1 ∧ node.inputs = [] ∧ node.outputs = [1] ∧ node.op = .input 1) ∨
      (id = 2 ∧ node.inputs = [some 0] ∧ node.outputs = [] ∧ node.op = .output 0) := by
  match id, h with
  | 0, h =>
      obtain rfl := Option.some.inj h
      exact .inl ⟨rfl, rfl, rfl, rfl⟩
  | 1, h =>
      obtain rfl := Option.some.inj h
      exact .inr (.inl ⟨rfl, rfl, rfl, rfl⟩)
  | 2, h =>
      obtain rfl := Option.some.inj h
      exact .inr (.inr ⟨rfl, rfl, rfl, rfl⟩)
  | _ + 3, h => cases h

theorem spareInput_formed : Formed spareInput where
  dummies :=
    { inputs := fun id hid => by
        rcases List.mem_pair.mp hid with rfl | rfl
        · exact ⟨_, 0, rfl, .inl rfl, rfl⟩
        · exact ⟨_, 1, rfl, .inl rfl, rfl⟩
      outputs := fun id hid => by
        obtain rfl := List.mem_singleton.mp hid
        exact ⟨_, 0, rfl, rfl, rfl⟩ }
  listed id node hnode _ := by
    rcases spareInput_node hnode with ⟨rfl, -⟩ | ⟨rfl, -⟩ | ⟨rfl, -⟩
    · exact .inl (by decide)
    · exact .inl (by decide)
    · exact .inr (by decide)
  sources id hid node hnode := by
    rcases spareInput_node hnode with ⟨-, hnil, -⟩ | ⟨-, hnil, -⟩ | ⟨rfl, -⟩
    · exact hnil
    · exact hnil
    · exact absurd hid (by decide)
  defines a b node node' v hnode hnode' hv hv' := by
    rcases spareInput_node hnode with ⟨rfl, -, houts, -⟩ | ⟨rfl, -, houts, -⟩ | ⟨rfl, -, houts, -⟩ <;>
      rcases spareInput_node hnode' with ⟨rfl, -, houts', -⟩ | ⟨rfl, -, houts', -⟩ | ⟨rfl, -, houts', -⟩ <;>
      rw [houts] at hv <;> rw [houts'] at hv' <;> simp_all

theorem spareInput_removed : ∃ st, (GraphState.new spareInput).run [.updateDeletedNodes] = .ok st ∧ Exact st := by
  obtain ⟨st, hst, hgraph, hdefined⟩ : ∃ st, (GraphState.new spareInput).run [.updateDeletedNodes] = .ok st ∧
      st.graph = spareInput ∧ st.maps.value2defined 0 = some (0, 0) := ⟨_, rfl, rfl, rfl⟩
  have hiff := removal_exact_iff spareInput spareInput_formed [.updateDeletedNodes] (fun done op rest hops _ _ => by
    obtain rfl : op = .updateDeletedNodes := by
      have hmem : op ∈ [GraphOp.updateDeletedNodes] := hops ▸ List.mem_append_right done List.mem_cons_self
      exact List.mem_singleton.mp hmem
    trivial) st hst
  refine ⟨st, hst, hiff.mpr fun id node v _ hnode hv => .inr ?_⟩
  rw [hgraph] at hnode
  rcases spareInput_node hnode with ⟨-, hnil, -⟩ | ⟨-, hnil, -⟩ | ⟨-, hin, -⟩
  · rw [hnil] at hv
    cases hv
  · rw [hnil] at hv
    cases hv
  · rw [hin] at hv
    obtain rfl : v = 0 := by simpa using hv
    exact ⟨(0, 0), hdefined, by rw [hgraph]; rfl⟩

/-- After a removal the graph output is rewired to the graph input that was not used: the next removal panics. -/
theorem spareInput_panics : Formed spareInput ∧
    (∀ id node v, spareInput.node? id = some node → some v ∈ node.inputs →
      ∃ id' node', spareInput.node? id' = some node' ∧ v ∈ node'.outputs) ∧
    ∃ st, (GraphState.new spareInput).run
        [.updateDeletedNodes, .replaceInputValueIfWithoutTypecheck 0 1 fun _ _ => true] = .ok st ∧
      (∃ node, st.graph.node? 1 = some node ∧ node.outputs = [1]) ∧
      st.updateDeletedNodes = .error .panic ∧ ¬Exact st := by
  refine ⟨spareInput_formed, fun id node v hnode hv => ?_, _, rfl, ⟨_, rfl, rfl⟩, rfl, ?_⟩
  · rcases spareInput_node hnode with ⟨-, hnil, -⟩ | ⟨-, hnil, -⟩ | ⟨-, hin, -⟩
    · rw [hnil] at hv
      cases hv
    · rw [hnil] at hv
      cases hv
    · rw [hin] at hv
      obtain rfl : v = 0 := by simpa using hv
      exact ⟨0, _, rfl, List.mem_cons_self⟩
  · rintro ⟨st', -, -, -, -, hst', -⟩
    cases hst'

end NnEngine
