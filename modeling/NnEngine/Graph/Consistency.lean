import NnEngine.Graph.Modify

/-!
# The maps of a graph

The maps of `SimpleGraphOp` against the maps that `calc_value2xx` computes from the nodes.
`maps_consistent_iff` says along which runs of operations they stay equal: `update_deleted_nodes` forgets
definitions of nodes that stay and keeps definitions of nodes that go, since its second loop does not see
the nodes that the first one has deleted.
-/

namespace NnEngine

open DepthFirst InverseIndex SimpleGraphOp GraphState

variable {g g' : Graph} {st st' : GraphState} {id : NodeId} {node node' : Node} {v old new : ValueId}

/-! ### What the maps hold -/

/-- The present inputs of the nodes that are not deleted. -/
def inputPairs (g : Graph) : Set (ValueId × Place) :=
  { p | ∃ node, g.node? p.2.1 = some node ∧ node.inputs[p.2.2]? = some (some p.1) }

/-- The outputs of the nodes that are not deleted, in their order. -/
def outputPairs (g : Graph) : List (ValueId × Place) := g.iter.flatMap fun x => outputPlaces x.1 x.2

theorem node?_eq_some : g.node? id = some node ↔
    g.nodes[id]? = some node ∧ node.markAsDeleted = false := by
  rw [Graph.node?, Option.filter_eq_some_iff]
  simp

theorem mem_iter {x : NodeId × Node} : x ∈ g.iter ↔ g.node? x.1 = some x.2 := by
  rw [node?_eq_some, Graph.iter, List.mem_filter]
  constructor
  · rintro ⟨hx, hlive⟩
    obtain ⟨y, hy, rfl⟩ := List.mem_map.mp hx
    exact ⟨List.mem_zipIdx_iff_getElem?.mp hy, by simpa using hlive⟩
  · rintro ⟨hx, hlive⟩
    exact ⟨List.mem_map.mpr ⟨(x.2, x.1), List.mem_zipIdx_iff_getElem?.mpr hx, rfl⟩, by simp [hlive]⟩

theorem mem_inputPlaces {p : ValueId × Place} :
    p ∈ inputPlaces id node ↔ p.2.1 = id ∧ node.inputs[p.2.2]? = some (some p.1) := by
  obtain ⟨v, i, j⟩ := p
  rw [inputPlaces, List.mem_filterMap]
  constructor
  · rintro ⟨x, hx, heq⟩
    obtain ⟨u, hu, hp⟩ := Option.map_eq_some_iff.mp heq
    cases hp
    have hget := List.mem_zipIdx_iff_getElem?.mp hx
    rw [hu] at hget
    exact ⟨rfl, hget⟩
  · rintro ⟨hi, hget⟩
    refine ⟨(some v, j), List.mem_zipIdx_iff_getElem?.mpr hget, ?_⟩
    rw [← hi]
    rfl

theorem mem_outputPlaces {p : ValueId × Place} :
    p ∈ outputPlaces id node ↔ p.2.1 = id ∧ node.outputs[p.2.2]? = some p.1 := by
  obtain ⟨v, i, j⟩ := p
  rw [outputPlaces, List.mem_map]
  constructor
  · rintro ⟨x, hx, heq⟩
    cases heq
    exact ⟨rfl, List.mem_zipIdx_iff_getElem?.mp hx⟩
  · rintro ⟨hi, hget⟩
    refine ⟨(v, j), List.mem_zipIdx_iff_getElem?.mpr hget, ?_⟩
    rw [← hi]

theorem mem_outputPairs {p : ValueId × Place} : p ∈ outputPairs g ↔
    ∃ node, g.node? p.2.1 = some node ∧ node.outputs[p.2.2]? = some p.1 := by
  rw [outputPairs, List.mem_flatMap]
  constructor
  · rintro ⟨x, hx, hp⟩
    obtain ⟨hid, hget⟩ := mem_outputPlaces.mp hp
    rw [hid]
    exact ⟨x.2, mem_iter.mp hx, hget⟩
  · rintro ⟨node, hnode, hget⟩
    exact ⟨(p.2.1, node), mem_iter.mpr hnode, mem_outputPlaces.mpr ⟨rfl, hget⟩⟩

theorem insertAll_isIndex (l : List (ValueId × Place)) :
    ∀ {m : Index ValueId Place} {pairs : Set (ValueId × Place)}, IsIndex m pairs →
    IsIndex (l.foldl (fun m x => insert m x.1 x.2) m) (pairs ∪ { p | p ∈ l }) := by
  induction l with
  | nil =>
      intro m pairs h
      simpa using h
  | cons x l ih =>
      intro m pairs h
      have hl := ih (h.insert x.1 x.2)
      have hpairs : pairs ∪ {(x.1, x.2)} ∪ { p | p ∈ l } = pairs ∪ { p | p ∈ x :: l } := by
        ext p
        simp [or_assoc, or_left_comm]
      rw [hpairs] at hl
      exact hl

/-- `calc_value2xx` indexes the inputs and the outputs of the nodes. -/
theorem calcValue2xx_spec (g : Graph) : IsIndex (calcValue2xx g).value2used (inputPairs g) ∧
    (calcValue2xx g).value2defined = lastOf (outputPairs g) := by
  have hfold : ∀ (l : List (NodeId × Node)) (maps : SimpleGraphOp) (pairs : Set (ValueId × Place))
      (entries : List (ValueId × Place)), IsIndex maps.value2used pairs →
      maps.value2defined = lastOf entries →
      IsIndex (l.foldl (fun maps x => maps.addNode x.1 x.2) maps).value2used
        (pairs ∪ { p | ∃ x ∈ l, p ∈ inputPlaces x.1 x.2 }) ∧
      (l.foldl (fun maps x => maps.addNode x.1 x.2) maps).value2defined =
        lastOf (entries ++ l.flatMap fun x => outputPlaces x.1 x.2) := by
    intro l
    induction l with
    | nil =>
        intro maps pairs entries hused hdefined
        simpa using ⟨hused, hdefined⟩
    | cons x l ih =>
        intro maps pairs entries hused hdefined
        obtain ⟨hused', hdefined'⟩ := ih (maps.addNode x.1 x.2) _
          (entries ++ outputPlaces x.1 x.2) (insertAll_isIndex (inputPlaces x.1 x.2) hused) (by
            rw [lastOf, List.foldl_append, ← lastOf, ← hdefined]
            rfl)
        have hpairs : pairs ∪ { p | p ∈ inputPlaces x.1 x.2 } ∪
            { p | ∃ x ∈ l, p ∈ inputPlaces x.1 x.2 } =
            pairs ∪ { p | ∃ y ∈ x :: l, p ∈ inputPlaces y.1 y.2 } := by
          ext p
          simp [or_assoc]
        rw [hpairs] at hused'
        rw [List.append_assoc] at hdefined'
        exact ⟨hused', hdefined'⟩
  obtain ⟨hused, hdefined⟩ := hfold g.iter
    { value2defined := fun _ => none, value2used := fun _ => none } ∅ [] isIndex_empty rfl
  refine ⟨?_, hdefined⟩
  have hpairs : ∅ ∪ { p | ∃ x ∈ g.iter, p ∈ inputPlaces x.1 x.2 } = inputPairs g := by
    ext p
    rw [Set.empty_union]
    constructor
    · rintro ⟨x, hx, hp⟩
      obtain ⟨hid, hget⟩ := mem_inputPlaces.mp hp
      exact ⟨x.2, by rw [hid]; exact mem_iter.mp hx, hget⟩
    · rintro ⟨node, hnode, hget⟩
      exact ⟨(p.2.1, node), mem_iter.mpr hnode, mem_inputPlaces.mpr ⟨rfl, hget⟩⟩
  rw [hpairs] at hused
  exact hused

/-- The graph inputs and outputs carry their values: an input node defines its value, and an output
node has it as its input. -/
structure Dummies (g : Graph) : Prop where
  inputs : ∀ id ∈ g.inputs, ∃ node v, g.node? id = some node ∧
    (node.op = .input v ∨ node.op = .sessionState v) ∧ node.outputs = [v]
  outputs : ∀ id ∈ g.outputs, ∃ node v, g.node? id = some node ∧ node.op = .output v ∧
    node.inputs = [some v]

/-- The maps are those of `calc_value2xx`, no map mentions a deleted node, and the graph inputs and
outputs carry their values. -/
structure Consistent (st : GraphState) : Prop where
  used : Same st.maps.value2used (calcValue2xx st.graph).value2used
  defined : st.maps.value2defined = (calcValue2xx st.graph).value2defined
  usedLive : ∀ v, ∀ x ∈ places st.maps.value2used v, (st.graph.node? x.1).isSome
  definedLive : ∀ v x, st.maps.value2defined v = some x → (st.graph.node? x.1).isSome
  dummies : Dummies st.graph

theorem consistent_iff : Consistent st ↔ IsIndex st.maps.value2used (inputPairs st.graph) ∧
    st.maps.value2defined = lastOf (outputPairs st.graph) ∧ Dummies st.graph := by
  obtain ⟨hused, hdefined⟩ := calcValue2xx_spec st.graph
  constructor
  · intro h
    exact ⟨hused.of_same h.used, h.defined.trans hdefined, h.dummies⟩
  · rintro ⟨hindex, hlast, hdummies⟩
    refine ⟨hindex.same hused, hlast.trans hdefined.symm, ?_, ?_, hdummies⟩
    · intro v x hx
      obtain ⟨node, hnode, -⟩ := (hindex.mem v x).mp hx
      exact Option.isSome_iff_exists.mpr ⟨node, hnode⟩
    · intro v x hx
      rw [hlast] at hx
      obtain ⟨node, hnode, -⟩ := mem_outputPairs.mp (lastOf_mem hx)
      exact Option.isSome_iff_exists.mpr ⟨node, hnode⟩

/-! ### Changing a node -/

theorem node?_setNode (h : g.node? id = some node) (j : NodeId) : (g.setNode id node').node? j =
    if j = id then (if node'.markAsDeleted then none else some node') else g.node? j := by
  have hlt : id < g.nodes.length := (List.getElem?_eq_some_iff.mp (node?_eq_some.mp h).1).1
  rw [Graph.node?, Graph.setNode, List.getElem?_set]
  by_cases hj : j = id
  · subst hj
    rw [if_pos rfl, if_pos rfl, if_pos hlt]
    cases hdel : node'.markAsDeleted <;> simp [hdel]
  · rw [if_neg (Ne.symm hj), if_neg hj, Graph.node?]

theorem iter_eq_append (h : g.node? id = some node) : ∃ before after,
    g.iter = before ++ (id, node) :: after ∧ (∀ x ∈ before ++ after, x.1 ≠ id) ∧
      ∀ node', (g.setNode id node').iter =
        before ++ (if node'.markAsDeleted then [] else [(id, node')]) ++ after := by
  obtain ⟨hget, hlive⟩ := node?_eq_some.mp h
  obtain ⟨hlt, hnode⟩ := List.getElem?_eq_some_iff.mp hget
  let keep := fun x : NodeId × Node => !x.2.markAsDeleted
  refine ⟨((g.nodes.take id).zipIdx.map Prod.swap).filter keep,
    (((g.nodes.drop (id + 1)).zipIdx (id + 1)).map Prod.swap).filter keep, ?_, ?_, ?_⟩
  · have hsplit : g.nodes = g.nodes.take id ++ node :: g.nodes.drop (id + 1) := by
      rw [← hnode, List.getElem_cons_drop, List.take_append_drop]
    conv_lhs => rw [Graph.iter, hsplit]
    simp [List.zipIdx_append, hlive, keep, Nat.min_eq_left hlt.le]
  · intro x hx
    rcases List.mem_append.mp hx with hx | hx
    · obtain ⟨y, hy, rfl⟩ := List.mem_map.mp (List.mem_filter.mp hx).1
      have hylt := List.snd_lt_of_mem_zipIdx hy
      rw [List.length_take] at hylt
      show y.2 ≠ id
      omega
    · obtain ⟨y, hy, rfl⟩ := List.mem_map.mp (List.mem_filter.mp hx).1
      have hyle := List.le_snd_of_mem_zipIdx hy
      show y.2 ≠ id
      omega
  · intro node'
    have hset : g.nodes.set id node' = g.nodes.take id ++ node' :: g.nodes.drop (id + 1) := by
      rw [List.set_eq_take_append_cons_drop, if_pos hlt]
    rw [Graph.iter, Graph.setNode, hset]
    cases hdel : node'.markAsDeleted <;>
      simp [List.zipIdx_append, hdel, keep, Nat.min_eq_left hlt.le]

theorem outputPlaces_congr (h : node'.outputs = node.outputs) :
    outputPlaces id node' = outputPlaces id node := by
  rw [outputPlaces, outputPlaces, h]

theorem outputPairs_setNode (node' : Node) (h : g.node? id = some node)
    (hlive : node'.markAsDeleted = false)
    (houts : node'.outputs = node.outputs) : outputPairs (g.setNode id node') = outputPairs g := by
  obtain ⟨before, after, hiter, -, hset⟩ := iter_eq_append h
  rw [outputPairs, outputPairs, hset, hiter, hlive]
  simp [outputPlaces_congr houts]

/-- A deleted node takes its definitions with it. -/
theorem outputPairs_delete (h : g.node? id = some node) (hdel : node'.markAsDeleted = true) :
    outputPairs (g.setNode id node') = (outputPairs g).filter fun p => p.2.1 ≠ id := by
  obtain ⟨before, after, hiter, hother, hset⟩ := iter_eq_append h
  have hfilter : ∀ x : NodeId × Node, (outputPlaces x.1 x.2).filter (fun p => p.2.1 ≠ id) =
      if x.1 = id then [] else outputPlaces x.1 x.2 := by
    intro x
    split
    · rename_i hx
      rw [List.filter_eq_nil_iff]
      intro p hp
      rw [(mem_outputPlaces.mp hp).1, hx]
      simp
    · rename_i hx
      rw [List.filter_eq_self]
      intro p hp
      rw [(mem_outputPlaces.mp hp).1]
      simpa using hx
  rw [outputPairs, outputPairs, hset, hiter, hdel, if_pos rfl, List.filter_flatMap]
  simp only [hfilter, List.append_nil, List.flatMap_append, List.flatMap_cons, if_true,
    List.nil_append]
  congr 1
  · exact List.flatMap_congr fun x hx => (if_neg (hother x (List.mem_append_left _ hx))).symm
  · exact List.flatMap_congr fun x hx => (if_neg (hother x (List.mem_append_right _ hx))).symm

theorem inputPairs_delete (h : g.node? id = some node) (hdel : node'.markAsDeleted = true) :
    inputPairs (g.setNode id node') = inputPairs g \ { p | p.2.1 = id } := by
  ext p
  simp only [inputPairs, Set.mem_sdiff, Set.mem_ofPred_eq, node?_setNode h, hdel, if_true]
  by_cases hp : p.2.1 = id <;> simp [hp]

/-- Only one place of a node's inputs has changed. -/
theorem inputPairs_setNode (node' : Node) (i : Nat) (h : g.node? id = some node)
    (hlive : node'.markAsDeleted = false)
    (hrest : ∀ j u, j ≠ i → (node'.inputs[j]? = some (some u) ↔ node.inputs[j]? = some (some u))) :
    inputPairs (g.setNode id node') = (inputPairs g \ { p | p.2 = (id, i) }) ∪
      { p | p.2 = (id, i) ∧ node'.inputs[i]? = some (some p.1) } := by
  ext ⟨u, j, k⟩
  simp only [inputPairs, Set.mem_union, Set.mem_sdiff, Set.mem_ofPred_eq, node?_setNode h, hlive,
    Prod.mk.injEq]
  by_cases hj : j = id
  · subst hj
    by_cases hk : k = i
    · subst hk
      simp
    · simp [hk, hrest k u hk, h]
  · simp [hj]

theorem inputPairs_unique {x : Place} {u : ValueId} (hu : (u, x) ∈ inputPairs g)
    (hv : (v, x) ∈ inputPairs g) : u = v := by
  obtain ⟨node, hnode, hget⟩ := hu
  obtain ⟨node', hnode', hget'⟩ := hv
  obtain rfl := Option.some.inj (hnode.symm.trans hnode')
  exact Option.some.inj (Option.some.inj (hget.symm.trans hget'))

/-- The pairs of `old` are all that the index loses at places that `old` takes. -/
theorem inputPairs_sdiff {l : List Place} (hl : ∀ x ∈ l, (old, x) ∈ inputPairs g) :
    inputPairs g \ { p | p.1 = old ∧ p.2 ∈ l } = inputPairs g \ { p | p.2 ∈ l } := by
  ext ⟨u, x⟩
  simp only [Set.mem_sdiff, Set.mem_ofPred_eq]
  constructor
  · rintro ⟨hu, hnot⟩
    exact ⟨hu, fun hx => hnot ⟨inputPairs_unique hu (hl x hx), hx⟩⟩
  · rintro ⟨hu, hnot⟩
    exact ⟨hu, fun h => hnot h.2⟩

/-! ### Replacing a value -/

theorem orPanic_bind_eq_ok {α β : Type} {o : Option α} {f : α → Except Stop β} {b : β}
    (h : (orPanic o).bind f = .ok b) : ∃ a, o = some a ∧ f a = .ok b := by
  cases o with
  | none => cases h
  | some a => exact ⟨a, rfl, h⟩

theorem orPanic_map_eq_ok {α β : Type} {o : Option α} {f : α → β} {b : β}
    (h : (orPanic o).map f = .ok b) : ∃ a, o = some a ∧ f a = b := by
  cases o with
  | none => cases h
  | some a => exact ⟨a, rfl, Except.ok.inj h⟩

/-- What one turn of the loop over the changed places does. -/
theorem replaceAt_eq_ok {x : Place} (h : replaceAt old new g x = .ok g') :
    ∃ node op, g.node? x.1 = some node ∧ x.2 < node.inputs.length ∧
      (node.op = .output old ∧ op = .output new ∨ (∀ v, node.op ≠ .output v) ∧ op = node.op) ∧
      g' = g.setNode x.1 { node with op, inputs := node.inputs.set x.2 (some new) } := by
  obtain ⟨node, hnode, hbody⟩ := orPanic_bind_eq_ok h
  clear h
  have hplace : ∀ op, (if node.inputs.length ≤ x.2 then Except.error Stop.panic
      else .ok (g.setNode x.1 { node with op, inputs := node.inputs.set x.2 (some new) })) = .ok g' →
      x.2 < node.inputs.length ∧
        g' = g.setNode x.1 { node with op, inputs := node.inputs.set x.2 (some new) } := by
    intro op hop
    split at hop
    · cases hop
    · exact ⟨by omega, (Except.ok.inj hop).symm⟩
  dsimp only at hbody
  split at hbody
  · rename_i v hv
    split at hbody
    · rename_i hold
      obtain ⟨hlt, hg⟩ := hplace _ hbody
      exact ⟨node, .output new, hnode, hlt, .inl ⟨by rw [hv, hold], rfl⟩, hg⟩
    · cases hbody
  · rename_i hnot
    obtain ⟨hlt, hg⟩ := hplace _ hbody
    exact ⟨node, node.op, hnode, hlt, .inr ⟨hnot, rfl⟩, hg⟩

/-- An output node that is rewired carries the new value. -/
theorem Dummies.replaceAt {x : Place} (hd : Dummies g) (h : replaceAt old new g x = .ok g') :
    Dummies g' := by
  obtain ⟨node, op, hnode, hlt, hop, rfl⟩ := replaceAt_eq_ok h
  have hlive := (node?_eq_some.mp hnode).2
  constructor
  · intro id hid
    obtain ⟨node', v, hnode', hop', houts⟩ := hd.inputs id hid
    rw [node?_setNode hnode]
    split
    · rename_i heq
      subst heq
      obtain rfl := Option.some.inj (hnode.symm.trans hnode')
      have hsame : op = node.op := by
        rcases hop with ⟨hold, -⟩ | ⟨-, hsame⟩
        · rcases hop' with hin | hin <;> simp [hin] at hold
        · exact hsame
      refine ⟨_, v, if_neg (by simp [hlive]), ?_, houts⟩
      rw [hsame]
      exact hop'
    · exact ⟨node', v, hnode', hop', houts⟩
  · intro id hid
    obtain ⟨node', v, hnode', hop', hins⟩ := hd.outputs id hid
    rw [node?_setNode hnode]
    split
    · rename_i heq
      subst heq
      obtain rfl := Option.some.inj (hnode.symm.trans hnode')
      rcases hop with ⟨-, hnew⟩ | ⟨hnot, -⟩
      · refine ⟨_, new, if_neg (by simp [hlive]), hnew, ?_⟩
        rw [hins, List.length_singleton] at hlt
        have hzero : x.2 = 0 := by omega
        show node.inputs.set x.2 (some new) = [some new]
        rw [hins, hzero]
        rfl
      · exact absurd hop' (hnot v)
    · exact ⟨node', v, hnode', hop', hins⟩

theorem replaceAt_spec {x : Place} (h : replaceAt old new g x = .ok g') :
    inputPairs g' = (inputPairs g \ { p | p.2 = x }) ∪ {(new, x)} ∧
      outputPairs g' = outputPairs g := by
  obtain ⟨node, op, hnode, hlt, -, rfl⟩ := replaceAt_eq_ok h
  have hlive := (node?_eq_some.mp hnode).2
  constructor
  · rw [inputPairs_setNode { node with op, inputs := node.inputs.set x.2 (some new) } x.2 hnode hlive
      fun j u hj => by
        show (node.inputs.set x.2 (some new))[j]? = _ ↔ _
        rw [List.getElem?_set_ne (Ne.symm hj)]]
    congr 1
    ext ⟨u, y⟩
    simp [hlt, eq_comm, and_comm]
  · exact outputPairs_setNode { node with op, inputs := node.inputs.set x.2 (some new) } hnode hlive rfl

/-- The loop over the changed places moves them from `old` to `new`. -/
theorem replaceAll_spec : ∀ (l : List Place) (g : Graph), l.Nodup →
    (∀ x ∈ l, (old, x) ∈ inputPairs g) → l.foldlM (replaceAt old new) g = .ok g' →
    inputPairs g' = (inputPairs g \ { p | p.2 ∈ l }) ∪ { p | p.1 = new ∧ p.2 ∈ l } ∧
      outputPairs g' = outputPairs g ∧ (Dummies g → Dummies g') := by
  intro l
  induction l with
  | nil =>
      intro g _ _ h
      obtain rfl := Except.ok.inj h
      simp
  | cons x l ih =>
      intro g hnodup hl h
      obtain ⟨hx, hnodup⟩ := List.nodup_cons.mp hnodup
      rw [List.foldlM_cons] at h
      cases hone : GraphState.replaceAt old new g x with
      | error e => rw [hone] at h; cases h
      | ok g₁ =>
          rw [hone] at h
          obtain ⟨hin, hout⟩ := replaceAt_spec hone
          obtain ⟨hin', hout', hdummies⟩ := ih g₁ hnodup (by
            intro y hy
            rw [hin]
            refine .inl ⟨hl y (List.mem_cons_of_mem x hy), ?_⟩
            rintro rfl
            exact hx hy) h
          refine ⟨?_, hout'.trans hout, fun hd => hdummies (hd.replaceAt hone)⟩
          rw [hin', hin]
          ext ⟨u, y⟩
          simp only [Set.mem_union, Set.mem_sdiff, Set.mem_ofPred_eq, Set.mem_singleton_iff,
            Prod.mk.injEq, List.mem_cons]
          by_cases hy : y = x
          · subst hy
            simp [hx]
          · simp [hy]

/-! ### The operations -/

theorem inputPairs_congr (h : g'.nodes = g.nodes) : inputPairs g' = inputPairs g := by
  simp only [inputPairs, Graph.node?, h]

theorem outputPairs_congr (h : g'.nodes = g.nodes) : outputPairs g' = outputPairs g := by
  simp only [outputPairs, Graph.iter, h]

/-- An operation on the values changes nothing that the maps index. -/
theorem Consistent.of_nodes (h : Consistent st) (hnodes : st'.graph.nodes = st.graph.nodes)
    (hin : st'.graph.inputs = st.graph.inputs) (hout : st'.graph.outputs = st.graph.outputs)
    (hmaps : st'.maps = st.maps) : Consistent st' := by
  obtain ⟨hindex, hlast, hdummies⟩ := consistent_iff.mp h
  apply consistent_iff.mpr
  rw [inputPairs_congr hnodes, outputPairs_congr hnodes, hmaps]
  refine ⟨hindex, hlast, ?_, ?_⟩
  · rw [hin]
    simp only [Graph.node?, hnodes]
    exact hdummies.inputs
  · rw [hout]
    simp only [Graph.node?, hnodes]
    exact hdummies.outputs

theorem node?_registerNewNode (st : GraphState) (hnew : node.markAsDeleted = false) (j : NodeId) :
    (st.registerNewNode node).graph.node? j =
      if j = st.graph.nodes.length then some node else st.graph.node? j := by
  show (((st.graph.nodes ++ [node])[j]?).filter _) = _
  rw [Graph.node?, List.getElem?_append]
  split
  · rename_i hlt
    rw [if_neg (Nat.ne_of_lt hlt)]
  · rename_i hge
    by_cases hj : j = st.graph.nodes.length
    · subst hj
      simp [hnew]
    · have hge' : st.graph.nodes.length ≤ j := Nat.le_of_not_lt hge
      have hgt : 1 ≤ j - st.graph.nodes.length :=
        Nat.sub_pos_of_lt (Nat.lt_of_le_of_ne hge' (Ne.symm hj))
      rw [if_neg hj, List.getElem?_eq_none (show [node].length ≤ _ from hgt),
        List.getElem?_eq_none hge']

theorem node?_registerNewNode_of_some (hnew : node.markAsDeleted = false) {j : NodeId}
    (hj : st.graph.node? j = some node') : (st.registerNewNode node).graph.node? j = some node' := by
  have hlt := (List.getElem?_eq_some_iff.mp (node?_eq_some.mp hj).1).1
  rw [node?_registerNewNode st hnew, if_neg (Nat.ne_of_lt hlt), hj]

theorem inputPairs_registerNewNode (st : GraphState) (hnew : node.markAsDeleted = false) :
    inputPairs (st.registerNewNode node).graph =
      inputPairs st.graph ∪ { p | p ∈ inputPlaces st.graph.nodes.length node } := by
  ext ⟨u, j, k⟩
  simp only [inputPairs, Set.mem_union, Set.mem_ofPred_eq, node?_registerNewNode st hnew, mem_inputPlaces]
  by_cases hj : j = st.graph.nodes.length
  · subst hj
    simp [Graph.node?]
  · simp [hj]

theorem outputPairs_registerNewNode (st : GraphState) (hnew : node.markAsDeleted = false) :
    outputPairs (st.registerNewNode node).graph =
      outputPairs st.graph ++ outputPlaces st.graph.nodes.length node := by
  show List.flatMap _ (Graph.iter _) = _
  rw [Graph.iter, outputPairs, Graph.iter]
  simp [GraphState.registerNewNode, List.zipIdx_append, hnew]

theorem registerNewNode_consistent (h : Consistent st) (hnew : node.markAsDeleted = false) :
    Consistent (st.registerNewNode node) := by
  obtain ⟨hindex, hlast, hdummies⟩ := consistent_iff.mp h
  apply consistent_iff.mpr
  refine ⟨?_, ?_, ?_, ?_⟩
  · rw [inputPairs_registerNewNode st hnew]
    exact insertAll_isIndex _ hindex
  · rw [outputPairs_registerNewNode st hnew, lastOf, List.foldl_append, ← lastOf, ← hlast]
    rfl
  · intro id hid
    obtain ⟨n, v, hn, hop, houts⟩ := hdummies.inputs id hid
    exact ⟨n, v, node?_registerNewNode_of_some hnew hn, hop, houts⟩
  · intro id hid
    obtain ⟨n, v, hn, hop, hins⟩ := hdummies.outputs id hid
    exact ⟨n, v, node?_registerNewNode_of_some hnew hn, hop, hins⟩

theorem replaceInputValue_consistent {pred : NodeId → Node → Bool} (h : Consistent st)
    (hok : st.replaceInputValueIfWithoutTypecheck old new pred = .ok st') : Consistent st' := by
  obtain ⟨hindex, hlast, hdummies⟩ := consistent_iff.mp h
  unfold GraphState.replaceInputValueIfWithoutTypecheck at hok
  cases hch : st.changed old pred with
  | error e => rw [hch] at hok; cases hok
  | ok changed =>
  rw [hch] at hok
  change (if changed.isEmpty then _ else _) = _ at hok
  split at hok
  · obtain rfl := Except.ok.inj hok
    exact h
  rename_i hne
  have hsub : changed.Sublist (places st.maps.value2used old) := by
    unfold GraphState.changed at hch
    dsimp only at hch
    split at hch
    · rw [← Except.ok.inj hch]
      exact List.filter_sublist
    · cases hch
  have hpairs : ∀ x ∈ changed, (old, x) ∈ inputPairs st.graph :=
    fun x hx => (hindex.mem old x).mp (hsub.subset hx)
  have hnodup : changed.Nodup := hsub.nodup (hindex.nodup old)
  obtain ⟨x, hx⟩ := List.exists_mem_of_ne_nil changed fun hnil => hne (by rw [hnil]; rfl)
  obtain ⟨used, hused⟩ := hindex.exists_remove (hpairs x hx) changed
  obtain ⟨graph, hgraph, rfl⟩ : ∃ graph, changed.foldlM (GraphState.replaceAt old new) st.graph =
      .ok graph ∧ st' =
        { graph
          maps := { st.maps with value2used := changed.foldl (fun m x => insert m new x) used } } := by
    rw [hused, Option.getD_some] at hok
    cases hfold : changed.foldlM (GraphState.replaceAt old new) st.graph with
    | error e => rw [hfold] at hok; cases hok
    | ok graph => rw [hfold] at hok; exact ⟨graph, rfl, (Except.ok.inj hok).symm⟩
  obtain ⟨hin, hout, hd⟩ := replaceAll_spec changed st.graph hnodup hpairs hgraph
  apply consistent_iff.mpr
  refine ⟨?_, ?_, hd hdummies⟩
  · have hins := insertAll_isIndex (changed.map fun x => (new, x)) (hindex.remove hused)
    rw [List.foldl_map, inputPairs_sdiff hpairs] at hins
    dsimp only
    rw [hin]
    convert hins using 2
    ext ⟨u, y⟩
    simp only [Set.mem_ofPred_eq, List.mem_map, Prod.mk.injEq]
    constructor
    · rintro ⟨rfl, hy⟩
      exact ⟨y, hy, rfl, rfl⟩
    · rintro ⟨y, hy, rfl, rfl⟩
      exact ⟨rfl, hy⟩
  · dsimp only
    rw [hout]
    exact hlast

/-- The graph inputs and outputs still carry their values if a node that is one of them does. -/
theorem dummies_setNode (node' : Node) (hd : Dummies g) (h : g.node? id = some node)
    (hlive : node'.markAsDeleted = false) : Dummies (g.setNode id node') ↔
      (id ∈ g.inputs → ∃ v, (node'.op = .input v ∨ node'.op = .sessionState v) ∧
        node'.outputs = [v]) ∧
      (id ∈ g.outputs → ∃ v, node'.op = .output v ∧ node'.inputs = [some v]) := by
  have hself : (g.setNode id node').node? id = some node' := by
    rw [node?_setNode h, if_pos rfl, if_neg (by simp [hlive])]
  constructor
  · intro hd'
    constructor
    · intro hid
      obtain ⟨n, v, hn, hop, houts⟩ := hd'.inputs id hid
      obtain rfl := Option.some.inj (hself.symm.trans hn)
      exact ⟨v, hop, houts⟩
    · intro hid
      obtain ⟨n, v, hn, hop, hins⟩ := hd'.outputs id hid
      obtain rfl := Option.some.inj (hself.symm.trans hn)
      exact ⟨v, hop, hins⟩
  · rintro ⟨hin, hout⟩
    constructor
    · intro j hj
      by_cases heq : j = id
      · subst heq
        obtain ⟨v, hop, houts⟩ := hin hj
        exact ⟨node', v, hself, hop, houts⟩
      · rw [node?_setNode h, if_neg heq]
        exact hd.inputs j hj
    · intro j hj
      by_cases heq : j = id
      · subst heq
        obtain ⟨v, hop, hins⟩ := hout hj
        exact ⟨node', v, hself, hop, hins⟩
      · rw [node?_setNode h, if_neg heq]
        exact hd.outputs j hj

theorem replaceOp_consistent {op : Operator} (h : Consistent st)
    (hok : st.replaceOp id op = .ok st') : Consistent st' ↔
      ∀ node, st.graph.node? id = some node →
        (id ∈ st.graph.inputs → ∃ v, (op = .input v ∨ op = .sessionState v) ∧ node.outputs = [v]) ∧
        (id ∈ st.graph.outputs → ∃ v, op = .output v ∧ node.inputs = [some v]) := by
  obtain ⟨hindex, hlast, hdummies⟩ := consistent_iff.mp h
  obtain ⟨node, hnode, rfl⟩ := orPanic_map_eq_ok hok
  have hlive := (node?_eq_some.mp hnode).2
  have hin : inputPairs (st.graph.setNode id { node with op }) = inputPairs st.graph := by
    ext ⟨u, j, k⟩
    simp only [inputPairs, Set.mem_ofPred_eq, node?_setNode hnode, hlive]
    by_cases hj : j = id
    · subst hj
      simp [hnode]
    · simp [hj]
  have hout := outputPairs_setNode { node with op } hnode hlive rfl
  rw [consistent_iff]
  dsimp only
  rw [hin, hout, dummies_setNode { node with op } hdummies hnode hlive]
  constructor
  · rintro ⟨-, -, hd⟩ node' hnode'
    obtain rfl := Option.some.inj (hnode.symm.trans hnode')
    exact hd
  · exact fun hd => ⟨hindex, hlast, hd node hnode⟩

/-- Taking a present input out of the index. -/
theorem exists_remove_input {i : Nat} {m : Index ValueId Place} (hindex : IsIndex m (inputPairs g))
    (hnode : g.node? id = some node) (hold : node.inputs[i]? = some (some old)) :
    ∃ m', remove m old [(id, i)] = some m' ∧ IsIndex m' (inputPairs g \ { p | p.2 = (id, i) }) := by
  have hmem : (old, (id, i)) ∈ inputPairs g := ⟨node, hnode, hold⟩
  obtain ⟨m', hm'⟩ := hindex.exists_remove hmem [(id, i)]
  refine ⟨m', hm', ?_⟩
  have hrem := hindex.remove hm'
  rw [inputPairs_sdiff (by simpa using hmem)] at hrem
  simpa using hrem

theorem setNodeInput_consistent {index : Nat} {value : ValueId} (h : Consistent st)
    (hok : st.setNodeInput id index value = .ok st') : Consistent st' ↔
      (id ∈ st.graph.outputs → index = 0 ∧ (st.graph.node? id).map Node.op = some (.output value)) := by
  obtain ⟨hindex, hlast, hdummies⟩ := consistent_iff.mp h
  obtain ⟨node, hnode, rfl⟩ := orPanic_map_eq_ok hok
  have hlive := (node?_eq_some.mp hnode).2
  let inputs := node.inputs ++ List.replicate (index + 1 - node.inputs.length) none
  let node' := { node with inputs := inputs.set index (some value) }
  have hlt : index < inputs.length := by
    simp only [inputs, List.length_append, List.length_replicate]
    omega
  -- the inputs that are appended are absent
  have hget : ∀ (j : Nat) (u : ValueId), inputs[j]? = some (some u) ↔ node.inputs[j]? = some (some u) := by
    intro j u
    simp only [inputs]
    rw [List.getElem?_append]
    split
    · exact Iff.rfl
    · rename_i hge
      rw [List.getElem?_eq_none (Nat.le_of_not_lt hge), List.getElem?_replicate]
      split <;> simp
  have hin : inputPairs (st.graph.setNode id node') =
      (inputPairs st.graph \ { p | p.2 = (id, index) }) ∪ {(value, (id, index))} := by
    rw [inputPairs_setNode node' index hnode hlive fun j u hj => by
      rw [← hget j u]
      show (inputs.set index (some value))[j]? = _ ↔ _
      rw [List.getElem?_set_ne (Ne.symm hj)]]
    congr 1
    ext ⟨u, y⟩
    simp [node', hlt, eq_comm, and_comm]
  have hout : outputPairs (st.graph.setNode id node') = outputPairs st.graph :=
    outputPairs_setNode node' hnode hlive rfl
  have hd : Dummies (st.graph.setNode id node') ↔
      (id ∈ st.graph.outputs → index = 0 ∧ node.op = .output value) := by
    rw [dummies_setNode node' hdummies hnode hlive]
    constructor
    · rintro ⟨-, houts⟩ hid
      obtain ⟨n, v, hn, hop, hins⟩ := hdummies.outputs id hid
      obtain rfl := Option.some.inj (hnode.symm.trans hn)
      obtain ⟨v', hop', hins'⟩ := houts hid
      obtain rfl : v = v' := Operator.output.inj (hop.symm.trans hop')
      have hlen : (inputs.set index (some value)).length = 1 := congrArg List.length hins'
      rw [List.length_set] at hlen
      have hzero : index = 0 := by omega
      refine ⟨hzero, ?_⟩
      have hfirst : (inputs.set index (some value))[0]? = some (some v) := by
        rw [show inputs.set index (some value) = [some v] from hins']
        rfl
      rw [hzero, List.getElem?_set_self (by omega)] at hfirst
      rw [Option.some.inj (Option.some.inj hfirst)]
      exact hop
    · intro hcond
      constructor
      · intro hid
        obtain ⟨n, v, hn, hop, houts⟩ := hdummies.inputs id hid
        obtain rfl := Option.some.inj (hnode.symm.trans hn)
        exact ⟨v, hop, houts⟩
      · intro hid
        obtain ⟨hzero, hop'⟩ := hcond hid
        obtain ⟨n, v, hn, hop, hins⟩ := hdummies.outputs id hid
        obtain rfl := Option.some.inj (hnode.symm.trans hn)
        refine ⟨value, hop', ?_⟩
        simp [node', inputs, hins, hzero]
  have hused : IsIndex ((inputs.getD index none).elim st.maps.value2used fun old =>
      (remove st.maps.value2used old [(id, index)]).getD st.maps.value2used)
      (inputPairs st.graph \ { p | p.2 = (id, index) }) := by
    cases hold : inputs.getD index none with
    | none =>
        have hsame : inputPairs st.graph \ { p | p.2 = (id, index) } = inputPairs st.graph := by
          ext ⟨u, y⟩
          refine ⟨And.left, fun hu => ⟨hu, fun hy => ?_⟩⟩
          obtain rfl : y = (id, index) := hy
          obtain ⟨n, hn, hu⟩ := hu
          obtain rfl := Option.some.inj (hnode.symm.trans hn)
          rw [List.getD_eq_getElem?_getD, (hget index u).mpr hu] at hold
          cases hold
        rw [hsame]
        exact hindex
    | some old =>
        have hold' : inputs[index]? = some (some old) := by
          rw [List.getD_eq_getElem?_getD, List.getElem?_eq_getElem hlt, Option.getD_some] at hold
          rw [List.getElem?_eq_getElem hlt, hold]
        obtain ⟨m', hm', hindex'⟩ := exists_remove_input hindex hnode ((hget index old).mp hold')
        rw [Option.elim_some, hm', Option.getD_some]
        exact hindex'
  rw [consistent_iff]
  change IsIndex _ (inputPairs (st.graph.setNode id node')) ∧
    _ = lastOf (outputPairs (st.graph.setNode id node')) ∧ Dummies (st.graph.setNode id node') ↔ _
  rw [hin, hout, hd, hnode]
  constructor
  · rintro ⟨-, -, hcond⟩ hid
    obtain ⟨hzero, hop⟩ := hcond hid
    exact ⟨hzero, by rw [Option.map_some, hop]⟩
  · intro hcond
    refine ⟨?_, hlast, fun hid => ?_⟩
    · convert hused.insert value (id, index)
      cases inputs.getD index none <;> rfl
    · obtain ⟨hzero, hop⟩ := hcond hid
      exact ⟨hzero, Option.some.inj hop⟩

theorem dropNodeInput_consistent {index : Nat} (h : Consistent st)
    (hok : st.dropNodeInput id index = .ok st') : Consistent st' ↔ id ∉ st.graph.outputs := by
  obtain ⟨hindex, hlast, hdummies⟩ := consistent_iff.mp h
  obtain ⟨node, hnode, hbody⟩ := orPanic_bind_eq_ok hok
  have hlive := (node?_eq_some.mp hnode).2
  dsimp only at hbody
  split at hbody
  · cases hbody
  · rename_i habsent
    obtain rfl := Except.ok.inj hbody
    refine ⟨fun _ hid => ?_, fun _ => h⟩
    -- the input of an output node is present
    obtain ⟨n, v, hn, hop, hins⟩ := hdummies.outputs id hid
    obtain rfl := Option.some.inj (hnode.symm.trans hn)
    rw [hins] at habsent
    cases index with
    | zero => cases habsent
    | succ index => cases habsent
  · rename_i old hold
    obtain ⟨used, hrem, rfl⟩ := orPanic_map_eq_ok hbody
    have hlt : index < node.inputs.length := (List.getElem?_eq_some_iff.mp hold).1
    obtain ⟨m', hm', hindex'⟩ := exists_remove_input hindex hnode hold
    obtain rfl := Option.some.inj (hrem.symm.trans hm')
    have hin : inputPairs (st.graph.setNode id { node with inputs := node.inputs.set index none }) =
        inputPairs st.graph \ { p | p.2 = (id, index) } := by
      rw [inputPairs_setNode { node with inputs := node.inputs.set index none } index hnode hlive
        fun j u hj => by
          show (node.inputs.set index none)[j]? = _ ↔ _
          rw [List.getElem?_set_ne (Ne.symm hj)]]
      simp [hlt]
    have hout := outputPairs_setNode { node with inputs := node.inputs.set index none } hnode hlive rfl
    rw [consistent_iff]
    dsimp only
    rw [hin, hout, dummies_setNode { node with inputs := node.inputs.set index none } hdummies hnode
      hlive]
    constructor
    · rintro ⟨-, -, -, houts⟩ hid
      obtain ⟨v, -, hins⟩ := houts hid
      have hnone : (node.inputs.set index none)[index]? = some none := by
        rw [List.getElem?_set_self hlt]
      rw [show node.inputs.set index none = [some v] from hins] at hnone
      cases index with
      | zero => cases hnone
      | succ index => cases hnone
    · intro hid
      refine ⟨hindex', hlast, fun hid' => ?_, fun hid' => absurd hid' hid⟩
      obtain ⟨n, v, hn, hop, houts⟩ := hdummies.inputs id hid'
      obtain rfl := Option.some.inj (hnode.symm.trans hn)
      exact ⟨v, hop, houts⟩

/-! ### Deleting the nodes that are not used -/

theorem removeAll_isIndex : ∀ (l : List (ValueId × Place)) {m : Index ValueId Place}
    {pairs : Set (ValueId × Place)}, l.Nodup → (∀ p ∈ l, p ∈ pairs) → IsIndex m pairs →
    ∃ m', l.foldlM (fun m y => orPanic (remove m y.1 [y.2])) m = .ok m' ∧
      IsIndex m' (pairs \ { p | p ∈ l }) := by
  intro l
  induction l with
  | nil =>
      intro m pairs _ _ h
      exact ⟨m, rfl, by simpa using h⟩
  | cons x l ih =>
      intro m pairs hnodup hl h
      obtain ⟨hx, hnodup⟩ := List.nodup_cons.mp hnodup
      obtain ⟨m₁, hm₁⟩ := h.exists_remove (hl x List.mem_cons_self) [x.2]
      have h₁ := h.remove hm₁
      have hone : { p : ValueId × Place | p.1 = x.1 ∧ p.2 ∈ [x.2] } = {x} := by
        ext ⟨u, y⟩
        simp [Prod.ext_iff]
      rw [hone] at h₁
      have hrest : ∀ p ∈ l, p ∈ pairs \ {x} :=
        fun p hp => ⟨hl p (List.mem_cons_of_mem x hp), fun heq => hx (heq ▸ hp)⟩
      obtain ⟨m', hm', h'⟩ := ih hnodup hrest h₁
      refine ⟨m', ?_, ?_⟩
      · rw [List.foldlM_cons, hm₁]
        exact hm'
      · convert h' using 1
        ext p
        simp [and_assoc, not_or]

theorem inputPlaces_nodup (id : NodeId) (node : Node) : (inputPlaces id node).Nodup := by
  have hidx : (node.inputs.zipIdx.map Prod.snd).Nodup := by
    rw [List.zipIdx_map_snd]
    exact List.nodup_range'
  refine List.Nodup.filterMap ?_ hidx.of_map
  rintro ⟨a, i⟩ ⟨b, j⟩ p hp hq
  obtain ⟨u, rfl, rfl⟩ := Option.map_eq_some_iff.mp hp
  obtain ⟨w, rfl, hw⟩ := Option.map_eq_some_iff.mp hq
  cases hw
  rfl

theorem iter_nodup (g : Graph) : (g.iter.map Prod.fst).Nodup := by
  have hall : ((g.nodes.zipIdx.map Prod.swap).map Prod.fst).Nodup := by
    rw [List.map_map]
    show (g.nodes.zipIdx.map Prod.snd).Nodup
    rw [List.zipIdx_map_snd]
    exact List.nodup_range'
  exact (List.filter_sublist.map Prod.fst).nodup hall

/-- The nodes of a list that the first loop deletes. -/
def deletes (l : List (NodeId × Node)) (id : NodeId) : Bool :=
  l.any fun x => x.1 == id && !x.2.isDummy

/-- The first loop takes the nodes that it deletes out of the graph and out of the users. -/
theorem deleteNodes_spec : ∀ (l : List (NodeId × Node)) (st : GraphState), (l.map Prod.fst).Nodup →
    (∀ x ∈ l, st.graph.node? x.1 = some x.2) →
    IsIndex st.maps.value2used (inputPairs st.graph) → l.foldlM deleteNode st = .ok st' →
    IsIndex st'.maps.value2used (inputPairs st'.graph) ∧
      st'.maps.value2defined = st.maps.value2defined ∧
      (∀ j, st'.graph.node? j = if deletes l j then none else st.graph.node? j) ∧
      outputPairs st'.graph = (outputPairs st.graph).filter (fun p => !deletes l p.2.1) ∧
      st'.graph.inputs = st.graph.inputs ∧ st'.graph.outputs = st.graph.outputs := by
  intro l
  induction l with
  | nil =>
      intro st _ _ hindex h
      obtain rfl := Except.ok.inj h
      refine ⟨hindex, rfl, fun j => rfl, ?_, rfl, rfl⟩
      exact (List.filter_eq_self.mpr fun p _ => rfl).symm
  | cons x l ih =>
      intro st hnodup hl hindex h
      obtain ⟨hx, hnodup⟩ := List.nodup_cons.mp hnodup
      rw [List.foldlM_cons] at h
      have hnode := hl x List.mem_cons_self
      cases hdummy : x.2.isDummy with
      | true =>
          rw [show deleteNode st x = .ok st from if_pos hdummy] at h
          obtain ⟨hindex', hdef, hnode?, hout, hins, houts⟩ :=
            ih st hnodup (fun y hy => hl y (List.mem_cons_of_mem x hy)) hindex h
          have hdel : ∀ j, deletes (x :: l) j = deletes l j := by
            intro j
            simp [deletes, hdummy]
          simp only [hdel]
          exact ⟨hindex', hdef, hnode?, hout, hins, houts⟩
      | false =>
          obtain ⟨used, hused, hindex₁⟩ := removeAll_isIndex (inputPlaces x.1 x.2)
            (inputPlaces_nodup x.1 x.2) (fun p hp => by
              obtain ⟨hid, hget⟩ := mem_inputPlaces.mp hp
              exact ⟨x.2, by rw [hid]; exact hnode, hget⟩) hindex
          rw [show deleteNode st x = _ from if_neg (by simp [hdummy]), hused] at h
          let st₁ : GraphState :=
            { graph := st.graph.setNode x.1 { x.2 with markAsDeleted := true }
              maps := { st.maps with value2used := used } }
          have hnode₁ : ∀ j, st₁.graph.node? j = if j = x.1 then none else st.graph.node? j := by
            intro j
            rw [show st₁.graph = st.graph.setNode x.1 _ from rfl, node?_setNode hnode, if_pos rfl]
          have hin₁ : inputPairs st₁.graph =
              inputPairs st.graph \ { p | p ∈ inputPlaces x.1 x.2 } := by
            rw [show st₁.graph = st.graph.setNode x.1 _ from rfl, inputPairs_delete hnode rfl]
            ext ⟨u, j, k⟩
            simp only [Set.mem_sdiff, Set.mem_ofPred_eq, mem_inputPlaces]
            constructor
            · exact fun ⟨hu, hj⟩ => ⟨hu, fun hplace => hj hplace.1⟩
            · rintro ⟨hu, hplace⟩
              refine ⟨hu, fun hj => hplace ⟨hj, ?_⟩⟩
              obtain ⟨n, hn, hget⟩ := hu
              subst hj
              rw [Option.some.inj (hnode.symm.trans hn)]
              exact hget
          obtain ⟨hindex', hdef, hnode?, hout, hins, houts⟩ := ih st₁ hnodup (by
            intro y hy
            rw [hnode₁, if_neg]
            · exact hl y (List.mem_cons_of_mem x hy)
            · rintro hyx
              exact hx (hyx ▸ List.mem_map_of_mem hy)) (by rw [hin₁]; exact hindex₁) h
          have hdel : ∀ j, deletes (x :: l) j = (decide (j = x.1) || deletes l j) := by
            intro j
            by_cases hj : j = x.1
            · subst hj
              simp [deletes, hdummy]
            · have hbeq : (x.1 == j) = false := beq_false_of_ne (Ne.symm hj)
              simp [deletes, hbeq, hj]
          refine ⟨hindex', hdef, ?_, ?_, hins, houts⟩
          · intro j
            rw [hnode?, hnode₁, hdel]
            by_cases hj : j = x.1 <;> simp [hj]
          · rw [hout, show st₁.graph = st.graph.setNode x.1 _ from rfl, outputPairs_delete hnode rfl,
              List.filter_filter]
            congr 1
            funext p
            simp only [hdel]
            by_cases hp : p.2.1 = x.1 <;> simp [hp]

theorem dropAll (l : List (NodeId × Node)) : ∀ (m : ValueId → Option Place) (v : ValueId),
    l.foldl (fun m x => x.2.outputs.foldl (fun m v => Function.update m v none) m) m v =
      if ∃ x ∈ l, v ∈ x.2.outputs then none else m v := by
  have hone : ∀ (vs : List ValueId) (m : ValueId → Option Place) (v : ValueId),
      vs.foldl (fun m v => Function.update m v none) m v = if v ∈ vs then none else m v := by
    intro vs
    induction vs with
    | nil =>
        intro m v
        simp
    | cons u vs ih =>
        intro m v
        rw [List.foldl_cons, ih]
        by_cases hv : v ∈ vs
        · simp [hv]
        · by_cases hu : v = u
          · subst hu
            simp [hv]
          · simp [hv, hu]
  induction l with
  | nil =>
      intro m v
      simp
  | cons x l ih =>
      intro m v
      rw [List.foldl_cons, ih, hone]
      by_cases hl : ∃ y ∈ l, v ∈ y.2.outputs
      · rw [if_pos hl, if_pos]
        obtain ⟨y, hy, hv⟩ := hl
        exact ⟨y, List.mem_cons_of_mem x hy, hv⟩
      · rw [if_neg hl]
        by_cases hv : v ∈ x.2.outputs
        · rw [if_pos hv, if_pos ⟨x, List.mem_cons_self, hv⟩]
        · rw [if_neg hv, if_neg]
          rintro ⟨y, hy, hvy⟩
          rcases List.mem_cons.mp hy with rfl | hy
          · exact hv hvy
          · exact hl ⟨y, hy, hvy⟩

/-- `update_deleted_nodes` finds every definition at a node that the graph outputs use, and every dummy
node that defines a value is used. -/
def Covered (st : GraphState) : Prop :=
  (∀ v x, st.maps.value2defined v = some x →
    Reached (st.maps.usedNodes st.graph) st.graph.outputs x.1) ∧
  ∀ id node, st.graph.node? id = some node → node.isDummy → node.outputs ≠ [] →
    Reached (st.maps.usedNodes st.graph) st.graph.outputs id

/-- The search never stops for lack of fuel: it is no deeper than there are nodes. -/
theorem usedNodesDfs_ne_fuel (g : Graph) (maps : SimpleGraphOp) :
    maps.usedNodesDfs g ≠ .error .fuel := by
  have hvertices : ∀ id, maps.usedNodes g id ≠ none → id ∈ Finset.range g.nodes.length := by
    intro id hid
    rw [Finset.mem_range]
    by_contra hge
    apply hid
    rw [SimpleGraphOp.usedNodes, Graph.node?, List.getElem?_eq_none (Nat.le_of_not_lt hge)]
    rfl
  exact search_ne_fuel hvertices (by rw [Finset.card_range]; exact Nat.lt_succ_self _)

/-- What `update_deleted_nodes` does, given which nodes it visits. -/
theorem updateDeletedNodes_eq_ok (h : Consistent st) (hok : st.updateDeletedNodes = .ok st') :
    ∃ visited : List NodeId,
      (∀ id, id ∈ visited ↔ Reached (st.maps.usedNodes st.graph) st.graph.outputs id) ∧
      let gone := fun id => deletes (st.graph.iter.filter (·.1 ∉ visited)) id
      IsIndex st'.maps.value2used (inputPairs st'.graph) ∧
      (∀ v id node, st'.graph.node? id = some node → id ∉ visited → v ∈ node.outputs →
        st'.maps.value2defined v = none) ∧
      (∀ v, (∀ id node, st'.graph.node? id = some node → v ∈ node.outputs → id ∈ visited) →
        st'.maps.value2defined v = st.maps.value2defined v) ∧
      (∀ j, st'.graph.node? j = if gone j then none else st.graph.node? j) ∧
      outputPairs st'.graph = (outputPairs st.graph).filter (fun p => !gone p.2.1) ∧
      st'.graph.inputs = st.graph.inputs ∧ st'.graph.outputs = st.graph.outputs := by
  obtain ⟨hindex, -, -⟩ := consistent_iff.mp h
  unfold GraphState.updateDeletedNodes at hok
  cases hdfs : st.maps.usedNodesDfs st.graph with
  | error e => rw [hdfs] at hok; cases hok
  | ok visited =>
  rw [hdfs] at hok
  change Except.map _ _ = _ at hok
  cases hfold : (st.graph.iter.filter (·.1 ∉ visited)).foldlM deleteNode st with
  | error e => rw [hfold] at hok; cases hok
  | ok st₁ =>
  rw [hfold] at hok
  obtain rfl : st₁.dropDefinitions visited = st' := Except.ok.inj hok
  obtain ⟨hindex', hdef, hnode?, hout, hins, houts⟩ :=
    deleteNodes_spec (st.graph.iter.filter (·.1 ∉ visited)) st
      ((List.filter_sublist.map Prod.fst).nodup (iter_nodup st.graph))
      (fun x hx => mem_iter.mp (List.mem_filter.mp hx).1) hindex hfold
  let doomed := st₁.graph.iter.filter (·.1 ∉ visited)
  have hdrop : ∀ v, (st₁.dropDefinitions visited).maps.value2defined v =
      if ∃ x ∈ doomed, v ∈ x.2.outputs then none else st.maps.value2defined v := by
    intro v
    rw [← hdef]
    exact dropAll doomed _ v
  refine ⟨visited, search_mem_iff hdfs, hindex', ?_, ?_, hnode?, hout, hins, houts⟩
  · intro v id node hnode hnot hv
    refine (hdrop v).trans (if_pos ⟨(id, node), ?_, hv⟩)
    exact List.mem_filter.mpr ⟨mem_iter.mpr hnode, decide_eq_true hnot⟩
  · intro v hall
    refine (hdrop v).trans (if_neg ?_)
    rintro ⟨x, hx, hv⟩
    obtain ⟨hx, hnot⟩ := List.mem_filter.mp hx
    exact of_decide_eq_true hnot (hall x.1 x.2 (mem_iter.mp hx) hv)

theorem isDummy_of_op
    (h : node.op = .input v ∨ node.op = .sessionState v ∨ node.op = .output v) : node.isDummy := by
  unfold Node.isDummy
  rcases h with h | h | h <;> rw [h] <;> rfl

theorem updateDeletedNodes_consistent (h : Consistent st) (hok : st.updateDeletedNodes = .ok st') :
    Consistent st' ↔ Covered st := by
  obtain ⟨-, hlast, hdummies⟩ := consistent_iff.mp h
  obtain ⟨visited, hvisited, hindex', hdrop, hkeep, hnode?, hout, hins, houts⟩ :=
    updateDeletedNodes_eq_ok h hok
  dsimp only at hnode? hout
  -- a node goes if it is not visited, unless it is a dummy
  have hgone : ∀ {id node}, st.graph.node? id = some node →
      (deletes (st.graph.iter.filter (·.1 ∉ visited)) id = true ↔
        id ∉ visited ∧ node.isDummy = false) := by
    intro id node hnode
    unfold deletes
    rw [List.any_eq_true]
    constructor
    · rintro ⟨x, hx, hcond⟩
      obtain ⟨hx, hnot⟩ := List.mem_filter.mp hx
      rw [Bool.and_eq_true, beq_iff_eq, Bool.not_eq_true'] at hcond
      obtain ⟨rfl, hdummy⟩ := hcond
      obtain rfl := Option.some.inj (hnode.symm.trans (mem_iter.mp hx))
      exact ⟨of_decide_eq_true hnot, hdummy⟩
    · rintro ⟨hnot, hdummy⟩
      refine ⟨(id, node), List.mem_filter.mpr ⟨mem_iter.mpr hnode, decide_eq_true hnot⟩, ?_⟩
      simp [hdummy]
  have hkept : ∀ {id node}, st'.graph.node? id = some node ↔
      st.graph.node? id = some node ∧ (id ∈ visited ∨ node.isDummy = true) := by
    intro id node
    rw [hnode?]
    constructor
    · intro hnode
      split at hnode
      · cases hnode
      · rename_i hstay
        rw [hgone hnode, not_and_or, not_not, Bool.not_eq_false] at hstay
        exact ⟨hnode, hstay⟩
    · rintro ⟨hnode, hstay⟩
      rw [if_neg, hnode]
      rw [hgone hnode, not_and_or, not_not, Bool.not_eq_false]
      exact hstay
  have hdummies' : Dummies st'.graph := by
    constructor
    · rw [hins]
      intro id hid
      obtain ⟨node, v, hnode, hop, hval⟩ := hdummies.inputs id hid
      have hdummy : node.isDummy := isDummy_of_op (hop.imp_right fun hop => .inl hop)
      exact ⟨node, v, hkept.mpr ⟨hnode, .inr hdummy⟩, hop, hval⟩
    · rw [houts]
      intro id hid
      obtain ⟨node, v, hnode, hop, hval⟩ := hdummies.outputs id hid
      exact ⟨node, v, hkept.mpr ⟨hnode, .inr (isDummy_of_op (.inr (.inr hop)))⟩, hop, hval⟩
  rw [consistent_iff]
  constructor
  · rintro ⟨-, hlast', -⟩
    -- a dummy that is not visited keeps its definitions in the graph, but not in the map
    have hdummy : ∀ id node, st.graph.node? id = some node → node.isDummy → node.outputs ≠ [] →
        id ∈ visited := by
      intro id node hnode hdummy hne
      by_contra hnot
      obtain ⟨v, vs, hvs⟩ := List.exists_cons_of_ne_nil hne
      have hnode' := hkept.mpr ⟨hnode, .inr hdummy⟩
      have hmem : (v, (id, 0)) ∈ outputPairs st'.graph :=
        mem_outputPairs.mpr ⟨node, hnode', by rw [hvs]; rfl⟩
      have hsome := lastOf_isSome hmem
      rw [← hlast', hdrop v id node hnode' hnot (by rw [hvs]; exact List.mem_cons_self)] at hsome
      cases hsome
    refine ⟨?_, fun id node hnode hd hne => (hvisited id).mp (hdummy id node hnode hd hne)⟩
    intro v x hx
    apply (hvisited x.1).mp
    by_contra hnot
    have hstays : st'.maps.value2defined v = some x := by
      rw [hkeep, hx]
      intro id node hnode hv
      obtain ⟨hnode, hid | hd⟩ := hkept.mp hnode
      · exact hid
      · exact hdummy id node hnode hd (List.ne_nil_of_mem hv)
    rw [hlast'] at hstays
    obtain ⟨node, hnode, hget⟩ := mem_outputPairs.mp (lastOf_mem hstays)
    obtain ⟨hnode, hstay⟩ := hkept.mp hnode
    refine hnot (hdummy x.1 node hnode (hstay.resolve_left hnot) ?_)
    exact List.ne_nil_of_mem (List.mem_of_getElem? hget)
  · rintro ⟨hcovered, hdummy⟩
    refine ⟨hindex', ?_, hdummies'⟩
    funext v
    rw [hkeep, hout, hlast]
    · refine (lastOf_filter fun x hx => ?_).symm
      have hvis := (hvisited x.1).mpr (hcovered v x (by rw [hlast]; exact hx))
      obtain ⟨node, hnode, -⟩ := mem_outputPairs.mp (lastOf_mem hx)
      rw [Bool.not_eq_true', ← Bool.not_eq_true, hgone hnode]
      exact fun hgone => hgone.1 hvis
    · intro id node hnode hv
      obtain ⟨hnode, hid | hd⟩ := hkept.mp hnode
      · exact hid
      · exact (hvisited id).mpr (hdummy id node hnode hd (List.ne_nil_of_mem hv))

/-! ### Runs -/

/-- When an operation keeps the maps and the graph inputs and outputs right. -/
def Sound (st : GraphState) : GraphOp → Prop
  | .replaceOp id op => ∀ node, st.graph.node? id = some node →
      (id ∈ st.graph.inputs → ∃ v, (op = .input v ∨ op = .sessionState v) ∧ node.outputs = [v]) ∧
      (id ∈ st.graph.outputs → ∃ v, op = .output v ∧ node.inputs = [some v])
  | .setNodeInput id index value => id ∈ st.graph.outputs →
      index = 0 ∧ (st.graph.node? id).map Node.op = some (.output value)
  | .dropNodeInput id _ => id ∉ st.graph.outputs
  | .updateDeletedNodes => Covered st
  | _ => True

theorem apply_consistent (op : GraphOp) (h : Consistent st) (hok : op.apply st = .ok st') :
    Consistent st' ↔ Sound st op := by
  cases op with
  | registerNewValue name ty =>
      obtain rfl := Except.ok.inj hok
      exact iff_of_true (h.of_nodes rfl rfl rfl rfl) trivial
  | registerNewNode node hnew =>
      obtain rfl := Except.ok.inj hok
      exact iff_of_true (registerNewNode_consistent h hnew) trivial
  | registerNewTensor tensor name =>
      obtain rfl := Except.ok.inj hok
      exact iff_of_true (h.of_nodes rfl rfl rfl rfl) trivial
  | replaceInputValueIf old new pred =>
      obtain ⟨oldTy, -, hok⟩ := orPanic_bind_eq_ok hok
      obtain ⟨newTy, -, hok⟩ := orPanic_bind_eq_ok hok
      split at hok
      · cases hok
      · exact iff_of_true (replaceInputValue_consistent h hok) trivial
  | replaceInputValueIfWithoutTypecheck old new pred =>
      exact iff_of_true (replaceInputValue_consistent h hok) trivial
  | replaceOp id op => exact replaceOp_consistent h hok
  | replaceTensorType v ty =>
      obtain ⟨info, -, rfl⟩ := orPanic_map_eq_ok hok
      exact iff_of_true (h.of_nodes rfl rfl rfl rfl) trivial
  | replaceTensor v tensor =>
      change Except.map _ (st.replaceTensorType v tensor.tensorType) = _ at hok
      cases hty : st.replaceTensorType v tensor.tensorType with
      | error e => rw [hty] at hok; cases hok
      | ok st₁ =>
          rw [hty] at hok
          obtain ⟨info, -, rfl⟩ := orPanic_map_eq_ok hty
          obtain rfl := Except.ok.inj hok
          exact iff_of_true (h.of_nodes rfl rfl rfl rfl) trivial
  | setNodeInput id index value => exact setNodeInput_consistent h hok
  | dropNodeInput id index => exact dropNodeInput_consistent h hok
  | updateDeletedNodes => exact updateDeletedNodes_consistent h hok

theorem new_consistent (hg : Dummies g) : Consistent (GraphState.new g) := by
  obtain ⟨hindex, hlast⟩ := calcValue2xx_spec g
  exact consistent_iff.mpr ⟨hindex, hlast, hg⟩

theorem run_append (ops : List GraphOp) (op : GraphOp) :
    st.run (ops ++ [op]) = (st.run ops).bind op.apply := by
  rw [GraphState.run, List.foldlM_append]
  show (st.run ops).bind _ = _
  cases st.run ops with
  | error e => rfl
  | ok st₁ =>
      show (op.apply st₁).bind _ = op.apply st₁
      cases op.apply st₁ <;> rfl

theorem run_concat_eq_ok {ops : List GraphOp} {op : GraphOp} (h : st.run (ops ++ [op]) = .ok st') :
    ∃ st₁, st.run ops = .ok st₁ ∧ op.apply st₁ = .ok st' := by
  rw [run_append] at h
  cases hst₁ : st.run ops with
  | error e => rw [hst₁] at h; cases h
  | ok st₁ =>
      rw [hst₁] at h
      exact ⟨st₁, rfl, h⟩

/-- The maps are right after every operation of a sequence if and only if every operation of it is
sound where it is applied. -/
theorem maps_consistent_iff (g : Graph) (hg : Dummies g) (ops : List GraphOp) :
    (∀ done rest, ops = done ++ rest → ∀ st, (GraphState.new g).run done = .ok st → Consistent st) ↔
      ∀ done op rest, ops = done ++ op :: rest → ∀ st st', (GraphState.new g).run done = .ok st →
        op.apply st = .ok st' → Sound st op := by
  constructor
  · intro hall done op rest hops st st' hst hst'
    have hrun : (GraphState.new g).run (done ++ [op]) = .ok st' := by
      rw [run_append, hst]
      exact hst'
    have hbefore := hall done (op :: rest) hops st hst
    have hafter := hall (done ++ [op]) rest (by rw [hops, List.append_cons]) st' hrun
    exact (apply_consistent op hbefore hst').mp hafter
  · intro hsound done
    -- on the operations that are done, from the end
    induction done using List.reverseRecOn with
    | nil =>
        intro rest _ st hst
        obtain rfl := Except.ok.inj hst
        exact new_consistent hg
    | append_singleton done op ih =>
        intro rest hops st' hst'
        obtain ⟨st, hst, happly⟩ := run_concat_eq_ok hst'
        rw [← List.append_cons] at hops
        have hbefore := ih (op :: rest) hops st hst
        exact (apply_consistent op hbefore happly).mpr (hsound done op rest hops st st' hst happly)

/-- The input 0 is the output; node 2 reads it too, but nothing uses what node 2 defines. -/
def unusedGraph : Graph where
  nodes :=
    [{ inputs := [], outputs := [0], name := "x", op := .input 0, markAsDeleted := false },
      { inputs := [some 0], outputs := [], name := "y", op := .output 0, markAsDeleted := false },
      { inputs := [some 0], outputs := [1], name := "relu", op := .reLU, markAsDeleted := false }]
  inputs := [0]
  outputs := [1]
  values := []
  initializer := fun _ => none
  externalRefs := fun _ => none

theorem unusedGraph_dummies : Dummies unusedGraph where
  inputs id hid := by
    obtain rfl := List.mem_singleton.mp hid
    exact ⟨_, 0, rfl, .inl rfl, rfl⟩
  outputs id hid := by
    obtain rfl := List.mem_singleton.mp hid
    exact ⟨_, 0, rfl, rfl, rfl⟩

/-- The node that is deleted still has its definition. -/
theorem unusedGraph_inconsistent : Dummies unusedGraph ∧
    ∃ st, (GraphState.new unusedGraph).run [.updateDeletedNodes] = .ok st ∧
      st.maps.value2defined 1 = some (2, 0) ∧ st.graph.node? 2 = none ∧ ¬ Consistent st := by
  refine ⟨unusedGraph_dummies, _, rfl, rfl, rfl, fun h => ?_⟩
  have hlive := h.definedLive 1 (2, 0) rfl
  cases hlive

/-- The input is the output, and there is nothing else. -/
def usedGraph : Graph := { unusedGraph with nodes := unusedGraph.nodes.take 2 }

theorem usedGraph_dummies : Dummies usedGraph where
  inputs id hid := by
    obtain rfl := List.mem_singleton.mp hid
    exact ⟨_, 0, rfl, .inl rfl, rfl⟩
  outputs id hid := by
    obtain rfl := List.mem_singleton.mp hid
    exact ⟨_, 0, rfl, rfl, rfl⟩

theorem usedGraph_consistent : Dummies usedGraph ∧
    ∀ done rest, [GraphOp.updateDeletedNodes] = done ++ rest →
      ∀ st, (GraphState.new usedGraph).run done = .ok st → Consistent st := by
  refine ⟨usedGraph_dummies, (maps_consistent_iff usedGraph usedGraph_dummies _).mpr ?_⟩
  intro done op rest hops st st' hst _
  obtain ⟨rfl, rfl, rfl⟩ : done = [] ∧ op = .updateDeletedNodes ∧ rest = [] := by
    cases done with
    | nil => cases hops; exact ⟨rfl, rfl, rfl⟩
    | cons d done => cases done <;> cases hops
  obtain rfl := Except.ok.inj hst
  -- the output reaches both nodes
  have hreach : ∀ id node, usedGraph.node? id = some node →
      Reached ((GraphState.new usedGraph).maps.usedNodes usedGraph) usedGraph.outputs id := by
    intro id node hnode
    have hlt : id < 2 := (List.getElem?_eq_some_iff.mp (node?_eq_some.mp hnode).1).1
    refine ⟨1, List.mem_singleton.mpr rfl, ?_⟩
    interval_cases id
    · exact .single ⟨[0], rfl, List.mem_singleton.mpr rfl⟩
    · exact .refl
  constructor
  · intro v x hx
    have hlive := (new_consistent usedGraph_dummies).definedLive v x hx
    obtain ⟨node, hnode⟩ := Option.isSome_iff_exists.mp hlive
    exact hreach x.1 node hnode
  · exact fun id node hnode _ _ => hreach id node hnode

end NnEngine
