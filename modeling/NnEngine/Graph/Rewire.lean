import NnEngine.Graph.Consistency

/-!
# Rewiring a graph

What `replace_input_value` leaves of a graph: the values, the outputs of the nodes, and the operators
of all nodes but the outputs.  Every place that read the old value reads the new one.  A graph that is
`Extended` may have more values and nodes besides.
-/

namespace NnEngine

open DepthFirst InverseIndex SimpleGraphOp GraphState

variable {g g' g'' : Graph} {st st' : GraphState} {id : NodeId} {node : Node} {v old new : ValueId}

/-- A graph whose inputs only have been changed. -/
structure Rewired (g g' : Graph) : Prop where
  values : g'.values = g.values
  outputs : outputPairs g' = outputPairs g
  nodes : ∀ id node, g.node? id = some node → ∃ node', g'.node? id = some node' ∧
    node'.outputs = node.outputs ∧ node'.inputs.length = node.inputs.length ∧
      (node'.op = node.op ∨ ∃ v w, node.op = .output v ∧ node'.op = .output w)

theorem Rewired.refl (g : Graph) : Rewired g g :=
  ⟨rfl, rfl, fun _ node h => ⟨node, h, rfl, rfl, .inl rfl⟩⟩

theorem Rewired.trans (h : Rewired g g') (h' : Rewired g' g'') : Rewired g g'' where
  values := h'.values.trans h.values
  outputs := h'.outputs.trans h.outputs
  nodes := by
    intro id node hnode
    obtain ⟨node', hnode', houts, hlen, hop⟩ := h.nodes id node hnode
    obtain ⟨node'', hnode'', houts', hlen', hop'⟩ := h'.nodes id node' hnode'
    refine ⟨node'', hnode'', houts'.trans houts, hlen'.trans hlen, ?_⟩
    rcases hop with hop | ⟨v, w, hv, hw⟩
    · rw [← hop]
      exact hop'
    · rcases hop' with hop' | ⟨v', w', -, hw'⟩
      · exact .inr ⟨v, w, hv, hop'.trans hw⟩
      · exact .inr ⟨v, w', hv, hw'⟩

theorem Rewired.type (h : Rewired g g') (v : ValueId) :
    g'.getResolvedTensorType v = g.getResolvedTensorType v := by
  unfold Graph.getResolvedTensorType
  rw [h.values]

theorem replaceAt_rewired {x : Place} (h : replaceAt old new g x = .ok g') : Rewired g g' := by
  have hout := (replaceAt_spec h).2
  obtain ⟨node, op, hnode, hlt, hop, rfl⟩ := replaceAt_eq_ok h
  have hlive := (node?_eq_some.mp hnode).2
  refine ⟨rfl, hout, fun id node' hnode' => ?_⟩
  rw [node?_setNode hnode]
  by_cases hid : id = x.1
  · subst hid
    obtain rfl := Option.some.inj (hnode.symm.trans hnode')
    rw [if_pos rfl, if_neg (by simp [hlive])]
    refine ⟨_, rfl, rfl, List.length_set, ?_⟩
    rcases hop with ⟨hold, hnew⟩ | ⟨-, hsame⟩
    · exact .inr ⟨old, new, hold, hnew⟩
    · exact .inl hsame
  · rw [if_neg hid]
    exact ⟨node', hnode', rfl, rfl, .inl rfl⟩

theorem replaceAll_rewired : ∀ (l : List Place) (g : Graph),
    l.foldlM (replaceAt old new) g = .ok g' → Rewired g g' := by
  intro l
  induction l with
  | nil =>
      intro g h
      obtain rfl := Except.ok.inj h
      exact .refl g
  | cons x l ih =>
      intro g h
      rw [List.foldlM_cons] at h
      cases hone : replaceAt old new g x with
      | error e => rw [hone] at h; cases h
      | ok g₁ =>
          rw [hone] at h
          exact (replaceAt_rewired hone).trans (ih g₁ h)

/-- The value that a place reads after a replacement. -/
def moved (old new v : ValueId) : ValueId := if v = old then new else v

/-- The users of a value, all of which are replaced. -/
theorem changed_all (h : Consistent st) :
    st.changed old (fun _ _ => true) = .ok (places st.maps.value2used old) := by
  unfold GraphState.changed
  have hall : ∀ x ∈ places st.maps.value2used old, (st.graph.node? x.1).isSome = true :=
    fun x hx => h.usedLive old x hx
  dsimp only
  rw [if_pos (List.all_eq_true.mpr hall), List.filter_eq_self.mpr]
  intro x hx
  obtain ⟨node, hnode⟩ := Option.isSome_iff_exists.mp (hall x hx)
  rw [hnode]
  rfl

/-- Every place that read the old value reads the new one. -/
theorem replaceInputValue_spec (h : Consistent st)
    (hok : st.replaceInputValueIfWithoutTypecheck old new (fun _ _ => true) = .ok st') :
    Rewired st.graph st'.graph ∧
      ∀ v x, (v, x) ∈ inputPairs st.graph → (moved old new v, x) ∈ inputPairs st'.graph := by
  obtain ⟨hindex, -, -⟩ := consistent_iff.mp h
  unfold GraphState.replaceInputValueIfWithoutTypecheck at hok
  rw [changed_all h] at hok
  change (if (places st.maps.value2used old).isEmpty then _ else _) = _ at hok
  have hmem : ∀ x, x ∈ places st.maps.value2used old ↔ (old, x) ∈ inputPairs st.graph :=
    fun x => hindex.mem old x
  split at hok
  · rename_i hempty
    obtain rfl := Except.ok.inj hok
    refine ⟨.refl _, fun v x hv => ?_⟩
    have hne : v ≠ old := by
      rintro rfl
      have := (hmem x).mpr hv
      rw [List.isEmpty_iff.mp hempty] at this
      cases this
    rw [moved, if_neg hne]
    exact hv
  · obtain ⟨graph, hgraph, hst'⟩ : ∃ graph,
        (places st.maps.value2used old).foldlM (GraphState.replaceAt old new) st.graph = .ok graph ∧
          st'.graph = graph := by
      cases hfold : (places st.maps.value2used old).foldlM (GraphState.replaceAt old new) st.graph with
      | error e => rw [hfold] at hok; cases hok
      | ok graph =>
          rw [hfold] at hok
          exact ⟨graph, rfl, (congrArg GraphState.graph (Except.ok.inj hok)).symm⟩
    obtain ⟨hin, -, -⟩ := replaceAll_spec _ st.graph (hindex.nodup old)
      (fun x hx => (hmem x).mp hx) hgraph
    rw [hst']
    refine ⟨replaceAll_rewired _ _ hgraph, fun v x hv => ?_⟩
    rw [hin]
    unfold moved
    by_cases hvold : v = old
    · subst hvold
      rw [if_pos rfl]
      exact .inr ⟨rfl, (hmem x).mpr hv⟩
    · rw [if_neg hvold]
      exact .inl ⟨hv, fun hx => hvold (inputPairs_unique hv ((hmem x).mp hx))⟩

/-- The same with the check of the types. -/
theorem replaceInputValueIf_spec (h : Consistent st)
    (hok : st.replaceInputValueIf old new (fun _ _ => true) = .ok st') :
    Consistent st' ∧ Rewired st.graph st'.graph ∧
      (∀ v x, (v, x) ∈ inputPairs st.graph → (moved old new v, x) ∈ inputPairs st'.graph) ∧
      ∃ ty, st.graph.getResolvedTensorType old = some ty ∧
        st.graph.getResolvedTensorType new = some ty := by
  obtain ⟨oldTy, hold, hok⟩ := orPanic_bind_eq_ok hok
  obtain ⟨newTy, hnew, hok⟩ := orPanic_bind_eq_ok hok
  split at hok
  · cases hok
  · rename_i hty
    rw [not_not] at hty
    subst hty
    obtain ⟨hrewired, hpairs⟩ := replaceInputValue_spec h hok
    exact ⟨replaceInputValue_consistent h hok, hrewired, hpairs, oldTy, hold, hnew⟩

/-! ### When a replacement panics -/

/-- An output node has the value that it carries as its input. -/
def CarriesOutputs (g : Graph) : Prop :=
  ∀ id node v, g.node? id = some node → node.op = .output v → node.inputs = [some v]

theorem replaceAt_ok (hg : CarriesOutputs g) {x : Place} (hx : (old, x) ∈ inputPairs g) :
    ∃ g', replaceAt old new g x = .ok g' ∧ CarriesOutputs g' := by
  obtain ⟨node, hnode, hget⟩ := hx
  have hlt : x.2 < node.inputs.length := (List.getElem?_eq_some_iff.mp hget).1
  have hlive := (node?_eq_some.mp hnode).2
  -- the operator that the node gets
  obtain ⟨op, hop, hcarry⟩ : ∃ op, replaceAt old new g x =
      .ok (g.setNode x.1 { node with op, inputs := node.inputs.set x.2 (some new) }) ∧
        ∀ v, op = .output v → node.inputs.set x.2 (some new) = [some v] := by
    unfold GraphState.replaceAt
    rw [hnode, orPanic_some_bind]
    by_cases hout : ∃ v, node.op = .output v
    · obtain ⟨v, hv⟩ := hout
      have hins := hg x.1 node v hnode hv
      have hzero : x.2 = 0 := by
        rw [hins, List.length_singleton] at hlt
        omega
      rw [hins, hzero] at hget
      obtain rfl : v = old := Option.some.inj (Option.some.inj hget)
      refine ⟨.output new, ?_, fun w hw => ?_⟩
      · rw [hv]
        simp only [if_true, Except.bind]
        exact if_neg (Nat.not_le_of_lt hlt)
      · obtain rfl := Operator.output.inj hw
        rw [hins, hzero]
        rfl
    · refine ⟨node.op, ?_, fun v hv => absurd ⟨v, hv⟩ hout⟩
      dsimp only
      split
      · rename_i v hv
        exact absurd ⟨v, hv⟩ hout
      · exact if_neg (Nat.not_le_of_lt hlt)
  refine ⟨_, hop, fun id node' v hnode' hv => ?_⟩
  rw [node?_setNode hnode] at hnode'
  split at hnode'
  · rw [if_neg (by simp [hlive])] at hnode'
    obtain rfl := Option.some.inj hnode'
    exact hcarry v hv
  · exact hg id node' v hnode' hv

theorem replaceAll_ok : ∀ (l : List Place) (g : Graph), CarriesOutputs g → l.Nodup →
    (∀ x ∈ l, (old, x) ∈ inputPairs g) →
      ∃ g', l.foldlM (replaceAt old new) g = .ok g' ∧ CarriesOutputs g' := by
  intro l
  induction l with
  | nil => exact fun g hg _ _ => ⟨g, rfl, hg⟩
  | cons x l ih =>
      intro g hg hnodup hl
      obtain ⟨hx, hnodup⟩ := List.nodup_cons.mp hnodup
      obtain ⟨g₁, hone, hg₁⟩ := replaceAt_ok hg (hl x List.mem_cons_self)
      obtain ⟨hin, -⟩ := replaceAt_spec hone
      obtain ⟨g', hrest, hg'⟩ := ih g₁ hg₁ hnodup fun y hy => by
        rw [hin]
        refine .inl ⟨hl y (List.mem_cons_of_mem x hy), ?_⟩
        rintro rfl
        exact hx hy
      refine ⟨g', ?_, hg'⟩
      rw [List.foldlM_cons, hone]
      exact hrest

/-- A replacement of all uses does not panic. -/
theorem replaceInputValue_ok (h : Consistent st) (hg : CarriesOutputs st.graph) (old new : ValueId) :
    ∃ st', st.replaceInputValueIfWithoutTypecheck old new (fun _ _ => true) = .ok st' ∧
      CarriesOutputs st'.graph := by
  obtain ⟨hindex, -, -⟩ := consistent_iff.mp h
  unfold GraphState.replaceInputValueIfWithoutTypecheck
  rw [changed_all h]
  show ∃ st', (if (places st.maps.value2used old).isEmpty then _ else _) = _ ∧ _
  split
  · exact ⟨st, rfl, hg⟩
  · obtain ⟨g', hfold, hg'⟩ := replaceAll_ok _ st.graph hg (hindex.nodup old)
      fun x hx => (hindex.mem old x).mp hx
    rw [hfold]
    exact ⟨_, rfl, hg'⟩

/-! ### More values and nodes -/

/-- A graph to which values and nodes have been added, and whose inputs have been changed. -/
structure Extended (g g' : Graph) : Prop where
  length : g.values.length ≤ g'.values.length
  values : ∀ v < g.values.length, g'.values[v]? = g.values[v]?
  outputs : ∃ rest, outputPairs g' = outputPairs g ++ rest ∧ ∀ p ∈ rest, g.values.length ≤ p.1
  nodes : ∀ id node, g.node? id = some node → ∃ node', g'.node? id = some node' ∧
    node'.outputs = node.outputs ∧ node'.inputs.length = node.inputs.length ∧
      (node'.op = node.op ∨ ∃ v w, node.op = .output v ∧ node'.op = .output w)

theorem Rewired.extended (h : Rewired g g') : Extended g g' where
  length := by rw [h.values]
  values v _ := by rw [h.values]
  outputs := ⟨[], by rw [h.outputs, List.append_nil], nofun⟩
  nodes := h.nodes

theorem Extended.trans (h : Extended g g') (h' : Extended g' g'') : Extended g g'' where
  length := Nat.le_trans h.length h'.length
  values v hv := (h'.values v (Nat.lt_of_lt_of_le hv h.length)).trans (h.values v hv)
  outputs := by
    obtain ⟨rest, hrest, hnew⟩ := h.outputs
    obtain ⟨rest', hrest', hnew'⟩ := h'.outputs
    refine ⟨rest ++ rest', by rw [hrest', hrest, List.append_assoc], fun p hp => ?_⟩
    rcases List.mem_append.mp hp with hp | hp
    · exact hnew p hp
    · exact Nat.le_trans h.length (hnew' p hp)
  nodes := by
    intro id node hnode
    obtain ⟨node', hnode', houts, hlen, hop⟩ := h.nodes id node hnode
    obtain ⟨node'', hnode'', houts', hlen', hop'⟩ := h'.nodes id node' hnode'
    refine ⟨node'', hnode'', houts'.trans houts, hlen'.trans hlen, ?_⟩
    rcases hop with hop | ⟨v, w, hv, hw⟩
    · rw [← hop]
      exact hop'
    · rcases hop' with hop' | ⟨v', w', -, hw'⟩
      · exact .inr ⟨v, w, hv, hop'.trans hw⟩
      · exact .inr ⟨v, w', hv, hw'⟩

theorem Extended.type (h : Extended g g') (hv : v < g.values.length) :
    g'.getResolvedTensorType v = g.getResolvedTensorType v := by
  unfold Graph.getResolvedTensorType
  rw [h.values v hv]

theorem registerNewValue_extended (st : GraphState) (name : String) (ty : ResolvedTensorType) :
    Extended st.graph (st.registerNewValue name ty).2.graph where
  length := by
    show _ ≤ (st.graph.values ++ [_]).length
    rw [List.length_append]
    exact Nat.le_add_right _ _
  values v hv := List.getElem?_append_left hv
  outputs := ⟨[], (List.append_nil _).symm, nofun⟩
  nodes _ node h := ⟨node, h, rfl, rfl, .inl rfl⟩

theorem registerNewValue_type (st : GraphState) (name : String) (ty : ResolvedTensorType) :
    (st.registerNewValue name ty).2.graph.getResolvedTensorType st.graph.values.length = some ty := by
  unfold registerNewValue Graph.getResolvedTensorType
  dsimp only
  rw [List.getElem?_concat_length]
  rfl

theorem registerNewNode_extended {g : Graph} (st : GraphState) (hnew : node.markAsDeleted = false)
    (h : Extended g st.graph) (hout : ∀ v ∈ node.outputs, g.values.length ≤ v) :
    Extended g (st.registerNewNode node).graph where
  length := h.length
  values := h.values
  outputs := by
    obtain ⟨rest, hrest, hge⟩ := h.outputs
    refine ⟨rest ++ outputPlaces st.graph.nodes.length node, ?_, fun p hp => ?_⟩
    · rw [outputPairs_registerNewNode st hnew, hrest, List.append_assoc]
    · rcases List.mem_append.mp hp with hp | hp
      · exact hge p hp
      · exact hout p.1 (List.mem_of_getElem? (mem_outputPlaces.mp hp).2)
  nodes id node' hnode' := by
    obtain ⟨node'', hnode'', hrest⟩ := h.nodes id node' hnode'
    exact ⟨node'', node?_registerNewNode_of_some hnew hnode'', hrest⟩

end NnEngine
