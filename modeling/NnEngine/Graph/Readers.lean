import NnEngine.Transform.Pattern

/-!
# The nodes of a graph under a rewriting

A node by its operator, its operands and its outputs.  A replacement puts the new value in the place of the old one
in every operand, and leaves no reader of the old one; values and nodes that are added change nothing.
-/

namespace NnEngine

open DepthFirst InverseIndex SimpleGraphOp GraphState

variable {g g' : Graph} {st st' : GraphState} {id : NodeId} {node : Node} {v old new : ValueId} {op : Operator}
  {ins : List (Option ValueId)} {outs : List ValueId}

/-- A node of this operator that reads these values and defines those. -/
def Graph.Has (g : Graph) (id : NodeId) (op : Operator) (ins : List (Option ValueId)) (outs : List ValueId) : Prop :=
  ∃ node, g.node? id = some node ∧ node.op = op ∧ node.inputs = ins ∧ node.outputs = outs

theorem Graph.Has.pair (h : g.Has id op ins outs) {k : ℕ} (hk : ins[k]? = some (some v)) :
    (v, id, k) ∈ inputPairs g := by
  obtain ⟨node, hnode, -, hins, -⟩ := h
  exact ⟨node, hnode, by rw [hins, hk]⟩

theorem Graph.Has.unique {op' : Operator} {ins' : List (Option ValueId)} {outs' : List ValueId}
    (h : g.Has id op ins outs) (h' : g.Has id op' ins' outs') : op = op' ∧ ins = ins' ∧ outs = outs' := by
  obtain ⟨node, hnode, hop, hins, houts⟩ := h
  obtain ⟨node', hnode', hop', hins', houts'⟩ := h'
  obtain rfl := Option.some.inj (hnode.symm.trans hnode')
  exact ⟨hop.symm.trans hop', hins.symm.trans hins', houts.symm.trans houts'⟩

/-! ### Replacements -/

theorem replaceAt_node?_isSome {x : Place} (h : replaceAt old new g x = .ok g') (id : NodeId) :
    (g'.node? id).isSome = (g.node? id).isSome ∧ g'.nodes.length = g.nodes.length := by
  obtain ⟨node, op, hnode, -, -, rfl⟩ := replaceAt_eq_ok h
  have hlive := (node?_eq_some.mp hnode).2
  refine ⟨?_, by simp [Graph.setNode]⟩
  rw [node?_setNode hnode]
  by_cases hid : id = x.1
  · rw [if_pos hid, if_neg (by simp [hlive]), hid, hnode]
    rfl
  · rw [if_neg hid]

theorem replaceAll_node?_isSome : ∀ (l : List Place) (g : Graph), l.foldlM (replaceAt old new) g = .ok g' →
    ∀ id, (g'.node? id).isSome = (g.node? id).isSome ∧ g'.nodes.length = g.nodes.length := by
  intro l
  induction l with
  | nil =>
      intro g h id
      obtain rfl := Except.ok.inj h
      exact ⟨rfl, rfl⟩
  | cons x l ih =>
      intro g h id
      rw [List.foldlM_cons, do_eq_ok] at h
      obtain ⟨g₁, hone, h⟩ := h
      obtain ⟨hsome, hlen⟩ := replaceAt_node?_isSome hone id
      obtain ⟨hsome', hlen'⟩ := ih g₁ h id
      exact ⟨hsome'.trans hsome, hlen'.trans hlen⟩

/-- The operands after a replacement, and the nodes. -/
theorem replaceInputValueIf_pairs (h : Consistent st)
    (hok : st.replaceInputValueIf old new (fun _ _ => true) = .ok st') :
    (∀ v x, (v, x) ∈ inputPairs st'.graph ↔ ∃ u, (u, x) ∈ inputPairs st.graph ∧ v = moved old new u) ∧
      (∀ id, (st'.graph.node? id).isSome = (st.graph.node? id).isSome) ∧
      st'.graph.nodes.length = st.graph.nodes.length := by
  obtain ⟨hindex, -, -⟩ := consistent_iff.mp h
  obtain ⟨oldTy, -, hok⟩ := orPanic_bind_eq_ok hok
  obtain ⟨newTy, -, hok⟩ := orPanic_bind_eq_ok hok
  have hmem : ∀ x, x ∈ places st.maps.value2used old ↔ (old, x) ∈ inputPairs st.graph :=
    fun x => hindex.mem old x
  split at hok
  · cases hok
  · unfold GraphState.replaceInputValueIfWithoutTypecheck at hok
    rw [changed_all h] at hok
    change (if (places st.maps.value2used old).isEmpty then _ else _) = _ at hok
    split at hok
    · rename_i hempty
      obtain rfl := Except.ok.inj hok
      refine ⟨fun v x => ⟨fun hv => ⟨v, hv, ?_⟩, ?_⟩, fun _ => rfl, rfl⟩
      · -- nothing reads the old value
        rw [moved, if_neg]
        rintro rfl
        have hplace := (hmem x).mpr hv
        rw [List.isEmpty_iff.mp hempty] at hplace
        cases hplace
      · rintro ⟨u, hu, rfl⟩
        rw [moved, if_neg]
        · exact hu
        · rintro rfl
          have hplace := (hmem x).mpr hu
          rw [List.isEmpty_iff.mp hempty] at hplace
          cases hplace
    · obtain ⟨graph, hgraph, rfl⟩ := map_eq_ok.mp hok
      obtain ⟨hin, -, -⟩ := replaceAll_spec _ st.graph (hindex.nodup old) (fun x hx => (hmem x).mp hx) hgraph
      refine ⟨fun v x => ?_, fun id => (replaceAll_node?_isSome _ _ hgraph id).1,
        (replaceAll_node?_isSome _ _ hgraph 0).2⟩
      show (v, x) ∈ inputPairs graph ↔ _
      rw [hin]
      constructor
      · rintro (⟨hv, hx⟩ | ⟨hv, hx⟩)
        · refine ⟨v, hv, ?_⟩
          rw [moved, if_neg]
          rintro rfl
          exact hx ((hmem x).mpr hv)
        · exact ⟨old, (hmem x).mp hx, by rw [moved, if_pos rfl]; exact hv⟩
      · rintro ⟨u, hu, rfl⟩
        unfold moved
        split
        · rename_i huold
          exact .inr ⟨rfl, (hmem x).mpr (huold ▸ hu)⟩
        · rename_i huold
          exact .inl ⟨hu, fun hx => huold (inputPairs_unique hu ((hmem x).mp hx))⟩

/-- A replacement in the operands of a node. -/
theorem Graph.Has.replace (hst : Consistent st) (hok : st.replaceInputValueIf old new (fun _ _ => true) = .ok st')
    (h : st.graph.Has id op ins outs) (hop : ∀ v, op ≠ .output v) :
    st'.graph.Has id op (ins.map (Option.map (moved old new))) outs := by
  obtain ⟨hpairs, -, -⟩ := replaceInputValueIf_pairs hst hok
  obtain ⟨-, hrewired, -⟩ := replaceInputValueIf_spec hst hok
  obtain ⟨node, hnode, rfl, rfl, rfl⟩ := h
  obtain ⟨node', hnode', houts, hlen, hop'⟩ := hrewired.nodes id node hnode
  refine ⟨node', hnode', hop'.resolve_right fun ⟨v, _, hv, _⟩ => hop v hv, ?_, houts⟩
  have hread : ∀ (k : ℕ) (v : ValueId), node'.inputs[k]? = some (some v) ↔
      ∃ u, node.inputs[k]? = some (some u) ∧ v = moved old new u := by
    intro k v
    have hiff := hpairs v (id, k)
    constructor
    · intro hget
      obtain ⟨u, ⟨node₁, hnode₁, hu⟩, hv⟩ := hiff.mp ⟨node', hnode', hget⟩
      obtain rfl := Option.some.inj (hnode.symm.trans hnode₁)
      exact ⟨u, hu, hv⟩
    · rintro ⟨u, hu, hv⟩
      obtain ⟨node₁, hnode₁, hget⟩ := hiff.mpr ⟨u, ⟨node, hnode, hu⟩, hv⟩
      obtain rfl := Option.some.inj (hnode'.symm.trans hnode₁)
      exact hget
  apply List.ext_getElem?
  intro k
  rw [List.getElem?_map]
  cases hget : node.inputs[k]? with
  | none =>
      rw [List.getElem?_eq_none_iff] at hget
      simpa using hlen.trans_le hget
  | some slot =>
      have hlt : k < node'.inputs.length := by
        rw [hlen]
        exact (List.getElem?_eq_some_iff.mp hget).1
      cases slot with
      | some u => exact (hread k _).mpr ⟨u, hget, rfl⟩
      | none =>
          rw [List.getElem?_eq_getElem hlt]
          cases hslot : node'.inputs[k] with
          | none => rfl
          | some v =>
              obtain ⟨u, hu, -⟩ := (hread k v).mp (by rw [List.getElem?_eq_getElem hlt, hslot])
              rw [hget] at hu
              cases hu

/-! ### Additions -/

theorem Graph.Has.registerNewNode (h : st.graph.Has id op ins outs) (hnew : node.markAsDeleted = false) :
    (st.registerNewNode node).graph.Has id op ins outs := by
  obtain ⟨node', hnode', h⟩ := h
  exact ⟨node', node?_registerNewNode_of_some hnew hnode', h⟩

theorem has_registerNewNode (st : GraphState) (hnew : node.markAsDeleted = false) :
    (st.registerNewNode node).graph.Has st.graph.nodes.length node.op node.inputs node.outputs :=
  ⟨node, by rw [node?_registerNewNode st hnew, if_pos rfl], rfl, rfl, rfl⟩

/-! ### Replacements by a node -/

/-- What `replace_by_node` makes of a graph. -/
structure ReplacedBy (st st' : GraphState) (old : ValueId) (ins : List (Option ValueId)) (op : Operator) : Prop where
  carries : CarriesOutputs st'.graph
  nodesLength : st'.graph.nodes.length = st.graph.nodes.length + 1
  node : st'.graph.Has st.graph.nodes.length op (ins.map (Option.map (moved old st.graph.values.length)))
    [st.graph.values.length]
  has : ∀ id op' ins' outs', st.graph.Has id op' ins' outs' → (∀ v, op' ≠ .output v) →
    st'.graph.Has id op' (ins'.map (Option.map (moved old st.graph.values.length))) outs'
  pairs : ∀ v x, (v, x) ∈ inputPairs st'.graph ↔ ∃ u, ((u, x) ∈ inputPairs st.graph ∨
    x.1 = st.graph.nodes.length ∧ ins[x.2]? = some (some u)) ∧ v = moved old st.graph.values.length u
  old : ∀ id op' ins' outs', id ≠ st.graph.nodes.length → st'.graph.Has id op' ins' outs' →
    (∀ v, op' ≠ .output v) → ∃ ins'', st.graph.Has id op' ins'' outs'
  length : st'.graph.values.length = st.graph.values.length + 1

theorem replaceByNode_replaced {valueName nodeName : String} {ty : ResolvedTensorType} (hst : Consistent st)
    (hcarries : CarriesOutputs st.graph) (hty : st.graph.getResolvedTensorType old = some ty)
    (hop : ∀ v, op ≠ .output v) :
    ∃ st', st.replaceByNode old valueName nodeName ins op = .ok st' ∧ ReplacedBy st st' old ins op := by
  obtain ⟨st', hok, hcarries'⟩ := @replaceByNode_ok st old ty valueName nodeName ins op hst hcarries hop hty
  refine ⟨st', hok, ?_⟩
  obtain ⟨ty', -, hok⟩ := orPanic_bind_eq_ok hok
  have hcons : Consistent (st.registerOutput valueName ty' nodeName ins op).2 := registerOutput_consistent hst
  have hlive : (⟨ins, [st.graph.values.length], nodeName, op, false⟩ : Node).markAsDeleted = false := rfl
  obtain ⟨hpairs, hsome, hlen⟩ := replaceInputValueIf_pairs hcons hok
  obtain ⟨-, hrewired, -⟩ := replaceInputValueIf_spec hcons hok
  have hin := inputPairs_registerNewNode (st.registerNewValue valueName ty').2 hlive
  have hnode := node?_registerNewNode (st.registerNewValue valueName ty').2 hlive
  exact {
    carries := hcarries'
    nodesLength := by
      rw [hlen]
      show (st.graph.nodes ++ [_]).length = _
      simp
    node := (has_registerNewNode (st.registerNewValue valueName ty').2 hlive).replace hcons hok hop
    has := fun id op' ins' outs' h hop' => by
      have hreg : (st.registerNewValue valueName ty').2.graph.Has id op' ins' outs' := h
      exact (hreg.registerNewNode hlive).replace hcons hok hop'
    pairs := fun v x => by
      rw [hpairs]
      show (∃ u, (u, x) ∈ inputPairs ((st.registerNewValue valueName ty').2.registerNewNode _).graph ∧ _) ↔ _
      rw [hin]
      simp only [Set.mem_union, Set.mem_ofPred_eq, mem_inputPlaces]
      rfl
    old := fun id op' ins' outs' hid h hop' => by
      obtain ⟨node', hnode', rfl, -, rfl⟩ := h
      have hlive' : ((st.registerOutput valueName ty' nodeName ins op).2.graph.node? id).isSome := by
        rw [← hsome, hnode']
        rfl
      obtain ⟨node, hnode₁⟩ := Option.isSome_iff_exists.mp hlive'
      obtain ⟨node₁, heq, houts, -, hsame⟩ := hrewired.nodes id node hnode₁
      obtain rfl := Option.some.inj (hnode'.symm.trans heq)
      have hold := (hnode id).trans (if_neg hid)
      refine ⟨node.inputs, node, hold.symm.trans hnode₁, ?_, rfl, houts.symm⟩
      exact (hsame.resolve_right fun ⟨_, w, _, hw⟩ => hop' w hw).symm
    length := by
      rw [hrewired.values]
      exact registerOutput_length }

end NnEngine
