import NnEngine.Graph.DeadNodes
import NnEngine.Graph.Meaning

/-!
# The pass manager

`SimplePassManager` of `src/transform.rs`: after each pass it removes the nodes that the graph outputs do not
need, and asserts that no axis of extent one has a stride.  A removal does not keep `value2defined` in order, so
the passes find the states that are `Tidy` and no more.  A `Pass` carries the proof that it keeps what the
outputs compute from there, and so does a run of the manager over any passes.
-/

namespace NnEngine

open DepthFirst InverseIndex SimpleGraphOp GraphState

/-- No axis of extent one has a stride. -/
def Graph.unitStrides (g : Graph) : Bool :=
  (List.range g.values.length).all fun v => (g.getResolvedTensorType v).all fun ty =>
    (ty.dims.zip ty.stride).all fun x => x.1 != 1 || x.2 == 0

namespace SimplePassManager

/-- The body of the loop over the passes. -/
def runPass (st : GraphState) (pass : GraphState → Except Stop GraphState) : Except Stop GraphState :=
  (pass st).bind fun st => st.updateDeletedNodes.bind fun st =>
    if st.graph.unitStrides then .ok st else .error .panic

/-- `run`. -/
def run (passes : List (GraphState → Except Stop GraphState)) (st : GraphState) : Except Stop GraphState :=
  passes.foldlM runPass st

end SimplePassManager

/-- A graph with its maps, as a pass finds it. -/
structure Tidy (st : GraphState) : Prop where
  settled : Settled st
  inRange : InRange st.graph

/-- The other graph has the same inputs and outputs, and its outputs read what they read. -/
structure KeepsOutputs {α : Type} (M : Meaning α) (st st' : GraphState) : Prop where
  length : st.graph.values.length ≤ st'.graph.values.length
  inputs : st'.graph.inputs = st.graph.inputs
  outputs : st'.graph.outputs = st.graph.outputs
  carries : ∀ ρ, M.Holds st.graph ρ → ∃ ρ', M.Holds st'.graph ρ' ∧ AgreeOn st.graph ρ ρ' ∧
    ∀ v x, x.1 ∈ st.graph.outputs → (v, x) ∈ inputPairs st.graph → ∃ w, (w, x) ∈ inputPairs st'.graph ∧ ρ' w = ρ v ∧
      ∀ ty, st.graph.getResolvedTensorType v = some ty → st'.graph.getResolvedTensorType w = some ty

/-- A pass that keeps what the outputs compute. -/
structure Pass {α : Type} (M : Meaning α) where
  run : GraphState → Except Stop GraphState
  sound : ∀ {st st'}, Tidy st → run st = .ok st' → Tidy st' ∧ KeepsOutputs M st st'

variable {α : Type} {M : Meaning α} {st st₁ st₂ st' : GraphState} {old new : ValueId} {ρ : ValueId → α}

theorem KeepsOutputs.refl (M : Meaning α) (st : GraphState) : KeepsOutputs M st st where
  length := Nat.le_refl _
  inputs := rfl
  outputs := rfl
  carries ρ hρ := ⟨ρ, hρ, fun _ _ => rfl, fun v _ _ hv => ⟨v, hv, rfl, fun _ h => h⟩⟩

theorem KeepsOutputs.trans (h : KeepsOutputs M st st₁) (h' : KeepsOutputs M st₁ st₂) : KeepsOutputs M st st₂ where
  length := Nat.le_trans h.length h'.length
  inputs := h'.inputs.trans h.inputs
  outputs := h'.outputs.trans h.outputs
  carries ρ hρ := by
    obtain ⟨ρ₁, hρ₁, hagree, hreads⟩ := h.carries ρ hρ
    obtain ⟨ρ₂, hρ₂, hagree', hreads'⟩ := h'.carries ρ₁ hρ₁
    refine ⟨ρ₂, hρ₂, fun v hv => ?_, fun v x hx hv => ?_⟩
    · rw [hagree' v (Nat.lt_of_lt_of_le hv h.length)]
      exact hagree v hv
    · obtain ⟨w, hw, hval, hty⟩ := hreads v x hx hv
      obtain ⟨w', hw', hval', hty'⟩ := hreads' w x (h.outputs ▸ hx) hw
      exact ⟨w', hw', hval'.trans hval, fun ty h => hty' ty (hty ty h)⟩

/-! ### Removal -/

/-- What is left has fewer nodes, and all the output nodes. -/
theorem Tidy.updateDeletedNodes (h : Tidy st) (hok : st.updateDeletedNodes = .ok st') :
    Tidy st' ∧ KeepsOutputs M st st' := by
  obtain ⟨visited, hdfs, -⟩ := bind_eq_ok.mp (show Except.bind _ _ = _ from hok)
  obtain ⟨st₁, hst₁, -, hgraph, -, hnode?, -⟩ := updateDeletedNodes_ok h.settled hdfs
  obtain rfl := Except.ok.inj (hst₁.symm.trans hok)
  have hins : st₁.graph.inputs = st.graph.inputs := (congrArg Graph.inputs hgraph :)
  have houts : st₁.graph.outputs = st.graph.outputs := (congrArg Graph.outputs hgraph :)
  have hvals : st₁.graph.values = st.graph.values := (congrArg Graph.values hgraph :)
  have hinit : st₁.graph.initializer = st.graph.initializer := (congrArg Graph.initializer hgraph :)
  have hext : st₁.graph.externalRefs = st.graph.externalRefs := (congrArg Graph.externalRefs hgraph :)
  have hold {id : NodeId} {node : Node} (hnode : st₁.graph.node? id = some node) : st.graph.node? id = some node :=
    ((hnode? id node).mp hnode).1
  have htype (v : ValueId) : st₁.graph.getResolvedTensorType v = st.graph.getResolvedTensorType v := by
    simp only [Graph.getResolvedTensorType, hvals]
  refine ⟨⟨settled_updateDeletedNodes h.settled hok, ?_⟩, ⟨hvals ▸ Nat.le_refl _, hins, houts, fun ρ hρ =>
    ⟨ρ, ?_, fun _ _ => rfl, ?_⟩⟩⟩
  · constructor
    · exact fun id node hnode v hv => hvals ▸ h.inRange.inputs id node (hold hnode) v hv
    · exact fun id node hnode v hv => hvals ▸ h.inRange.outputs id node (hold hnode) v hv
    · exact fun v t ht => hvals ▸ h.inRange.initializers v t (hinit ▸ ht)
    · exact fun v r hr => hvals ▸ h.inRange.externals v r (hext ▸ hr)
  · constructor
    · exact fun id node hnode => hρ.nodes id node (hold hnode)
    · exact fun v t ht => hρ.constants v t (hinit ▸ ht)
    · exact fun v r hr => hρ.externals v r (hext ▸ hr)
    · exact fun v ty hty => hρ.types v ty (htype v ▸ hty)
  · rintro v x hx ⟨node, hnode, hget⟩
    -- an output node is a dummy, which stays
    obtain ⟨n, u, hn, hop, -⟩ := h.settled.formed.dummies.outputs x.1 hx
    obtain rfl := Option.some.inj (hnode.symm.trans hn)
    have hstays := (hnode? x.1 node).mpr ⟨hnode, .inr (isDummy_of_op (.inr (.inr hop)))⟩
    exact ⟨v, ⟨node, hstays, hget⟩, rfl, fun ty hty => (htype v).trans hty⟩

/-! ### Runs of the manager -/

theorem runPass_keeps (pass : Pass M) (h : Tidy st) (hok : SimplePassManager.runPass st pass.run = .ok st') :
    Tidy st' ∧ KeepsOutputs M st st' ∧ st'.graph.unitStrides = true := by
  obtain ⟨st₁, hpass, hok⟩ := bind_eq_ok.mp hok
  obtain ⟨st₂, hdelete, hok⟩ := bind_eq_ok.mp hok
  obtain ⟨h₁, hkeeps₁⟩ := pass.sound h hpass
  obtain ⟨h₂, hkeeps₂⟩ := h₁.updateDeletedNodes (M := M) hdelete
  split at hok
  · rename_i hunit
    obtain rfl := Except.ok.inj hok
    exact ⟨h₂, hkeeps₁.trans hkeeps₂, hunit⟩
  · cases hok

/-! ### Replacing a value by one that has the same value -/

/-- The other graph computes with the assignment too, and every place reads what it read. -/
structure Carried (M : Meaning α) (st st' : GraphState) (ρ : ValueId → α) : Prop where
  holds : M.Holds st'.graph ρ
  reads : ∀ v x, (v, x) ∈ inputPairs st.graph → ∃ w, (w, x) ∈ inputPairs st'.graph ∧ ρ w = ρ v ∧
    ∀ ty, st.graph.getResolvedTensorType v = some ty → st'.graph.getResolvedTensorType w = some ty

theorem Carried.refl (hρ : M.Holds st.graph ρ) : Carried M st st ρ :=
  ⟨hρ, fun v _ hv => ⟨v, hv, rfl, fun _ h => h⟩⟩

theorem Carried.trans (h : Carried M st st₁ ρ) (h' : Carried M st₁ st₂ ρ) : Carried M st st₂ ρ := by
  refine ⟨h'.holds, fun v x hv => ?_⟩
  obtain ⟨w, hw, hval, hty⟩ := h.reads v x hv
  obtain ⟨w', hw', hval', hty'⟩ := h'.reads w x hw
  exact ⟨w', hw', hval'.trans hval, fun ty h => hty' ty (hty ty h)⟩

/-- The graph before and after turns that add no values. -/
structure Reread (g g' : Graph) : Prop where
  rewired : Rewired g g'
  inputs : g'.inputs = g.inputs
  outputs : g'.outputs = g.outputs

theorem Tidy.replace (h : Tidy st) (hok : st.replaceInputValueIf old new (fun _ _ => true) = .ok st') :
    Tidy st' ∧ Reread st.graph st'.graph ∧
      (∃ ty, st.graph.getResolvedTensorType old = some ty ∧ st.graph.getResolvedTensorType new = some ty) ∧
      ∀ ρ : ValueId → α, M.Holds st.graph ρ → ρ new = ρ old → Carried M st st' ρ := by
  have hsettled := settled_apply (.replaceInputValueIf old new fun _ _ => true) h.settled trivial hok
  obtain ⟨ty, hold, hbody⟩ := orPanic_bind_eq_ok hok
  obtain ⟨ty', hnew, hbody⟩ := orPanic_bind_eq_ok hbody
  split at hbody
  · cases hbody
  rename_i heq
  obtain rfl := not_not.mp heq
  have ht := replaceInputValue_touched hbody
  -- the maps with the definitions that the nodes give
  have hfull : (withDefined st (lastOf (outputPairs st.graph))).replaceInputValueIfWithoutTypecheck old new
      (fun _ _ => true) = .ok (withDefined st' (lastOf (outputPairs st.graph))) := by
    rw [replaceInputValue_withDefined, hbody]
    rfl
  have hconsistent := h.settled.consistent
  obtain ⟨hrewired, hpairs⟩ := replaceInputValue_spec hconsistent hfull
  change Rewired st.graph st'.graph at hrewired
  have hgraph := replaceInputValue_graph hconsistent hfull
  change (places st.maps.value2used old).foldlM (replaceAt old new) st.graph = .ok st'.graph at hgraph
  refine ⟨⟨hsettled, ?_⟩, ⟨hrewired, ht.inputs, ht.outputs⟩, ⟨ty, hold, hnew⟩, fun ρ hρ hsame => ⟨?_, fun v x hv => ?_⟩⟩
  · exact InRange.replaceAll _ _ h.inRange (type_lt hnew) hgraph
  · exact (holds_replaceInputValue hconsistent hsame hfull hρ :)
  · refine ⟨moved old new v, hpairs v x hv, ?_, fun ty' hty' => ?_⟩ <;> unfold moved <;> split <;> rename_i hv'
    · rw [hsame, hv']
    · rfl
    · rw [hrewired.type, hnew, ← hty', hv', hold]
    · exact (hrewired.type v).trans hty'

theorem Reread.refl (g : Graph) : Reread g g := ⟨.refl g, rfl, rfl⟩

theorem Reread.trans {g g' g'' : Graph} (h : Reread g g') (h' : Reread g' g'') : Reread g g'' :=
  ⟨h.rewired.trans h'.rewired, h'.inputs.trans h.inputs, h'.outputs.trans h.outputs⟩

/-- The nodes of an operator, that a pass goes over. -/
def Graph.nodesOf (g : Graph) (op : Operator) : List NodeId := (g.iter.filter fun x => x.2.op == op).map Prod.fst

/-- The node is there and has the operator. -/
def Graph.IsOf (g : Graph) (op : Operator) (id : NodeId) : Prop := ∃ node, g.node? id = some node ∧ node.op = op

theorem Graph.mem_nodesOf {g : Graph} {op : Operator} {id : NodeId} (h : id ∈ g.nodesOf op) : g.IsOf op id := by
  obtain ⟨⟨i, node⟩, hmem, rfl⟩ := List.mem_map.mp h
  obtain ⟨hiter, hop⟩ := List.mem_filter.mp hmem
  exact ⟨node, mem_iter.mp hiter, by simpa using hop⟩

theorem Reread.isOf {g g' : Graph} (h : Reread g g') {op : Operator} (hop : ∀ v, op ≠ .output v) {id : NodeId}
    (hid : g.IsOf op id) : g'.IsOf op id := by
  obtain ⟨node, hnode, rfl⟩ := hid
  obtain ⟨node', hnode', -, -, heq | ⟨v, w, hv, -⟩⟩ := h.rewired.nodes id node hnode
  · exact ⟨node', hnode', heq⟩
  · exact absurd hv (hop v)

/-- A loop over the nodes of an operator, from what its turns do.  The loop may have more than the graph. -/
theorem loop_relates {σ : Type} (state : σ → GraphState) {f : σ → NodeId → Except Stop σ} {op : Operator}
    (hop : ∀ v, op ≠ .output v) {R : σ → σ → Prop} (hrefl : ∀ s, R s s) (htrans : ∀ {a b c}, R a b → R b c → R a c)
    (hturn : ∀ s id s', Tidy (state s) → (state s).graph.IsOf op id → f s id = .ok s' →
      Tidy (state s') ∧ Reread (state s).graph (state s').graph ∧ R s s')
    {s s' : σ} (h : Tidy (state s)) (hok : ((state s).graph.nodesOf op).foldlM f s = .ok s') :
    Tidy (state s') ∧ Reread (state s).graph (state s').graph ∧ R s s' := by
  have hl : ∀ id ∈ (state s).graph.nodesOf op, (state s).graph.IsOf op id := fun _ => Graph.mem_nodesOf
  generalize (state s).graph.nodesOf op = l at hl hok
  induction l generalizing s with
  | nil =>
      obtain rfl := Except.ok.inj hok
      exact ⟨h, .refl _, hrefl s⟩
  | cons id l ih =>
      rw [List.foldlM_cons, do_eq_ok] at hok
      obtain ⟨s₁, hone, hrest⟩ := hok
      obtain ⟨h₁, hreread, hrel⟩ := hturn s id s₁ h (hl id List.mem_cons_self) hone
      obtain ⟨h', hreread', hrel'⟩ := ih h₁ (fun id hid => hreread.isOf hop (hl id (List.mem_cons_of_mem _ hid))) hrest
      exact ⟨h', hreread.trans hreread', htrans hrel hrel'⟩

theorem Reread.keepsOutputs (h : Reread st.graph st'.graph)
    (hcarried : ∀ ρ, M.Holds st.graph ρ → Carried M st st' ρ) : KeepsOutputs M st st' where
  length := h.rewired.values ▸ Nat.le_refl _
  inputs := h.inputs
  outputs := h.outputs
  carries ρ hρ := ⟨ρ, (hcarried ρ hρ).holds, fun _ _ => rfl, fun v x _ hv => (hcarried ρ hρ).reads v x hv⟩

theorem keeps_of_carried (hcarried : ∀ ρ, M.Holds st.graph ρ → Carried M st st' ρ) : Keeps M st st' :=
  fun ρ hρ => ⟨ρ, (hcarried ρ hρ).holds, fun _ _ => rfl, (hcarried ρ hρ).reads⟩

end NnEngine
