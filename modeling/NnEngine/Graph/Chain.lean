import NnEngine.Graph.Consistency

/-!
# Walking back over a chain

What `walk_chain_backward` returns: the value before the chain of nodes that satisfy a predicate, and
the chain.  `walkChainBackward_eq` says that one unit of fuel for each node, and one more, is enough.
-/

namespace NnEngine

open DepthFirst InverseIndex SimpleGraphOp GraphState

variable {g : Graph} {st : GraphState} {pred : Node → Bool} {v s s' : ValueId} {ids ids' : List NodeId}

/-- No value has two definitions. -/
def UniqueDefinitions (g : Graph) : Prop := ∀ v x y, (v, x) ∈ outputPairs g → (v, y) ∈ outputPairs g → x = y

/-- The nodes that satisfy the predicate, from the definition of `v` back to `s`, each the definition of
the first input of the one before. -/
inductive Chain (g : Graph) (pred : Node → Bool) : ValueId → ValueId → List NodeId → Prop
  | stop {v : ValueId} (h : ∀ x node, (v, x) ∈ outputPairs g → g.node? x.1 = some node → pred node = false) :
      Chain g pred v v []
  | step {x : Place} {node : Node} {v u s : ValueId} {ids : List NodeId} (hv : (v, x) ∈ outputPairs g)
      (hnode : g.node? x.1 = some node) (hpred : pred node = true)
      (hin : node.inputs[0]? = some (some u)) (hrest : Chain g pred u s ids) : Chain g pred v s (x.1 :: ids)

theorem Chain.unique (hg : UniqueDefinitions g) (h : Chain g pred v s ids) (h' : Chain g pred v s' ids') :
    s = s' ∧ ids = ids' := by
  induction h generalizing s' ids' with
  | stop hstop =>
      cases h' with
      | stop => exact ⟨rfl, rfl⟩
      | step hv hnode hpred => exact absurd hpred (by rw [hstop _ _ hv hnode]; decide)
  | step hv hnode hpred hin _ ih =>
      cases h' with
      | stop hstop => exact absurd hpred (by rw [hstop _ _ hv hnode]; decide)
      | step hv' hnode' _ hin' hrest' =>
          obtain rfl := hg _ _ _ hv hv'
          obtain rfl := Option.some.inj (hnode.symm.trans hnode')
          obtain rfl := Option.some.inj (Option.some.inj (hin.symm.trans hin'))
          obtain ⟨rfl, rfl⟩ := ih hrest'
          exact ⟨rfl, rfl⟩

/-- A node of the chain starts a chain of its own, which is no longer. -/
theorem Chain.tail (h : Chain g pred v s ids) {id : NodeId} (hid : id ∈ ids) :
    ∃ x w ids', x.1 = id ∧ (w, x) ∈ outputPairs g ∧ Chain g pred w s (id :: ids') ∧ ids'.length < ids.length := by
  induction h with
  | stop => cases hid
  | step hv hnode hpred hin hrest ih =>
      rcases List.mem_cons.mp hid with rfl | hid
      · exact ⟨_, _, _, rfl, hv, .step hv hnode hpred hin hrest, Nat.lt_succ_self _⟩
      · obtain ⟨x, w, ids', hx, hw, hchain, hlt⟩ := ih hid
        exact ⟨x, w, ids', hx, hw, hchain, Nat.lt_succ_of_lt hlt⟩

/-- The outputs of a node of the chain all continue to the same chain. -/
theorem Chain.of_cons (h : Chain g pred v s ids) {id : NodeId} {rest : List NodeId} (hids : ids = id :: rest) :
    ∃ node u, g.node? id = some node ∧ node.inputs[0]? = some (some u) ∧ Chain g pred u s rest := by
  cases h with
  | stop => cases hids
  | step hv hnode hpred hin hrest =>
      obtain ⟨rfl, rfl⟩ := List.cons.inj hids
      exact ⟨_, _, hnode, hin, hrest⟩

/-- A chain passes a node once. -/
theorem Chain.nodup (hg : UniqueDefinitions g) (h : Chain g pred v s ids) : ids.Nodup := by
  induction h with
  | stop => exact List.nodup_nil
  | step hv hnode hpred hin hrest ih =>
      refine List.nodup_cons.mpr ⟨fun hid => ?_, ih⟩
      obtain ⟨x', w, ids', hx', hw, hchain, hlt⟩ := hrest.tail hid
      obtain ⟨node', u', hnode', hin', hrest'⟩ := hchain.of_cons rfl
      obtain rfl := Option.some.inj (hnode.symm.trans hnode')
      obtain rfl := Option.some.inj (Option.some.inj (hin.symm.trans hin'))
      obtain ⟨-, rfl⟩ := hrest.unique hg hrest'
      exact absurd hlt (Nat.lt_irrefl _)

theorem Chain.live (h : Chain g pred v s ids) : ∀ id ∈ ids, id < g.nodes.length := by
  induction h with
  | stop => nofun
  | step _ hnode _ _ _ ih =>
      intro id hid
      rcases List.mem_cons.mp hid with rfl | hid
      · exact (List.getElem?_eq_some_iff.mp (node?_eq_some.mp hnode).1).1
      · exact ih id hid

theorem Chain.length_le (hg : UniqueDefinitions g) (h : Chain g pred v s ids) : ids.length ≤ g.nodes.length := by
  have hsub : ids ⊆ List.range g.nodes.length := fun id hid => List.mem_range.mpr (h.live id hid)
  have := (List.subperm_of_subset (h.nodup hg) hsub).length_le
  rwa [List.length_range] at this

/-- The definition of a value, if it has only one. -/
theorem value2defined_eq (hg : UniqueDefinitions st.graph) (h : Consistent st) {x : Place} :
    st.maps.value2defined v = some x ↔ (v, x) ∈ outputPairs st.graph := by
  obtain ⟨-, hlast, -⟩ := consistent_iff.mp h
  rw [hlast]
  constructor
  · exact lastOf_mem
  · intro hv
    obtain ⟨y, hy⟩ := Option.isSome_iff_exists.mp (lastOf_isSome hv)
    rw [hy, hg v x y hv (lastOf_mem hy)]

theorem walkChainBackward_of_lt (hg : UniqueDefinitions st.graph) (h : Consistent st)
    (hchain : Chain st.graph pred v s ids) :
    ∀ fuel, ids.length < fuel → st.walkChainBackward pred fuel v = .ok (s, ids) := by
  induction hchain with
  | @stop v hstop =>
      intro fuel hfuel
      obtain ⟨fuel, rfl⟩ := Nat.exists_eq_succ_of_ne_zero (Nat.ne_of_gt hfuel)
      rw [GraphState.walkChainBackward]
      cases hdef : st.maps.value2defined v with
      | none => rfl
      | some x =>
          have hv := (value2defined_eq hg h).mp hdef
          obtain ⟨node, hnode, -⟩ := mem_outputPairs.mp hv
          have hpred := hstop x node hv hnode
          simp [hnode, orPanic, Except.bind, hpred]
  | @step x node v u s ids hv hnode hpred hin _ ih =>
      intro fuel hfuel
      obtain ⟨fuel, rfl⟩ := Nat.exists_eq_succ_of_ne_zero (Nat.ne_of_gt (Nat.zero_lt_of_lt hfuel))
      have hrest := ih fuel (Nat.lt_of_succ_lt_succ hfuel)
      rw [GraphState.walkChainBackward, (value2defined_eq hg h).mpr hv]
      simp [hnode, orPanic, Except.bind, hpred, hin, hrest, Except.map]

/-- One unit of fuel for each node, and one more, is enough. -/
theorem walkChainBackward_eq (hg : UniqueDefinitions st.graph) (h : Consistent st)
    (hchain : Chain st.graph pred v s ids) :
    st.walkChainBackward pred (st.graph.nodes.length + 1) v = .ok (s, ids) :=
  walkChainBackward_of_lt hg h hchain _ (Nat.lt_succ_of_le (hchain.length_le hg))

end NnEngine
