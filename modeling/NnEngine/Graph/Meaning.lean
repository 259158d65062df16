import NnEngine.Graph.Rewire
import NnEngine.Result

/-!
# What a graph computes

An assignment of values that the nodes, the constants and the types of a graph allow, for any meaning of
the operators.  A rewriting `Keeps` the meaning if every such assignment extends to the new graph so that
every place reads what it read.  A value is replaced by the output of new nodes: `keeps_of_grown` says what
is to be shown of them.
-/

namespace NnEngine

open DepthFirst InverseIndex SimpleGraphOp GraphState

/-- The meaning of operators, constants and types as relations on values.  An output node computes
nothing. -/
structure Meaning (α : Type) where
  op : Operator → List (Option α) → List α → Prop
  constant : Tensor → α → Prop
  external : ExternalTensorRef → α → Prop
  hasType : ResolvedTensorType → α → Prop
  output : ∀ v ins outs, op (.output v) ins outs

/-- The meaning that allows everything. -/
def Meaning.any : Meaning Unit where
  op _ _ _ := True
  constant _ _ := True
  external _ _ := True
  hasType _ _ := True
  output _ _ _ := trivial

variable {α : Type} {M : Meaning α} {g g' : Graph} {st st₁ st₂ st' : GraphState} {ρ ρ' : ValueId → α}
  {node : Node} {v old new : ValueId} {ty : ResolvedTensorType}

/-- The assignment is one that the graph allows. -/
structure Meaning.Holds (M : Meaning α) (g : Graph) (ρ : ValueId → α) : Prop where
  nodes : ∀ id node, g.node? id = some node →
    M.op node.op (node.inputs.map (Option.map ρ)) (node.outputs.map ρ)
  constants : ∀ v t, g.initializer v = some t → M.constant t (ρ v)
  externals : ∀ v r, g.externalRefs v = some r → M.external r (ρ v)
  types : ∀ v ty, g.getResolvedTensorType v = some ty → M.hasType ty (ρ v)

/-- The nodes and the constants are about values of the graph. -/
structure InRange (g : Graph) : Prop where
  inputs : ∀ id node, g.node? id = some node → ∀ v, some v ∈ node.inputs → v < g.values.length
  outputs : ∀ id node, g.node? id = some node → ∀ v ∈ node.outputs, v < g.values.length
  initializers : ∀ v t, g.initializer v = some t → v < g.values.length
  externals : ∀ v r, g.externalRefs v = some r → v < g.values.length

/-- A graph with its maps, as the passes find it. -/
structure Intact (st : GraphState) : Prop where
  consistent : Consistent st
  inRange : InRange st.graph

theorem type_lt (h : g.getResolvedTensorType v = some ty) : v < g.values.length := by
  unfold Graph.getResolvedTensorType at h
  by_contra hge
  rw [List.getElem?_eq_none (Nat.le_of_not_lt hge)] at h
  cases h

theorem Intact.pair_lt (h : Intact st) {x : Place} (hv : (v, x) ∈ inputPairs st.graph) :
    v < st.graph.values.length := by
  obtain ⟨node, hnode, hget⟩ := hv
  exact h.inRange.inputs x.1 node hnode v (List.mem_of_getElem? hget)

/-- The checks of a graph that make it `Intact` with new maps, constants apart. -/
def Graph.checked (g : Graph) : Bool :=
  (g.iter.all fun x => (x.2.inputs.all fun v => v.all (· < g.values.length)) &&
    x.2.outputs.all (· < g.values.length)) &&
  (g.inputs.all fun id => (g.node? id).any fun node =>
    match node.op, node.outputs with
    | .input v, [w] => v == w
    | .sessionState v, [w] => v == w
    | _, _ => false) &&
  g.outputs.all fun id => (g.node? id).any fun node =>
    match node.op with
    | .output v => node.inputs == [some v]
    | _ => false

theorem intact_new (h : g.checked = true)
    (hinit : ∀ v t, g.initializer v = some t → v < g.values.length)
    (hext : ∀ v r, g.externalRefs v = some r → v < g.values.length) : Intact (.new g) := by
  unfold Graph.checked at h
  simp only [Bool.and_eq_true, List.all_eq_true, decide_eq_true_eq, Option.any_eq_true] at h
  obtain ⟨⟨hnodes, hins⟩, houts⟩ := h
  refine ⟨new_consistent ⟨fun id hid => ?_, fun id hid => ?_⟩, ⟨?_, ?_, hinit, hext⟩⟩
  · obtain ⟨node, hnode, hop⟩ := hins id hid
    refine ⟨node, ?_⟩
    split at hop
    · rename_i v w hv hw
      exact ⟨v, hnode, .inl hv, by rw [hw, beq_iff_eq.mp hop]⟩
    · rename_i v w hv hw
      exact ⟨v, hnode, .inr hv, by rw [hw, beq_iff_eq.mp hop]⟩
    · cases hop
  · obtain ⟨node, hnode, hop⟩ := houts id hid
    refine ⟨node, ?_⟩
    split at hop
    · rename_i v hv
      exact ⟨v, hnode, hv, beq_iff_eq.mp hop⟩
    · cases hop
  · intro id node hnode v hv
    exact of_decide_eq_true ((hnodes (id, node) (mem_iter.mpr hnode)).1 (some v) hv)
  · exact fun id node hnode v hv => (hnodes (id, node) (mem_iter.mpr hnode)).2 v hv

/-- Assignments that agree on the values of the graph. -/
def AgreeOn (g : Graph) (ρ ρ' : ValueId → α) : Prop := ∀ v < g.values.length, ρ' v = ρ v

theorem AgreeOn.map_inputs (hg : InRange g) (h : AgreeOn g ρ ρ') {id : NodeId}
    (hnode : g.node? id = some node) : node.inputs.map (Option.map ρ') = node.inputs.map (Option.map ρ) := by
  refine List.map_congr_left fun i hi => ?_
  cases i with
  | none => rfl
  | some v => exact congrArg some (h v (hg.inputs id node hnode v hi))

theorem AgreeOn.map_outputs (hg : InRange g) (h : AgreeOn g ρ ρ') {id : NodeId}
    (hnode : g.node? id = some node) : node.outputs.map ρ' = node.outputs.map ρ :=
  List.map_congr_left fun v hv => h v (hg.outputs id node hnode v hv)

theorem AgreeOn.holds (hg : InRange g) (h : AgreeOn g ρ ρ') (hρ : M.Holds g ρ) : M.Holds g ρ' where
  nodes := by
    intro id node hnode
    rw [h.map_inputs hg hnode, h.map_outputs hg hnode]
    exact hρ.nodes id node hnode
  constants := by
    intro v t ht
    rw [h v (hg.initializers v t ht)]
    exact hρ.constants v t ht
  externals := by
    intro v r hr
    rw [h v (hg.externals v r hr)]
    exact hρ.externals v r hr
  types := by
    intro v ty hty
    rw [h v (type_lt hty)]
    exact hρ.types v ty hty

/-- The value that comes next gets a value. -/
theorem agreeOn_update (g : Graph) (ρ : ValueId → α) (x : α) :
    AgreeOn g ρ (Function.update ρ g.values.length x) :=
  fun _ hv => Function.update_of_ne (Nat.ne_of_lt hv) x ρ

/-! ### More values and nodes -/

/-- The state has more values and nodes, and an assignment extends to it so that `P` holds. -/
structure Grown (M : Meaning α) (st st₁ : GraphState) (P : (ValueId → α) → Prop) : Prop where
  intact : Intact st₁
  length : st.graph.values.length ≤ st₁.graph.values.length
  types : ∀ v < st.graph.values.length,
    st₁.graph.getResolvedTensorType v = st.graph.getResolvedTensorType v
  pairs : ∀ p ∈ inputPairs st.graph, p ∈ inputPairs st₁.graph
  extend : ∀ ρ, M.Holds st.graph ρ → ∃ ρ', M.Holds st₁.graph ρ' ∧ AgreeOn st.graph ρ ρ' ∧ P ρ'

variable {P Q : (ValueId → α) → Prop}

theorem Grown.refl (h : Intact st) : Grown M st st (fun ρ => M.Holds st.graph ρ) where
  intact := h
  length := Nat.le_refl _
  types _ _ := rfl
  pairs _ hp := hp
  extend ρ hρ := ⟨ρ, hρ, fun _ _ => rfl, hρ⟩

theorem Grown.mono (h : Grown M st st₁ P) (hPQ : ∀ ρ, P ρ → Q ρ) : Grown M st st₁ Q where
  intact := h.intact
  length := h.length
  types := h.types
  pairs := h.pairs
  extend ρ hρ := by
    obtain ⟨ρ', hρ', hagree, hP⟩ := h.extend ρ hρ
    exact ⟨ρ', hρ', hagree, hPQ ρ' hP⟩

theorem registerNewValue_type_of_lt (st : GraphState) (name : String) (ty : ResolvedTensorType)
    (hv : v < st.graph.values.length) :
    (st.registerNewValue name ty).2.graph.getResolvedTensorType v = st.graph.getResolvedTensorType v :=
  (registerNewValue_extended st name ty).type hv

/-- A property of the values of a graph only. -/
def LocalTo (g : Graph) (P : (ValueId → α) → Prop) : Prop := ∀ ρ ρ', AgreeOn g ρ ρ' → P ρ → P ρ'

theorem localTo_holds (hg : InRange g) : LocalTo g fun ρ => M.Holds g ρ := fun _ _ h hρ => h.holds hg hρ

theorem registerNewValue_intact (h : Intact st) (name : String) (ty : ResolvedTensorType) :
    Intact (st.registerNewValue name ty).2 where
  consistent := h.consistent.of_nodes rfl rfl rfl rfl
  inRange := by
    have hle := (registerNewValue_extended st name ty).length
    exact {
      inputs := fun id node hnode v hv => Nat.lt_of_lt_of_le (h.inRange.inputs id node hnode v hv) hle
      outputs := fun id node hnode v hv => Nat.lt_of_lt_of_le (h.inRange.outputs id node hnode v hv) hle
      initializers := fun v t ht => Nat.lt_of_lt_of_le (h.inRange.initializers v t ht) hle
      externals := fun v r hr => Nat.lt_of_lt_of_le (h.inRange.externals v r hr) hle }

/-- A new value of a type, computed from the others. -/
theorem Grown.newValue (h : Grown M st st₁ P) (hP : LocalTo st₁.graph P) (name : String)
    {x : (ValueId → α) → α} (hlocal : ∀ ρ ρ', AgreeOn st₁.graph ρ ρ' → x ρ' = x ρ)
    (hx : ∀ ρ, M.Holds st₁.graph ρ → P ρ → M.hasType ty (x ρ)) :
    Grown M st (st₁.registerNewValue name ty).2 fun ρ => P ρ ∧ ρ st₁.graph.values.length = x ρ where
  intact := registerNewValue_intact h.intact name ty
  length := Nat.le_trans h.length (registerNewValue_extended st₁ name ty).length
  types v hv := by
    rw [registerNewValue_type_of_lt st₁ name ty (Nat.lt_of_lt_of_le hv h.length)]
    exact h.types v hv
  pairs p hp := h.pairs p hp
  extend ρ hρ := by
    obtain ⟨ρ₁, hρ₁, hagree, hPρ⟩ := h.extend ρ hρ
    have hupd := agreeOn_update st₁.graph ρ₁ (x ρ₁)
    have hholds := hupd.holds h.intact.inRange hρ₁
    refine ⟨Function.update ρ₁ st₁.graph.values.length (x ρ₁), ?_, ?_, hP ρ₁ _ hupd hPρ, ?_⟩
    · refine ⟨hholds.nodes, hholds.constants, hholds.externals, fun v ty' hty' => ?_⟩
      by_cases hv : v < st₁.graph.values.length
      · rw [registerNewValue_type_of_lt st₁ name ty hv] at hty'
        exact hholds.types v ty' hty'
      · have hlen : (st₁.registerNewValue name ty).2.graph.values.length =
            st₁.graph.values.length + 1 := by
          simp [registerNewValue]
        have hlt := type_lt hty'
        rw [hlen] at hlt
        obtain rfl : v = st₁.graph.values.length := Nat.eq_of_lt_succ_of_not_lt hlt hv
        rw [registerNewValue_type] at hty'
        obtain rfl := Option.some.inj hty'
        rw [Function.update_self]
        exact hx ρ₁ hρ₁ hPρ
    · intro v hv
      rw [hupd v (Nat.lt_of_lt_of_le hv h.length)]
      exact hagree v hv
    · rw [hlocal ρ₁ _ hupd, Function.update_self]

theorem registerNewNode_intact (h : Intact st) (hnew : node.markAsDeleted = false)
    (hin : ∀ v, some v ∈ node.inputs → v < st.graph.values.length)
    (hout : ∀ v ∈ node.outputs, v < st.graph.values.length) : Intact (st.registerNewNode node) where
  consistent := registerNewNode_consistent h.consistent hnew
  inRange := by
    refine ⟨fun id node' hnode' v hv => ?_, fun id node' hnode' v hv => ?_, h.inRange.initializers,
      h.inRange.externals⟩ <;>
      rw [node?_registerNewNode st hnew] at hnode' <;> split at hnode'
    · obtain rfl := Option.some.inj hnode'
      exact hin v hv
    · exact h.inRange.inputs id node' hnode' v hv
    · obtain rfl := Option.some.inj hnode'
      exact hout v hv
    · exact h.inRange.outputs id node' hnode' v hv

/-- A new node, whose outputs have values. -/
theorem Grown.newNode (h : Grown M st st₁ P) (hnew : node.markAsDeleted = false)
    (hin : ∀ v, some v ∈ node.inputs → v < st₁.graph.values.length)
    (hout : ∀ v ∈ node.outputs, v < st₁.graph.values.length)
    (hop : ∀ ρ, M.Holds st₁.graph ρ → P ρ →
      M.op node.op (node.inputs.map (Option.map ρ)) (node.outputs.map ρ)) :
    Grown M st (st₁.registerNewNode node) P where
  intact := registerNewNode_intact h.intact hnew hin hout
  length := h.length
  types := h.types
  pairs p hp := by
    rw [inputPairs_registerNewNode st₁ hnew]
    exact .inl (h.pairs p hp)
  extend ρ hρ := by
    obtain ⟨ρ₁, hρ₁, hagree, hPρ⟩ := h.extend ρ hρ
    refine ⟨ρ₁, ⟨fun id node' hnode' => ?_, hρ₁.constants, hρ₁.externals, hρ₁.types⟩, hagree, hPρ⟩
    rw [node?_registerNewNode st₁ hnew] at hnode'
    split at hnode'
    · obtain rfl := Option.some.inj hnode'
      exact hop ρ₁ hρ₁ hPρ
    · exact hρ₁.nodes id node' hnode'

theorem holds_of_registerNewValue {name : String}
    (hρ : M.Holds (st.registerNewValue name ty).2.graph ρ) : M.Holds st.graph ρ where
  nodes := hρ.nodes
  constants := hρ.constants
  externals := hρ.externals
  types v ty' h := hρ.types v ty' (by rw [registerNewValue_type_of_lt st name ty (type_lt h), h])

/-- A new value that a new node computes. -/
theorem Grown.newOutput (h : Grown M st st₁ P) (hP : LocalTo st₁.graph P) {name : String}
    {x : (ValueId → α) → α} (hlocal : ∀ ρ ρ', AgreeOn st₁.graph ρ ρ' → x ρ' = x ρ)
    (hnew : node.markAsDeleted = false) (houts : node.outputs = [st₁.graph.values.length])
    (hin : ∀ v, some v ∈ node.inputs → v < st₁.graph.values.length)
    (hop : ∀ ρ, M.Holds st₁.graph ρ → P ρ →
      M.hasType ty (x ρ) ∧ M.op node.op (node.inputs.map (Option.map ρ)) [x ρ]) :
    Grown M st ((st₁.registerNewValue name ty).2.registerNewNode node) fun ρ =>
      P ρ ∧ ρ st₁.graph.values.length = x ρ := by
  have hlt : st₁.graph.values.length < (st₁.registerNewValue name ty).2.graph.values.length := by
    show _ < (st₁.graph.values ++ [_]).length
    rw [List.length_append]
    exact Nat.lt_succ_self _
  have hvalue := h.newValue hP name hlocal fun ρ hρ hPρ => (hop ρ hρ hPρ).1
  refine hvalue.newNode hnew (fun v hv => Nat.lt_trans (hin v hv) hlt) (fun v hv => ?_) fun ρ hρ hPρ => ?_
  · rw [houts, List.mem_singleton] at hv
    rw [hv]
    exact hlt
  · rw [houts, List.map_singleton, hPρ.2]
    exact (hop ρ (holds_of_registerNewValue hρ) hPρ.1).2

theorem registerNewTensor_intact (h : Intact st) (tensor : Tensor) (name : String) :
    Intact (st.registerNewTensor tensor name) := by
  have hvalue := registerNewValue_intact h name tensor.tensorType
  have hlength : (st.registerNewTensor tensor name).graph.values.length = st.graph.values.length + 1 := by
    show (st.graph.values ++ [_]).length = _
    rw [List.length_append, List.length_singleton]
  refine ⟨hvalue.consistent.of_nodes rfl rfl rfl rfl, hvalue.inRange.inputs, hvalue.inRange.outputs,
    fun v t ht => ?_, fun v r hr => ?_⟩
  · change Function.update st.graph.initializer st.graph.values.length (some tensor) v = some t at ht
    refine Nat.lt_of_lt_of_eq ?_ hlength.symm
    by_cases hv : v = st.graph.values.length
    · rw [hv]
      exact Nat.lt_succ_self _
    · rw [Function.update_of_ne hv] at ht
      exact Nat.lt_succ_of_lt (h.inRange.initializers v t ht)
  · change Function.update st.graph.externalRefs st.graph.values.length none v = some r at hr
    refine Nat.lt_of_lt_of_eq ?_ hlength.symm
    by_cases hv : v = st.graph.values.length
    · rw [hv]
      exact Nat.lt_succ_self _
    · rw [Function.update_of_ne hv] at hr
      exact Nat.lt_succ_of_lt (h.inRange.externals v r hr)

/-- A new constant. -/
theorem Grown.newTensor (h : Grown M st st₁ P) (hP : LocalTo st₁.graph P) {tensor : Tensor}
    (name : String) {x : (ValueId → α) → α} (hlocal : ∀ ρ ρ', AgreeOn st₁.graph ρ ρ' → x ρ' = x ρ)
    (hx : ∀ ρ, M.Holds st₁.graph ρ → P ρ → M.constant tensor (x ρ) ∧ M.hasType tensor.tensorType (x ρ)) :
    Grown M st (st₁.registerNewTensor tensor name) fun ρ => P ρ ∧ ρ st₁.graph.values.length = x ρ where
  intact := registerNewTensor_intact h.intact tensor name
  length := (h.newValue hP name hlocal fun ρ hρ hPρ => (hx ρ hρ hPρ).2).length
  types := (h.newValue hP name hlocal fun ρ hρ hPρ => (hx ρ hρ hPρ).2).types
  pairs p hp := h.pairs p hp
  extend ρ hρ := by
    have hvalue := h.newValue hP name hlocal fun ρ hρ hPρ => (hx ρ hρ hPρ).2
    obtain ⟨ρ', hρ', hagree, hPρ⟩ := hvalue.extend ρ hρ
    refine ⟨ρ', ⟨hρ'.nodes, fun v t ht => ?_, fun v r hr => ?_, hρ'.types⟩, hagree, hPρ⟩
    · change Function.update st₁.graph.initializer st₁.graph.values.length (some tensor) v = some t at ht
      by_cases hv : v = st₁.graph.values.length
      · subst hv
        rw [Function.update_self] at ht
        obtain rfl := Option.some.inj ht
        rw [hPρ.2]
        exact (hx ρ' (holds_of_registerNewValue hρ') hPρ.1).1
      · rw [Function.update_of_ne hv] at ht
        exact hρ'.constants v t ht
    · change Function.update st₁.graph.externalRefs st₁.graph.values.length none v = some r at hr
      by_cases hv : v = st₁.graph.values.length
      · subst hv
        rw [Function.update_self] at hr
        cases hr
      · rw [Function.update_of_ne hv] at hr
        exact hρ'.externals v r hr

/-! ### Replacing a value -/

/-- The other graph computes what this one does: the values stay, and every place reads what it read, at
the same type. -/
def Keeps (M : Meaning α) (st st' : GraphState) : Prop :=
  ∀ ρ, M.Holds st.graph ρ → ∃ ρ', M.Holds st'.graph ρ' ∧ AgreeOn st.graph ρ ρ' ∧
    ∀ v x, (v, x) ∈ inputPairs st.graph → ∃ w, (w, x) ∈ inputPairs st'.graph ∧ ρ' w = ρ v ∧
      ∀ ty, st.graph.getResolvedTensorType v = some ty → st'.graph.getResolvedTensorType w = some ty

theorem Keeps.refl (M : Meaning α) (st : GraphState) : Keeps M st st :=
  fun ρ hρ => ⟨ρ, hρ, fun _ _ => rfl, fun v _ hv => ⟨v, hv, rfl, fun _ h => h⟩⟩

theorem holds_replaceAt {x : Place} (hρ : M.Holds g ρ) (hsame : ρ new = ρ old)
    (hx : (old, x) ∈ inputPairs g) (h : replaceAt old new g x = .ok g') : M.Holds g' ρ := by
  obtain ⟨node, op, hnode, hlt, hop, rfl⟩ := replaceAt_eq_ok h
  have hlive := (node?_eq_some.mp hnode).2
  obtain ⟨node₁, hnode₁, hget⟩ := hx
  obtain rfl := Option.some.inj (hnode.symm.trans hnode₁)
  -- the place reads the same value
  have hins : (node.inputs.set x.2 (some new)).map (Option.map ρ) = node.inputs.map (Option.map ρ) := by
    rw [List.map_set]
    refine List.ext_getElem? fun i => ?_
    by_cases hi : i = x.2
    · subst hi
      rw [List.getElem?_set_self (by simpa using hlt), List.getElem?_map, hget]
      exact congrArg (fun y => some (some y)) hsame
    · rw [List.getElem?_set_ne (Ne.symm hi)]
  refine ⟨fun id node' hnode' => ?_, hρ.constants, hρ.externals, hρ.types⟩
  rw [node?_setNode hnode] at hnode'
  split at hnode'
  · rw [if_neg (by simp [hlive])] at hnode'
    obtain rfl := Option.some.inj hnode'
    show M.op op ((node.inputs.set x.2 (some new)).map (Option.map ρ)) (node.outputs.map ρ)
    rw [hins]
    rcases hop with ⟨-, rfl⟩ | ⟨-, rfl⟩
    · exact M.output new _ _
    · exact hρ.nodes x.1 node hnode
  · exact hρ.nodes id node' hnode'

theorem InRange.replaceAt {x : Place} (hg : InRange g) (hnew : new < g.values.length)
    (h : replaceAt old new g x = .ok g') : InRange g' := by
  obtain ⟨node, op, hnode, hlt, -, rfl⟩ := replaceAt_eq_ok h
  have hlive := (node?_eq_some.mp hnode).2
  refine ⟨fun id node' hnode' v hv => ?_, fun id node' hnode' v hv => ?_, hg.initializers,
      hg.externals⟩ <;>
    rw [node?_setNode hnode] at hnode' <;> split at hnode' <;>
      try rw [if_neg (by simp [hlive])] at hnode'
  · obtain rfl := Option.some.inj hnode'
    rcases List.mem_or_eq_of_mem_set hv with hv | hv
    · exact hg.inputs x.1 node hnode v hv
    · obtain rfl := Option.some.inj hv
      exact hnew
  · exact hg.inputs id node' hnode' v hv
  · obtain rfl := Option.some.inj hnode'
    exact hg.outputs x.1 node hnode v hv
  · exact hg.outputs id node' hnode' v hv

/-- The loop over the changed places keeps what an assignment says that gives both values the same. -/
theorem holds_replaceAll (hsame : ρ new = ρ old) : ∀ (l : List Place) (g : Graph), l.Nodup →
    (∀ x ∈ l, (old, x) ∈ inputPairs g) → l.foldlM (replaceAt old new) g = .ok g' →
      M.Holds g ρ → M.Holds g' ρ := by
  intro l
  induction l with
  | nil =>
      intro g _ _ h hρ
      obtain rfl := Except.ok.inj h
      exact hρ
  | cons x l ih =>
      intro g hnodup hl h hρ
      obtain ⟨hx, hnodup⟩ := List.nodup_cons.mp hnodup
      rw [List.foldlM_cons, do_eq_ok] at h
      obtain ⟨g₁, hone, hrest⟩ := h
      refine ih g₁ hnodup (fun y hy => ?_) hrest (holds_replaceAt hρ hsame (hl x List.mem_cons_self) hone)
      rw [(replaceAt_spec hone).1]
      refine .inl ⟨hl y (List.mem_cons_of_mem x hy), ?_⟩
      rintro rfl
      exact hx hy

theorem InRange.replaceAll : ∀ (l : List Place) (g : Graph), InRange g → new < g.values.length →
    l.foldlM (GraphState.replaceAt old new) g = .ok g' → InRange g' := by
  intro l
  induction l with
  | nil =>
      intro g hg _ h
      obtain rfl := Except.ok.inj h
      exact hg
  | cons x l ih =>
      intro g hg hnew h
      rw [List.foldlM_cons, do_eq_ok] at h
      obtain ⟨g₁, hone, hrest⟩ := h
      refine ih g₁ (hg.replaceAt hnew hone) ?_ hrest
      rw [(replaceAt_rewired hone).values]
      exact hnew

/-- What `replace_input_value` does to a graph. -/
theorem replaceInputValue_graph (h : Consistent st)
    (hok : st.replaceInputValueIfWithoutTypecheck old new (fun _ _ => true) = .ok st') :
    (places st.maps.value2used old).foldlM (replaceAt old new) st.graph = .ok st'.graph := by
  unfold GraphState.replaceInputValueIfWithoutTypecheck at hok
  rw [changed_all h] at hok
  change (if (places st.maps.value2used old).isEmpty then _ else _) = _ at hok
  split at hok
  · rename_i hempty
    obtain rfl := Except.ok.inj hok
    rw [List.isEmpty_iff.mp hempty]
    rfl
  · rw [map_eq_ok] at hok
    obtain ⟨graph, hfold, rfl⟩ := hok
    exact hfold

theorem holds_replaceInputValue (h : Consistent st) (hsame : ρ new = ρ old)
    (hok : st.replaceInputValueIfWithoutTypecheck old new (fun _ _ => true) = .ok st')
    (hρ : M.Holds st.graph ρ) : M.Holds st'.graph ρ := by
  obtain ⟨hindex, -, -⟩ := consistent_iff.mp h
  exact holds_replaceAll hsame _ st.graph (hindex.nodup old) (fun x hx => (hindex.mem old x).mp hx)
    (replaceInputValue_graph h hok) hρ

/-- The other graph computes what this one does, with values for which `P` holds. -/
def KeepsWith (M : Meaning α) (st st' : GraphState) (P : (ValueId → α) → Prop) : Prop :=
  ∀ ρ, M.Holds st.graph ρ → ∃ ρ', M.Holds st'.graph ρ' ∧ AgreeOn st.graph ρ ρ' ∧ P ρ' ∧
    ∀ v x, (v, x) ∈ inputPairs st.graph → ∃ w, (w, x) ∈ inputPairs st'.graph ∧ ρ' w = ρ v ∧
      ∀ ty, st.graph.getResolvedTensorType v = some ty → st'.graph.getResolvedTensorType w = some ty

theorem KeepsWith.keeps (h : KeepsWith M st st' P) : Keeps M st st' := by
  intro ρ hρ
  obtain ⟨ρ', hρ', hagree, -, hreads⟩ := h ρ hρ
  exact ⟨ρ', hρ', hagree, hreads⟩

theorem KeepsWith.mono (h : KeepsWith M st st' P) (hPQ : ∀ ρ, P ρ → Q ρ) : KeepsWith M st st' Q := by
  intro ρ hρ
  obtain ⟨ρ', hρ', hagree, hP, hreads⟩ := h ρ hρ
  exact ⟨ρ', hρ', hagree, hPQ ρ' hP, hreads⟩

theorem Keeps.keepsWith (h : Keeps M st st') : KeepsWith M st st' fun _ => True := by
  intro ρ hρ
  obtain ⟨ρ', hρ', hagree, hreads⟩ := h ρ hρ
  exact ⟨ρ', hρ', hagree, trivial, hreads⟩

theorem KeepsWith.trans (h : KeepsWith M st st₁ P) (h' : KeepsWith M st₁ st₂ Q)
    (hlen : st.graph.values.length ≤ st₁.graph.values.length) :
    KeepsWith M st st₂ fun ρ => (∃ ρ₁, AgreeOn st₁.graph ρ₁ ρ ∧ P ρ₁) ∧ Q ρ := by
  intro ρ hρ
  obtain ⟨ρ₁, hρ₁, hagree, hP, hreads⟩ := h ρ hρ
  obtain ⟨ρ₂, hρ₂, hagree', hQ, hreads'⟩ := h' ρ₁ hρ₁
  refine ⟨ρ₂, hρ₂, fun v hv => ?_, ⟨⟨ρ₁, hagree', hP⟩, hQ⟩, fun v x hv => ?_⟩
  · rw [hagree' v (Nat.lt_of_lt_of_le hv hlen)]
    exact hagree v hv
  · obtain ⟨w, hw, hval, hty⟩ := hreads v x hv
    obtain ⟨w', hw', hval', hty'⟩ := hreads' w x hw
    exact ⟨w', hw', hval'.trans hval, fun ty h => hty' ty (hty ty h)⟩

theorem Keeps.trans (h : Keeps M st st₁) (h' : Keeps M st₁ st₂)
    (hlen : st.graph.values.length ≤ st₁.graph.values.length) : Keeps M st st₂ :=
  (h.keepsWith.trans h'.keepsWith hlen).keeps

/-- A replacement by a value that has the same value in every assignment. -/
theorem Grown.replace_keepsWith (hst : Intact st) (h : Grown M st st₁ P) (hsame : ∀ ρ, P ρ → ρ new = ρ old)
    (hnew : new < st₁.graph.values.length)
    (hok : st₁.replaceInputValueIf old new (fun _ _ => true) = .ok st') :
    KeepsWith M st st' P ∧ Intact st' ∧ st.graph.values.length ≤ st'.graph.values.length := by
  obtain ⟨hcons, hrewired, hpairs, ty, hold, hty⟩ := replaceInputValueIf_spec h.intact.consistent hok
  have hok' : st₁.replaceInputValueIfWithoutTypecheck old new (fun _ _ => true) = .ok st' := by
    unfold GraphState.replaceInputValueIf at hok
    rw [hold, hty] at hok
    change (if ty ≠ ty then _ else _) = _ at hok
    rwa [if_neg (not_not.mpr rfl)] at hok
  have hgraph := replaceInputValue_graph h.intact.consistent hok'
  have hlen : st'.graph.values.length = st₁.graph.values.length := by rw [hrewired.values]
  refine ⟨fun ρ hρ => ?_, ⟨hcons, InRange.replaceAll _ _ h.intact.inRange hnew hgraph⟩, ?_⟩
  · obtain ⟨ρ', hρ', hagree, hP⟩ := h.extend ρ hρ
    refine ⟨ρ', holds_replaceInputValue h.intact.consistent (hsame ρ' hP) hok' hρ', hagree, hP, ?_⟩
    intro v x hv
    have hlt := hst.pair_lt hv
    refine ⟨moved old new v, hpairs v x (h.pairs _ hv), ?_, fun ty' hty' => ?_⟩
    · unfold moved
      split
      · rename_i hvold
        rw [hsame ρ' hP, ← hvold]
        exact hagree v hlt
      · exact hagree v hlt
    · rw [← h.types v hlt] at hty'
      rw [hrewired.type]
      unfold moved
      split
      · rename_i hvold
        rw [hvold, hold] at hty'
        rw [hty, hty']
      · exact hty'
  · rw [hlen]
    exact h.length

theorem Grown.replace (hst : Intact st) (h : Grown M st st₁ P) (hsame : ∀ ρ, P ρ → ρ new = ρ old)
    (hnew : new < st₁.graph.values.length)
    (hok : st₁.replaceInputValueIf old new (fun _ _ => true) = .ok st') :
    Keeps M st st' ∧ Intact st' ∧ st.graph.values.length ≤ st'.graph.values.length :=
  (h.replace_keepsWith hst hsame hnew hok).imp_left KeepsWith.keeps

/-! ### The turns of a pass -/

section Turns

variable {ι : Type} {visit : GraphState → ι → Except Stop GraphState} {l : List ι}

/-- The turns of a loop over nodes: the state before each, the node, and the state after it. -/
def passTurns (visit : GraphState → ι → Except Stop GraphState) :
    GraphState → List ι → List (GraphState × ι × GraphState)
  | _, [] => []
  | st, i :: l =>
      match visit st i with
      | .ok st' => (st, i, st') :: passTurns visit st' l
      | .error _ => []

theorem mem_passTurns {i : ι} (h : visit st i = .ok st') (l : List ι) :
    (st, i, st') ∈ passTurns visit st (i :: l) := by
  unfold passTurns
  rw [h]
  exact List.mem_cons_self

theorem mem_passTurns_singleton {i : ι} {t : GraphState × ι × GraphState} (h : t ∈ passTurns visit st [i]) :
    t.1 = st ∧ t.2.1 = i := by
  unfold passTurns at h
  split at h
  · exact List.mem_singleton.mp h ▸ ⟨rfl, rfl⟩
  · cases h

/-- What each turn preserves holds before every turn. -/
theorem passTurns_induct {I : GraphState → Prop}
    (hstep : ∀ st id st', I st → id ∈ l → visit st id = .ok st' → I st') (hst : I st) :
    ∀ t ∈ passTurns visit st l, I t.1 ∧ t.2.1 ∈ l ∧ visit t.1 t.2.1 = .ok t.2.2 := by
  induction l generalizing st with
  | nil => nofun
  | cons id l ih =>
      intro t ht
      unfold passTurns at ht
      split at ht
      · rename_i st₁ hvisit
        rcases List.mem_cons.mp ht with rfl | ht
        · exact ⟨hst, List.mem_cons_self, hvisit⟩
        · have hst₁ := hstep st id st₁ hst List.mem_cons_self hvisit
          obtain ⟨hI, hmem, hok⟩ := ih (fun st id' st' hI hid =>
            hstep st id' st' hI (List.mem_cons_of_mem id hid)) hst₁ t ht
          exact ⟨hI, List.mem_cons_of_mem id hmem, hok⟩
      · cases ht

/-- A run that returns has a turn for every node. -/
theorem exists_turn (h : l.foldlM visit st = .ok st') : ∀ i ∈ l, ∃ t ∈ passTurns visit st l, t.2.1 = i := by
  induction l generalizing st with
  | nil => nofun
  | cons i l ih =>
      rw [List.foldlM_cons, do_eq_ok] at h
      obtain ⟨st₁, hvisit, hrest⟩ := h
      intro j hj
      unfold passTurns
      rw [hvisit]
      rcases List.mem_cons.mp hj with rfl | hj
      · exact ⟨_, List.mem_cons_self, rfl⟩
      · obtain ⟨t, ht, htj⟩ := ih hrest j hj
        exact ⟨t, List.mem_cons_of_mem _ ht, htj⟩

/-- A run returns if every turn does from what the turns preserve. -/
theorem run_of_turns {I : GraphState → Prop}
    (hstep : ∀ st i, I st → i ∈ l → ∃ st', visit st i = .ok st' ∧ I st') (hst : I st) :
    ∃ st', l.foldlM visit st = .ok st' ∧ I st' := by
  induction l generalizing st with
  | nil => exact ⟨st, rfl, hst⟩
  | cons i l ih =>
      obtain ⟨st₁, hvisit, hst₁⟩ := hstep st i hst List.mem_cons_self
      obtain ⟨st', hrest, hst'⟩ := ih (fun st j hst hj => hstep st j hst (List.mem_cons_of_mem i hj)) hst₁
      refine ⟨st', ?_, hst'⟩
      rw [List.foldlM_cons, do_eq_ok]
      exact ⟨st₁, hvisit, hrest⟩

/-- What each turn says of its values stays said of them. -/
theorem keepsWith_of_passTurns {P : GraphState × ι × GraphState → (ValueId → α) → Prop}
    (hturns : ∀ t ∈ passTurns visit st l, KeepsWith M t.1 t.2.2 (P t) ∧
      t.1.graph.values.length ≤ t.2.2.graph.values.length ∧ LocalTo t.2.2.graph (P t))
    (h : l.foldlM visit st = .ok st') : KeepsWith M st st' fun ρ => ∀ t ∈ passTurns visit st l, P t ρ := by
  induction l generalizing st with
  | nil =>
      obtain rfl := Except.ok.inj h
      exact fun ρ hρ => ⟨ρ, hρ, fun _ _ => rfl, nofun, fun v _ hv => ⟨v, hv, rfl, fun _ h => h⟩⟩
  | cons id l ih =>
      rw [List.foldlM_cons, do_eq_ok] at h
      obtain ⟨st₁, hvisit, hrest⟩ := h
      have hcons : passTurns visit st (id :: l) = (st, id, st₁) :: passTurns visit st₁ l := by
        rw [passTurns, hvisit]
      rw [hcons] at hturns ⊢
      obtain ⟨hkeeps, hlen, hlocal⟩ := hturns _ List.mem_cons_self
      exact (hkeeps.trans (ih (fun t ht => hturns t (List.mem_cons_of_mem _ ht)) hrest) hlen).mono fun ρ hρ =>
        List.forall_mem_cons.mpr ⟨hρ.1.elim fun ρ₁ h => hlocal ρ₁ ρ h.1 h.2, hρ.2⟩

/-- A pass whose turns keep the meaning keeps it. -/
theorem keeps_of_passTurns (hturns : ∀ t ∈ passTurns visit st l, Keeps M t.1 t.2.2 ∧
      t.1.graph.values.length ≤ t.2.2.graph.values.length)
    (h : l.foldlM visit st = .ok st') : Keeps M st st' :=
  (keepsWith_of_passTurns (fun t ht => ⟨(hturns t ht).1.keepsWith, (hturns t ht).2, fun _ _ _ h => h⟩) h).keeps

end Turns

end NnEngine
