import NnEngine.Graph.Exact
import NnEngine.Graph.Readers
import NnEngine.Graph.TopologicalOrder
import NnEngine.Transform.ContiguousInsertion

/-!
# What the insertion of contiguous operands leaves

A turn of the pass puts a `Contiguous` between an operand and a node, which leaves the graph without cycles.  It keeps
what the graph computes unless it finds a `Contiguous` whose steps change the operand.
-/

namespace NnEngine

open DepthFirst InverseIndex SimpleGraphOp GraphState Relation

/-! ### Relations without cycles -/

section Cycles

variable {V : Type} {R R' : V → V → Prop} {b c : V}

/-- Nothing follows a new sink. -/
theorem acyclic_sink (h : ∀ x, ¬TransGen R x x) (hsub : ∀ x y, R' x y → R x y ∨ y = c) (hsink : ∀ y, ¬R' c y) (x : V) :
    ¬TransGen R' x x := by
  have hstep : ∀ y, TransGen R' x y → TransGen R x y ∨ y = c := by
    intro y hy
    induction hy with
    | single hxy => exact (hsub _ _ hxy).imp_left .single
    | tail _ hyz ih =>
        rcases ih with hxy | rfl
        · exact (hsub _ _ hyz).imp_left hxy.tail
        · exact absurd hyz (hsink _)
  intro hx
  rcases hstep x hx with hcycle | rfl
  · exact h x hcycle
  · obtain ⟨y, hy, -⟩ := TransGen.head'_iff.mp hx
    exact hsink y hy

/-- A vertex can be put before `b` if what comes before it comes before `b` already. -/
theorem acyclic_splice (h : ∀ x, ¬TransGen R x x) (hne : b ≠ c) (hpred : ∀ a, R a c → R a b)
    (hsub : ∀ x y, R' x y → R x y ∨ x = c ∧ y = b) (x : V) : ¬TransGen R' x x := by
  -- a path goes through the new edge or is an old one
  have hstep : ∀ y, TransGen R' x y → TransGen R x y ∨ ReflTransGen R x c ∧ ReflTransGen R b y := by
    intro y hy
    induction hy with
    | single hxy =>
        rcases hsub _ _ hxy with hxy | ⟨rfl, rfl⟩
        · exact .inl (.single hxy)
        · exact .inr ⟨.refl, .refl⟩
    | @tail y z _ hyz ih =>
        rcases hsub _ _ hyz with hyz | ⟨rfl, rfl⟩
        · rcases ih with hxy | ⟨hxc, hby⟩
          · exact .inl (hxy.tail hyz)
          · exact .inr ⟨hxc, hby.tail hyz⟩
        · rcases ih with hxy | ⟨hxc, -⟩
          · exact .inr ⟨hxy.to_reflTransGen, .refl⟩
          · exact .inr ⟨hxc, .refl⟩
  intro hx
  rcases hstep x hx with hcycle | ⟨hxc, hbx⟩
  · exact h x hcycle
  · rcases ReflTransGen.cases_tail (hbx.trans hxc) with heq | ⟨a, hba, hac⟩
    · exact hne heq.symm
    · exact h b (TransGen.tail' hba (hpred a hac))

end Cycles

/-! ### A replacement in one node -/

variable {g : Graph} {st : GraphState} {id : NodeId} {node : Node} {old new v : ValueId}

/-- The node with another value in the place of this one. -/
def Node.reading (node : Node) (old new : ValueId) : Node :=
  { node with inputs := node.inputs.map (Option.map (moved old new)) }

theorem setNode_self (hnode : g.node? id = some node) : g.setNode id node = g := by
  obtain ⟨hlt, rfl⟩ := List.getElem?_eq_some_iff.mp (node?_eq_some.mp hnode).1
  unfold Graph.setNode
  rw [List.set_getElem_self]

theorem foldlM_replaceAt (hop : ∀ v, node.op ≠ .output v) : ∀ (l : List Place) (g : Graph) (ins : List (Option ValueId)),
    g.node? id = some { node with inputs := ins } → (∀ x ∈ l, x.1 = id ∧ x.2 < ins.length) →
      l.foldlM (replaceAt old new) g = .ok (g.setNode id
        { node with inputs := l.foldl (fun ins x => ins.set x.2 (some new)) ins }) := by
  intro l
  induction l with
  | nil =>
      intro g ins hnode _
      rw [List.foldlM_nil, List.foldl_nil, setNode_self hnode]
      rfl
  | cons x l ih =>
      intro g ins hnode hl
      obtain ⟨rfl, hlt⟩ := hl x List.mem_cons_self
      have hlive := (node?_eq_some.mp hnode).2
      have hone : replaceAt old new g x = .ok (g.setNode x.1 { node with inputs := ins.set x.2 (some new) }) := by
        unfold replaceAt
        rw [hnode, orPanic_some_bind]
        dsimp only
        split
        · rename_i v hv
          exact absurd hv (hop v)
        · exact if_neg (Nat.not_le_of_lt hlt)
      have hnext : (g.setNode x.1 { node with inputs := ins.set x.2 (some new) }).node? x.1 =
          some { node with inputs := ins.set x.2 (some new) } := by
        rw [node?_setNode hnode, if_pos rfl, if_neg]
        simpa using hlive
      rw [List.foldlM_cons, hone]
      refine (ih _ _ hnext fun y hy => ?_).trans ?_
      · rw [List.length_set]
        exact hl y (List.mem_cons_of_mem _ hy)
      · simp only [Graph.setNode, List.set_set, List.foldl_cons]

theorem foldl_set_getElem? (new : ValueId) : ∀ (l : List Place) (ins : List (Option ValueId)) (k : ℕ),
    (l.foldl (fun ins x => ins.set x.2 (some new)) ins)[k]? =
      if k < ins.length ∧ ∃ x ∈ l, x.2 = k then some (some new) else ins[k]? := by
  intro l
  induction l with
  | nil => simp
  | cons x l ih =>
      intro ins k
      rw [List.foldl_cons, ih, List.length_set]
      by_cases hk : x.2 = k
      · subst hk
        by_cases hlt : x.2 < ins.length
        · simp [hlt]
        · simp [hlt]
      · have hiff : (∃ y ∈ x :: l, y.2 = k) ↔ ∃ y ∈ l, y.2 = k := by
          simp only [List.mem_cons, exists_eq_or_imp, hk, false_or]
        simp only [List.getElem?_set_ne hk, hiff]

/-- What a replacement in the operands of one node does to the graph. -/
theorem replaceIn_eq (h : Consistent st) (hnode : st.graph.node? id = some node) (hop : ∀ v, node.op ≠ .output v)
    (old new : ValueId) : ∃ st', st.replaceInputValueIfWithoutTypecheck old new (fun id2 _ => id == id2) = .ok st' ∧
      st'.graph = st.graph.setNode id (node.reading old new) := by
  obtain ⟨hindex, -, -⟩ := consistent_iff.mp h
  have hall : ∀ x ∈ places st.maps.value2used old, (st.graph.node? x.1).isSome = true :=
    fun x hx => h.usedLive old x hx
  -- the places of the node that read the value
  let l := (places st.maps.value2used old).filter fun x => (st.graph.node? x.1).any fun _ => id == x.1
  have hchanged : st.changed old (fun id2 _ => id == id2) = .ok l := by
    unfold GraphState.changed
    exact if_pos (List.all_eq_true.mpr hall)
  have hmem : ∀ x, x ∈ l ↔ x.1 = id ∧ node.inputs[x.2]? = some (some old) := by
    intro x
    rw [List.mem_filter, hindex.mem]
    constructor
    · rintro ⟨⟨user, huser, hget⟩, hany⟩
      rw [huser] at hany
      obtain rfl : id = x.1 := by simpa using hany
      obtain rfl := Option.some.inj (hnode.symm.trans huser)
      exact ⟨rfl, hget⟩
    · rintro ⟨rfl, hget⟩
      exact ⟨⟨node, hnode, hget⟩, by simp [hnode]⟩
  have hfold := @foldlM_replaceAt id node old new hop l st.graph node.inputs hnode fun x hx =>
    ⟨((hmem x).mp hx).1, (List.getElem?_eq_some_iff.mp ((hmem x).mp hx).2).1⟩
  have hins : l.foldl (fun ins x => ins.set x.2 (some new)) node.inputs =
      node.inputs.map (Option.map (moved old new)) := by
    refine List.ext_getElem? fun k => ?_
    rw [foldl_set_getElem?, List.getElem?_map]
    by_cases hk : node.inputs[k]? = some (some old)
    · have hlt := (List.getElem?_eq_some_iff.mp hk).1
      rw [if_pos ⟨hlt, (id, k), (hmem _).mpr ⟨rfl, hk⟩, rfl⟩, hk]
      simp [moved]
    · rw [if_neg]
      · cases hget : node.inputs[k]? with
        | none => rfl
        | some slot =>
            cases slot with
            | none => rfl
            | some u =>
                have hne : u ≠ old := by
                  rintro rfl
                  exact hk hget
                simp [moved, hne]
      · rintro ⟨-, x, hx, rfl⟩
        exact hk ((hmem x).mp hx).2
  rw [hins] at hfold
  unfold GraphState.replaceInputValueIfWithoutTypecheck
  rw [hchanged]
  change ∃ st', (if l.isEmpty then _ else _) = _ ∧ _
  split
  · rename_i hempty
    rw [List.isEmpty_iff.mp hempty] at hfold
    exact ⟨st, rfl, Except.ok.inj hfold⟩
  · rw [hfold]
    exact ⟨_, rfl, rfl⟩

theorem node?_reading (hnode : g.node? id = some node) (old new : ValueId) (j : NodeId) :
    (g.setNode id (node.reading old new)).node? j = if j = id then some (node.reading old new) else g.node? j := by
  have hlive := (node?_eq_some.mp hnode).2
  rw [node?_setNode hnode]
  split
  · rw [if_neg]
    simpa [Node.reading] using hlive
  · rfl

namespace ContiguousInsertion

/-! ### Typed graphs -/

/-- A graph with typed operands and without cycles, in which the steps of a `Contiguous` lead from the dims of its operand
to those of its output. -/
structure Flow (g : Graph) : Prop where
  single : ∀ d d' node node', g.node? d = some node → g.node? d' = some node' →
    ∀ v ∈ node.outputs, v ∈ node'.outputs → d = d'
  acyclic : ∀ id, ¬TransGen g.Feeds id id
  resolved : ∀ v x, (v, x) ∈ inputPairs g → ∃ ty, g.getResolvedTensorType v = some ty
  contiguous : ∀ id ops ins outs, g.Has id (.contiguous ops) ins outs → ∃ v o ty d, ins = [some v] ∧ outs = [o] ∧
    g.getResolvedTensorType v = some ty ∧ outDims ops ty.dims = some d ∧
      g.getResolvedTensorType o = some (.new ty.elemType d)

/-- The operands that a node must have. -/
def required : Operator → List Nat
  | .batchedGemm _ => [0, 1]
  | .attention _ => [args.ATTENTION_Q, args.ATTENTION_K, args.ATTENTION_V]
  | .averagePool _ | .maxPool _ => [0]
  | .conv _ => [0, args.CONV_WEIGHT]
  | .kvCacheUpdate => [args.KVCACHE_UPDATE_CACHE, args.KVCACHE_UPDATE_NEW]
  | .quantizingKVCacheUpdate => [args.QKVCACHE_UPDATE_CACHE, args.QKVCACHE_UPDATE_NEW]
  | .rope _ => [args.ROPE_X]
  | _ => []

/-- A typed graph as the pass finds it. -/
structure Typed (g : Graph) : Prop extends Flow g where
  intact : Intact (.new g)
  operands : ∀ id node, g.node? id = some node → ∀ k ∈ required node.op, ∃ v, node.inputs[k]? = some (some v)

/-! ### The slots of a graph -/

/-- The slots of a node, none for a node that the pass does not handle. -/
def slotsOf (g : Graph) (id : NodeId) : List (NodeId × Slot) :=
  (((g.node? id).bind slots).getD []).map fun slot => (id, slot)

/-- The slots of all nodes, in the order of the pass. -/
def tasks (g : Graph) : List (NodeId × Slot) := (candidates g).flatMap (slotsOf g)

/-- The turn of a slot. -/
def step (st : GraphState) (task : NodeId × Slot) : Except Stop GraphState := turn task.1 st task.2

/-- The turns: the state before each, the slot, and the state after it. -/
def turns (g : Graph) : List (GraphState × (NodeId × Slot) × GraphState) := passTurns step (.new g) (tasks g)

/-- The turn finds this `Contiguous` output for the operand. -/
def Finds (t : GraphState × (NodeId × Slot) × GraphState) (v w : ValueId) : Prop :=
  t.2.1.2.input t.1.graph t.2.1.1 = some v ∧ find t.1 v = .ok (some w)

/-- The turn replaces the operand by this value. -/
def Replaces (t : GraphState × (NodeId × Slot) × GraphState) (v w : ValueId) : Prop :=
  t.2.1.2.input t.1.graph t.2.1.1 = some v ∧ ∃ st, findOrCreateContiguous t.1 v t.2.1.2.name = .ok (w, st)

/-! ### What the pass should leave -/

variable {α : Type}

/-- A value is a contiguous one of the same element type and dims as another. -/
def ContiguousType (g : Graph) (v w : ValueId) : Prop :=
  ∃ ty, g.getResolvedTensorType v = some ty ∧ g.getResolvedTensorType w = some ty.contiguous

/-- The graph after the pass has no cycles; every operand that is replaced becomes a contiguous value of the same dims and
with the same elements; the operands of the handled slots are contiguous, and every operand reads what it read. -/
structure Inserted (M : Meaning α) (g g' : Graph) : Prop where
  acyclic : ∀ id, ¬TransGen g'.Feeds id id
  contiguous : ∀ t ∈ turns g, ∀ v w, Replaces t v w → ContiguousType g' v w
  handled : ∀ id node, g.node? id = some node → ∀ slot ∈ (slots node).getD [], ∀ v,
    node.inputs[slot.arg]? = some (some v) → ∃ w, (w, id, slot.arg) ∈ inputPairs g' ∧ ContiguousType g' v w
  keeps : ∀ ρ, M.Holds g ρ → ∃ ρ', M.Holds g' ρ' ∧ AgreeOn g ρ ρ' ∧
    (∀ t ∈ turns g, ∀ v w, Replaces t v w → ρ' w = ρ' v) ∧
      ∀ v x, (v, x) ∈ inputPairs g → ∃ w, (w, x) ∈ inputPairs g' ∧ ρ' w = ρ v

/-- The pass does not panic and leaves the graph so. -/
def Inserts (M : Meaning α) (g : Graph) : Prop := ∃ st', run (.new g) = .ok st' ∧ Inserted M g st'.graph

/-- A `Contiguous` without steps copies, and layouts do not matter. -/
structure Copying (M : Meaning α) : Prop where
  copy : ∀ x, M.op (.contiguous []) [some x] [x]
  hasType : ∀ ty x, M.hasType ty x → M.hasType ty.contiguous x

/-- No `BatchedGemm` has an absent operand. -/
def AllPresent (g : Graph) : Prop :=
  ∀ id node gemm, g.node? id = some node → node.op = .batchedGemm gemm → none ∉ node.inputs

/-- Every `Contiguous` of the graph that the pass finds for an operand has the dims and the elements of the operand. -/
def FindsCopies (M : Meaning α) (g : Graph) : Prop :=
  ∀ t ∈ turns g, ∀ v w, Finds t v w → ∀ c ops, g.Has c (.contiguous ops) [some v] [w] →
    ContiguousType g v w ∧ ∀ ρ, M.Holds g ρ → ρ w = ρ v

/-! ### One turn -/

variable {st₁ : GraphState} {w : ValueId} {name : String} {ty : ResolvedTensorType}

/-- A state with the `Contiguous` that makes `w` of `v`, and nothing else new. -/
structure Provided (st st₁ : GraphState) (v w : ValueId) : Prop where
  intact : Intact st₁
  flow : Flow st₁.graph
  length : st.graph.values.length ≤ st₁.graph.values.length
  nodesLength : st.graph.nodes.length ≤ st₁.graph.nodes.length
  types : ∀ u < st.graph.values.length, st₁.graph.getResolvedTensorType u = st.graph.getResolvedTensorType u
  nodes : ∀ id node, st.graph.node? id = some node → st₁.graph.node? id = some node
  copy : ∃ c ops, st₁.graph.Has c (.contiguous ops) [some v] [w]
  new : ∀ id node, st₁.graph.node? id = some node → st.graph.node? id = some node ∨
    node.inputs = [some v] ∧ node.outputs = [w]

theorem findContiguous_ok (hflow : Flow g) (v : ValueId) : ∀ users : List Place,
    (∀ x ∈ users, (g.node? x.1).isSome = true) → ∃ r, findContiguous g v users = .ok r ∧
      ∀ w, r = some w → ∃ c ops, g.Has c (.contiguous ops) [some v] [w] := by
  intro users
  induction users with
  | nil => exact fun _ => ⟨none, rfl, nofun⟩
  | cons x users ih =>
      intro hlive
      obtain ⟨user, huser⟩ := Option.isSome_iff_exists.mp (hlive x List.mem_cons_self)
      obtain ⟨r, hr, hfound⟩ := ih fun y hy => hlive y (List.mem_cons_of_mem _ hy)
      unfold findContiguous
      rw [huser, orPanic_some_bind]
      by_cases hop : ∃ ops, user.op = .contiguous ops
      · obtain ⟨ops, hop⟩ := hop
        obtain ⟨u, o, -, -, hins, houts, -⟩ := hflow.contiguous x.1 ops _ _ ⟨user, huser, hop, rfl, rfl⟩
        rw [hop, hins, houts]
        show ∃ r, (if u = v then .ok (some o) else findContiguous g v users) = .ok r ∧ _
        split
        · rename_i huv
          subst huv
          refine ⟨some o, rfl, fun w hw => ⟨x.1, ops, user, huser, hop, hins, ?_⟩⟩
          rw [houts, Option.some.inj hw]
        · exact ⟨r, hr, hfound⟩
      · have hnot : isContiguous user.op = false := by
          cases hcase : user.op <;> first | rfl | exact absurd ⟨_, hcase⟩ hop
        rw [hnot]
        exact ⟨r, hr, hfound⟩

/-- The search for a `Contiguous` does not panic, and finds one that reads the value. -/
theorem find_ok (h : Consistent st) (hflow : Flow st.graph) (v : ValueId) : ∃ r, find st v = .ok r ∧
    ∀ w, r = some w → ∃ c ops, st.graph.Has c (.contiguous ops) [some v] [w] :=
  findContiguous_ok hflow v _ fun x hx => h.usedLive v x hx

/-- The node that `create` registers. -/
def copyNode (v w : ValueId) (name : String) : Node where
  inputs := [some v]
  outputs := [w]
  name := s!"{name}_contiguous"
  op := .contiguous []
  markAsDeleted := false

theorem create_eq (st : GraphState) (v : ValueId) (name : String) (ty : ResolvedTensorType) :
    create st v name ty = (st.graph.values.length,
      (st.registerNewValue s!"{name}_contiguous" ty.contiguous).2.registerNewNode
        (copyNode v st.graph.values.length name)) := rfl

theorem create_type (st : GraphState) (v : ValueId) (name : String) (ty : ResolvedTensorType) :
    (create st v name ty).2.graph.getResolvedTensorType (create st v name ty).1 = some ty.contiguous :=
  registerNewValue_type st _ _

/-- A new copy is provided. -/
theorem create_provided (h : Intact st) (hflow : Flow st.graph) (hty : st.graph.getResolvedTensorType v = some ty) :
    Provided st (create st v name ty).2 v (create st v name ty).1 := by
  rw [create_eq]
  have hlive : (copyNode v st.graph.values.length name).markAsDeleted = false := rfl
  have hvalue := registerNewValue_intact h s!"{name}_contiguous" ty.contiguous
  have hlength : (st.registerNewValue s!"{name}_contiguous" ty.contiguous).2.graph.values.length =
      st.graph.values.length + 1 := by
    show (st.graph.values ++ [_]).length = _
    simp
  have hv := type_lt hty
  have hnode := node?_registerNewNode (st.registerNewValue s!"{name}_contiguous" ty.contiguous).2 hlive
  have htypes : ∀ u < st.graph.values.length,
      (st.registerNewValue s!"{name}_contiguous" ty.contiguous).2.graph.getResolvedTensorType u =
        st.graph.getResolvedTensorType u :=
    fun u hu => registerNewValue_type_of_lt st _ _ hu
  have hnew := registerNewValue_type st s!"{name}_contiguous" ty.contiguous
  have hadded : ∀ id node, st.graph.node? id = some node →
      ((st.registerNewValue s!"{name}_contiguous" ty.contiguous).2.registerNewNode
        (copyNode v st.graph.values.length name)).graph.node? id = some node :=
    fun id node hid => node?_registerNewNode_of_some hlive hid
  -- a node of the new graph is the new one or an old one
  have hcases : ∀ id node, ((st.registerNewValue s!"{name}_contiguous" ty.contiguous).2.registerNewNode
      (copyNode v st.graph.values.length name)).graph.node? id = some node →
        id = st.graph.nodes.length ∧ node = copyNode v st.graph.values.length name ∨
          id ≠ st.graph.nodes.length ∧ st.graph.node? id = some node := by
    intro id node hid
    rw [hnode] at hid
    split at hid
    · rename_i heq
      exact .inl ⟨heq, (Option.some.inj hid).symm⟩
    · rename_i hne
      exact .inr ⟨hne, hid⟩
  -- nobody reads the new value
  have hunread : ∀ id node, ((st.registerNewValue s!"{name}_contiguous" ty.contiguous).2.registerNewNode
      (copyNode v st.graph.values.length name)).graph.node? id = some node →
        st.graph.values.length ∉ node.operands := by
    intro id node hid hmem
    have hmem' : some st.graph.values.length ∈ node.inputs := by
      obtain ⟨o, ho, heq⟩ := List.mem_filterMap.mp hmem
      rwa [heq] at ho
    rcases hcases id node hid with ⟨-, rfl⟩ | ⟨-, hid⟩
    · rw [copyNode, List.mem_singleton] at hmem'
      exact absurd hv (Option.some.inj hmem' ▸ Nat.lt_irrefl _)
    · exact absurd (h.inRange.inputs id node hid _ hmem') (Nat.lt_irrefl _)
  refine ⟨registerNewNode_intact hvalue hlive (fun u hu => ?_) fun u hu => ?_, ⟨?_, ?_, ?_, ?_⟩, ?_, ?_, htypes, hadded,
    ?_, ?_⟩
  · rw [copyNode, List.mem_singleton] at hu
    rw [hlength, Option.some.inj hu]
    exact Nat.lt_succ_of_lt hv
  · rw [copyNode, List.mem_singleton] at hu
    rw [hlength, hu]
    exact Nat.lt_succ_self _
  · intro d d' node node' hd hd' u hu hu'
    rcases hcases d node hd with ⟨rfl, rfl⟩ | ⟨-, hd⟩ <;> rcases hcases d' node' hd' with ⟨rfl, rfl⟩ | ⟨-, hd'⟩
    · rfl
    · rw [copyNode, List.mem_singleton] at hu
      rw [hu] at hu'
      exact absurd (h.inRange.outputs _ _ hd' _ hu') (Nat.lt_irrefl _)
    · rw [copyNode, List.mem_singleton] at hu'
      rw [hu'] at hu
      exact absurd (h.inRange.outputs _ _ hd _ hu) (Nat.lt_irrefl _)
    · exact hflow.single d d' node node' hd hd' u hu hu'
  · refine @acyclic_sink _ _ _ st.graph.nodes.length hflow.acyclic (fun x y hxy => ?_) fun y hy => ?_
    · obtain ⟨node, user, hx, hy, u, hu, hread⟩ := hxy
      rcases hcases y user hy with ⟨rfl, -⟩ | ⟨-, hy'⟩
      · exact .inr rfl
      · rcases hcases x node hx with ⟨-, rfl⟩ | ⟨-, hx'⟩
        · rw [copyNode, List.mem_singleton] at hu
          exact absurd (hu ▸ hread) (hunread y user hy)
        · exact .inl ⟨node, user, hx', hy', u, hu, hread⟩
    · obtain ⟨node, user, hx, hy, u, hu, hread⟩ := hy
      rcases hcases _ node hx with ⟨-, rfl⟩ | ⟨hne, -⟩
      · rw [copyNode, List.mem_singleton] at hu
        exact absurd (hu ▸ hread) (hunread y user hy)
      · exact hne rfl
  · rintro u x ⟨node, hx, hget⟩
    rcases hcases x.1 node hx with ⟨-, rfl⟩ | ⟨-, hx⟩
    · have hu : some u ∈ [some v] := List.mem_of_getElem? hget
      rw [List.mem_singleton] at hu
      rw [Option.some.inj hu]
      exact ⟨ty, (htypes v hv).trans hty⟩
    · obtain ⟨ty', hty'⟩ := hflow.resolved u x ⟨node, hx, hget⟩
      exact ⟨ty', (htypes u (type_lt hty')).trans hty'⟩
  · rintro id ops ins outs ⟨node, hid, hop, rfl, rfl⟩
    rcases hcases id node hid with ⟨-, rfl⟩ | ⟨-, hid⟩
    · obtain rfl := Operator.contiguous.inj hop
      exact ⟨v, _, ty, ty.dims, rfl, rfl, (htypes v hv).trans hty, rfl, hnew⟩
    · obtain ⟨u, o, ty', d, hins, houts, hu, hd, ho⟩ := hflow.contiguous id ops _ _ ⟨node, hid, hop, rfl, rfl⟩
      exact ⟨u, o, ty', d, hins, houts, (htypes u (type_lt hu)).trans hu, hd, (htypes o (type_lt ho)).trans ho⟩
  · show _ ≤ (st.graph.values ++ [_]).length
    simp
  · show _ ≤ (st.graph.nodes ++ [_]).length
    simp
  · exact ⟨_, [], has_registerNewNode _ hlive⟩
  · intro id node hid
    rcases hcases id node hid with ⟨-, rfl⟩ | ⟨-, hid⟩
    · exact .inr ⟨rfl, rfl⟩
    · exact .inl hid

/-- What `find_or_create_contiguous` does. -/
theorem findOrCreateContiguous_ok (h : Intact st) (hflow : Flow st.graph)
    (hty : st.graph.getResolvedTensorType v = some ty) : ∃ w st₁,
    findOrCreateContiguous st v name = .ok (w, st₁) ∧ Provided st st₁ v w ∧
      (find st v = .ok (some w) ∧ st₁ = st ∨ (w, st₁) = create st v name ty) := by
  obtain ⟨r, hr, hfound⟩ := find_ok h.consistent hflow v
  unfold findOrCreateContiguous
  rw [hr]
  cases r with
  | some w =>
      exact ⟨w, st, rfl, ⟨h, hflow, Nat.le_refl _, Nat.le_refl _, fun _ _ => rfl, fun _ _ h => h, hfound w rfl,
        fun _ _ h => .inl h⟩, .inl ⟨rfl, rfl⟩⟩
  | none =>
      refine ⟨(create st v name ty).1, (create st v name ty).2, ?_, create_provided h hflow hty, .inr rfl⟩
      show (orPanic (st.graph.getResolvedTensorType v)).map (create st v name) = _
      rw [hty]
      rfl

/-- A replacement in a node of what a `Contiguous` reads by what it makes leaves no cycle. -/
theorem Flow.setNode (hflow : Flow g) (hnode : g.node? id = some node) {c : NodeId} {ops : List ReinterpretType}
    (hcopy : g.Has c (.contiguous ops) [some v] [w]) (hop : isHandled node.op = true) :
    Flow (g.setNode id (node.reading v w)) := by
  have hget := node?_reading hnode v w
  have hne : id ≠ c := by
    rintro rfl
    obtain ⟨node', hnode', hop', -⟩ := hcopy
    obtain rfl := Option.some.inj (hnode.symm.trans hnode')
    rw [hop'] at hop
    cases hop
  -- the outputs and the operators are as they were
  have hold : ∀ j node', (g.setNode id (node.reading v w)).node? j = some node' → ∃ node'', g.node? j = some node'' ∧
      node''.outputs = node'.outputs ∧ node''.op = node'.op ∧ (j ≠ id → node'' = node') := by
    intro j node' hj
    rw [hget] at hj
    split at hj
    · rename_i heq
      obtain rfl := Option.some.inj hj
      exact ⟨node, heq ▸ hnode, rfl, rfl, fun hne => absurd heq hne⟩
    · exact ⟨node', hj, rfl, rfl, fun _ => rfl⟩
  -- an operand of the node is an old one or the copy of one
  have hread : ∀ u, some u ∈ (node.reading v w).inputs → some u ∈ node.inputs ∨ u = w ∧ some v ∈ node.inputs := by
    intro u hu
    obtain ⟨slot, hslot, heq⟩ := List.mem_map.mp hu
    obtain ⟨u', rfl, hu'⟩ := Option.map_eq_some_iff.mp heq
    unfold moved at hu'
    split at hu'
    · rename_i hv
      exact .inr ⟨hu'.symm, hv ▸ hslot⟩
    · exact .inl (hu' ▸ hslot)
  have hcontiguous := hflow.contiguous c ops _ _ hcopy
  obtain ⟨cnode, hcnode, -, hcins, hcouts⟩ := hcopy
  by_cases hreads : some v ∈ node.inputs
  · refine ⟨fun d d' node₁ node₂ hd hd' u hu hu' => ?_, ?_, fun u x hux => ?_, fun j ops' ins outs hhas => ?_⟩
    · obtain ⟨node₁', hd, houts, -⟩ := hold d node₁ hd
      obtain ⟨node₂', hd', houts', -⟩ := hold d' node₂ hd'
      exact hflow.single d d' node₁' node₂' hd hd' u (houts ▸ hu) (houts' ▸ hu')
    · refine acyclic_splice hflow.acyclic hne (fun a ha => ?_) fun x y hxy => ?_
      · obtain ⟨node₁, user, ha, huser, u, hu, hmem⟩ := ha
        obtain rfl := Option.some.inj (hcnode.symm.trans huser)
        obtain ⟨slot, hslot, hslot'⟩ := List.mem_filterMap.mp hmem
        rw [hcins, List.mem_singleton] at hslot
        obtain rfl := Option.some.inj (hslot'.symm.trans hslot)
        exact ⟨node₁, node, ha, hnode, u, hu, List.mem_filterMap.mpr ⟨some u, hreads, rfl⟩⟩
      · obtain ⟨node₁, user, hx, hy, u, hu, hmem⟩ := hxy
        obtain ⟨node₁', hx', houts, -⟩ := hold x node₁ hx
        rw [← houts] at hu
        obtain ⟨slot, hslot, hslot'⟩ := List.mem_filterMap.mp hmem
        obtain rfl : slot = some u := hslot'
        rw [hget] at hy
        split at hy
        · rename_i heq
          obtain rfl := Option.some.inj hy
          rcases hread u hslot with hslot | ⟨rfl, -⟩
          · exact .inl ⟨node₁', node, hx', heq ▸ hnode, u, hu, List.mem_filterMap.mpr ⟨some u, hslot, rfl⟩⟩
          · exact .inr ⟨hflow.single x c node₁' cnode hx' hcnode u hu (by rw [hcouts]; exact List.mem_singleton_self u),
              heq⟩
        · exact .inl ⟨node₁', user, hx', hy, u, hu, hmem⟩
    · obtain ⟨node', hx, hu⟩ := hux
      rw [hget] at hx
      split at hx
      · rename_i heq
        obtain rfl := Option.some.inj hx
        rcases hread u (List.mem_of_getElem? hu) with hslot | ⟨rfl, -⟩
        · obtain ⟨k, hk⟩ := List.mem_iff_getElem?.mp hslot
          exact hflow.resolved u (id, k) ⟨node, hnode, hk⟩
        · obtain ⟨-, o, ty, d, -, houts, -, -, ho⟩ := hcontiguous
          obtain rfl : u = o := by simpa using houts
          exact ⟨_, ho⟩
      · exact hflow.resolved u x ⟨node', hx, hu⟩
    · obtain ⟨node', hj, hop', rfl, rfl⟩ := hhas
      obtain ⟨node'', hj', -, hsame, heq⟩ := hold j node' hj
      have hjid : j ≠ id := by
        rintro rfl
        obtain rfl := Option.some.inj (hnode.symm.trans hj')
        rw [hsame, hop'] at hop
        cases hop
      obtain rfl := heq hjid
      exact hflow.contiguous j ops' _ _ ⟨node'', hj', hop', rfl, rfl⟩
  · -- the node does not read the value
    have hsame : node.reading v w = node := by
      unfold Node.reading
      have hmap : node.inputs.map (Option.map (moved v w)) = node.inputs := by
        refine (List.map_congr_left fun slot hslot => ?_).trans (List.map_id _)
        cases slot with
        | none => rfl
        | some u =>
            have hu : u ≠ v := by
              rintro rfl
              exact hreads hslot
            simp [moved, hu]
      rw [hmap]
    rw [hsame, setNode_self hnode]
    exact hflow

/-- What the turns so far have made of a graph: `σ` gives what a node now reads for an operand. -/
structure Inv (g : Graph) (visited : List NodeId) (st : GraphState) (σ : NodeId → ValueId → ValueId) : Prop where
  intact : Intact st
  flow : Flow st.graph
  length : g.values.length ≤ st.graph.values.length
  nodesLength : g.nodes.length ≤ st.graph.nodes.length
  types : ∀ v < g.values.length, st.graph.getResolvedTensorType v = g.getResolvedTensorType v
  kept : ∀ id node, g.node? id = some node →
    st.graph.node? id = some { node with inputs := node.inputs.map (Option.map (σ id)) }
  same : ∀ id ∉ visited, ∀ v, σ id v = v
  handled : ∀ id ∈ visited, ∃ node, g.node? id = some node ∧ isHandled node.op = true

theorem Inv.start (hg : Typed g) : Inv g [] (.new g) fun _ v => v where
  intact := hg.intact
  flow := hg.toFlow
  length := Nat.le_refl _
  nodesLength := Nat.le_refl _
  types _ _ := rfl
  kept id node hnode := by
    have hmap : node.inputs.map (Option.map fun v => v) = node.inputs := by simp
    rw [hmap]
    exact hnode
  same _ _ _ := rfl
  handled _ hid := absurd hid List.not_mem_nil

/-- The value that a node reads for an operand, after a replacement in one node. -/
def rename (σ : NodeId → ValueId → ValueId) (id : NodeId) (old new : ValueId) (j : NodeId) (v : ValueId) : ValueId :=
  if j = id then moved old new (σ j v) else σ j v

/-- The turn of a slot with an operand: what is provided, and the replacement. -/
structure Turned (st st' : GraphState) (id : NodeId) (slot : Slot) (v w : ValueId) (st₁ : GraphState) : Prop where
  input : slot.input st.graph id = some v
  found : findOrCreateContiguous st v slot.name = .ok (w, st₁)
  provided : Provided st st₁ v w
  origin : find st v = .ok (some w) ∧ st₁ = st ∨
    ∃ ty, st.graph.getResolvedTensorType v = some ty ∧ (w, st₁) = create st v slot.name ty
  graph : ∀ node, st.graph.node? id = some node → st'.graph = st₁.graph.setNode id (node.reading v w)

variable {st' : GraphState} {visited : List NodeId} {σ : NodeId → ValueId → ValueId} {slot : Slot}

theorem rename_self (σ : NodeId → ValueId → ValueId) (id : NodeId) (old new u : ValueId) :
    rename σ id old new id u = moved old new (σ id u) := if_pos rfl

theorem rename_of_ne {j : NodeId} (σ : NodeId → ValueId → ValueId) (hj : j ≠ id) (old new u : ValueId) :
    rename σ id old new j u = σ j u := if_neg hj

/-- The turn of a slot that has an operand does not panic. -/
theorem Inv.turn_ok (h : Inv g visited st σ) (hnode : g.node? id = some node) (hop : isHandled node.op = true)
    (hv : slot.input st.graph id = some v) (hty : st.graph.getResolvedTensorType v = some ty) :
    ∃ st' w st₁, turn id st slot = .ok st' ∧ Turned st st' id slot v w st₁ ∧
      Inv g (id :: visited) st' (rename σ id v w) := by
  obtain ⟨w, st₁, hfound, hprovided, horigin⟩ := findOrCreateContiguous_ok h.intact h.flow hty
  have hnow := h.kept id node hnode
  have hnow₁ := hprovided.nodes _ _ hnow
  have hplain : ∀ u, node.op ≠ .output u := by
    intro u hu
    rw [hu] at hop
    cases hop
  obtain ⟨st', hreplace, hgraph⟩ := replaceIn_eq hprovided.intact.consistent hnow₁ hplain v w
  obtain ⟨c, ops, hcopy⟩ := hprovided.copy
  have hwlt : w < st₁.graph.values.length := by
    obtain ⟨cnode, hcnode, -, -, houts⟩ := hcopy
    exact hprovided.intact.inRange.outputs c cnode hcnode w (by rw [houts]; exact List.mem_singleton_self w)
  have hget := node?_reading hnow₁ v w
  have hvalues : st'.graph.values = st₁.graph.values := by rw [hgraph]; rfl
  have htypes : ∀ u, st'.graph.getResolvedTensorType u = st₁.graph.getResolvedTensorType u := by
    intro u
    unfold Graph.getResolvedTensorType
    rw [hvalues]
  have hinRange : InRange st'.graph := by
    have hg := hprovided.intact.inRange
    rw [hgraph]
    refine ⟨fun j node' hj u hu => ?_, fun j node' hj u hu => ?_, hg.initializers, hg.externals⟩
    · rw [hget] at hj
      split at hj
      · obtain rfl := Option.some.inj hj
        obtain ⟨o, ho, heq⟩ := List.mem_map.mp hu
        obtain ⟨u', rfl, hu'⟩ := Option.map_eq_some_iff.mp heq
        unfold moved at hu'
        split at hu'
        · exact hu' ▸ hwlt
        · exact hu' ▸ hg.inputs id _ hnow₁ u' ho
      · exact hg.inputs j node' hj u hu
    · rw [hget] at hj
      split at hj
      · obtain rfl := Option.some.inj hj
        exact hg.outputs id _ hnow₁ u hu
      · exact hg.outputs j node' hj u hu
  refine ⟨st', w, st₁, ?_, ⟨hv, hfound, hprovided, horigin.imp_right fun h => ⟨ty, hty, h⟩, fun node' hnode' => ?_⟩, ?_⟩
  · unfold turn
    rw [hv, orPanic_some_bind, hfound]
    exact hreplace
  · obtain rfl := Option.some.inj (hnow.symm.trans hnode')
    exact hgraph
  · refine ⟨⟨replaceInputValue_consistent hprovided.intact.consistent hreplace, hinRange⟩, ?_, ?_, ?_, fun u hu => ?_,
      fun j node' hj => ?_, fun j hj u => ?_, fun j hj => ?_⟩
    · rw [hgraph]
      exact hprovided.flow.setNode hnow₁ hcopy hop
    · rw [hvalues]
      exact h.length.trans hprovided.length
    · rw [hgraph]
      show g.nodes.length ≤ (st₁.graph.nodes.set id _).length
      rw [List.length_set]
      exact h.nodesLength.trans hprovided.nodesLength
    · rw [htypes, hprovided.types u (Nat.lt_of_lt_of_le hu h.length), h.types u hu]
    · rw [hgraph, hget]
      split
      · rename_i heq
        subst heq
        obtain rfl := Option.some.inj (hnode.symm.trans hj)
        have hfun : Option.map (rename σ j v w j) = fun o => Option.map (moved v w) (Option.map (σ j) o) := by
          funext o
          cases o with
          | none => rfl
          | some u => simp [rename_self]
        unfold Node.reading
        simp only [hfun, List.map_map]
        rfl
      · rename_i hne
        have hfun : rename σ id v w j = σ j := funext fun u => rename_of_ne σ hne v w u
        rw [hfun]
        exact hprovided.nodes _ _ (h.kept j node' hj)
    · rw [List.mem_cons, not_or] at hj
      rw [rename_of_ne σ hj.1]
      exact h.same j hj.2 u
    · rcases List.mem_cons.mp hj with rfl | hj
      · exact ⟨node, hnode, hop⟩
      · exact h.handled j hj

/-! ### The slots of a node -/

theorem slots_isSome : (slots node).isSome = isHandled node.op := by
  unfold slots
  cases node.op <;> rfl

/-- A slot was read when the handler started, or is read when its turn comes. -/
theorem slot_cases (hslot : slot ∈ (slots node).getD []) :
    slot.input g id = node.inputs[slot.arg]?.join ∨
      slot.input g id = (g.node? id).bind fun node => node.inputs[slot.arg]?.join := by
  have hclone : ∀ l : List (Nat × String), slot ∈ l.map (fun x => clone node x.1 x.2) →
      slot.input g id = node.inputs[slot.arg]?.join := by
    intro l hl
    obtain ⟨x, -, rfl⟩ := List.mem_map.mp hl
    rfl
  unfold slots at hslot
  split at hslot
  · refine .inl (hclone ((List.range node.inputs.length).map fun i => (i, s!"{node.name}_input_{i}")) ?_)
    rw [List.map_map]
    exact hslot
  · obtain ⟨arg, -, rfl⟩ := List.mem_map.mp hslot
    exact .inr rfl
  all_goals
    first
    | exact .inl (hclone [(_, _)] hslot)
    | cases hslot

/-- All slots of a node have an operand if none of a `BatchedGemm` is absent. -/
theorem slot_present (hg : Typed g) (hall : AllPresent g) (hnode : g.node? id = some node)
    (hslot : slot ∈ (slots node).getD []) : ∃ v, node.inputs[slot.arg]? = some (some v) := by
  have hreq := hg.operands id node hnode
  have hsingle : ∀ k name, slot ∈ [clone node k name] → k ∈ required node.op →
      ∃ v, node.inputs[slot.arg]? = some (some v) := by
    intro k name hmem hk
    obtain rfl := List.mem_singleton.mp hmem
    exact hreq k hk
  unfold slots at hslot
  split at hslot
  · rename_i gemm hop
    obtain ⟨i, hi, rfl⟩ := List.mem_map.mp hslot
    have hlt := List.mem_range.mp hi
    cases hget : node.inputs[i] with
    | none =>
        have hmem : node.inputs[i] ∈ node.inputs := List.getElem_mem hlt
        rw [hget] at hmem
        exact absurd hmem (hall id node gemm hnode hop)
    | some v => exact ⟨v, by rw [← hget]; exact List.getElem?_eq_getElem hlt⟩
  · rename_i attn hop
    obtain ⟨arg, harg, rfl⟩ := List.mem_map.mp hslot
    rw [hop] at hreq
    rcases List.mem_append.mp harg with harg | harg
    · exact hreq arg harg
    · -- the mask is there
      split at harg
      · rename_i hmask
        obtain rfl := List.mem_singleton.mp harg
        obtain ⟨v, hv⟩ := Option.isSome_iff_exists.mp hmask
        exact ⟨v, Option.join_eq_some_iff.mp hv⟩
      · cases harg
  · rename_i hop
    exact hsingle _ _ hslot (by rw [hop]; exact List.mem_cons_self)
  · rename_i hop
    exact hsingle _ _ hslot (by rw [hop]; exact List.mem_cons_self)
  · rename_i hop
    exact hsingle _ _ hslot (by rw [hop]; exact List.mem_cons_self)
  · rename_i hop
    exact hsingle _ _ hslot (by rw [hop]; exact List.mem_cons_of_mem _ List.mem_cons_self)
  · rename_i hop
    exact hsingle _ _ hslot (by rw [hop]; exact List.mem_cons_of_mem _ List.mem_cons_self)
  · rename_i hop
    exact hsingle _ _ hslot (by rw [hop]; exact List.mem_cons_self)
  · cases hslot

/-- The operand that a turn takes up, for the one that the node had. -/
theorem Inv.slot_input (h : Inv g visited st σ) (hnode : g.node? id = some node) (hslot : slot ∈ (slots node).getD []) :
    slot.input st.graph id = node.inputs[slot.arg]?.join ∨
      slot.input st.graph id = node.inputs[slot.arg]?.join.map (σ id) := by
  refine (slot_cases hslot).imp_right fun hread => ?_
  rw [hread, h.kept id node hnode]
  show (node.inputs.map (Option.map (σ id)))[slot.arg]?.join = _
  rw [List.getElem?_map]
  cases node.inputs[slot.arg]? with
  | none => rfl
  | some o => rfl

/-- What the turn of a slot does, whether or not the slot has an operand. -/
theorem Inv.slot_turn (hg : Typed g) (h : Inv g visited st σ) (hnode : g.node? id = some node)
    (hslot : slot ∈ (slots node).getD []) :
    node.inputs[slot.arg]?.join = none ∧ turn id st slot = .error .panic ∨
      ∃ u v w st' st₁, node.inputs[slot.arg]? = some (some u) ∧ (v = u ∨ v = σ id u) ∧ turn id st slot = .ok st' ∧
        Turned st st' id slot v w st₁ ∧ Inv g (id :: visited) st' (rename σ id v w) := by
  have hop : isHandled node.op = true := by
    rw [← slots_isSome]
    cases hs : slots node with
    | none => rw [hs] at hslot; cases hslot
    | some l => rfl
  have hin := h.slot_input hnode hslot
  cases hu : node.inputs[slot.arg]?.join with
  | none =>
      rw [hu, Option.map_none, or_self] at hin
      refine .inl ⟨rfl, ?_⟩
      unfold turn
      rw [hin]
      rfl
  | some u =>
      have hget := Option.join_eq_some_iff.mp hu
      obtain ⟨ty, hty⟩ := hg.resolved u (id, slot.arg) ⟨node, hnode, hget⟩
      rw [hu, Option.map_some] at hin
      obtain ⟨v, hv, hvu, ty', hty'⟩ : ∃ v, slot.input st.graph id = some v ∧ (v = u ∨ v = σ id u) ∧
          ∃ ty, st.graph.getResolvedTensorType v = some ty := by
        rcases hin with hin | hin
        · exact ⟨u, hin, .inl rfl, ty, (h.types u (type_lt hty)).trans hty⟩
        · refine ⟨σ id u, hin, .inr rfl, h.flow.resolved (σ id u) (id, slot.arg) ⟨_, h.kept id node hnode, ?_⟩⟩
          show (node.inputs.map (Option.map (σ id)))[slot.arg]? = _
          rw [List.getElem?_map, hget]
          rfl
      obtain ⟨st', w, st₁, hok, hturned, hinv⟩ := h.turn_ok hnode hop hv hty'
      exact .inr ⟨u, v, w, st', st₁, hget, hvu, hok, hturned, hinv⟩

/-! ### The run, slot by slot -/

theorem mem_candidates : id ∈ candidates g ↔ ∃ node, g.node? id = some node ∧ isHandled node.op = true := by
  unfold candidates
  rw [List.mem_map]
  constructor
  · rintro ⟨x, hx, rfl⟩
    rw [List.mem_filter] at hx
    exact ⟨x.2, mem_iter.mp hx.1, hx.2⟩
  · rintro ⟨node, hnode, hop⟩
    exact ⟨(id, node), List.mem_filter.mpr ⟨mem_iter.mpr hnode, hop⟩, rfl⟩

theorem slotsOf_eq (hnode : g.node? id = some node) : slotsOf g id = ((slots node).getD []).map fun slot => (id, slot) := by
  unfold slotsOf
  rw [hnode]
  rfl

theorem mem_tasks {task : NodeId × Slot} : task ∈ tasks g ↔
    ∃ node, g.node? task.1 = some node ∧ task.2 ∈ (slots node).getD [] := by
  unfold tasks
  rw [List.mem_flatMap]
  constructor
  · rintro ⟨id, hid, htask⟩
    obtain ⟨node, hnode, -⟩ := mem_candidates.mp hid
    rw [slotsOf_eq hnode] at htask
    obtain ⟨slot, hslot, rfl⟩ := List.mem_map.mp htask
    exact ⟨node, hnode, hslot⟩
  · rintro ⟨node, hnode, hslot⟩
    have hop : isHandled node.op = true := by
      rw [← slots_isSome]
      cases hs : slots node with
      | none => rw [hs] at hslot; cases hslot
      | some l => rfl
    refine ⟨task.1, mem_candidates.mpr ⟨node, hnode, hop⟩, ?_⟩
    rw [slotsOf_eq hnode]
    exact List.mem_map.mpr ⟨task.2, hslot, rfl⟩

/-- Turns that return keep the invariant. -/
theorem Inv.run_turns (hg : Typed g) : ∀ (l : List (NodeId × Slot)) (visited : List NodeId) (st : GraphState)
    (σ : NodeId → ValueId → ValueId), Inv g visited st σ → (∀ x ∈ l, x ∈ tasks g) →
      l.foldlM step st = .ok st' → ∃ visited' σ', Inv g visited' st' σ' ∧
        ∀ id ∈ visited', id ∈ visited ∨ id ∈ l.map Prod.fst := by
  intro l
  induction l with
  | nil =>
      intro visited st σ h _ hok
      obtain rfl := Except.ok.inj hok
      exact ⟨visited, σ, h, fun id hid => .inl hid⟩
  | cons task l ih =>
      intro visited st σ h hl hok
      obtain ⟨node, hnode, hslot⟩ := mem_tasks.mp (hl task List.mem_cons_self)
      rw [List.foldlM_cons, do_eq_ok] at hok
      obtain ⟨st₁, hturn, hok⟩ := hok
      rcases h.slot_turn hg hnode hslot with ⟨-, hpanic⟩ | ⟨u, v, w, st₂, st₃, -, -, hok', -, hinv⟩
      · change turn task.1 st task.2 = .ok st₁ at hturn
        rw [hpanic] at hturn
        cases hturn
      · obtain rfl := Except.ok.inj (hok'.symm.trans hturn)
        obtain ⟨visited', σ', hinv', hvisited⟩ := ih _ _ _ hinv (fun x hx => hl x (List.mem_cons_of_mem _ hx)) hok
        refine ⟨visited', σ', hinv', fun id hid => ?_⟩
        rcases hvisited id hid with hid | hid
        · rcases List.mem_cons.mp hid with rfl | hid
          · exact .inr List.mem_cons_self
          · exact .inl hid
        · exact .inr (List.mem_cons_of_mem _ hid)

/-- A node whose turn comes is as it was. -/
theorem Inv.visit_eq (h : Inv g visited st σ) (hid : id ∈ candidates g) (hnot : id ∉ visited) :
    visit st id = (slotsOf g id).foldlM step st := by
  obtain ⟨node, hnode, hop⟩ := mem_candidates.mp hid
  have hnow : st.graph.node? id = some node := by
    have hfun : σ id = fun v => v := funext (h.same id hnot)
    rw [h.kept id node hnode, hfun]
    simp
  obtain ⟨l, hl⟩ := Option.isSome_iff_exists.mp (slots_isSome.trans hop)
  unfold visit
  rw [hnow, orPanic_some_bind, hl, orPanic_some_bind, slotsOf_eq hnode, hl, List.foldlM_map]
  rfl

theorem foldlM_visit_eq (hg : Typed g) : ∀ (l : List NodeId) (visited : List NodeId) (st : GraphState)
    (σ : NodeId → ValueId → ValueId), Inv g visited st σ → l.Nodup → (∀ id ∈ l, id ∈ candidates g ∧ id ∉ visited) →
      l.foldlM visit st = (l.flatMap (slotsOf g)).foldlM step st := by
  intro l
  induction l with
  | nil => intros; rfl
  | cons id l ih =>
      intro visited st σ h hnodup hl
      obtain ⟨hid, hnodup⟩ := List.nodup_cons.mp hnodup
      obtain ⟨hmem, hnot⟩ := hl id List.mem_cons_self
      rw [List.foldlM_cons, List.flatMap_cons, List.foldlM_append, h.visit_eq hmem hnot]
      cases hok : (slotsOf g id).foldlM step st with
      | error e => rfl
      | ok st₁ =>
          have hsub : ∀ x ∈ slotsOf g id, x ∈ tasks g := fun x hx => List.mem_flatMap.mpr ⟨id, hmem, hx⟩
          obtain ⟨visited', σ', hinv, hvisited⟩ := h.run_turns hg _ _ _ _ hsub hok
          refine ih visited' st₁ σ' hinv hnodup fun j hj => ⟨(hl j (List.mem_cons_of_mem _ hj)).1, fun hj' => ?_⟩
          rcases hvisited j hj' with hj' | hj'
          · exact (hl j (List.mem_cons_of_mem _ hj)).2 hj'
          · obtain ⟨x, hx, rfl⟩ := List.mem_map.mp hj'
            obtain ⟨slot, -, rfl⟩ := List.mem_map.mp hx
            exact hid hj

/-- The run is the turns of the slots, one after the other. -/
theorem run_eq (hg : Typed g) : run (.new g) = (tasks g).foldlM step (.new g) := by
  have hnodup : (candidates g).Nodup := (iter_nodup g).sublist (List.filter_sublist.map Prod.fst)
  exact foldlM_visit_eq hg _ _ _ _ (.start hg) hnodup fun id hid => ⟨hid, List.not_mem_nil⟩

/-! ### What the new graph computes -/

variable {M : Meaning α} {ρ : ValueId → α} {done : List (NodeId × Slot)} {copies : List (ValueId × ValueId)}

theorem holds_setNode (hρ : M.Holds g ρ) (hnode : g.node? id = some node) (hsame : ρ w = ρ v) :
    M.Holds (g.setNode id (node.reading v w)) ρ where
  nodes := by
    intro j node' hj
    rw [node?_reading hnode] at hj
    split at hj
    · obtain rfl := Option.some.inj hj
      have hfun : Option.map ρ ∘ Option.map (moved v w) = Option.map ρ := by
        funext o
        cases o with
        | none => rfl
        | some u =>
            show some (ρ (moved v w u)) = some (ρ u)
            unfold moved
            split
            · rename_i hu
              rw [hsame, hu]
            · rfl
      have hop := hρ.nodes id node hnode
      rw [← hfun, ← List.map_map] at hop
      exact hop
    · exact hρ.nodes j node' hj
  constants := hρ.constants
  externals := hρ.externals
  types := hρ.types

/-- An assignment extends to a new copy. -/
theorem create_extends (hM : Copying M) (h : Intact st) (hty : st.graph.getResolvedTensorType v = some ty)
    (hρ : M.Holds st.graph ρ) : ∃ ρ', M.Holds (create st v name ty).2.graph ρ' ∧ AgreeOn st.graph ρ ρ' ∧
      ρ' (create st v name ty).1 = ρ' v := by
  have hv := type_lt hty
  have hgrown : Grown M st (create st v name ty).2 fun ρ =>
      M.Holds st.graph ρ ∧ ρ st.graph.values.length = ρ v := by
    refine (Grown.refl h).newOutput (localTo_holds h.inRange) (fun ρ ρ' hagree => hagree v hv) rfl rfl (fun u hu => ?_)
      fun ρ hρ _ => ⟨hM.hasType ty _ (hρ.types v ty hty), hM.copy _⟩
    rw [List.mem_singleton] at hu
    rw [Option.some.inj hu]
    exact hv
  obtain ⟨ρ', hρ', hagree, -, hcopy⟩ := hgrown.extend ρ hρ
  exact ⟨ρ', hρ', hagree, hcopy⟩

theorem ContiguousType.trans {u : ValueId} (h : ContiguousType g u v) (h' : ContiguousType g v w) :
    ContiguousType g u w := by
  obtain ⟨ty, hu, hv⟩ := h
  obtain ⟨ty', hv', hw⟩ := h'
  obtain rfl := Option.some.inj (hv.symm.trans hv')
  exact ⟨ty, hu, hw⟩

theorem ContiguousType.of_types {g' : Graph} (h : ContiguousType g v w)
    (htypes : ∀ u < g.values.length, g'.getResolvedTensorType u = g.getResolvedTensorType u) :
    ContiguousType g' v w := by
  obtain ⟨ty, hv, hw⟩ := h
  exact ⟨ty, (htypes v (type_lt hv)).trans hv, (htypes w (type_lt hw)).trans hw⟩

/-- What the turns so far have kept: `copies` are the operands with the values that took their place. -/
structure Progress (M : Meaning α) (g : Graph) (done : List (NodeId × Slot)) (copies : List (ValueId × ValueId))
    (st : GraphState) (σ : NodeId → ValueId → ValueId) : Prop where
  typed : ∀ id node u, g.node? id = some node → some u ∈ node.inputs → σ id u = u ∨ ContiguousType st.graph u (σ id u)
  handled : ∀ x ∈ done, ∀ node u, g.node? x.1 = some node → node.inputs[x.2.arg]? = some (some u) →
    ContiguousType st.graph u (σ x.1 u)
  pairs : ∀ p ∈ copies, ContiguousType st.graph p.1 p.2
  created : ∀ c node, g.node? c = none → st.graph.node? c = some node →
    ∃ p ∈ copies, node.inputs = [some p.1] ∧ node.outputs = [p.2]
  extend : ∀ ρ, M.Holds g ρ → ∃ ρ', M.Holds st.graph ρ' ∧ AgreeOn g ρ ρ' ∧ (∀ p ∈ copies, ρ' p.2 = ρ' p.1) ∧
    ∀ id node u, g.node? id = some node → some u ∈ node.inputs → ρ' (σ id u) = ρ u

/-- What a node now reads is a value of the graph. -/
theorem Inv.operand_lt (h : Inv g visited st σ) (hnode : g.node? id = some node) {u : ValueId}
    (hu : some u ∈ node.inputs) : σ id u < st.graph.values.length :=
  h.intact.inRange.inputs id _ (h.kept id node hnode) _ (List.mem_map.mpr ⟨some u, hu, rfl⟩)

theorem Progress.start (M : Meaning α) (g : Graph) : Progress M g [] [] (.new g) fun _ v => v where
  typed _ _ _ _ _ := .inl rfl
  handled _ hx := absurd hx List.not_mem_nil
  pairs _ hp := absurd hp List.not_mem_nil
  created c node hnone hnode := by
    change g.node? c = some node at hnode
    rw [hnone] at hnode
    cases hnode
  extend ρ hρ := ⟨ρ, hρ, fun _ _ => rfl, fun _ hp => absurd hp List.not_mem_nil, fun _ _ _ _ _ => rfl⟩

/-- What a turn is told of a `Contiguous` of the graph that it finds. -/
def FoundCopies (M : Meaning α) (g : Graph) (st : GraphState) (v : ValueId) : Prop :=
  ∀ w, find st v = .ok (some w) → ∀ c ops, g.Has c (.contiguous ops) [some v] [w] →
    ContiguousType g v w ∧ ∀ ρ, M.Holds g ρ → ρ w = ρ v

/-- The value that is provided is a contiguous copy. -/
theorem Progress.provided (hM : Copying M) (h : Inv g visited st σ) (hp : Progress M g done copies st σ)
    (hturned : Turned st st' id slot v w st₁) (hfound : FoundCopies M g st v) :
    ContiguousType st₁.graph v w ∧ ∀ ρ, M.Holds g ρ → ∃ ρ', M.Holds st₁.graph ρ' ∧ AgreeOn g ρ ρ' ∧
      (∀ p ∈ (v, w) :: copies, ρ' p.2 = ρ' p.1) ∧
        ∀ id node u, g.node? id = some node → some u ∈ node.inputs → ρ' (σ id u) = ρ u := by
  rcases hturned.origin with ⟨hfind, rfl⟩ | ⟨ty, hty, hcreate⟩
  · obtain ⟨r, hr, hread⟩ := find_ok h.intact.consistent h.flow v
    obtain rfl := Except.ok.inj (hfind.symm.trans hr)
    obtain ⟨c, ops, cnode, hcnode, hop, hins, houts⟩ := hread w rfl
    cases hc : g.node? c with
    | none =>
        -- the pass has made the copy itself
        obtain ⟨p, hmem, hins', houts'⟩ := hp.created c cnode hc hcnode
        rw [hins] at hins'
        rw [houts] at houts'
        obtain rfl : v = p.1 := by simpa using hins'
        obtain rfl : w = p.2 := by simpa using houts'
        refine ⟨hp.pairs p hmem, fun ρ hρ => ?_⟩
        obtain ⟨ρ', hρ', hagree, hcopies, hslots⟩ := hp.extend ρ hρ
        refine ⟨ρ', hρ', hagree, fun q hq => ?_, hslots⟩
        rcases List.mem_cons.mp hq with rfl | hq
        · exact hcopies p hmem
        · exact hcopies q hq
    | some node =>
        obtain rfl := Option.some.inj ((h.kept c node hc).symm.trans hcnode)
        have hnot : c ∉ visited := by
          intro hvis
          obtain ⟨node', hnode', hop'⟩ := h.handled c hvis
          obtain rfl := Option.some.inj (hc.symm.trans hnode')
          change node.op = .contiguous ops at hop
          rw [hop] at hop'
          cases hop'
        have hfun : σ c = fun u => u := funext (h.same c hnot)
        change node.inputs.map (Option.map (σ c)) = _ at hins
        rw [hfun] at hins
        have hins' : node.inputs = [some v] := by simpa using hins
        obtain ⟨hty, hvalue⟩ := hfound w hfind c ops ⟨node, hc, hop, hins', houts⟩
        refine ⟨hty.of_types h.types, fun ρ hρ => ?_⟩
        obtain ⟨ρ', hρ', hagree, hcopies, hslots⟩ := hp.extend ρ hρ
        refine ⟨ρ', hρ', hagree, fun q hq => ?_, hslots⟩
        rcases List.mem_cons.mp hq with rfl | hq
        · obtain ⟨ty, hv, hw⟩ := hty
          show ρ' w = ρ' v
          rw [hagree w (type_lt hw), hagree v (type_lt hv), hvalue ρ hρ]
        · exact hcopies q hq
  · obtain ⟨rfl, rfl⟩ := Prod.mk.inj hcreate
    have htypes := hturned.provided.types
    refine ⟨⟨ty, (htypes v (type_lt hty)).trans hty, create_type st v slot.name ty⟩, fun ρ hρ => ?_⟩
    obtain ⟨ρ₁, hρ₁, hagree, hcopies, hslots⟩ := hp.extend ρ hρ
    obtain ⟨ρ', hρ', hagree', hcopy⟩ := @create_extends _ _ _ slot.name _ _ _ hM h.intact hty hρ₁
    refine ⟨ρ', hρ', fun u hu => ?_, fun q hq => ?_, fun j node u hnode hu => ?_⟩
    · rw [hagree' u (Nat.lt_of_lt_of_le hu h.length), hagree u hu]
    · rcases List.mem_cons.mp hq with rfl | hq
      · exact hcopy
      · obtain ⟨ty', hq₁, hq₂⟩ := hp.pairs q hq
        rw [hagree' _ (type_lt hq₁), hagree' _ (type_lt hq₂), hcopies q hq]
    · rw [hagree' _ (h.operand_lt hnode hu), hslots j node u hnode hu]

/-- One turn. -/
theorem Progress.turn (hM : Copying M) (h : Inv g visited st σ) (hp : Progress M g done copies st σ)
    (hnode : g.node? id = some node) {u : ValueId} (hu : node.inputs[slot.arg]? = some (some u)) (hvu : v = u ∨ v = σ id u)
    (hturned : Turned st st' id slot v w st₁) (hfound : FoundCopies M g st v) :
    Progress M g (done ++ [(id, slot)]) ((v, w) :: copies) st' (rename σ id v w) := by
  obtain ⟨hcopy, hextend⟩ := hp.provided hM h hturned hfound
  have hnow := h.kept id node hnode
  have hgraph := hturned.graph _ hnow
  have hprovided := hturned.provided
  have hnow₁ := hprovided.nodes _ _ hnow
  have htypes : ∀ x, st'.graph.getResolvedTensorType x = st₁.graph.getResolvedTensorType x := by
    intro x
    rw [hgraph]
    rfl
  have hkeep : ∀ {x y}, ContiguousType st.graph x y → ContiguousType st'.graph x y := fun hxy =>
    (hxy.of_types hprovided.types).of_types fun x _ => htypes x
  have hcopy' : ContiguousType st'.graph v w := hcopy.of_types fun x _ => htypes x
  -- an operand that was contiguous stays so
  have hmoved : ∀ x y, ContiguousType st.graph x y → ContiguousType st'.graph x (moved v w y) := by
    intro x y hxy
    unfold moved
    split
    · rename_i hy
      subst hy
      exact (hkeep hxy).trans hcopy'
    · exact hkeep hxy
  -- the operands of the node
  have htyped : ∀ x, some x ∈ node.inputs → rename σ id v w id x = x ∨ ContiguousType st'.graph x (rename σ id v w id x) := by
    intro x hx
    rw [rename_self]
    rcases hp.typed id node x hnode hx with hsame | hty
    · rw [hsame]
      unfold moved
      split
      · rename_i hxv
        exact .inr (hxv ▸ hcopy')
      · exact .inl rfl
    · exact .inr (hmoved x _ hty)
  have hmem := List.mem_of_getElem? hu
  refine ⟨fun j node' x hj hx => ?_, fun x hx node' y hj hy => ?_, fun q hq => ?_, fun c cnode hc hcnode => ?_,
    fun ρ hρ => ?_⟩
  · by_cases hji : j = id
    · subst hji
      obtain rfl := Option.some.inj (hnode.symm.trans hj)
      exact htyped x hx
    · rw [rename_of_ne σ hji]
      exact (hp.typed j node' x hj hx).imp_right hkeep
  · rcases List.mem_append.mp hx with hx | hx
    · have hold := hp.handled x hx node' y hj hy
      by_cases hji : x.1 = id
      · rw [hji] at hold ⊢
        rw [rename_self]
        exact hmoved y _ hold
      · rw [rename_of_ne σ hji]
        exact hkeep hold
    · obtain rfl := List.mem_singleton.mp hx
      obtain rfl := Option.some.inj (hnode.symm.trans hj)
      obtain rfl := Option.some.inj (Option.some.inj (hu.symm.trans hy))
      show ContiguousType st'.graph u (rename σ id v w id u)
      rw [rename_self]
      rcases hp.typed id node u hnode hmem with hsame | hty
      · obtain rfl : v = u := hvu.elim (fun h => h) fun h => h.trans hsame
        rw [hsame, moved, if_pos rfl]
        exact hcopy'
      · exact hmoved u _ hty
  · rcases List.mem_cons.mp hq with rfl | hq
    · exact hcopy'
    · exact hkeep (hp.pairs q hq)
  · rw [hgraph, node?_reading hnow₁] at hcnode
    split at hcnode
    · rename_i hci
      rw [hci, hnode] at hc
      cases hc
    · rcases hprovided.new c cnode hcnode with hcnode | ⟨hins, houts⟩
      · obtain ⟨q, hq, hrest⟩ := hp.created c cnode hc hcnode
        exact ⟨q, List.mem_cons_of_mem _ hq, hrest⟩
      · exact ⟨(v, w), List.mem_cons_self, hins, houts⟩
  · obtain ⟨ρ', hρ', hagree, hcopies, hslots⟩ := hextend ρ hρ
    have hsame : ρ' w = ρ' v := hcopies (v, w) List.mem_cons_self
    refine ⟨ρ', ?_, hagree, hcopies, fun j node' x hj hx => ?_⟩
    · rw [hgraph]
      exact holds_setNode hρ' hnow₁ hsame
    · have hold := hslots j node' x hj hx
      by_cases hji : j = id
      · subst hji
        rw [rename_self, moved]
        split
        · rename_i hxv
          rw [hsame, ← hxv]
          exact hold
        · exact hold
      · rw [rename_of_ne σ hji]
        exact hold

/-- The turns of the slots, one after the other. -/
theorem Progress.run (hM : Copying M) (hg : Typed g) (hall : AllPresent g) : ∀ (l : List (NodeId × Slot))
    (visited : List NodeId) (done : List (NodeId × Slot)) (copies : List (ValueId × ValueId)) (st : GraphState)
    (σ : NodeId → ValueId → ValueId), Inv g visited st σ → Progress M g done copies st σ → (∀ x ∈ l, x ∈ tasks g) →
      (∀ t ∈ passTurns step st l, ∀ v, t.2.1.2.input t.1.graph t.2.1.1 = some v → FoundCopies M g t.1 v) →
        ∃ st' visited' copies' σ', l.foldlM step st = .ok st' ∧ Inv g visited' st' σ' ∧
          Progress M g (done ++ l) copies' st' σ' ∧ (∀ q ∈ copies, q ∈ copies') ∧
            ∀ t ∈ passTurns step st l, ∀ v w, Replaces t v w → (v, w) ∈ copies' := by
  intro l
  induction l with
  | nil =>
      intro visited done copies st σ h hp _ _
      refine ⟨st, visited, copies, σ, rfl, h, ?_, fun q hq => hq, nofun⟩
      rwa [List.append_nil]
  | cons task l ih =>
      intro visited done copies st σ h hp hl hfound
      obtain ⟨node, hnode, hslot⟩ := mem_tasks.mp (hl task List.mem_cons_self)
      obtain ⟨u, hu⟩ := slot_present hg hall hnode hslot
      rcases h.slot_turn hg hnode hslot with ⟨hnone, -⟩ | ⟨u', v, w, st₂, st₁, hu', hvu, hok, hturned, hinv⟩
      · rw [hu] at hnone
        cases hnone
      · have hturn : step st task = .ok st₂ := hok
        have hmem := mem_passTurns hturn l
        have hnext := hp.turn hM h hnode hu' hvu hturned (hfound _ hmem v hturned.input)
        have hturns : passTurns step st (task :: l) = (st, task, st₂) :: passTurns step st₂ l := by
          rw [passTurns, hturn]
        obtain ⟨st', visited', copies', σ', hrun, hinv', hp', hsub, hreplaces⟩ := ih _ _ _ _ _ hinv hnext
          (fun x hx => hl x (List.mem_cons_of_mem _ hx)) fun t ht =>
            hfound t (by rw [hturns]; exact List.mem_cons_of_mem _ ht)
        refine ⟨st', visited', copies', σ', ?_, hinv', ?_, fun q hq => hsub q (List.mem_cons_of_mem _ hq), ?_⟩
        · rw [List.foldlM_cons, hturn]
          exact hrun
        · rwa [List.append_assoc] at hp'
        · rw [hturns]
          intro t ht v' w' hreplace
          rcases List.mem_cons.mp ht with rfl | ht
          · obtain ⟨hin, st₃, hfind⟩ := hreplace
            obtain rfl := Option.some.inj (hturned.input.symm.trans hin)
            obtain ⟨rfl, -⟩ := Prod.mk.inj (Except.ok.inj (hturned.found.symm.trans hfind))
            exact hsub _ List.mem_cons_self
          · exact hreplaces t ht v' w' hreplace

/-- The pass inserts copies if no operand that it takes is absent and what it finds are copies. -/
theorem inserts_of (hM : Copying M) (hg : Typed g) (hall : AllPresent g) (hfinds : FindsCopies M g) : Inserts M g := by
  obtain ⟨st', visited, copies, σ, hrun, hinv, hp, -, hreplaces⟩ := Progress.run hM hg hall (tasks g) [] [] [] (.new g) _
    (.start hg) (.start M g) (fun _ hx => hx) fun t ht v hv w hw => hfinds t ht v w ⟨hv, hw⟩
  have hpair : ∀ id node k u, g.node? id = some node → node.inputs[k]? = some (some u) →
      (σ id u, id, k) ∈ inputPairs st'.graph := by
    intro id node k u hnode hu
    refine ⟨_, hinv.kept id node hnode, ?_⟩
    show (node.inputs.map (Option.map (σ id)))[k]? = _
    rw [List.getElem?_map, hu]
    rfl
  refine ⟨st', (run_eq hg).trans hrun, hinv.flow.acyclic, fun t ht v w hreplace => hp.pairs _ (hreplaces t ht v w hreplace),
    fun id node hnode slot hslot u hu => ?_, fun ρ hρ => ?_⟩
  · exact ⟨σ id u, hpair id node slot.arg u hnode hu,
      hp.handled (id, slot) (mem_tasks.mpr ⟨node, hnode, hslot⟩) node u hnode hu⟩
  · obtain ⟨ρ', hρ', hagree, hcopies, hslots⟩ := hp.extend ρ hρ
    refine ⟨ρ', hρ', hagree, fun t ht v w hreplace => hcopies _ (hreplaces t ht v w hreplace), fun v x hv => ?_⟩
    obtain ⟨node, hnode, hget⟩ := hv
    exact ⟨σ x.1 v, hpair x.1 node x.2 v hnode hget, hslots x.1 node v hnode (List.mem_of_getElem? hget)⟩

/-- And only then. -/
theorem of_inserts (hg : Typed g) (h : Inserts M g) : AllPresent g ∧ FindsCopies M g := by
  obtain ⟨st', hrun, hinserted⟩ := h
  rw [run_eq hg] at hrun
  obtain ⟨visited, σ, hinv, -⟩ := (Inv.start hg).run_turns hg _ _ _ _ (fun _ hx => hx) hrun
  refine ⟨fun id node gemm hnode hop hnone => ?_, fun t ht v w hfinds c ops hhas => ?_⟩
  · obtain ⟨i, hi, hget⟩ := List.mem_iff_getElem.mp hnone
    have hslots : slots node = some (handleBatchedGemm node) := by
      unfold slots
      rw [hop]
    have hslot : clone node i s!"{node.name}_input_{i}" ∈ (slots node).getD [] := by
      rw [hslots]
      exact List.mem_map.mpr ⟨i, List.mem_range.mpr hi, rfl⟩
    have htask : (id, clone node i s!"{node.name}_input_{i}") ∈ tasks g := mem_tasks.mpr ⟨node, hnode, hslot⟩
    obtain ⟨t, ht, heq⟩ := exists_turn hrun _ htask
    obtain ⟨⟨visited, σ, hinv⟩, -, hok⟩ := passTurns_induct (I := fun st => ∃ visited σ, Inv g visited st σ)
      (fun st x st' ⟨visited, σ, hinv⟩ hx hok => by
        have hone : [x].foldlM step st = .ok st' := by
          rw [List.foldlM_cons, hok]
          rfl
        obtain ⟨visited', σ', hinv', -⟩ := hinv.run_turns hg _ _ _ _ (fun y hy => List.mem_singleton.mp hy ▸ hx) hone
        exact ⟨visited', σ', hinv'⟩) ⟨[], _, .start hg⟩ t ht
    rw [heq] at hok
    have harg : node.inputs[(clone node i s!"{node.name}_input_{i}").arg]? = some none := by
      rw [← hget]
      exact List.getElem?_eq_getElem hi
    rcases hinv.slot_turn hg hnode hslot with ⟨-, hpanic⟩ | ⟨u, -, -, -, -, hu, -⟩
    · have hok' : turn id t.1 (clone node i s!"{node.name}_input_{i}") = .ok t.2.2 := hok
      rw [hpanic] at hok'
      cases hok'
    · rw [harg] at hu
      cases hu
  · have hreplaces : Replaces t v w := by
      refine ⟨hfinds.1, t.1, ?_⟩
      unfold findOrCreateContiguous
      rw [hfinds.2]
      rfl
    obtain ⟨v', w', ty, d, hins, houts, hv, -, hw⟩ := hg.contiguous c ops _ _ hhas
    obtain rfl : v = v' := by simpa using hins
    obtain rfl : w = w' := by simpa using houts
    refine ⟨?_, fun ρ hρ => ?_⟩
    · obtain ⟨ty', hv', hw'⟩ := hinserted.contiguous t ht v w hreplaces
      exact ⟨ty', (hinv.types v (type_lt hv)).symm.trans hv', (hinv.types w (type_lt hw)).symm.trans hw'⟩
    · obtain ⟨ρ', -, hagree, hcopies, -⟩ := hinserted.keeps ρ hρ
      rw [← hagree v (type_lt hv), ← hagree w (type_lt hw)]
      exact hcopies t ht v w hreplaces

/-- Exactly then. -/
theorem contiguousInsertion_inserts_iff (hM : Copying M) (g : Graph) (hg : Typed g) :
    Inserts M g ↔ AllPresent g ∧ FindsCopies M g :=
  ⟨of_inserts hg, fun h => inserts_of hM hg h.1 h.2⟩

/-! ### Exact arithmetic -/

open Exact in
theorem reinterprets_nil {x y : Arr} : Reinterprets [] x y ↔ y = x := by
  have hself : x = .tabulate x.shape fun idx => x.get idx :=
    NdArray.ext_get (NdArray.tabulate_shape _ _).symm fun idx hidx => (NdArray.get_tabulate hidx).symm
  constructor
  · rintro ⟨d, hd, rfl⟩
    obtain rfl := Option.some.inj hd
    exact hself.symm
  · rintro rfl
    exact ⟨y.shape, rfl, hself⟩

theorem exact_copying (c : Exact.GeLUConstants) (files : Onnx.Files) : Copying (exact c files) where
  copy x := ⟨x, x, rfl, rfl, reinterprets_nil.mpr rfl⟩
  hasType _ _ h := h

/-- A graph without initialisers whose nodes stand in the order of their operands. -/
theorem typed_of (hchecked : g.checked = true) (hinit : ∀ v, g.initializer v = none) (hext : ∀ v, g.externalRefs v = none)
    (hsingle : ∀ x ∈ g.iter, ∀ y ∈ g.iter, ∀ v ∈ x.2.outputs, v ∈ y.2.outputs → x.1 = y.1)
    (horder : ∀ x ∈ g.iter, ∀ y ∈ g.iter, ∀ v ∈ x.2.outputs, v ∈ y.2.operands → x.1 < y.1)
    (htypes : ∀ x ∈ g.iter, ∀ v ∈ x.2.operands, (g.getResolvedTensorType v).isSome = true)
    (hoperands : ∀ x ∈ g.iter, ∀ k ∈ required x.2.op, x.2.inputs[k]?.join.isSome = true)
    (hcontiguous : ∀ x ∈ g.iter, ∀ ops, x.2.op = .contiguous ops → ∃ v o ty d, x.2.inputs = [some v] ∧
      x.2.outputs = [o] ∧ g.getResolvedTensorType v = some ty ∧ outDims ops ty.dims = some d ∧
        g.getResolvedTensorType o = some (.new ty.elemType d)) : Typed g := by
  refine ⟨⟨fun d d' node node' hd hd' v hv hv' => ?_, fun id hid => ?_, fun v x hx => ?_, fun id ops ins outs hhas => ?_⟩,
    intact_new hchecked (fun v t h => ?_) fun v r h => ?_, fun id node hnode k hk => ?_⟩
  · exact hsingle (d, node) (mem_iter.mpr hd) (d', node') (mem_iter.mpr hd') v hv hv'
  · have hlt : ∀ {x y}, TransGen g.Feeds x y → x < y := by
      intro x y hxy
      induction hxy with
      | single hfeeds =>
          obtain ⟨node, user, hx, hy, v, hv, hread⟩ := hfeeds
          exact horder (_, node) (mem_iter.mpr hx) (_, user) (mem_iter.mpr hy) v hv hread
      | tail _ hfeeds ih =>
          obtain ⟨node, user, hx, hy, v, hv, hread⟩ := hfeeds
          exact ih.trans (horder (_, node) (mem_iter.mpr hx) (_, user) (mem_iter.mpr hy) v hv hread)
    exact absurd (hlt hid) (Nat.lt_irrefl id)
  · obtain ⟨node, hnode, hget⟩ := hx
    exact Option.isSome_iff_exists.mp (htypes (x.1, node) (mem_iter.mpr hnode) v
      (List.mem_filterMap.mpr ⟨some v, List.mem_of_getElem? hget, rfl⟩))
  · obtain ⟨node, hnode, hop, rfl, rfl⟩ := hhas
    exact hcontiguous (id, node) (mem_iter.mpr hnode) ops hop
  · rw [hinit] at h
    cases h
  · rw [hext] at h
    cases h
  · obtain ⟨v, hv⟩ := Option.isSome_iff_exists.mp (hoperands (id, node) (mem_iter.mpr hnode) k hk)
    exact ⟨v, Option.join_eq_some_iff.mp hv⟩

/-- An image that is pooled, and copied with these steps. -/
def pooledGraph (steps : List ReinterpretType) : Graph where
  nodes :=
    [⟨[], [0], "x", .input 0, false⟩,
      ⟨[some 0], [1], "y", .contiguous steps, false⟩,
      ⟨[some 0], [2], "z", .averagePool ⟨.valid, false, ⟨none, 1⟩, [1, 2], ⟨none, 1⟩, .NCHW⟩, false⟩,
      ⟨[some 1], [], "copied", .output 1, false⟩,
      ⟨[some 2], [], "pooled", .output 2, false⟩]
  inputs := [0]
  outputs := [3, 4]
  values :=
    [{ name := "x", ty := some (.resolved (.new (.float .F32) [1, 1, 2, 2])) },
      { name := "y", ty := some (.resolved (.new (.float .F32) [1, 1, 2, 2])) },
      { name := "z", ty := some (.resolved (.new (.float .F32) [1, 1, 2, 1])) }]
  initializer := fun _ => none
  externalRefs := fun _ => none

theorem pooledGraph_typed {steps : List ReinterpretType} (h : outDims steps [1, 1, 2, 2] = some [1, 1, 2, 2]) :
    Typed (pooledGraph steps) := by
  refine typed_of rfl (fun _ => rfl) (fun _ => rfl) ?_ ?_ ?_ ?_ ?_
  · intro x hx y hy
    fin_cases hx <;> fin_cases hy <;> simp
  · intro x hx y hy
    fin_cases hx <;> fin_cases hy <;> simp [Node.operands]
  · intro x hx
    fin_cases hx <;> simp [Node.operands, pooledGraph, Graph.getResolvedTensorType]
  · intro x hx
    fin_cases hx <;> simp [required]
  · intro x hx ops hop
    fin_cases hx <;> cases hop
    exact ⟨0, 1, _, _, rfl, rfl, rfl, h, rfl⟩

theorem pooledGraph_copy {steps ops : List ReinterpretType} {c : NodeId}
    (h : (pooledGraph steps).Has c (.contiguous ops) [some v] [w]) : v = 0 ∧ w = 1 ∧ ops = steps ∧ c = 1 := by
  obtain ⟨node, hnode, hop, hins, houts⟩ := h
  have hmem : (c, node) ∈ (pooledGraph steps).iter := mem_iter.mpr hnode
  fin_cases hmem <;> cases hop
  refine ⟨?_, ?_, rfl, rfl⟩
  · simpa using hins.symm
  · simpa using houts.symm

theorem pooledGraph_allPresent (steps : List ReinterpretType) : AllPresent (pooledGraph steps) := by
  intro id node gemm hnode hop
  have hmem : (id, node) ∈ (pooledGraph steps).iter := mem_iter.mpr hnode
  fin_cases hmem <;> cases hop

/-- The copy that is there is taken. -/
theorem contiguousInsertion_inserts_pooled : Inserts (exact ⟨0, 0, 0, 0⟩ fun _ => none) (pooledGraph []) := by
  refine (contiguousInsertion_inserts_iff (exact_copying _ _) (pooledGraph []) (pooledGraph_typed rfl)).mpr
    ⟨pooledGraph_allPresent [], fun t _ v w _ c ops hhas => ?_⟩
  obtain ⟨rfl, rfl, rfl, rfl⟩ := pooledGraph_copy hhas
  refine ⟨⟨_, rfl, rfl⟩, fun ρ hρ => ?_⟩
  obtain ⟨x, y, hx, hy, hcopy⟩ := hρ.nodes 1 _ rfl
  obtain rfl : ρ 0 = x := by simpa using hx
  obtain rfl : ρ 1 = y := by simpa using hy
  exact reinterprets_nil.mp hcopy

/-- The copy is the transposed image. -/
def turnedGraph : Graph := pooledGraph [.transpose (some [0, 1, 3, 2])]

attribute [local instance] atLeastTwo_two in
/-- Four numbers and their transposition. -/
def turnedValues : ValueId → Exact.Arr
  | 0 => ⟨[1, 1, 2, 2], [0, 1, 2, 3], rfl⟩
  | 1 => ⟨[1, 1, 2, 2], [0, 2, 1, 3], rfl⟩
  | _ => ⟨[1, 1, 2, 1], [0, 0], rfl⟩

theorem turnedValues_holds : (exact ⟨0, 0, 0, 0⟩ fun _ => none).Holds turnedGraph turnedValues where
  nodes := by
    intro id node hnode
    have hmem : (id, node) ∈ turnedGraph.iter := mem_iter.mpr hnode
    fin_cases hmem
    · trivial
    · exact ⟨turnedValues 0, turnedValues 1, rfl, rfl, [1, 1, 2, 2], by decide, rfl⟩
    · trivial
    · trivial
    · trivial
  constants _ _ h := by cases h
  externals _ _ h := by cases h
  types := by
    intro v ty hty
    match v with
    | 0 => obtain rfl := Option.some.inj hty; rfl
    | 1 => obtain rfl := Option.some.inj hty; rfl
    | 2 => obtain rfl := Option.some.inj hty; rfl
    | n + 3 => cases hty

/-- A `BatchedGemm` whose workspace is absent. -/
def absentGraph : Graph where
  nodes :=
    [⟨[], [0], "a", .input 0, false⟩,
      ⟨[some 0, some 0, none], [1], "c", .batchedGemm ⟨.ofNat 1, .ofNat 0, false, false⟩, false⟩,
      ⟨[some 1], [], "out", .output 1, false⟩]
  inputs := [0]
  outputs := [2]
  values :=
    [{ name := "a", ty := some (.resolved (.new (.float .F32) [1, 2, 2])) },
      { name := "c", ty := some (.resolved (.new (.float .F32) [1, 2, 2])) }]
  initializer := fun _ => none
  externalRefs := fun _ => none

theorem absentGraph_typed : Typed absentGraph := by
  refine typed_of rfl (fun _ => rfl) (fun _ => rfl) ?_ ?_ ?_ ?_ ?_
  · intro x hx y hy
    fin_cases hx <;> fin_cases hy <;> simp
  · intro x hx y hy
    fin_cases hx <;> fin_cases hy <;> simp [Node.operands]
  · intro x hx
    fin_cases hx <;> simp [Node.operands, absentGraph, Graph.getResolvedTensorType]
  · intro x hx
    fin_cases hx <;> simp [required]
  · intro x hx ops hop
    fin_cases hx <;> cases hop

/-- The pool reads the transposed image, and the absent operand panics. -/
theorem contiguousInsertion_not_inserts :
    (Typed turnedGraph ∧ ¬Inserts (exact ⟨0, 0, 0, 0⟩ fun _ => none) turnedGraph) ∧
      Typed absentGraph ∧ ¬Inserts (exact ⟨0, 0, 0, 0⟩ fun _ => none) absentGraph := by
  have htyped : Typed turnedGraph := pooledGraph_typed (by decide)
  refine ⟨⟨htyped, fun h => ?_⟩, absentGraph_typed, fun h => ?_⟩
  · have hfinds := (of_inserts htyped h).2
    obtain ⟨st', hrun, -⟩ := h
    rw [run_eq htyped] at hrun
    have htasks : tasks turnedGraph = [(2, .cloned 0 (some 0) "z_input_0")] := rfl
    rw [htasks, List.foldlM_cons, do_eq_ok] at hrun
    obtain ⟨st₁, hstep, -⟩ := hrun
    have hturn := mem_passTurns hstep []
    unfold FindsCopies turns at hfinds
    rw [htasks] at hfinds
    obtain ⟨-, hvalue⟩ := hfinds _ hturn 0 1 ⟨rfl, rfl⟩ 1 _ ⟨_, rfl, rfl, rfl, rfl⟩
    have hdata := congrArg NdArray.data (hvalue turnedValues turnedValues_holds)
    simp [turnedValues] at hdata
  · refine (of_inserts absentGraph_typed h).1 1 _ _ rfl rfl ?_
    decide

end ContiguousInsertion
end NnEngine
