import NnEngine.Graph.Reinterpret
import NnEngine.Graph.Rewire
import NnEngine.Result
import NnEngine.Tensor.Layout

/-!
# Elimination of copies

`ContiguousElimination` of `src/transform/utils.rs`.  The pass bypasses a `Contiguous` whose input is
contiguous and has the dims of the output.  `sameElements_iff` says when its readers find the elements
that they found before: the steps of the node must leave every element at its place, which its dims do
not tell.
-/

namespace NnEngine

open DepthFirst SimpleGraphOp GraphState

namespace ContiguousElimination

/-- The condition of the filter in `run`. -/
def isBypassed (g : Graph) (node : Node) : Except Stop Bool :=
  match node.op with
  | .contiguous _ => do
      let input ← orPanic (node.inputs[0]?).join
      let inputTy ← orPanic (g.getResolvedTensorType input)
      let output ← orPanic node.outputs[0]?
      let outputTy ← orPanic (g.getResolvedTensorType output)
      pure (inputTy.isContiguous && inputTy.dims == outputTy.dims)
  | _ => pure false

/-- The nodes that `run` collects. -/
def eliminable (g : Graph) : Except Stop (List NodeId) :=
  (g.iter.mapM fun x => (isBypassed g x.2).map fun b => if b then [x.1] else []).map List.flatten

/-- The body of the loop of `run`. -/
def bypass (st : GraphState) (id : NodeId) : Except Stop GraphState := do
  let node ← orPanic (st.graph.node? id)
  let input ← orPanic (node.inputs[0]?).join
  let output ← orPanic node.outputs[0]?
  st.replaceInputValueIf output input fun _ _ => true

/-- `run`. -/
def run (st : GraphState) : Except Stop GraphState :=
  (eliminable st.graph).bind fun ids => ids.foldlM bypass st

end ContiguousElimination

/-! ### Copied elements -/

/-- Element `idx` of `v` is a copy of element `idx'` of `w`, made by `Contiguous` nodes. -/
inductive CopyOf (g : Graph) : ValueId → List Nat → ValueId → List Nat → Prop
  | refl (v : ValueId) (idx : List Nat) : CopyOf g v idx v idx
  | copy {id : NodeId} {node : Node} {ops : List ReinterpretType} {input output w : ValueId}
      {ty : ResolvedTensorType} {idx idx' : List Nat} (hnode : g.node? id = some node)
      (hop : node.op = .contiguous ops) (hin : node.inputs = [some input])
      (hout : node.outputs = [output]) (hty : g.getResolvedTensorType input = some ty)
      (h : CopyOf g input (source ops ty.dims idx) w idx') : CopyOf g output idx w idx'

/-- Every place that reads a value, that of a graph output included, finds the same elements after a
pass as before it. -/
def SameElements (g g' : Graph) : Prop :=
  ∀ v x, (v, x) ∈ inputPairs g → ∃ w, (w, x) ∈ inputPairs g' ∧
    ∀ ty, g.getResolvedTensorType v = some ty → ∀ idx, Inside idx ty.dims → CopyOf g v idx w idx

/-- A graph as it is given to a pass: a value has one definition, the nodes are not cyclic, and the
steps of a `Contiguous` lead from the dims of its input to the dims of its output. -/
structure WellFormedGraph (g : Graph) : Prop where
  defined : ∀ v x y, (v, x) ∈ outputPairs g → (v, y) ∈ outputPairs g → x = y
  acyclic : ∃ rank : ValueId → Nat, ∀ id node, g.node? id = some node →
    ∀ v, some v ∈ node.inputs → ∀ w ∈ node.outputs, rank v < rank w
  contiguous : ∀ id node ops, g.node? id = some node → node.op = .contiguous ops →
    ∃ input output inTy outTy, node.inputs = [some input] ∧ node.outputs = [output] ∧
      g.getResolvedTensorType input = some inTy ∧ g.getResolvedTensorType output = some outTy ∧
        outDims ops inTy.dims = some outTy.dims

namespace ContiguousElimination

variable {g : Graph} {st st' : GraphState} {id : NodeId} {v w : ValueId} {ids : List NodeId}

/-- A `Contiguous` that the pass bypasses, from `input` to `output`. -/
structure Bypassed (g : Graph) (id : NodeId) (ops : List ReinterpretType) (input output : ValueId)
    (dims : List Nat) : Prop where
  node : ∃ node, g.node? id = some node ∧ node.op = .contiguous ops ∧ node.inputs = [some input] ∧
    node.outputs = [output]
  inTy : ∃ ty, g.getResolvedTensorType input = some ty ∧ ty.dims = dims ∧ ty.isContiguous = true
  outTy : ∃ ty, g.getResolvedTensorType output = some ty ∧ ty.dims = dims
  outDims : outDims ops dims = some dims

theorem orPanic_some_bind {α β : Type} (a : α) (f : α → Except Stop β) : (orPanic (some a) >>= f) = f a := rfl

/-- What the filter says of a well-formed node. -/
theorem isBypassed_eq {node : Node} {ops : List ReinterpretType} {input output : ValueId}
    {inTy outTy : ResolvedTensorType} (hop : node.op = .contiguous ops)
    (hin : node.inputs = [some input]) (hout : node.outputs = [output])
    (hinTy : g.getResolvedTensorType input = some inTy)
    (houtTy : g.getResolvedTensorType output = some outTy) :
    isBypassed g node = .ok (inTy.isContiguous && inTy.dims == outTy.dims) := by
  unfold isBypassed
  rw [hop, hin, hout]
  simp only [List.getElem?_cons_zero, Option.join_some, orPanic_some_bind, hinTy, houtTy]
  rfl

/-- The collected nodes are the bypassed ones, each once. -/
theorem eliminable_spec (hg : WellFormedGraph g) (h : eliminable g = .ok ids) :
    ids.Nodup ∧ ∀ id, id ∈ ids ↔ ∃ ops input output dims, Bypassed g id ops input output dims := by
  obtain ⟨lists, hlists, rfl⟩ := map_eq_ok.mp h
  -- the flag of a node, and the list that it contributes
  have hflag : ∀ x ∈ g.iter, ∃ b, isBypassed g x.2 = .ok b := by
    intro x hx
    obtain ⟨l, -, hl⟩ := mapM_eq_ok_of_mem hlists x hx
    obtain ⟨b, hb, -⟩ := map_eq_ok.mp hl
    exact ⟨b, hb⟩
  have hflat : lists.flatten = (g.iter.filter fun x => (isBypassed g x.2).toOption == some true).map Prod.fst := by
    have hall := mapM_eq_ok.mp hlists
    clear hlists hflag h
    generalize g.iter = nodes at hall
    induction hall with
    | nil => rfl
    | @cons x l xs ls hxl _ ih =>
        obtain ⟨b, hb, rfl⟩ := map_eq_ok.mp hxl
        rw [List.flatten_cons, ih, List.filter_cons, hb]
        cases b <;> rfl
  rw [hflat]
  refine ⟨?_, fun id => ?_⟩
  · exact (iter_nodup g).sublist (List.filter_sublist.map Prod.fst)
  · rw [List.mem_map]
    constructor
    · rintro ⟨⟨id', node⟩, hx, rfl⟩
      obtain ⟨hmem, htrue⟩ := List.mem_filter.mp hx
      have hnode := mem_iter.mp hmem
      obtain ⟨b, hb⟩ := hflag _ hmem
      rw [hb] at htrue
      have hbt : b = true := by
        cases b with
        | false => cases htrue
        | true => rfl
      subst hbt
      have hcont : ∃ ops, node.op = .contiguous ops := by
        unfold isBypassed at hb
        split at hb
        · rename_i ops hop
          exact ⟨ops, hop⟩
        · cases hb
      obtain ⟨ops, hop⟩ := hcont
      obtain ⟨input, output, inTy, outTy, hin, hout, hinTy, houtTy, hdims⟩ :=
        hg.contiguous id' node ops hnode hop
      rw [isBypassed_eq hop hin hout hinTy houtTy, Except.ok.injEq, Bool.and_eq_true, beq_iff_eq] at hb
      refine ⟨ops, input, output, inTy.dims, ⟨node, hnode, hop, hin, hout⟩, ⟨inTy, hinTy, rfl, hb.1⟩,
        ⟨outTy, houtTy, hb.2.symm⟩, ?_⟩
      rw [hdims, hb.2]
    · rintro ⟨ops, input, output, dims, ⟨node, hnode, hop, hin, hout⟩, ⟨inTy, hinTy, rfl, hcontig⟩,
        ⟨outTy, houtTy, houtDims⟩, -⟩
      refine ⟨(id, node), List.mem_filter.mpr ⟨mem_iter.mpr hnode, ?_⟩, rfl⟩
      rw [isBypassed_eq hop hin hout hinTy houtTy, hcontig, houtDims]
      simp [Except.toOption]

/-! ### Where a place reads -/

/-- Following the bypassed nodes of `ids` from `v` ends at `w`. -/
inductive Resolves (g : Graph) (ids : List NodeId) : ValueId → ValueId → Prop
  | stop {v : ValueId} (h : ∀ id ∈ ids, ∀ ops input dims, ¬Bypassed g id ops input v dims) :
      Resolves g ids v v
  | step {id : NodeId} {ops : List ReinterpretType} {input output w : ValueId} {dims : List Nat}
      (hid : id ∈ ids) (h : Bypassed g id ops input output dims) (hrest : Resolves g ids input w) :
      Resolves g ids output w

theorem Resolves.stops (h : Resolves g ids v w) :
    ∀ id ∈ ids, ∀ ops input dims, ¬Bypassed g id ops input w dims := by
  induction h with
  | stop h => exact h
  | step _ _ _ ih => exact ih

/-- A value has one definition. -/
theorem WellFormedGraph.node_eq (hg : WellFormedGraph g) {id id' : NodeId} {node node' : Node}
    (h : g.node? id = some node) (h' : g.node? id' = some node') (hout : node.outputs = [v])
    (hout' : node'.outputs = [v]) : id = id' ∧ node = node' := by
  have heq := hg.defined v (id, 0) (id', 0)
    (mem_outputPairs.mpr ⟨node, h, by rw [hout]; rfl⟩)
    (mem_outputPairs.mpr ⟨node', h', by rw [hout']; rfl⟩)
  obtain rfl : id = id' := congrArg Prod.fst heq
  exact ⟨rfl, Option.some.inj (h.symm.trans h')⟩

theorem Bypassed.unique (hg : WellFormedGraph g) {id' : NodeId} {ops ops' : List ReinterpretType}
    {input input' output : ValueId} {dims dims' : List Nat} (h : Bypassed g id ops input output dims)
    (h' : Bypassed g id' ops' input' output dims') : id = id' ∧ input = input' := by
  obtain ⟨node, hnode, -, hin, hout⟩ := h.node
  obtain ⟨node', hnode', -, hin', hout'⟩ := h'.node
  obtain ⟨rfl, rfl⟩ := WellFormedGraph.node_eq hg hnode hnode' hout hout'
  rw [hin] at hin'
  exact ⟨rfl, Option.some.inj (List.cons.inj hin').1⟩

theorem Resolves.unique (hg : WellFormedGraph g) {w' : ValueId} (h : Resolves g ids v w)
    (h' : Resolves g ids v w') : w = w' := by
  induction h with
  | stop h =>
      cases h' with
      | stop => rfl
      | step hid hby _ => exact absurd hby (h _ hid _ _ _)
  | step hid hby _ ih =>
      cases h' with
      | stop h => exact absurd hby (h _ hid _ _ _)
      | step hid' hby' hrest =>
          obtain ⟨-, rfl⟩ := hby.unique hg hby'
          exact ih hrest

theorem Bypassed.rank_lt {rank : ValueId → Nat}
    (hrank : ∀ id node, g.node? id = some node →
      ∀ v, some v ∈ node.inputs → ∀ w ∈ node.outputs, rank v < rank w)
    {ops : List ReinterpretType} {input output : ValueId} {dims : List Nat}
    (h : Bypassed g id ops input output dims) : rank input < rank output := by
  obtain ⟨node, hnode, -, hin, hout⟩ := h.node
  exact hrank id node hnode input (by rw [hin]; exact List.mem_cons_self) output
    (by rw [hout]; exact List.mem_cons_self)

theorem Resolves.rank_le {rank : ValueId → Nat}
    (hrank : ∀ id node, g.node? id = some node →
      ∀ v, some v ∈ node.inputs → ∀ w ∈ node.outputs, rank v < rank w)
    (h : Resolves g ids v w) : rank w ≤ rank v := by
  induction h with
  | stop => exact Nat.le_refl _
  | step _ hby _ ih => exact Nat.le_trans ih (hby.rank_lt hrank).le

/-- One more bypassed node: what ended at its output goes on to where its input ends. -/
theorem Resolves.cons (hg : WellFormedGraph g) {ops : List ReinterpretType} {input output u : ValueId}
    {dims : List Nat} (hby : Bypassed g id ops input output dims)
    (hinput : Resolves g ids input u) (h : Resolves g ids v w) :
    Resolves g (id :: ids) v (moved output u w) := by
  obtain ⟨rank, hrank⟩ := hg.acyclic
  have hu : u ≠ output := by
    have hle := hinput.rank_le hrank
    have hlt := hby.rank_lt hrank
    rintro rfl
    omega
  -- a value that is not the new output stops where it did
  have hstop : ∀ {x}, x ≠ output → (∀ id ∈ ids, ∀ ops input dims, ¬Bypassed g id ops input x dims) →
      Resolves g (id :: ids) x x := by
    intro x hx hno
    refine .stop fun id' hid' ops' input' dims' hby' => ?_
    rcases List.mem_cons.mp hid' with rfl | hid'
    · obtain ⟨node, hnode, -, -, hout⟩ := hby.node
      obtain ⟨node', hnode', -, -, hout'⟩ := hby'.node
      obtain rfl := Option.some.inj (hnode.symm.trans hnode')
      rw [hout] at hout'
      exact hx (List.cons.inj hout').1.symm
    · exact hno id' hid' _ _ _ hby'
  have hgrow : ∀ {x y}, Resolves g ids x y → y ≠ output → Resolves g (id :: ids) x y := by
    intro x y hxy hy
    induction hxy with
    | stop hno => exact hstop hy hno
    | step hid hby' _ ih => exact .step (List.mem_cons_of_mem _ hid) hby' (ih hy)
  unfold moved
  induction h with
  | @stop x hno =>
      split
      · rename_i hx
        subst hx
        exact .step List.mem_cons_self hby (hgrow hinput hu)
      · rename_i hx
        exact hstop hx hno
  | step hid hby' _ ih => exact .step (List.mem_cons_of_mem _ hid) hby' ih

/-- What the loop keeps after the nodes of `done`. -/
structure Done (g : Graph) (done : List NodeId) (st : GraphState) : Prop where
  consistent : Consistent st
  rewired : Rewired g st.graph
  places : ∀ v x, (v, x) ∈ inputPairs g → ∃ w, (w, x) ∈ inputPairs st.graph ∧ Resolves g done v w

theorem Done.bypass (hg : WellFormedGraph g) {done : List NodeId} {ops : List ReinterpretType}
    {input output : ValueId} {dims : List Nat} (h : Done g done st)
    (hby : Bypassed g id ops input output dims) (hok : bypass st id = .ok st') :
    Done g (id :: done) st' := by
  obtain ⟨node, hnode, hop, hin, hout⟩ := hby.node
  obtain ⟨node', hnode', houts', hlen', -⟩ := h.rewired.nodes id node hnode
  -- the input may have been rewired before
  obtain ⟨u, hu, hresolves⟩ := h.places input (id, 0) ⟨node, hnode, by rw [hin]; rfl⟩
  obtain ⟨node'', hnode'', hget⟩ := hu
  obtain rfl := Option.some.inj (hnode'.symm.trans hnode'')
  unfold ContiguousElimination.bypass at hok
  have hget0 : (node'.inputs[0]?).join = some u := by rw [hget]; rfl
  have hout0 : node'.outputs[0]? = some output := by rw [houts', hout]; rfl
  rw [hnode', orPanic_some_bind, hget0, orPanic_some_bind, hout0, orPanic_some_bind] at hok
  obtain ⟨hconsistent, hrewired, hmoved, -⟩ := replaceInputValueIf_spec h.consistent hok
  refine ⟨hconsistent, h.rewired.trans hrewired, fun v x hv => ?_⟩
  obtain ⟨w, hw, hvw⟩ := h.places v x hv
  exact ⟨_, hmoved w x hw, Resolves.cons hg hby hresolves hvw⟩

theorem Done.run (hg : WellFormedGraph g) : ∀ (ids done : List NodeId) (st : GraphState),
    (∀ id ∈ ids, ∃ ops input output dims, Bypassed g id ops input output dims) → Done g done st →
    ids.foldlM ContiguousElimination.bypass st = .ok st' → Done g (ids.reverse ++ done) st' := by
  intro ids
  induction ids with
  | nil =>
      intro done st _ h hok
      obtain rfl := Except.ok.inj hok
      exact h
  | cons id ids ih =>
      intro done st hby h hok
      rw [List.foldlM_cons] at hok
      obtain ⟨st₁, hst₁, hok⟩ := do_eq_ok.mp hok
      obtain ⟨ops, input, output, dims, hid⟩ := hby id List.mem_cons_self
      rw [List.reverse_cons, List.append_assoc, List.singleton_append]
      exact ih (id :: done) st₁ (fun i hi => hby i (List.mem_cons_of_mem id hi)) (h.bypass hg hid hst₁) hok

/-! ### The elements -/

/-- The transposes of a bypassed node leave every element at its place. -/
def KeepsPlaces (ops : List ReinterpretType) (dims : List Nat) : Prop :=
  ∀ n < dims.prod, turns ops dims n = n

theorem keepsPlaces_iff {ops : List ReinterpretType} {dims : List Nat}
    (h : NnEngine.outDims ops dims = some dims) :
    KeepsPlaces ops dims ↔ ∀ idx, Inside idx dims → source ops dims idx = idx := by
  constructor
  · intro hkeeps idx hidx
    refine rowMajor_injective (inside_source h hidx) hidx ?_
    rw [rowMajor_source h hidx rfl, hkeeps _ (rowMajor_lt hidx)]
  · intro hsource n hn
    have hidx : Inside (multiIndex dims n) dims :=
      multiIndex_lt (pos_of_prod_pos (Nat.zero_lt_of_lt hn)) n
    have hplace := rowMajor_source h hidx rfl
    rw [hsource _ hidx, rowMajor_multiIndex hn] at hplace
    exact hplace.symm

/-- Copies from one value end at one index of another. -/
theorem CopyOf.unique (hg : WellFormedGraph g) {idx j k : List Nat} (h : CopyOf g v idx w j)
    (h' : CopyOf g v idx w k) : j = k := by
  obtain ⟨rank, hrank⟩ := hg.acyclic
  have hle : ∀ {v idx w j}, CopyOf g v idx w j → rank w ≤ rank v := by
    intro v idx w j h
    induction h with
    | refl => exact Nat.le_refl _
    | copy hnode _ hin hout _ _ ih =>
        exact Nat.le_trans ih (hrank _ _ hnode _ (by rw [hin]; exact List.mem_cons_self) _
          (by rw [hout]; exact List.mem_cons_self)).le
  have hlt : ∀ {id node input output w idx j}, g.node? id = some node → node.inputs = [some input] →
      node.outputs = [output] → CopyOf g input idx w j → w ≠ output := by
    intro id node input output w idx j hnode hin hout h
    have hless := hrank id node hnode input (by rw [hin]; exact List.mem_cons_self) output
      (by rw [hout]; exact List.mem_cons_self)
    have := hle h
    rintro rfl
    omega
  induction h with
  | refl =>
      cases h' with
      | refl => rfl
      | copy hnode _ hin hout _ hrest => exact absurd rfl (hlt hnode hin hout hrest)
  | copy hnode hop hin hout hty hrest ih =>
      cases h' with
      | refl => exact absurd rfl (hlt hnode hin hout hrest)
      | copy hnode' hop' hin' hout' hty' hrest' =>
          obtain ⟨-, rfl⟩ := WellFormedGraph.node_eq hg hnode hnode' hout hout'
          rw [hin] at hin'
          obtain rfl := Option.some.inj (List.cons.inj hin').1
          rw [hop] at hop'
          obtain rfl := Operator.contiguous.inj hop'
          obtain rfl := Option.some.inj (hty.symm.trans hty')
          exact ih hrest'

/-- The steps of every bypassed node that is read leave the elements at their places. -/
def Harmless (g : Graph) : Prop :=
  ∀ id ops input output dims, Bypassed g id ops input output dims →
    (∃ x, (output, x) ∈ inputPairs g) → KeepsPlaces ops dims

theorem Resolves.copyOf (hharmless : Harmless g) (h : Resolves g ids v w) :
    (∃ x, (v, x) ∈ inputPairs g) → ∀ ty, g.getResolvedTensorType v = some ty →
      ∀ idx, Inside idx ty.dims → CopyOf g v idx w idx := by
  induction h with
  | stop => exact fun _ _ _ idx _ => .refl _ idx
  | @step id ops input output w dims _ hby _ ih =>
      intro hread ty hty idx hidx
      obtain ⟨node, hnode, hop, hin, hout⟩ := hby.node
      obtain ⟨inTy, hinTy, hinDims, -⟩ := hby.inTy
      obtain ⟨outTy, houtTy, houtDims⟩ := hby.outTy
      obtain rfl := Option.some.inj (hty.symm.trans houtTy)
      rw [houtDims] at hidx
      have hkeep := (keepsPlaces_iff hby.outDims).mp (hharmless id _ _ _ _ hby hread) idx hidx
      refine .copy hnode hop hin hout hinTy ?_
      rw [hinDims, hkeep]
      exact ih ⟨(id, 0), node, hnode, by rw [hin]; rfl⟩ inTy hinTy idx (by rw [hinDims]; exact hidx)

/-- Where all places read what they should, the bypassed nodes leave the elements at their places. -/
theorem Done.harmless (hg : WellFormedGraph g) (hdone : Done g ids st)
    (hids : ∀ id, id ∈ ids ↔ ∃ ops input output dims, Bypassed g id ops input output dims)
    (hsame : SameElements g st.graph) : Harmless g := by
  intro id ops input output dims hby ⟨x, hx⟩
  obtain ⟨node, hnode, hop, hin, hout⟩ := hby.node
  obtain ⟨inTy, hinTy, hinDims, -⟩ := hby.inTy
  obtain ⟨outTy, houtTy, houtDims⟩ := hby.outTy
  have hid := (hids id).mpr ⟨_, _, _, _, hby⟩
  -- the reader of the output and the node itself end at one value
  have hpair : (input, (id, 0)) ∈ inputPairs g := ⟨node, hnode, by rw [hin]; rfl⟩
  obtain ⟨w, hw, hcopy⟩ := hsame output x hx
  obtain ⟨w₁, hw₁, hres⟩ := hdone.places output x hx
  obtain rfl := inputPairs_unique hw hw₁
  obtain ⟨u, hu, hcopyIn⟩ := hsame input (id, 0) hpair
  obtain ⟨u₁, hu₁, hresIn⟩ := hdone.places input (id, 0) hpair
  obtain rfl := inputPairs_unique hu hu₁
  obtain rfl := (Resolves.step hid hby hresIn).unique hg hres
  refine (keepsPlaces_iff hby.outDims).mpr fun idx hidx => ?_
  have hout' := hcopy outTy houtTy idx (by rw [houtDims]; exact hidx)
  have hstop := hresIn.stops id hid ops input dims
  cases hout' with
  | refl => exact absurd hby hstop
  | copy hnode' hop' hin' hout' hty' hrest =>
      obtain ⟨-, rfl⟩ := WellFormedGraph.node_eq hg hnode hnode' hout hout'
      rw [hin] at hin'
      obtain rfl := Option.some.inj (List.cons.inj hin').1
      rw [hop] at hop'
      obtain rfl := Operator.contiguous.inj hop'
      obtain rfl := Option.some.inj (hinTy.symm.trans hty')
      rw [hinDims] at hrest
      have hsource := inside_source hby.outDims hidx
      exact CopyOf.unique hg (hcopyIn inTy hinTy _ (by rw [hinDims]; exact hsource)) hrest

/-- The pass bypasses exactly the bypassed nodes. -/
theorem done_of_run (hg : WellFormedGraph st.graph) (hmaps : Consistent st) (h : run st = .ok st') :
    ∃ ids, (∀ id, id ∈ ids ↔ ∃ ops input output dims, Bypassed st.graph id ops input output dims) ∧
      Done st.graph ids st' := by
  obtain ⟨ids, hids, hrun⟩ := bind_eq_ok.mp h
  obtain ⟨-, hmem⟩ := eliminable_spec hg hids
  have hstart : Done st.graph [] st :=
    { consistent := hmaps
      rewired := .refl _
      places := fun v x hv => ⟨v, hv, .stop fun id hid => absurd hid (by simp)⟩ }
  have hdone := Done.run hg ids [] _ (fun id hid => (hmem id).mp hid) hstart hrun
  rw [List.append_nil] at hdone
  exact ⟨ids.reverse, fun id => by rw [List.mem_reverse, hmem], hdone⟩

/-- The readers of the bypassed nodes find the same elements exactly if the transposes among the steps
of each of them leave every element at its place. -/
theorem sameElements_iff (hg : WellFormedGraph st.graph) (hmaps : Consistent st)
    (h : run st = .ok st') :
    SameElements st.graph st'.graph ↔ ∀ id ops input output dims,
      Bypassed st.graph id ops input output dims → (∃ x, (output, x) ∈ inputPairs st.graph) →
        KeepsPlaces ops dims := by
  obtain ⟨ids, hids, hdone⟩ := done_of_run hg hmaps h
  constructor
  · exact hdone.harmless hg hids
  · intro hharmless v x hv
    obtain ⟨w, hw, hres⟩ := hdone.places v x hv
    exact ⟨w, hw, hres.copyOf hharmless ⟨x, hv⟩⟩

/-- An input that is copied with the steps `ops`, both of the dims `dims`, and given back. -/
def copyGraph (ops : List ReinterpretType) (dims : List Nat) : Graph where
  nodes :=
    [{ inputs := [], outputs := [0], name := "x", op := .input 0, markAsDeleted := false },
      { inputs := [some 0], outputs := [1], name := "copy", op := .contiguous ops, markAsDeleted := false },
      { inputs := [some 1], outputs := [], name := "y", op := .output 1, markAsDeleted := false }]
  inputs := [0]
  outputs := [2]
  values :=
    [{ name := "x", ty := some (.resolved (.new (.float .F32) dims)) },
      { name := "y", ty := some (.resolved (.new (.float .F32) dims)) }]
  initializer := fun _ => none
  externalRefs := fun _ => none

theorem copyGraph_consistent (ops : List ReinterpretType) (dims : List Nat) :
    Consistent (.new (copyGraph ops dims)) := by
  refine new_consistent ⟨?_, ?_⟩
  · intro id hid
    obtain rfl := List.mem_singleton.mp hid
    exact ⟨_, 0, rfl, .inl rfl, rfl⟩
  · intro id hid
    obtain rfl := List.mem_singleton.mp hid
    exact ⟨_, 1, rfl, rfl, rfl⟩

theorem copyGraph_wellFormed {ops : List ReinterpretType} {dims : List Nat}
    (h : NnEngine.outDims ops dims = some dims) : WellFormedGraph (copyGraph ops dims) := by
  have hnode : ∀ {id node}, (copyGraph ops dims).node? id = some node →
      (id, node) ∈ (copyGraph ops dims).iter := fun hnode => mem_iter.mpr hnode
  have hiter : (copyGraph ops dims).iter = (copyGraph ops dims).nodes.zipIdx.map Prod.swap := rfl
  refine { defined := ?_, acyclic := ⟨id, ?_⟩, contiguous := ?_ }
  · intro v x y hx hy
    have hpairs : outputPairs (copyGraph ops dims) = [(0, (0, 0)), (1, (1, 0))] := rfl
    rw [hpairs] at hx hy
    simp only [List.mem_cons, Prod.mk.injEq, List.not_mem_nil, or_false] at hx hy
    rcases hx with ⟨rfl, rfl⟩ | ⟨rfl, rfl⟩ <;> simpa [eq_comm] using hy
  · intro id node h v hv w hw
    have hmem := hnode h
    rw [hiter] at hmem
    simp only [copyGraph, List.zipIdx_cons, List.zipIdx_nil, List.map_cons, List.map_nil, Prod.swap_prod_mk,
      List.mem_cons, Prod.mk.injEq, List.not_mem_nil, or_false] at hmem
    rcases hmem with ⟨-, rfl⟩ | ⟨-, rfl⟩ | ⟨-, rfl⟩
    · cases hv
    · simp only [List.mem_singleton, Option.some.injEq] at hv hw
      subst hv hw
      exact Nat.zero_lt_one
    · cases hw
  · intro id node ops' hn hop
    have hmem := hnode hn
    rw [hiter] at hmem
    simp only [copyGraph, List.zipIdx_cons, List.zipIdx_nil, List.map_cons, List.map_nil, Prod.swap_prod_mk,
      List.mem_cons, Prod.mk.injEq, List.not_mem_nil, or_false] at hmem
    rcases hmem with ⟨-, rfl⟩ | ⟨-, rfl⟩ | ⟨-, rfl⟩
    · cases hop
    · obtain rfl := Operator.contiguous.inj hop
      exact ⟨0, 1, _, _, rfl, rfl, rfl, rfl, h⟩
    · cases hop

/-- The copy that `NHWC2NCHWLowering` makes of an image whose extents are equal moves elements. -/
theorem copyGraph_nchw_not_same : ∃ st, run (.new (copyGraph [.transpose (some [0, 3, 1, 2])] [1, 2, 2, 2])) =
      .ok st ∧ WellFormedGraph (copyGraph [.transpose (some [0, 3, 1, 2])] [1, 2, 2, 2]) ∧
    ¬ SameElements (copyGraph [.transpose (some [0, 3, 1, 2])] [1, 2, 2, 2]) st.graph := by
  have hg : WellFormedGraph (copyGraph [.transpose (some [0, 3, 1, 2])] [1, 2, 2, 2]) :=
    copyGraph_wellFormed (by decide)
  have hrun : ∃ st, run (.new (copyGraph [.transpose (some [0, 3, 1, 2])] [1, 2, 2, 2])) = .ok st :=
    ⟨_, rfl⟩
  obtain ⟨st, hrun⟩ := hrun
  refine ⟨st, hrun, hg, fun hsame => ?_⟩
  obtain ⟨ids, hids, hdone⟩ := done_of_run hg (copyGraph_consistent _ _) hrun
  have hkeeps := hdone.harmless hg hids hsame 1 _ 0 1 [1, 2, 2, 2]
    ⟨⟨_, rfl, rfl, rfl, rfl⟩, ⟨_, rfl, rfl, rfl⟩, ⟨_, rfl, rfl⟩, by decide⟩ ⟨(2, 0), _, rfl, rfl⟩
  exact absurd (hkeeps 1 (by decide)) (by decide)

/-- The same copy of an image of one row and one column moves none. -/
theorem copyGraph_nchw_same_iff : ∃ st, run (.new (copyGraph [.transpose (some [0, 3, 1, 2])] [2, 1, 1, 1])) =
      .ok st ∧
    (SameElements (copyGraph [.transpose (some [0, 3, 1, 2])] [2, 1, 1, 1]) st.graph ↔
      ∀ id ops input output dims,
        Bypassed (copyGraph [.transpose (some [0, 3, 1, 2])] [2, 1, 1, 1]) id ops input output dims →
        (∃ x, (output, x) ∈ inputPairs (copyGraph [.transpose (some [0, 3, 1, 2])] [2, 1, 1, 1])) →
          KeepsPlaces ops dims) :=
  ⟨_, rfl, sameElements_iff (copyGraph_wellFormed (by decide)) (copyGraph_consistent _ _) rfl⟩

end ContiguousElimination
end NnEngine
