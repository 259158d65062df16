import NnEngine.Transform.QuantizeActivations

/-!
# What the quantisation of activations leaves

After the pass every product that it takes reads the quantised rows of what it read before, and every reader of its
output reads the output of the new product.  The types are those of shape inference if the weights are `I8` and
their scales have the type of the activation.  Two products share a quantised activation unless the product that
defines it takes its turn after the first and before the second.
-/

namespace NnEngine
namespace QuantizeActivations

open DepthFirst InverseIndex SimpleGraphOp GraphState

/-! ### Products -/

/-- A `DequantMatMul` with its operands, its output and their types. -/
structure Product where
  nodeId : NodeId
  axis : TensorIndex
  act : ValueId
  weight : ValueId
  scale : ValueId
  out : ValueId
  actTy : ResolvedTensorType
  weightTy : ResolvedTensorType
  scaleTy : ResolvedTensorType

/-- The product is one of a graph, and its output has the type of shape inference. -/
structure Product.In (p : Product) (g : Graph) : Prop where
  node : ∃ rest, g.Has p.nodeId (.dequantMatMul p.axis) (some p.act :: some p.weight :: some p.scale :: rest) [p.out]
  actTy : g.getResolvedTensorType p.act = some p.actTy
  weightTy : g.getResolvedTensorType p.weight = some p.weightTy
  scaleTy : g.getResolvedTensorType p.scale = some p.scaleTy
  outTy : ∃ ty, inferDequantMatMul p.axis p.actTy p.weightTy p.scaleTy = .ok ty ∧
    g.getResolvedTensorType p.out = some ty

/-- The pass takes it: the scales are those of the rows, whose length is a multiple of 32, and the activation is a
matrix of floats. -/
def Product.Taken (p : Product) : Prop :=
  p.axis.index 2 = 0 ∧ 32 ∣ p.weightTy.dims.getD 1 0 ∧ p.actTy.elemType.isFloat = true ∧ p.actTy.dims.length = 2

instance (p : Product) : Decidable p.Taken := inferInstanceAs (Decidable (_ ∧ _))

/-- A graph as the pass finds it, with typed products that define values of their own. -/
structure Wellformed (g : Graph) : Prop where
  intact : Intact (.new g)
  carries : CarriesOutputs g
  typed : ∀ id node axis, g.node? id = some node → node.op = .dequantMatMul axis →
    ∃ p : Product, p.nodeId = id ∧ p.In g
  single : ∀ p p' : Product, p.In g → p'.In g → p.out = p'.out → p.nodeId = p'.nodeId

variable {g : Graph} {p p' : Product}

/-- A node has one product. -/
theorem Product.In.unique (h : p.In g) (h' : p'.In g) (hid : p.nodeId = p'.nodeId) : p = p' := by
  obtain ⟨rest, hhas⟩ := h.node
  obtain ⟨rest', hhas'⟩ := h'.node
  rw [hid] at hhas
  obtain ⟨hop, hins, houts⟩ := hhas.unique hhas'
  have ht := h.actTy
  have hw := h.weightTy
  have hs := h.scaleTy
  cases p
  cases p'
  simp only [Operator.dequantMatMul.injEq, List.cons.injEq, Option.some.injEq] at hop hins houts hid ht hw hs
  obtain ⟨rfl, rfl, rfl, -⟩ := hins
  obtain ⟨rfl, -⟩ := houts
  obtain rfl := Option.some.inj (ht.symm.trans h'.actTy)
  obtain rfl := Option.some.inj (hw.symm.trans h'.weightTy)
  obtain rfl := Option.some.inj (hs.symm.trans h'.scaleTy)
  rw [hop, hid]

/-- The dimensions of a typed product. -/
theorem Product.In.dims (h : p.In g) (haxis : p.axis.index 2 = 0) : ∃ outer k n,
    p.actTy.dims = outer ++ [k] ∧ 1 ≤ outer.length ∧ p.weightTy.dims = [n, k] ∧ p.scaleTy.dims = [n] ∧
      g.getResolvedTensorType p.out = some (.new p.scaleTy.elemType (.new (outer ++ [n]))) := by
  obtain ⟨ty, hinfer, hout⟩ := h.outTy
  unfold inferDequantMatMul at hinfer
  dsimp only at hinfer
  split at hinfer
  · rename_i n k hn hk
    split at hinfer
    · rename_i hdims
      obtain ⟨hrank, hweight, hscale, hfirst, hlast⟩ := hdims
      obtain ⟨n', k', hweight'⟩ := List.length_eq_two.mp hweight
      obtain ⟨n'', hscale'⟩ := List.length_eq_one_iff.mp hscale
      rw [hweight, haxis, hweight'] at hn hk
      rw [hscale'] at hfirst
      obtain rfl := Option.some.inj hn
      obtain rfl := Option.some.inj hk
      obtain rfl := Option.some.inj hfirst
      have hne : p.actTy.dims ≠ [] := by
        intro hnil
        rw [hnil] at hlast
        cases hlast
      have hdrop := List.dropLast_append_getLast hne
      rw [List.getLast?_eq_some_getLast hne] at hlast
      obtain rfl := Except.ok.inj hinfer
      refine ⟨p.actTy.dims.dropLast, _, _, ?_, ?_, hweight', hscale', hout⟩
      · rw [← Option.some.inj hlast, hdrop]
      · rw [List.length_dropLast]
        omega
    · cases hinfer
  · cases hinfer

/-- The dimensions of a product that the pass takes. -/
theorem Product.In.matrices (h : p.In g) (ht : p.Taken) : ∃ m k n, p.actTy.dims = [m, k] ∧
    p.weightTy.dims = [n, k] ∧ p.scaleTy.dims = [n] ∧ 32 ∣ k ∧
      g.getResolvedTensorType p.out = some (.new p.scaleTy.elemType (.new [m, n])) := by
  obtain ⟨haxis, hdvd, -, hrank⟩ := ht
  obtain ⟨outer, k, n, hact, -, hweight, hscale, hout⟩ := h.dims haxis
  rw [hact, List.length_append] at hrank
  obtain ⟨m, rfl⟩ := List.length_eq_one_iff.mp (Nat.succ.inj hrank)
  rw [hweight] at hdvd
  exact ⟨m, k, n, hact, hweight, hscale, hdvd, hout⟩

/-! ### The search -/

/-- The plan for a product that reads other values. -/
def Product.plan (p : Product) (σ : ValueId → ValueId) (f : FloatType) (m : ℕ) : Plan where
  nodeId := p.nodeId
  actValue := σ p.act
  weightValue := σ p.weight
  weightScaleValue := σ p.scale
  axis := p.axis
  scaleFloatTy := f
  m := m

/-- The search depends on the types of the operands only. -/
theorem build_eq {g' : Graph} {σ : ValueId → ValueId} (h : p.In g) (htypes : ∀ v < g.values.length,
      g'.getResolvedTensorType (σ v) = g.getResolvedTensorType v)
    (hhas : ∀ id op ins outs, g.Has id op ins outs → (∀ v, op ≠ .output v) →
      g'.Has id op (ins.map (Option.map σ)) outs) :
    (Plan.build g' p.nodeId).run = (quantizable p.axis p.actTy p.weightTy).run.map
      (Option.map fun (f, m) => p.plan σ f m) := by
  obtain ⟨rest, hnode⟩ := h.node
  obtain ⟨node, hnode', hop, hins, -⟩ := hhas _ _ _ _ hnode nofun
  have hact := (htypes _ (type_lt h.actTy)).trans h.actTy
  have hweight := (htypes _ (type_lt h.weightTy)).trans h.weightTy
  have h0 : inputAt node args.DEQUANT_MATMUL_LHS = pure (σ p.act) := by
    unfold inputAt
    rw [hins]
    rfl
  have h1 : inputAt node args.DEQUANT_MATMUL_RHS = pure (σ p.weight) := by
    unfold inputAt
    rw [hins]
    rfl
  have h2 : inputAt node args.DEQUANT_MATMUL_SCALE = pure (σ p.scale) := by
    unfold inputAt
    rw [hins]
    rfl
  have hunwrap : (Match.unwrap (some node) : Match Node) = pure node := rfl
  unfold Plan.build
  rw [hnode', hunwrap, pure_bind, hop]
  change (pure p.axis >>= fun axis => _ : Match Plan).run = _
  rw [pure_bind, h0, pure_bind, h1, pure_bind, h2, pure_bind, hact]
  change (pure p.actTy >>= fun actTy => _ : Match Plan).run = _
  rw [pure_bind, hweight]
  change (pure p.weightTy >>= fun rhsTy => _ : Match Plan).run = _
  rw [pure_bind, OptionT.run_bind, Option.elimM]
  cases (quantizable p.axis p.actTy p.weightTy).run with
  | error e => rfl
  | ok o => cases o <;> rfl

theorem size_pair (m k : ℕ) : ResolvedTensorDims.size [m, k] = m * k := by
  simp [ResolvedTensorDims.size]

section Runs

variable {α β : Type}

theorem run_check_bind (b : Bool) (f : Unit → Match β) :
    (Match.check b >>= f).run = if b then (f ()).run else .ok none := by cases b <;> rfl

theorem run_unwrap_bind (o : Option α) (f : α → Match β) :
    (Match.unwrap o >>= f).run = o.elim (.error .panic) fun a => (f a).run := by cases o <;> rfl

theorem run_ofOption_bind (o : Option α) (f : α → Match β) :
    (Match.ofOption o >>= f).run = o.elim (.ok none) fun a => (f a).run := by cases o <;> rfl

end Runs

theorem isFloat_iff {t : DataType} : t.isFloat = true ↔ ∃ f, t = .float f := by
  cases t <;> simp [DataType.isFloat]

/-- The search takes a product, unless it panics because the rows are empty. -/
theorem quantizable_of_taken (h : p.In g) (ht : p.Taken) :
    (quantizable p.axis p.actTy p.weightTy).run =
      if p.weightTy.dims.getD 1 0 = 0 then .error .panic
      else (match p.actTy.elemType with | .float f => some f | _ => none).elim (.ok none) fun f =>
        .ok (some (f, p.actTy.dims.getD 0 0)) := by
  obtain ⟨m, k, n, hact, hweight, -, hdvd, -⟩ := h.matrices ht
  obtain ⟨haxis, -, hfloat, -⟩ := ht
  obtain ⟨f, hf⟩ := isFloat_iff.mp hfloat
  have hmod : k % 32 = 0 := Nat.mod_eq_zero_of_dvd hdvd
  unfold quantizable
  simp only [run_check_bind, run_unwrap_bind, run_ofOption_bind, hweight, hact, hf, size_pair]
  by_cases hk : k = 0
  · simp [haxis, hk]
  · simp [haxis, hk, hmod, Nat.mul_div_cancel m (Nat.pos_of_ne_zero hk)]
    rfl

theorem quantizable_of_not_taken (h : p.In g) (ht : ¬p.Taken) :
    (quantizable p.axis p.actTy p.weightTy).run = .ok none := by
  unfold quantizable
  simp only [run_check_bind, run_unwrap_bind, run_ofOption_bind]
  by_cases hrank : p.weightTy.dims.length = 2
  · by_cases haxis : p.axis.index 2 = 0
    · obtain ⟨outer, k, n, hact, -, hweight, -, -⟩ := h.dims haxis
      simp only [hweight, hact]
      by_cases hmod : 32 ∣ k
      · by_cases hfloat : p.actTy.elemType.isFloat = true
        · have hmatrix : p.actTy.dims.length ≠ 2 := by
            intro hlen
            exact ht ⟨haxis, by rwa [hweight], hfloat, hlen⟩
          obtain ⟨f, hf⟩ := isFloat_iff.mp hfloat
          rw [hact] at hmatrix
          simp [haxis, hf, Nat.mod_eq_zero_of_dvd hmod] at hmatrix ⊢
          simp [hmatrix]
        · cases hty : p.actTy.elemType with
          | float f => rw [hty] at hfloat; exact absurd rfl hfloat
          | bool | sInt | uInt => simp [haxis]
      · have hne : k % 32 ≠ 0 := fun h0 => hmod (Nat.dvd_of_mod_eq_zero h0)
        simp [haxis, hne]
    · simp [hrank, haxis]
  · simp [hrank]

/-! ### The invariant -/

/-- The types that an activation gives its quantised rows. -/
def QuantisedTypes (g : Graph) (actTy : ResolvedTensorType) (q sc z : ValueId) : Prop :=
  ∃ tq ts tz, inferDynamicQuantizeLinear { axis := some ⟨0⟩, symmetric := true } actTy = .ok [tq, ts, tz] ∧
    g.getResolvedTensorType q = some tq ∧ g.getResolvedTensorType sc = some ts ∧
      g.getResolvedTensorType z = some tz

/-- The outputs `outs` have been replaced: `σ` gives what is now read for a value, and `quantizer` the node that
quantises a value in the cache. -/
structure Inv (g : Graph) (outs : List ValueId) (s : State) (σ : ValueId → ValueId)
    (quantizer : ValueId → NodeId) : Prop where
  intact : Intact s.st
  carries : CarriesOutputs s.st.graph
  nodesLength : g.nodes.length ≤ s.st.graph.nodes.length
  length : g.values.length ≤ s.st.graph.values.length
  has : ∀ id op ins o, g.Has id op ins o → (∀ v, op ≠ .output v) → s.st.graph.Has id op (ins.map (Option.map σ)) o
  pairs : ∀ v x, (v, x) ∈ inputPairs g → (σ v, x) ∈ inputPairs s.st.graph
  types : ∀ v < g.values.length, s.st.graph.getResolvedTensorType (σ v) = g.getResolvedTensorType v
  same : ∀ v, v ∉ outs → σ v = v
  fresh : ∀ v ∈ outs, g.values.length ≤ σ v ∧ σ v < s.st.graph.values.length
  inj : ∀ v ∈ outs, ∀ v' ∈ outs, σ v = σ v' → v = v'
  below : ∀ v ∈ outs, v < g.values.length
  unread : ∀ v ∈ outs, ∀ x, (v, x) ∉ inputPairs s.st.graph
  cached : ∀ v q sc, s.actQuantCache v = some (q, sc) → g.nodes.length ≤ quantizer v ∧ g.values.length ≤ q ∧
    g.values.length ≤ sc ∧ ∃ z actTy, s.st.graph.Has (quantizer v) rowwise [some (σ v)] [q, sc, z] ∧
      s.st.graph.getResolvedTensorType (σ v) = some actTy ∧ QuantisedTypes s.st.graph actTy q sc z
  quantizerInj : ∀ v v', (s.actQuantCache v).isSome → (s.actQuantCache v').isSome → quantizer v = quantizer v' →
    v = v'
  quantizers : ∀ id ins o, g.nodes.length ≤ id → s.st.graph.Has id rowwise ins o →
    ∃ v, (s.actQuantCache v).isSome ∧ quantizer v = id

variable {outs : List ValueId} {s s' : State} {σ : ValueId → ValueId} {quantizer : ValueId → NodeId}

theorem Graph.Has.identity {id : NodeId} {op : Operator} {ins : List (Option ValueId)} {o : List ValueId}
    (h : g.Has id op ins o) : g.Has id op (ins.map (Option.map fun v => v)) o := by
  have hmap : ins.map (Option.map fun v => v) = ins := by simp
  rwa [hmap]

/-- Before the first turn nothing is new. -/
theorem inv_start (hg : Wellformed g) : Inv g [] { st := .new g, actQuantCache := fun _ => none } (fun v => v)
    fun _ => 0 where
  intact := hg.intact
  carries := hg.carries
  nodesLength := Nat.le_refl _
  length := Nat.le_refl _
  has _ _ _ _ h _ := Graph.Has.identity h
  pairs _ _ h := h
  types _ _ := rfl
  same _ _ := rfl
  fresh := nofun
  inj := nofun
  below := nofun
  unread := nofun
  cached := nofun
  quantizerInj := nofun
  quantizers id ins o hid h := by
    obtain ⟨node, hnode, -⟩ := h
    have hlt := (List.getElem?_eq_some_iff.mp (node?_eq_some.mp hnode).1).1
    exact absurd hlt (Nat.not_lt.mpr hid)

theorem Inv.value_lt (h : Inv g outs s σ quantizer) {v : ValueId} (hv : v < g.values.length) :
    σ v < s.st.graph.values.length := by
  by_cases hmem : v ∈ outs
  · exact (h.fresh v hmem).2
  · rw [h.same v hmem]
    exact Nat.lt_of_lt_of_le hv h.length

/-- What is read now is not replaced again. -/
theorem Inv.idem (h : Inv g outs s σ quantizer) (v : ValueId) : σ (σ v) = σ v := by
  by_cases hmem : v ∈ outs
  · refine h.same _ fun hmem' => ?_
    exact Nat.not_lt.mpr (h.fresh v hmem).1 (h.below _ hmem')
  · rw [h.same v hmem, h.same v hmem]

/-- Different values of the graph are read as different ones. -/
theorem Inv.injOn (h : Inv g outs s σ quantizer) {v v' : ValueId} (hv : v < g.values.length)
    (hv' : v' < g.values.length) (heq : σ v = σ v') : v = v' := by
  by_cases hmem : v ∈ outs
  · by_cases hmem' : v' ∈ outs
    · exact h.inj v hmem v' hmem' heq
    · rw [h.same v' hmem'] at heq
      exact absurd (heq ▸ hv') (Nat.not_lt.mpr (h.fresh v hmem).1)
  · by_cases hmem' : v' ∈ outs
    · rw [h.same v hmem] at heq
      exact absurd (heq ▸ hv) (Nat.not_lt.mpr (h.fresh v' hmem').1)
    · rwa [h.same v hmem, h.same v' hmem'] at heq

/-! ### The quantised activation -/

variable {plan : Plan} {actTy : ResolvedTensorType} {st : GraphState}

/-- The node that `ensure_quantized_act` adds. -/
def quantizerNode (st : GraphState) (plan : Plan) : Node where
  inputs := [some plan.actValue]
  outputs := [st.graph.values.length, st.graph.values.length + 1, st.graph.values.length + 2]
  name := s!"QuantizeActivations_{debugId plan.actValue}"
  op := rowwise
  markAsDeleted := false

/-- The state with its three outputs. -/
def withOutputs (st : GraphState) (plan : Plan) (actTy : ResolvedTensorType) : GraphState :=
  let scaleDims := ResolvedTensorDims.new [plan.m]
  let valuePrefix := s!"QuantizeActivations_{debugId plan.actValue}"
  let st := (st.registerNewValue (valuePrefix ++ "_int8") (.new (.sInt .I8) actTy.dims)).2
  let st := (st.registerNewValue (valuePrefix ++ "_scale") (.new (.float plan.scaleFloatTy) scaleDims)).2
  (st.registerNewValue (valuePrefix ++ "_zp") (.new (.sInt .I8) scaleDims)).2

theorem registerQuantized_eq : registerQuantized st plan actTy =
    ((st.graph.values.length, st.graph.values.length + 1),
      (withOutputs st plan actTy).registerNewNode (quantizerNode st plan)) := by
  have h1 : ∀ (st : GraphState) (name : String) (ty : ResolvedTensorType),
      (st.registerNewValue name ty).2.graph.values.length = st.graph.values.length + 1 := by
    intro st name ty
    simp [registerNewValue]
  unfold registerQuantized withOutputs quantizerNode
  simp only [registerNewValue, List.length_append, List.length_singleton, Nat.add_assoc]

theorem withOutputs_graph : (withOutputs st plan actTy).graph.values.length = st.graph.values.length + 3 ∧
    (withOutputs st plan actTy).graph.nodes = st.graph.nodes ∧ Extended st.graph (withOutputs st plan actTy).graph := by
  refine ⟨by simp [withOutputs, registerNewValue], rfl, ?_⟩
  exact ((registerNewValue_extended ..).trans (registerNewValue_extended ..)).trans (registerNewValue_extended ..)

/-- The types of the new outputs. -/
theorem withOutputs_types (hf : actTy.elemType = .float plan.scaleFloatTy) (hm : actTy.dims[0]? = some plan.m) :
    QuantisedTypes (withOutputs st plan actTy).graph actTy st.graph.values.length (st.graph.values.length + 1)
      (st.graph.values.length + 2) := by
  have hindex : TensorIndex.index ⟨0⟩ actTy.dims.length = 0 := rfl
  refine ⟨.new (.sInt .I8) actTy.dims, .new (.float plan.scaleFloatTy) (.new [plan.m]), .new (.sInt .I8) (.new [plan.m]),
    ?_, ?_, ?_, ?_⟩
  · unfold inferDynamicQuantizeLinear
    simp only [hindex, hm, hf]
    rfl
  all_goals simp [withOutputs, registerNewValue, Graph.getResolvedTensorType]

theorem QuantisedTypes.extend {g g' : Graph} (hext : Extended g g') {q sc z : ValueId}
    (h : QuantisedTypes g actTy q sc z) : QuantisedTypes g' actTy q sc z := by
  obtain ⟨tq, ts, tz, hinfer, hq, hs, hz⟩ := h
  exact ⟨tq, ts, tz, hinfer, (hext.type (type_lt hq)).trans hq, (hext.type (type_lt hs)).trans hs,
    (hext.type (type_lt hz)).trans hz⟩

/-- A new node for an activation keeps the invariant. -/
theorem Inv.register (h : Inv g outs s σ quantizer) {v : ValueId} (hv : plan.actValue = σ v) (hmiss : s.actQuantCache plan.actValue = none)
    (hty : s.st.graph.getResolvedTensorType plan.actValue = some actTy)
    (hread : ∃ x, (plan.actValue, x) ∈ inputPairs s.st.graph)
    (hf : actTy.elemType = .float plan.scaleFloatTy) (hm : actTy.dims[0]? = some plan.m) :
    Inv g outs
      { st := (registerQuantized s.st plan actTy).2
        actQuantCache := Function.update s.actQuantCache plan.actValue (some (registerQuantized s.st plan actTy).1) }
      σ (Function.update quantizer plan.actValue s.st.graph.nodes.length) := by
  obtain ⟨hlen, hnodes, hext⟩ := @withOutputs_graph plan actTy s.st
  have hlive : (quantizerNode s.st plan).markAsDeleted = false := rfl
  have hidem : σ plan.actValue = plan.actValue := by rw [hv, h.idem]
  have hgraph : (registerQuantized s.st plan actTy).2 =
      (withOutputs s.st plan actTy).registerNewNode (quantizerNode s.st plan) := by rw [registerQuantized_eq]
  have hnodes' : (withOutputs s.st plan actTy).graph.nodes.length = s.st.graph.nodes.length := by rw [hnodes]
  have hnode? : ∀ id, (withOutputs s.st plan actTy).graph.node? id = s.st.graph.node? id := fun id => rfl
  have hhas : ∀ id op ins o, s.st.graph.Has id op ins o →
      ((withOutputs s.st plan actTy).registerNewNode (quantizerNode s.st plan)).graph.Has id op ins o := by
    intro id op ins o hnode
    have hsame : (withOutputs s.st plan actTy).graph.Has id op ins o := hnode
    exact hsame.registerNewNode hlive
  have htypes : ∀ u, u < s.st.graph.values.length →
      ((withOutputs s.st plan actTy).registerNewNode (quantizerNode s.st plan)).graph.getResolvedTensorType u =
        s.st.graph.getResolvedTensorType u := fun u hu => hext.type hu
  have hnew : ((withOutputs s.st plan actTy).registerNewNode (quantizerNode s.st plan)).graph.Has
      s.st.graph.nodes.length rowwise [some (σ plan.actValue)]
      [s.st.graph.values.length, s.st.graph.values.length + 1, s.st.graph.values.length + 2] := by
    have hnode := has_registerNewNode (withOutputs s.st plan actTy) hlive
    rw [hnodes'] at hnode
    rw [hidem]
    exact hnode
  -- the node of a value in the cache was there before
  have hold : ∀ u, (s.actQuantCache u).isSome → quantizer u < s.st.graph.nodes.length := by
    intro u hu
    obtain ⟨pair, hpair⟩ := Option.isSome_iff_exists.mp hu
    obtain ⟨-, -, -, z, ty, ⟨node, hnode, -⟩, -⟩ := h.cached u pair.1 pair.2 hpair
    exact (List.getElem?_eq_some_iff.mp (node?_eq_some.mp hnode).1).1
  rw [hgraph, registerQuantized_eq]
  exact {
    intact := by
      refine registerNewNode_intact ?_ hlive (fun u hu => ?_) fun u hu => ?_
      · exact registerNewValue_intact (registerNewValue_intact (registerNewValue_intact h.intact _ _) _ _) _ _
      · obtain rfl := Option.some.inj (List.mem_singleton.mp hu)
        rw [hlen]
        exact Nat.lt_of_lt_of_le (type_lt hty) (Nat.le_add_right _ _)
      · rw [hlen]
        simp only [quantizerNode, List.mem_cons, List.not_mem_nil, or_false] at hu
        rcases hu with rfl | rfl | rfl <;> simp
    carries := by
      intro id node u hnode hu
      rw [node?_registerNewNode _ hlive] at hnode
      split at hnode
      · obtain rfl := Option.some.inj hnode
        cases hu
      · exact h.carries id node u hnode hu
    nodesLength := by
      show _ ≤ ((withOutputs s.st plan actTy).graph.nodes ++ [_]).length
      rw [List.length_append, hnodes']
      exact Nat.le_trans h.nodesLength (Nat.le_add_right _ _)
    length := Nat.le_trans h.length hext.length
    has := fun id op ins o hnode hop => hhas _ _ _ _ (h.has id op ins o hnode hop)
    pairs := fun u x hu => by
      rw [inputPairs_registerNewNode _ hlive]
      exact .inl (h.pairs u x hu)
    types := fun u hu => (htypes _ (h.value_lt hu)).trans (h.types u hu)
    same := h.same
    fresh := fun u hu => ⟨(h.fresh u hu).1, Nat.lt_of_lt_of_le (h.fresh u hu).2 hext.length⟩
    inj := h.inj
    below := h.below
    unread := fun u hu x hx => by
      rw [inputPairs_registerNewNode _ hlive] at hx
      rcases hx with hx | hx
      · exact h.unread u hu x hx
      · obtain ⟨-, hget⟩ := mem_inputPlaces.mp hx
        obtain rfl := Option.some.inj (List.mem_singleton.mp (List.mem_of_getElem? hget))
        obtain ⟨y, hy⟩ := hread
        exact h.unread _ hu y hy
    cached := fun u q sc hpair => by
      dsimp only at hpair
      by_cases hu : u = plan.actValue
      · rw [hu, Function.update_self, Option.some.injEq, Prod.mk.injEq] at hpair
        obtain ⟨rfl, rfl⟩ := hpair
        rw [hu, Function.update_self]
        refine ⟨h.nodesLength, h.length, Nat.le_trans h.length (Nat.le_add_right _ _), _, actTy, hnew, ?_, ?_⟩
        · rw [hidem, htypes _ (type_lt hty), hty]
        · exact withOutputs_types hf hm
      · rw [Function.update_of_ne hu] at hpair ⊢
        obtain ⟨hnode, hq, hsc, z, ty, hhas', hty', htys⟩ := h.cached u q sc hpair
        refine ⟨hnode, hq, hsc, z, ty, hhas _ _ _ _ hhas', ?_, ?_⟩
        · rw [htypes _ (type_lt hty'), hty']
        · exact htys.extend hext
    quantizerInj := fun u u' hu hu' heq => by
      dsimp only at hu hu'
      by_cases hact : u = plan.actValue
      · by_cases hact' : u' = plan.actValue
        · rw [hact, hact']
        · rw [Function.update_of_ne hact'] at hu' heq
          rw [hact, Function.update_self] at heq
          exact absurd heq (Nat.ne_of_gt (hold u' hu'))
      · rw [Function.update_of_ne hact] at hu heq
        by_cases hact' : u' = plan.actValue
        · rw [hact', Function.update_self] at heq
          exact absurd heq (Nat.ne_of_lt (hold u hu))
        · rw [Function.update_of_ne hact'] at hu' heq
          exact h.quantizerInj u u' hu hu' heq
    quantizers := fun id ins o hid hnode => by
      by_cases hnode' : id = s.st.graph.nodes.length
      · refine ⟨plan.actValue, ?_, by rw [Function.update_self, hnode']⟩
        dsimp only
        rw [Function.update_self]
        rfl
      · obtain ⟨node, hget, hrest⟩ := hnode
        rw [node?_registerNewNode _ hlive, hnodes', if_neg hnode'] at hget
        obtain ⟨u, hu, hq⟩ := h.quantizers id ins o hid ⟨node, hget, hrest⟩
        have hne : u ≠ plan.actValue := by
          rintro rfl
          rw [hmiss] at hu
          cases hu
        refine ⟨u, ?_, by rwa [Function.update_of_ne hne]⟩
        dsimp only
        rwa [Function.update_of_ne hne] }

/-! ### The product of quantised rows -/

/-- The replacement of an output moves what is read. -/
theorem Inv.moved_eq (h : Inv g outs s σ quantizer) {out : ValueId} (hout : out ∉ outs) (hlt : out < g.values.length)
    (new v : ValueId) : moved out new (σ v) = Function.update σ out new v := by
  unfold moved
  by_cases hv : v = out
  · rw [hv, h.same out hout, if_pos rfl, Function.update_self]
  · rw [Function.update_of_ne hv, if_neg]
    intro heq
    by_cases hmem : v ∈ outs
    · exact absurd hlt (Nat.not_lt.mpr (heq ▸ (h.fresh v hmem).1))
    · rw [h.same v hmem] at heq
      exact hv heq

theorem Inv.map_moved (h : Inv g outs s σ quantizer) {out : ValueId} (hout : out ∉ outs)
    (hlt : out < g.values.length) (new : ValueId) (ins : List (Option ValueId)) :
    (ins.map (Option.map σ)).map (Option.map (moved out new)) = ins.map (Option.map (Function.update σ out new)) := by
  rw [List.map_map]
  refine List.map_congr_left fun o _ => ?_
  cases o with
  | none => rfl
  | some v => exact congrArg some (h.moved_eq hout hlt new v)

/-- A new product for a product keeps the invariant. -/
theorem Inv.replace (h : Inv g outs s σ quantizer) (hp : p.In g) (hout : p.out ∉ outs) {q sc : ValueId}
    (hq : g.values.length ≤ q) (hsc : g.values.length ≤ sc) {st' : GraphState} (hint : Intact st')
    (hrep : ReplacedBy s.st st' p.out [some q, some sc, some (σ p.weight), some (σ p.scale)] (.quantizedMatMul p.axis))
    (hnewTy : st'.graph.getResolvedTensorType s.st.graph.values.length = s.st.graph.getResolvedTensorType p.out)
    (htypes : ∀ v < s.st.graph.values.length,
      st'.graph.getResolvedTensorType v = s.st.graph.getResolvedTensorType v) :
    Inv g (outs ++ [p.out]) { s with st := st' } (Function.update σ p.out s.st.graph.values.length) quantizer := by
  obtain ⟨rest, hnode⟩ := hp.node
  have hlt : p.out < g.values.length := by
    obtain ⟨ty, -, hty⟩ := hp.outTy
    exact type_lt hty
  have hmoved := h.moved_eq hout hlt s.st.graph.values.length
  have hread : ∀ (v : ValueId) (k : ℕ), (some p.act :: some p.weight :: some p.scale :: rest)[k]? = some (some v) → σ v ∉ outs := by
    intro v k hk hmem
    exact h.unread _ hmem _ (h.pairs _ _ (hnode.pair hk))
  -- a value keeps its type under its new name
  have htype : ∀ v ty, s.st.graph.getResolvedTensorType (σ v) = some ty →
      st'.graph.getResolvedTensorType (Function.update σ p.out s.st.graph.values.length v) = some ty := by
    intro v ty hty
    by_cases hv : v = p.out
    · rw [hv, h.same _ hout] at hty
      rw [hv, Function.update_self, hnewTy, hty]
    · rw [Function.update_of_ne hv, htypes _ (type_lt hty), hty]
  exact {
    intact := hint
    carries := hrep.carries
    nodesLength := by
      show _ ≤ st'.graph.nodes.length
      rw [hrep.nodesLength]
      exact Nat.le_succ_of_le h.nodesLength
    length := by
      show _ ≤ st'.graph.values.length
      rw [hrep.length]
      exact Nat.le_succ_of_le h.length
    has := fun id op ins o hhas hop => by
      have hmap := hrep.has _ _ _ _ (h.has id op ins o hhas hop) hop
      rwa [h.map_moved hout hlt] at hmap
    pairs := fun v x hv => (hrep.pairs _ x).mpr ⟨σ v, .inl (h.pairs v x hv), (hmoved v).symm⟩
    types := fun v hv => by
      by_cases hvout : v = p.out
      · rw [hvout, Function.update_self]
        show st'.graph.getResolvedTensorType _ = _
        rw [hnewTy, ← h.types p.out hlt, h.same _ hout]
      · rw [Function.update_of_ne hvout]
        exact (htypes _ (h.value_lt hv)).trans (h.types v hv)
    same := fun v hv => by
      rw [List.mem_append, List.mem_singleton, not_or] at hv
      rw [Function.update_of_ne hv.2, h.same v hv.1]
    fresh := fun v hv => by
      show _ ∧ _ < st'.graph.values.length
      rw [hrep.length]
      by_cases hvout : v = p.out
      · rw [hvout, Function.update_self]
        exact ⟨h.length, Nat.lt_succ_self _⟩
      · have hmem : v ∈ outs := (List.mem_append.mp hv).resolve_right fun h' => hvout (List.mem_singleton.mp h')
        rw [Function.update_of_ne hvout]
        exact ⟨(h.fresh v hmem).1, Nat.lt_succ_of_lt (h.fresh v hmem).2⟩
    inj := fun v hv v' hv' heq => by
      have hmem : ∀ u, u ∈ outs ++ [p.out] → u ≠ p.out → u ∈ outs := fun u hu hne =>
        (List.mem_append.mp hu).resolve_right fun h' => hne (List.mem_singleton.mp h')
      by_cases hvout : v = p.out
      · by_cases hvout' : v' = p.out
        · rw [hvout, hvout']
        · rw [hvout, Function.update_self, Function.update_of_ne hvout'] at heq
          exact absurd heq (Nat.ne_of_gt (h.fresh v' (hmem v' hv' hvout')).2)
      · rw [Function.update_of_ne hvout] at heq
        by_cases hvout' : v' = p.out
        · rw [hvout', Function.update_self] at heq
          exact absurd heq (Nat.ne_of_lt (h.fresh v (hmem v hv hvout)).2)
        · rw [Function.update_of_ne hvout'] at heq
          exact h.inj v (hmem v hv hvout) v' (hmem v' hv' hvout') heq
    below := fun v hv => by
      rcases List.mem_append.mp hv with hv | hv
      · exact h.below v hv
      · rw [List.mem_singleton.mp hv]
        exact hlt
    unread := fun v hv x hx => by
      obtain ⟨u, hu, hvu⟩ := (hrep.pairs v x).mp hx
      unfold moved at hvu
      split at hvu
      · -- the new value is none of the old ones
        have hbelow : v < g.values.length := by
          rcases List.mem_append.mp hv with hv | hv
          · exact h.below v hv
          · rw [List.mem_singleton.mp hv]
            exact hlt
        exact absurd hbelow (Nat.not_lt.mpr (hvu ▸ h.length))
      · rename_i hne
        rw [hvu] at hv
        have hmem : u ∈ outs := (List.mem_append.mp hv).resolve_right fun h' => hne (List.mem_singleton.mp h')
        rcases hu with hu | ⟨-, hu⟩
        · exact h.unread u hmem x hu
        · have hslot := List.mem_of_getElem? hu
          simp only [List.mem_cons, Option.some.injEq, List.not_mem_nil, or_false] at hslot
          rcases hslot with rfl | rfl | rfl | rfl
          · exact absurd (h.below u hmem) (Nat.not_lt.mpr hq)
          · exact absurd (h.below u hmem) (Nat.not_lt.mpr hsc)
          · exact hread p.weight 1 rfl hmem
          · exact hread p.scale 2 rfl hmem
    cached := fun v q' sc' hpair => by
      obtain ⟨hid, hq', hsc', z, ty, hhas, hty, htys⟩ := h.cached v q' sc' hpair
      refine ⟨hid, hq', hsc', z, ty, ?_, htype v ty hty, ?_⟩
      · have hmap := hrep.has _ _ _ _ hhas nofun
        rwa [List.map_singleton, Option.map_some, hmoved v] at hmap
      · obtain ⟨tq, ts, tz, hinfer, htq, hts, htz⟩ := htys
        exact ⟨tq, ts, tz, hinfer, (htypes _ (type_lt htq)).trans htq, (htypes _ (type_lt hts)).trans hts,
          (htypes _ (type_lt htz)).trans htz⟩
    quantizerInj := h.quantizerInj
    quantizers := fun id ins o hid hhas => by
      have hne : id ≠ s.st.graph.nodes.length := by
        rintro rfl
        exact absurd (hhas.unique hrep.node).1 nofun
      obtain ⟨ins', hold⟩ := hrep.old id _ _ _ hne hhas nofun
      exact h.quantizers id ins' o hid hold }

/-! ### One turn -/

/-- The value in the cache for a product: its activation, under the name that it has when its turn comes. -/
def IsKey (done : List Product) (σ : ValueId → ValueId) (p : Product) (v : ValueId) : Prop :=
  (v = p.act ∧ ∀ a ∈ done, a.nodeId < p.nodeId → a.out ≠ p.act) ∨
    (v = σ p.act ∧ ∃ a ∈ done, a.nodeId < p.nodeId ∧ a.out = p.act)

/-- These products have been replaced. -/
structure Progress (g : Graph) (done : List Product) (s : State) (σ : ValueId → ValueId)
    (quantizer : ValueId → NodeId) : Prop where
  inv : Inv g (done.map Product.out) s σ quantizer
  served : ∀ p ∈ done, ∃ v q sc matId, IsKey done σ p v ∧ s.actQuantCache v = some (q, sc) ∧
    s.st.graph.Has matId (.quantizedMatMul p.axis) [some q, some sc, some (σ p.weight), some (σ p.scale)] [σ p.out]
  keys : ∀ v, (s.actQuantCache v).isSome → ∃ p ∈ done, IsKey done σ p v
  products : ∀ p ∈ done, p.In g ∧ p.Taken

variable {done : List Product}

/-- What `ensure_quantized_act` does for a product. -/
theorem ensureQuantizedAct_spec (h : Inv g outs s σ quantizer) (hp : p.In g) (ht : p.Taken)
    {f : FloatType} (hf : p.actTy.elemType = .float f) :
    ∃ q sc s₁ quantizer₁, ensureQuantizedAct s (p.plan σ f (p.actTy.dims.getD 0 0)) = .ok ((q, sc), s₁) ∧
      Inv g outs s₁ σ quantizer₁ ∧ s₁.actQuantCache (σ p.act) = some (q, sc) ∧
      (∀ v pair, s.actQuantCache v = some pair → s₁.actQuantCache v = some pair) ∧
      (∀ v, (s₁.actQuantCache v).isSome → v = σ p.act ∨ (s.actQuantCache v).isSome) ∧
      ∀ id op ins o, s.st.graph.Has id op ins o → s₁.st.graph.Has id op ins o := by
  have hact : (p.plan σ f (p.actTy.dims.getD 0 0)).actValue = σ p.act := rfl
  unfold ensureQuantizedAct
  rw [hact]
  cases hcache : s.actQuantCache (σ p.act) with
  | some pair =>
      obtain ⟨q, sc⟩ := pair
      exact ⟨q, sc, s, quantizer, rfl, h, hcache, fun _ _ hv => hv, fun _ hv => .inr hv, fun _ _ _ _ hv => hv⟩
  | none =>
      obtain ⟨rest, hnode⟩ := hp.node
      obtain ⟨m, k, n, hdims, -⟩ := hp.matrices ht
      have hty : s.st.graph.getResolvedTensorType (σ p.act) = some p.actTy :=
        (h.types _ (type_lt hp.actTy)).trans hp.actTy
      have hread := h.pairs _ _ (hnode.pair (k := 0) rfl)
      have hplan : (p.plan σ f (p.actTy.dims.getD 0 0)).actValue = σ p.act := rfl
      have hrows : p.actTy.dims[0]? = some (p.plan σ f (p.actTy.dims.getD 0 0)).m := by
        rw [hdims]
        rfl
      have hinv := h.register hplan hcache hty ⟨_, hread⟩ hf hrows
      refine ⟨s.st.graph.values.length, s.st.graph.values.length + 1, _, _, ?_, hinv, ?_, fun v pair hv => ?_,
        fun v hv => ?_, fun id op ins o hhas => ?_⟩
      · simp only [hty, registerQuantized_eq]
        rfl
      · dsimp only
        rw [hact, Function.update_self, registerQuantized_eq]
      · dsimp only
        rw [hact, Function.update_of_ne]
        · exact hv
        · rintro rfl
          have hsome := hcache.symm.trans hv
          cases hsome
      · by_cases hv' : v = σ p.act
        · exact .inl hv'
        · dsimp only at hv
          rw [hact, Function.update_of_ne hv'] at hv
          exact .inr hv
      · have hsame : (withOutputs s.st (p.plan σ f (p.actTy.dims.getD 0 0)) p.actTy).graph.Has id op ins o := hhas
        have hlive : (quantizerNode s.st (p.plan σ f (p.actTy.dims.getD 0 0))).markAsDeleted = false := rfl
        have hreg := hsame.registerNewNode hlive
        dsimp only
        rw [registerQuantized_eq]
        exact hreg

theorem IsKey.spec (h : Inv g outs s σ quantizer) {v : ValueId} (hv : IsKey done σ p v) : σ v = σ p.act := by
  rcases hv with ⟨rfl, -⟩ | ⟨rfl, -⟩
  · rfl
  · exact h.idem p.act

/-- A key stays one when another product is done. -/
theorem IsKey.step {q : Product} {v new : ValueId} (hv : IsKey done σ p v) (hlt : p.nodeId < q.nodeId)
    (hout : q.out ∉ done.map Product.out) : IsKey (done ++ [q]) (Function.update σ q.out new) p v := by
  rcases hv with ⟨rfl, hnone⟩ | ⟨rfl, a, ha, hlt', hact⟩
  · refine .inl ⟨rfl, fun a ha hlt' => ?_⟩
    rcases List.mem_append.mp ha with ha | ha
    · exact hnone a ha hlt'
    · rw [List.mem_singleton.mp ha] at hlt'
      exact absurd hlt' (Nat.not_lt.mpr (Nat.le_of_lt hlt))
  · refine .inr ⟨?_, a, List.mem_append_left _ ha, hlt', hact⟩
    rw [Function.update_of_ne]
    rintro heq
    exact hout (List.mem_map.mpr ⟨a, ha, hact.trans heq⟩)

/-- The value that a product finds when its turn comes is its key. -/
theorem isKey_self (h : Inv g (done.map Product.out) s σ quantizer) (hlt : ∀ a ∈ done, a.nodeId < p.nodeId)
    (hout : p.out ∉ done.map Product.out) (new : ValueId) :
    IsKey (done ++ [p]) (Function.update σ p.out new) p (σ p.act) := by
  by_cases hmem : p.act ∈ done.map Product.out
  · obtain ⟨a, ha, hact⟩ := List.mem_map.mp hmem
    refine .inr ⟨?_, a, List.mem_append_left _ ha, hlt a ha, hact⟩
    rw [Function.update_of_ne]
    rintro heq
    exact hout (heq ▸ hmem)
  · refine .inl ⟨h.same _ hmem, fun a ha hlt' heq => ?_⟩
    rcases List.mem_append.mp ha with ha | ha
    · exact hmem (List.mem_map.mpr ⟨a, ha, heq⟩)
    · rw [List.mem_singleton.mp ha] at hlt'
      exact Nat.lt_irrefl _ hlt'

/-- A turn for a product that the pass takes. -/
theorem visit_taken (hg : Wellformed g) (h : Progress g done s σ quantizer) (hp : p.In g) (ht : p.Taken)
    (hk : p.weightTy.dims.getD 1 0 ≠ 0) (hlt : ∀ a ∈ done, a.nodeId < p.nodeId) :
    ∃ s' σ' quantizer', visit s p.nodeId = .ok s' ∧ Progress g (done ++ [p]) s' σ' quantizer' := by
  have hout : p.out ∉ done.map Product.out := by
    intro hmem
    obtain ⟨a, ha, heq⟩ := List.mem_map.mp hmem
    exact absurd (hg.single a p (h.products a ha).1 hp heq) (Nat.ne_of_lt (hlt a ha))
  obtain ⟨f, hf⟩ := isFloat_iff.mp ht.2.2.1
  obtain ⟨rest, hnode⟩ := hp.node
  obtain ⟨outTy, -, houtTy⟩ := hp.outTy
  have hbuild : (Plan.build s.st.graph p.nodeId).run = .ok (some (p.plan σ f (p.actTy.dims.getD 0 0))) := by
    rw [build_eq hp h.inv.types h.inv.has, quantizable_of_taken hp ht, if_neg hk, hf]
    rfl
  obtain ⟨q, sc, s₁, quantizer₁, hensure, hinv, hpair, hcache, hnewCache, hhas⟩ :=
    ensureQuantizedAct_spec h.inv hp ht hf
  obtain ⟨-, hq, hsc, z, ty, -, -, tq, ts, tz, -, htq, hts, -⟩ := hinv.cached _ _ _ hpair
  obtain ⟨node, hnode', -, -, houts⟩ := hinv.has _ _ _ _ hnode nofun
  have hlt' : p.out < g.values.length := type_lt houtTy
  have holdTy : s₁.st.graph.getResolvedTensorType p.out = some outTy := by
    have htype := hinv.types p.out hlt'
    rw [hinv.same _ hout] at htype
    exact htype.trans houtTy
  obtain ⟨st', hok, hrep⟩ := @replaceByNode_replaced s₁.st p.out (.quantizedMatMul p.axis)
    [some q, some sc, some (σ p.weight), some (σ p.scale)] s!"QuantizedMatMul_Output_{debugId p.nodeId}"
    s!"QuantizedMatMul_{debugId p.nodeId}" outTy hinv.intact.consistent hinv.carries holdTy nofun
  have hint := (replaceByNode_intact hinv.intact (fun v hv => by
    simp only [List.mem_cons, Option.some.injEq, List.not_mem_nil, or_false] at hv
    rcases hv with rfl | rfl | rfl | rfl
    · exact type_lt htq
    · exact type_lt hts
    · exact hinv.value_lt (type_lt hp.weightTy)
    · exact hinv.value_lt (type_lt hp.scaleTy)) hok).1
  obtain ⟨hnewTy, htypes⟩ := replaceByNode_type hinv.intact.consistent hok
  have hinv' := hinv.replace hp hout hq hsc hint hrep hnewTy htypes
  refine ⟨{ s₁ with st := st' }, Function.update σ p.out s₁.st.graph.values.length, quantizer₁, ?_, ?_⟩
  · unfold visit
    rw [hbuild]
    show apply s _ = _
    unfold apply
    rw [hensure]
    show (orPanic (s₁.st.graph.node? p.nodeId)).bind _ = _
    rw [hnode']
    show (orPanic node.outputs[0]?).bind _ = _
    rw [houts]
    exact congrArg (Except.map fun st => ({ s₁ with st := st } : State)) hok
  · have hmap : (done ++ [p]).map Product.out = done.map Product.out ++ [p.out] := by simp
    have hmoved := hinv.moved_eq hout hlt' s₁.st.graph.values.length
    have hfix : ∀ v, g.values.length ≤ v → moved p.out s₁.st.graph.values.length v = v := by
      intro v hv
      rw [moved, if_neg]
      rintro rfl
      exact absurd hlt' (Nat.not_lt.mpr hv)
    exact {
      inv := by rwa [hmap]
      served := fun b hb => by
        rcases List.mem_append.mp hb with hb | hb
        · obtain ⟨v, qb, scb, matId, hkey, hpairb, hmat⟩ := h.served b hb
          have hpairb' := hcache v _ hpairb
          obtain ⟨-, hqb, hscb, -⟩ := hinv.cached _ _ _ hpairb'
          refine ⟨v, qb, scb, matId, hkey.step (hlt b hb) hout, hpairb', ?_⟩
          have hmat' := hrep.has _ _ _ _ (hhas _ _ _ _ hmat) nofun
          have hbout : b.out ≠ p.out := fun heq => hout (List.mem_map.mpr ⟨b, hb, heq⟩)
          simp only [List.map_cons, List.map_nil, Option.map_some, hmoved, hfix qb hqb, hfix scb hscb] at hmat'
          rwa [Function.update_of_ne hbout]
        · obtain rfl := List.mem_singleton.mp hb
          refine ⟨σ b.act, q, sc, s₁.st.graph.nodes.length, isKey_self h.inv hlt hout _, hpair, ?_⟩
          have hmat := hrep.node
          simp only [List.map_cons, List.map_nil, Option.map_some, hmoved, hfix q hq, hfix sc hsc] at hmat
          rwa [Function.update_self]
      keys := fun v hv => by
        rcases hnewCache v hv with rfl | hv
        · exact ⟨p, by simp, isKey_self h.inv hlt hout _⟩
        · obtain ⟨b, hb, hkey⟩ := h.keys v hv
          exact ⟨b, List.mem_append_left _ hb, hkey.step (hlt b hb) hout⟩
      products := fun b hb => by
        rcases List.mem_append.mp hb with hb | hb
        · exact h.products b hb
        · rw [List.mem_singleton.mp hb]
          exact ⟨hp, ht⟩ }

/-! ### The run -/

theorem mem_candidates {id : NodeId} : id ∈ candidates g ↔
    ∃ node axis, g.node? id = some node ∧ node.op = .dequantMatMul axis := by
  unfold candidates
  simp only [List.mem_map, List.mem_filter]
  constructor
  · rintro ⟨x, ⟨hx, hop⟩, rfl⟩
    split at hop
    · rename_i axis hnode
      exact ⟨x.2, axis, mem_iter.mp hx, hnode⟩
    · cases hop
  · rintro ⟨node, axis, hnode, hop⟩
    exact ⟨(id, node), ⟨mem_iter.mpr hnode, by rw [hop]⟩, rfl⟩

/-- The candidates come in the order of the nodes. -/
theorem candidates_sorted (g : Graph) : (candidates g).Pairwise (· < ·) := by
  have hiter : (g.iter.map Prod.fst).Pairwise (· < ·) := by
    have hall : ((g.nodes.zipIdx.map Prod.swap).map Prod.fst).Pairwise (· < ·) := by
      rw [List.map_map]
      change (g.nodes.zipIdx.map Prod.snd).Pairwise (· < ·)
      rw [List.zipIdx_map_snd]
      exact List.pairwise_lt_range'
    exact hall.sublist (List.filter_sublist.map _)
  exact hiter.sublist (List.filter_sublist.map _)

/-- The rows that the pass would divide by are empty. -/
def Product.Empty (p : Product) : Prop := p.weightTy.dims.getD 1 0 = 0

theorem visit_not_taken (h : Inv g outs s σ quantizer) (hp : p.In g) (ht : ¬p.Taken) :
    visit s p.nodeId = .ok s := by
  unfold visit
  rw [build_eq hp h.types h.has, quantizable_of_not_taken hp ht]
  rfl

theorem visit_empty (h : Inv g outs s σ quantizer) (hp : p.In g) (ht : p.Taken) (hk : p.Empty) :
    visit s p.nodeId = .error .panic := by
  unfold visit
  rw [build_eq hp h.types h.has, quantizable_of_taken hp ht, if_pos (show p.weightTy.dims.getD 1 0 = 0 from hk)]
  rfl

/-- The turns for some of the candidates: the pass panics at a product with empty rows, or takes them all. -/
theorem turns_progress (hg : Wellformed g) : ∀ (l : List NodeId) (done : List Product) (s : State)
    (σ : ValueId → ValueId) (quantizer : ValueId → NodeId), (∀ id ∈ l, ∃ p : Product, p.nodeId = id ∧ p.In g) →
    l.Pairwise (· < ·) → Progress g done s σ quantizer → (∀ a ∈ done, ∀ id ∈ l, a.nodeId < id) →
    (l.foldlM visit s = .error .panic ∧ ∃ p : Product, p.In g ∧ p.Taken ∧ p.Empty) ∨
      ∃ done' s' σ' quantizer', l.foldlM visit s = .ok s' ∧ Progress g done' s' σ' quantizer' ∧
        (∀ p : Product, p ∈ done' ↔ p ∈ done ∨ p.nodeId ∈ l ∧ p.In g ∧ p.Taken) ∧
        ∀ p : Product, p.nodeId ∈ l → p.In g → p.Taken → ¬p.Empty
  | [], done, s, σ, quantizer, _, _, h, _ => .inr ⟨done, s, σ, quantizer, rfl, h, by simp, nofun⟩
  | id :: l, done, s, σ, quantizer, htyped, hsorted, h, hlt => by
      obtain ⟨p, rfl, hp⟩ := htyped id List.mem_cons_self
      obtain ⟨hhead, hsorted⟩ := List.pairwise_cons.mp hsorted
      have htyped' : ∀ id ∈ l, ∃ p : Product, p.nodeId = id ∧ p.In g :=
        fun id hid => htyped id (List.mem_cons_of_mem _ hid)
      have hfold : ∀ r, visit s p.nodeId = r → (p.nodeId :: l).foldlM visit s = r.bind (l.foldlM visit) := by
        rintro r rfl
        rfl
      by_cases ht : p.Taken
      · by_cases hk : p.Empty
        · exact .inl ⟨by rw [hfold _ (visit_empty h.inv hp ht hk)]; rfl, p, hp, ht, hk⟩
        · obtain ⟨s₁, σ₁, quantizer₁, hvisit, h₁⟩ :=
            visit_taken hg h hp ht hk fun a ha => hlt a ha _ List.mem_cons_self
          have hlt₁ : ∀ a ∈ done ++ [p], ∀ id ∈ l, a.nodeId < id := by
            intro a ha id hid
            rcases List.mem_append.mp ha with ha | ha
            · exact hlt a ha id (List.mem_cons_of_mem _ hid)
            · rw [List.mem_singleton.mp ha]
              exact hhead id hid
          rw [hfold _ hvisit]
          refine (turns_progress hg l _ s₁ σ₁ quantizer₁ htyped' hsorted h₁ hlt₁).imp_right ?_
          rintro ⟨done', s', σ', quantizer', hok, h', hdone, hfull⟩
          refine ⟨done', s', σ', quantizer', hok, h', fun b => ?_, fun b hb hbIn hbTaken => ?_⟩
          · rw [hdone, List.mem_append, List.mem_singleton, List.mem_cons]
            constructor
            · rintro ((hb | rfl) | ⟨hb, hrest⟩)
              · exact .inl hb
              · exact .inr ⟨.inl rfl, hp, ht⟩
              · exact .inr ⟨.inr hb, hrest⟩
            · rintro (hb | ⟨hb | hb, hrest⟩)
              · exact .inl (.inl hb)
              · exact .inl (.inr (hrest.1.unique hp hb))
              · exact .inr ⟨hb, hrest⟩
          · rcases List.mem_cons.mp hb with hb | hb
            · rwa [hbIn.unique hp hb]
            · exact hfull b hb hbIn hbTaken
      · rw [hfold _ (visit_not_taken h.inv hp ht)]
        refine (turns_progress hg l done s σ quantizer htyped' hsorted h fun a ha id hid =>
          hlt a ha id (List.mem_cons_of_mem _ hid)).imp_right ?_
        rintro ⟨done', s', σ', quantizer', hok, h', hdone, hfull⟩
        have hskip : ∀ b : Product, b.nodeId = p.nodeId → b.In g → ¬b.Taken := by
          intro b hb hbIn
          rwa [hbIn.unique hp hb]
        refine ⟨done', s', σ', quantizer', hok, h', fun b => ?_, fun b hb hbIn hbTaken => ?_⟩
        · rw [hdone, List.mem_cons]
          constructor
          · rintro (hb | ⟨hb, hrest⟩)
            · exact .inl hb
            · exact .inr ⟨.inr hb, hrest⟩
          · rintro (hb | ⟨hb | hb, hrest⟩)
            · exact .inl hb
            · exact absurd hrest.2 (hskip b hb hrest.1)
            · exact .inr ⟨hb, hrest⟩
        · rcases List.mem_cons.mp hb with hb | hb
          · exact absurd hbTaken (hskip b hb hbIn)
          · exact hfull b hb hbIn hbTaken

/-- The pass panics at empty rows, or it takes every product that it can. -/
theorem run_progress (hg : Wellformed g) :
    (run (.new g) = .error .panic ∧ ∃ p : Product, p.In g ∧ p.Taken ∧ p.Empty) ∨
      ∃ done s σ quantizer, run (.new g) = .ok s ∧ Progress g done s σ quantizer ∧
        (∀ p : Product, p ∈ done ↔ p.In g ∧ p.Taken) ∧ ∀ p : Product, p.In g → p.Taken → ¬p.Empty := by
  have hmem : ∀ p : Product, p.In g → p.nodeId ∈ candidates g := by
    intro p hp
    obtain ⟨rest, node, hnode, hop, -⟩ := hp.node
    exact mem_candidates.mpr ⟨node, _, hnode, hop⟩
  have hstart : Progress g [] { st := .new g, actQuantCache := fun _ => none } (fun v => v) fun _ => 0 :=
    ⟨inv_start hg, nofun, nofun, nofun⟩
  refine (turns_progress hg (candidates g) [] _ _ _ (fun id hid => ?_) (candidates_sorted g) hstart nofun).imp_right ?_
  · obtain ⟨node, axis, hnode, hop⟩ := mem_candidates.mp hid
    exact hg.typed id node axis hnode hop
  · rintro ⟨done, s, σ, quantizer, hok, h, hdone, hfull⟩
    refine ⟨done, s, σ, quantizer, hok, h, fun p => ?_, fun p hp ht => hfull p (hmem p hp) hp ht⟩
    rw [hdone]
    constructor
    · rintro (hp | ⟨-, hrest⟩)
      · cases hp
      · exact hrest
    · exact fun hrest => .inr ⟨hmem p hrest.1, hrest⟩

/-! ### What the new nodes compute -/

open Quantizers

attribute [local instance] atLeastTwo_127 in
/-- One row and what a backend makes of it: its integers and its scale. -/
def QuantisesRow (k : ℕ) (x q : ℕ → ℝ) (scale : ℝ) : Prop :=
  -- the CPU
  (scale = dynquantScale k x ∧ ∀ i < k, q i = Quantizers.clamp (-127) 127 (IntegerRounding.roundAway (x i * scale⁻¹))) ∨
    -- CUDA
    ∃ nanAsInt, scale = blockMaxAbs k x / 127 ∧ ∀ i < k, q i = quantized nanAsInt scale (x i) 0

/-- `DynamicQuantizeLinear` of the rows of a matrix. -/
def IsRowsQuantised (x q scale : Exact.Arr) : Prop :=
  ∃ m k, x.shape = [m, k] ∧ q.shape = [m, k] ∧ scale.shape = ResolvedTensorDims.new [m] ∧
    ∀ r < m, QuantisesRow k (fun i => x.get [r, i]) (fun i => q.get [r, i]) (scale.get [r])

/-- `QuantizedMatMul` of matrices. -/
def IsQuantizedMatMul (q qScale w wScale y : Exact.Arr) : Prop :=
  ∃ m k n, q.shape = [m, k] ∧ w.shape = [n, k] ∧ wScale.shape = [n] ∧ y = .tabulate [m, n] fun idx =>
    (∑ i ∈ Finset.range k, q.get [idx.getD 0 0, i] * w.get [idx.getD 1 0, i]) * qScale.get [idx.getD 0 0] *
      wScale.get [idx.getD 1 0]

/-- What the operators compute in exact arithmetic, these two among them. -/
def quantising (c : Exact.GeLUConstants) (files : Onnx.Files) : Meaning Exact.Arr where
  op
    | .dynamicQuantizeLinear { axis := some ⟨0⟩, symmetric := true } => fun ins outs =>
        ∃ x q scale z, ins = [some x] ∧ outs = [q, scale, z] ∧ (x.shape.length = 2 → IsRowsQuantised x q scale)
    | .quantizedMatMul _ => fun ins outs =>
        ∃ q qScale w wScale y, ins = [some q, some qScale, some w, some wScale] ∧ outs = [y] ∧
          (q.shape.length = 2 → IsQuantizedMatMul q qScale w wScale y)
    | op => Exact.op c op
  constant := (exact c files).constant
  external := (exact c files).external
  hasType := (exact c files).hasType
  output _ _ _ := trivial

attribute [local instance] atLeastTwo_two in
/-- The product by rows of integers and their scales, and how far the integers are from the activation. -/
def Approximates (a q qScale w wScale y : Exact.Arr) : Prop :=
  ∃ m k n, a.shape = [m, k] ∧ q.shape = [m, k] ∧ w.shape = [n, k] ∧ y.shape = [m, n] ∧
    (∀ r < m, ∀ i < k, |q.get [r, i] * qScale.get [r] - a.get [r, i]| ≤ qScale.get [r] / 2) ∧
    ∀ r < m, ∀ j < n, y.get [r, j] =
      ∑ i ∈ Finset.range k, q.get [r, i] * w.get [j, i] * qScale.get [r] * wScale.get [j]

/-- No integer of a row is further than half a scale from the number, a row of zeros included. -/
theorem QuantisesRow.error {k : ℕ} {x q : ℕ → ℝ} {scale : ℝ} (h : QuantisesRow k x q scale) {i : ℕ} (hi : i < k) :
    |q i * scale - x i| ≤ scale / 2 := by
  rcases h with ⟨rfl, hq⟩ | ⟨nanAsInt, rfl, hq⟩
  · rw [hq i hi, dynquant_eq hi]
    exact error_le (dynquantScale_pos k x) (IntegerRounding.abs_roundAway_sub_le _)
  · rw [hq i hi, blockMaxAbs_eq]
    rcases (maxAbs_nonneg k x).eq_or_lt with hzero | hpos
    · -- nothing is lost of a zero, whatever the integer
      have hx : x i = 0 := abs_eq_zero.mp (le_antisymm (hzero ▸ abs_le_maxAbs hi) (abs_nonneg _))
      rw [← hzero, hx]
      simp
    · rw [quantized_eq hi hpos]
      exact error_le (by positivity) (IntegerRounding.abs_roundEven_sub_le _)

theorem approximates {a q qScale w wScale y : Exact.Arr} (h : IsRowsQuantised a q qScale)
    (hy : IsQuantizedMatMul q qScale w wScale y) : Approximates a q qScale w wScale y := by
  obtain ⟨m, k, ha, hq, -, hrows⟩ := h
  obtain ⟨m', k', n, hq', hw, -, rfl⟩ := hy
  obtain ⟨rfl, hk⟩ := List.cons.inj (hq.symm.trans hq')
  obtain ⟨rfl, -⟩ := List.cons.inj hk
  refine ⟨m, k, n, ha, hq, hw, NdArray.tabulate_shape .., fun r hr i hi => (hrows r hr).error hi, fun r hr j hj => ?_⟩
  rw [NdArray.get_tabulate (Exact.inside_of_pair hr hj)]
  simp only [List.getD_cons_zero, List.getD_cons_succ, Finset.sum_mul]

/-! ### The new graph -/

variable {g' : Graph} {c : Exact.GeLUConstants} {files : Onnx.Files}

/-- The values of the new nodes have the types of shape inference: the integers those of the activation, and one scale
for each row. -/
def Inferred (g' : Graph) (axis : TensorIndex) (a q sc z w ws y : ValueId) : Prop :=
  ∃ ta tq ts tz tw tws ty, g'.getResolvedTensorType a = some ta ∧ g'.getResolvedTensorType q = some tq ∧
    g'.getResolvedTensorType sc = some ts ∧ g'.getResolvedTensorType z = some tz ∧
    g'.getResolvedTensorType w = some tw ∧ g'.getResolvedTensorType ws = some tws ∧
    g'.getResolvedTensorType y = some ty ∧
    inferDynamicQuantizeLinear { axis := some ⟨0⟩, symmetric := true } ta = .ok [tq, ts, tz] ∧
    inferQuantizedMatMul axis tq ts tw tws = .ok ty ∧
    tq.dims = ta.dims ∧ ts.dims = ResolvedTensorDims.new [ta.dims.headD 0]

/-- A product after the pass: its output is read no more, and in its place is the product of the quantised rows of the
same activation. -/
def Replaced (c : Exact.GeLUConstants) (files : Onnx.Files) (g' : Graph) (σ : ValueId → ValueId) (p : Product) : Prop :=
  ∃ quantId matId q sc z, g'.Has quantId rowwise [some (σ p.act)] [q, sc, z] ∧
    g'.Has matId (.quantizedMatMul p.axis) [some q, some sc, some (σ p.weight), some (σ p.scale)] [σ p.out] ∧
    (∀ x, (p.out, x) ∉ inputPairs g') ∧ Inferred g' p.axis (σ p.act) q sc z (σ p.weight) (σ p.scale) (σ p.out) ∧
    ∀ ρ, (quantising c files).Holds g' ρ →
      Approximates (ρ (σ p.act)) (ρ q) (ρ sc) (ρ (σ p.weight)) (ρ (σ p.scale)) (ρ (σ p.out))

/-- Every reader reads what it read, at the same type, but the outputs of the products, which are replaced. -/
def Quantises (c : Exact.GeLUConstants) (files : Onnx.Files) (g g' : Graph) : Prop :=
  ∃ σ : ValueId → ValueId, (∀ v x, (v, x) ∈ inputPairs g → (σ v, x) ∈ inputPairs g') ∧
    (∀ v < g.values.length, g'.getResolvedTensorType (σ v) = g.getResolvedTensorType v) ∧
    (∀ v, σ v ≠ v → ∃ p : Product, p.In g ∧ p.Taken ∧ p.out = v) ∧
    ∀ p : Product, p.In g → p.Taken → Replaced c files g' σ p

/-- No two of the new nodes quantise the same activation. -/
def Shares (g g' : Graph) : Prop :=
  ∀ id id' x o o', g.nodes.length ≤ id → g.nodes.length ≤ id' → g'.Has id rowwise [some x] o →
    g'.Has id' rowwise [some x] o' → id = id'

def Rewrites (c : Exact.GeLUConstants) (files : Onnx.Files) (g : Graph) : Prop :=
  ∃ s, run (.new g) = .ok s ∧ Quantises c files g s.st.graph ∧ Shares g s.st.graph

/-- Rows are not empty, weights are `I8`, and their scales have the type of the activation. -/
def Product.Typed (p : Product) : Prop :=
  ¬p.Empty ∧ p.weightTy.elemType = .sInt .I8 ∧ p.scaleTy.elemType = p.actTy.elemType

/-- A product takes its turn between two that read its output, or is the first of them itself. -/
def Interrupts (g : Graph) : Prop :=
  ∃ b a e : Product, (b.In g ∧ b.Taken) ∧ (a.In g ∧ a.Taken) ∧ (e.In g ∧ e.Taken) ∧
    b.nodeId ≤ a.nodeId ∧ a.nodeId < e.nodeId ∧ b.act = a.out ∧ e.act = a.out

theorem inferQuantizedMatMul_matrices {axis : TensorIndex} {lhs lhsScale rhs rhsScale : ResolvedTensorType} {m k n : ℕ}
    (haxis : axis.index 2 = 0) (helem : lhs.elemType = .sInt .I8) (hlhs : lhs.dims = [m, k]) (hrhs : rhs.dims = [n, k])
    (hscale : rhsScale.dims = [n]) (hlhsScale : lhsScale.dims = ResolvedTensorDims.new [m])
    (hfloat : lhsScale.elemType.isFloat = true) : inferQuantizedMatMul axis lhs lhsScale rhs rhsScale =
      if rhs.elemType = .sInt .I8 ∧ rhsScale.elemType = lhsScale.elemType then
        .ok (.new lhsScale.elemType (.new [m, n])) else .error .panic := by
  have hindex : axis.index rhs.dims.length = 0 := by rw [hrhs]; exact haxis
  -- the scales of the rows are a vector, or a scalar if there are none
  have hrows : (if (ResolvedTensorDims.new [m]).length = 1 then (ResolvedTensorDims.new [m])[0]? = some m
      else ResolvedTensorDims.new [m] = []) := by
    by_cases hm : m = 0 <;> simp [ResolvedTensorDims.new, hm]
  unfold inferQuantizedMatMul
  simp only [hindex]
  simp only [hrhs, hlhs, hlhsScale]
  by_cases h : rhs.elemType = .sInt .I8 ∧ rhsScale.elemType = lhsScale.elemType
  · rw [if_pos h]
    exact if_pos ⟨le_refl 2, rfl, helem, h.1, hfloat, h.2.symm, by rw [hscale]; rfl, rfl, hrows⟩
  · rw [if_neg h]
    exact if_neg fun hall => h ⟨hall.2.2.2.1, hall.2.2.2.2.2.1.symm⟩

/-- The inference of the new product. -/
theorem inferQuantizedMatMul_iff (hp : p.In g) (ht : p.Taken) {tq ts tz : ResolvedTensorType}
    (hinfer : inferDynamicQuantizeLinear { axis := some ⟨0⟩, symmetric := true } p.actTy = .ok [tq, ts, tz]) :
    (∃ ty, inferQuantizedMatMul p.axis tq ts p.weightTy p.scaleTy = .ok ty ∧ g.getResolvedTensorType p.out = some ty) ↔
      p.weightTy.elemType = .sInt .I8 ∧ p.scaleTy.elemType = p.actTy.elemType := by
  obtain ⟨m, k, n, hact, hweight, hscale, -, hout⟩ := hp.matrices ht
  obtain ⟨haxis, -, hfloat, -⟩ := ht
  have hindex : TensorIndex.index ⟨0⟩ p.actTy.dims.length = 0 := rfl
  unfold inferDynamicQuantizeLinear at hinfer
  simp only [hindex] at hinfer
  rw [hact] at hinfer
  change Except.ok [_, _, _] = _ at hinfer
  simp only [Except.ok.injEq, List.cons.injEq, and_true] at hinfer
  obtain ⟨rfl, rfl, -⟩ := hinfer
  have hnew := @inferQuantizedMatMul_matrices p.axis (.new (.sInt .I8) [m, k]) (.new p.actTy.elemType (.new [m]))
    p.weightTy p.scaleTy m k n haxis rfl rfl hweight hscale rfl hfloat
  rw [if_true, hnew, hout]
  constructor
  · rintro ⟨ty, hok, -⟩
    split at hok
    · assumption
    · cases hok
  · intro h
    exact ⟨_, if_pos h, by rw [h.2]; rfl⟩

/-- What shape inference gives for the quantised activation. -/
theorem inferDynamicQuantizeLinear_dims {ta tq ts tz : ResolvedTensorType}
    (h : inferDynamicQuantizeLinear { axis := some ⟨0⟩, symmetric := true } ta = .ok [tq, ts, tz]) :
    tq.dims = ta.dims ∧ ts.dims = ResolvedTensorDims.new [ta.dims.headD 0] := by
  have hindex : TensorIndex.index ⟨0⟩ ta.dims.length = 0 := rfl
  unfold inferDynamicQuantizeLinear at h
  simp only [hindex] at h
  cases hdims : ta.dims with
  | nil =>
      rw [hdims] at h
      cases h
  | cons m rest =>
      rw [hdims] at h
      change Except.ok [_, _, _] = _ at h
      simp only [Except.ok.injEq, List.cons.injEq, and_true] at h
      obtain ⟨rfl, rfl, -⟩ := h
      exact ⟨rfl, rfl⟩

/-- The activation of a product keeps its key. -/
theorem Progress.key_unique (h : Progress g done s σ quantizer) {b e : Product} (hb : b ∈ done)
    (he : e ∈ done) (hnone : ¬Interrupts g) {v w : ValueId} (hv : IsKey done σ b v) (hw : IsKey done σ e w)
    (heq : σ v = σ w) : v = w := by
  obtain ⟨hbIn, hbTaken⟩ := h.products b hb
  obtain ⟨heIn, heTaken⟩ := h.products e he
  have hact : b.act = e.act :=
    h.inv.injOn (type_lt hbIn.actTy) (type_lt heIn.actTy) (((hv.spec h.inv).symm.trans heq).trans (hw.spec h.inv))
  -- the product that defines the activation comes before both turns or before none
  have hboth : ∀ {p p' : Product}, p ∈ done → p' ∈ done → p.act = p'.act →
      (∀ a ∈ done, a.nodeId < p.nodeId → a.out ≠ p.act) →
      ¬∃ a ∈ done, a.nodeId < p'.nodeId ∧ a.out = p'.act := by
    rintro p p' hp hp' hpp hbefore ⟨a, ha, hlt, hout⟩
    refine hnone ⟨p, a, p', h.products p hp, h.products a ha, h.products p' hp', ?_, hlt, hpp.trans hout.symm, hout.symm⟩
    exact Nat.not_lt.mp fun hlt' => hbefore a ha hlt' (hout.trans hpp.symm)
  rcases hv with ⟨rfl, hbnone⟩ | ⟨rfl, hbsome⟩
  · rcases hw with ⟨rfl, -⟩ | ⟨rfl, hesome⟩
    · exact hact
    · exact absurd hesome (hboth hb he hact hbnone)
  · rcases hw with ⟨rfl, henone⟩ | ⟨rfl, -⟩
    · exact absurd hbsome (hboth he hb hact.symm henone)
    · rw [hact]

/-- The pass shares the quantised activations unless a product interrupts. -/
theorem Progress.shares_iff (hg : Wellformed g) (h : Progress g done s σ quantizer)
    (hdone : ∀ p : Product, p ∈ done ↔ p.In g ∧ p.Taken) : Shares g s.st.graph ↔ ¬Interrupts g := by
  constructor
  · rintro hshares ⟨b, a, e, hb, ha, he, hba, hae, hbact, heact⟩
    have hmem : ∀ p : Product, p.In g ∧ p.Taken → p ∈ done := fun p hp => (hdone p).mpr hp
    have haout : a.out ∈ done.map Product.out := List.mem_map.mpr ⟨a, hmem a ha, rfl⟩
    -- the first product finds the old name of the activation, the last one the new
    obtain ⟨v, q, sc, -, hvkey, hvpair, -⟩ := h.served b (hmem b hb)
    obtain ⟨w, q', sc', -, hwkey, hwpair, -⟩ := h.served e (hmem e he)
    have hv : v = a.out := by
      rcases hvkey with ⟨rfl, -⟩ | ⟨-, a', ha', hlt, hout⟩
      · exact hbact
      · have hsame := hg.single a' a (h.products a' ha').1 ha.1 (hout.trans hbact)
        rw [hsame] at hlt
        exact absurd hlt (Nat.not_lt.mpr hba)
    have hw : w = σ a.out := by
      rcases hwkey with ⟨-, hnone⟩ | ⟨rfl, -⟩
      · exact absurd heact.symm (hnone a (hmem a ha) hae)
      · rw [heact]
    rw [hv] at hvpair
    rw [hw] at hwpair
    obtain ⟨hid, -, -, z, -, hhas, -⟩ := h.inv.cached _ _ _ hvpair
    obtain ⟨hid', -, -, z', -, hhas', -⟩ := h.inv.cached _ _ _ hwpair
    rw [h.inv.idem] at hhas'
    have hnode := hshares _ _ _ _ _ hid hid' hhas hhas'
    have heq := h.inv.quantizerInj _ _ (by rw [hvpair]; rfl) (by rw [hwpair]; rfl) hnode
    exact absurd (h.inv.below _ haout) (Nat.not_lt.mpr (heq ▸ (h.inv.fresh _ haout).1))
  · intro hnone id id' x o o' hid hid' hhas hhas'
    obtain ⟨v, hv, rfl⟩ := h.inv.quantizers id _ o hid hhas
    obtain ⟨w, hw, rfl⟩ := h.inv.quantizers id' _ o' hid' hhas'
    obtain ⟨b, hb, hbkey⟩ := h.keys v hv
    obtain ⟨e, he, hekey⟩ := h.keys w hw
    obtain ⟨pair, hpair⟩ := Option.isSome_iff_exists.mp hv
    obtain ⟨pair', hpair'⟩ := Option.isSome_iff_exists.mp hw
    obtain ⟨-, -, -, z, -, hread, -⟩ := h.inv.cached v pair.1 pair.2 hpair
    obtain ⟨-, -, -, z', -, hread', -⟩ := h.inv.cached w pair'.1 pair'.2 hpair'
    have hx := (hhas.unique hread).2.1
    have hx' := (hhas'.unique hread').2.1
    simp only [List.cons.injEq, Option.some.injEq, and_true] at hx hx'
    rw [h.key_unique hb he hnone hbkey hekey (hx.symm.trans hx')]

/-- A product that the pass has taken is replaced as it should be if it is typed. -/
theorem Progress.replaced (h : Progress g done s σ quantizer) (hp : p ∈ done)
    (htyped : p.weightTy.elemType = .sInt .I8 ∧ p.scaleTy.elemType = p.actTy.elemType) :
    Replaced c files s.st.graph σ p := by
  obtain ⟨hpIn, hpTaken⟩ := h.products p hp
  obtain ⟨v, q, sc, matId, hkey, hpair, hmat⟩ := h.served p hp
  obtain ⟨-, -, -, z, actTy, hquant, hactTy, tq, ts, tz, hinfer, htq, hts, htz⟩ := h.inv.cached _ _ _ hpair
  rw [hkey.spec h.inv] at hquant hactTy
  have hact := (h.inv.types _ (type_lt hpIn.actTy)).trans hpIn.actTy
  obtain rfl := Option.some.inj (hactTy.symm.trans hact)
  obtain ⟨ty, hmatTy, houtTy⟩ := (inferQuantizedMatMul_iff hpIn hpTaken hinfer).mpr htyped
  obtain ⟨hqDims, hsDims⟩ := inferDynamicQuantizeLinear_dims hinfer
  refine ⟨quantizer v, matId, q, sc, z, hquant, hmat, ?_, ?_, fun ρ hρ => ?_⟩
  · exact h.inv.unread _ (List.mem_map.mpr ⟨p, hp, rfl⟩)
  · exact ⟨_, tq, ts, tz, _, _, ty, hact, htq, hts, htz, (h.inv.types _ (type_lt hpIn.weightTy)).trans hpIn.weightTy,
      (h.inv.types _ (type_lt hpIn.scaleTy)).trans hpIn.scaleTy, (h.inv.types _ (type_lt houtTy)).trans houtTy, hinfer,
      hmatTy, hqDims, hsDims⟩
  · obtain ⟨qnode, hqnode, hqop, hqins, hqouts⟩ := hquant
    obtain ⟨mnode, hmnode, hmop, hmins, hmouts⟩ := hmat
    have hrows := hρ.nodes _ _ hqnode
    have hproduct := hρ.nodes _ _ hmnode
    rw [hqop, hqins, hqouts] at hrows
    rw [hmop, hmins, hmouts] at hproduct
    obtain ⟨x, q', scale, z', hx, hq', hrows⟩ := hrows
    obtain ⟨q'', qScale, w, wScale, y, hins, hy, hproduct⟩ := hproduct
    simp only [List.map_cons, List.map_nil, Option.map_some, List.cons.injEq, Option.some.injEq, and_true] at hx hq' hins hy
    obtain ⟨rfl, rfl, rfl⟩ := hq'
    obtain ⟨rfl, rfl, rfl, rfl⟩ := hins
    subst hx
    subst hy
    obtain ⟨m, k, n, hdims, -⟩ := hpIn.matrices hpTaken
    have hshape : (ρ (σ p.act)).shape.length = 2 := by
      rw [hρ.types _ _ hact, hdims]
      rfl
    have hshape' : (ρ q).shape.length = 2 := by
      rw [hρ.types _ _ htq, hqDims, hdims]
      rfl
    exact approximates (hrows hshape) (hproduct hshape')

/-- The pass rewrites as it should if the products are typed and none interrupts. -/
theorem rewrites_of (hg : Wellformed g) (htyped : ∀ p : Product, p.In g → p.Taken → p.Typed)
    (hnone : ¬Interrupts g) : Rewrites c files g := by
  rcases run_progress hg with ⟨-, p, hp, ht, hempty⟩ | ⟨done, s, σ, quantizer, hok, h, hdone, -⟩
  · exact absurd hempty (htyped p hp ht).1
  · refine ⟨s, hok, ⟨σ, h.inv.pairs, h.inv.types, fun v hv => ?_, fun p hp ht => ?_⟩, (h.shares_iff hg hdone).mpr hnone⟩
    · have hmem : v ∈ done.map Product.out := by
        by_contra hmem
        exact hv (h.inv.same v hmem)
      obtain ⟨p, hp, hout⟩ := List.mem_map.mp hmem
      exact ⟨p, (h.products p hp).1, (h.products p hp).2, hout⟩
    · exact h.replaced ((hdone p).mpr ⟨hp, ht⟩) (htyped p hp ht).2

/-- And only then. -/
theorem of_rewrites (hg : Wellformed g) (hrewrites : Rewrites c files g) :
    (∀ p : Product, p.In g → p.Taken → p.Typed) ∧ ¬Interrupts g := by
  obtain ⟨s', hrun, ⟨σ', -, htypes, -, hreplaced⟩, hshares⟩ := hrewrites
  rcases run_progress hg with ⟨hpanic, -⟩ | ⟨done, s, σ, quantizer, hok, h, hdone, hfull⟩
  · rw [hpanic] at hrun
    cases hrun
  · obtain rfl := Except.ok.inj (hok.symm.trans hrun)
    have htyped : ∀ p : Product, p.In g → p.Taken →
        p.weightTy.elemType = .sInt .I8 ∧ p.scaleTy.elemType = p.actTy.elemType := by
      intro p hp ht
      obtain ⟨-, -, q, sc, z, -, -, -, ⟨ta, tq, ts, tz, tw, tws, ty, hta, -, -, -, htw, htws, hty, hinfer, hmat, -⟩, -⟩ :=
        hreplaced p hp ht
      obtain ⟨outTy, -, hout⟩ := hp.outTy
      obtain rfl := Option.some.inj (hta.symm.trans ((htypes _ (type_lt hp.actTy)).trans hp.actTy))
      obtain rfl := Option.some.inj (htw.symm.trans ((htypes _ (type_lt hp.weightTy)).trans hp.weightTy))
      obtain rfl := Option.some.inj (htws.symm.trans ((htypes _ (type_lt hp.scaleTy)).trans hp.scaleTy))
      obtain rfl := Option.some.inj (hty.symm.trans ((htypes _ (type_lt hout)).trans hout))
      exact (inferQuantizedMatMul_iff hp ht hinfer).mp ⟨_, hmat, hout⟩
    exact ⟨fun p hp ht => ⟨hfull p hp ht, htyped p hp ht⟩, (h.shares_iff hg hdone).mp hshares⟩

/-- The pass rewrites consistently exactly if the products are typed and none interrupts. -/
theorem quantizeActivations_rewrites_iff (c : Exact.GeLUConstants) (files : Onnx.Files) (g : Graph)
    (hg : Wellformed g) : Rewrites c files g ↔ (∀ p : Product, p.In g → p.Taken → p.Typed) ∧ ¬Interrupts g :=
  ⟨of_rewrites hg, fun h => rewrites_of hg h.1 h.2⟩

/-- The products of a graph are these. -/
def Lists (g : Graph) (ps : List Product) : Prop :=
  (∀ p ∈ ps, p.In g) ∧ ∀ x ∈ g.iter, ∀ axis, x.2.op = .dequantMatMul axis → x.1 ∈ ps.map Product.nodeId

theorem Product.In.mem {ps : List Product} (hps : Lists g ps) (hp : p.In g) : p ∈ ps := by
  obtain ⟨rest, node, hnode, hop, -⟩ := hp.node
  obtain ⟨q, hq, hid⟩ := List.mem_map.mp (hps.2 (p.nodeId, node) (mem_iter.mpr hnode) _ hop)
  rwa [hp.unique (hps.1 q hq) hid.symm]

/-- A graph without initialisers is well formed if its products define values of their own. -/
theorem Lists.wellformed {ps : List Product} (hps : Lists g ps) (hchecked : g.checked = true)
    (hinit : ∀ v, g.initializer v = none) (hext : ∀ v, g.externalRefs v = none)
    (hcarries : ∀ x ∈ g.iter, ∀ v, x.2.op = .output v → x.2.inputs = [some v])
    (hsingle : ∀ p ∈ ps, ∀ p' ∈ ps, p.out = p'.out → p.nodeId = p'.nodeId) : Wellformed g := by
  refine ⟨intact_new hchecked (fun v t h => ?_) fun v r h => ?_, fun id node v hnode hv => ?_,
    fun id node axis hnode hop => ?_, fun p p' hp hp' => hsingle p (hp.mem hps) p' (hp'.mem hps)⟩
  · rw [hinit] at h
    cases h
  · rw [hext] at h
    cases h
  · exact hcarries (id, node) (mem_iter.mpr hnode) v hv
  · obtain ⟨p, hp, hid⟩ := List.mem_map.mp (hps.2 (id, node) (mem_iter.mpr hnode) axis hop)
    exact ⟨p, hid, hps.1 p hp⟩

/-- Products of rows of 32 numbers with one weight, the scales of which have this type: from the activation to the
output of each, in the order of the nodes. -/
def productsGraph (scale : FloatType) (products : List (ValueId × ValueId)) : Graph where
  nodes :=
    [{ inputs := [], outputs := [0], name := "x", op := .input 0, markAsDeleted := false },
      { inputs := [], outputs := [1], name := "w", op := .input 1, markAsDeleted := false },
      { inputs := [], outputs := [2], name := "s", op := .input 2, markAsDeleted := false }] ++
    products.map fun x => ⟨[some x.1, some 1, some 2], [x.2], "y", .dequantMatMul ⟨0⟩, false⟩
  inputs := [0, 1, 2]
  outputs := []
  values :=
    [{ name := "x", ty := some (.resolved (.new (.float .F32) [1, 32])) },
      { name := "w", ty := some (.resolved (.new (.sInt .I8) [32, 32])) },
      { name := "s", ty := some (.resolved (.new (.float scale) [32])) }] ++
    products.map fun _ => { name := "y", ty := some (.resolved (.new (.float scale) [1, 32])) }
  initializer := fun _ => none
  externalRefs := fun _ => none

/-- The product of a node of such a graph. -/
def exampleProduct (scale : FloatType) (id : NodeId) (act out : ValueId) : Product where
  nodeId := id
  axis := ⟨0⟩
  act := act
  weight := 1
  scale := 2
  out := out
  actTy := .new (.float .F32) [1, 32]
  weightTy := .new (.sInt .I8) [32, 32]
  scaleTy := .new (.float scale) [32]

/-- Two products of one activation. -/
def sharedGraph : Graph := productsGraph .F32 [(0, 3), (0, 4)]

theorem sharedGraph_lists : Lists sharedGraph [exampleProduct .F32 3 0 3, exampleProduct .F32 4 0 4] := by
  refine ⟨fun p hp => ?_, fun x hx axis hop => ?_⟩
  · fin_cases hp
    · exact ⟨⟨[], _, rfl, rfl, rfl, rfl⟩, rfl, rfl, rfl, _, rfl, rfl⟩
    · exact ⟨⟨[], _, rfl, rfl, rfl, rfl⟩, rfl, rfl, rfl, _, rfl, rfl⟩
  · fin_cases hx <;> first | decide | cases hop

theorem sharedGraph_wellformed : Wellformed sharedGraph := by
  refine sharedGraph_lists.wellformed (by decide) (fun _ => rfl) (fun _ => rfl) (fun x hx v hv => ?_) (by decide)
  fin_cases hx <;> cases hv

theorem quantizeActivations_rewrites_shared : Rewrites ⟨0, 0, 0, 0⟩ (fun _ => none) sharedGraph := by
  refine (quantizeActivations_rewrites_iff _ _ _ sharedGraph_wellformed).mpr ⟨fun p hp _ => ?_, ?_⟩
  · have hmem := hp.mem sharedGraph_lists
    fin_cases hmem
    · exact ⟨nofun, rfl, rfl⟩
    · exact ⟨nofun, rfl, rfl⟩
  · -- no product defines the activation
    rintro ⟨b, a, e, ⟨hb, -⟩, ⟨ha, -⟩, -, -, -, hact, -⟩
    have hb := hb.mem sharedGraph_lists
    have ha := ha.mem sharedGraph_lists
    fin_cases hb <;> fin_cases ha <;> cases hact

/-- The scales of the weight have another type than the activation. -/
def mixedGraph : Graph := productsGraph .BF16 [(0, 3)]

theorem mixedGraph_lists : Lists mixedGraph [exampleProduct .BF16 3 0 3] := by
  refine ⟨fun p hp => ?_, fun x hx axis hop => ?_⟩
  · fin_cases hp
    exact ⟨⟨[], _, rfl, rfl, rfl, rfl⟩, rfl, rfl, rfl, _, rfl, rfl⟩
  · fin_cases hx <;> first | decide | cases hop

theorem mixedGraph_wellformed : Wellformed mixedGraph := by
  refine mixedGraph_lists.wellformed (by decide) (fun _ => rfl) (fun _ => rfl) (fun x hx v hv => ?_) (by decide)
  fin_cases hx <;> cases hv

/-- A product that defines the activation of two others takes its turn between them. -/
def interruptedGraph : Graph := productsGraph .F32 [(4, 3), (0, 4), (4, 5)]

theorem interruptedGraph_lists :
    Lists interruptedGraph [exampleProduct .F32 3 4 3, exampleProduct .F32 4 0 4, exampleProduct .F32 5 4 5] := by
  refine ⟨fun p hp => ?_, fun x hx axis hop => ?_⟩
  · fin_cases hp
    · exact ⟨⟨[], _, rfl, rfl, rfl, rfl⟩, rfl, rfl, rfl, _, rfl, rfl⟩
    · exact ⟨⟨[], _, rfl, rfl, rfl, rfl⟩, rfl, rfl, rfl, _, rfl, rfl⟩
    · exact ⟨⟨[], _, rfl, rfl, rfl, rfl⟩, rfl, rfl, rfl, _, rfl, rfl⟩
  · fin_cases hx <;> first | decide | cases hop

theorem interruptedGraph_wellformed : Wellformed interruptedGraph := by
  refine interruptedGraph_lists.wellformed (by decide) (fun _ => rfl) (fun _ => rfl) (fun x hx v hv => ?_) (by decide)
  fin_cases hx <;> cases hv

/-- Shape inference rejects what the pass makes of the first of these graphs, and in the second one activation is
quantised twice. -/
theorem quantizeActivations_not_rewrites :
    (Wellformed mixedGraph ∧ ¬Rewrites ⟨0, 0, 0, 0⟩ (fun _ => none) mixedGraph) ∧
      Wellformed interruptedGraph ∧ ¬Rewrites ⟨0, 0, 0, 0⟩ (fun _ => none) interruptedGraph := by
  refine ⟨⟨mixedGraph_wellformed, fun h => ?_⟩, interruptedGraph_wellformed, fun h => ?_⟩
  · have htyped := (of_rewrites mixedGraph_wellformed h).1 (exampleProduct .BF16 3 0 3)
      (mixedGraph_lists.1 _ (by simp)) (by decide)
    exact absurd htyped.2.2 (by decide)
  · have hin := interruptedGraph_lists.1
    refine (of_rewrites interruptedGraph_wellformed h).2 ⟨exampleProduct .F32 3 4 3, exampleProduct .F32 4 0 4,
      exampleProduct .F32 5 4 5, ⟨hin _ (by simp), by decide⟩, ⟨hin _ (by simp), by decide⟩,
      ⟨hin _ (by simp), by decide⟩, by decide, by decide, rfl, rfl⟩

end QuantizeActivations
end NnEngine
