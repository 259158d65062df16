import NnEngine.Graph.Exact
import NnEngine.Transform.Pattern

/-!
# Fusion of a dequantisation and a product

`DequantGemmFusion` of `src/transform/optimize/dequant_gemm_fusion.rs`: a `Gemm` with the transpose of
dequantised weights becomes a `DequantMatMul`.  The scale of a row of the weights is pulled out of the sum
over that row, so the fused node computes the same.
-/

namespace NnEngine

open DepthFirst InverseIndex SimpleGraphOp GraphState

namespace DequantGemmFusion

structure FusionPlan where
  gemmId : NodeId
  actValue : ValueId
  weightValue : ValueId
  scaleValue : ValueId
  axis : TensorIndex

/-- `match_pattern`. -/
def matchPattern (st : GraphState) (gemmId : NodeId) : Match FusionPlan := do
  let gemmNode ← Match.unwrap (st.graph.node? gemmId)
  let gemm ← Match.ofOption gemmNode.op.gemm?
  Match.check (!gemm.transA && gemm.transB)
  Match.check (gemm.alpha == .ofNat 1)
  Match.check (gemmNode.inputs[args.GEMM_C]?).join.isNone
  let actValue ← inputAt gemmNode args.GEMM_A
  let dqValue ← inputAt gemmNode args.GEMM_B
  let dequantPlace ← Match.ofOption (st.maps.value2defined dqValue)
  let dequantNode ← Match.unwrap (st.graph.node? dequantPlace.1)
  let axis ← Match.ofOption (match dequantNode.op with | .dequantizeLinear axis => some axis | _ => none)
  Match.check (axis.raw == 0)
  Match.check ((places st.maps.value2used dqValue).length == 1)
  let weightValue ← inputAt dequantNode args.DEQUANTIZE_X
  let scaleValue ← inputAt dequantNode args.DEQUANTIZE_SCALE
  pure { gemmId, actValue, weightValue, scaleValue, axis }

/-- `apply`. -/
def apply (st : GraphState) (plan : FusionPlan) : Except Stop GraphState :=
  (orPanic (st.graph.node? plan.gemmId)).bind fun node =>
    (orPanic node.outputs[0]?).bind fun oldOutput =>
      st.replaceByNode oldOutput s!"DequantGemmFusion_Output_{debugId plan.gemmId}"
        s!"DequantGemmFusion_{debugId plan.gemmId}"
        [some plan.actValue, some plan.weightValue, some plan.scaleValue] (.dequantMatMul plan.axis)

/-- The body of the loop of `run`. -/
def visit : GraphState → NodeId → Except Stop GraphState := fuse matchPattern apply

/-- `run`. -/
def run (st : GraphState) : Except Stop GraphState := (gemms st.graph).foldlM visit st

variable {st st' : GraphState} {id : NodeId} {plan : FusionPlan} {c : Exact.GeLUConstants} {files : Onnx.Files}
  {ρ : ValueId → Exact.Arr}

/-- A product and the node that dequantises its weights. -/
structure Matched (st : GraphState) (plan : FusionPlan) (gemmNode dequantNode : Node) (g : Gemm)
    (dqValue : ValueId) : Prop where
  gemm : st.graph.node? plan.gemmId = some gemmNode
  gemmOp : gemmNode.op = .gemm g
  transA : g.transA = false
  transB : g.transB = true
  alpha : (g.alpha == .ofNat 1) = true
  noBias : gemmNode.inputs[2]?.join = none
  act : gemmNode.inputs[0]? = some (some plan.actValue)
  rhs : gemmNode.inputs[1]? = some (some dqValue)
  dequant : ∃ id, st.graph.node? id = some dequantNode
  dequantOut : ∃ slot : Nat, dequantNode.outputs[slot]? = some dqValue
  dequantOp : dequantNode.op = .dequantizeLinear plan.axis
  weight : dequantNode.inputs[0]? = some (some plan.weightValue)
  scale : dequantNode.inputs[1]? = some (some plan.scaleValue)
  axis : plan.axis.raw = 0

theorem matched_of_finds (hst : Consistent st) (h : (matchPattern st id).Finds plan) :
    plan.gemmId = id ∧ ∃ gemmNode dequantNode g dqValue, Matched st plan gemmNode dequantNode g dqValue := by
  unfold matchPattern at h
  simp only [Match.finds_bind, Match.finds_unwrap, Match.finds_ofOption, Match.finds_check,
    Match.finds_pure, finds_inputAt] at h
  obtain ⟨gemmNode, hgemm, g, hg, -, htrans, -, halpha, -, hc, act, hact, dq, hdq, place, hplace, dequantNode,
    hdequant, axis, haxis, -, hraw, -, -, weight, hweight, scale, hscale, rfl⟩ := h
  obtain ⟨node, hnode, hout⟩ := defined_output hst hplace
  obtain rfl := Option.some.inj (hdequant.symm.trans hnode)
  rw [Bool.and_eq_true, Bool.not_eq_true'] at htrans
  refine ⟨rfl, gemmNode, dequantNode, g, dq, ?_⟩
  exact {
    gemm := hgemm
    gemmOp := Operator.gemm?_eq_some.mp hg
    transA := htrans.1
    transB := htrans.2
    alpha := halpha
    noBias := Option.isNone_iff_eq_none.mp hc
    act := hact
    rhs := hdq
    dequant := ⟨place.1, hdequant⟩
    dequantOut := ⟨place.2, hout⟩
    dequantOp := by split at haxis <;> simp_all
    weight := hweight
    scale := hscale
    axis := beq_iff_eq.mp hraw }

/-- The scale of a row is pulled out of the sum over the row. -/
theorem isDequantMatMul_of_isGemm {a w s d y : Exact.Arr} {g : Gemm} (hA : g.transA = false)
    (hB : g.transB = true) (hα : g.alpha.real = 1) (hd : Exact.IsDequantized 0 w s d)
    (hy : Exact.IsGemm g a d none y) : Exact.IsDequantMatMul a w s y := by
  obtain ⟨m, k, n, ha, hb, -, rfl⟩ := hy
  obtain ⟨-, hs, rfl⟩ := hd
  unfold Exact.IsMatrix at ha hb
  rw [hA, if_neg Bool.false_ne_true] at ha
  rw [hB, if_pos rfl, NdArray.tabulate_shape] at hb
  rw [hb] at hs
  refine ⟨[m], k, n, ha, hb, hs, NdArray.tabulate_congr fun idx hidx => ?_⟩
  obtain ⟨i, j, rfl, -, hj⟩ := Exact.inside_pair hidx
  rw [hα, one_mul]
  show ∑ p ∈ Finset.range k, Exact.entry g.transA a i p * Exact.entry g.transB _ p j + g.beta.real * 0 =
    (∑ p ∈ Finset.range k, a.get [i, p] * w.get [j, p]) * s.get [j]
  rw [mul_zero, add_zero, Finset.sum_mul]
  refine Finset.sum_congr rfl fun p hp => ?_
  have hinside : Inside [j, p] w.shape := by
    rw [hb]
    exact Exact.inside_of_pair hj (Finset.mem_range.mp hp)
  unfold Exact.entry
  rw [hA, hB, if_neg Bool.false_ne_true, if_pos rfl, NdArray.get_tabulate hinside, ← mul_assoc]
  rfl

theorem index_zero {axis : TensorIndex} (h : axis.raw = 0) (rank : Nat) : axis.index rank = 0 := by
  unfold TensorIndex.index
  rw [h]
  rfl

/-- What the search finds computes what the fused operator computes. -/
theorem Matched.isDequantMatMul {gemmNode dequantNode : Node} {g : Gemm} {dqValue out : ValueId}
    (h : Matched st plan gemmNode dequantNode g dqValue) (hρ : (exact c files).Holds st.graph ρ)
    (hout : gemmNode.outputs[0]? = some out) :
    Exact.IsDequantMatMul (ρ plan.actValue) (ρ plan.weightValue) (ρ plan.scaleValue) (ρ out) := by
  obtain ⟨dequantId, hdequant⟩ := h.dequant
  obtain ⟨slot, hslot⟩ := h.dequantOut
  have hgemm := hρ.nodes _ _ h.gemm
  rw [h.gemmOp] at hgemm
  obtain ⟨a, b, rest, y, hins, houts, hy⟩ := hgemm
  have hdeq := hρ.nodes _ _ hdequant
  rw [h.dequantOp] at hdeq
  obtain ⟨w, s, rest', d, hins', houts', hd⟩ := hdeq
  obtain rfl := Exact.input_eq (k := 0) hins rfl h.act
  obtain rfl := Exact.input_eq (k := 1) hins rfl h.rhs
  obtain rfl := Exact.output_eq houts hout
  obtain rfl := Exact.input_eq (k := 0) hins' rfl h.weight
  obtain rfl := Exact.input_eq (k := 1) hins' rfl h.scale
  have hd' := Exact.output_eq houts' hslot
  rw [hd', index_zero h.axis] at hd
  rw [Exact.third_eq hins, h.noBias] at hy
  have hα : g.alpha.real = 1 := by
    unfold F64.real
    rw [F64.real?_of_beq h.alpha, F64.real?_ofNat_one]
    rfl
  exact isDequantMatMul_of_isGemm h.transA h.transB hα hd hy

theorem apply_keeps (hst : Intact st) {gemmNode dequantNode : Node} {g : Gemm} {dqValue : ValueId}
    (h : Matched st plan gemmNode dequantNode g dqValue) (hok : apply st plan = .ok st') :
    Keeps (exact c files) st st' ∧ Intact st' ∧ st.graph.values.length ≤ st'.graph.values.length := by
  obtain ⟨node, hnode, hok⟩ := orPanic_bind_eq_ok hok
  obtain rfl := Option.some.inj (hnode.symm.trans h.gemm)
  obtain ⟨out, hout, hok⟩ := orPanic_bind_eq_ok hok
  obtain ⟨dequantId, hdequant⟩ := h.dequant
  refine keeps_replaceByNode hst (fun v hv => ?_) (fun ρ hρ => ?_) hok
  · simp only [List.mem_cons, Option.some.injEq, List.not_mem_nil, or_false] at hv
    rcases hv with rfl | rfl | rfl
    · exact hst.inRange.inputs _ _ h.gemm _ (List.mem_of_getElem? h.act)
    · exact hst.inRange.inputs _ _ hdequant _ (List.mem_of_getElem? h.weight)
    · exact hst.inRange.inputs _ _ hdequant _ (List.mem_of_getElem? h.scale)
  · exact ⟨_, _, _, [], _, rfl, rfl, h.isDequantMatMul hρ hout⟩

/-- A turn keeps the meaning. -/
theorem visit_keeps (hst : Intact st) (hok : visit st id = .ok st') :
    Keeps (exact c files) st st' ∧ Intact st' ∧ st.graph.values.length ≤ st'.graph.values.length := by
  rcases fuse_eq_ok hok with rfl | ⟨plan, hfinds, hok⟩
  · exact ⟨.refl _ _, hst, Nat.le_refl _⟩
  · obtain ⟨-, gemmNode, dequantNode, g, dq, h⟩ := matched_of_finds hst.consistent hfinds
    exact apply_keeps hst h hok

/-- Before every turn of a run the graph is intact. -/
theorem turns_intact (hst : Intact st) {l : List NodeId} :
    ∀ t ∈ passTurns visit st l, Intact t.1 ∧ t.2.1 ∈ l ∧ visit t.1 t.2.1 = .ok t.2.2 := by
  refine passTurns_induct (fun st id st' h _ hok => ?_) hst
  have hkeeps : Keeps (exact ⟨0, 0, 0, 0⟩ fun _ => none) st st' ∧ _ := visit_keeps h hok
  exact hkeeps.2.1

/-- Every fusion of a run computes what it replaces, at the same type, and all that reads a value reads
what it read. -/
theorem dequantGemmFusion_keeps (hst : Intact st) :
    (∀ t ∈ passTurns visit st (gemms st.graph), Keeps (exact c files) t.1 t.2.2 ∧
      ∀ plan, (matchPattern t.1 t.2.1).Finds plan → ∀ ρ, (exact c files).Holds t.1.graph ρ →
        ∃ node out, t.1.graph.node? t.2.1 = some node ∧ node.outputs = [out] ∧
          Exact.IsDequantMatMul (ρ plan.actValue) (ρ plan.weightValue) (ρ plan.scaleValue) (ρ out)) ∧
    ∀ st', run st = .ok st' → Keeps (exact c files) st st' := by
  refine ⟨fun t ht => ?_, fun st' hrun => ?_⟩
  · obtain ⟨hI, -, hok⟩ := turns_intact hst t ht
    refine ⟨(visit_keeps hI hok).1, fun plan hfinds ρ hρ => ?_⟩
    obtain ⟨hid, gemmNode, dequantNode, g, dq, h⟩ := matched_of_finds hI.consistent hfinds
    have hgemm := hρ.nodes _ _ h.gemm
    rw [h.gemmOp] at hgemm
    obtain ⟨-, -, -, y, -, houts, -⟩ := hgemm
    obtain ⟨out, houts, -⟩ := List.map_eq_singleton_iff.mp houts
    rw [← hid]
    exact ⟨gemmNode, out, h.gemm, houts, h.isDequantMatMul hρ (by rw [houts]; rfl)⟩
  · refine keeps_of_passTurns (fun t ht => ?_) hrun
    obtain ⟨hI, -, hok⟩ := turns_intact hst t ht
    obtain ⟨hkeeps, -, hlen⟩ := visit_keeps hI hok
    exact ⟨hkeeps, hlen⟩

/-- The product of a row and a dequantised matrix of two rows. -/
def dequantGraph : Graph where
  nodes :=
    [{ inputs := [], outputs := [0], name := "x", op := .input 0, markAsDeleted := false },
      { inputs := [], outputs := [1], name := "w", op := .input 1, markAsDeleted := false },
      { inputs := [], outputs := [2], name := "s", op := .input 2, markAsDeleted := false },
      { inputs := [some 1, some 2], outputs := [3], name := "d", op := .dequantizeLinear ⟨0⟩,
        markAsDeleted := false },
      { inputs := [some 0, some 3], outputs := [4], name := "y",
        op := .gemm { alpha := .ofNat 1, beta := .ofNat 0, transA := false, transB := true },
        markAsDeleted := false },
      { inputs := [some 4], outputs := [], name := "y", op := .output 4, markAsDeleted := false }]
  inputs := [0, 1, 2]
  outputs := [5]
  values :=
    [{ name := "x", ty := some (.resolved (.new (.float .F32) [1, 3])) },
      { name := "w", ty := some (.resolved (.new (.sInt .I8) [2, 3])) },
      { name := "s", ty := some (.resolved (.new (.float .F32) [2])) },
      { name := "d", ty := some (.resolved (.new (.float .F32) [2, 3])) },
      { name := "y", ty := some (.resolved (.new (.float .F32) [1, 2])) }]
  initializer := fun _ => none
  externalRefs := fun _ => none

/-- The product and the dequantisation are fused. -/
theorem dequantGraph_keeps : ∃ st', run (.new dequantGraph) = .ok st' ∧ st'.graph.nodes.length = 7 ∧
    Keeps (exact ⟨0, 0, 0, 0⟩ fun _ => none) (.new dequantGraph) st' :=
  ⟨_, rfl, rfl, (dequantGemmFusion_keeps (intact_new (by decide) (fun _ _ h => by cases h) fun _ _ h => by cases h)).2 _ rfl⟩

end DequantGemmFusion
end NnEngine
