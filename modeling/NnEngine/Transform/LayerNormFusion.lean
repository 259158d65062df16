import NnEngine.Transform.PatternExact

/-!
# Fusion of a layer normalisation

`LayerNormFusion` of `src/transform/optimize/layer_norm_fusion.rs`, for the definition of ONNX and for the
one of TensorFlow.  The pass does not look at `keepdims` of the second mean nor at the shapes of the scale
and the bias; `layerNormFusion_sound_iff` says along which runs the fused operator computes the same.
-/

namespace NnEngine

open DepthFirst InverseIndex SimpleGraphOp GraphState NdArray

namespace LayerNormFusion

variable (files : Onnx.Files)

/-- `is_reduce_mean_last_axis`; `ndim - 1` underflows for a scalar. -/
def isReduceMeanLastAxis (node : Node) (ndim : Nat) : Except Stop Bool :=
  match node.op with
  | .reduceMean ⟨[axis], _⟩ =>
      if ndim = 0 then .error .panic else .ok (TensorIndex.index ⟨axis⟩ ndim == ndim - 1)
  | _ => .ok false

structure LayerNormPattern where
  lastNode : NodeId
  input : ValueId
  scale : ValueId
  bias : ValueId
  epsilon : F64

/-- What both searches find first: the mean, the difference, the mean of its squares, and the inverse of
the root. -/
structure Variance where
  x : ValueId
  mean : PatternMatcher
  d : PatternMatcher
  var : PatternMatcher
  add : PatternMatcher
  inv : PatternMatcher

/-- The steps from the mean to the `Reciprocal`; the searches check the square in another order. -/
def matchVariance (isSquareOf : Node → ValueId → Except Stop Bool) (st : GraphState) (meanNode : NodeId) :
    Match Variance := do
  let node ← Match.unwrap (st.graph.node? meanNode)
  let mean ← PatternMatcher.new st meanNode 0
  let x ← Match.unwrap node.inputs[0]?.join
  let ty ← Match.ofOption (st.graph.getResolvedTensorType x)
  let d ← mean.andThen st fun node mean =>
    andAlso (.ok (node.op == .sub)) (andAlso (readsAt node 0 x) (readsAt node 1 mean))
  let dd ← d.andThen st fun node d => andAlso (.ok (node.op == .mul)) (isSquareOf node d)
  let var ← dd.andThen st fun node dd =>
    andAlso (isReduceMeanLastAxis node ty.dims.length) (readsAt node 0 dd)
  let add ← var.andThen st fun node _ => .ok (node.op == .add)
  let sqrt ← add.andThen st fun node _ => .ok (node.op == .sqrt)
  let inv ← sqrt.andThen st fun node _ => .ok (node.op == .reciprocal)
  pure { x, mean, d, var, add, inv }

/-- The constant that is added to the variance. -/
def matchEpsilon (st : GraphState) (v : Variance) : Match F64 := do
  let addNode ← Match.unwrap (st.graph.node? v.add.lastNode)
  let epsValue ← OptionT.mk (extractOtherBinaryInput addNode v.var.currentValue)
  let t ← Match.ofOption (Onnx.getInitializer files st.graph epsValue)
  let sd ← Match.ofOption t.data.toScalarData
  Match.ofOption (match sd with | .float _ e => some e | _ => none)

/-- Both operands are read before they are compared. -/
def isSquareOfBoth (node : Node) (d : ValueId) : Except Stop Bool :=
  (readsAt node 0 d).bind fun lhs => (readsAt node 1 d).map fun rhs => lhs && rhs

/-- The right operand is read if the left one is the value. -/
def isSquareOfEach (node : Node) (d : ValueId) : Except Stop Bool := andAlso (readsAt node 0 d) (readsAt node 1 d)

/-- `match_layer_norm_pattern`. -/
def matchLayerNormPattern (st : GraphState) (meanNode : NodeId) : Match LayerNormPattern := do
  let v ← matchVariance isSquareOfBoth st meanNode
  let normalized ← v.inv.andThen st fun node inv =>
    andAlso (.ok (node.op == .mul)) (andAlso (readsAt node 0 v.d.currentValue) (readsAt node 1 inv))
  let scaled ← normalized.andThen st fun node _ => .ok (node.op == .mul)
  let last ← scaled.andThen st fun node _ => .ok (node.op == .add)
  let epsilon ← matchEpsilon files st v
  let scaledNode ← Match.unwrap (st.graph.node? scaled.lastNode)
  let scale ← OptionT.mk (extractOtherBinaryInput scaledNode normalized.currentValue)
  let lastNode ← Match.unwrap (st.graph.node? last.lastNode)
  let bias ← OptionT.mk (extractOtherBinaryInput lastNode scaled.currentValue)
  pure { lastNode := last.lastNode, input := v.x, scale, bias, epsilon }

/-- `match_batchnorm_layer_norm_pattern`. -/
def matchBatchnormLayerNormPattern (st : GraphState) (meanNode : NodeId) : Match LayerNormPattern := do
  let v ← matchVariance isSquareOfEach st meanNode
  let scaleInv ← v.inv.andThen st fun node _ => .ok (node.op == .mul)
  let scaleInvNode ← Match.unwrap (st.graph.node? scaleInv.lastNode)
  let gamma ← OptionT.mk (extractOtherBinaryInput scaleInvNode v.inv.currentValue)
  let branch ← PatternMatcher.new st scaleInv.lastNode 0
  let yUnbiased ← branch.andThen st (isBinaryWith .mul (· == v.x))
  let meanScaled ← branch.andThen st (isBinaryWith .mul (· == v.mean.currentValue))
  let effBias ← meanScaled.andThen st fun node meanScaled =>
    andAlso (.ok (node.op == .sub)) (readsAt node 1 meanScaled)
  let effBiasNode ← Match.unwrap (st.graph.node? effBias.lastNode)
  let beta ← Match.unwrap effBiasNode.inputs[0]?.join
  let y ← PatternMatcher.new st yUnbiased.lastNode 0
  let last ← y.andThen st (isBinaryWith .add (· == effBias.currentValue))
  let epsilon ← matchEpsilon files st v
  pure { lastNode := last.lastNode, input := v.x, scale := gamma, bias := beta, epsilon }

/-- The search of the loop of `run`, with `or_else`. -/
def matchPattern (st : GraphState) (meanNode : NodeId) : Match LayerNormPattern :=
  OptionT.mk ((matchLayerNormPattern files st meanNode).run.bind fun
    | some pattern => .ok (some pattern)
    | none => (matchBatchnormLayerNormPattern files st meanNode).run)

/-- The body of the loop of `run` after the search. -/
def apply (st : GraphState) (pattern : LayerNormPattern) : Except Stop GraphState :=
  (orPanic (st.graph.node? pattern.lastNode)).bind fun node =>
    (orPanic node.outputs[0]?).bind fun oldOutput =>
      st.replaceByNode oldOutput s!"LayerNormFusion_Output_{debugId pattern.lastNode}"
        s!"LayerNormFusion_{debugId pattern.lastNode}"
        [some pattern.input, some pattern.scale, some pattern.bias]
        (.layerNormalization { axis := ⟨-1⟩, epsilon := pattern.epsilon })

/-- The body of the loop of `run`. -/
def visit : GraphState → NodeId → Except Stop GraphState := fuse (matchPattern files) apply

/-- Whether `run` collects a node: it is a mean over the last axis, which stays. -/
def isMeanNode (g : Graph) (node : Node) : Except Stop Bool :=
  match node.op with
  | .reduceMean ⟨[axis], true⟩ =>
      (orPanic node.inputs[0]?.join).bind fun input =>
        match g.getResolvedTensorType input with
        | none => .ok false
        | some ty =>
            if ty.dims.length = 0 then .error .panic
            else .ok (TensorIndex.index ⟨axis⟩ ty.dims.length == ty.dims.length - 1)
  | _ => .ok false

/-- The nodes that `run` collects. -/
def meanNodes (g : Graph) : Except Stop (List NodeId) :=
  (g.iter.mapM fun x => (isMeanNode g x.2).map fun b => if b then some x.1 else none).map List.reduceOption

/-- `run`. -/
def run (st : GraphState) : Except Stop GraphState :=
  (meanNodes st.graph).bind fun nodes => nodes.foldlM (visit files) st

end LayerNormFusion

namespace Exact

variable {x d dd inv norm scaled scale bias y : Arr} {k : Nat} {ε : ℝ}

/-- The inverse of the deviation along the last axis. -/
noncomputable def inverseDeviation (k : Nat) (ε : ℝ) (x : Arr) (idx : List Nat) : ℝ :=
  (√(meanOf x k (fun e => (e - meanOf x k id (idx.take k)) ^ 2) (idx.take k) + ε))⁻¹

theorem spread_mean (hk : k + 1 = x.shape.length) :
    (meanAxis true k x).Spread x.shape fun idx => meanOf x k id (idx.take k) :=
  (spread_meanAxis (spread_self x) rfl).congr fun _ hidx => (meanOf_last hk hidx id).symm

theorem spread_centered (hk : k + 1 = x.shape.length) (hd : Binary (· - ·) x (meanAxis true k x) d) :
    d.shape = x.shape ∧ d.Spread x.shape fun idx => x.get idx - meanOf x k id (idx.take k) := by
  refine ⟨?_, (spread_self x).binary (spread_mean hk) hd⟩
  rw [hd.of_broadcasts (spread_mean hk).broadcasts]
  rfl

/-- The root of the mean of the squares; the axis of the mean may depend on the rank. -/
theorem spread_inverseDeviation (hk : k + 1 = x.shape.length) (hd : Binary (· - ·) x (meanAxis true k x) d)
    (hdd : Pointwise (fun e => e ^ 2) d dd) {axis : Nat → Nat} (haxis : axis x.shape.length = k)
    (hinv : Pointwise (fun m => (√(m + ε))⁻¹) (meanAxis true (axis dd.shape.length) dd) inv)
    (hle : inv.shape.length ≤ x.shape.length) : inv.Spread x.shape (inverseDeviation k ε x) := by
  obtain ⟨hshape, hcentered⟩ := spread_centered hk hd
  have hddx : dd.shape = x.shape := by
    rw [← hshape]
    apply hdd.shape_eq
    rw [hshape, ← meanAxis_length (k := axis dd.shape.length)]
    exact Nat.le_trans hinv.broadcasts.1 hle
  rw [hddx, haxis] at hinv
  have hsquare := hdd.spread (Nat.le_of_eq (congrArg _ hddx)) hcentered
  refine (hinv.spread hle (spread_meanAxis hsquare hddx)).congr fun idx hidx => ?_
  -- the mean is the same along the axis
  have hsame (i : Nat) : (idx.set k i).take k = idx.take k := List.take_set_of_le (Nat.le_refl k)
  simp only [hsame]
  rw [inverseDeviation, meanOf_last hk hidx fun e => (e - meanOf x k id (idx.take k)) ^ 2]

/-- The definition of ONNX. -/
theorem isLayerNorm_of_centered (hk : k + 1 = x.shape.length) (hd : Binary (· - ·) x (meanAxis true k x) d)
    (hinv : inv.shape.length ≤ x.shape.length → inv.Spread x.shape (inverseDeviation k ε x))
    (hnorm : Binary (· * ·) d inv norm) (hscaled : Binary (· * ·) norm scale scaled)
    (hy : Binary (· + ·) scaled bias y) (hshape : y.shape = x.shape)
    (hscale : scale.shape = x.shape.drop k) (hbias : bias.shape = x.shape.drop k) :
    IsLayerNorm k ε x scale bias y := by
  have hle : inv.shape.length ≤ x.shape.length := by
    rw [← hshape]
    exact Nat.le_trans hnorm.length_right (Nat.le_trans hscaled.length_left hy.length_left)
  have hk' : k ≤ x.shape.length := by omega
  have hall := ((((spread_centered hk hd).2.binary (hinv hle) hnorm).binary
    (spread_drop hk' hscale) hscaled).binary (spread_drop hk' hbias) hy).eq_tabulate hshape
  refine ⟨hscale, hbias, hall.trans (tabulate_congr fun idx _ => ?_)⟩
  show _ = (_ - _) / _ * _ + _
  rw [inverseDeviation, div_eq_mul_inv]

/-- The definition of TensorFlow, which scales the element and the mean apart. -/
theorem isLayerNorm_of_unbiased {si yu ms eb : Arr} (hk : k + 1 = x.shape.length)
    (hinv : inv.shape.length ≤ x.shape.length → inv.Spread x.shape (inverseDeviation k ε x))
    (hsi : Binary (· * ·) inv scale si) (hyu : Binary (· * ·) si x yu)
    (hms : Binary (· * ·) si (meanAxis true k x) ms) (heb : Binary (· - ·) bias ms eb)
    (hy : Binary (· + ·) yu eb y) (hshape : y.shape = x.shape)
    (hscale : scale.shape = x.shape.drop k) (hbias : bias.shape = x.shape.drop k) :
    IsLayerNorm k ε x scale bias y := by
  have hle : inv.shape.length ≤ x.shape.length := by
    rw [← hshape]
    exact Nat.le_trans hsi.length_left (Nat.le_trans hyu.length_left hy.length_left)
  have hk' : k ≤ x.shape.length := by omega
  have hsi' := (hinv hle).binary (spread_drop hk' hscale) hsi
  have heb' := (spread_drop hk' hbias).binary (hsi'.binary (spread_mean hk) hms) heb
  have hall := ((hsi'.binary (spread_self x) hyu).binary heb' hy).eq_tabulate hshape
  refine ⟨hscale, hbias, hall.trans (tabulate_congr fun idx _ => ?_)⟩
  show _ = (_ - _) / _ * _ + _
  rw [inverseDeviation, div_eq_mul_inv]
  ring

end Exact

namespace LayerNormFusion

variable {files : Onnx.Files} {c : Exact.GeLUConstants} {st st' : GraphState} {g : Graph} {id : NodeId}
  {node : Node} {x u w : ValueId} {ρ : ValueId → Exact.Arr} {plan : LayerNormPattern} {v : Variance} {ε : F64}
  {isSquareOf : Node → ValueId → Except Stop Bool}

/-- A node that `run` collects. -/
def LastMean (g : Graph) (id : NodeId) : Prop :=
  ∃ node axis x ty, g.node? id = some node ∧ node.op = .reduceMean ⟨[axis], true⟩ ∧
    node.inputs[0]? = some (some x) ∧ g.getResolvedTensorType x = some ty ∧ ty.dims.length ≠ 0 ∧
      TensorIndex.index ⟨axis⟩ ty.dims.length = ty.dims.length - 1

/-- The second mean of what is found keeps its axis. -/
def KeepsAxis (g : Graph) (v : Variance) : Prop :=
  ∃ node axis, g.node? v.var.lastNode = some node ∧ node.op = .reduceMean ⟨[axis], true⟩

/-- The search for the square. -/
def SquareOf (isSquareOf : Node → ValueId → Except Stop Bool) : Prop :=
  isSquareOf = isSquareOfBoth ∨ isSquareOf = isSquareOfEach

theorem SquareOf.reads (hsq : SquareOf isSquareOf) (h : isSquareOf node u = .ok true) :
    node.inputs[0]? = some (some u) ∧ node.inputs[1]? = some (some u) := by
  rcases hsq with rfl | rfl
  · obtain ⟨lhs, hlhs, h⟩ := bind_eq_ok.mp h
    obtain ⟨rhs, hrhs, h⟩ := map_eq_ok.mp h
    obtain ⟨rfl, rfl⟩ := Bool.and_eq_true_iff.mp h
    exact ⟨readsAt_eq_ok.mp hlhs, readsAt_eq_ok.mp hrhs⟩
  · simpa [isSquareOfEach] using h

theorem isReduceMeanLastAxis_eq {n : Nat} (h : isReduceMeanLastAxis node n = .ok true) :
    ∃ axis keepdims, node.op = .reduceMean ⟨[axis], keepdims⟩ ∧ n ≠ 0 ∧ TensorIndex.index ⟨axis⟩ n = n - 1 := by
  unfold isReduceMeanLastAxis at h
  split at h
  · rename_i axis keepdims hop
    split at h
    · cases h
    · rename_i hn
      exact ⟨axis, keepdims, hop, hn, beq_iff_eq.mp (Except.ok.inj h)⟩
  · cases h

/-- What the nodes up to the inverse compute. -/
structure Varies (g : Graph) (v : Variance) (ε : F64) (ty : ResolvedTensorType) (ρ : ValueId → Exact.Arr) :
    Prop where
  type : g.getResolvedTensorType v.x = some ty
  rank : ty.dims.length - 1 + 1 = (ρ v.x).shape.length
  last : TensorIndex.index ⟨-1⟩ ty.dims.length = ty.dims.length - 1
  mean : ρ v.mean.currentValue = Exact.meanAxis true (ty.dims.length - 1) (ρ v.x)
  centered : Binary (· - ·) (ρ v.x) (ρ v.mean.currentValue) (ρ v.d.currentValue)
  inverse : (ρ v.inv.currentValue).shape.length ≤ (ρ v.x).shape.length →
    (ρ v.inv.currentValue).Spread (ρ v.x).shape (Exact.inverseDeviation (ty.dims.length - 1) ε.real (ρ v.x))

theorem Varies.length {ty : ResolvedTensorType} (h : Varies g v ε ty ρ) (hρ : (exact c files).Holds g ρ) :
    ty.dims.length - 1 + 1 = ty.dims.length := by
  have hx : (ρ v.x).shape = ty.dims := hρ.types _ _ h.type
  rw [h.rank, hx]

theorem matchEpsilon_spec (hρ : (exact c files).Holds st.graph ρ) (h : (matchEpsilon files st v).Finds ε) :
    ∃ addNode epsValue, st.graph.node? v.add.lastNode = some addNode ∧
      extractOtherBinaryInput addNode v.var.currentValue = .ok (some epsValue) ∧
        (ρ epsValue).data = [ε.real] := by
  unfold matchEpsilon at h
  simp only [Match.finds_bind, Match.finds_unwrap, Match.finds_ofOption] at h
  obtain ⟨addNode, hadd, epsValue, heps, t, ht, sd, hsd, hε⟩ := h
  obtain ⟨ety, rfl⟩ : ∃ ety, sd = .float ety ε := by
    cases sd <;> cases hε
    exact ⟨_, rfl⟩
  exact ⟨addNode, epsValue, hadd, heps, data_of_scalar hρ ht hsd⟩

theorem varies (hst : Consistent st) (hρ : (exact c files).Holds st.graph ρ) (hmean : LastMean st.graph id)
    (hsq : SquareOf isSquareOf) (h : (matchVariance isSquareOf st id).Finds v)
    (heps : (matchEpsilon files st v).Finds ε) (hkeep : KeepsAxis st.graph v) :
    ∃ ty, Varies st.graph v ε ty ρ := by
  obtain ⟨addNode, epsValue, haddNode, hother, hepsData⟩ := matchEpsilon_spec hρ heps
  obtain ⟨varNode, axis₂, hvarNode, hvarOp⟩ := hkeep
  unfold matchVariance at h
  simp only [Match.finds_bind, Match.finds_unwrap, Match.finds_ofOption, Match.finds_pure] at h
  obtain ⟨node, hnode, mean, hnew, x, hx, ty, hty, d, hd, dd, hdd, var, hvar, add, hadd, sqrt, hsqrt, inv, hinv,
    rfl⟩ := h
  obtain ⟨node', hnode', hout, -⟩ := PatternMatcher.finds_new hnew
  obtain rfl := Option.some.inj (hnode.symm.trans hnode')
  obtain ⟨node'', axis, x', ty', hnode'', hop, hx', hty', hrank, haxis⟩ := hmean
  obtain rfl := Option.some.inj (hnode.symm.trans hnode'')
  obtain rfl := Option.some.inj (Option.some.inj ((Option.join_eq_some_iff.mp hx).symm.trans hx'))
  obtain rfl := Option.some.inj (hty.symm.trans hty')
  obtain ⟨dNode, hd⟩ := PatternMatcher.finds_andThen hst hd
  obtain ⟨ddNode, hdd⟩ := PatternMatcher.finds_andThen hst hdd
  obtain ⟨varNode', hvar⟩ := PatternMatcher.finds_andThen hst hvar
  obtain rfl := Option.some.inj (hvarNode.symm.trans hvar.1.1)
  obtain ⟨addNode', hadd⟩ := PatternMatcher.finds_andThen hst hadd
  obtain rfl := Option.some.inj (haddNode.symm.trans hadd.1.1)
  obtain ⟨sqrtNode, hsqrt⟩ := PatternMatcher.finds_andThen hst hsqrt
  obtain ⟨invNode, hinv⟩ := PatternMatcher.finds_andThen hst hinv
  obtain ⟨hdOp, hdReads⟩ := andAlso_eq_ok.mp hd.2.2
  obtain ⟨hdx, hdmean⟩ := andAlso_eq_ok.mp hdReads
  obtain ⟨hddOp, hddReads⟩ := andAlso_eq_ok.mp hdd.2.2
  obtain ⟨hdd₀, hdd₁⟩ := hsq.reads hddReads
  obtain ⟨hvarAxis, -⟩ := andAlso_eq_ok.mp hvar.2.2
  obtain ⟨axis', keepdims, hvarOp', -, haxis'⟩ := isReduceMeanLastAxis_eq hvarAxis
  obtain ⟨⟨rfl, -⟩, rfl⟩ : (axis₂ = axis' ∧ True) ∧ true = keepdims := by simpa using hvarOp.symm.trans hvarOp'
  have hxshape : (ρ x).shape = ty.dims := hρ.types _ _ hty
  have hmeanEq := (mean_of_node hρ hnode hop (List.mem_of_getElem? hx') hout).2
  rw [hxshape, haxis] at hmeanEq
  have hdEq := hd.binary hρ (congrArg (Exact.op c) (beq_iff_eq.mp (Except.ok.inj hdOp))) (readsAt_eq_ok.mp hdx)
    (readsAt_eq_ok.mp hdmean)
  have hddEq := (hdd.binary hρ (congrArg (Exact.op c) (beq_iff_eq.mp (Except.ok.inj hddOp))) hdd₀
    hdd₁).pointwise_self
  have hvarEq := (hvar.mean hρ hvarOp).2
  have hsum := (hadd.other hρ (congrArg (Exact.op c) (beq_iff_eq.mp (Except.ok.inj hadd.2.2))) add_comm
    hother).pointwise hepsData
  have hroot : Pointwise Real.sqrt (ρ add.currentValue) (ρ sqrt.currentValue) := by
    rw [hsqrt.unary hρ (congrArg (Exact.op c) (beq_iff_eq.mp (Except.ok.inj hsqrt.2.2)))]
    exact pointwise_unary _ _
  have hinvEq : Pointwise (fun e : ℝ => e⁻¹) (ρ sqrt.currentValue) (ρ inv.currentValue) := by
    rw [hinv.unary hρ (congrArg (Exact.op c) (beq_iff_eq.mp (Except.ok.inj hinv.2.2)))]
    exact pointwise_unary _ _
  have hinverse := (hsum.trans hroot).trans hinvEq
  rw [hvarEq] at hinverse
  have hlen : ty.dims.length - 1 + 1 = (ρ x).shape.length := by
    rw [hxshape]
    omega
  refine ⟨ty, hty, hlen, TensorIndex.index_last hrank haxis, hmeanEq, hdEq, fun hle => ?_⟩
  refine Exact.spread_inverseDeviation hlen (hmeanEq ▸ hdEq) (by simpa only [← pow_two] using hddEq) ?_ hinverse hle
  rw [hxshape, haxis']

/-- What a search finds is a normalisation if the second mean keeps its axis. -/
def Normalizes (c : Exact.GeLUConstants) (files : Onnx.Files) (st : GraphState) (plan : LayerNormPattern) : Prop :=
  ∃ last out, st.graph.node? plan.lastNode = some last ∧ last.outputs[0]? = some out ∧
    ∀ ρ, (exact c files).Holds st.graph ρ → ∃ ty, st.graph.getResolvedTensorType plan.input = some ty ∧
      TensorIndex.index ⟨-1⟩ ty.dims.length = ty.dims.length - 1 ∧
      ty.dims.length - 1 + 1 = ty.dims.length ∧
      ((ρ out).shape = (ρ plan.input).shape →
        (ρ plan.scale).shape = (ρ plan.input).shape.drop (ty.dims.length - 1) →
        (ρ plan.bias).shape = (ρ plan.input).shape.drop (ty.dims.length - 1) →
        Exact.IsLayerNorm (ty.dims.length - 1) plan.epsilon.real (ρ plan.input) (ρ plan.scale) (ρ plan.bias)
          (ρ out))

/-- The second means of the square nodes that a turn finds keep their axis. -/
def MeansKeepAxis (st : GraphState) (id : NodeId) : Prop :=
  ∀ isSquareOf, SquareOf isSquareOf → ∀ v, (matchVariance isSquareOf st id).Finds v → KeepsAxis st.graph v

theorem matchLayerNormPattern_normalizes (hst : Consistent st) (hmean : LastMean st.graph id)
    (hkeep : MeansKeepAxis st id) (h : (matchLayerNormPattern files st id).Finds plan) :
    Normalizes c files st plan := by
  unfold matchLayerNormPattern at h
  simp only [Match.finds_bind, Match.finds_unwrap, Match.finds_pure] at h
  obtain ⟨v, hv, normalized, hnormalized, scaled, hscaled, last, hlast, ε, hε, scaledNode, hscaledNode, scale,
    hscale, lastNode, hlastNode, bias, hbias, rfl⟩ := h
  obtain ⟨normalizedNode, hnormalized⟩ := PatternMatcher.finds_andThen hst hnormalized
  obtain ⟨scaledNode', hscaled⟩ := PatternMatcher.finds_andThen hst hscaled
  obtain rfl := Option.some.inj (hscaledNode.symm.trans hscaled.1.1)
  obtain ⟨lastNode', hlast⟩ := PatternMatcher.finds_andThen hst hlast
  obtain rfl := Option.some.inj (hlastNode.symm.trans hlast.1.1)
  refine ⟨lastNode, last.currentValue, hlastNode, hlast.1.2, fun ρ hρ => ?_⟩
  obtain ⟨ty, hvaries⟩ := varies hst hρ hmean (.inl rfl) hv hε (hkeep _ (.inl rfl) v hv)
  refine ⟨ty, hvaries.type, hvaries.last, hvaries.length hρ, fun hy hs hb => ?_⟩
  obtain ⟨hnormOp, hreads⟩ := andAlso_eq_ok.mp hnormalized.2.2
  obtain ⟨hd, hinv⟩ := andAlso_eq_ok.mp hreads
  have hnorm := hnormalized.binary hρ (congrArg (Exact.op c) (beq_iff_eq.mp (Except.ok.inj hnormOp)))
    (readsAt_eq_ok.mp hd) (readsAt_eq_ok.mp hinv)
  have hscaledEq := hscaled.other hρ (congrArg (Exact.op c) (beq_iff_eq.mp (Except.ok.inj hscaled.2.2)))
    mul_comm hscale
  have hlastEq := hlast.other hρ (congrArg (Exact.op c) (beq_iff_eq.mp (Except.ok.inj hlast.2.2)))
    add_comm hbias
  exact Exact.isLayerNorm_of_centered hvaries.rank (hvaries.mean ▸ hvaries.centered) hvaries.inverse hnorm hscaledEq
    hlastEq hy hs hb

theorem matchBatchnormLayerNormPattern_normalizes (hst : Consistent st) (hmean : LastMean st.graph id)
    (hkeep : MeansKeepAxis st id) (h : (matchBatchnormLayerNormPattern files st id).Finds plan) :
    Normalizes c files st plan := by
  unfold matchBatchnormLayerNormPattern at h
  simp only [Match.finds_bind, Match.finds_unwrap, Match.finds_pure] at h
  obtain ⟨v, hv, scaleInv, hscaleInv, scaleInvNode, hscaleInvNode, gamma, hgamma, branch, hbranch, yUnbiased,
    hyUnbiased, meanScaled, hmeanScaled, effBias, heffBias, effBiasNode, heffBiasNode, beta, hbeta, y, hy, last,
    hlast, ε, hε, rfl⟩ := h
  obtain ⟨scaleInvNode', hscaleInv⟩ := PatternMatcher.finds_andThen hst hscaleInv
  obtain rfl := Option.some.inj (hscaleInvNode.symm.trans hscaleInv.1.1)
  -- the branches start where the scaled inverse is
  obtain ⟨branchNode, hbranchNode, hbranchOut, -⟩ := PatternMatcher.finds_new hbranch
  obtain rfl := Option.some.inj (hscaleInvNode.symm.trans hbranchNode)
  have hbranchEq := Option.some.inj (hscaleInv.1.2.symm.trans hbranchOut)
  obtain ⟨yUnbiasedNode, hyUnbiased⟩ := PatternMatcher.finds_andThen hst hyUnbiased
  obtain ⟨yNode, hyNode, hyOut, -⟩ := PatternMatcher.finds_new hy
  obtain rfl := Option.some.inj (hyUnbiased.1.1.symm.trans hyNode)
  have hyEq := Option.some.inj (hyUnbiased.1.2.symm.trans hyOut)
  obtain ⟨meanScaledNode, hmeanScaled⟩ := PatternMatcher.finds_andThen hst hmeanScaled
  obtain ⟨effBiasNode', heffBias⟩ := PatternMatcher.finds_andThen hst heffBias
  obtain rfl := Option.some.inj (heffBiasNode.symm.trans heffBias.1.1)
  obtain ⟨lastNode, hlast⟩ := PatternMatcher.finds_andThen hst hlast
  refine ⟨lastNode, last.currentValue, hlast.1.1, hlast.1.2, fun ρ hρ => ?_⟩
  obtain ⟨ty, hvaries⟩ := varies hst hρ hmean (.inr rfl) hv hε (hkeep _ (.inr rfl) v hv)
  refine ⟨ty, hvaries.type, hvaries.last, hvaries.length hρ, fun hshape hs hb => ?_⟩
  have hscaleInvEq := hscaleInv.other hρ
    (congrArg (Exact.op c) (beq_iff_eq.mp (Except.ok.inj hscaleInv.2.2))) mul_comm hgamma
  obtain ⟨x, hx, hyUnbiasedEq⟩ := hyUnbiased.with hρ rfl mul_comm
  obtain rfl := beq_iff_eq.mp hx
  obtain ⟨mean, hmeanIs, hmeanScaledEq⟩ := hmeanScaled.with hρ rfl mul_comm
  obtain rfl := beq_iff_eq.mp hmeanIs
  obtain ⟨heffOp, heffReads⟩ := andAlso_eq_ok.mp heffBias.2.2
  have heffBiasEq := heffBias.binary hρ (congrArg (Exact.op c) (beq_iff_eq.mp (Except.ok.inj heffOp)))
    (Option.join_eq_some_iff.mp hbeta) (readsAt_eq_ok.mp heffReads)
  obtain ⟨eff, heff, hlastEq⟩ := hlast.with hρ rfl add_comm
  obtain rfl := beq_iff_eq.mp heff
  rw [← hbranchEq] at hyUnbiasedEq hmeanScaledEq
  rw [← hyEq] at hlastEq
  rw [hvaries.mean] at hmeanScaledEq
  exact Exact.isLayerNorm_of_unbiased hvaries.rank hvaries.inverse hscaleInvEq hyUnbiasedEq hmeanScaledEq heffBiasEq
    hlastEq hshape hs hb

theorem matchPattern_cases (h : (matchPattern files st id).Finds plan) :
    (matchLayerNormPattern files st id).Finds plan ∨ (matchBatchnormLayerNormPattern files st id).Finds plan := by
  obtain ⟨o, ho, h⟩ := bind_eq_ok.mp h
  cases o with
  | none => exact .inr h
  | some plan' =>
      obtain rfl := Option.some.inj (Except.ok.inj h)
      exact .inl ho

theorem matchPattern_normalizes (hst : Consistent st) (hmean : LastMean st.graph id) (hkeep : MeansKeepAxis st id)
    (h : (matchPattern files st id).Finds plan) : Normalizes c files st plan := by
  rcases matchPattern_cases h with h | h
  · exact matchLayerNormPattern_normalizes hst hmean hkeep h
  · exact matchBatchnormLayerNormPattern_normalizes hst hmean hkeep h

/-- The means, the scale, the bias and the type of the result are as for the operator. -/
structure Fits (st : GraphState) (id : NodeId) (plan : LayerNormPattern) (ty : ResolvedTensorType) : Prop where
  input : st.graph.getResolvedTensorType plan.input = some ty
  result : ∃ last out, st.graph.node? plan.lastNode = some last ∧ last.outputs[0]? = some out ∧
    st.graph.getResolvedTensorType out = some ty
  means : MeansKeepAxis st id
  operands : ∀ v ∈ [plan.scale, plan.bias], ∃ s, st.graph.getResolvedTensorType v = some s ∧
    s.dims = [ty.dims.getD (ty.dims.length - 1) 0]

theorem apply_eq_ok (hok : apply st plan = .ok st') : ∃ last out, st.graph.node? plan.lastNode = some last ∧
    last.outputs[0]? = some out ∧
    st.replaceByNode out s!"LayerNormFusion_Output_{debugId plan.lastNode}"
      s!"LayerNormFusion_{debugId plan.lastNode}" [some plan.input, some plan.scale, some plan.bias]
      (.layerNormalization { axis := ⟨-1⟩, epsilon := plan.epsilon }) = .ok st' := by
  obtain ⟨last, hlast, hok⟩ := orPanic_bind_eq_ok hok
  obtain ⟨out, hout, hok⟩ := orPanic_bind_eq_ok hok
  exact ⟨last, out, hlast, hout, hok⟩

theorem matchVariance_type (h : (matchVariance isSquareOf st id).Finds v) :
    ∃ ty, st.graph.getResolvedTensorType v.x = some ty := by
  unfold matchVariance at h
  simp only [Match.finds_bind, Match.finds_unwrap, Match.finds_ofOption, Match.finds_pure] at h
  obtain ⟨-, -, -, -, x, -, ty, hty, -, -, -, -, -, -, -, -, -, -, -, -, rfl⟩ := h
  exact ⟨ty, hty⟩

/-- The operands of the new node are in the graph. -/
theorem inputs_lt (hst : Intact st) (h : (matchPattern files st id).Finds plan) :
    ∀ v, some v ∈ [some plan.input, some plan.scale, some plan.bias] → v < st.graph.values.length := by
  have hother {id : NodeId} {node : Node} {u w : ValueId} (hnode : st.graph.node? id = some node)
      (hw : extractOtherBinaryInput node u = .ok (some w)) : w < st.graph.values.length := by
    refine hst.inRange.inputs _ _ hnode w ?_
    rcases extractOtherBinaryInput_eq hw with hins | hins <;> simp [hins]
  intro w hw
  simp only [List.mem_cons, Option.some.injEq, List.not_mem_nil, or_false] at hw
  rcases matchPattern_cases h with h | h
  · unfold matchLayerNormPattern at h
    simp only [Match.finds_bind, Match.finds_unwrap, Match.finds_pure] at h
    obtain ⟨v, hv, _, -, _, -, _, -, _, -, _, hscaledNode, scale, hscale, _, hlastNode, bias, hbias, rfl⟩ := h
    obtain ⟨ty, hty⟩ := matchVariance_type hv
    rcases hw with rfl | rfl | rfl
    · exact type_lt hty
    · exact hother hscaledNode hscale
    · exact hother hlastNode hbias
  · unfold matchBatchnormLayerNormPattern at h
    simp only [Match.finds_bind, Match.finds_unwrap, Match.finds_pure] at h
    obtain ⟨v, hv, _, -, _, hscaleInvNode, gamma, hgamma, _, -, _, -, _, -, _, -, _, heffBiasNode, beta, hbeta,
      _, -, _, -, _, -, rfl⟩ := h
    obtain ⟨ty, hty⟩ := matchVariance_type hv
    rcases hw with rfl | rfl | rfl
    · exact type_lt hty
    · exact hother hscaleInvNode hgamma
    · exact hst.inRange.inputs _ _ heffBiasNode _ (List.mem_of_getElem? (Option.join_eq_some_iff.mp hbeta))

theorem visit_keeps (hst : Intact st) (hmean : LastMean st.graph id)
    (hfits : ∀ plan, (matchPattern files st id).Finds plan → ∃ ty, Fits st id plan ty)
    (hok : visit files st id = .ok st') : Keeps (exact c files) st st' := by
  rcases fuse_eq_ok hok with rfl | ⟨plan, hplan, hok⟩
  · exact .refl _ _
  · obtain ⟨ty, hfit⟩ := hfits plan hplan
    obtain ⟨last, out, hlast, hout, hok⟩ := apply_eq_ok hok
    refine (keeps_replaceByNode hst (inputs_lt hst hplan) (fun ρ hρ => ?_) hok).1
    obtain ⟨last', out', hlast', hout', hnormal⟩ := matchPattern_normalizes hst.consistent hmean hfit.means hplan
    obtain rfl := Option.some.inj (hlast.symm.trans hlast')
    obtain rfl := Option.some.inj (hout.symm.trans hout')
    obtain ⟨ty', hty', haxis, hrank, hnormal⟩ := hnormal ρ hρ
    obtain rfl := Option.some.inj (hfit.input.symm.trans hty')
    obtain ⟨last₂, out₂, hlast₂, hout₂, hty₂⟩ := hfit.result
    obtain rfl := Option.some.inj (hlast.symm.trans hlast₂)
    obtain rfl := Option.some.inj (hout.symm.trans hout₂)
    have hx : (ρ plan.input).shape = ty.dims := hρ.types _ _ hty'
    have hy : (ρ out).shape = ty.dims := hρ.types _ _ hty₂
    have hoperand : ∀ v ∈ [plan.scale, plan.bias],
        (ρ v).shape = (ρ plan.input).shape.drop (ty.dims.length - 1) := by
      intro v hv
      obtain ⟨s, hs, hdims⟩ := hfit.operands v hv
      rw [hx, Exact.drop_lastAxis hrank, ← hdims]
      exact hρ.types _ _ hs
    have hnorm := hnormal (hy.trans hx.symm) (hoperand _ (by simp)) (hoperand _ (by simp))
    refine ⟨_, _, _, _, rfl, rfl, ?_⟩
    show Exact.IsLayerNorm (TensorIndex.index ⟨-1⟩ (ρ plan.input).shape.length) _ _ _ _ _
    rwa [hx, haxis]

theorem visit_intact (hst : Intact st) (hok : visit files st id = .ok st') :
    Intact st' ∧ st.graph.values.length ≤ st'.graph.values.length := by
  rcases fuse_eq_ok hok with rfl | ⟨plan, hplan, hok⟩
  · exact ⟨hst, Nat.le_refl _⟩
  · obtain ⟨last, out, -, -, hok⟩ := apply_eq_ok hok
    exact replaceByNode_intact hst (inputs_lt hst hplan) hok

/-- A mean that is collected stays one, perhaps of another value. -/
theorem LastMean.visit (hst : Intact st) {meanNode : NodeId} (h : LastMean st.graph meanNode)
    (hok : visit files st id = .ok st') : LastMean st'.graph meanNode := by
  rcases fuse_eq_ok hok with rfl | ⟨plan, -, hok⟩
  · exact h
  · obtain ⟨node, axis, x, ty, hnode, hop, hx, hty, hrank, haxis⟩ := h
    obtain ⟨last, out, -, -, hok⟩ := apply_eq_ok hok
    obtain ⟨hext, hpairs⟩ := replaceByNode_spec hst.consistent hok
    obtain ⟨node', hnode', -, -, hop'⟩ := hext.nodes _ _ hnode
    obtain ⟨⟨node'', hnode'', hx'⟩, htype⟩ := hpairs x (meanNode, 0) ⟨node, hnode, hx⟩
    obtain rfl := Option.some.inj (hnode'.symm.trans hnode'')
    refine ⟨node', axis, _, ty, hnode', ?_, hx', (htype (type_lt hty)).trans hty, hrank, haxis⟩
    rw [hop] at hop'
    exact hop'.resolve_right nofun

theorem isMeanNode_eq {node : Node} (hnode : g.node? id = some node) (h : isMeanNode g node = .ok true) :
    LastMean g id := by
  unfold isMeanNode at h
  split at h
  · rename_i axis hop
    obtain ⟨x, hx, h⟩ := orPanic_bind_eq_ok h
    split at h
    · cases h
    · rename_i ty hty
      split at h
      · cases h
      · rename_i hrank
        exact ⟨node, axis, x, ty, hnode, hop, Option.join_eq_some_iff.mp hx, hty, hrank,
          beq_iff_eq.mp (Except.ok.inj h)⟩
  · cases h

theorem meanNodes_spec {l : List NodeId} (h : meanNodes g = .ok l) : ∀ id ∈ l, LastMean g id := by
  obtain ⟨os, hos, rfl⟩ := map_eq_ok.mp h
  intro id hid
  obtain ⟨x, hx, hok⟩ := mapM_eq_ok_mem hos _ (List.reduceOption_mem_iff.mp hid)
  obtain ⟨b, hb, hsome⟩ := map_eq_ok.mp hok
  split at hsome
  · rename_i hmean
    obtain rfl := Option.some.inj hsome
    exact isMeanNode_eq (mem_iter.mp hx) (hmean ▸ hb)
  · cases hsome

/-- The turn keeps the meaning and the declared type, which is the one of the operator; the means keep their
axis, and the scale and the bias are vectors of the last axis' size. -/
structure Sound (files : Onnx.Files) (M : Meaning Exact.Arr) (st : GraphState) (id : NodeId) (st' : GraphState) :
    Prop where
  keeps : Keeps M st st'
  declared : ∀ plan, (matchPattern files st id).Finds plan →
    st'.graph.getResolvedTensorType st.graph.values.length = st'.graph.getResolvedTensorType plan.input
  means : ∀ plan, (matchPattern files st id).Finds plan → MeansKeepAxis st id
  operands : ∀ plan, (matchPattern files st id).Finds plan → ∃ ty,
    st.graph.getResolvedTensorType plan.input = some ty ∧ ∀ v ∈ [plan.scale, plan.bias], ∃ s,
      st.graph.getResolvedTensorType v = some s ∧ s.dims = [ty.dims.getD (ty.dims.length - 1) 0]

theorem apply_of_finds (hplan : (matchPattern files st id).Finds plan) (hok : visit files st id = .ok st') :
    apply st plan = .ok st' := by
  unfold visit fuse at hok
  rw [hplan] at hok
  exact hok

theorem visit_sound (hst : Intact st) (hmean : LastMean st.graph id) (hok : visit files st id = .ok st') :
    Sound files (exact c files) st id st' ↔
      ∀ plan, (matchPattern files st id).Finds plan → ∃ ty, Fits st id plan ty := by
  constructor
  · intro h plan hplan
    obtain ⟨last, out, hlast, hout, happly⟩ := apply_eq_ok (apply_of_finds hplan hok)
    obtain ⟨ty, hty, hoperands⟩ := h.operands plan hplan
    obtain ⟨hnew, hsame⟩ := replaceByNode_type hst.consistent happly
    have hdeclared := h.declared plan hplan
    rw [hnew, hsame plan.input (type_lt hty), hty] at hdeclared
    exact ⟨ty, hty, ⟨last, out, hlast, hout, hdeclared⟩, h.means plan hplan, hoperands⟩
  · intro h
    refine ⟨visit_keeps hst hmean h hok, fun plan hplan => ?_, fun plan hplan => ?_, fun plan hplan => ?_⟩ <;>
      obtain ⟨ty, hfits⟩ := h plan hplan
    · obtain ⟨last, out, hlast, hout, happly⟩ := apply_eq_ok (apply_of_finds hplan hok)
      obtain ⟨last', out', hlast', hout', hty⟩ := hfits.result
      obtain rfl := Option.some.inj (hlast.symm.trans hlast')
      obtain rfl := Option.some.inj (hout.symm.trans hout')
      obtain ⟨hnew, hsame⟩ := replaceByNode_type hst.consistent happly
      rw [hnew, hsame plan.input (type_lt hfits.input), hty, hfits.input]
    · exact hfits.means
    · exact ⟨ty, hfits.input, hfits.operands⟩

theorem turns_intact (hst : Intact st) {l : List NodeId} (hl : meanNodes st.graph = .ok l) :
    ∀ t ∈ passTurns (visit files) st l, (Intact t.1 ∧ ∀ id ∈ l, LastMean t.1.graph id) ∧ t.2.1 ∈ l ∧
      visit files t.1 t.2.1 = .ok t.2.2 :=
  passTurns_induct (I := fun st => Intact st ∧ ∀ id ∈ l, LastMean st.graph id) (fun _ _ _ h _ hok =>
    ⟨(visit_intact h.1 hok).1, fun id hid => (h.2 id hid).visit h.1 hok⟩) ⟨hst, meanNodes_spec hl⟩

/-- The replacements of a run are sound if the means, the scales, the biases and the types are as for the
operator. -/
theorem layerNormFusion_sound_iff (hst : Intact st) {l : List NodeId} (hl : meanNodes st.graph = .ok l) :
    (∀ t ∈ passTurns (visit files) st l, Sound files (exact c files) t.1 t.2.1 t.2.2) ↔
      ∀ t ∈ passTurns (visit files) st l, ∀ plan, (matchPattern files t.1 t.2.1).Finds plan →
        ∃ ty, Fits t.1 t.2.1 plan ty := by
  refine forall₂_congr fun t ht => ?_
  obtain ⟨⟨hI, hmeans⟩, hid, hok⟩ := turns_intact hst hl t ht
  exact visit_sound hI (hmeans _ hid) hok

/-- Such a run keeps the meaning of the graph. -/
theorem layerNormFusion_keeps (hst : Intact st) {l : List NodeId} (hl : meanNodes st.graph = .ok l)
    (h : ∀ t ∈ passTurns (visit files) st l, ∀ plan, (matchPattern files t.1 t.2.1).Finds plan →
      ∃ ty, Fits t.1 t.2.1 plan ty) (hrun : run files st = .ok st') : Keeps (exact c files) st st' := by
  rw [run, hl] at hrun
  refine keeps_of_passTurns (fun t ht => ?_) hrun
  obtain ⟨⟨hI, hmeans⟩, hid, hok⟩ := turns_intact hst hl t ht
  exact ⟨visit_keeps hI (hmeans _ hid) (h t ht) hok, (visit_intact hI hok).2⟩

/-- A normalisation with a bias of these dims. -/
def normGraph (biasDims : List Nat) : Graph where
  nodes :=
    [{ inputs := [], outputs := [0], name := "x", op := .input 0, markAsDeleted := false },
      { inputs := [], outputs := [1], name := "w", op := .input 1, markAsDeleted := false },
      { inputs := [], outputs := [2], name := "b", op := .input 2, markAsDeleted := false },
      { inputs := [some 0], outputs := [4], name := "mean", op := .reduceMean ⟨[-1], true⟩,
        markAsDeleted := false },
      { inputs := [some 0, some 4], outputs := [5], name := "d", op := .sub, markAsDeleted := false },
      { inputs := [some 5, some 5], outputs := [6], name := "dd", op := .mul, markAsDeleted := false },
      { inputs := [some 6], outputs := [7], name := "var", op := .reduceMean ⟨[-1], true⟩,
        markAsDeleted := false },
      { inputs := [some 7, some 3], outputs := [8], name := "add", op := .add, markAsDeleted := false },
      { inputs := [some 8], outputs := [9], name := "root", op := .sqrt, markAsDeleted := false },
      { inputs := [some 9], outputs := [10], name := "inv", op := .reciprocal, markAsDeleted := false },
      { inputs := [some 5, some 10], outputs := [11], name := "norm", op := .mul, markAsDeleted := false },
      { inputs := [some 11, some 1], outputs := [12], name := "scaled", op := .mul, markAsDeleted := false },
      { inputs := [some 12, some 2], outputs := [13], name := "z", op := .add, markAsDeleted := false },
      { inputs := [some 13], outputs := [], name := "z", op := .output 13, markAsDeleted := false }]
  inputs := [0, 1, 2]
  outputs := [13]
  values :=
    [{ name := "x", ty := some (.resolved (.new (.float .F32) [2, 2])) },
      { name := "w", ty := some (.resolved (.new (.float .F32) [2])) },
      { name := "b", ty := some (.resolved (.new (.float .F32) biasDims)) },
      { name := "e", ty := some (.resolved (.new (.float .F32) [])) },
      { name := "mean", ty := some (.resolved (.new (.float .F32) [2, 1])) },
      { name := "d", ty := some (.resolved (.new (.float .F32) [2, 2])) },
      { name := "dd", ty := some (.resolved (.new (.float .F32) [2, 2])) },
      { name := "var", ty := some (.resolved (.new (.float .F32) [2, 1])) },
      { name := "add", ty := some (.resolved (.new (.float .F32) [2, 1])) },
      { name := "root", ty := some (.resolved (.new (.float .F32) [2, 1])) },
      { name := "inv", ty := some (.resolved (.new (.float .F32) [2, 1])) },
      { name := "norm", ty := some (.resolved (.new (.float .F32) [2, 2])) },
      { name := "scaled", ty := some (.resolved (.new (.float .F32) [2, 2])) },
      { name := "z", ty := some (.resolved (.new (.float .F32) [2, 2])) }]
  initializer := fun v => if v = 3 then some (scalarTensor (.ofNat 1)) else none
  externalRefs := fun _ => none

theorem normGraph_intact (biasDims : List Nat) : Intact (.new (normGraph biasDims)) := by
  refine intact_new rfl (fun v t h => ?_) fun _ _ h => by cases h
  change (if v = 3 then _ else _) = _ at h
  split at h
  · rename_i hv
    rw [hv]
    show 3 < 14
    decide
  · cases h

theorem normGraph_meanNodes (biasDims : List Nat) : meanNodes (GraphState.new (normGraph biasDims)).graph = .ok [3, 6] :=
  rfl

/-- A bias of the last axis' size is fused. -/
theorem normGraph_fused : (passTurns (visit fun _ => none) (.new (normGraph [2])) [3, 6]).length = 2 ∧
    ∀ t ∈ passTurns (visit fun _ => none) (.new (normGraph [2])) [3, 6],
      Sound (fun _ => none) (exact ⟨0, 0, 0, 0⟩ fun _ => none) t.1 t.2.1 t.2.2 := by
  refine ⟨rfl, (layerNormFusion_sound_iff (normGraph_intact [2]) (normGraph_meanNodes [2])).mpr fun t ht plan hplan => ?_⟩
  have hfinds : (matchPattern (fun _ => none) (.new (normGraph [2])) 3).Finds
      { lastNode := 12, input := 0, scale := 1, bias := 2, epsilon := .ofNat 1 } := rfl
  rcases List.mem_cons.mp ht with rfl | ht
  · obtain rfl := Option.some.inj (Except.ok.inj (hplan.symm.trans hfinds))
    refine ⟨.new (.float .F32) [2, 2], rfl, ⟨_, 13, rfl, rfl, rfl⟩, fun isSquareOf hsq v hv => ?_, fun v hv => ?_⟩
    · rcases hsq with rfl | rfl <;> obtain rfl := Option.some.inj (Except.ok.inj hv) <;> exact ⟨_, _, rfl, rfl⟩
    · simp only [List.mem_cons, List.not_mem_nil, or_false] at hv
      rcases hv with rfl | rfl <;> exact ⟨.new (.float .F32) [2], rfl, rfl⟩
  · -- the second mean is not the first of a normalisation
    obtain rfl := List.mem_singleton.mp ht
    cases hplan

/-- The run keeps the normalisation. -/
theorem normGraph_kept : ∃ st', run (fun _ => none) (.new (normGraph [2])) = .ok st' ∧
    Keeps (exact ⟨0, 0, 0, 0⟩ fun _ => none) (.new (normGraph [2])) st' := by
  refine ⟨_, rfl, layerNormFusion_keeps (normGraph_intact [2]) (normGraph_meanNodes [2]) (fun t ht plan hplan => ?_) rfl⟩
  have hfinds : (matchPattern (fun _ => none) (.new (normGraph [2])) 3).Finds
      { lastNode := 12, input := 0, scale := 1, bias := 2, epsilon := .ofNat 1 } := rfl
  rcases List.mem_cons.mp ht with rfl | ht
  · obtain rfl := Option.some.inj (Except.ok.inj (hplan.symm.trans hfinds))
    refine ⟨.new (.float .F32) [2, 2], rfl, ⟨_, 13, rfl, rfl, rfl⟩, fun isSquareOf hsq v hv => ?_, fun v hv => ?_⟩
    · rcases hsq with rfl | rfl <;> obtain rfl := Option.some.inj (Except.ok.inj hv) <;> exact ⟨_, _, rfl, rfl⟩
    · rcases List.mem_pair.mp hv with rfl | rfl <;> exact ⟨.new (.float .F32) [2], rfl, rfl⟩
  · obtain rfl := List.mem_singleton.mp ht
    cases hplan

/-- Ones and zeros everywhere. -/
noncomputable def normValues : ValueId → Exact.Arr
  | 1 => fill [2] 1
  | 3 => fill [] 1
  | 4 | 8 | 9 | 10 => fill [2, 1] 1
  | 5 | 6 | 11 | 12 => fill [2, 2] 0
  | 7 => fill [2, 1] 0
  | _ => fill [2, 2] 1

theorem normValues_holds : (exact ⟨0, 0, 0, 0⟩ fun _ => none).Holds (normGraph [2, 2]) normValues where
  nodes id node hnode := by
    have hlt : id < 14 := (List.getElem?_eq_some_iff.mp (node?_eq_some.mp hnode).1).1
    have hmean (a : ℝ) : Exact.meanAxis true 1 (fill [2, 2] a) = fill [2, 1] a :=
      Exact.meanAxis_fill (n := 2) rfl two_ne_zero a
    have hzero {s : List Nat} (h : broadcastShape [2, 2] s = .ok [2, 2]) (a : ℝ) :
        Binary (fun a b : ℝ => a * b) (fill [2, 2] 0) (fill s a) (fill [2, 2] 0) := by
      simpa using binary_fill (fun a b : ℝ => a * b) h 0 a
    have hplus {s d : List Nat} (h : broadcastShape d s = .ok d) :
        Binary (fun a b : ℝ => a + b) (fill d 0) (fill s 1) (fill d 1) := by
      simpa using binary_fill (fun a b : ℝ => a + b) h 0 1
    interval_cases id <;> obtain rfl := Option.some.inj hnode
    · trivial
    · trivial
    · trivial
    · exact ⟨_, [], _, rfl, nofun, rfl, by decide, (hmean 1).symm⟩
    · have hsub : Binary (fun a b : ℝ => a - b) (fill [2, 2] 1) (fill [2, 1] 1) (fill [2, 2] (1 - 1)) :=
        binary_fill _ rfl 1 1
      rw [sub_self] at hsub
      exact ⟨_, _, _, rfl, rfl, hsub⟩
    · exact ⟨_, _, _, rfl, rfl, hzero rfl 0⟩
    · exact ⟨_, [], _, rfl, nofun, rfl, by decide, (hmean 0).symm⟩
    · exact ⟨_, _, _, rfl, rfl, hplus rfl⟩
    · exact ⟨_, _, rfl, rfl, by simp [normValues, unary_fill]⟩
    · exact ⟨_, _, rfl, rfl, by simp [normValues, unary_fill]⟩
    · exact ⟨_, _, _, rfl, rfl, hzero rfl 1⟩
    · exact ⟨_, _, _, rfl, rfl, hzero rfl 1⟩
    · exact ⟨_, _, _, rfl, rfl, hplus rfl⟩
    · trivial
  constants v t h := by
    change (if v = 3 then _ else _) = _ at h
    split at h
    · rename_i hv
      obtain rfl := Option.some.inj h
      rw [hv]
      exact Exact.isConstant_scalarTensor F64.real?_ofNat_one
    · cases h
  externals v r h := by cases h
  types v ty h := by
    have hlt : v < 14 := type_lt h
    interval_cases v <;> obtain rfl := Option.some.inj h <;> rfl

/-- A sum with a value of the size of the input is taken for the bias. -/
theorem normGraph_not_fused : Intact (.new (normGraph [2, 2])) ∧ meanNodes (normGraph [2, 2]) = .ok [3, 6] ∧
    ∃ st', run (fun _ => none) (.new (normGraph [2, 2])) = .ok st' ∧
      ¬Keeps (exact ⟨0, 0, 0, 0⟩ fun _ => none) (.new (normGraph [2, 2])) st' ∧
      ¬∀ t ∈ passTurns (visit fun _ => none) (.new (normGraph [2, 2])) [3, 6],
        Sound (fun _ => none) (exact ⟨0, 0, 0, 0⟩ fun _ => none) t.1 t.2.1 t.2.2 := by
  refine ⟨normGraph_intact _, rfl, _, rfl, ?_⟩
  rw [← not_or]
  intro h
  have hkeeps := h.elim id fun hall => (hall _ List.mem_cons_self).keeps
  obtain ⟨ρ', hρ', hagree, -⟩ := hkeeps normValues normValues_holds
  -- the node of the operator asks for a vector
  obtain ⟨x, scale, bias, y, hins, -, -, hbias, -⟩ := hρ'.nodes 14 _ rfl
  obtain rfl := Exact.input_eq (k := 0) (v := 0) hins rfl rfl
  obtain rfl := Exact.input_eq (k := 2) (v := 2) hins rfl rfl
  rw [hagree 0 (by decide), hagree 2 (by decide)] at hbias
  cases hbias

end LayerNormFusion
end NnEngine
