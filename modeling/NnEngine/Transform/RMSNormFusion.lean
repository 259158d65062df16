import NnEngine.Transform.PatternExact

/-!
# Fusion of an RMS normalisation

`RMSNormFusion` of `src/transform/optimize/rms_norm_fusion.rs`.  The pass takes the other operand of the
last product for the scale whatever its shape is, and it leaves out a `Cast`; `rmsNormFusion_sound_iff`
says along which runs the fused operator computes the same.
-/

namespace NnEngine

open DepthFirst InverseIndex SimpleGraphOp GraphState NdArray

namespace RMSNormFusion

variable (files : Onnx.Files)

/-- `is_square`. -/
def isSquare (g : Graph) (node : Node) : Option ValueId :=
  match node.op with
  | .mul =>
      match node.inputs with
      | [some lhs, some rhs] => if lhs = rhs then some lhs else none
      | _ => none
  | .pow => do
      let exp ← node.inputs[1]?.join
      let t ← Onnx.getInitializer files g exp
      let sd ← t.data.toScalarData
      if sd.matchesNat 2 then node.inputs[0]?.join else none
  | _ => none

/-- `is_one`. -/
def isOne (g : Graph) (v : ValueId) : Bool :=
  ((Onnx.getInitializer files g v).bind fun t => t.data.toScalarData).any (·.matchesNat 1)

/-- `is_reduce_mean_last_axis`; `ndim - 1` underflows for a scalar. -/
def isReduceMeanLastAxis (node : Node) (ndim : Nat) : Except Stop Bool :=
  match node.op with
  | .reduceMean ⟨[axis], true⟩ =>
      if ndim = 0 then .error .panic else .ok (TensorIndex.index ⟨axis⟩ ndim == ndim - 1)
  | _ => .ok false

structure RMSNormPattern where
  lastNode : NodeId
  input : ValueId
  scale : ValueId
  epsilon : F64

/-- The division of one by the root, or its reciprocal. -/
def isReciprocal (g : Graph) (node : Node) (sqrt : ValueId) : Except Stop Bool :=
  match node.op with
  | .div =>
      (orPanic node.inputs[1]?.join).bind fun rhs =>
        if rhs = sqrt then (orPanic node.inputs[0]?.join).map (isOne files g) else .ok false
  | .reciprocal => .ok true
  | _ => .ok false

/-- `match_rms_norm_pattern`. -/
def matchPattern (st : GraphState) (squareNode : NodeId) : Match RMSNormPattern := do
  let square ← Match.unwrap (st.graph.node? squareNode)
  let x ← Match.ofOption (isSquare files st.graph square)
  let ty ← Match.ofOption (st.graph.getResolvedTensorType x)
  let m ← PatternMatcher.new st squareNode 0
  let mean ← m.andThen st fun node _ => isReduceMeanLastAxis node ty.dims.length
  let add ← mean.andThen st fun node _ => .ok (node.op == .add)
  let sqrt ← add.andThen st fun node _ => .ok (node.op == .sqrt)
  let recip ← sqrt.andThen st (isReciprocal files st.graph)
  let recip' ← recip.orStay st (isBinaryWith .mul (isOne files st.graph))
  let normalized ← recip'.andThen st (isBinaryWith .mul (· == x))
  let preScale ← normalized.orStay st fun node _ => .ok (match node.op with | .cast _ => true | _ => false)
  let last ← preScale.andThen st fun node _ => .ok (node.op == .mul)
  let lastNode ← Match.unwrap (st.graph.node? last.lastNode)
  let scale ← OptionT.mk (extractOtherBinaryInput lastNode preScale.currentValue)
  let addNode ← Match.unwrap (st.graph.node? add.lastNode)
  let epsValue ← OptionT.mk (extractOtherBinaryInput addNode mean.currentValue)
  let t ← Match.ofOption (Onnx.getInitializer files st.graph epsValue)
  let sd ← Match.ofOption t.data.toScalarData
  let epsilon ← Match.ofOption (match sd with | .float _ e => some e | _ => none)
  pure { lastNode := last.lastNode, input := x, scale, epsilon }

/-- The body of the loop of `run` after the search. -/
def apply (st : GraphState) (pattern : RMSNormPattern) : Except Stop GraphState :=
  (orPanic (st.graph.node? pattern.lastNode)).bind fun node =>
    (orPanic node.outputs[0]?).bind fun oldOutput =>
      st.replaceByNode oldOutput s!"RMSNormFusion_Output_{debugId pattern.lastNode}"
        s!"RMSNormFusion_{debugId pattern.lastNode}" [some pattern.input, some pattern.scale]
        (.rmsNormalization { axis := ⟨-1⟩, epsilon := pattern.epsilon })

/-- The body of the loop of `run`. -/
def visit : GraphState → NodeId → Except Stop GraphState := fuse (matchPattern files) apply

/-- The nodes that `run` collects. -/
def squareNodes (g : Graph) : List NodeId :=
  (g.iter.filter fun x => (isSquare files g x.2).isSome).map Prod.fst

/-- `run`. -/
def run (st : GraphState) : Except Stop GraphState :=
  (squareNodes files st.graph).foldlM (visit files) st

end RMSNormFusion

/-- The root of the mean of the squares, its inverse, and the products. -/
theorem Exact.isRMSNorm_of_steps {x sq recip norm scale y : Exact.Arr} {k : Nat} {ε : ℝ}
    (hk : k + 1 = x.shape.length) (hsq : Pointwise (fun e => e ^ 2) x sq)
    (hrecip : Pointwise (fun m => (√(m + ε))⁻¹) (meanAxis true k sq) recip)
    (hnorm : Binary (· * ·) recip x norm) (hy : Binary (· * ·) norm scale y) (hshape : y.shape = x.shape)
    (hscale : scale.shape = x.shape.drop k) : IsRMSNorm k ε x scale y := by
  have hrank : (meanAxis true k sq).shape.length = sq.shape.length := List.length_set
  have hrecipx : recip.shape.length ≤ x.shape.length := by
    rw [← hshape]
    exact Nat.le_trans hnorm.length_left hy.length_left
  -- no operand has raised the rank
  have hsqx : sq.shape = x.shape := by
    refine hsq.shape_eq ?_
    rw [← hrank]
    exact Nat.le_trans hrecip.broadcasts.1 hrecipx
  have hmean := spread_meanAxis (k := k) (hsq.spread (Nat.le_of_eq (congrArg _ hsqx)) (spread_self x)) hsqx
  have hall := ((hrecip.spread hrecipx hmean).binary (spread_self x) hnorm).binary
    (spread_drop (by omega) hscale) hy
  refine ⟨hscale, (hall.eq_tabulate hshape).trans (tabulate_congr fun idx hidx => ?_)⟩
  rw [meanOf_last hk hidx, div_eq_mul_inv (x.get idx), mul_comm (x.get idx)]

namespace RMSNormFusion

variable {files : Onnx.Files} {c : Exact.GeLUConstants} {st st' : GraphState} {g : Graph} {id : NodeId}
  {node : Node} {x u v : ValueId} {ρ : ValueId → Exact.Arr} {plan : RMSNormPattern} {m m' : PatternMatcher}

theorem isOne_data (hρ : (exact c files).Holds g ρ) (h : isOne files g v = true) : (ρ v).data = [1] := by
  obtain ⟨sd, hsd, hone⟩ := (Option.any_eq_true ..).mp h
  obtain ⟨t, ht, hsd⟩ := Option.bind_eq_some_iff.mp hsd
  rw [data_of_scalar hρ ht hsd, ScalarData.real_of_matchesNat (.inl rfl) hone, Nat.cast_one]

theorem isSquare_pointwise (hρ : (exact c files).Holds g ρ) (h : isSquare files g node = some x)
    (hnode : g.node? id = some node) (hout : node.outputs[0]? = some v) :
    Pointwise (fun e => e ^ 2) (ρ x) (ρ v) := by
  have hop := hρ.nodes _ _ hnode
  change Exact.op c node.op _ _ at hop
  unfold isSquare at h
  split at h
  · rename_i hmul
    rw [hmul] at hop
    split at h
    · rename_i lhs rhs hins
      split at h
      · rename_i heq
        obtain rfl := Option.some.inj h
        rw [heq] at hins
        have hbin := hop.of_inputs (by rw [hins]; rfl) (by rw [hins]; rfl) hout
        simpa only [← pow_two, heq] using hbin.pointwise_self
      · cases h
    · cases h
  · rename_i hpow
    rw [hpow] at hop
    obtain ⟨exp, hexp, h⟩ := Option.bind_eq_some_iff.mp h
    obtain ⟨t, ht, h⟩ := Option.bind_eq_some_iff.mp h
    obtain ⟨sd, hsd, h⟩ := Option.bind_eq_some_iff.mp h
    split at h
    · rename_i htwo
      have hdata := data_of_scalar hρ ht hsd
      rw [ScalarData.real_of_matchesNat (.inr (.inl rfl)) htwo] at hdata
      have hbin := hop.of_inputs (Option.join_eq_some_iff.mp h) (Option.join_eq_some_iff.mp hexp) hout
      simpa only [Real.rpow_natCast] using hbin.pointwise hdata
    · cases h
  · cases h

theorem isReduceMeanLastAxis_eq {n : Nat} (h : isReduceMeanLastAxis node n = .ok true) :
    ∃ axis, node.op = .reduceMean ⟨[axis], true⟩ ∧ n ≠ 0 ∧ TensorIndex.index ⟨axis⟩ n = n - 1 := by
  unfold isReduceMeanLastAxis at h
  split at h
  · rename_i axis hop
    split at h
    · cases h
    · rename_i hn
      exact ⟨axis, hop, hn, beq_iff_eq.mp (Except.ok.inj h)⟩
  · cases h

/-- The inverse of the root. -/
theorem reciprocal_pointwise (hρ : (exact c files).Holds g ρ)
    (h : m.Next g (isReciprocal files g) m' node) :
    Pointwise (fun e => e⁻¹) (ρ m.currentValue) (ρ m'.currentValue) := by
  have hpred := h.2.2
  unfold isReciprocal at hpred
  split at hpred
  · rename_i hop
    obtain ⟨rhs, hrhs, hpred⟩ := orPanic_bind_eq_ok hpred
    split at hpred
    · rename_i heq
      obtain ⟨lhs, hlhs, hone⟩ := orPanic_map_eq_ok hpred
      have hnode := hρ.nodes _ _ h.1.1
      rw [hop] at hnode
      have hbin := (hnode.of_inputs (Option.join_eq_some_iff.mp hlhs) (Option.join_eq_some_iff.mp hrhs)
        h.1.2).symm.pointwise (isOne_data hρ hone)
      rw [heq] at hbin
      simpa only [one_div] using hbin
    · cases hpred
  · rename_i hop
    have hunary := h.unary hρ (congrArg (Exact.op c) hop)
    rw [hunary]
    exact pointwise_unary _ _
  · cases hpred

/-- The scaled value is the output of a `Cast`, which the replacement leaves out. -/
def LeavesCast (g : Graph) (plan : RMSNormPattern) (target : DataType) : Prop :=
  ∃ last castId cast pre, g.node? plan.lastNode = some last ∧
    (last.inputs = [some pre, some plan.scale] ∨ last.inputs = [some plan.scale, some pre]) ∧
    g.node? castId = some cast ∧ cast.op = .cast target ∧ cast.outputs[0]? = some pre

/-- What the nodes that the search has found compute. -/
structure Computes (g : Graph) (plan : RMSNormPattern) (ty : ResolvedTensorType) (out : ValueId)
    (ρ : ValueId → Exact.Arr) (axis : Int64) (sq recip norm pre : ValueId) : Prop where
  type : g.getResolvedTensorType plan.input = some ty
  rank : ty.dims.length ≠ 0
  lastAxis : TensorIndex.index ⟨axis⟩ ty.dims.length = ty.dims.length - 1
  square : Pointwise (fun e => e ^ 2) (ρ plan.input) (ρ sq)
  root : Pointwise (fun m => (√(m + plan.epsilon.real))⁻¹)
    (Exact.meanAxis true (TensorIndex.index ⟨axis⟩ (ρ sq).shape.length) (ρ sq)) (ρ recip)
  normalized : Binary (· * ·) (ρ recip) (ρ plan.input) (ρ norm)
  cast : pre = norm ∨ ∃ target, LeavesCast g plan target ∧ (∀ t, target = .float t → ρ pre = ρ norm)
  scaled : Binary (· * ·) (ρ pre) (ρ plan.scale) (ρ out)

theorem computes (hst : Consistent st) (hρ : (exact c files).Holds st.graph ρ)
    (h : (matchPattern files st id).Finds plan) : ∃ last out ty axis sq recip norm pre,
      st.graph.node? plan.lastNode = some last ∧ last.outputs[0]? = some out ∧
      Computes st.graph plan ty out ρ axis sq recip norm pre := by
  unfold matchPattern at h
  simp only [Match.finds_bind, Match.finds_unwrap, Match.finds_ofOption, Match.finds_pure] at h
  obtain ⟨square, hsquare, x, hx, ty, hty, m, hm, mean, hmean, add, hadd, sqrt, hsqrt, recip, hrecip,
    recip', hrecip', norm, hnorm, pre, hpre, last, hlast, lastNode, hlastNode, scale, hscale,
    addNode, haddNode, epsValue, heps, t, ht, sd, hsd, ε, hε, rfl⟩ := h
  obtain ⟨square', hsquare', hsq, -⟩ := PatternMatcher.finds_new hm
  obtain rfl := Option.some.inj (hsquare.symm.trans hsquare')
  obtain ⟨meanNode, hmean⟩ := PatternMatcher.finds_andThen hst hmean
  obtain ⟨axis, hmeanOp, hrank, haxis⟩ := isReduceMeanLastAxis_eq hmean.2.2
  obtain ⟨addNode', hadd⟩ := PatternMatcher.finds_andThen hst hadd
  obtain rfl := Option.some.inj (haddNode.symm.trans hadd.1.1)
  have haddOp := beq_iff_eq.mp (Except.ok.inj hadd.2.2)
  obtain ⟨sqrtNode, hsqrt⟩ := PatternMatcher.finds_andThen hst hsqrt
  have hsqrtOp := beq_iff_eq.mp (Except.ok.inj hsqrt.2.2)
  obtain ⟨recipNode, hrecip⟩ := PatternMatcher.finds_andThen hst hrecip
  obtain ⟨normNode, hnorm⟩ := PatternMatcher.finds_andThen hst hnorm
  obtain ⟨x', hxx, hnormalized⟩ := hnorm.with hρ rfl mul_comm
  obtain rfl := beq_iff_eq.mp hxx
  obtain ⟨lastNode', hlast⟩ := PatternMatcher.finds_andThen hst hlast
  obtain rfl := Option.some.inj (hlastNode.symm.trans hlast.1.1)
  have hlastOp := beq_iff_eq.mp (Except.ok.inj hlast.2.2)
  -- the constant that is added
  obtain ⟨ety, rfl⟩ : ∃ ety, sd = .float ety ε := by
    cases sd <;> cases hε
    exact ⟨_, rfl⟩
  have hepsData : (ρ epsValue).data = [F64.real ε] := data_of_scalar hρ ht hsd
  -- from the mean to its inverse root
  have hsum := (hadd.other hρ (congrArg (Exact.op c) haddOp) add_comm heps).pointwise hepsData
  have hroot : Pointwise Real.sqrt (ρ add.currentValue) (ρ sqrt.currentValue) := by
    rw [hsqrt.unary hρ (congrArg (Exact.op c) hsqrtOp)]
    exact pointwise_unary _ _
  have hinv := (hsum.trans hroot).trans (reciprocal_pointwise hρ hrecip)
  have hinv' : Pointwise (fun m => (√(m + F64.real ε))⁻¹) (ρ mean.currentValue) (ρ recip'.currentValue) := by
    rcases PatternMatcher.finds_orStay hst hrecip' with rfl | ⟨node, hone⟩
    · exact hinv
    · obtain ⟨v, hv, hmul⟩ := hone.with hρ rfl mul_comm
      simpa only [mul_one] using hinv.trans (hmul.pointwise (isOne_data hρ hv))
  rw [(hmean.mean hρ hmeanOp).2] at hinv'
  have hscaled := hlast.other hρ (congrArg (Exact.op c) hlastOp) mul_comm hscale
  refine ⟨lastNode, last.currentValue, ty, axis, m.currentValue, recip'.currentValue, norm.currentValue,
    pre.currentValue, hlastNode, hlast.1.2, ⟨hty, hrank, haxis,
    isSquare_pointwise hρ hx hsquare hsq, hinv', hnormalized, ?_, hscaled⟩⟩
  · rcases PatternMatcher.finds_orStay hst hpre with rfl | ⟨castNode, hcast⟩
    · exact .inl rfl
    · have hop := Except.ok.inj hcast.2.2
      split at hop
      · rename_i target hop'
        refine .inr ⟨target, ⟨lastNode, pre.lastNode, castNode, pre.currentValue, hlastNode,
          extractOtherBinaryInput_eq hscale, hcast.1.1, hop', hcast.1.2⟩, ?_⟩
        rintro t rfl
        exact hcast.unary hρ (congrArg (Exact.op c) hop')
      · cases hop

/-- The scale, the type of the result and the casts are as for the operator. -/
structure Fits (g : Graph) (plan : RMSNormPattern) (ty : ResolvedTensorType) : Prop where
  input : g.getResolvedTensorType plan.input = some ty
  result : ∃ last out, g.node? plan.lastNode = some last ∧ last.outputs[0]? = some out ∧
    g.getResolvedTensorType out = some ty
  scale : ∃ s, g.getResolvedTensorType plan.scale = some s ∧ s.dims = [ty.dims.getD (ty.dims.length - 1) 0]
  casts : ∀ target, LeavesCast g plan target → ∃ t, target = .float t ∧ ty.elemType = .float t

/-- What is found computes the operator. -/
theorem Computes.isRMSNorm {ty : ResolvedTensorType} {out sq recip norm pre : ValueId} {axis : Int64}
    (h : Computes g plan ty out ρ axis sq recip norm pre) (hρ : (exact c files).Holds g ρ)
    (hfits : Fits g plan ty) (hout : g.getResolvedTensorType out = some ty) :
    Exact.IsRMSNorm (TensorIndex.index ⟨-1⟩ (ρ plan.input).shape.length) plan.epsilon.real (ρ plan.input)
      (ρ plan.scale) (ρ out) := by
  obtain ⟨s, hs, hdims⟩ := hfits.scale
  have hx : (ρ plan.input).shape = ty.dims := hρ.types _ _ h.type
  have hy : (ρ out).shape = ty.dims := hρ.types _ _ hout
  have hscale : (ρ plan.scale).shape = s.dims := hρ.types _ _ hs
  have hpre : ρ pre = ρ norm := by
    rcases h.cast with rfl | ⟨target, hleaves, hfloat⟩
    · rfl
    · obtain ⟨t, ht, -⟩ := hfits.casts target hleaves
      exact hfloat t ht
  have hscaled := h.scaled
  rw [hpre] at hscaled
  -- the mean keeps the rank, and no operand raises it
  have hsq : (ρ sq).shape.length = ty.dims.length := by
    have hle := h.square.broadcasts.1
    have hle₁ := h.root.broadcasts.1
    have hle₂ := Nat.le_trans h.normalized.length_left hscaled.length_left
    rw [hx] at hle
    rw [hy] at hle₂
    rw [Exact.meanAxis_length] at hle₁
    omega
  have hlast := TensorIndex.index_last h.rank h.lastAxis
  have hrecip := h.root
  rw [hsq, h.lastAxis, ← hlast, ← hx] at hrecip
  refine Exact.isRMSNorm_of_steps ?_ h.square hrecip h.normalized hscaled (hy.trans hx.symm) ?_
  · rw [hx, hlast]
    exact Nat.sub_add_cancel (Nat.pos_of_ne_zero h.rank)
  · rw [hx, hlast, hscale, hdims, Exact.drop_lastAxis (Nat.sub_add_cancel (Nat.pos_of_ne_zero h.rank))]

theorem apply_eq_ok (hok : apply st plan = .ok st') : ∃ last out, st.graph.node? plan.lastNode = some last ∧
    last.outputs[0]? = some out ∧
    st.replaceByNode out s!"RMSNormFusion_Output_{debugId plan.lastNode}"
      s!"RMSNormFusion_{debugId plan.lastNode}" [some plan.input, some plan.scale]
      (.rmsNormalization { axis := ⟨-1⟩, epsilon := plan.epsilon }) = .ok st' := by
  obtain ⟨last, hlast, hok⟩ := orPanic_bind_eq_ok hok
  obtain ⟨out, hout, hok⟩ := orPanic_bind_eq_ok hok
  exact ⟨last, out, hlast, hout, hok⟩

/-- The operands of the new node are in the graph. -/
theorem inputs_lt (hst : Intact st) (h : (matchPattern files st id).Finds plan) :
    ∀ v, some v ∈ [some plan.input, some plan.scale] → v < st.graph.values.length := by
  unfold matchPattern at h
  simp only [Match.finds_bind, Match.finds_unwrap, Match.finds_ofOption, Match.finds_pure] at h
  obtain ⟨-, -, x, -, ty, hty, -, -, -, -, -, -, -, -, -, -, -, -, -, -, pre, -, last, -, lastNode, hlast, scale,
    hscale, -, -, -, -, -, -, -, -, -, -, rfl⟩ := h
  intro v hv
  simp only [List.mem_cons, Option.some.injEq, List.not_mem_nil, or_false] at hv
  rcases hv with rfl | rfl
  · exact type_lt hty
  · refine hst.inRange.inputs _ _ hlast v ?_
    rcases extractOtherBinaryInput_eq hscale with hins | hins <;> simp [hins]

theorem visit_keeps (hst : Intact st) (hfits : ∀ plan, (matchPattern files st id).Finds plan →
      ∃ ty, Fits st.graph plan ty) (hok : visit files st id = .ok st') : Keeps (exact c files) st st' := by
  rcases fuse_eq_ok hok with rfl | ⟨plan, hplan, hok⟩
  · exact .refl _ _
  · obtain ⟨ty, hty⟩ := hfits plan hplan
    obtain ⟨last, out, hlast, hout, hok⟩ := apply_eq_ok hok
    refine (keeps_replaceByNode hst (inputs_lt hst hplan) (fun ρ hρ => ?_) hok).1
    obtain ⟨last', out', ty', axis, sq, recip, norm, pre, hlast', hout', hcomputes⟩ :=
      computes hst.consistent hρ hplan
    obtain rfl := Option.some.inj (hlast.symm.trans hlast')
    obtain rfl := Option.some.inj (hout.symm.trans hout')
    obtain rfl := Option.some.inj (hty.input.symm.trans hcomputes.type)
    obtain ⟨last₂, out₂, hlast₂, hout₂, hty₂⟩ := hty.result
    obtain rfl := Option.some.inj (hlast.symm.trans hlast₂)
    obtain rfl := Option.some.inj (hout.symm.trans hout₂)
    exact ⟨_, _, _, rfl, rfl, hcomputes.isRMSNorm hρ hty hty₂⟩

theorem visit_intact (hst : Intact st) (hok : visit files st id = .ok st') :
    Intact st' ∧ st.graph.values.length ≤ st'.graph.values.length := by
  rcases fuse_eq_ok hok with rfl | ⟨plan, hplan, hok⟩
  · exact ⟨hst, Nat.le_refl _⟩
  · obtain ⟨last, out, -, -, hok⟩ := apply_eq_ok hok
    exact replaceByNode_intact hst (inputs_lt hst hplan) hok

/-- The turn keeps the meaning, the casts that do something, and the declared type, which is the one of the
operator; its scale is a vector of the last axis' size. -/
structure Sound (files : Onnx.Files) (M : Meaning Exact.Arr) (st : GraphState) (id : NodeId) (st' : GraphState) :
    Prop where
  keeps : Keeps M st st'
  casts : ∀ plan, (matchPattern files st id).Finds plan → ∀ target, LeavesCast st.graph plan target →
    ∃ ty t, st.graph.getResolvedTensorType plan.input = some ty ∧ target = .float t ∧ ty.elemType = .float t
  declared : ∀ plan, (matchPattern files st id).Finds plan →
    st'.graph.getResolvedTensorType st.graph.values.length = st'.graph.getResolvedTensorType plan.input
  scale : ∀ plan, (matchPattern files st id).Finds plan → ∃ ty s,
    st.graph.getResolvedTensorType plan.input = some ty ∧ st.graph.getResolvedTensorType plan.scale = some s ∧
      s.dims = [ty.dims.getD (ty.dims.length - 1) 0]

/-- What is found is rewritten. -/
theorem apply_of_finds (hplan : (matchPattern files st id).Finds plan) (hok : visit files st id = .ok st') :
    apply st plan = .ok st' := by
  unfold visit fuse at hok
  rw [hplan] at hok
  exact hok

theorem visit_sound (hst : Intact st) (hok : visit files st id = .ok st') :
    Sound files (exact c files) st id st' ↔
      ∀ plan, (matchPattern files st id).Finds plan → ∃ ty, Fits st.graph plan ty := by
  constructor
  · intro h plan hplan
    obtain ⟨last, out, hlast, hout, happly⟩ := apply_eq_ok (apply_of_finds hplan hok)
    obtain ⟨ty, s, hty, hs, hdims⟩ := h.scale plan hplan
    obtain ⟨hnew, hsame⟩ := replaceByNode_type hst.consistent happly
    have hdeclared := h.declared plan hplan
    rw [hnew, hsame plan.input (type_lt hty), hty] at hdeclared
    refine ⟨ty, hty, ⟨last, out, hlast, hout, hdeclared⟩, ⟨s, hs, hdims⟩, fun target hleaves => ?_⟩
    obtain ⟨ty', t, hty', htarget, helem⟩ := h.casts plan hplan target hleaves
    obtain rfl := Option.some.inj (hty.symm.trans hty')
    exact ⟨t, htarget, helem⟩
  · intro h
    refine ⟨visit_keeps hst h hok, fun plan hplan target hleaves => ?_, fun plan hplan => ?_,
      fun plan hplan => ?_⟩ <;> obtain ⟨ty, hfits⟩ := h plan hplan
    · obtain ⟨t, htarget, helem⟩ := hfits.casts target hleaves
      exact ⟨ty, t, hfits.input, htarget, helem⟩
    · obtain ⟨last, out, hlast, hout, happly⟩ := apply_eq_ok (apply_of_finds hplan hok)
      obtain ⟨last', out', hlast', hout', hty⟩ := hfits.result
      obtain rfl := Option.some.inj (hlast.symm.trans hlast')
      obtain rfl := Option.some.inj (hout.symm.trans hout')
      obtain ⟨hnew, hsame⟩ := replaceByNode_type hst.consistent happly
      rw [hnew, hsame plan.input (type_lt hfits.input), hty, hfits.input]
    · obtain ⟨s, hs, hdims⟩ := hfits.scale
      exact ⟨ty, s, hfits.input, hs, hdims⟩

theorem turns_intact (hst : Intact st) {l : List NodeId} :
    ∀ t ∈ passTurns (visit files) st l, Intact t.1 ∧ t.2.1 ∈ l ∧ visit files t.1 t.2.1 = .ok t.2.2 :=
  passTurns_induct (fun _ _ _ h _ hok => (visit_intact h hok).1) hst

/-- The replacements of a run are sound if the scales, the casts and the types are as for the operator. -/
theorem rmsNormFusion_sound_iff (hst : Intact st) :
    (∀ t ∈ passTurns (visit files) st (squareNodes files st.graph),
        Sound files (exact c files) t.1 t.2.1 t.2.2) ↔
      ∀ t ∈ passTurns (visit files) st (squareNodes files st.graph),
        ∀ plan, (matchPattern files t.1 t.2.1).Finds plan → ∃ ty, Fits t.1.graph plan ty := by
  refine forall₂_congr fun t ht => ?_
  obtain ⟨hI, -, hok⟩ := turns_intact hst t ht
  exact visit_sound hI hok

/-- Such a run keeps the meaning of the graph. -/
theorem rmsNormFusion_keeps (hst : Intact st)
    (h : ∀ t ∈ passTurns (visit files) st (squareNodes files st.graph),
      ∀ plan, (matchPattern files t.1 t.2.1).Finds plan → ∃ ty, Fits t.1.graph plan ty)
    (hrun : run files st = .ok st') : Keeps (exact c files) st st' := by
  refine keeps_of_passTurns (fun t ht => ?_) hrun
  obtain ⟨hI, -, hok⟩ := turns_intact hst t ht
  exact ⟨visit_keeps hI (h t ht) hok, (visit_intact hI hok).2⟩

/-- A normalisation with a scale of these dims. -/
def normGraph (scaleDims : List Nat) : Graph where
  nodes :=
    [{ inputs := [], outputs := [0], name := "x", op := .input 0, markAsDeleted := false },
      { inputs := [], outputs := [1], name := "w", op := .input 1, markAsDeleted := false },
      { inputs := [some 0, some 0], outputs := [3], name := "sq", op := .mul, markAsDeleted := false },
      { inputs := [some 3], outputs := [4], name := "mean", op := .reduceMean ⟨[-1], true⟩,
        markAsDeleted := false },
      { inputs := [some 4, some 2], outputs := [5], name := "add", op := .add, markAsDeleted := false },
      { inputs := [some 5], outputs := [6], name := "root", op := .sqrt, markAsDeleted := false },
      { inputs := [some 6], outputs := [7], name := "inv", op := .reciprocal, markAsDeleted := false },
      { inputs := [some 0, some 7], outputs := [8], name := "norm", op := .mul, markAsDeleted := false },
      { inputs := [some 8, some 1], outputs := [9], name := "z", op := .mul, markAsDeleted := false },
      { inputs := [some 9], outputs := [], name := "z", op := .output 9, markAsDeleted := false }]
  inputs := [0, 1]
  outputs := [9]
  values :=
    [{ name := "x", ty := some (.resolved (.new (.float .F32) [2, 2])) },
      { name := "w", ty := some (.resolved (.new (.float .F32) scaleDims)) },
      { name := "e", ty := some (.resolved (.new (.float .F32) [])) },
      { name := "sq", ty := some (.resolved (.new (.float .F32) [2, 2])) },
      { name := "mean", ty := some (.resolved (.new (.float .F32) [2, 1])) },
      { name := "add", ty := some (.resolved (.new (.float .F32) [2, 1])) },
      { name := "root", ty := some (.resolved (.new (.float .F32) [2, 1])) },
      { name := "inv", ty := some (.resolved (.new (.float .F32) [2, 1])) },
      { name := "norm", ty := some (.resolved (.new (.float .F32) [2, 2])) },
      { name := "z", ty := some (.resolved (.new (.float .F32) [2, 2])) }]
  initializer := fun v => if v = 2 then some (scalarTensor (.ofNat 0)) else none
  externalRefs := fun _ => none

theorem normGraph_intact (scaleDims : List Nat) : Intact (.new (normGraph scaleDims)) := by
  refine intact_new rfl (fun v t h => ?_) fun _ _ h => by cases h
  change (if v = 2 then _ else _) = _ at h
  split at h
  · rename_i hv
    rw [hv]
    show 2 < 10
    decide
  · cases h

/-- What the search finds. -/
theorem normGraph_finds (scaleDims : List Nat) :
    (matchPattern (fun _ => none) (.new (normGraph scaleDims)) 2).Finds
      { lastNode := 8, input := 0, scale := 1, epsilon := .ofNat 0 } := rfl

example : squareNodes (fun _ => none) (normGraph [2]) = [2] := by decide

/-- A scale of the last axis' size is fused. -/
theorem normGraph_sound :
    (passTurns (visit fun _ => none) (.new (normGraph [2])) (squareNodes (fun _ => none) (normGraph [2]))).length = 1 ∧
    ∀ t ∈ passTurns (visit fun _ => none) (.new (normGraph [2])) (squareNodes (fun _ => none) (normGraph [2])),
      Sound (fun _ => none) (exact ⟨0, 0, 0, 0⟩ fun _ => none) t.1 t.2.1 t.2.2 := by
  refine ⟨rfl, (rmsNormFusion_sound_iff (normGraph_intact [2])).mpr fun t ht plan hplan => ?_⟩
  obtain rfl := List.mem_singleton.mp ht
  obtain rfl := Option.some.inj (Except.ok.inj (hplan.symm.trans (normGraph_finds [2])))
  refine ⟨.new (.float .F32) [2, 2], rfl, ⟨_, 9, rfl, rfl, rfl⟩, ⟨.new (.float .F32) [2], rfl, rfl⟩, ?_⟩
  rintro target ⟨last, castId, cast, pre, hlast, hins, hcast, hop, hout⟩
  have hlt : castId < 10 := (List.getElem?_eq_some_iff.mp (node?_eq_some.mp hcast).1).1
  interval_cases castId <;> obtain rfl := Option.some.inj hcast <;> cases hop

/-- The run keeps the normalisation. -/
theorem rmsGraph_kept : ∃ st', run (fun _ => none) (.new (normGraph [2])) = .ok st' ∧
    Keeps (exact ⟨0, 0, 0, 0⟩ fun _ => none) (.new (normGraph [2])) st' := by
  refine ⟨_, rfl, rmsNormFusion_keeps (normGraph_intact [2]) (fun t ht plan hplan => ?_) rfl⟩
  obtain rfl := List.mem_singleton.mp ht
  obtain rfl := Option.some.inj (Except.ok.inj (hplan.symm.trans (normGraph_finds [2])))
  refine ⟨.new (.float .F32) [2, 2], rfl, ⟨_, 9, rfl, rfl, rfl⟩, ⟨.new (.float .F32) [2], rfl, rfl⟩, ?_⟩
  rintro target ⟨last, castId, cast, pre, hlast, hins, hcast, hop, hout⟩
  have hlt : castId < 10 := (List.getElem?_eq_some_iff.mp (node?_eq_some.mp hcast).1).1
  interval_cases castId <;> obtain rfl := Option.some.inj hcast <;> cases hop

/-- Ones everywhere, and the constant. -/
noncomputable def normValues : ValueId → Exact.Arr
  | 2 => fill [] 0
  | 4 | 5 | 6 | 7 => fill [2, 1] 1
  | _ => fill [2, 2] 1

theorem normValues_holds : (exact ⟨0, 0, 0, 0⟩ fun _ => none).Holds (normGraph [2, 2]) normValues where
  nodes id node hnode := by
    have hlt : id < 10 := (List.getElem?_eq_some_iff.mp (node?_eq_some.mp hnode).1).1
    have hmul {s : List Nat} (h : broadcastShape [2, 2] s = .ok [2, 2]) :
        Binary (fun a b : ℝ => a * b) (fill [2, 2] 1) (fill s 1) (fill [2, 2] 1) := by
      simpa using binary_fill (fun a b : ℝ => a * b) h 1 1
    interval_cases id <;> obtain rfl := Option.some.inj hnode
    · trivial
    · trivial
    · exact ⟨_, _, _, rfl, rfl, hmul rfl⟩
    · have hmean : Exact.meanAxis true 1 (fill [2, 2] 1) = fill [2, 1] 1 :=
        Exact.meanAxis_fill (n := 2) rfl two_ne_zero 1
      exact ⟨_, [], _, rfl, nofun, rfl, by decide, hmean.symm⟩
    · have hadd : Binary (fun a b : ℝ => a + b) (fill [2, 1] 1) (fill [] 0) (fill [2, 1] (1 + 0)) :=
        binary_fill _ rfl 1 0
      rw [add_zero] at hadd
      exact ⟨_, _, _, rfl, rfl, hadd⟩
    · exact ⟨_, _, rfl, rfl, by simp [normValues, unary_fill]⟩
    · exact ⟨_, _, rfl, rfl, by simp [normValues, unary_fill]⟩
    · exact ⟨_, _, _, rfl, rfl, hmul rfl⟩
    · exact ⟨_, _, _, rfl, rfl, hmul rfl⟩
    · trivial
  constants v t h := by
    change (if v = 2 then _ else _) = _ at h
    split at h
    · rename_i hv
      obtain rfl := Option.some.inj h
      rw [hv]
      exact Exact.isConstant_scalarTensor rfl
    · cases h
  externals v r h := by cases h
  types v ty h := by
    have hlt : v < 10 := type_lt h
    interval_cases v <;> obtain rfl := Option.some.inj h <;> rfl

/-- A gate of the size of the input is taken for the scale. -/
theorem normGraph_not_sound : Intact (.new (normGraph [2, 2])) ∧
    ∃ st', run (fun _ => none) (.new (normGraph [2, 2])) = .ok st' ∧
      ¬Keeps (exact ⟨0, 0, 0, 0⟩ fun _ => none) (.new (normGraph [2, 2])) st' ∧
      ¬∀ t ∈ passTurns (visit fun _ => none) (.new (normGraph [2, 2]))
          (squareNodes (fun _ => none) (normGraph [2, 2])),
        Sound (fun _ => none) (exact ⟨0, 0, 0, 0⟩ fun _ => none) t.1 t.2.1 t.2.2 := by
  refine ⟨normGraph_intact _, _, rfl, ?_⟩
  rw [← not_or]
  intro h
  have hkeeps := h.elim id fun hall => (hall _ (List.mem_singleton.mpr rfl)).keeps
  obtain ⟨ρ', hρ', hagree, -⟩ := hkeeps normValues normValues_holds
  -- the node of the operator asks for a vector
  obtain ⟨x, scale, y, hins, -, hscale, -⟩ := hρ'.nodes 10 _ rfl
  obtain rfl := Exact.input_eq (k := 0) (v := 0) hins rfl rfl
  obtain rfl := Exact.input_eq (k := 1) (v := 1) hins rfl rfl
  rw [hagree 0 (by decide), hagree 1 (by decide)] at hscale
  cases hscale

end RMSNormFusion
end NnEngine
