import NnEngine.Graph.Exact
import NnEngine.Transform.Pattern

/-!
# Fusion of a convolution and a batch normalisation

`ConvBNFusion` of `src/transform/optimize/conv_bn_fusion.rs`.  The new weight and the new bias are computed
by the same functions on floats and, for the meaning, on real numbers.  A bias of the convolution that is
not a vector of floats among the initializers is dropped: `convBNFusion_sound_iff`.
-/

namespace NnEngine

open DepthFirst InverseIndex SimpleGraphOp GraphState NdArray

namespace ConvBNFusion

section Fold

variable {α : Type}

/-- `multiplier`. -/
def multiplier [Add α] [Div α] (sqrt : α → α) (ε : α) (scale var : List α) : List α :=
  List.zipWith (fun s v => s / sqrt (v + ε)) scale var

/-- `chunks`; the last one may be shorter. -/
def chunks (k : Nat) (l : List α) : List (List α) :=
  (List.range ((l.length + k - 1) / k)).map fun i => (l.drop (i * k)).take k

/-- `new_weight_data`. -/
def newWeightData [Mul α] (channelSize : Nat) (weightData multiplier : List α) : List α :=
  ((chunks channelSize weightData).zip multiplier).flatMap fun x => x.1.map fun w => w * x.2

/-- An element of `new_bias_data`. -/
def newBias [Add α] [Sub α] [Mul α] (bias mean m : α) (convBias : Option α) : α :=
  let base := bias - mean * m
  match convBias with
  | some cb => base + cb * m
  | none => base

/-- `new_bias_data`. -/
def newBiasData [Add α] [Sub α] [Mul α] (bias mean multiplier : List α) (oldConvBias : Option (List α))
    (numChannels : Nat) : Except Stop (List α) :=
  (List.range numChannels).mapM fun c =>
    (orPanic bias[c]?).bind fun b =>
      (orPanic mean[c]?).bind fun μ =>
        (orPanic multiplier[c]?).bind fun m =>
          match oldConvBias with
          | some cb => (orPanic cb[c]?).map fun x => newBias b μ m (some x)
          | none => .ok (newBias b μ m none)

end Fold

variable (files : Onnx.Files)

/-- `find_bn_user`. -/
def findBnUser (st : GraphState) (convNode : NodeId) : Match NodeId := do
  let node ← Match.unwrap (st.graph.node? convNode)
  let convOutput ← Match.unwrap node.outputs[0]?
  let user ← Match.ofOption (match places st.maps.value2used convOutput with | [x] => some x | _ => none)
  let bnNode ← Match.unwrap (st.graph.node? user.1)
  Match.ofOption (match bnNode.op with | .batchNormalization _ => some user.1 | _ => none)

/-- `conv_bias_id`: `has_conv_bias` is that there is one. -/
def convBiasId (conv : Node) : Match (Option ValueId) :=
  if args.CONV_BIAS < conv.inputs.length then do
    let v ← Match.unwrap conv.inputs[args.CONV_BIAS]?.join
    pure (some v)
  else pure none

/-- What the loop of `run` reads before it computes. -/
structure Plan where
  convNode : NodeId
  bnNode : NodeId
  convWeightId : ValueId
  convBiasId : Option ValueId
  bnScaleId : ValueId
  bnBiasId : ValueId
  bnMeanId : ValueId
  bnVarId : ValueId
  epsilon : F64
  weightDims : ResolvedTensorDims
  floatTy : FloatType
  weightData : List F64
  scale : List F64
  bias : List F64
  mean : List F64
  var : List F64
  oldConvBias : Option (List F64)
  deriving DecidableEq, Repr

/-- The steps of the loop of `run` up to the floats. -/
def matchPattern (st : GraphState) (convNode : NodeId) : Match Plan := do
  let bnNode ← findBnUser st convNode
  let conv ← Match.unwrap (st.graph.node? convNode)
  let bn ← Match.unwrap (st.graph.node? bnNode)
  let convWeightId ← Match.unwrap conv.inputs[args.CONV_WEIGHT]?.join
  let convBiasId ← convBiasId conv
  let bnScaleId ← Match.unwrap bn.inputs[args.BATCHNORM_SCALE]?.join
  let bnBiasId ← Match.unwrap bn.inputs[args.BATCHNORM_BIAS]?.join
  let bnMeanId ← Match.unwrap bn.inputs[args.BATCHNORM_MEAN]?.join
  let bnVarId ← Match.unwrap bn.inputs[args.BATCHNORM_VAR]?.join
  let epsilon ← Match.unwrap (match bn.op with | .batchNormalization b => some b.epsilon | _ => none)
  let bnScale ← Match.ofOption (Onnx.getInitializer files st.graph bnScaleId)
  let bnBias ← Match.ofOption (Onnx.getInitializer files st.graph bnBiasId)
  let bnMean ← Match.ofOption (Onnx.getInitializer files st.graph bnMeanId)
  let bnVar ← Match.ofOption (Onnx.getInitializer files st.graph bnVarId)
  let convWeight ← Match.ofOption (Onnx.getInitializer files st.graph convWeightId)
  let scale ← Match.ofOption bnScale.to1dFloats
  let bias ← Match.ofOption bnBias.to1dFloats
  let mean ← Match.ofOption bnMean.to1dFloats
  let var ← Match.ofOption bnVar.to1dFloats
  let weight ← Match.ofOption (match convWeight.data with | .float t v => some (t, v) | _ => none)
  pure {
    convNode, bnNode, convWeightId, convBiasId, bnScaleId, bnBiasId, bnMeanId, bnVarId
    epsilon := F32.asF64 epsilon, weightDims := convWeight.dims, floatTy := weight.1, weightData := weight.2
    scale, bias, mean, var
    oldConvBias := (convBiasId.bind (Onnx.getInitializer files st.graph)).bind Tensor.to1dFloats }

namespace Plan

/-- `num_channels`. -/
def numChannels (plan : Plan) : Nat := plan.scale.length

/-- `channel_size`. -/
def channelSize (plan : Plan) : Nat := plan.weightData.length / plan.numChannels

def multiplier (plan : Plan) : List F64 := ConvBNFusion.multiplier Float.Model.sqrt plan.epsilon plan.scale plan.var

/-- `new_weight`; the division by the channels and `chunks` panic for zero. -/
def newWeight (plan : Plan) : Except Stop Tensor :=
  if plan.numChannels = 0 then .error .panic
  else if plan.channelSize = 0 then .error .panic
  else orPanic (Tensor.new plan.weightDims
    (.float plan.floatTy (newWeightData plan.channelSize plan.weightData plan.multiplier)))

/-- `new_bias_tensor`. -/
def newBiasTensor (plan : Plan) : Except Stop Tensor :=
  (newBiasData plan.bias plan.mean plan.multiplier plan.oldConvBias plan.numChannels).bind fun data =>
    orPanic (Tensor.new (.new [plan.numChannels]) (.float plan.floatTy data))

end Plan

/-- The inputs of the new node. -/
def newInputs (inputs : List (Option ValueId)) (hasConvBias : Bool) (weight bias : ValueId) :
    List (Option ValueId) :=
  let inputs := inputs.set args.CONV_WEIGHT (some weight)
  if hasConvBias then inputs.set args.CONV_BIAS (some bias) else inputs ++ [some bias]

/-- The body of the loop of `run` from the new weight on. -/
def apply (st : GraphState) (plan : Plan) : Except Stop GraphState :=
  plan.newWeight.bind fun newWeight =>
    plan.newBiasTensor.bind fun newBiasTensor =>
      let newWeightId := st.graph.values.length
      let st := st.registerNewTensor newWeight s!"ConvBNFusion_Weight_{debugId plan.convNode}"
      let newBiasId := st.graph.values.length
      let st := st.registerNewTensor newBiasTensor s!"ConvBNFusion_Bias_{debugId plan.convNode}"
      (orPanic (st.graph.node? plan.convNode)).bind fun convNode =>
        (orPanic (st.graph.node? plan.bnNode)).bind fun bnNode =>
          (orPanic bnNode.outputs[0]?).bind fun bnOutput =>
            (orPanic convNode.outputs[0]?).bind fun convOutput =>
              (orPanic (st.graph.getResolvedTensorType convOutput)).bind fun ty =>
                let (newOutput, st) := st.registerOutput s!"ConvBNFusion_Output_{debugId plan.convNode}" ty
                  s!"ConvBNFusion_{debugId plan.convNode}"
                  (newInputs convNode.inputs plan.convBiasId.isSome newWeightId newBiasId) convNode.op
                st.replaceInputValueIf bnOutput newOutput fun _ _ => true

/-- The body of the loop of `run`. -/
def visit : GraphState → NodeId → Except Stop GraphState := fuse (matchPattern files) apply

/-- The nodes that `run` collects. -/
def convNodes (g : Graph) : List NodeId :=
  (g.iter.filter fun x => match x.2.op with | .conv _ => true | _ => false).map Prod.fst

/-- `run`. -/
def run (st : GraphState) : Except Stop GraphState := (convNodes st.graph).foldlM (visit files) st

/-! ### The fold -/

section Fold

variable {α : Type} {k : Nat}

theorem chunks_cons (hk : 0 < k) {l : List α} (hl : l ≠ []) : chunks k l = l.take k :: chunks k (l.drop k) := by
  have hlen : 0 < l.length := List.length_pos_iff.mpr hl
  have hcount : (l.length + k - 1) / k = ((l.drop k).length + k - 1) / k + 1 := by
    rw [List.length_drop]
    by_cases hle : k ≤ l.length
    · rw [← Nat.add_div_right _ hk]
      congr 1
      omega
    · rw [show l.length - k + k - 1 = k - 1 by omega, Nat.div_eq_of_lt (Nat.sub_lt hk Nat.one_pos)]
      exact Nat.div_eq_of_lt_le (by omega) (by omega)
  unfold chunks
  rw [hcount, List.range_succ_eq_map, List.map_cons, List.map_map, Nat.zero_mul, List.drop_zero]
  refine congrArg _ (List.map_congr_left fun i _ => ?_)
  show (l.drop ((i + 1) * k)).take k = ((l.drop k).drop (i * k)).take k
  rw [List.drop_drop, Nat.add_mul, Nat.one_mul, Nat.add_comm]

theorem newWeightData_cons [Mul α] (hk : 0 < k) (l : List α) (m : α) (ms : List α) :
    newWeightData k l (m :: ms) = (l.take k).map (· * m) ++ newWeightData k (l.drop k) ms := by
  by_cases hl : l = []
  · subst hl
    have hempty : chunks k ([] : List α) = [] := by simp [chunks, Nat.div_eq_of_lt (Nat.sub_lt hk Nat.one_pos)]
    simp [newWeightData, hempty]
  · unfold newWeightData
    rw [chunks_cons hk hl, List.zip_cons_cons, List.flatMap_cons]

theorem newWeightData_length [Mul α] (hk : 0 < k) (l ms : List α) :
    (newWeightData k l ms).length = min l.length (k * ms.length) := by
  induction ms generalizing l with
  | nil => simp [newWeightData]
  | cons m ms ih =>
      rw [newWeightData_cons hk, List.length_append, List.length_map, List.length_take, ih, List.length_drop,
        List.length_cons, Nat.mul_succ]
      omega

/-- The element of a weight is multiplied by the number of its channel. -/
theorem newWeightData_getD [Mul α] [Zero α] (hk : 0 < k) : ∀ (l ms : List α), l.length = k * ms.length → ∀ n < l.length,
    (newWeightData k l ms).getD n 0 = l.getD n 0 * ms.getD (n / k) 0 := by
  intro l ms
  induction ms generalizing l with
  | nil =>
      intro hl n hn
      rw [hl] at hn
      exact absurd hn (Nat.not_lt_zero n)
  | cons m ms ih =>
      intro hl n hn
      rw [List.length_cons, Nat.mul_succ] at hl
      have htake : ((l.take k).map (· * m)).length = k := by
        rw [List.length_map, List.length_take]
        omega
      rw [newWeightData_cons hk]
      by_cases hnk : n < k
      · rw [List.getD_append _ _ _ _ (by omega), Nat.div_eq_of_lt hnk]
        simp [List.getD, List.getElem?_take_of_lt hnk, List.getElem?_eq_getElem hn]
      · have hle : k ≤ n := Nat.le_of_not_lt hnk
        have hdiv : n / k = (n - k) / k + 1 := by
          rw [← Nat.add_div_right _ hk, Nat.sub_add_cancel hle]
        rw [List.getD_append_right _ _ _ _ (by omega), htake,
          ih (l.drop k) (by rw [List.length_drop]; omega) (n - k) (by rw [List.length_drop]; omega), hdiv,
          List.getD_cons_succ]
        simp [List.getD, List.getElem?_drop, Nat.add_sub_cancel' hle]

theorem newBiasData_lengths [Add α] [Sub α] [Mul α] {bias mean ms out : List α} {cb : Option (List α)} {n : Nat}
    (h : newBiasData bias mean ms cb n = .ok out) :
    n ≤ bias.length ∧ n ≤ mean.length ∧ n ≤ ms.length ∧ ∀ l ∈ cb, n ≤ l.length := by
  have hall : ∀ c < n, c < bias.length ∧ c < mean.length ∧ c < ms.length ∧ ∀ l ∈ cb, c < l.length := by
    intro c hc
    obtain ⟨y, -, hy⟩ := mapM_eq_ok_of_mem h c (List.mem_range.mpr hc)
    obtain ⟨b, hb, hy⟩ := orPanic_bind_eq_ok hy
    obtain ⟨μ, hμ, hy⟩ := orPanic_bind_eq_ok hy
    obtain ⟨m, hm, hy⟩ := orPanic_bind_eq_ok hy
    refine ⟨(List.getElem?_eq_some_iff.mp hb).1, (List.getElem?_eq_some_iff.mp hμ).1,
      (List.getElem?_eq_some_iff.mp hm).1, fun l hl => ?_⟩
    obtain rfl := Option.mem_def.mp hl
    obtain ⟨x, hx, -⟩ := orPanic_map_eq_ok hy
    exact (List.getElem?_eq_some_iff.mp hx).1
  cases n with
  | zero => exact ⟨Nat.zero_le _, Nat.zero_le _, Nat.zero_le _, fun _ _ => Nat.zero_le _⟩
  | succ n => exact hall n (Nat.lt_succ_self n)

theorem newBiasData_eq [Add α] [Sub α] [Mul α] [Zero α] {bias mean ms : List α} {cb : Option (List α)} {n : Nat}
    (hbias : n ≤ bias.length) (hmean : n ≤ mean.length) (hms : n ≤ ms.length) (hcb : ∀ l ∈ cb, n ≤ l.length) :
    newBiasData bias mean ms cb n = .ok ((List.range n).map fun c =>
      newBias (bias.getD c 0) (mean.getD c 0) (ms.getD c 0) (cb.map fun l => l.getD c 0)) := by
  refine mapM_ok fun c hc => ?_
  have hget (l : List α) (hl : n ≤ l.length) : l[c]? = some (l.getD c 0) := by
    have hlt : c < l.length := Nat.lt_of_lt_of_le (List.mem_range.mp hc) hl
    simp [List.getD, List.getElem?_eq_getElem hlt]
  rw [hget bias hbias, hget mean hmean, hget ms hms]
  cases cb with
  | none => rfl
  | some l =>
      show (orPanic l[c]?).map _ = _
      rw [hget l (hcb l rfl)]
      rfl

end Fold

section Exact

/-- The arrays of the new weight and the new bias are the ones that the pass computes, on real numbers. -/
structure Folded (ε : ℝ) (oldConvBias : Option Exact.Arr) (w scale bias mean var w' b' : Exact.Arr) : Prop where
  weightShape : w'.shape = w.shape
  weightData : w'.data = newWeightData (w.data.length / scale.data.length) w.data
    (multiplier Real.sqrt ε scale.data var.data)
  biasShape : b'.shape = [scale.data.length]
  biasData : newBiasData bias.data mean.data (multiplier Real.sqrt ε scale.data var.data)
    (oldConvBias.map NdArray.data) scale.data.length = .ok b'.data

variable {ε : ℝ} {w scale bias mean var w' b' x y z : Exact.Arr} {b : Option Exact.Arr} {m ch : Nat} {cv : Conv}

theorem length_of_vector (h : x.shape = [m]) : x.data.length = m := by
  rw [x.hsize, h, List.prod_singleton]

theorem get_of_vector (h : x.shape = [m]) (i : Nat) : x.get [i] = x.data.getD i 0 := by
  unfold NdArray.get NdArray.at?
  rw [h]
  simp [rowMajor, List.getD]

theorem multiplier_getD (hscale : scale.shape = [m]) (hvar : var.shape = [m]) (hch : ch < m) :
    (multiplier Real.sqrt ε scale.data var.data).getD ch 0 = scale.get [ch] / √(var.get [ch] + ε) := by
  have hs : ch < scale.data.length := by rwa [length_of_vector hscale]
  have hv : ch < var.data.length := by rwa [length_of_vector hvar]
  rw [get_of_vector hscale, get_of_vector hvar]
  simp [multiplier, List.getD, List.getElem?_zipWith, List.getElem?_eq_getElem hs, List.getElem?_eq_getElem hv]

theorem multiplier_length (hscale : scale.shape = [m]) (hvar : var.shape = [m]) :
    (multiplier Real.sqrt ε scale.data var.data).length = m := by
  simp [multiplier, length_of_vector hscale, length_of_vector hvar]

/-- The weights of a channel are multiplied by its number. -/
theorem Folded.weight_get (h : Folded ε b w scale bias mean var w' b') {inner rest : List Nat}
    (hw : w.shape = m :: inner) (hscale : scale.shape = [m]) (hvar : var.shape = [m]) (hch : ch < m)
    (hrest : Inside rest inner) :
    w'.get (ch :: rest) = w.get (ch :: rest) * (scale.get [ch] / √(var.get [ch] + ε)) := by
  have hinner := rowMajor_lt hrest
  have hlen : w.data.length = inner.prod * m := by rw [w.hsize, hw, List.prod_cons, Nat.mul_comm]
  have hsize : w.data.length / scale.data.length = inner.prod := by
    rw [length_of_vector hscale, hlen]
    exact Nat.mul_div_cancel _ (Nat.zero_lt_of_lt hch)
  have hpos : 0 < inner.prod := Nat.zero_lt_of_lt hinner
  have hlt : ch * inner.prod + rowMajor inner rest < w.data.length := by
    have hle := Nat.mul_le_mul_left inner.prod (Nat.succ_le_of_lt hch)
    rw [Nat.mul_succ, Nat.mul_comm inner.prod ch] at hle
    omega
  have hdiv : (ch * inner.prod + rowMajor inner rest) / inner.prod = ch := by
    rw [Nat.add_comm, Nat.add_mul_div_right _ _ hpos, Nat.div_eq_of_lt hinner, Nat.zero_add]
  have hdata := newWeightData_getD hpos w.data (multiplier Real.sqrt ε scale.data var.data)
    (by rw [multiplier_length hscale hvar, hlen]) _ hlt
  rw [hdiv, multiplier_getD hscale hvar hch] at hdata
  unfold NdArray.get NdArray.at?
  rw [h.weightShape, h.weightData, hsize, hw]
  exact hdata

theorem Folded.bias_get (h : Folded ε b w scale bias mean var w' b') (hscale : scale.shape = [m])
    (hbias : bias.shape = [m]) (hmean : mean.shape = [m]) (hvar : var.shape = [m]) (hb : ∀ b₀ ∈ b, b₀.shape = [m])
    (hch : ch < m) :
    b'.get [ch] = newBias (bias.get [ch]) (mean.get [ch]) (scale.get [ch] / √(var.get [ch] + ε))
      (b.map fun b₀ => b₀.get [ch]) := by
  have hn := length_of_vector hscale
  have hdata := h.biasData
  rw [hn, newBiasData_eq (Nat.le_of_eq (length_of_vector hbias).symm) (Nat.le_of_eq (length_of_vector hmean).symm)
    (Nat.le_of_eq (multiplier_length hscale hvar).symm) fun l hl => ?_] at hdata
  · rw [get_of_vector (h.biasShape.trans (congrArg (fun n => [n]) hn)), ← Except.ok.inj hdata,
      ← multiplier_getD hscale hvar hch, get_of_vector hbias, get_of_vector hmean]
    have hvec : (b.map fun b₀ => b₀.get [ch]) = (b.map NdArray.data).map fun l => l.getD ch 0 := by
      rw [Option.map_map]
      refine Option.map_congr fun b₀ hb₀ => ?_
      exact get_of_vector (hb b₀ hb₀) ch
    rw [hvec]
    simp [List.getD, hch]
  · obtain ⟨b₀, hb₀, rfl⟩ := Option.mem_map.mp hl
    exact Nat.le_of_eq (length_of_vector (hb b₀ hb₀)).symm

/-- A normalised convolution is one with the weight and the bias that the pass computes. -/
theorem isConv_of_folded (hact : cv.activation = .identity) (hlayout : cv.outputLayout = .NCHW)
    (hconv : Exact.IsConv cv x w b y) (hbn : Exact.IsBatchNorm ε y scale bias mean var z)
    (h : Folded ε b w scale bias mean var w' b') : Exact.IsConv cv x w' (some b') z := by
  obtain ⟨n, c, m, size, kernel, hx, hw, hkernel, hgroup, hb, rfl⟩ := hconv
  obtain ⟨m', hm', hscale, hbias, hmean, hvar, rfl⟩ := hbn
  obtain rfl : m = m' := by
    rw [hlayout] at hm'
    exact Option.some.inj hm'
  refine ⟨n, c, m, size, kernel, hx, h.weightShape.trans hw, hkernel, hgroup, ?_, tabulate_congr fun idx hidx => ?_⟩
  · intro b₀ hb₀
    obtain rfl := Option.some.inj hb₀
    rw [h.biasShape, length_of_vector hscale]
  · rw [tabulate_shape] at hidx
    rw [get_tabulate hidx, hact, hlayout]
    have hch : idx.getD 1 0 < m := by
      rw [hlayout] at hidx
      obtain _ | ⟨-, _ | ⟨hch, -⟩⟩ := hidx
      exact hch
    show (_ + _ - _) / _ * _ + _ = _ + b'.get [idx.getD 1 0]
    rw [h.bias_get hscale hbias hmean hvar hb hch]
    -- the number of the channel is pulled out of the sum
    have hsum : ∀ p ∈ Finset.range (c :: kernel).prod,
        w'.get (Exact.channelOf .NCHW idx :: multiIndex (c :: kernel) p) =
          w.get (Exact.channelOf .NCHW idx :: multiIndex (c :: kernel) p) *
            (scale.get [idx.getD 1 0] / √(var.get [idx.getD 1 0] + ε)) := fun p hp =>
      h.weight_get hw hscale hvar hch (multiIndex_lt (pos_of_prod_pos (Nat.zero_lt_of_lt (Finset.mem_range.mp hp))) p)
    rw [Finset.sum_congr rfl fun p hp => congrArg (_ * ·) (hsum p hp)]
    simp only [← mul_assoc, ← Finset.sum_mul]
    cases b with
    | none =>
        show (_ + 0 - _) / _ * _ + _ = _ * (_ / _) + (_ - _ * (_ / _))
        ring
    | some b₀ =>
        show (_ + b₀.get [idx.getD 1 0] - _) / _ * _ + _ = _ * (_ / _) + (_ - _ * (_ / _) + b₀.get [idx.getD 1 0] * (_ / _))
        ring

end Exact

variable {files : Onnx.Files} {c : Exact.GeLUConstants} {st st' : GraphState} {id : NodeId} {plan : Plan}
  {ρ : ValueId → Exact.Arr} {conv bn : Node} {a : ValueId} {e : BatchNormalization} {cv : Conv}

/-- The initializer is a vector of these floats. -/
def IsVector (files : Onnx.Files) (g : Graph) (v : ValueId) (l : List F64) : Prop :=
  ∃ t, Onnx.getInitializer files g v = some t ∧ t.to1dFloats = some l

/-- A convolution, and a normalisation that is the only one to read its output. -/
structure Matched (files : Onnx.Files) (st : GraphState) (plan : Plan) (conv bn : Node) (a : ValueId)
    (e : BatchNormalization) : Prop where
  convNode : st.graph.node? plan.convNode = some conv
  bnNode : st.graph.node? plan.bnNode = some bn
  output : conv.outputs[0]? = some a
  reads : some a ∈ bn.inputs
  bnOp : bn.op = .batchNormalization e
  epsilon : plan.epsilon = F32.asF64 e.epsilon
  weightInput : conv.inputs[1]? = some (some plan.convWeightId)
  biasInput : plan.convBiasId = conv.inputs[2]?.join
  hasConvBias : plan.convBiasId.isSome = decide (2 < conv.inputs.length)
  scaleInput : bn.inputs[1]? = some (some plan.bnScaleId)
  bnBiasInput : bn.inputs[2]? = some (some plan.bnBiasId)
  meanInput : bn.inputs[3]? = some (some plan.bnMeanId)
  varInput : bn.inputs[4]? = some (some plan.bnVarId)
  weight : ∃ t, Onnx.getInitializer files st.graph plan.convWeightId = some t ∧ t.dims = plan.weightDims ∧
    t.data = .float plan.floatTy plan.weightData
  scale : IsVector files st.graph plan.bnScaleId plan.scale
  bias : IsVector files st.graph plan.bnBiasId plan.bias
  mean : IsVector files st.graph plan.bnMeanId plan.mean
  var : IsVector files st.graph plan.bnVarId plan.var
  old : plan.oldConvBias = (plan.convBiasId.bind (Onnx.getInitializer files st.graph)).bind Tensor.to1dFloats

theorem finds_convBiasId {o : Option ValueId} (h : (convBiasId conv).Finds o) :
    o = conv.inputs[2]?.join ∧ o.isSome = decide (2 < conv.inputs.length) := by
  unfold convBiasId at h
  split at h
  · rename_i hlt
    rw [Match.finds_bind] at h
    simp only [Match.finds_unwrap, Match.finds_pure] at h
    obtain ⟨v, hv, rfl⟩ := h
    exact ⟨hv.symm, (decide_eq_true hlt).symm⟩
  · rename_i hge
    obtain rfl := Match.finds_pure.mp h
    refine ⟨?_, (decide_eq_false hge).symm⟩
    have hnone : conv.inputs[2]? = none := List.getElem?_eq_none (Nat.le_of_not_lt hge)
    rw [hnone]
    rfl

theorem finds_findBnUser (hst : Consistent st) {bnNode : NodeId} (h : (findBnUser st id).Finds bnNode) :
    ∃ conv bn a e, st.graph.node? id = some conv ∧ conv.outputs[0]? = some a ∧ st.graph.node? bnNode = some bn ∧
      some a ∈ bn.inputs ∧ bn.op = .batchNormalization e := by
  unfold findBnUser at h
  simp only [Match.finds_bind, Match.finds_unwrap, Match.finds_ofOption] at h
  obtain ⟨conv, hconv, a, ha, user, huser, bn, hbn, hop⟩ := h
  obtain ⟨hindex, -, -⟩ := consistent_iff.mp hst
  split at huser
  · rename_i x hx
    obtain rfl := Option.some.inj huser
    split at hop
    · rename_i e he
      obtain rfl := Option.some.inj hop
      obtain ⟨bn', hbn', hget⟩ := (hindex.mem a x).mp (by rw [hx]; exact List.mem_singleton_self x)
      obtain rfl := Option.some.inj (hbn.symm.trans hbn')
      exact ⟨conv, bn, a, e, hconv, ha, hbn, List.mem_of_getElem? hget, he⟩
    · cases hop
  · cases huser

theorem matched_of_finds (hst : Consistent st) (h : (matchPattern files st id).Finds plan) :
    plan.convNode = id ∧ ∃ conv bn a e, Matched files st plan conv bn a e := by
  unfold matchPattern at h
  simp only [Match.finds_bind, Match.finds_unwrap, Match.finds_ofOption, Match.finds_pure] at h
  obtain ⟨bnNode, hbnNode, conv, hconv, bn, hbn, w, hw, b, hb, s, hs, β, hβ, μ, hμ, v, hv, ε, hε, ts, hts, tβ, htβ, tμ,
    htμ, tv, htv, tw, htw, ls, hls, lβ, hlβ, lμ, hlμ, lv, hlv, weight, hweight, rfl⟩ := h
  obtain ⟨conv', bn', a, e, hconv', ha, hbn', hreads, hop⟩ := finds_findBnUser hst hbnNode
  obtain rfl := Option.some.inj (hconv.symm.trans hconv')
  obtain rfl := Option.some.inj (hbn.symm.trans hbn')
  obtain ⟨hbias, hhas⟩ := finds_convBiasId hb
  rw [hop] at hε
  refine ⟨rfl, conv, bn, a, e, ?_⟩
  exact {
    convNode := hconv
    bnNode := hbn
    output := ha
    reads := hreads
    bnOp := hop
    epsilon := congrArg F32.asF64 (Option.some.inj hε).symm
    weightInput := Option.join_eq_some_iff.mp hw
    biasInput := hbias
    hasConvBias := hhas
    scaleInput := Option.join_eq_some_iff.mp hs
    bnBiasInput := Option.join_eq_some_iff.mp hβ
    meanInput := Option.join_eq_some_iff.mp hμ
    varInput := Option.join_eq_some_iff.mp hv
    weight := by
      refine ⟨tw, htw, rfl, ?_⟩
      split at hweight
      · rename_i ty l hdata
        obtain rfl := Option.some.inj hweight
        exact hdata
      · cases hweight
    scale := ⟨ts, hts, hls⟩
    bias := ⟨tβ, htβ, hlβ⟩
    mean := ⟨tμ, htμ, hlμ⟩
    var := ⟨tv, htv, hlv⟩
    old := rfl }

/-- What is known of the sizes when both tensors have been made. -/
structure Sizes (plan : Plan) (newWeight newBiasTensor : Tensor) : Prop where
  channels : 0 < plan.numChannels
  positive : 0 < plan.channelSize
  weight : plan.weightData.length = plan.channelSize * plan.numChannels
  var : plan.numChannels ≤ plan.var.length
  bias : plan.numChannels ≤ plan.bias.length
  mean : plan.numChannels ≤ plan.mean.length
  old : ∀ l ∈ plan.oldConvBias, plan.numChannels ≤ l.length
  newWeight : newWeight.dims = plan.weightDims ∧ newWeight.data.size = plan.weightData.length
  newBias : newBiasTensor.dims = [plan.numChannels] ∧ newBiasTensor.data.size = plan.numChannels

theorem new_eq_some {dims : ResolvedTensorDims} {data : TensorData} {t : Tensor} (h : Tensor.new dims data = some t) :
    t.dims = dims ∧ t.data = data ∧ max (ResolvedTensorDims.size dims) 1 = max data.size 1 := by
  unfold Tensor.new at h
  split at h
  · rename_i hsize
    obtain rfl := Option.some.inj h
    exact ⟨rfl, rfl, hsize⟩
  · cases h

theorem orPanic_eq_ok {β : Type} {o : Option β} {x : β} : orPanic o = .ok x ↔ o = some x := by
  cases o <;> simp [orPanic]

theorem sizes_of_ok (hm : Matched files st plan conv bn a e) {tw tb : Tensor} (hw : plan.newWeight = .ok tw)
    (hb : plan.newBiasTensor = .ok tb) : Sizes plan tw tb := by
  obtain ⟨t, -, hdims, hdata⟩ := hm.weight
  unfold Plan.newWeight at hw
  split at hw
  · cases hw
  · rename_i hchannels
    split at hw
    · cases hw
    · rename_i hpositive
      have hpos := Nat.pos_of_ne_zero hpositive
      obtain ⟨hwdims, hwdata, hwsize⟩ := new_eq_some (orPanic_eq_ok.mp hw)
      obtain ⟨l, hl, hb⟩ := bind_eq_ok.mp hb
      obtain ⟨hbdims, hbdata, hbsize⟩ := new_eq_some (orPanic_eq_ok.mp hb)
      obtain ⟨hbias, hmean, hms, hold⟩ := newBiasData_lengths hl
      have hmul : plan.multiplier.length = min plan.numChannels plan.var.length := List.length_zipWith
      have hvar : plan.numChannels ≤ plan.var.length := by omega
      have hnew := newWeightData_length hpos plan.weightData plan.multiplier
      rw [hmul, Nat.min_eq_left hvar] at hnew
      have hmulle : plan.channelSize * plan.numChannels ≤ plan.weightData.length := Nat.div_mul_le_self _ _
      have hprod : 0 < plan.channelSize * plan.numChannels := Nat.mul_pos hpos (Nat.pos_of_ne_zero hchannels)
      have hsize := t.hsize
      rw [hdims, hdata] at hsize
      change max plan.weightDims.size 1 = max plan.weightData.length 1 at hsize
      change max plan.weightDims.size 1 = max (newWeightData plan.channelSize plan.weightData plan.multiplier).length 1
        at hwsize
      have hlen : l.length = plan.numChannels := by
        rw [← (mapM_eq_ok.mp hl).length_eq, List.length_range]
      have hnum : ResolvedTensorDims.new [plan.numChannels] = [plan.numChannels] := if_neg (by simpa using hchannels)
      refine ⟨Nat.pos_of_ne_zero hchannels, hpos, ?_, hvar, hbias, hmean, hold, ⟨hwdims, ?_⟩,
        hbdims.trans hnum, ?_⟩
      · omega
      · rw [hwdata]
        show (newWeightData plan.channelSize plan.weightData plan.multiplier).length = _
        omega
      · rw [hbdata]
        exact hlen

/-! ### A turn -/

/-- The graph before the new node: both tensors are registered. -/
def withTensors (st : GraphState) (plan : Plan) (newWeight newBiasTensor : Tensor) : GraphState :=
  (st.registerNewTensor newWeight s!"ConvBNFusion_Weight_{debugId plan.convNode}").registerNewTensor newBiasTensor
    s!"ConvBNFusion_Bias_{debugId plan.convNode}"

theorem registerNewTensor_length (st : GraphState) (t : Tensor) (name : String) :
    (st.registerNewTensor t name).graph.values.length = st.graph.values.length + 1 :=
  List.length_append

theorem withTensors_length (st : GraphState) (plan : Plan) (tw tb : Tensor) :
    (withTensors st plan tw tb).graph.values.length = st.graph.values.length + 2 := by
  rw [withTensors, registerNewTensor_length, registerNewTensor_length]

theorem apply_eq_ok (hst : Intact st) (hm : Matched files st plan conv bn a e) (hok : apply st plan = .ok st') :
    ∃ tw tb out ty, plan.newWeight = .ok tw ∧ plan.newBiasTensor = .ok tb ∧ bn.outputs[0]? = some out ∧
      st.graph.getResolvedTensorType a = some ty ∧
      ((withTensors st plan tw tb).registerOutput s!"ConvBNFusion_Output_{debugId plan.convNode}" ty
        s!"ConvBNFusion_{debugId plan.convNode}" (newInputs conv.inputs plan.convBiasId.isSome
          st.graph.values.length (st.graph.values.length + 1)) conv.op).2.replaceInputValueIf out
        (st.graph.values.length + 2) (fun _ _ => true) = .ok st' := by
  obtain ⟨tw, htw, hok⟩ := bind_eq_ok.mp hok
  obtain ⟨tb, htb, hok⟩ := bind_eq_ok.mp hok
  obtain ⟨conv', hconv', hok⟩ := orPanic_bind_eq_ok hok
  obtain ⟨bn', hbn', hok⟩ := orPanic_bind_eq_ok hok
  obtain ⟨out, hout, hok⟩ := orPanic_bind_eq_ok hok
  obtain ⟨a', ha', hok⟩ := orPanic_bind_eq_ok hok
  obtain ⟨ty, hty, hreplace⟩ := orPanic_bind_eq_ok hok
  obtain rfl := Option.some.inj (hm.convNode.symm.trans hconv')
  obtain rfl := Option.some.inj (hm.bnNode.symm.trans hbn')
  obtain rfl := Option.some.inj (hm.output.symm.trans ha')
  -- the type of the output is not a new one
  have ha : a < st.graph.values.length :=
    hst.inRange.outputs _ _ hm.convNode a (List.mem_of_getElem? hm.output)
  have htype : (withTensors st plan tw tb).graph.getResolvedTensorType a = st.graph.getResolvedTensorType a := by
    refine (registerNewValue_type_of_lt _ _ _ ?_).trans (registerNewValue_type_of_lt st _ _ ha)
    rw [registerNewTensor_length]
    exact Nat.lt_succ_of_lt ha
  refine ⟨tw, tb, out, ty, htw, htb, hout, htype.symm.trans hty, ?_⟩
  rw [← withTensors_length st plan tw tb,
    ← registerNewTensor_length st tw s!"ConvBNFusion_Weight_{debugId plan.convNode}"]
  exact hreplace

theorem mem_newInputs {inputs : List (Option ValueId)} {hasConvBias : Bool} {w b v : ValueId}
    (h : some v ∈ newInputs inputs hasConvBias w b) : some v ∈ inputs ∨ v = w ∨ v = b := by
  have hset {i u : Nat} {l : List (Option ValueId)} (h : some v ∈ l.set i (some u)) : some v ∈ l ∨ v = u :=
    (List.mem_or_eq_of_mem_set h).imp_right Option.some.inj
  unfold newInputs at h
  dsimp only at h
  split at h
  · rcases hset h with h | h
    · exact (hset h).imp_right .inl
    · exact .inr (.inr h)
  · rcases List.mem_append.mp h with h | h
    · exact (hset h).imp_right .inl
    · exact .inr (.inr (Option.some.inj (List.mem_singleton.mp h)))

/-- What a turn does to a graph, whatever the meaning is. -/
theorem apply_keepsWith {α : Type} {M : Meaning α} (hst : Intact st) (hm : Matched files st plan conv bn a e)
    (hok : apply st plan = .ok st') {x y : (ValueId → α) → α}
    (hxw : ∀ ρ ρ', AgreeOn st.graph ρ ρ' → x ρ' = x ρ) (hxb : ∀ ρ ρ', AgreeOn st.graph ρ ρ' → y ρ' = y ρ)
    (hconst : ∀ tw tb, plan.newWeight = .ok tw → plan.newBiasTensor = .ok tb → ∀ ρ, M.Holds st.graph ρ →
      (M.constant tw (x ρ) ∧ M.hasType tw.tensorType (x ρ)) ∧
        M.constant tb (y ρ) ∧ M.hasType tb.tensorType (y ρ))
    (hop : ∀ out ty, bn.outputs[0]? = some out → st.graph.getResolvedTensorType a = some ty → ∀ ρ,
      M.Holds st.graph ρ → ρ st.graph.values.length = x ρ → ρ (st.graph.values.length + 1) = y ρ →
        M.hasType ty (ρ out) ∧ M.op conv.op ((newInputs conv.inputs plan.convBiasId.isSome st.graph.values.length
          (st.graph.values.length + 1)).map (Option.map ρ)) [ρ out]) :
    KeepsWith M st st' (fun ρ => M.Holds st.graph ρ ∧ ρ st.graph.values.length = x ρ ∧
        ρ (st.graph.values.length + 1) = y ρ) ∧
      Intact st' ∧ st.graph.values.length ≤ st'.graph.values.length := by
  obtain ⟨tw, tb, out, ty, htw, htb, hout, hty, hok⟩ := apply_eq_ok hst hm hok
  have hlen₁ := registerNewTensor_length st tw s!"ConvBNFusion_Weight_{debugId plan.convNode}"
  have hlen₂ := withTensors_length st plan tw tb
  have hagree {st₁ : GraphState} (hle : st.graph.values.length ≤ st₁.graph.values.length) {ρ ρ' : ValueId → α}
      (h : AgreeOn st₁.graph ρ ρ') : AgreeOn st.graph ρ ρ' := fun v hv => h v (Nat.lt_of_lt_of_le hv hle)
  have houtlt := hst.inRange.outputs _ _ hm.bnNode out (List.mem_of_getElem? hout)
  have hlocal := localTo_holds (M := M) hst.inRange
  have hweight := (Grown.refl (M := M) hst).newTensor hlocal 
    s!"ConvBNFusion_Weight_{debugId plan.convNode}" hxw fun ρ hρ _ => (hconst tw tb htw htb ρ hρ).1
  have hlocal₁ : LocalTo (st.registerNewTensor tw s!"ConvBNFusion_Weight_{debugId plan.convNode}").graph fun ρ =>
      M.Holds st.graph ρ ∧ ρ st.graph.values.length = x ρ := by
    intro ρ ρ' h hP
    have h' := hagree (by rw [hlen₁]; exact Nat.le_succ _) h
    refine ⟨hlocal ρ ρ' h' hP.1, ?_⟩
    rw [h _ (by rw [hlen₁]; exact Nat.lt_succ_self _), hxw ρ ρ' h']
    exact hP.2
  have hbias := hweight.newTensor hlocal₁ s!"ConvBNFusion_Bias_{debugId plan.convNode}"
    (fun ρ ρ' h => hxb ρ ρ' (hagree (by rw [hlen₁]; exact Nat.le_succ _) h))
    fun ρ _ hP => (hconst tw tb htw htb ρ hP.1).2
  rw [hlen₁] at hbias
  change Grown M st (withTensors st plan tw tb) _ at hbias
  have hlocal₂ : LocalTo (withTensors st plan tw tb).graph fun ρ =>
      (M.Holds st.graph ρ ∧ ρ st.graph.values.length = x ρ) ∧ ρ (st.graph.values.length + 1) = y ρ := by
    intro ρ ρ' h hP
    have h' := hagree (by rw [hlen₂]; exact Nat.le_add_right _ 2) h
    refine ⟨⟨hlocal ρ ρ' h' hP.1.1, ?_⟩, ?_⟩
    · rw [h _ (by rw [hlen₂]; omega), hxw ρ ρ' h']
      exact hP.1.2
    · rw [h _ (by rw [hlen₂]; omega), hxb ρ ρ' h']
      exact hP.2
  have hin : ∀ v, some v ∈ newInputs conv.inputs plan.convBiasId.isSome st.graph.values.length
      (st.graph.values.length + 1) → v < (withTensors st plan tw tb).graph.values.length := by
    intro v hv
    rw [hlen₂]
    rcases mem_newInputs hv with hv | rfl | rfl
    · exact Nat.lt_of_lt_of_le (hst.inRange.inputs _ _ hm.convNode v hv) (Nat.le_add_right _ 2)
    · exact Nat.lt_add_of_pos_right Nat.two_pos
    · exact Nat.lt_succ_self _
  have hnode : Grown M st ((withTensors st plan tw tb).registerOutput
      s!"ConvBNFusion_Output_{debugId plan.convNode}" ty s!"ConvBNFusion_{debugId plan.convNode}"
      (newInputs conv.inputs plan.convBiasId.isSome st.graph.values.length (st.graph.values.length + 1)) conv.op).2
      fun ρ => ((M.Holds st.graph ρ ∧ ρ st.graph.values.length = x ρ) ∧
        ρ (st.graph.values.length + 1) = y ρ) ∧ ρ (withTensors st plan tw tb).graph.values.length = ρ out :=
    hbias.registerOutput hlocal₂ (fun ρ ρ' h => h out (Nat.lt_of_lt_of_le houtlt (by rw [hlen₂]; exact Nat.le_add_right _ 2)))
      hin fun ρ _ hP => hop out ty hout hty ρ hP.1.1 hP.1.2 hP.2
  rw [hlen₂] at hnode
  obtain ⟨hkeeps, hrest⟩ := hnode.replace_keepsWith hst (fun ρ hP => hP.2)
    (by rw [registerOutput_length, hlen₂]; exact Nat.lt_succ_self _) hok
  exact ⟨hkeeps.mono fun ρ hP => ⟨hP.1.1.1, hP.1.1.2, hP.1.2⟩, hrest⟩

theorem visit_intact (hst : Intact st) (hok : visit files st id = .ok st') :
    Intact st' ∧ st.graph.values.length ≤ st'.graph.values.length := by
  rcases fuse_eq_ok hok with rfl | ⟨plan, hplan, hok⟩
  · exact ⟨hst, Nat.le_refl _⟩
  · obtain ⟨-, conv, bn, a, e, hm⟩ := matched_of_finds hst.consistent hplan
    exact (apply_keepsWith (M := .any) (x := fun _ => ()) (y := fun _ => ()) hst hm hok (fun _ _ _ => rfl)
      (fun _ _ _ => rfl) (fun _ _ _ _ _ _ => ⟨⟨trivial, trivial⟩, trivial, trivial⟩)
      fun _ _ _ _ _ _ _ _ => ⟨trivial, trivial⟩).2

/-! ### Exact arithmetic -/

/-- The array has the shape of a tensor and as many numbers. -/
def IsLike (t : Tensor) (x : Exact.Arr) : Prop := x.shape = t.dims ∧ x.data.length = t.data.size

/-- Exact arithmetic, for any numbers in the constants. -/
def exactAny (c : Exact.GeLUConstants) (files : Onnx.Files) : Meaning Exact.Arr where
  op := Exact.op c
  constant := IsLike
  external r x := ∀ t, Onnx.loadExternal files r = some t → IsLike t x
  hasType ty x := x.shape = ty.dims
  output _ _ _ := trivial

/-- No node computes a constant. -/
def ComputesNoConstant (g : Graph) : Prop := ∀ p ∈ outputPairs g, g.hasInitializer p.1 = false

/-- What the pass computes for the new constants, on the numbers of an assignment. -/
def FoldedIn (st : GraphState) (plan : Plan) (ρ : ValueId → Exact.Arr) : Prop :=
  Folded plan.epsilon.real (plan.oldConvBias.bind fun _ => plan.convBiasId.map ρ) (ρ plan.convWeightId)
    (ρ plan.bnScaleId) (ρ plan.bnBiasId) (ρ plan.bnMeanId) (ρ plan.bnVarId) (ρ st.graph.values.length)
    (ρ (st.graph.values.length + 1))

/-- For all sums of products, biases and parameters of the channels, the fused convolution has the elements of
the normalised one. -/
def Agrees (cv : Conv) (plan : Plan) : Prop :=
  ∀ (sum : List Nat → ℝ) (b scale bias mean var : Nat → ℝ) (idx : List Nat),
    (∀ ch, 0 < var ch + plan.epsilon.real) →
      let ch := Exact.channelOf cv.outputLayout idx
      let m := scale ch / √(var ch + plan.epsilon.real)
      let conv := Exact.activate cv.activation (sum idx + if plan.convBiasId.isSome then b ch else 0)
      let axis := idx.getD 1 0
      Exact.activate cv.activation (sum idx * m + newBias (bias ch) (mean ch) m (plan.oldConvBias.map fun _ => b ch)) =
        (conv - mean axis) / √(var axis + plan.epsilon.real) * scale axis + bias axis

/-- The convolution has no activation, its channels are at axis 1, and its bias, if it has one, is a vector of
floats among the initializers. -/
structure Fits (cv : Conv) (plan : Plan) : Prop where
  activation : cv.activation = .identity
  layout : cv.outputLayout = .NCHW
  bias : plan.convBiasId.isSome = true → plan.oldConvBias.isSome = true

theorem agrees_of_fits (hold : plan.oldConvBias.isSome = true → plan.convBiasId.isSome = true) (h : Fits cv plan) :
    Agrees cv plan := by
  intro sum b scale bias mean var idx _
  have hch : Exact.channelOf .NCHW idx = idx.getD 1 0 := rfl
  dsimp only
  rw [h.activation, h.layout, hch]
  cases hb : plan.convBiasId with
  | none =>
      have hnone : plan.oldConvBias = none := by
        rw [← Option.not_isSome_iff_eq_none]
        intro hsome
        simpa [hb] using hold hsome
      rw [hnone]
      show _ * (_ / _) + (_ - _ * (_ / _)) = (_ + 0 - _) / _ * _ + _
      ring
  | some v =>
      obtain ⟨l, hl⟩ := Option.isSome_iff_exists.mp (h.bias (by rw [hb]; rfl))
      rw [hl]
      show _ * (_ / _) + (_ - _ * (_ / _) + _ * (_ / _)) = (_ + b _ - _) / _ * _ + _
      ring

theorem fits_of_agrees (h : Agrees cv plan) : Fits cv plan := by
  have hvar : ∀ ch : Nat, (0 : ℝ) < (fun _ => 1 - plan.epsilon.real) ch + plan.epsilon.real := by simp
  have hact : cv.activation = .identity := by
    cases hcv : cv.activation with
    | identity => rfl
    | reLU =>
        -- minus one is not a result of the activation
        have h0 := h (fun _ => 0) (fun _ => 0) (fun _ => 1) (fun _ => -1) (fun _ => 0) _ [] hvar
        cases hold : plan.oldConvBias <;> simp [hcv, hold, Exact.activate, newBias] at h0
  have hlayout : cv.outputLayout = .NCHW := by
    cases hcv : cv.outputLayout with
    | NCHW => rfl
    | NHWC =>
        -- the scales of channel 1 and of position 0
        have h0 := h (fun _ => 1) (fun _ => 0) (fun ch => ch + 1) (fun _ => 0) (fun _ => 0) _ [0, 0, 1] hvar
        cases hold : plan.oldConvBias <;> simp [hact, hcv, hold, Exact.activate, Exact.channelOf, newBias] at h0
  refine ⟨hact, hlayout, fun hb => ?_⟩
  cases hold : plan.oldConvBias with
  | some l => rfl
  | none =>
      have h0 := h (fun _ => 0) (fun _ => 1) (fun _ => 1) (fun _ => 0) (fun _ => 0) _ [] hvar
      simp [hact, hold, hb, Exact.activate, newBias] at h0

section Turn

variable {v : ValueId} {t : Tensor} {l : List F64}

theorem isLike_of_initializer (hρ : (exactAny c files).Holds st.graph ρ)
    (h : Onnx.getInitializer files st.graph v = some t) : IsLike t (ρ v) := by
  unfold Onnx.getInitializer at h
  split at h
  · rename_i t' ht'
    obtain rfl := Option.some.inj h
    exact hρ.constants v t' ht'
  · obtain ⟨r, hr, hload⟩ := Option.bind_eq_some_iff.mp h
    exact hρ.externals v r hr t hload

theorem hasInitializer_of_getInitializer (h : Onnx.getInitializer files st.graph v = some t) :
    st.graph.hasInitializer v = true := by
  unfold Onnx.getInitializer at h
  unfold Graph.hasInitializer
  split at h
  · rename_i t' ht'
    rw [ht']
    rfl
  · obtain ⟨r, hr, -⟩ := Option.bind_eq_some_iff.mp h
    rw [hr]
    exact Bool.or_true _

theorem hasInitializer_lt (hg : InRange st.graph) (h : st.graph.hasInitializer v = true) :
    v < st.graph.values.length := by
  rcases Bool.or_eq_true_iff.mp h with h | h
  · obtain ⟨t, ht⟩ := Option.isSome_iff_exists.mp h
    exact hg.initializers v t ht
  · obtain ⟨r, hr⟩ := Option.isSome_iff_exists.mp h
    exact hg.externals v r hr

theorem IsVector.hasInitializer (h : IsVector files st.graph v l) : st.graph.hasInitializer v = true := by
  obtain ⟨t, ht, -⟩ := h
  exact hasInitializer_of_getInitializer ht

theorem IsVector.length (hρ : (exactAny c files).Holds st.graph ρ) (h : IsVector files st.graph v l) :
    (ρ v).data.length = l.length := by
  obtain ⟨t, ht, hl⟩ := h
  rw [(isLike_of_initializer hρ ht).2]
  unfold Tensor.to1dFloats at hl
  split at hl
  · cases hl
  · split at hl
    · rename_i ty l' hdata
      obtain rfl := Option.some.inj hl
      rw [hdata]
      rfl
    · cases hl

/-- What a convolution and its normalisation compute. -/
theorem Matched.computes (hcomp : ComputesNoConstant st.graph) (hm : Matched files st plan conv bn a e)
    (hop : conv.op = .conv cv) (hρ : (exactAny c files).Holds st.graph ρ) {out : ValueId}
    (hout : bn.outputs[0]? = some out) :
    (∃ x rest, conv.inputs.map (Option.map ρ) = some x :: some (ρ plan.convWeightId) :: rest ∧
      Exact.IsConv cv x (ρ plan.convWeightId) (plan.convBiasId.map ρ) (ρ a)) ∧
    Exact.IsBatchNorm plan.epsilon.real (ρ a) (ρ plan.bnScaleId) (ρ plan.bnBiasId) (ρ plan.bnMeanId)
      (ρ plan.bnVarId) (ρ out) := by
  have hconv := hρ.nodes _ _ hm.convNode
  have hbn := hρ.nodes _ _ hm.bnNode
  rw [hop] at hconv
  rw [hm.bnOp] at hbn
  obtain ⟨x, w, rest, y, hins, houts, hconv⟩ := hconv
  obtain ⟨a', s, β, μ, var, z, hbnIns, hbnOuts, hbn⟩ := hbn
  obtain rfl := Exact.input_eq (k := 1) hins rfl hm.weightInput
  obtain rfl := Exact.output_eq houts hm.output
  obtain rfl := Exact.output_eq hbnOuts hout
  obtain rfl := Exact.input_eq (k := 1) hbnIns rfl hm.scaleInput
  obtain rfl := Exact.input_eq (k := 2) hbnIns rfl hm.bnBiasInput
  obtain rfl := Exact.input_eq (k := 3) hbnIns rfl hm.meanInput
  obtain rfl := Exact.input_eq (k := 4) hbnIns rfl hm.varInput
  rw [Exact.third_eq hins, ← hm.biasInput] at hconv
  -- the parameters are constants, so the normalisation reads the convolution as its data
  have hdata : bn.inputs[0]? = some (some a) := by
    have hcomputed : st.graph.hasInitializer a = false := by
      refine hcomp (a, plan.convNode, 0) (mem_outputPairs.mpr ⟨conv, hm.convNode, hm.output⟩)
    obtain ⟨k, hk⟩ := List.mem_iff_getElem?.mp hm.reads
    have hlen : bn.inputs.length = 5 := by
      have h := congrArg List.length hbnIns
      rwa [List.length_map] at h
    have hlt := (List.getElem?_eq_some_iff.mp hk).1
    have hne {u : ValueId} (hu : bn.inputs[k]? = some (some u)) : st.graph.hasInitializer u = false := by
      obtain rfl := Option.some.inj (Option.some.inj (hk.symm.trans hu))
      exact hcomputed
    rw [hlen] at hlt
    interval_cases k
    · exact hk
    · exact absurd hm.scale.hasInitializer (by rw [hne hm.scaleInput]; exact Bool.false_ne_true)
    · exact absurd hm.bias.hasInitializer (by rw [hne hm.bnBiasInput]; exact Bool.false_ne_true)
    · exact absurd hm.mean.hasInitializer (by rw [hne hm.meanInput]; exact Bool.false_ne_true)
    · exact absurd hm.var.hasInitializer (by rw [hne hm.varInput]; exact Bool.false_ne_true)
  obtain rfl := Exact.input_eq (k := 0) hbnIns rfl hdata
  rw [← hm.epsilon] at hbn
  exact ⟨⟨x, rest, hins, hconv⟩, hbn⟩

/-- The inputs of the new node. -/
theorem newInputs_map {inputs : List (Option ValueId)} {x w : Exact.Arr} {rest : List (Option Exact.Arr)}
    (h : inputs.map (Option.map ρ) = some x :: some w :: rest) {hasConvBias : Bool}
    (hhas : hasConvBias = decide (2 < inputs.length)) (u b : ValueId) :
    ∃ rest', (newInputs inputs hasConvBias u b).map (Option.map ρ) = some x :: some (ρ u) :: rest' ∧
      rest'.head?.join = some (ρ b) := by
  match inputs with
  | [] => cases h
  | [_] => simp at h
  | [i, j] =>
      obtain rfl : hasConvBias = false := hhas
      exact ⟨[some (ρ b)], congrArg (· :: _) (List.cons.inj h).1, rfl⟩
  | i :: j :: k :: tail =>
      obtain rfl : hasConvBias = true := by rw [hhas]; simp
      exact ⟨some (ρ b) :: tail.map (Option.map ρ), congrArg (· :: _) (List.cons.inj h).1, rfl⟩

end Turn

/-- The new weight on real numbers. -/
noncomputable def foldedWeight (ε : ℝ) (w scale var : Exact.Arr) : Exact.Arr :=
  (fromShape w.shape (newWeightData (w.data.length / scale.data.length) w.data
    (multiplier Real.sqrt ε scale.data var.data))).getD w

/-- The new bias on real numbers. -/
noncomputable def foldedBias (ε : ℝ) (oldConvBias : Option Exact.Arr) (scale bias mean var : Exact.Arr) : Exact.Arr :=
  match newBiasData bias.data mean.data (multiplier Real.sqrt ε scale.data var.data)
      (oldConvBias.map NdArray.data) scale.data.length with
  | .ok data => (fromShape [scale.data.length] data).getD scale
  | .error _ => scale

theorem folded_of_shapes {ε : ℝ} {old : Option Exact.Arr} {w scale bias mean var : Exact.Arr} {n k : Nat}
    (hn : 0 < n) (hk : 0 < k) (hw : w.data.length = k * n) (hscale : scale.shape = [n]) (hbias : bias.shape = [n])
    (hmean : mean.shape = [n]) (hvar : var.shape = [n]) (hold : ∀ b ∈ old, b.shape = [n]) :
    Folded ε old w scale bias mean var (foldedWeight ε w scale var) (foldedBias ε old scale bias mean var) := by
  have hlen := length_of_vector hscale
  have hmul := multiplier_length (ε := ε) hscale hvar
  have hsize : (newWeightData (w.data.length / scale.data.length) w.data
      (multiplier Real.sqrt ε scale.data var.data)).length = w.shape.prod := by
    rw [hlen, hw, Nat.mul_div_cancel _ hn, newWeightData_length hk, hmul, hw, Nat.min_self, ← hw, w.hsize]
  have hweight : foldedWeight ε w scale var = ⟨w.shape, _, hsize⟩ := by
    rw [foldedWeight, fromShape, dif_pos hsize]
    rfl
  have hvectors : ∀ l ∈ old.map NdArray.data, scale.data.length ≤ l.length := by
    intro l hl
    obtain ⟨b, hb, rfl⟩ := Option.mem_map.mp hl
    rw [hlen, length_of_vector (hold b hb)]
  obtain ⟨data, hdata, hprod⟩ : ∃ data, newBiasData bias.data mean.data (multiplier Real.sqrt ε scale.data var.data)
      (old.map NdArray.data) scale.data.length = .ok data ∧ data.length = [scale.data.length].prod :=
    ⟨_, newBiasData_eq (by rw [hlen, length_of_vector hbias]) (by rw [hlen, length_of_vector hmean])
      (by rw [hlen, hmul]) hvectors, by simp⟩
  have hnew : foldedBias ε old scale bias mean var = ⟨[scale.data.length], data, hprod⟩ := by
    unfold foldedBias
    rw [hdata]
    dsimp only
    rw [fromShape, dif_pos hprod]
    rfl
  rw [hweight, hnew]
  exact ⟨rfl, rfl, rfl, hdata⟩

/-- The fused convolution computes what the normalisation did, and nothing else changes. -/
theorem apply_folds (hst : Intact st) (hcomp : ComputesNoConstant st.graph)
    (hm : Matched files st plan conv bn a e) (hop : conv.op = .conv cv) (hfits : Fits cv plan)
    (hok : apply st plan = .ok st') : KeepsWith (exactAny c files) st st' (FoldedIn st plan) := by
  have hin {v : ValueId} (h : st.graph.hasInitializer v = true) : v < st.graph.values.length :=
    hasInitializer_lt hst.inRange h
  obtain ⟨t, ht, hdims, hdata⟩ := hm.weight
  obtain ⟨tw, tb, out, ty, htw, htb, hout, hty, -⟩ := apply_eq_ok hst hm hok
  have hs := sizes_of_ok hm htw htb
  have hbiasId : ∀ v ∈ plan.convBiasId, v < st.graph.values.length := by
    intro v hv
    rw [hm.biasInput] at hv
    exact hst.inRange.inputs _ _ hm.convNode v (List.mem_of_getElem? (Option.join_eq_some_iff.mp hv))
  -- the bias that is folded is the one of the convolution
  have hold (ρ : ValueId → Exact.Arr) :
      (plan.oldConvBias.bind fun _ => plan.convBiasId.map ρ) = plan.convBiasId.map ρ := by
    cases hb : plan.convBiasId with
    | none => cases plan.oldConvBias <;> rfl
    | some v =>
        obtain ⟨l, hl⟩ := Option.isSome_iff_exists.mp (hfits.bias (by rw [hb]; rfl))
        rw [hl]
        rfl
  have hfolded : ∀ ρ, (exactAny c files).Holds st.graph ρ →
      (ρ plan.convWeightId).data.length = plan.weightData.length ∧
      (ρ plan.bnScaleId).data.length = plan.numChannels ∧
      Folded plan.epsilon.real (plan.convBiasId.map ρ) (ρ plan.convWeightId) (ρ plan.bnScaleId) (ρ plan.bnBiasId)
        (ρ plan.bnMeanId) (ρ plan.bnVarId)
        (foldedWeight plan.epsilon.real (ρ plan.convWeightId) (ρ plan.bnScaleId) (ρ plan.bnVarId))
        (foldedBias plan.epsilon.real (plan.convBiasId.map ρ) (ρ plan.bnScaleId) (ρ plan.bnBiasId)
          (ρ plan.bnMeanId) (ρ plan.bnVarId)) := by
    intro ρ hρ
    obtain ⟨⟨x, rest, -, n, k, m, size, kernel, -, hw, -, -, hb, hy⟩, m', hm', hscale, hbias, hmean, hvar, -⟩ :=
      hm.computes hcomp hop hρ hout
    have hchannels : (ρ plan.bnScaleId).data.length = plan.numChannels := hm.scale.length hρ
    have hweight : (ρ plan.convWeightId).data.length = plan.weightData.length := by
      rw [(isLike_of_initializer hρ ht).2, hdata]
      rfl
    obtain rfl : m = m' := by
      rw [hy, hfits.layout] at hm'
      exact Option.some.inj hm'
    obtain rfl : plan.numChannels = m := hchannels.symm.trans (length_of_vector hscale)
    exact ⟨hweight, hchannels, folded_of_shapes hs.channels hs.positive (hweight.trans hs.weight) hscale hbias
      hmean hvar hb⟩
  refine (apply_keepsWith hst hm hok (x := fun ρ => foldedWeight plan.epsilon.real (ρ plan.convWeightId)
    (ρ plan.bnScaleId) (ρ plan.bnVarId)) (y := fun ρ => foldedBias plan.epsilon.real (plan.convBiasId.map ρ)
    (ρ plan.bnScaleId) (ρ plan.bnBiasId) (ρ plan.bnMeanId) (ρ plan.bnVarId)) ?_ ?_ ?_ ?_).1.mono ?_
  · intro ρ ρ' h
    rw [h _ (hin (hasInitializer_of_getInitializer ht)), h _ (hin hm.scale.hasInitializer),
      h _ (hin hm.var.hasInitializer)]
  · intro ρ ρ' h
    have hmap : plan.convBiasId.map ρ' = plan.convBiasId.map ρ := Option.map_congr fun v hv => h v (hbiasId v hv)
    rw [hmap, h _ (hin hm.scale.hasInitializer), h _ (hin hm.bias.hasInitializer), h _ (hin hm.mean.hasInitializer),
      h _ (hin hm.var.hasInitializer)]
  · intro tw' tb' htw' htb' ρ hρ
    obtain ⟨hweight, hchannels, hfold⟩ := hfolded ρ hρ
    have hs' := sizes_of_ok hm htw' htb'
    have hshape := hfold.weightShape.trans ((isLike_of_initializer hρ ht).1.trans (hdims.trans hs'.newWeight.1.symm))
    have hbshape := hfold.biasShape.trans ((congrArg (fun n => [n]) hchannels).trans hs'.newBias.1.symm)
    refine ⟨⟨⟨hshape, ?_⟩, hshape⟩, ⟨hbshape, ?_⟩, hbshape⟩
    · rw [NdArray.hsize, hfold.weightShape, ← NdArray.hsize, hweight, hs'.newWeight.2]
    · rw [NdArray.hsize, hfold.biasShape, List.prod_singleton, hchannels, hs'.newBias.2]
  · intro out' ty' hout' hty' ρ hρ hw hb
    obtain ⟨⟨x, rest, hins, hconv⟩, hbn⟩ := hm.computes hcomp hop hρ hout'
    obtain ⟨-, -, hfold⟩ := hfolded ρ hρ
    rw [← hw, ← hb] at hfold
    refine ⟨?_, ?_⟩
    · obtain ⟨m, -, -, -, -, -, hz⟩ := hbn
      rw [hz]
      exact hρ.types a ty' hty'
    · obtain ⟨rest', hnew, hhead⟩ := newInputs_map hins hm.hasConvBias st.graph.values.length
        (st.graph.values.length + 1)
      rw [hop]
      refine ⟨x, ρ st.graph.values.length, rest', ρ out', hnew, rfl, ?_⟩
      rw [hhead]
      exact isConv_of_folded hfits.activation hfits.layout hconv hbn hfold
  · rintro ρ ⟨hρ, hw, hb⟩
    unfold FoldedIn
    rw [hold ρ, hw, hb]
    exact (hfolded ρ hρ).2.2

theorem replaceInputValueIf_hasInitializer {st : GraphState} {old new : ValueId} (hst : Consistent st)
    (hok : st.replaceInputValueIf old new (fun _ _ => true) = .ok st') (v : ValueId) :
    st'.graph.hasInitializer v = st.graph.hasInitializer v := by
  have hall : ∀ (l : List Place) (g g' : Graph), l.foldlM (replaceAt old new) g = .ok g' →
      g'.hasInitializer v = g.hasInitializer v := by
    intro l
    induction l with
    | nil =>
        intro g g' h
        obtain rfl := Except.ok.inj h
        rfl
    | cons x l ih =>
        intro g g' h
        rw [List.foldlM_cons, do_eq_ok] at h
        obtain ⟨g₁, hone, hrest⟩ := h
        obtain ⟨node, op, -, -, -, rfl⟩ := replaceAt_eq_ok hone
        exact (ih _ g' hrest).trans rfl
  obtain ⟨oldTy, -, hok⟩ := orPanic_bind_eq_ok hok
  obtain ⟨newTy, -, hok⟩ := orPanic_bind_eq_ok hok
  split at hok
  · cases hok
  · exact hall _ _ _ (replaceInputValue_graph hst hok)

theorem withTensors_extended (st : GraphState) (plan : Plan) (tw tb : Tensor) :
    Extended st.graph (withTensors st plan tw tb).graph := by
  have hone (st : GraphState) (t : Tensor) (name : String) : Extended st.graph (st.registerNewTensor t name).graph :=
    have h := registerNewValue_extended st name t.tensorType
    ⟨h.length, h.values, h.outputs, h.nodes⟩
  exact (hone st tw _).trans (hone _ tb _)

theorem withTensors_hasInitializer (plan : Plan) (tw tb : Tensor) {v : ValueId} (hv : v < st.graph.values.length) :
    (withTensors st plan tw tb).graph.hasInitializer v = st.graph.hasInitializer v := by
  have hne : v ≠ st.graph.values.length := Nat.ne_of_lt hv
  have hlen (st : GraphState) (t : Tensor) (name : String) :
      (st.registerNewTensor t name).graph.hasInitializer v =
        if v = st.graph.values.length then true else st.graph.hasInitializer v := by
    show ((Function.update st.graph.initializer st.graph.values.length (some t) v).isSome ||
      (Function.update st.graph.externalRefs st.graph.values.length none v).isSome) = _
    split
    · rename_i h
      rw [h, Function.update_self]
      rfl
    · rename_i h
      rw [Function.update_of_ne h, Function.update_of_ne h]
      rfl
  have hne' : v ≠ (st.registerNewTensor tw s!"ConvBNFusion_Weight_{debugId plan.convNode}").graph.values.length := by
    rw [registerNewTensor_length]
    exact Nat.ne_of_lt (Nat.lt_succ_of_lt hv)
  rw [withTensors, hlen, if_neg hne', hlen, if_neg hne]

/-- What a turn leaves of a graph: no node computes a constant, and a convolution stays one. -/
theorem apply_extended (hst : Intact st) (hcomp : ComputesNoConstant st.graph)
    (hm : Matched files st plan conv bn a e) (hok : apply st plan = .ok st') :
    Extended st.graph st'.graph ∧ ComputesNoConstant st'.graph ∧
      st.graph.values.length + 2 ≤ st'.graph.values.length := by
  obtain ⟨tw, tb, out, ty, -, -, -, -, hok⟩ := apply_eq_ok hst hm hok
  have hintact : Intact (withTensors st plan tw tb) := registerNewTensor_intact (registerNewTensor_intact hst _ _) _ _
  have hext := withTensors_extended st plan tw tb
  have hcons : Consistent ((withTensors st plan tw tb).registerOutput
      s!"ConvBNFusion_Output_{debugId plan.convNode}" ty s!"ConvBNFusion_{debugId plan.convNode}"
      (newInputs conv.inputs plan.convBiasId.isSome st.graph.values.length (st.graph.values.length + 1)) conv.op).2 :=
    registerOutput_consistent hintact.consistent
  obtain ⟨-, hrewired, -⟩ := replaceInputValueIf_spec hcons hok
  have hnew := (registerOutput_extended (withTensors st plan tw tb) _ _ _ _ _).trans hrewired.extended
  refine ⟨hext.trans hnew, fun p hp => ?_, withTensors_length st plan tw tb ▸ hnew.length⟩
  have hinit (v : ValueId) : st'.graph.hasInitializer v = (withTensors st plan tw tb).graph.hasInitializer v :=
    replaceInputValueIf_hasInitializer hcons hok v
  obtain ⟨rest, hrest, hge⟩ := hnew.outputs
  rw [hrest] at hp
  rw [hinit]
  rcases List.mem_append.mp hp with hp | hp
  · -- the tensors have no nodes
    have hold : p ∈ outputPairs st.graph := hp
    obtain ⟨node, hnode, hget⟩ := mem_outputPairs.mp hold
    rw [withTensors_hasInitializer plan tw tb (hst.inRange.outputs _ _ hnode p.1 (List.mem_of_getElem? hget))]
    exact hcomp p hold
  · by_contra hsome
    exact absurd (hasInitializer_lt hintact.inRange (by simpa using hsome)) (Nat.not_lt.mpr (hge p hp))

/-- A convolution of the graph. -/
def IsConvNode (g : Graph) (id : NodeId) : Prop := ∃ node cv, g.node? id = some node ∧ node.op = .conv cv

theorem mem_convNodes {g : Graph} (h : id ∈ convNodes g) : IsConvNode g id := by
  unfold convNodes at h
  obtain ⟨x, hx, rfl⟩ := List.mem_map.mp h
  obtain ⟨hmem, hop⟩ := List.mem_filter.mp hx
  split at hop
  · rename_i cv hcv
    exact ⟨x.2, cv, mem_iter.mp hmem, hcv⟩
  · cases hop

theorem IsConvNode.extended {g g' : Graph} (h : IsConvNode g id) (hext : Extended g g') : IsConvNode g' id := by
  obtain ⟨node, cv, hnode, hop⟩ := h
  obtain ⟨node', hnode', -, -, hop'⟩ := hext.nodes id node hnode
  refine ⟨node', cv, hnode', ?_⟩
  rw [hop] at hop'
  exact hop'.resolve_right nofun

/-- What holds before every turn. -/
structure Ready (st : GraphState) (l : List NodeId) : Prop where
  intact : Intact st
  computes : ComputesNoConstant st.graph
  convs : ∀ id ∈ l, IsConvNode st.graph id

theorem Ready.visit {l : List NodeId} (h : Ready st l) (hid : id ∈ l) (hok : visit files st id = .ok st') :
    Ready st' l := by
  rcases fuse_eq_ok hok with rfl | ⟨plan, hplan, happly⟩
  · exact h
  · obtain ⟨rfl, conv, bn, a, e, hm⟩ := matched_of_finds h.intact.consistent hplan
    obtain ⟨hext, hcomp, -⟩ := apply_extended h.intact h.computes hm happly
    exact ⟨(visit_intact h.intact hok).1, hcomp, fun id hid => (h.convs id hid).extended hext⟩

/-- For all weights, biases and parameters, the turn gives the fused convolution the elements of the normalised
one, and every place reads the numbers that it read. -/
structure Sound (files : Onnx.Files) (c : Exact.GeLUConstants) (st : GraphState) (id : NodeId) (st' : GraphState) :
    Prop where
  agrees : ∀ plan, (matchPattern files st id).Finds plan → ∀ node cv, st.graph.node? id = some node →
    node.op = .conv cv → Agrees cv plan
  keeps : ∀ plan, (matchPattern files st id).Finds plan → KeepsWith (exactAny c files) st st' (FoldedIn st plan)

theorem apply_of_finds (hplan : (matchPattern files st id).Finds plan) (hok : visit files st id = .ok st') :
    apply st plan = .ok st' := by
  unfold visit fuse at hok
  rw [hplan] at hok
  exact hok

theorem foldedIn_local (hst : Intact st) (hm : Matched files st plan conv bn a e)
    (hlen : st.graph.values.length + 2 ≤ st'.graph.values.length) : LocalTo st'.graph (FoldedIn st plan) := by
  intro ρ ρ' h hfolded
  have hlt {v : ValueId} (hv : v < st.graph.values.length) : ρ' v = ρ v :=
    h v (hv.trans_le ((Nat.le_add_right _ 2).trans hlen))
  have hin {v : ValueId} (hv : st.graph.hasInitializer v = true) : ρ' v = ρ v :=
    hlt (hasInitializer_lt hst.inRange hv)
  obtain ⟨t, ht, -⟩ := hm.weight
  have hmap : plan.convBiasId.map ρ' = plan.convBiasId.map ρ := Option.map_congr fun v hv => hlt
    (hst.inRange.inputs _ _ hm.convNode v (List.mem_of_getElem? (Option.join_eq_some_iff.mp (hm.biasInput ▸ hv))))
  unfold FoldedIn
  rw [hmap, hin (hasInitializer_of_getInitializer ht), hin hm.scale.hasInitializer, hin hm.bias.hasInitializer,
    hin hm.mean.hasInitializer, hin hm.var.hasInitializer, h _ (by omega), h _ (by omega)]
  exact hfolded

theorem visit_sound {l : List NodeId} (h : Ready st l) (hid : id ∈ l) (hok : visit files st id = .ok st') :
    Sound files c st id st' ↔ ∀ plan, (matchPattern files st id).Finds plan → ∀ node cv,
      st.graph.node? id = some node → node.op = .conv cv → Fits cv plan := by
  constructor
  · exact fun hsound plan hplan node cv hnode hop => fits_of_agrees (hsound.agrees plan hplan node cv hnode hop)
  · refine fun hfits => ⟨fun plan hplan node cv hnode hop => ?_, fun plan hplan => ?_⟩
    · refine agrees_of_fits (fun hold => ?_) (hfits plan hplan node cv hnode hop)
      obtain ⟨-, conv, bn, a, e, hm⟩ := matched_of_finds h.intact.consistent hplan
      by_contra hnone
      rw [hm.old, Option.not_isSome_iff_eq_none.mp hnone] at hold
      cases hold
    · obtain ⟨rfl, conv, bn, a, e, hm⟩ := matched_of_finds h.intact.consistent hplan
      obtain ⟨conv', cv, hconv', hop⟩ := h.convs _ hid
      obtain rfl := Option.some.inj (hm.convNode.symm.trans hconv')
      exact apply_folds h.intact h.computes hm hop (hfits plan hplan _ cv hm.convNode hop) (apply_of_finds hplan hok)

theorem turns_ready (hst : Intact st) (hcomp : ComputesNoConstant st.graph) :
    ∀ t ∈ passTurns (visit files) st (convNodes st.graph), Ready t.1 (convNodes st.graph) ∧
      t.2.1 ∈ convNodes st.graph ∧ visit files t.1 t.2.1 = .ok t.2.2 :=
  passTurns_induct (I := fun st' => Ready st' (convNodes st.graph)) (fun _ _ _ h hid hok => h.visit hid hok) ⟨hst, hcomp, fun _ => mem_convNodes⟩

/-- The replacements of a run are sound if every convolution that is fused has no activation yet, its channels
are at axis 1, and the pass has read its bias. -/
theorem convBNFusion_sound_iff (hst : Intact st) (hcomp : ComputesNoConstant st.graph) :
    (∀ t ∈ passTurns (visit files) st (convNodes st.graph), Sound files c t.1 t.2.1 t.2.2) ↔
      ∀ t ∈ passTurns (visit files) st (convNodes st.graph), ∀ plan, (matchPattern files t.1 t.2.1).Finds plan →
        ∀ node cv, t.1.graph.node? t.2.1 = some node → node.op = .conv cv → Fits cv plan := by
  refine forall₂_congr fun t ht => ?_
  obtain ⟨hready, hid, hok⟩ := turns_ready hst hcomp t ht
  exact visit_sound hready hid hok

/-- Such a run keeps the meaning of the graph, with the constants that its turns fold. -/
theorem convBNFusion_keeps (hst : Intact st) (hcomp : ComputesNoConstant st.graph)
    (h : ∀ t ∈ passTurns (visit files) st (convNodes st.graph), ∀ plan, (matchPattern files t.1 t.2.1).Finds plan →
      ∀ node cv, t.1.graph.node? t.2.1 = some node → node.op = .conv cv → Fits cv plan)
    (hrun : run files st = .ok st') : KeepsWith (exactAny c files) st st' fun ρ =>
      ∀ t ∈ passTurns (visit files) st (convNodes st.graph), ∀ plan, (matchPattern files t.1 t.2.1).Finds plan →
        FoldedIn t.1 plan ρ := by
  refine keepsWith_of_passTurns (fun t ht => ?_) hrun
  obtain ⟨hready, hid, hok⟩ := turns_ready hst hcomp t ht
  have hsound : Sound files c t.1 t.2.1 t.2.2 := (visit_sound hready hid hok).mpr (h t ht)
  refine ⟨?_, (visit_intact hready.intact hok).2, fun ρ ρ' hagree hfolded plan hplan => ?_⟩
  · by_cases hfinds : ∃ plan, (matchPattern files t.1 t.2.1).Finds plan
    · obtain ⟨plan, hplan⟩ := hfinds
      refine (hsound.keeps plan hplan).mono fun ρ hρ plan' hplan' => ?_
      obtain rfl := Option.some.inj (Except.ok.inj (hplan.symm.trans hplan'))
      exact hρ
    · rw [(fuse_eq_ok hok).resolve_right fun ⟨plan, hplan, _⟩ => hfinds ⟨plan, hplan⟩]
      exact (Keeps.refl _ _).keepsWith.mono fun ρ _ plan hplan => absurd ⟨plan, hplan⟩ hfinds
  · obtain ⟨-, conv, bn, a, e, hm⟩ := matched_of_finds hready.intact.consistent hplan
    exact foldedIn_local hready.intact hm (apply_extended hready.intact hready.computes hm
      (apply_of_finds hplan hok)).2.2 ρ ρ' hagree (hfolded plan hplan)

/-- A convolution with these inputs, and its normalisation. -/
def convGraph (inputs : List (Option ValueId)) : Graph where
  nodes :=
    [{ inputs := [], outputs := [0], name := "x", op := .input 0, markAsDeleted := false },
      { inputs := [], outputs := [1], name := "b", op := .input 1, markAsDeleted := false },
      { inputs, outputs := [7], name := "conv", markAsDeleted := false, op := .conv {
          pad := .valid, dilations := ⟨none, 1⟩, group := 1, kernelShape := [1, 1], strides := ⟨none, 1⟩,
          inputLayout := .NCHW, outputLayout := .NCHW, activation := .identity } },
      { inputs := [some 7, some 3, some 4, some 5, some 6], outputs := [8], name := "bn", markAsDeleted := false,
        op := .batchNormalization { epsilon := .ofBits 0, momentum := .ofBits 0 } },
      { inputs := [some 8], outputs := [], name := "z", op := .output 8, markAsDeleted := false }]
  inputs := [0, 1]
  outputs := [4]
  values :=
    [{ name := "x", ty := some (.resolved (.new (.float .F32) [1, 1, 1, 1])) },
      { name := "b", ty := some (.resolved (.new (.float .F32) [1])) },
      { name := "w", ty := some (.resolved (.new (.float .F32) [1, 1, 1, 1])) },
      { name := "scale", ty := some (.resolved (.new (.float .F32) [1])) },
      { name := "bias", ty := some (.resolved (.new (.float .F32) [1])) },
      { name := "mean", ty := some (.resolved (.new (.float .F32) [1])) },
      { name := "var", ty := some (.resolved (.new (.float .F32) [1])) },
      { name := "y", ty := some (.resolved (.new (.float .F32) [1, 1, 1, 1])) },
      { name := "z", ty := some (.resolved (.new (.float .F32) [1, 1, 1, 1])) }]
  initializer := fun v =>
    if v = 2 then some ⟨.float .F32 [.ofNat 1], [1, 1, 1, 1], rfl⟩
    else if 3 ≤ v ∧ v ≤ 6 then some ⟨.float .F32 [.ofNat 1], [1], Tensor.hsize_one⟩ else none
  externalRefs := fun _ => none

theorem convGraph_intact {inputs : List (Option ValueId)} (h : (convGraph inputs).checked = true) :
    Intact (.new (convGraph inputs)) := by
  refine intact_new h (fun v t h => ?_) fun _ _ h => by cases h
  change (if v = 2 then _ else if 3 ≤ v ∧ v ≤ 6 then _ else _) = _ at h
  show v < 9
  split at h
  · rename_i hv
    rw [hv]
    decide
  · split at h
    · rename_i hv
      exact Nat.lt_of_le_of_lt hv.2 (by decide)
    · cases h

theorem convGraph_computes (inputs : List (Option ValueId)) : ComputesNoConstant (convGraph inputs) := by
  intro p hp
  have hall : outputPairs (convGraph inputs) = [(0, 0, 0), (1, 1, 0), (7, 2, 0), (8, 3, 0)] := rfl
  rw [hall] at hp
  simp only [List.mem_cons, List.not_mem_nil, or_false] at hp
  rcases hp with rfl | rfl | rfl | rfl <;> rfl

/-- A convolution without a bias is fused. -/
theorem convGraph_fused : (passTurns (visit fun _ => none) (.new (convGraph [some 0, some 2])) [2]).length = 1 ∧
    ∀ t ∈ passTurns (visit fun _ => none) (.new (convGraph [some 0, some 2])) [2],
      Sound (fun _ => none) ⟨0, 0, 0, 0⟩ t.1 t.2.1 t.2.2 := by
  have hintact : Intact (.new (convGraph [some 0, some 2])) := convGraph_intact rfl
  refine ⟨rfl, (convBNFusion_sound_iff hintact (convGraph_computes _)).mpr fun t ht plan hplan node cv hnode hop => ?_⟩
  have hturns : (passTurns (visit fun _ => none) (.new (convGraph [some 0, some 2])) [2]).map (fun t => (t.1, t.2.1)) =
    [(.new (convGraph [some 0, some 2]), 2)] := rfl
  obtain ⟨ht₁, ht₂⟩ : t.1 = .new (convGraph [some 0, some 2]) ∧ t.2.1 = 2 := by
    have h := List.mem_map_of_mem (f := fun t => (t.1, t.2.1)) ht
    change _ ∈ (passTurns (visit fun _ => none) (.new (convGraph [some 0, some 2])) [2]).map _ at h
    rw [hturns, List.mem_singleton] at h
    exact Prod.mk.inj h
  rw [ht₁, ht₂] at hplan hnode
  obtain rfl := Option.some.inj hnode
  obtain rfl := Operator.conv.inj hop
  obtain rfl := Option.some.inj (Except.ok.inj hplan)
  exact ⟨rfl, rfl, nofun⟩

/-- The run keeps the normalisation. -/
theorem convGraph_kept : ∃ st', run (fun _ => none) (.new (convGraph [some 0, some 2])) = .ok st' ∧
    Keeps (exactAny ⟨0, 0, 0, 0⟩ fun _ => none) (.new (convGraph [some 0, some 2])) st' := by
  obtain ⟨st', hrun⟩ : ∃ st', run (fun _ => none) (.new (convGraph [some 0, some 2])) = .ok st' := ⟨_, rfl⟩
  refine ⟨st', hrun, (convBNFusion_keeps (convGraph_intact rfl) (convGraph_computes _)
    (fun t ht plan hplan node cv hnode hop => ?_) hrun).keeps⟩
  obtain ⟨ht₁, ht₂⟩ := mem_passTurns_singleton (i := 2) ht
  rw [ht₁, ht₂] at hplan hnode
  obtain rfl := Option.some.inj hnode
  obtain rfl := Operator.conv.inj hop
  obtain rfl := Option.some.inj (Except.ok.inj hplan)
  exact ⟨rfl, rfl, nofun⟩

/-- A convolution of zeros with a bias of one. -/
noncomputable def convValues : ValueId → Exact.Arr
  | 0 | 2 => fill [1, 1, 1, 1] 0
  | 7 | 8 => fill [1, 1, 1, 1] 1
  | 4 | 5 => fill [1] 0
  | 6 => fill [1] (1 - (F32.asF64 (.ofBits 0)).real)
  | _ => fill [1] 1

theorem get_fill {d idx : List Nat} (h : Inside idx d) {a : ℝ} : (fill d a).get idx = a := get_tabulate h

theorem get_fill_zero {d idx : List Nat} : (fill d (0 : ℝ)).get idx = 0 := by
  unfold NdArray.get NdArray.at?
  cases h : (fill d (0 : ℝ)).data[rowMajor (fill d (0 : ℝ)).shape idx]? with
  | none => rfl
  | some a =>
      obtain ⟨n, -, rfl⟩ := List.mem_map.mp (List.mem_of_getElem? h)
      rfl

theorem tap_fill_zero {cv : Conv} {d size kernel pos k : List Nat} {n ch : Nat} :
    Exact.tap cv (fill d 0) size kernel n ch pos k = 0 := by
  have hall (source : Option (List Nat)) :
      (source.elim 0 fun i => (fill d (0 : ℝ)).get (Exact.image cv.inputLayout n ch i)) = 0 := by
    cases source <;> simp [get_fill_zero]
  exact hall _

theorem inside_channel {idx : List Nat} (h : Inside idx [1, 1, 1, 1]) : Inside [idx.getD 1 0] [1] := by
  obtain _ | ⟨-, _ | ⟨hch, -⟩⟩ := h
  exact .cons hch .nil

theorem convValues_holds : (exactAny ⟨0, 0, 0, 0⟩ fun _ => none).Holds (convGraph [some 0, some 2, some 1]) convValues where
  nodes id node hnode := by
    have hlt : id < 5 := (List.getElem?_eq_some_iff.mp (node?_eq_some.mp hnode).1).1
    interval_cases id <;> obtain rfl := Option.some.inj hnode
    · trivial
    · trivial
    · refine ⟨_, _, _, _, rfl, rfl, 1, 1, 1, [1, 1], [1, 1], rfl, rfl, rfl, one_dvd 1, ?_, ?_⟩
      · rintro b ⟨⟩
        rfl
      · refine (tabulate_congr fun idx hidx => ?_ : tabulate [1, 1, 1, 1] (fun _ => (1 : ℝ)) = _)
        have hbias : (fill [1] (1 : ℝ)).get [idx.getD 1 0] = 1 := get_fill (inside_channel hidx)
        show 1 = (∑ p ∈ Finset.range 1, _ * (fill [1, 1, 1, 1] (0 : ℝ)).get _) + (fill [1] (1 : ℝ)).get [idx.getD 1 0]
        rw [hbias]
        simp [get_fill_zero]
    · refine ⟨_, _, _, _, _, _, rfl, rfl, 1, rfl, rfl, rfl, rfl, rfl, ?_⟩
      refine (tabulate_congr fun idx hidx => ?_ : tabulate [1, 1, 1, 1] (fun _ => (1 : ℝ)) = _)
      show 1 = ((fill [1, 1, 1, 1] (1 : ℝ)).get idx - (fill [1] (0 : ℝ)).get [idx.getD 1 0]) /
        √((fill [1] (1 - (F32.asF64 (.ofBits 0)).real)).get [idx.getD 1 0] + (F32.asF64 (.ofBits 0)).real) *
          (fill [1] (1 : ℝ)).get [idx.getD 1 0] + (fill [1] (0 : ℝ)).get [idx.getD 1 0]
      simp only [get_fill hidx, get_fill (inside_channel hidx)]
      simp
    · trivial
  constants v t h := by
    change (if v = 2 then _ else if 3 ≤ v ∧ v ≤ 6 then _ else _) = _ at h
    split at h
    · rename_i hv
      obtain rfl := Option.some.inj h
      rw [hv]
      exact ⟨rfl, rfl⟩
    · split at h
      · rename_i hv
        obtain rfl := Option.some.inj h
        obtain ⟨h₁, h₂⟩ := hv
        interval_cases v <;> exact ⟨rfl, rfl⟩
      · cases h
  externals v r h := by cases h
  types v ty h := by
    have hlt : v < 9 := type_lt h
    interval_cases v <;> obtain rfl := Option.some.inj h <;> rfl

/-- A bias that is no initializer is dropped. -/
theorem convGraph_not_fused : Intact (.new (convGraph [some 0, some 2, some 1])) ∧
    ComputesNoConstant (convGraph [some 0, some 2, some 1]) ∧
    ∃ plan st', (matchPattern (fun _ => none) (.new (convGraph [some 0, some 2, some 1])) 2).Finds plan ∧
      run (fun _ => none) (.new (convGraph [some 0, some 2, some 1])) = .ok st' ∧
      ¬KeepsWith (exactAny ⟨0, 0, 0, 0⟩ fun _ => none) (.new (convGraph [some 0, some 2, some 1])) st'
        (FoldedIn (.new (convGraph [some 0, some 2, some 1])) plan) ∧
      ¬∀ t ∈ passTurns (visit fun _ => none) (.new (convGraph [some 0, some 2, some 1])) [2],
        Sound (fun _ => none) ⟨0, 0, 0, 0⟩ t.1 t.2.1 t.2.2 := by
  refine ⟨convGraph_intact rfl, convGraph_computes _, _, _, rfl, rfl, ?_⟩
  rw [← not_or]
  intro h
  have hkeeps := h.elim id fun hall => (hall _ List.mem_cons_self).keeps _ rfl
  obtain ⟨ρ', hρ', hagree, hfolded, hreads⟩ := hkeeps convValues convValues_holds
  -- the output reads the new value
  obtain ⟨v, hv, hval, -⟩ := hreads 8 (4, 0) ⟨_, rfl, rfl⟩
  obtain rfl : v = 11 := inputPairs_unique hv ⟨_, rfl, rfl⟩
  obtain ⟨x, w, rest, y, hins, houts, hconv⟩ := hρ'.nodes 5 _ rfl
  obtain rfl := Exact.output_eq (k := 0) (w := 11) houts rfl
  obtain rfl := Exact.input_eq (k := 0) (v := 0) hins rfl rfl
  rw [Exact.third_eq hins] at hconv
  obtain ⟨n, k, m, size, kernel, -, -, -, -, -, hy⟩ := hconv
  rw [hagree 0 (by decide)] at hy
  have hbias : (ρ' 10).get [0] = 0 := by
    have hget := hfolded.bias_get (m := 1) (by rw [hagree 3 (by decide)]; rfl)
      (by rw [hagree 4 (by decide)]; rfl) (by rw [hagree 5 (by decide)]; rfl) (by rw [hagree 6 (by decide)]; rfl)
      (by rintro b ⟨⟩) (Nat.one_pos : 0 < 1)
    rw [hagree 4 (by decide), hagree 5 (by decide)] at hget
    refine hget.trans ?_
    show (fill [1] (0 : ℝ)).get [0] - (fill [1] (0 : ℝ)).get [0] * _ = 0
    simp [get_fill_zero]
  have hinside : Inside [0, 0, 0, 0] [1, 1, 1, 1] := by decide
  -- the sum and the new bias are zero
  have hone : (ρ' 11).get [0, 0, 0, 0] = 1 := by
    rw [hval]
    exact get_fill hinside
  have hshape := congrArg NdArray.shape hy
  rw [hval, tabulate_shape] at hshape
  have hinside' := hinside
  change Inside [0, 0, 0, 0] (convValues 8).shape at hinside'
  rw [hshape] at hinside'
  have hzero : (ρ' 11).get [0, 0, 0, 0] = 0 := by
    rw [hy, get_tabulate hinside']
    show (∑ p ∈ Finset.range (k :: kernel).prod, Exact.tap _ (fill [1, 1, 1, 1] 0) _ _ _ _ _ _ * _) + (ρ' 10).get [0] = 0
    simp [tap_fill_zero, hbias]
  exact zero_ne_one (hzero.symm.trans hone)

end ConvBNFusion
end NnEngine
