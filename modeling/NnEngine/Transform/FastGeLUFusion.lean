import NnEngine.Transform.PatternExact

/-!
# Fusion of the approximation of GeLU

`FastGeLUFusion` of `src/transform/optimize/fast_gelu_fusion.rs`.  The pass takes a half of the input or the
constant `0.5` for the other operand of the last product, and then a product with the input if there is one.
`fastGeLUFusion_sound_iff` says along which runs exactly one factor is the input.
-/

namespace NnEngine

open DepthFirst InverseIndex SimpleGraphOp GraphState NdArray

namespace FastGeLUFusion

variable (files : Onnx.Files)

/-- `std::f64::consts::PI`. -/
def PI : F64 := .ofScientific 314159265358979323846264338327950288 (-35)

/-- `(other - expected).abs() < 1e-6`. -/
def isNear (expected other : F64) : Bool := (other - expected).abs < .ofScientific 1 (-6)

/-- The constant of one element that is the other operand. -/
def appliedConstant (g : Graph) (node : Node) (known : ValueId) : Except Stop (Option F64) :=
  (extractOtherBinaryInput node known).map fun other => do
    let other ← other
    let t ← Onnx.getInitializer files g other
    let sd ← t.data.toScalarData
    match sd with
    | .float _ v => some v
    | _ => none

/-- The closure `is_applied_constant`. -/
def isAppliedConstant (g : Graph) (node : Node) (known : ValueId) (expected : F64) : Except Stop Bool :=
  (appliedConstant files g node known).map fun v => v.any (isNear expected)

/-- A node of an operator with such a constant. -/
def applies (op : Operator) (expected : F64) (g : Graph) (node : Node) (known : ValueId) : Except Stop Bool :=
  andAlso (.ok (node.op == op)) (isAppliedConstant files g node known expected)

/-- `is_cube`. -/
def isCube (g : Graph) (node : Node) : Except Stop Bool :=
  match node.op with
  | .pow =>
      (orPanic node.inputs[1]?.join).map fun exponent =>
        ((Onnx.getInitializer files g exponent).bind fun t => t.data.toScalarData).any (·.matchesNat 3)
  | _ => .ok false

structure FastGeLUPattern where
  lastNode : NodeId
  input : ValueId
  deriving DecidableEq, Repr

/-- The half of the input, for the pattern of GPT-2. -/
def isHalfInput (st : GraphState) (x v : ValueId) : Except Stop Bool :=
  match st.maps.value2defined v with
  | none => .ok false
  | some place =>
      (orPanic (st.graph.node? place.1)).bind fun node => applies files .mul (.ofScientific 5 (-1)) st.graph node x

/-- The last product: with the half of the input, or with the constant for the pattern of BERT. -/
def isHalved (st : GraphState) (x : ValueId) (node : Node) (add : ValueId) : Except Stop Bool :=
  (extractOtherBinaryInput node add).bind fun
    | none => .ok false
    | some other =>
        (isHalfInput files st x other).bind fun isHalf =>
          if isHalf then .ok true else isAppliedConstant files st.graph node add (.ofScientific 5 (-1))

/-- What the search finds on its way. -/
structure Chain where
  x : ValueId
  cube : PatternMatcher
  mul : PatternMatcher
  add : PatternMatcher
  scaled : PatternMatcher
  tanh : PatternMatcher
  one : PatternMatcher
  product : PatternMatcher
  absorbed : Option PatternMatcher
  deriving DecidableEq

/-- The steps of `match_fast_gelu_pattern`. -/
def matchChain (st : GraphState) (cubeNode : NodeId) : Match Chain := do
  let cube ← PatternMatcher.new st cubeNode 0
  let node ← Match.unwrap (st.graph.node? cubeNode)
  let x ← Match.unwrap node.inputs[0]?.join
  let mul ← cube.andThen st (applies files .mul (.ofScientific 44715 (-6)) st.graph)
  let add ← mul.andThen st (isBinaryWith .add (· == x))
  let scaled ← add.andThen st (applies files .mul (.ofNat 2 / PI).sqrt st.graph)
  let tanh ← scaled.andThen st fun node _ => .ok (node.op == .tanh)
  let one ← tanh.andThen st (applies files .add (.ofNat 1) st.graph)
  let product ← one.andThen st fun node add => andAlso (.ok (node.op == .mul)) (isHalved files st x node add)
  let absorbed ← OptionT.mk ((product.tryThen st (isBinaryWith .mul (· == x))).map some)
  pure { x, cube, mul, add, scaled, tanh, one, product, absorbed }

/-- `match_fast_gelu_pattern`. -/
def matchPattern (st : GraphState) (cubeNode : NodeId) : Match FastGeLUPattern := do
  let chain ← matchChain files st cubeNode
  pure { lastNode := (chain.absorbed.getD chain.product).lastNode, input := chain.x }

/-- The body of the loop of `run` after the search. -/
def apply (st : GraphState) (pattern : FastGeLUPattern) : Except Stop GraphState :=
  (orPanic (st.graph.node? pattern.lastNode)).bind fun node =>
    (orPanic node.outputs[0]?).bind fun oldOutput =>
      st.replaceByNode oldOutput s!"FastGeLUFusion_Output{debugId pattern.lastNode}"
        s!"FastGeLUFusion{debugId pattern.lastNode}" [some pattern.input] (.geLU true)

/-- The body of the loop of `run`. -/
def visit : GraphState → NodeId → Except Stop GraphState := fuse (matchPattern files) apply

/-- The nodes that `run` collects. -/
def cubeNodes (g : Graph) : Except Stop (List NodeId) :=
  (g.iter.mapM fun x => (isCube files g x.2).map fun b => if b then some x.1 else none).map List.reduceOption

/-- `run`. -/
def run (st : GraphState) : Except Stop GraphState :=
  (cubeNodes files st.graph).bind fun nodes => nodes.foldlM (visit files) st

end FastGeLUFusion

/-- The steps up to the sum, seen from the shape of the input, and the factors. -/
theorem Exact.fastGeLU_of_steps {cs : Exact.GeLUConstants} {x cube mul add scaled tanh one half product out : Exact.Arr}
    {halves : Bool} (absorbs : Bool) (hcube : Pointwise (fun e => e ^ 3) x cube)
    (hmul : Pointwise (fun e => e * cs.cubic) cube mul) (hadd : Binary (· + ·) mul x add)
    (hscaled : Pointwise (fun e => e * cs.slope) add scaled) (htanh : Pointwise Real.tanh scaled tanh)
    (hone : Pointwise (fun e => e + cs.one) tanh one)
    (hhalf : half.shape.length ≤ x.shape.length →
      half.Spread x.shape fun idx => if halves then x.get idx * cs.half else cs.half)
    (hproduct : Binary (· * ·) one half product)
    (hout : if absorbs then Binary (· * ·) product x out else out = product) (hshape : out.shape = x.shape) :
    out = unary (fun r => (if absorbs then r else 1) * ((if halves then r else 1) * cs.half) *
      (cs.one + Real.tanh (cs.slope * (r + cs.cubic * r ^ 3)))) x := by
  have hlen : product.shape.length ≤ x.shape.length := by
    rw [← hshape]
    cases absorbs with
    | true => exact Binary.length_left hout
    | false => exact Nat.le_of_eq (congrArg _ (congrArg _ hout.symm))
  have hone' : one.shape.length ≤ x.shape.length := Nat.le_trans hproduct.length_left hlen
  have htanh' := Nat.le_trans hone.broadcasts.1 hone'
  have hscaled' := Nat.le_trans htanh.broadcasts.1 htanh'
  have hadd' := Nat.le_trans hscaled.broadcasts.1 hscaled'
  have hmul' := Nat.le_trans hadd.length_left hadd'
  have hx := spread_self x
  have hsum := (hmul.spread hmul' (hcube.spread (Nat.le_trans hmul.broadcasts.1 hmul') hx)).binary hx hadd
  have hinner := hone.spread hone' (htanh.spread htanh' (hscaled.spread hscaled' hsum))
  have hprod := hinner.binary (hhalf (Nat.le_trans hproduct.length_right hlen)) hproduct
  cases absorbs with
  | true =>
      refine ((hprod.binary hx hout).eq_tabulate hshape).trans (tabulate_congr fun idx _ => ?_)
      cases halves <;> simp only [if_true, if_false, Bool.false_eq_true] <;> ring_nf
  | false =>
      obtain rfl : out = product := hout
      refine (hprod.eq_tabulate hshape).trans (tabulate_congr fun idx _ => ?_)
      cases halves <;> simp only [if_true, if_false, Bool.false_eq_true] <;> ring_nf

namespace FastGeLUFusion

variable {files : Onnx.Files} {c : Exact.GeLUConstants} {st st' : GraphState} {g : Graph} {id : NodeId}
  {node : Node} {u v : ValueId} {ρ : ValueId → Exact.Arr} {plan : FastGeLUPattern} {chain : Chain}
  {cs : Exact.GeLUConstants} {expected : F64}

/-- The node has this constant as its other operand. -/
def AppliedAt (files : Onnx.Files) (g : Graph) (id : NodeId) (known : ValueId) (expected : F64) (r : ℝ) : Prop :=
  ∃ node v, g.node? id = some node ∧ appliedConstant files g node known = .ok (some v) ∧
    isNear expected v = true ∧ r = v.real

/-- The last product is with the half of the input. -/
def Chain.halvesInput (files : Onnx.Files) (st : GraphState) (chain : Chain) : Bool :=
  match st.graph.node? chain.product.lastNode with
  | none => false
  | some node =>
      match extractOtherBinaryInput node chain.one.currentValue with
      | .ok (some other) =>
          match isHalfInput files st chain.x other with
          | .ok b => b
          | .error _ => false
      | _ => false

/-- The constants of what is found. -/
structure Chain.HasConstants (files : Onnx.Files) (st : GraphState) (chain : Chain) (cs : Exact.GeLUConstants) :
    Prop where
  cubic : AppliedAt files st.graph chain.mul.lastNode chain.cube.currentValue (.ofScientific 44715 (-6)) cs.cubic
  slope : AppliedAt files st.graph chain.scaled.lastNode chain.add.currentValue (.ofNat 2 / PI).sqrt cs.slope
  one : AppliedAt files st.graph chain.one.lastNode chain.tanh.currentValue (.ofNat 1) cs.one
  half : ∃ node other, st.graph.node? chain.product.lastNode = some node ∧
    extractOtherBinaryInput node chain.one.currentValue = .ok (some other) ∧
    if chain.halvesInput files st then ∃ place, st.maps.value2defined other = some place ∧
      (∃ half, st.graph.node? place.1 = some half ∧ half.op = .mul) ∧
        AppliedAt files st.graph place.1 chain.x (.ofScientific 5 (-1)) cs.half
    else AppliedAt files st.graph chain.product.lastNode chain.one.currentValue (.ofScientific 5 (-1)) cs.half

/-- What the nodes compute from an element of the input. -/
noncomputable def Chain.function (files : Onnx.Files) (st : GraphState) (chain : Chain) (cs : Exact.GeLUConstants)
    (r : ℝ) : ℝ :=
  (if chain.absorbed.isSome then r else 1) * ((if chain.halvesInput files st then r else 1) * cs.half) *
    (cs.one + Real.tanh (cs.slope * (r + cs.cubic * r ^ 3)))

theorem applies_eq_ok {op : Operator} (h : applies files op expected g node u = .ok true) :
    node.op = op ∧ ∃ v, appliedConstant files g node u = .ok (some v) ∧ isNear expected v = true := by
  obtain ⟨hop, hconst⟩ := andAlso_eq_ok.mp h
  obtain ⟨o, ho, hany⟩ := map_eq_ok.mp hconst
  obtain ⟨v, rfl, hv⟩ := (Option.any_eq_true ..).mp hany
  exact ⟨beq_iff_eq.mp (Except.ok.inj hop), v, ho, hv⟩

theorem appliedConstant_eq_ok {v : F64} (h : appliedConstant files g node u = .ok (some v)) :
    ∃ other t ty, extractOtherBinaryInput node u = .ok (some other) ∧ Onnx.getInitializer files g other = some t ∧
      t.data.toScalarData = some (.float ty v) := by
  obtain ⟨o, ho, h⟩ := map_eq_ok.mp h
  obtain ⟨other, rfl, hinit⟩ := Option.bind_eq_some_iff.mp h
  obtain ⟨t, ht, hdata⟩ := Option.bind_eq_some_iff.mp hinit
  obtain ⟨sd, hsd, h⟩ := Option.bind_eq_some_iff.mp hdata
  cases sd with
  | float ty w =>
      obtain rfl := Option.some.inj h
      exact ⟨other, t, ty, ho, ht, hsd⟩
  | bool w => cases h
  | sInt ty w => cases h
  | uInt ty w => cases h

/-- What a node with a constant computes. -/
theorem applied_pointwise {m m' : PatternMatcher} {op : Operator} (hρ : (exact c files).Holds g ρ)
    (h : m.Next g (applies files op expected g) m' node) {f : ℝ → ℝ → ℝ}
    (hop : Exact.op c op = Exact.Two (Binary f)) (hcomm : ∀ a b, f a b = f b a) {r : ℝ}
    (happlied : AppliedAt files g m'.lastNode m.currentValue expected r) :
    Pointwise (fun e => f e r) (ρ m.currentValue) (ρ m'.currentValue) := by
  obtain ⟨rfl, -⟩ := applies_eq_ok h.2.2
  obtain ⟨node', v, hnode', hv, -, rfl⟩ := happlied
  obtain rfl := Option.some.inj (h.1.1.symm.trans hnode')
  obtain ⟨other, t, ty, hother, ht, hsd⟩ := appliedConstant_eq_ok hv
  exact (h.other hρ hop hcomm hother).pointwise (data_of_scalar hρ ht hsd)

theorem appliedAt_of_next {m m' : PatternMatcher} {op : Operator} (h : m.Next g (applies files op expected g) m' node) :
    ∃ r, AppliedAt files g m'.lastNode m.currentValue expected r := by
  obtain ⟨-, v, hv, hnear⟩ := applies_eq_ok h.2.2
  exact ⟨v.real, node, v, h.1.1, hv, hnear, rfl⟩

/-- The cube that the search starts from. -/
def IsCubeNode (files : Onnx.Files) (g : Graph) (id : NodeId) : Prop :=
  ∃ node, g.node? id = some node ∧ isCube files g node = .ok true

theorem isCube_pointwise (hρ : (exact c files).Holds g ρ) (h : isCube files g node = .ok true)
    (hnode : g.node? id = some node) (hx : node.inputs[0]? = some (some u)) (hout : node.outputs[0]? = some v) :
    Pointwise (fun e => e ^ 3) (ρ u) (ρ v) := by
  have hop := hρ.nodes _ _ hnode
  change Exact.op c node.op _ _ at hop
  unfold isCube at h
  split at h
  · rename_i hpow
    rw [hpow] at hop
    obtain ⟨exponent, hexp, hany⟩ := orPanic_map_eq_ok h
    obtain ⟨sd, hsd, hthree⟩ := (Option.any_eq_true ..).mp hany
    obtain ⟨t, ht, hsd⟩ := Option.bind_eq_some_iff.mp hsd
    have hdata := data_of_scalar hρ ht hsd
    rw [ScalarData.real_of_matchesNat (.inr (.inr rfl)) hthree] at hdata
    have hbin := hop.of_inputs hx (Option.join_eq_some_iff.mp hexp) hout
    simpa only [Real.rpow_natCast] using hbin.pointwise hdata
  · cases h

/-- The half that the last product is with, of the input or a constant. -/
theorem isHalved_spec {x add : ValueId} (h : isHalved files st x node add = .ok true) :
    ∃ other b, extractOtherBinaryInput node add = .ok (some other) ∧ isHalfInput files st x other = .ok b ∧
      (b = false → isAppliedConstant files st.graph node add (.ofScientific 5 (-1)) = .ok true) := by
  obtain ⟨o, ho, h⟩ := bind_eq_ok.mp h
  cases o with
  | none => cases h
  | some other =>
      obtain ⟨b, hb, h⟩ := bind_eq_ok.mp h
      refine ⟨other, b, ho, hb, ?_⟩
      rintro rfl
      exact h

theorem isHalfInput_spec {x other : ValueId} (h : isHalfInput files st x other = .ok true) :
    ∃ place half v, st.maps.value2defined other = some place ∧ st.graph.node? place.1 = some half ∧
      half.op = .mul ∧ appliedConstant files st.graph half x = .ok (some v) ∧
        isNear (.ofScientific 5 (-1)) v = true := by
  unfold isHalfInput at h
  split at h
  · cases h
  · rename_i place hplace
    obtain ⟨half, hhalf, h⟩ := orPanic_bind_eq_ok h
    obtain ⟨hop, v, hv, hnear⟩ := applies_eq_ok h
    exact ⟨place, half, v, hplace, hhalf, hop, hv, hnear⟩

theorem exists_constants (hst : Consistent st) (h : (matchChain files st id).Finds chain) :
    ∃ cs, chain.HasConstants files st cs := by
  unfold matchChain at h
  simp only [Match.finds_bind, Match.finds_unwrap, Match.finds_pure] at h
  obtain ⟨cube, -, -, -, x, -, mul, hmul, add, -, scaled, hscaled, tanh, -, one, hone, product, hproduct, absorbed, -,
    rfl⟩ := h
  obtain ⟨mulNode, hmul⟩ := PatternMatcher.finds_andThen hst hmul
  obtain ⟨scaledNode, hscaled⟩ := PatternMatcher.finds_andThen hst hscaled
  obtain ⟨oneNode, hone⟩ := PatternMatcher.finds_andThen hst hone
  obtain ⟨productNode, hproduct⟩ := PatternMatcher.finds_andThen hst hproduct
  obtain ⟨cubic, hcubic⟩ := appliedAt_of_next hmul
  obtain ⟨slope, hslope⟩ := appliedAt_of_next hscaled
  obtain ⟨r, hr⟩ := appliedAt_of_next hone
  obtain ⟨-, hhalved⟩ := andAlso_eq_ok.mp hproduct.2.2
  obtain ⟨other, b, hother, hb, hconst⟩ := isHalved_spec hhalved
  have hform : Chain.halvesInput files st ⟨x, cube, mul, add, scaled, tanh, one, product, absorbed⟩ = b := by
    unfold Chain.halvesInput
    simp only [hproduct.1.1, hother, hb]
  cases b with
  | true =>
      obtain ⟨place, half, v, hplace, hhalf, hop, hv, hnear⟩ := isHalfInput_spec hb
      refine ⟨⟨v.real, r, slope, cubic⟩, hcubic, hslope, hr, productNode, other, hproduct.1.1, hother, ?_⟩
      rw [hform, if_pos rfl]
      exact ⟨place, hplace, ⟨half, hhalf, hop⟩, half, v, hhalf, hv, hnear, rfl⟩
  | false =>
      obtain ⟨o, ho, hany⟩ := map_eq_ok.mp (hconst rfl)
      obtain ⟨v, rfl, hv⟩ := (Option.any_eq_true ..).mp hany
      refine ⟨⟨v.real, r, slope, cubic⟩, hcubic, hslope, hr, productNode, other, hproduct.1.1, hother, ?_⟩
      rw [hform, if_neg Bool.false_ne_true]
      exact ⟨productNode, v, hproduct.1.1, ho, hv, rfl⟩

/-- What is found computes the function of its factors. -/
theorem computes (hst : Consistent st) (h : (matchChain files st id).Finds chain)
    (hcube : IsCubeNode files st.graph id) (hcs : chain.HasConstants files st cs)
    (hρ : (exact c files).Holds st.graph ρ) :
    ∃ last out, st.graph.node? (chain.absorbed.getD chain.product).lastNode = some last ∧
      last.outputs[0]? = some out ∧
        ((ρ out).shape = (ρ chain.x).shape → ρ out = unary (chain.function files st cs) (ρ chain.x)) := by
  obtain ⟨cubeNode, hcubeNode, hcube⟩ := hcube
  obtain ⟨productNode, other, hproductNode, hother, hhalf⟩ := hcs.half
  unfold matchChain at h
  simp only [Match.finds_bind, Match.finds_unwrap, Match.finds_pure] at h
  obtain ⟨cube, hnew, node, hnode, x, hx, mul, hmul, add, hadd, scaled, hscaled, tanh, htanh, one, hone, product,
    hproduct, absorbed, habsorbed, rfl⟩ := h
  obtain ⟨node', hnode', hout, -⟩ := PatternMatcher.finds_new hnew
  obtain rfl := Option.some.inj (hnode.symm.trans hnode')
  obtain rfl := Option.some.inj (hnode.symm.trans hcubeNode)
  have hcubeEq := isCube_pointwise hρ hcube hnode (Option.join_eq_some_iff.mp hx) hout
  obtain ⟨mulNode, hmul⟩ := PatternMatcher.finds_andThen hst hmul
  have hmulEq := applied_pointwise hρ hmul rfl mul_comm hcs.cubic
  obtain ⟨addNode, hadd⟩ := PatternMatcher.finds_andThen hst hadd
  obtain ⟨x', hxx, haddEq⟩ := hadd.with hρ rfl add_comm
  obtain rfl := beq_iff_eq.mp hxx
  obtain ⟨scaledNode, hscaled⟩ := PatternMatcher.finds_andThen hst hscaled
  have hscaledEq := applied_pointwise hρ hscaled rfl mul_comm hcs.slope
  obtain ⟨tanhNode, htanh⟩ := PatternMatcher.finds_andThen hst htanh
  have htanhEq : Pointwise Real.tanh (ρ scaled.currentValue) (ρ tanh.currentValue) := by
    rw [htanh.unary hρ (congrArg (Exact.op c) (beq_iff_eq.mp (Except.ok.inj htanh.2.2)))]
    exact pointwise_unary _ _
  obtain ⟨oneNode, hone⟩ := PatternMatcher.finds_andThen hst hone
  have honeEq := applied_pointwise hρ hone rfl add_comm hcs.one
  obtain ⟨productNode', hproduct⟩ := PatternMatcher.finds_andThen hst hproduct
  obtain rfl := Option.some.inj (hproduct.1.1.symm.trans hproductNode)
  obtain ⟨hproductOp, -⟩ := andAlso_eq_ok.mp hproduct.2.2
  have hproductEq := hproduct.other hρ (congrArg (Exact.op c) (beq_iff_eq.mp (Except.ok.inj hproductOp))) mul_comm
    hother
  have hhalfEq : (ρ other).shape.length ≤ (ρ x').shape.length → (ρ other).Spread (ρ x').shape fun idx =>
      if Chain.halvesInput files st ⟨x', cube, mul, add, scaled, tanh, one, product, absorbed⟩ = true
      then (ρ x').get idx * cs.half else cs.half := by
    intro hle
    split at hhalf <;> rename_i hform
    · obtain ⟨place, hplace, ⟨half, hhalfNode, hhalfOp⟩, half', v, hhalf', hv, -, hreal⟩ := hhalf
      obtain rfl := Option.some.inj (hhalfNode.symm.trans hhalf')
      obtain ⟨half', hhalf', hhalfOut⟩ := defined_output hst hplace
      obtain rfl := Option.some.inj (hhalfNode.symm.trans hhalf')
      obtain ⟨k, t, ty, hk, ht, hsd⟩ := appliedConstant_eq_ok hv
      have hmulEq := (other_of_node hρ hhalfNode (congrArg (Exact.op c) hhalfOp) mul_comm hk hhalfOut).pointwise
        (data_of_scalar hρ ht hsd)
      simp only [hform, if_true, hreal]
      exact hmulEq.spread hle (spread_self _)
    · obtain ⟨node', v, hnode', hv, -, hreal⟩ := hhalf
      obtain rfl := Option.some.inj (hproductNode.symm.trans hnode')
      obtain ⟨k, t, ty, hk, ht, hsd⟩ := appliedConstant_eq_ok hv
      obtain rfl := Option.some.inj (Except.ok.inj (hother.symm.trans hk))
      simp only [hform, hreal]
      exact spread_single (data_of_scalar hρ ht hsd) hle
  obtain ⟨o, ho, hsome⟩ := map_eq_ok.mp habsorbed
  cases Option.some.inj hsome
  cases absorbed with
  | none =>
      exact ⟨productNode', product.currentValue, hproductNode, hproduct.1.2, fun hshape =>
        Exact.fastGeLU_of_steps false hcubeEq hmulEq haddEq hscaledEq htanhEq honeEq hhalfEq hproductEq
          rfl hshape⟩
  | some last =>
      obtain ⟨lastNode, hlast⟩ := PatternMatcher.tryThen_spec hst ho
      obtain ⟨x'', hxx', hlastEq⟩ := hlast.with hρ rfl mul_comm
      obtain rfl := beq_iff_eq.mp hxx'
      exact ⟨lastNode, last.currentValue, hlast.1.1, hlast.1.2, fun hshape =>
        Exact.fastGeLU_of_steps true hcubeEq hmulEq haddEq hscaledEq htanhEq honeEq hhalfEq hproductEq
          hlastEq hshape⟩

/-! ### The factors -/

/-- A constant that is near to one that is not zero is none. -/
theorem real_ne_zero_of_isNear {v : F64} (hexpected : expected = .ofScientific 5 (-1) ∨ expected = .ofNat 1)
    (h : isNear expected v = true) : v.real ≠ 0 := by
  change decide (Float.Model.abs (.pack (.sub .binary64 v.unpack expected.unpack)) < .ofScientific 1 (-6)) = true at h
  unfold F64.real F64.real?
  cases hv : v.unpack with
  | notANumber => rw [hv] at h; rcases hexpected with rfl | rfl <;> exact absurd h (by decide)
  | infinity s =>
      rw [hv] at h
      rcases hexpected with rfl | rfl <;> cases s <;> exact absurd h (by decide)
  | zero s =>
      rw [hv] at h
      rcases hexpected with rfl | rfl <;> cases s <;> exact absurd h (by decide)
  | finite s m e hm =>
      have hpos : (m : ℝ) * 2 ^ e ≠ 0 := by positivity
      cases s with
      | positive => exact hpos
      | negative => exact neg_ne_zero.mpr hpos

/-- The factor with the hyperbolic tangent is not zero at 2 or at -2. -/
theorem exists_factor (hone : cs.one ≠ 0) : ∃ r : ℝ, (r = 2 ∨ r = -2) ∧
    cs.one + Real.tanh (cs.slope * (r + cs.cubic * r ^ 3)) ≠ 0 := by
  by_cases htwo : cs.one + Real.tanh (cs.slope * (2 + cs.cubic * 2 ^ 3)) = 0
  · refine ⟨-2, .inr rfl, fun hneg => hone ?_⟩
    have hodd : cs.slope * (-2 + cs.cubic * (-2) ^ 3) = -(cs.slope * (2 + cs.cubic * 2 ^ 3)) := by ring
    rw [hodd, Real.tanh_neg] at hneg
    linarith
  · exact ⟨2, .inl rfl, htwo⟩

/-- The product is the approximation if exactly one factor is the input. -/
theorem function_eq_iff (hcs : chain.HasConstants files st cs) :
    (∀ r, chain.function files st cs r = cs.fastGeLU r) ↔ chain.halvesInput files st = !chain.absorbed.isSome := by
  have hone : cs.one ≠ 0 := by
    obtain ⟨node, v, -, -, hnear, hr⟩ := hcs.one
    rw [hr]
    exact real_ne_zero_of_isNear (.inr rfl) hnear
  have hhalf : cs.half ≠ 0 := by
    obtain ⟨node, other, -, -, h⟩ := hcs.half
    split at h
    · obtain ⟨place, -, -, node, v, -, -, hnear, hr⟩ := h
      rw [hr]
      exact real_ne_zero_of_isNear (.inl rfl) hnear
    · obtain ⟨node, v, -, -, hnear, hr⟩ := h
      rw [hr]
      exact real_ne_zero_of_isNear (.inl rfl) hnear
  unfold Chain.function Exact.GeLUConstants.fastGeLU
  generalize chain.halvesInput files st = halves
  generalize chain.absorbed.isSome = absorbs
  constructor
  · intro h
    by_contra hne
    obtain ⟨r, hr, hfactor⟩ := exists_factor hone
    have hcancel := mul_right_cancel₀ hfactor (h r)
    cases halves <;> cases absorbs <;> simp at hne hcancel <;> rcases hr with rfl | rfl <;>
      · apply hhalf
        linarith
  · intro h r
    subst h
    cases absorbs <;> simp only [Bool.not_true, Bool.not_false, if_true, if_false, Bool.false_eq_true] <;> ring

/-- The cube, the number of factors and the type of the result are as for the operator. -/
structure Fits (files : Onnx.Files) (st : GraphState) (id : NodeId) (chain : Chain) : Prop where
  cube : IsCubeNode files st.graph id
  factors : chain.halvesInput files st = !chain.absorbed.isSome
  result : ∃ last out ty, st.graph.node? (chain.absorbed.getD chain.product).lastNode = some last ∧
    last.outputs[0]? = some out ∧ st.graph.getResolvedTensorType chain.x = some ty ∧
      st.graph.getResolvedTensorType out = some ty

theorem apply_eq_ok (hok : apply st plan = .ok st') : ∃ last out, st.graph.node? plan.lastNode = some last ∧
    last.outputs[0]? = some out ∧
    st.replaceByNode out s!"FastGeLUFusion_Output{debugId plan.lastNode}"
      s!"FastGeLUFusion{debugId plan.lastNode}" [some plan.input] (.geLU true) = .ok st' := by
  obtain ⟨last, hlast, hok⟩ := orPanic_bind_eq_ok hok
  obtain ⟨out, hout, hok⟩ := orPanic_bind_eq_ok hok
  exact ⟨last, out, hlast, hout, hok⟩

theorem visit_eq_ok (hok : visit files st id = .ok st') : st' = st ∨
    ∃ chain, (matchChain files st id).Finds chain ∧
      apply st { lastNode := (chain.absorbed.getD chain.product).lastNode, input := chain.x } = .ok st' := by
  rcases fuse_eq_ok hok with rfl | ⟨plan, hplan, hok⟩
  · exact .inl rfl
  · obtain ⟨chain, hchain, hplan⟩ := Match.finds_bind.mp hplan
    rw [Match.finds_pure] at hplan
    obtain rfl := hplan
    exact .inr ⟨chain, hchain, hok⟩

/-- What is found is rewritten. -/
theorem visit_of_finds (hchain : (matchChain files st id).Finds chain) : visit files st id =
    apply st { lastNode := (chain.absorbed.getD chain.product).lastNode, input := chain.x } := by
  have hplan : (matchPattern files st id).Finds
      { lastNode := (chain.absorbed.getD chain.product).lastNode, input := chain.x } :=
    Match.finds_bind.mpr ⟨chain, hchain, Match.finds_pure.mpr rfl⟩
  unfold visit fuse
  rw [hplan]
  rfl

theorem inputs_lt (hst : Intact st) (h : (matchChain files st id).Finds chain) :
    ∀ v, some v ∈ [some chain.x] → v < st.graph.values.length := by
  unfold matchChain at h
  simp only [Match.finds_bind, Match.finds_unwrap, Match.finds_pure] at h
  obtain ⟨_, -, node, hnode, x, hx, _, -, _, -, _, -, _, -, _, -, _, -, _, -, rfl⟩ := h
  intro v hv
  obtain rfl := Option.some.inj (List.mem_singleton.mp hv)
  exact hst.inRange.inputs _ _ hnode _ (List.mem_of_getElem? (Option.join_eq_some_iff.mp hx))

theorem visit_intact (hst : Intact st) (hok : visit files st id = .ok st') :
    Intact st' ∧ st.graph.values.length ≤ st'.graph.values.length := by
  rcases visit_eq_ok hok with rfl | ⟨chain, hchain, hok⟩
  · exact ⟨hst, Nat.le_refl _⟩
  · obtain ⟨last, out, -, -, hok⟩ := apply_eq_ok hok
    exact replaceByNode_intact hst (inputs_lt hst hchain) hok

theorem apply_keeps (hst : Intact st) (hchain : (matchChain files st id).Finds chain)
    (hfits : Fits files st id chain) (hcs : chain.HasConstants files st cs)
    (hok : apply st { lastNode := (chain.absorbed.getD chain.product).lastNode, input := chain.x } = .ok st') :
    Keeps (exact cs files) st st' := by
  obtain ⟨last, out, hlast, hout, hok⟩ := apply_eq_ok hok
  obtain ⟨last', out', ty, hlast', hout', hx, hty⟩ := hfits.result
  obtain rfl := Option.some.inj (hlast.symm.trans hlast')
  obtain rfl := Option.some.inj (hout.symm.trans hout')
  refine (keeps_replaceByNode hst (inputs_lt hst hchain) (fun ρ hρ => ?_) hok).1
  obtain ⟨last', out', hlast', hout', hcomputes⟩ := computes hst.consistent hchain hfits.cube hcs hρ
  obtain rfl := Option.some.inj (hlast.symm.trans hlast')
  obtain rfl := Option.some.inj (hout.symm.trans hout')
  have hy : (ρ out).shape = ty.dims := hρ.types _ _ hty
  have hx' : (ρ chain.x).shape = ty.dims := hρ.types _ _ hx
  have hfun : chain.function files st cs = cs.fastGeLU := funext ((function_eq_iff hcs).mpr hfits.factors)
  refine ⟨_, _, rfl, rfl, ?_⟩
  rw [← hfun]
  exact hcomputes (hy.trans hx'.symm)

/-- The turn replaces the approximation of GeLU, with some constants, and at the type of the operator. -/
structure Sound (files : Onnx.Files) (st : GraphState) (id : NodeId) (st' : GraphState) (chain : Chain) :
    Prop where
  cube : IsCubeNode files st.graph id
  function : ∃ cs, chain.HasConstants files st cs ∧ (∀ r, chain.function files st cs r = cs.fastGeLU r) ∧
    Keeps (exact cs files) st st'
  declared : ∃ ty, st'.graph.getResolvedTensorType st.graph.values.length = some ty ∧
    st'.graph.getResolvedTensorType chain.x = some ty

theorem visit_sound (hst : Intact st) (hok : visit files st id = .ok st')
    (hchain : (matchChain files st id).Finds chain) : Sound files st id st' chain ↔ Fits files st id chain := by
  have happly := (visit_of_finds hchain).symm.trans hok
  obtain ⟨last, out, hlast, hout, hreplace⟩ := apply_eq_ok happly
  obtain ⟨hnew, hsame⟩ := replaceByNode_type hst.consistent hreplace
  have hlt := inputs_lt hst hchain chain.x (List.mem_singleton.mpr rfl)
  constructor
  · rintro ⟨hcube, ⟨cs, hcs, hfun, -⟩, ty, hty, hx⟩
    rw [hnew] at hty
    rw [hsame _ hlt] at hx
    exact ⟨hcube, (function_eq_iff hcs).mp hfun, last, out, ty, hlast, hout, hx, hty⟩
  · intro h
    obtain ⟨cs, hcs⟩ := exists_constants hst.consistent hchain
    obtain ⟨last', out', ty, hlast', hout', hx, hty⟩ := h.result
    obtain rfl := Option.some.inj (hlast.symm.trans hlast')
    obtain rfl := Option.some.inj (hout.symm.trans hout')
    refine ⟨h.cube, ⟨cs, hcs, (function_eq_iff hcs).mpr h.factors, apply_keeps hst hchain h hcs happly⟩, ty, ?_, ?_⟩
    · rw [hnew, hty]
    · rw [hsame _ hlt, hx]

theorem turns_intact (hst : Intact st) {l : List NodeId} :
    ∀ t ∈ passTurns (visit files) st l, Intact t.1 ∧ t.2.1 ∈ l ∧ visit files t.1 t.2.1 = .ok t.2.2 :=
  passTurns_induct (fun _ _ _ h _ hok => (visit_intact h hok).1) hst

/-- The replacements of a run are sound if exactly one factor of each is the input. -/
theorem fastGeLUFusion_sound_iff (hst : Intact st) {l : List NodeId} :
    (∀ t ∈ passTurns (visit files) st l, ∀ chain, (matchChain files t.1 t.2.1).Finds chain →
        Sound files t.1 t.2.1 t.2.2 chain) ↔
      ∀ t ∈ passTurns (visit files) st l, ∀ chain, (matchChain files t.1 t.2.1).Finds chain →
        Fits files t.1 t.2.1 chain := by
  refine forall₂_congr fun t ht => forall₂_congr fun chain hchain => ?_
  obtain ⟨hI, -, hok⟩ := turns_intact hst t ht
  exact visit_sound hI hok hchain

/-- Such a run keeps the meaning of the graph if all that is found has the same constants. -/
theorem fastGeLUFusion_keeps (hst : Intact st) {l : List NodeId} (hl : cubeNodes files st.graph = .ok l)
    (h : ∀ t ∈ passTurns (visit files) st l, ∀ chain, (matchChain files t.1 t.2.1).Finds chain →
      Fits files t.1 t.2.1 chain ∧ chain.HasConstants files t.1 cs)
    (hrun : run files st = .ok st') : Keeps (exact cs files) st st' := by
  rw [run, hl] at hrun
  refine keeps_of_passTurns (fun t ht => ?_) hrun
  obtain ⟨hI, -, hok⟩ := turns_intact hst t ht
  refine ⟨?_, (visit_intact hI hok).2⟩
  rcases visit_eq_ok hok with heq | ⟨chain, hchain, hok⟩
  · rw [heq]
    exact .refl _ _
  · obtain ⟨hfits, hcs⟩ := h t ht chain hchain
    exact apply_keeps hI hchain hfits hcs hok

/-- The approximation in the order of GPT-2, and its product with the input if it is gated. -/
def geluGraph (gated : Bool) : Graph where
  nodes :=
    [{ inputs := [], outputs := [0], name := "x", op := .input 0, markAsDeleted := false },
      { inputs := [some 0, some 1], outputs := [6], name := "cube", op := .pow, markAsDeleted := false },
      { inputs := [some 6, some 2], outputs := [7], name := "mul", op := .mul, markAsDeleted := false },
      { inputs := [some 7, some 0], outputs := [8], name := "add", op := .add, markAsDeleted := false },
      { inputs := [some 8, some 3], outputs := [9], name := "scaled", op := .mul, markAsDeleted := false },
      { inputs := [some 9], outputs := [10], name := "tanh", op := .tanh, markAsDeleted := false },
      { inputs := [some 10, some 4], outputs := [11], name := "one", op := .add, markAsDeleted := false },
      { inputs := [some 0, some 5], outputs := [12], name := "half", op := .mul, markAsDeleted := false },
      { inputs := [some 11, some 12], outputs := [13], name := "gelu", op := .mul, markAsDeleted := false },
      { inputs := [some 13, some 0], outputs := [14], name := "gate", op := .mul, markAsDeleted := !gated },
      { inputs := [some (if gated then 14 else 13)], outputs := [], name := "z",
        op := .output (if gated then 14 else 13), markAsDeleted := false }]
  inputs := [0]
  outputs := [10]
  values := List.replicate 1 { name := "x", ty := some (.resolved (.new (.float .F32) [2])) } ++
    List.replicate 5 { name := "k", ty := some (.resolved (.new (.float .F32) [])) } ++
    List.replicate 9 { name := "v", ty := some (.resolved (.new (.float .F32) [2])) }
  initializer := fun v =>
    match v with
    | 1 => some (scalarTensor (.ofNat 3))
    | 2 => some (scalarTensor (.ofScientific 44715 (-6)))
    | 3 => some (scalarTensor (.ofNat 2 / PI).sqrt)
    | 4 => some (scalarTensor (.ofNat 1))
    | 5 => some (scalarTensor (.ofScientific 5 (-1)))
    | _ => none
  externalRefs := fun _ => none

theorem geluGraph_intact (gated : Bool) : Intact (.new (geluGraph gated)) := by
  refine intact_new (by cases gated <;> decide) (fun v t h => ?_) fun _ _ h => by cases h
  by_contra hlt
  have hv : 15 ≤ v := Nat.le_of_not_lt hlt
  have hnone : (geluGraph gated).initializer v = none := by
    unfold geluGraph
    dsimp only
    split <;> first | rfl | exact absurd hv (by decide)
  rw [hnone] at h
  cases h

/-- What the search finds. -/
def geluChain (gated : Bool) : Chain where
  x := 0
  cube := ⟨6, 1⟩
  mul := ⟨7, 2⟩
  add := ⟨8, 3⟩
  scaled := ⟨9, 4⟩
  tanh := ⟨10, 5⟩
  one := ⟨11, 6⟩
  product := ⟨13, 8⟩
  absorbed := if gated then some ⟨14, 9⟩ else none

theorem geluGraph_finds (gated : Bool) :
    (matchChain (fun _ => none) (.new (geluGraph gated)) 1).Finds (geluChain gated) := by
  unfold Match.Finds
  cases gated <;> decide +kernel

theorem geluGraph_fits : Fits (fun _ => none) (.new (geluGraph false)) 1 (geluChain false) where
  cube := ⟨_, rfl, by decide⟩
  factors := by decide
  result := ⟨_, 13, .new (.float .F32) [2], rfl, rfl, rfl, rfl⟩

/-- The approximation in the order of GPT-2 is fused. -/
theorem geluGraph_fused : (matchChain (fun _ => none) (.new (geluGraph false)) 1).Finds (geluChain false) ∧
    ∀ t ∈ passTurns (visit fun _ => none) (.new (geluGraph false)) [1], ∀ chain,
      (matchChain (fun _ => none) t.1 t.2.1).Finds chain → Sound (fun _ => none) t.1 t.2.1 t.2.2 chain := by
  refine ⟨geluGraph_finds false, (fastGeLUFusion_sound_iff (geluGraph_intact false)).mpr fun t ht chain hchain => ?_⟩
  have hturn : t.1 = .new (geluGraph false) ∧ t.2.1 = 1 := by
    unfold passTurns at ht
    split at ht
    · exact (List.mem_singleton.mp ht) ▸ ⟨rfl, rfl⟩
    · cases ht
  obtain ⟨st, id, st'⟩ := t
  obtain ⟨rfl, rfl⟩ := hturn
  obtain rfl := Option.some.inj (Except.ok.inj (hchain.symm.trans (geluGraph_finds false)))
  exact geluGraph_fits

/-- The run keeps the approximation. -/
theorem geluGraph_kept : ∃ cs st', run (fun _ => none) (.new (geluGraph false)) = .ok st' ∧
    Keeps (exact cs fun _ => none) (.new (geluGraph false)) st' := by
  obtain ⟨cs, hcs⟩ := exists_constants (geluGraph_intact false).consistent (geluGraph_finds false)
  obtain ⟨st', hrun⟩ : ∃ st', run (fun _ => none) (.new (geluGraph false)) = .ok st' := by
    have hok : (run (fun _ => none) (.new (geluGraph false))).toBool = true := by decide +kernel
    cases hrun : run (fun _ => none) (.new (geluGraph false)) with
    | ok st' => exact ⟨st', rfl⟩
    | error e =>
        rw [hrun] at hok
        cases hok
  refine ⟨cs, st', hrun, fastGeLUFusion_keeps (geluGraph_intact false) (l := [1]) rfl (fun t ht chain hchain => ?_) hrun⟩
  obtain ⟨st, id, st'⟩ := t
  obtain ⟨rfl, rfl⟩ := mem_passTurns_singleton ht
  obtain rfl := Option.some.inj (Except.ok.inj (hchain.symm.trans (geluGraph_finds false)))
  exact ⟨geluGraph_fits, hcs⟩

/-- The constants of the graph. -/
noncomputable def geluConstants : Exact.GeLUConstants where
  half := F64.real (.ofScientific 5 (-1))
  one := F64.real (.ofNat 1)
  slope := F64.real (.ofNat 2 / PI : F64).sqrt
  cubic := F64.real (.ofScientific 44715 (-6))

attribute [local instance] atLeastTwo_three in
/-- What the values are if the input is `r` everywhere. -/
noncomputable def geluValues (r : ℝ) : ValueId → Exact.Arr
  | 0 => fill [2] r
  | 1 => fill [] 3
  | 2 => fill [] geluConstants.cubic
  | 3 => fill [] geluConstants.slope
  | 4 => fill [] geluConstants.one
  | 5 => fill [] geluConstants.half
  | 6 => fill [2] (r ^ (3 : ℝ))
  | 7 => fill [2] (r ^ (3 : ℝ) * geluConstants.cubic)
  | 8 => fill [2] (r ^ (3 : ℝ) * geluConstants.cubic + r)
  | 9 => fill [2] ((r ^ (3 : ℝ) * geluConstants.cubic + r) * geluConstants.slope)
  | 10 => fill [2] (Real.tanh ((r ^ (3 : ℝ) * geluConstants.cubic + r) * geluConstants.slope))
  | 11 => fill [2] (Real.tanh ((r ^ (3 : ℝ) * geluConstants.cubic + r) * geluConstants.slope) + geluConstants.one)
  | 12 => fill [2] (r * geluConstants.half)
  | 13 => fill [2] ((Real.tanh ((r ^ (3 : ℝ) * geluConstants.cubic + r) * geluConstants.slope) + geluConstants.one) *
      (r * geluConstants.half))
  | _ => fill [2] ((Real.tanh ((r ^ (3 : ℝ) * geluConstants.cubic + r) * geluConstants.slope) + geluConstants.one) *
      (r * geluConstants.half) * r)

theorem real?_eq_real {v : F64} (h : v.isFinite = true) : v.real? = some v.real := by
  unfold F64.real F64.real?
  change v.unpack.isFinite = true at h
  cases hv : v.unpack with
  | notANumber => rw [hv] at h; cases h
  | infinity s => rw [hv] at h; cases h
  | zero s => rfl
  | finite s m e hm => cases s <;> rfl

theorem geluValues_holds (cs : Exact.GeLUConstants) (r : ℝ) :
    (exact cs fun _ => none).Holds (geluGraph true) (geluValues r) where
  nodes id node hnode := by
    have hlt : id < 11 := (List.getElem?_eq_some_iff.mp (node?_eq_some.mp hnode).1).1
    have hbin (f : ℝ → ℝ → ℝ) {s : List Nat} (h : broadcastShape [2] s = .ok [2]) (a b : ℝ) :
        Binary f (fill [2] a) (fill s b) (fill [2] (f a b)) := binary_fill f h a b
    interval_cases id <;> obtain rfl := Option.some.inj hnode
    · trivial
    · exact ⟨_, _, _, rfl, rfl, hbin _ rfl _ _⟩
    · exact ⟨_, _, _, rfl, rfl, hbin _ rfl _ _⟩
    · exact ⟨_, _, _, rfl, rfl, hbin _ rfl _ _⟩
    · exact ⟨_, _, _, rfl, rfl, hbin _ rfl _ _⟩
    · exact ⟨_, _, rfl, rfl, (unary_fill _ _ _).symm⟩
    · exact ⟨_, _, _, rfl, rfl, hbin _ rfl _ _⟩
    · exact ⟨_, _, _, rfl, rfl, hbin _ rfl _ _⟩
    · exact ⟨_, _, _, rfl, rfl, hbin _ rfl _ _⟩
    · exact ⟨_, _, _, rfl, rfl, hbin _ rfl _ _⟩
    · trivial
  constants v t h := by
    unfold geluGraph at h
    dsimp only at h
    split at h
    · obtain rfl := Option.some.inj h
      exact Exact.isConstant_scalarTensor F64.real?_ofNat_three
    · obtain rfl := Option.some.inj h
      exact Exact.isConstant_scalarTensor (real?_eq_real (by decide))
    · obtain rfl := Option.some.inj h
      exact Exact.isConstant_scalarTensor (real?_eq_real (by decide +kernel))
    · obtain rfl := Option.some.inj h
      exact Exact.isConstant_scalarTensor (real?_eq_real (by decide))
    · obtain rfl := Option.some.inj h
      exact Exact.isConstant_scalarTensor (real?_eq_real (by decide))
    · cases h
  externals v r h := by cases h
  types v ty h := by
    have hlt : v < 15 := type_lt h
    interval_cases v <;> obtain rfl := Option.some.inj h <;> rfl

theorem geluGraph_constants (gated : Bool) :
    (geluChain gated).HasConstants (fun _ => none) (.new (geluGraph gated)) geluConstants where
  cubic := ⟨_, _, rfl, rfl, by decide, rfl⟩
  slope := ⟨_, _, rfl, rfl, by decide +kernel, rfl⟩
  one := ⟨_, _, rfl, rfl, by decide, rfl⟩
  half := by
    have hform : (geluChain gated).halvesInput (fun _ => none) (.new (geluGraph gated)) = true := by
      cases gated <;> decide +kernel
    have hplace : (GraphState.new (geluGraph gated)).maps.value2defined 12 = some (7, 0) := by
      cases gated <;> decide +kernel
    refine ⟨_, 12, rfl, rfl, ?_⟩
    rw [if_pos hform]
    exact ⟨(7, 0), hplace, ⟨_, rfl, rfl⟩, _, _, rfl, rfl, by decide, rfl⟩

/-- A product of the approximation with its input is taken for a part of it. -/
theorem geluGraph_not_fused : Intact (.new (geluGraph true)) ∧
    cubeNodes (fun _ => none) (geluGraph true) = .ok [1] ∧
    (geluChain true).HasConstants (fun _ => none) (.new (geluGraph true)) geluConstants ∧
    ∃ st', run (fun _ => none) (.new (geluGraph true)) = .ok st' ∧
      ¬Keeps (exact geluConstants fun _ => none) (.new (geluGraph true)) st' ∧
      ¬∀ t ∈ passTurns (visit fun _ => none) (.new (geluGraph true)) [1],
        ∀ chain, (matchChain (fun _ => none) t.1 t.2.1).Finds chain →
          Sound (fun _ => none) t.1 t.2.1 t.2.2 chain := by
  have hnodes : cubeNodes (fun _ => none) (GraphState.new (geluGraph true)).graph = .ok [1] := by decide
  have hvisit := visit_of_finds (geluGraph_finds true)
  have hrun : run (fun _ => none) (.new (geluGraph true)) =
      apply (.new (geluGraph true)) { lastNode := 9, input := 0 } := by
    rw [run, hnodes]
    show [1].foldlM (visit fun _ => none) (.new (geluGraph true)) = _
    rw [List.foldlM_cons, hvisit]
    rfl
  refine ⟨geluGraph_intact true, hnodes, geluGraph_constants true, _, hrun, ?_, fun hall => ?_⟩
  · intro hkeeps
    have hone : geluConstants.one ≠ 0 := by
      show F64.real (.ofNat 1) ≠ 0
      simp
    have hhalf : F64.real (.ofScientific 5 (-1)) ≠ 0 := real_ne_zero_of_isNear (.inl rfl) (by decide)
    change geluConstants.half ≠ 0 at hhalf
    obtain ⟨r, hr, hfactor⟩ := exists_factor hone
    obtain ⟨ρ', hρ', hagree, hreads⟩ := hkeeps (geluValues r) (geluValues_holds _ r)
    obtain ⟨w, ⟨node, hnode, hw⟩, hval, -⟩ := hreads 14 (10, 0) ⟨_, rfl, rfl⟩
    obtain rfl := Option.some.inj hnode
    obtain rfl : 15 = w := Option.some.inj (Option.some.inj hw)
    obtain ⟨x, y, hins, houts, hy⟩ := hρ'.nodes 11 _ rfl
    obtain rfl := Exact.input_eq (k := 0) (v := 0) hins rfl rfl
    obtain rfl := Exact.output_eq (k := 0) (w := 15) houts rfl
    rw [hagree 0 (by decide), hval] at hy
    -- the element at 0 has a factor too many
    have hget := congrArg (fun y => NdArray.get y [0]) hy
    have hinside : Inside [0] [2] := .cons (by decide) .nil
    simp only [geluValues, unary_fill] at hget
    rw [fill, fill, get_tabulate hinside, get_tabulate hinside] at hget
    unfold Exact.GeLUConstants.fastGeLU at hget
    have hcube : r ^ (3 : ℝ) = r ^ 3 := by exact_mod_cast Real.rpow_natCast r 3
    rw [hcube] at hget
    have hcancel : (r * geluConstants.half * r) * (geluConstants.one + Real.tanh (geluConstants.slope *
        (r + geluConstants.cubic * r ^ 3))) = (geluConstants.half * r) * (geluConstants.one +
          Real.tanh (geluConstants.slope * (r + geluConstants.cubic * r ^ 3))) := by
      rw [← hget]
      ring_nf
    have hfactors := mul_right_cancel₀ hfactor hcancel
    apply hhalf
    rcases hr with rfl | rfl <;> linarith
  · obtain ⟨-, ⟨cs, hcs, hfun, -⟩, -⟩ :=
      hall _ (mem_passTurns (hvisit.trans rfl) []) (geluChain true) (geluGraph_finds true)
    have hform : (geluChain true).halvesInput (fun _ => none) (.new (geluGraph true)) = true := by decide +kernel
    cases hform.symm.trans ((function_eq_iff hcs).mp hfun)

end FastGeLUFusion
end NnEngine
