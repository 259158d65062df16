import NnEngine.Onnx.Attributes
import NnEngine.Onnx.Loaded

/-!
# Operators through a file

An operator that the loader can return, also after `prop_constant`, is loaded back from its saved name
and attributes if and only if it keeps no value that came from an input.
-/

namespace NnEngine
namespace Onnx

variable {files : Files} {baseDir : Option String}

/-- Saving an operator and loading it.  `load_op` looks at no input. -/
def reload (files : Files) (baseDir : Option String) (op : Operator) : LoadResult Operator :=
  match operatorAttrs op with
  | none => .error .panic
  | some attrs => (loadAttributes files baseDir attrs).bind (loadOp (operatorName op))

/-- What `operator_attrs` says all of: no value came from an input, and there is no `bf16` that cannot be
read back. -/
def Kept : Operator → Prop
  | .clip c => c.min = none ∧ c.max = none
  | .oneHot o => o.depth = none ∧ o.offValue = none ∧ o.onValue = none
  | .resize r => r.scale = none
  | .constantOfShape value => value.elemType ≠ .float .BF16
  | .constant tensor => tensor.data ≠ .float .BF16 []
  | _ => True

instance (op : Operator) : Decidable (Kept op) := by
  cases op <;> unfold Kept <;> infer_instance

theorem reload_of_loadAttributes {op : Operator} {attrs : List AttributeProto} {m : Attributes}
    (hattrs : operatorAttrs op = some attrs) (hm : loadAttributes files baseDir attrs = .ok m) :
    reload files baseDir op = loadOp (operatorName op) m := by
  rw [reload, hattrs]
  change (loadAttributes files baseDir attrs).bind _ = _
  rw [hm]
  rfl

theorem reload_eq {op : Operator} {attrs : List AttributeProto} {m : Attributes}
    (hattrs : operatorAttrs op = some attrs) (hm : Loads files baseDir attrs m) :
    reload files baseDir op = loadOp (operatorName op) m :=
  reload_of_loadAttributes hattrs hm.loadAttributes

/-! ### Reading back -/

theorem mapM_usize {l : List Nat} (h : ∀ x ∈ l, x < 2 ^ 63) :
    (l.map Int64.ofNat).mapM Attribute.usize = .ok l := by
  rw [mapM_eq_ok, List.forall₂_map_left_iff, List.forall₂_same]
  intro x hx
  rw [Attribute.usize, if_neg (ofNat_not_neg (h x hx)), Int64.toNatClampNeg_ofNat_of_lt (h x hx)]

theorem usizes_ints {l : List Nat} (h : ∀ x ∈ l, x < 2 ^ 63) :
    (Attribute.ints (l.map Int64.ofNat)).usizes = .ok l := mapM_usize h

theorem loadOnes_optional {m : Attributes} {name : String} {v : OptionalVec Nat} (hv : LoadedVec v)
    (hm : m name = v.vec.map fun l => .ints (l.map Int64.ofNat)) : loadOnes m name = .ok v := by
  obtain ⟨vec, dflt⟩ := v
  cases hv.default
  cases vec with
  | none => rw [loadOnes, Attributes.get, hm]; rfl
  | some l =>
      rw [loadOnes, Attributes.get, hm]
      change ((Attribute.ints (l.map Int64.ofNat)).usizes.map some).map _ = _
      rw [usizes_ints (hv.lt l rfl)]
      rfl

theorem getOr_flag {m : Attributes} {name : String} {b : Bool}
    (h : m name = if b then some (.int 1) else none) : m.getOr name Attribute.b false = .ok b := by
  cases b with
  | false => exact Attributes.getOr_none h
  | true => exact Attributes.getOr_some h rfl

/-! ### Pads -/

theorem loadPads_append (v : List (Nat × Nat)) :
    loadPads (v.map Prod.fst ++ v.map Prod.snd) = .ok v := by
  have hlen : (v.map Prod.fst ++ v.map Prod.snd).length = 2 * v.length := by
    rw [List.length_append, List.length_map, List.length_map, two_mul]
  have hhalf : 2 * v.length / 2 = (v.map Prod.fst).length := by
    rw [List.length_map]
    omega
  rw [loadPads, hlen, if_neg (by omega), hhalf, List.take_left, List.drop_left, ← List.unzip_fst,
    ← List.unzip_snd, List.zip_unzip]

/-- What the attributes of a padding are for the loader. -/
def padValues : ConvPad → Attributes
  | .notSet pads => .only "pads" (pads.vec.map fun v =>
      .ints ((v.map Prod.fst ++ v.map Prod.snd).map Int64.ofNat))
  | .sameUpper => .only "auto_pad" (some (.str "SAME_UPPER"))
  | .sameLower => .only "auto_pad" (some (.str "SAME_LOWER"))
  | .valid => .only "auto_pad" (some (.str "VALID"))

theorem loads_convPad (pad : ConvPad) : Loads files baseDir (convPadAttrs pad) (padValues pad) := by
  cases pad with
  | notSet pads =>
      obtain ⟨vec, dflt⟩ := pads
      cases vec with
      | none => exact loads_optionalInts "pads" Int64.ofNat none
      | some v =>
          have hints := @loads_ints files baseDir "pads" ((v.map Prod.fst ++ v.map Prod.snd).map Int64.ofNat)
          rw [List.map_append, List.map_map, List.map_map] at hints
          rw [padValues, Option.map_some, List.map_append, List.map_map, List.map_map]
          exact hints
  | sameUpper => exact loads_string _ _
  | sameLower => exact loads_string _ _
  | valid => exact loads_string _ _

theorem padValues_of_ne (pad : ConvPad) {k : String} (hauto : k ≠ "auto_pad") (hpads : k ≠ "pads") :
    padValues pad k = none := by
  cases pad with
  | notSet pads => exact Attributes.only_of_ne _ hpads
  | sameUpper => exact Attributes.only_of_ne _ hauto
  | sameLower => exact Attributes.only_of_ne _ hauto
  | valid => exact Attributes.only_of_ne _ hauto

theorem loadConvPad_eq {m : Attributes} {pad : ConvPad} (hpad : LoadedPad pad)
    (hauto : m "auto_pad" = padValues pad "auto_pad") (hpads : m "pads" = padValues pad "pads") :
    loadConvPad m = .ok pad := by
  cases pad with
  | notSet pads =>
      obtain ⟨vec, dflt⟩ := pads
      obtain ⟨hdflt, hlt⟩ := hpad
      cases hdflt
      rw [loadConvPad, Attributes.getOr_none hauto]
      cases vec with
      | none =>
          rw [Attributes.get_none hpads]
          rfl
      | some v =>
          have hmem : ∀ x ∈ v.map Prod.fst ++ v.map Prod.snd, x < 2 ^ 63 := by
            intro x hx
            obtain hx | hx := List.mem_append.mp hx
            · obtain ⟨p, hp, rfl⟩ := List.mem_map.mp hx
              exact (hlt v rfl p hp).1
            · obtain ⟨p, hp, rfl⟩ := List.mem_map.mp hx
              exact (hlt v rfl p hp).2
          have hread : ((Attribute.ints ((v.map Prod.fst ++ v.map Prod.snd).map Int64.ofNat)).usizes.bind
              loadPads) = .ok v := by
            rw [usizes_ints hmem]
            exact loadPads_append v
          rw [Attributes.get_some hpads hread]
          rfl
  | sameUpper =>
      have hread : m.getOr "auto_pad" Attribute.s "NOTSET" = .ok "SAME_UPPER" := Attributes.getOr_some hauto rfl
      rw [loadConvPad, hread, Attributes.get_none hpads]
      rfl
  | sameLower =>
      have hread : m.getOr "auto_pad" Attribute.s "NOTSET" = .ok "SAME_LOWER" := Attributes.getOr_some hauto rfl
      rw [loadConvPad, hread, Attributes.get_none hpads]
      rfl
  | valid =>
      have hread : m.getOr "auto_pad" Attribute.s "NOTSET" = .ok "VALID" := Attributes.getOr_some hauto rfl
      rw [loadConvPad, hread, Attributes.get_none hpads]
      rfl

/-! ### Convolutions and pools -/

theorem reload_conv {c : Conv} (h : LoadedConv c) : reload files baseDir (.conv c) = .ok (.conv c) := by
  have hm : Loads files baseDir (convAttrs c) _ :=
    ((((loads_optionalInts "dilations" Int64.ofNat c.dilations.vec).append
      (loads_int "group" (Int64.ofNat c.group)).ite).append
      (loads_ints "kernel_shape" (c.kernelShape.map Int64.ofNat))).append
      (loads_optionalInts "strides" Int64.ofNat c.strides.vec)).append (loads_convPad c.pad)
  rw [reload_eq rfl hm]
  generalize hvalues : Attributes.append _ _ = m
  have hdilations : loadOnes m "dilations" = .ok c.dilations :=
    loadOnes_optional h.dilations (by simp [← hvalues, padValues_of_ne])
  have hstrides : loadOnes m "strides" = .ok c.strides :=
    loadOnes_optional h.strides (by simp [← hvalues, padValues_of_ne])
  have hgroup : m.getOr "group" Attribute.i 1 = .ok (Int64.ofNat c.group) := by
    have hget : m "group" = if c.group ≠ 1 then some (.int (Int64.ofNat c.group)) else none := by
      simp [← hvalues, padValues_of_ne]
    exact Attributes.getOr_ite hget rfl fun hone => by rw [not_ne_iff.mp hone]; rfl
  have hkernelShape : loadConvKernelShape m = .ok c.kernelShape := by
    have hget : m "kernel_shape" = some (.ints (c.kernelShape.map Int64.ofNat)) := by
      simp [← hvalues, padValues_of_ne]
    rw [loadConvKernelShape, hget]
    exact usizes_ints h.kernelShape
  have hpad : loadConvPad m = .ok c.pad := loadConvPad_eq h.pad (by simp [← hvalues]) (by simp [← hvalues])
  have hnat : (Int64.ofNat c.group).toUInt64.toNat = c.group := UInt64.toNat_ofNat_of_lt h.group_lt
  change (loadConv m).map _ = _
  rw [loadConv, hdilations, hstrides, hgroup, hkernelShape, hpad]
  change Except.ok (Operator.conv _) = _
  rw [hnat]
  obtain ⟨pad, dilations, group, kernelShape, strides, inputLayout, outputLayout, activation⟩ := c
  cases h.inputLayout
  cases h.outputLayout
  cases h.activation
  rfl

/-- The attributes of a pool. -/
theorem loads_pooling {p : Pooling} (h : LoadedPooling p) :
    ∃ m, Loads files baseDir (poolingAttrs p) m ∧ loadPooling m = .ok p := by
  have hm : Loads files baseDir (poolingAttrs p) _ :=
    ((((loads_int "ceil_mode" 1).ite.append
      (loads_optionalInts "dilations" Int64.ofNat p.dilations.vec)).append
      (loads_ints "kernel_shape" (p.kernelShape.map Int64.ofNat))).append
      (loads_optionalInts "strides" Int64.ofNat p.strides.vec)).append (loads_convPad p.pad)
  refine ⟨_, hm, ?_⟩
  generalize hvalues : Attributes.append _ _ = m
  have hdilations : loadOnes m "dilations" = .ok p.dilations :=
    loadOnes_optional h.dilations (by simp [← hvalues, padValues_of_ne])
  have hstrides : loadOnes m "strides" = .ok p.strides :=
    loadOnes_optional h.strides (by simp [← hvalues, padValues_of_ne])
  have hceilMode : m.getOr "ceil_mode" Attribute.b false = .ok p.ceilMode := by
    have hget : m "ceil_mode" = if p.ceilMode then some (.int 1) else none := by
      simp [← hvalues, padValues_of_ne]
    exact getOr_flag hget
  have hkernelShape : (m.required "kernel_shape").bind Attribute.usizes = .ok p.kernelShape := by
    have hget : m "kernel_shape" = some (.ints (p.kernelShape.map Int64.ofNat)) := by
      simp [← hvalues, padValues_of_ne]
    rw [Attributes.required_some hget]
    exact usizes_ints h.kernelShape
  have hpad : loadConvPad m = .ok p.pad := loadConvPad_eq h.pad (by simp [← hvalues]) (by simp [← hvalues])
  rw [loadPooling, hdilations, hstrides, hceilMode, hkernelShape, hpad]
  obtain ⟨pad, ceilMode, dilations, kernelShape, strides, layout⟩ := p
  cases h.layout
  rfl

/-! ### The other operators -/

theorem reload_attention (attn : Attention) :
    reload files baseDir (.attention attn) = .ok (.attention attn) := by
  obtain ⟨isCausal, scale⟩ := attn
  cases isCausal <;> rfl

theorem reload_cast (target : DataType) : reload files baseDir (.cast target) = .ok (.cast target) := by
  cases target with
  | bool => rfl
  | sInt t => cases t <;> rfl
  | uInt t => cases t <;> rfl
  | float t => cases t <;> rfl

/-- The bounds are saved as attributes that the loader does not read. -/
theorem reload_clip (c : Clip) :
    reload files baseDir (.clip c) = .ok (.clip { min := none, max := none }) := by
  obtain ⟨min, max⟩ := c
  cases min <;> cases max <;> rfl

theorem reload_oneHot (o : OneHot) : reload files baseDir (.oneHot o) =
    .ok (.oneHot { o with depth := none, offValue := none, onValue := none }) := rfl

theorem reload_constant {tensor : Tensor} (h : LoadedTensor tensor) :
    reload files baseDir (.constant tensor) = .ok (.constant tensor) ↔ tensor.data ≠ .float .BF16 [] := by
  have hload := @loadTensor_tensorToProto files baseDir tensor h
  constructor
  · intro hreload hdata
    rw [if_pos hdata] at hload
    change ((((loadTensor files (tensorToProto tensor) baseDir).map Attribute.tensor).map _).bind pure).bind _ = _
      at hreload
    rw [hload] at hreload
    cases hreload
  · intro hdata
    rw [if_neg hdata] at hload
    exact (reload_eq rfl (loads_tensor hload)).trans rfl

theorem reload_constantOfShape {value : ScalarData} (h : (scalarData value).Loaded) :
    reload files baseDir (.constantOfShape value) = .ok (.constantOfShape value) ↔
      value.elemType ≠ .float .BF16 := by
  by_cases hbf16 : value.elemType = .float .BF16
  · have hattrs : operatorAttrs (.constantOfShape value) = none := by
      rw [operatorAttrs, scalarToTensorProto, if_pos hbf16]
      rfl
    rw [reload, hattrs]
    exact iff_of_false (fun h => nomatch h) (not_not_intro hbf16)
  · obtain ⟨proto, hproto⟩ : ∃ proto, scalarToTensorProto value = some proto := ⟨_, if_neg hbf16⟩
    have hattrs : operatorAttrs (.constantOfShape value) = some [attrTensor "value" proto] := by
      rw [operatorAttrs, hproto]
      rfl
    obtain ⟨tensor, htensor, hscalar⟩ := @loadTensor_scalarToTensorProto files baseDir value proto h hproto
    refine iff_of_true ?_ hbf16
    rw [reload_eq hattrs (loads_tensor htensor)]
    change Except.ok (Operator.constantOfShape (tensor.data.toScalarData.getD _)) = _
    rw [hscalar]
    rfl

theorem reload_dynamicQuantizeLinear (d : DynamicQuantizeLinear) :
    reload files baseDir (.dynamicQuantizeLinear d) = .ok (.dynamicQuantizeLinear d) := by
  obtain ⟨axis, symmetric⟩ := d
  cases axis <;> cases symmetric <;> rfl

theorem reload_geLU (approximate : Bool) :
    reload files baseDir (.geLU approximate) = .ok (.geLU approximate) := by
  rw [reload_eq rfl (loads_string _ _)]
  cases approximate <;> rfl

/-- The default of a factor is 1 also as `f64`. -/
theorem asF64_one : F32.asF64 F32Const.one = .ofNat 1 := by decide

theorem getOr_factor {m : Attributes} {name : String} {x : F32}
    (h : m name = if F32.asF64 x ≠ .ofNat 1 then some (.float (F64.asF32 (F32.asF64 x))) else none) :
    (m.getOr name Attribute.f F32Const.one).map F32.asF64 = .ok (F32.asF64 x) := by
  by_cases hx : F32.asF64 x = .ofNat 1
  · rw [Attributes.getOr_none (h.trans (if_neg (not_not_intro hx))), hx]
    exact congrArg Except.ok asF64_one
  · have hread : m.getOr name Attribute.f F32Const.one = .ok (F64.asF32 (F32.asF64 x)) :=
      Attributes.getOr_some (h.trans (if_pos hx)) rfl
    rw [hread, F64.asF32_asF64]
    rfl

theorem reload_gemm {g : Gemm} (h : LoadedOperator (.gemm g)) :
    reload files baseDir (.gemm g) = .ok (.gemm g) := by
  obtain ⟨alpha', beta', transA, transB⟩ := g
  obtain ⟨alpha, beta, rfl : alpha' = _, rfl : beta' = _⟩ := h
  have hm : Loads files baseDir (gemmAttrs ⟨F32.asF64 alpha, F32.asF64 beta, transA, transB⟩) _ :=
    (((loads_int "transA" 1).ite.append (loads_int "transB" 1).ite).append
      (loads_float "alpha" (F64.asF32 (F32.asF64 alpha))).ite).append
      (loads_float "beta" (F64.asF32 (F32.asF64 beta))).ite
  rw [reload_eq rfl hm]
  generalize hvalues : Attributes.append _ _ = m
  have htransA : m.getOr "transA" Attribute.b false = .ok transA := getOr_flag (by simp [← hvalues])
  have htransB : m.getOr "transB" Attribute.b false = .ok transB := getOr_flag (by simp [← hvalues])
  obtain ⟨x, hx, hxalpha⟩ := map_eq_ok.mp (@getOr_factor m "alpha" alpha (by simp [← hvalues]))
  obtain ⟨y, hy, hybeta⟩ := map_eq_ok.mp (@getOr_factor m "beta" beta (by simp [← hvalues]))
  change (loadGemm m).map _ = _
  rw [loadGemm, htransA, htransB, hx, hy, ← hxalpha, ← hybeta]
  rfl

theorem reload_layerNormalization {l : Normalization} (h : LoadedOperator (.layerNormalization l)) :
    reload files baseDir (.layerNormalization l) = .ok (.layerNormalization l) := by
  obtain ⟨axis, epsilon⟩ := l
  obtain ⟨epsilon', rfl : epsilon = _⟩ := h
  have hreload : reload files baseDir (.layerNormalization ⟨axis, F32.asF64 epsilon'⟩) =
      .ok (.layerNormalization ⟨axis, F32.asF64 (F64.asF32 (F32.asF64 epsilon'))⟩) := rfl
  rw [hreload, F64.asF32_asF64]

theorem reload_leakyReLU {alpha : F64} (h : LoadedOperator (.leakyReLU alpha)) :
    reload files baseDir (.leakyReLU alpha) = .ok (.leakyReLU alpha) := by
  obtain ⟨x, rfl⟩ := h
  have hreload : reload files baseDir (.leakyReLU (F32.asF64 x)) =
      .ok (.leakyReLU (F32.asF64 (F64.asF32 (F32.asF64 x)))) := rfl
  rw [hreload, F64.asF32_asF64]

/-- The attributes of a reduction. -/
theorem load_reduceAttrs (r : Reduce) :
    ∃ m, loadAttributes files baseDir (reduceAttrs r) = .ok m ∧ loadReduce m = .ok r := by
  obtain ⟨axes, keepdims⟩ := r
  cases axes <;> cases keepdims <;> exact ⟨_, rfl, rfl⟩

theorem map_mk_raw (axes : List TensorIndex) : (axes.map TensorIndex.raw).map TensorIndex.mk = axes :=
  map_map_eq_self fun _ _ => rfl

theorem reload_resize (r : Resize) :
    reload files baseDir (.resize r) = .ok (.resize { r with scale := none }) := by
  obtain ⟨axes, ⟨⟩, policy, ⟨nearest⟩, scale⟩ := r
  have hreload : reload files baseDir (.resize ⟨axes, .halfPixel, policy, .nearest nearest, scale⟩) =
      .ok (.resize ⟨axes.map fun v => (v.map TensorIndex.raw).map TensorIndex.mk, .halfPixel, policy,
        .nearest nearest, none⟩) := by
    cases axes <;> cases policy <;> cases nearest <;> rfl
  simp only [hreload, map_mk_raw, Option.map_id_fun', id]

theorem reload_shape (s : Shape) : reload files baseDir (.shape s) = .ok (.shape s) := by
  obtain ⟨⟨start⟩, finish⟩ := s
  have hm : Loads files baseDir (shapeAttrs ⟨⟨start⟩, finish⟩) (Attributes.append
      (.only "start" (if start ≠ 0 then some (.int start) else none))
      (.only "end" (finish.map fun x => .int x.raw))) := by
    refine (loads_int "start" start).ite.append ?_
    cases finish with
    | none => exact @loads_optionalInts files baseDir "end" Int64 id none
    | some finish => exact loads_int "end" finish.raw
  rw [reload_eq rfl hm]
  generalize hvalues : Attributes.append _ _ = m
  have hstart : m.getOr "start" Attribute.index ⟨0⟩ = .ok ⟨start⟩ := by
    have hget : m "start" = if start ≠ 0 then some (.int start) else none := by simp [← hvalues]
    exact Attributes.getOr_ite hget rfl fun h => by rw [not_ne_iff.mp h]
  have hfinish : m.get "end" Attribute.index = .ok finish := by
    have hget : m "end" = finish.map fun x => .int x.raw := by simp [← hvalues]
    cases finish with
    | none => exact Attributes.get_none hget
    | some finish => exact Attributes.get_some hget rfl
  change (loadShape m).map _ = _
  rw [loadShape, hstart, hfinish]
  rfl

theorem reload_split {s : Split} (h : LoadedOperator (.split s)) :
    reload files baseDir (.split s) = .ok (.split s) := by
  obtain ⟨axis, outputs⟩ := s
  obtain rfl | ⟨sizes, rfl, hsizes⟩ := h
  · rfl
  · rw [reload_eq rfl ((loads_int "axis" axis.raw).append (loads_ints "split" (sizes.map Int64.ofNat)))]
    generalize hvalues : Attributes.append _ _ = m
    have haxis : m.getOr "axis" Attribute.index ⟨0⟩ = .ok axis :=
      Attributes.getOr_some (x := .int axis.raw) (by simp [← hvalues]) rfl
    have houtputs : m.get "split" (fun x => x.usizes.map SplitOutputs.split) = .ok (some (.split sizes)) :=
      Attributes.get_some (x := .ints (sizes.map Int64.ofNat)) (by simp [← hvalues])
        (by rw [usizes_ints hsizes]; rfl)
    change (loadSplit m).map _ = _
    rw [loadSplit, loadAxis, haxis, houtputs]
    rfl

theorem reload_squeeze (axes : Option (List TensorIndex)) :
    reload files baseDir (.squeeze axes) = .ok (.squeeze axes) := by
  have hreload : reload files baseDir (.squeeze axes) =
      .ok (.squeeze (axes.map fun v => (v.map TensorIndex.raw).map TensorIndex.mk)) := by
    cases axes <;> rfl
  simp only [hreload, map_mk_raw, Option.map_id_fun', id]

theorem reload_swish (alpha : F32) : reload files baseDir (.swish alpha) = .ok (.swish alpha) := by
  rw [reload_eq rfl (loads_float "alpha" alpha).ite]
  generalize hvalues : Attributes.only _ _ = m
  have halpha : m.getOr "alpha" Attribute.f F32Const.one = .ok alpha := by
    have hget : m "alpha" = if alpha ≠ .ofNat 1 then some (.float alpha) else none := by simp [← hvalues]
    exact Attributes.getOr_ite hget rfl fun h => not_ne_iff.mp h
  exact congrArg (Except.map Operator.swish) halpha

theorem reload_transpose {perm : Option (List Nat)} (h : LoadedOperator (.transpose perm)) :
    reload files baseDir (.transpose perm) = .ok (.transpose perm) := by
  cases perm with
  | none => rfl
  | some perm =>
      have hget := Attributes.get_some (Attributes.only_self "perm" _) (usizes_ints (h perm rfl))
      rw [reload_eq rfl (loads_ints "perm" (perm.map Int64.ofNat))]
      exact congrArg (Except.map Operator.transpose) hget

theorem reload_unsqueeze (axes : List TensorIndex) :
    reload files baseDir (.unsqueeze axes) = .ok (.unsqueeze axes) := by
  have hreload : reload files baseDir (.unsqueeze axes) =
      .ok (.unsqueeze ((axes.map TensorIndex.raw).map TensorIndex.mk)) := by
    cases axes <;> rfl
  rw [hreload, map_mk_raw]

/-! ### Every operator -/

/-- An operator that was loaded is read back if and only if it keeps no value that came from an input. -/
theorem LoadedOperator.reload_iff {op : Operator} (h : LoadedOperator op) :
    reload files baseDir op = .ok op ↔ Kept op := by
  cases op with
  | attention attn => exact iff_of_true (reload_attention attn) trivial
  | averagePool p =>
      obtain ⟨m, hm, hload⟩ := @loads_pooling files baseDir p h
      refine iff_of_true ?_ trivial
      rw [reload_eq rfl hm]
      exact congrArg (Except.map Operator.averagePool) hload
  | cast target => exact iff_of_true (reload_cast target) trivial
  | clip c =>
      rw [reload_clip, Except.ok.injEq, Operator.clip.injEq]
      obtain ⟨min, max⟩ := c
      rw [Clip.mk.injEq]
      exact and_congr eq_comm eq_comm
  | constant tensor => exact reload_constant h
  | constantOfShape value => exact reload_constantOfShape h
  | conv c => exact iff_of_true (reload_conv h) trivial
  | dynamicQuantizeLinear d => exact iff_of_true (reload_dynamicQuantizeLinear d) trivial
  | geLU approximate => exact iff_of_true (reload_geLU approximate) trivial
  | gemm g => exact iff_of_true (reload_gemm h) trivial
  | layerNormalization l => exact iff_of_true (reload_layerNormalization h) trivial
  | leakyReLU alpha => exact iff_of_true (reload_leakyReLU h) trivial
  | maxPool p =>
      obtain ⟨m, hm, hload⟩ := @loads_pooling files baseDir p h
      refine iff_of_true ?_ trivial
      rw [reload_eq rfl hm]
      exact congrArg (Except.map Operator.maxPool) hload
  | oneHot o =>
      rw [reload_oneHot, Except.ok.injEq, Operator.oneHot.injEq]
      obtain ⟨axis, depth, off, on⟩ := o
      rw [OneHot.mk.injEq, eq_self, true_and]
      exact and_congr eq_comm (and_congr eq_comm eq_comm)
  | reduceMax r =>
      obtain ⟨m, hm, hload⟩ := @load_reduceAttrs files baseDir r
      refine iff_of_true ?_ trivial
      rw [reload_of_loadAttributes rfl hm]
      exact congrArg (Except.map Operator.reduceMax) hload
  | reduceMean r =>
      obtain ⟨m, hm, hload⟩ := @load_reduceAttrs files baseDir r
      refine iff_of_true ?_ trivial
      rw [reload_of_loadAttributes rfl hm]
      exact congrArg (Except.map Operator.reduceMean) hload
  | reduceSum r =>
      obtain ⟨m, hm, hload⟩ := @load_reduceAttrs files baseDir r
      refine iff_of_true ?_ trivial
      rw [reload_of_loadAttributes rfl hm]
      exact congrArg (Except.map Operator.reduceSum) hload
  | resize r =>
      rw [reload_resize, Except.ok.injEq, Operator.resize.injEq]
      obtain ⟨axes, mode, policy, nearest, scale⟩ := r
      simp only [Resize.mk.injEq, true_and]
      exact eq_comm
  | shape s => exact iff_of_true (reload_shape s) trivial
  | split s => exact iff_of_true (reload_split h) trivial
  | squeeze axes => exact iff_of_true (reload_squeeze axes) trivial
  | swish alpha => exact iff_of_true (reload_swish alpha) trivial
  | transpose perm => exact iff_of_true (reload_transpose h) trivial
  | unsqueeze axes => exact iff_of_true (reload_unsqueeze axes) trivial
  | batchedGemm _ | rmsNormalization _ | rope _ | transfer _ | contiguous _ | nhwc2nchw
  | reduceMatrix _ | reinterpret _ | input _ | output _ | sessionState _ => exact h.elim
  | _ => exact iff_of_true rfl trivial

/-- An operator that the loader can return, also after constants were propagated into it, is read back
from what the saver writes if and only if it keeps no value that came from an input. -/
theorem reload_iff_kept (files : Files) (baseDir : Option String) {op : Operator} (h : Loadable op) :
    reload files baseDir op = .ok op ↔ Kept op := h.loaded.reload_iff

/-- A softmax over the second axis. -/
theorem softmax_kept :
    reload (fun _ => none) none (.softmax ⟨1⟩) = .ok (.softmax ⟨1⟩) ↔ Kept (.softmax ⟨1⟩) :=
  reload_iff_kept (fun _ => none) none
    (@Loadable.load (fun _ => none) none [attrInt "axis" 1] _ "Softmax" _ rfl rfl)

/-- The number 0 as a tensor. -/
def zeroScalar : Tensor := ⟨.float .F32 [.ofNat 0], [], Tensor.hsize_scalar⟩

/-- `Clip` whose lower bound was the constant 0. -/
def clipAtZero : Operator := .clip { min := some (.ofNat 0), max := none }

/-- The lower bound was loaded as an input and propagated; the saved operator has none. -/
theorem clip_loses_bound : Loadable clipAtZero ∧
    reload (fun _ => none) none clipAtZero = .ok (.clip { min := none, max := none }) ∧
      reload (fun _ => none) none clipAtZero ≠ .ok clipAtZero := by
  have hload : Loadable (.clip { min := none, max := none }) :=
    @Loadable.load (fun _ => none) none [] _ "Clip" _ rfl rfl
  have hprop : propInto (fun arg => if arg = args.CLIP_MIN then some zeroScalar else none)
      (.clip { min := none, max := none }) = .ok (clipAtZero, [args.CLIP_MIN]) := rfl
  have hreload := @reload_clip (fun _ => none) none { min := some (.ofNat 0), max := none }
  refine ⟨hload.prop hprop, hreload, fun h => ?_⟩
  cases hreload.symm.trans h

end Onnx
end NnEngine
