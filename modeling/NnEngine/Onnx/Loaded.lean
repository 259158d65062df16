import NnEngine.Onnx.LoadOp
import NnEngine.Onnx.TensorRoundTrip
import NnEngine.Transform.PropConstant

/-!
# What the loader returns

The operators that `load_op` can return, also after `prop_constant`, and what they have in common: an
integer fits an attribute, a float that is computed with as `f64` was an `f32`, and what no attribute
says has its default.
-/

namespace NnEngine
namespace Onnx

variable {files : Files} {baseDir : Option String}

/-- A vector that `loadOnes` returns. -/
structure LoadedVec (v : OptionalVec Nat) : Prop where
  default : v.default = 1
  lt : ∀ l, v.vec = some l → ∀ x ∈ l, x < 2 ^ 63

def LoadedPad : ConvPad → Prop
  | .notSet pads => pads.default = (0, 0) ∧ ∀ l, pads.vec = some l → ∀ x ∈ l, x.1 < 2 ^ 63 ∧ x.2 < 2 ^ 63
  | _ => True

structure LoadedConv (c : Conv) : Prop where
  pad : LoadedPad c.pad
  dilations : LoadedVec c.dilations
  group_lt : c.group < 2 ^ 64
  kernelShape : ∀ x ∈ c.kernelShape, x < 2 ^ 63
  strides : LoadedVec c.strides
  inputLayout : c.inputLayout = .NCHW
  outputLayout : c.outputLayout = .NCHW
  activation : c.activation = .identity

structure LoadedPooling (p : Pooling) : Prop where
  pad : LoadedPad p.pad
  dilations : LoadedVec p.dilations
  kernelShape : ∀ x ∈ p.kernelShape, x < 2 ^ 63
  strides : LoadedVec p.strides
  layout : p.layout = .NCHW

/-- An operator that `load_op` can return. -/
def LoadedOperator : Operator → Prop
  | .constant tensor => LoadedTensor tensor
  | .constantOfShape value => (scalarData value).Loaded
  | .conv c => LoadedConv c
  | .averagePool p => LoadedPooling p
  | .maxPool p => LoadedPooling p
  | .gemm g => ∃ alpha beta, g.alpha = F32.asF64 alpha ∧ g.beta = F32.asF64 beta
  | .layerNormalization l => ∃ epsilon, l.epsilon = F32.asF64 epsilon
  | .leakyReLU alpha => ∃ x, alpha = F32.asF64 x
  | .split s => s.outputs = none ∨ ∃ sizes, s.outputs = some (.split sizes) ∧ ∀ x ∈ sizes, x < 2 ^ 63
  | .transpose perm => ∀ l, perm = some l → ∀ x ∈ l, x < 2 ^ 63
  | .batchedGemm _ | .rmsNormalization _ | .rope _ | .transfer _ | .contiguous _ | .nhwc2nchw
  | .reduceMatrix _ | .reinterpret _ | .input _ | .output _ | .sessionState _ => False
  | _ => True

/-! ### Reading attributes -/

theorem Attributes.get_eq_ok {attributes : Attributes} {α : Type} {name : String}
    {read : Attribute → LoadResult α} {value : Option α} (h : attributes.get name read = .ok value) :
    value = none ∨ ∃ x y, value = some y ∧ attributes name = some x ∧ read x = .ok y := by
  unfold Attributes.get at h
  split at h
  · cases h
    exact .inl rfl
  · rename_i x hx
    obtain ⟨y, hy, rfl⟩ := map_eq_ok.mp h
    exact .inr ⟨x, y, rfl, hx, hy⟩

theorem usize_lt {i : Int64} {n : Nat} (h : Attribute.usize i = .ok n) : n < 2 ^ 63 := by
  unfold Attribute.usize at h
  split at h
  · cases h
  · cases h
    exact i.toNatClampNeg_lt

theorem usizes_lt {x : Attribute} {l : List Nat} (h : x.usizes = .ok l) : ∀ n ∈ l, n < 2 ^ 63 := by
  obtain ⟨v, -, hv⟩ := bind_eq_ok.mp h
  intro n hn
  obtain ⟨i, -, hi⟩ := mapM_eq_ok_mem hv n hn
  exact usize_lt hi

theorem loadedVec {attributes : Attributes} {name : String} {v : OptionalVec Nat}
    (h : loadOnes attributes name = .ok v) : LoadedVec v := by
  obtain ⟨vec, hvec, rfl⟩ := map_eq_ok.mp h
  refine ⟨rfl, fun l hl => ?_⟩
  obtain rfl | ⟨x, y, rfl, -, hread⟩ := Attributes.get_eq_ok hvec
  · cases hl
  · cases hl
    exact usizes_lt hread

theorem loadPads_lt {v : List Nat} {pads : List (Nat × Nat)} (hv : ∀ n ∈ v, n < 2 ^ 63)
    (h : loadPads v = .ok pads) : ∀ x ∈ pads, x.1 < 2 ^ 63 ∧ x.2 < 2 ^ 63 := by
  unfold loadPads at h
  split at h
  · cases h
  · cases h
    intro x hx
    exact ⟨hv _ (List.mem_of_mem_take (List.of_mem_zip hx).1),
      hv _ (List.mem_of_mem_drop (List.of_mem_zip hx).2)⟩

theorem loadedPad {attributes : Attributes} {pad : ConvPad} (h : loadConvPad attributes = .ok pad) :
    LoadedPad pad := by
  simp only [loadConvPad, do_eq_ok] at h
  obtain ⟨autoPad, -, pads, hpads, h⟩ := h
  split at h
  · cases pure_eq_ok.mp h
    refine ⟨rfl, fun l hl => ?_⟩
    obtain rfl | ⟨x, y, rfl, -, hread⟩ := Attributes.get_eq_ok hpads
    · cases hl
    · cases hl
      obtain ⟨v, hv, hloadPads⟩ := bind_eq_ok.mp hread
      exact loadPads_lt (usizes_lt hv) hloadPads
  · cases pure_eq_ok.mp h
    trivial
  · cases pure_eq_ok.mp h
    trivial
  · cases pure_eq_ok.mp h
    trivial
  · cases h

theorem loadedConv {attributes : Attributes} {c : Conv} (h : loadConv attributes = .ok c) :
    LoadedConv c := by
  simp only [loadConv, do_eq_ok, pure_eq_ok] at h
  obtain ⟨dilations, hdilations, group, -, kernelShape, hkernelShape, strides, hstrides, pad, hpad, rfl⟩ := h
  refine ⟨loadedPad hpad, loadedVec hdilations, UInt64.toNat_lt _, ?_, loadedVec hstrides, rfl, rfl, rfl⟩
  unfold loadConvKernelShape at hkernelShape
  split at hkernelShape
  · cases hkernelShape
  · exact usizes_lt hkernelShape

theorem loadedPooling {attributes : Attributes} {p : Pooling} (h : loadPooling attributes = .ok p) :
    LoadedPooling p := by
  simp only [loadPooling, do_eq_ok, pure_eq_ok] at h
  obtain ⟨dilations, hdilations, _, -, kernelShape, hkernelShape, strides, hstrides, pad, hpad, rfl⟩ := h
  obtain ⟨x, -, hx⟩ := bind_eq_ok.mp hkernelShape
  exact ⟨loadedPad hpad, loadedVec hdilations, usizes_lt hx, loadedVec hstrides, rfl⟩

/-- The tensors among the attributes are loaded ones. -/
def LoadedAttributes (attributes : Attributes) : Prop :=
  ∀ name tensor, attributes name = some (.tensor tensor) → LoadedTensor tensor

theorem tensor'_eq_ok {x : Attribute} {tensor : Tensor} (h : x.tensor' = .ok tensor) : x = .tensor tensor := by
  cases x <;> cases h
  rfl

/-- The default of `ConstantOfShape`. -/
theorem loaded_zero : (scalarData (.float .F32 (.ofNat 0))).Loaded := by
  intro x hx
  rw [List.mem_singleton.mp hx]
  rfl

theorem loadedConstantOfShape {attributes : Attributes} (hattributes : LoadedAttributes attributes)
    {value : ScalarData} (h : loadConstantOfShape attributes = .ok value) : (scalarData value).Loaded := by
  simp only [loadConstantOfShape, do_eq_ok, pure_eq_ok] at h
  obtain ⟨tensor, htensor, rfl⟩ := h
  obtain rfl | ⟨x, tensor, rfl, hx, hread⟩ := Attributes.get_eq_ok htensor
  · exact loaded_zero
  · cases tensor'_eq_ok hread
    cases hscalar : tensor.data.toScalarData with
    | none =>
        rw [Option.bind_some, hscalar]
        exact loaded_zero
    | some scalar =>
        rw [Option.bind_some, hscalar, Option.getD_some, ← eq_scalarData hscalar]
        exact (hattributes _ _ hx).data

theorem loadedSplit {attributes : Attributes} {s : Split} (h : loadSplit attributes = .ok s) :
    LoadedOperator (.split s) := by
  simp only [loadSplit, do_eq_ok, pure_eq_ok] at h
  obtain ⟨axis, -, outputs, houtputs, rfl⟩ := h
  obtain rfl | ⟨x, y, rfl, -, hread⟩ := Attributes.get_eq_ok houtputs
  · exact .inl rfl
  · obtain ⟨sizes, hsizes, rfl⟩ := map_eq_ok.mp hread
    exact .inr ⟨sizes, rfl, usizes_lt hsizes⟩

theorem loadedConstant {attributes : Attributes} (hattributes : LoadedAttributes attributes)
    {tensor : Tensor} (h : (attributes.required "value").bind Attribute.tensor' = .ok tensor) :
    LoadedTensor tensor := by
  obtain ⟨x, hx, hread⟩ := bind_eq_ok.mp h
  cases tensor'_eq_ok hread
  unfold Attributes.required at hx
  split at hx
  · cases hx
  · cases hx
    rename_i hx
    exact hattributes _ _ hx

theorem loadedGemm {attributes : Attributes} {g : Gemm} (h : loadGemm attributes = .ok g) :
    LoadedOperator (.gemm g) := by
  simp only [loadGemm, do_eq_ok, pure_eq_ok] at h
  obtain ⟨_, -, _, -, alpha, -, beta, -, rfl⟩ := h
  exact ⟨alpha, beta, rfl, rfl⟩

theorem loadedLayerNormalization {attributes : Attributes} {l : Normalization}
    (h : loadLayerNormalization attributes = .ok l) : LoadedOperator (.layerNormalization l) := by
  simp only [loadLayerNormalization, do_eq_ok, pure_eq_ok] at h
  obtain ⟨_, -, epsilon, -, rfl⟩ := h
  exact ⟨epsilon, rfl⟩

theorem loadedTranspose {attributes : Attributes} {perm : Option (List Nat)}
    (h : attributes.get "perm" Attribute.usizes = .ok perm) : LoadedOperator (.transpose perm) := by
  intro l hl
  obtain rfl | ⟨x, y, rfl, -, hread⟩ := Attributes.get_eq_ok h
  · cases hl
  · cases hl
    exact usizes_lt hread

/-- What `load_op` returns. -/
theorem loadedOperator {attributes : Attributes} (hattributes : LoadedAttributes attributes)
    {name : String} {op : Operator} (h : loadOp name attributes = .ok op) : LoadedOperator op := by
  unfold loadOp at h
  split at h
  case h_64 => cases h
  all_goals
    first
    | (cases h; trivial)
    | obtain ⟨x, hx, rfl⟩ := map_eq_ok.mp h
  -- what is left has a condition on its values
  all_goals try trivial
  case h_8 => exact loadedConstant hattributes hx
  case h_9 => exact loadedConstantOfShape hattributes hx
  case h_10 => exact loadedPooling hx
  case h_11 => exact loadedConv hx
  case h_24 => exact loadedGemm hx
  case h_26 => exact loadedLayerNormalization hx
  case h_27 =>
      obtain ⟨alpha, -, rfl⟩ := map_eq_ok.mp hx
      exact ⟨alpha, rfl⟩
  case h_33 => exact loadedPooling hx
  case h_52 => exact loadedSplit hx
  case h_58 => exact loadedTranspose hx

theorem loadAttribute_tensor {attr : AttributeProto} {tensor : Tensor}
    (h : loadAttribute files baseDir attr = .ok (.tensor tensor)) : LoadedTensor tensor := by
  unfold loadAttribute at h
  split at h
  · cases h
  · cases h
  · cases h
  · obtain ⟨_, -, hx⟩ := map_eq_ok.mp h
    cases hx
  · obtain ⟨_, -, hx⟩ := map_eq_ok.mp h
    cases hx
  · split at h
    · cases h
    · obtain ⟨_, htensor, hx⟩ := map_eq_ok.mp h
      cases hx
      exact loadedTensor htensor
  · cases h

/-- The tensors of an attribute list are loaded ones. -/
theorem loadedAttributes {v : List AttributeProto} {attributes : Attributes}
    (h : loadAttributes files baseDir v = .ok attributes) : LoadedAttributes attributes := by
  have hfrom : ∀ res, LoadedAttributes res → loadAttributesFrom files baseDir res v = .ok attributes →
      LoadedAttributes attributes := by
    clear h
    induction v with
    | nil =>
        intro res hres h
        cases h
        exact hres
    | cons attr v ih =>
        intro res hres h
        rw [loadAttributesFrom, List.foldlM_cons, do_eq_ok] at h
        obtain ⟨res', hres', h⟩ := h
        obtain ⟨value, hvalue, rfl⟩ := map_eq_ok.mp hres'
        refine ih _ (fun name tensor hname => ?_) h
        by_cases hk : name = attr.name
        · rw [hk, Function.update_self, Option.some.injEq] at hname
          subst hname
          exact loadAttribute_tensor hvalue
        · rw [Function.update_of_ne hk] at hname
          exact hres name tensor hname
  exact hfrom _ (fun _ _ hname => by cases hname) h

/-! ### Propagated constants -/

/-- The operators that the loader returns, also after constants were propagated into them. -/
inductive Loadable : Operator → Prop
  | load {files : Files} {baseDir : Option String} {v : List AttributeProto} {attributes : Attributes}
      {name : String} {op : Operator} (hattributes : loadAttributes files baseDir v = .ok attributes)
      (hop : loadOp name attributes = .ok op) : Loadable op
  | prop {constants : Constants} {op op' : Operator} {dropped : List Nat} (hop : Loadable op)
      (hprop : propInto constants op = .ok (op', dropped)) : Loadable op'

/-- `prop_constant` changes operators of three kinds only. -/
theorem LoadedOperator.propInto {constants : Constants} {op op' : Operator} {dropped : List Nat}
    (hop : LoadedOperator op) (h : propInto constants op = .ok (op', dropped)) : LoadedOperator op' := by
  unfold NnEngine.propInto at h
  split at h
  · obtain ⟨x, -, hx⟩ := map_eq_ok.mp h
    cases hx
    trivial
  · cases h
    trivial
  · obtain ⟨x, -, hx⟩ := map_eq_ok.mp h
    cases hx
    trivial
  · cases h
    exact hop

theorem Loadable.loaded {op : Operator} (h : Loadable op) : LoadedOperator op := by
  induction h with
  | load hattributes hop => exact loadedOperator (loadedAttributes hattributes) hop
  | prop _ hprop ih => exact ih.propInto hprop

end Onnx
end NnEngine
