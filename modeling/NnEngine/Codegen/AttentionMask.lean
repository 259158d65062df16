import NnEngine.Codegen.Attention
import NnEngine.Tensor.BroadcastShape

/-!
# The additive mask of an attention

Which element of the mask the lowerings of an `Attention` node add to a score, beside the one that numpy selects
when the mask is broadcast to the scores.  On the CPU the strides are those of `broadcast`.  The CUDA kernels have
two strides: one from a head to the next, over batch and heads alike, and one from a row to the next; the columns
lie side by side.  `attention_decode` has no mask.
-/

namespace NnEngine
namespace Llm
namespace Attention

/-- An `Attention` node with the types of its operands. -/
structure MaskedNode where
  batchSize : Nat
  numQHeads : Nat
  seqQ : Nat
  seqK : Nat
  headSize : Nat
  elemType : FloatType
  mask : Option ResolvedTensorType

/-- An element of the mask, read with a type. -/
structure MaskElement where
  elemType : DataType
  pos : Nat
  deriving DecidableEq

/-! ### What numpy selects -/

/-- The stride with which the mask is read along an axis of the scores, from the last axis on. -/
def maskStride (ty : ResolvedTensorType) (k : Nat) : Nat :=
  if fromRight ty.dims k = 1 then 0 else ty.stride.reverse.getD k 0

namespace MaskedNode

/-- The type of the scores. -/
def qkDims (n : MaskedNode) : ResolvedTensorDims := [n.batchSize, n.numQHeads, n.seqQ, n.seqK]

/-- The element that broadcasting selects: the axes are aligned on the right, and the index of an axis of extent
one is 0. -/
def selected (ty : ResolvedTensorType) (b h i j : Nat) : MaskElement :=
  { elemType := ty.elemType
    pos := elementAt ty.stride (clamp ty.dims ([b, h, i, j].drop (4 - ty.dims.length))) }

/-! ### CUDA -/

/-- The mask arguments of `attention` and `attention_tc`. -/
structure Kernel where
  dataTy : DataType
  mask : Bool
  maskOuterStride : Nat
  maskRowStride : Nat
  numQHeads : Nat
  useTensorCore : Bool
  deriving DecidableEq

/-- `mask_outer_stride` and `mask_row_stride`.  A mask without axes has no last column. -/
def maskStrides (md : ResolvedTensorDims) : Option (Nat × Nat) :=
  if md.length = 0 then none
  else
    let maskLastRow := if 2 ≤ md.length then md.getD (md.length - 2) 0 else 1
    let maskLastCol := md.getD (md.length - 1) 0
    let maskRowStride := if 1 < maskLastRow then maskLastCol else 0
    let maskSliceSize := maskLastRow * maskLastCol
    let maskOuterSize := if 2 < md.length then (md.take (md.length - 2)).prod else 1
    let maskOuterStride := if 1 < maskOuterSize then maskSliceSize else 0
    some (maskOuterStride, maskRowStride)

/-- `use_tensor_core`. -/
def useTensorCore (n : MaskedNode) : Bool := decide (n.elemType = .BF16 ∧ n.headSize % 16 = 0)

/-- `seq_q == 1 && seq_k > 1`. -/
def Decodes (n : MaskedNode) : Prop := n.seqQ = 1 ∧ 1 < n.seqK

instance (n : MaskedNode) : Decidable n.Decodes := inferInstanceAs (Decidable (_ ∧ _))

/-- The arguments of the kernel for a node that does not decode. -/
def launch (n : MaskedNode) : Option Kernel :=
  match n.mask with
  | none =>
      some
        { dataTy := .float n.elemType
          mask := false
          maskOuterStride := 0
          maskRowStride := 0
          numQHeads := n.numQHeads
          useTensorCore := n.useTensorCore }
  | some ty =>
      (maskStrides ty.dims).map fun (maskOuterStride, maskRowStride) =>
        { dataTy := .float n.elemType
          mask := true
          maskOuterStride
          maskRowStride
          numQHeads := n.numQHeads
          useTensorCore := n.useTensorCore }

/-- The numbers of the address of the mask fit their types: `g_row * mask_row_stride` is an `int`; `blockIdx.y` is
unsigned, and `attention` adds everything to its product in 32 bits, where `attention_tc` adds to a `long`. -/
def Kernel.Fits (k : Kernel) (b h gRow gCol : Nat) : Prop :=
  let base := (b * k.numQHeads + h) * k.maskOuterStride
  gRow * k.maskRowStride < 2 ^ 31 ∧
    (if k.useTensorCore then base else base + gRow * k.maskRowStride + gCol) < 2 ^ 32

instance (k : Kernel) (b h gRow gCol : Nat) : Decidable (k.Fits b h gRow gCol) :=
  inferInstanceAs (Decidable (_ ∧ _))

/-- The position of the mask that a thread computes, as long as the numbers fit. -/
def Kernel.position (k : Kernel) (b h gRow gCol : Nat) : Option Nat :=
  let blockIdxY := b * k.numQHeads + h
  if k.Fits b h gRow gCol then some (blockIdxY * k.maskOuterStride + gRow * k.maskRowStride + gCol) else none

/-- What the kernel adds to a score, if anything. -/
def Kernel.added (k : Kernel) (b h gRow gCol : Nat) : Option (Option MaskElement) :=
  if k.mask then (k.position b h gRow gCol).map fun pos => some { elemType := k.dataTy, pos }
  else some none

/-- What the kernel of the node adds to a score, if anything. -/
def cudaAdded (n : MaskedNode) (b h i j : Nat) : Option (Option MaskElement) :=
  if n.Decodes then some none
  else n.launch.bind fun k => k.added b h i j

/-! ### CPU -/

/-- The type of the arithmetic. -/
def llvmFloat : FloatType → FloatType
  | .F32 | .BF16 => .F32
  | .F64 => .F64

/-- The address of the mask in `build_attention`.  The terms with stride 0 are left out. -/
def cpuPosition (strides : List Nat) (b h sq k : Nat) : Nat :=
  let term (idx axis : Nat) := if strides.getD axis 0 = 0 then 0 else idx * strides.getD axis 0
  term b 0 + term h 1 + term sq 2 + term k 3

/-- What `build_attention` adds to a score, if anything.  The load has the type of the arithmetic. -/
def cpuAdded (n : MaskedNode) (b h i j : Nat) : Option (Option MaskElement) :=
  match n.mask with
  | none => some none
  | some ty => (ty.broadcast n.qkDims).map fun mty =>
      some { elemType := .float (llvmFloat n.elemType), pos := cpuPosition mty.stride b h i j }

end MaskedNode

/-! ### The condition -/

namespace MaskedNode

/-- The extents of the mask along the axes of the scores. -/
def maskBatch (ty : ResolvedTensorType) : Nat := fromRight ty.dims 3

def maskHeads (ty : ResolvedTensorType) : Nat := fromRight ty.dims 2

def maskRows (ty : ResolvedTensorType) : Nat := fromRight ty.dims 1

def maskCols (ty : ResolvedTensorType) : Nat := fromRight ty.dims 0

/-- The slices of the mask are those of the scores in their order, or there is one slice for all. -/
def SlicesAgree (n : MaskedNode) (ty : ResolvedTensorType) : Prop :=
  maskBatch ty = 1 ∧ maskHeads ty = 1 ∨
    (n.batchSize = 1 ∨ maskBatch ty = n.batchSize ∧
      maskStride ty 3 = n.numQHeads * (maskRows ty * maskCols ty)) ∧
    (n.numQHeads = 1 ∨ maskHeads ty = n.numQHeads ∧ maskStride ty 2 = maskRows ty * maskCols ty)

/-- A slice of the mask has a column for each key, side by side, and one row for all queries or a row for each. -/
def SliceDense (n : MaskedNode) (ty : ResolvedTensorType) : Prop :=
  (n.seqQ = 1 ∨ maskRows ty = 1 ∨ maskStride ty 1 = maskCols ty) ∧
    (n.seqK = 1 ∨ maskCols ty = n.seqK ∧ maskStride ty 0 = 1)

/-- The positions of the mask fit the types of the kernel's arithmetic. -/
def Fits (n : MaskedNode) (ty : ResolvedTensorType) : Prop :=
  ∀ b < n.batchSize, ∀ h < n.numQHeads, ∀ i < n.seqQ, ∀ j < n.seqK,
    i * maskStride ty 1 < 2 ^ 31 ∧
      (if n.useTensorCore then b * maskStride ty 3 + h * maskStride ty 2
        else b * maskStride ty 3 + h * maskStride ty 2 + i * maskStride ty 1 + j * maskStride ty 0) < 2 ^ 32

/-- The mask is one for which the CUDA lowering is right. -/
structure Supported (n : MaskedNode) (ty : ResolvedTensorType) : Prop where
  tiled : ¬n.Decodes
  axes : ty.dims ≠ []
  elemType : ty.elemType = .float n.elemType
  slices : n.SlicesAgree ty
  dense : n.SliceDense ty
  fits : n.Fits ty

/-- The type of the mask broadcasts to the scores. -/
structure Broadcastable (n : MaskedNode) (ty : ResolvedTensorType) : Prop where
  strides : ty.stride.length = ty.dims.length
  dims : broadcastShape ty.dims n.qkDims = .ok n.qkDims

variable {n : MaskedNode} {ty : ResolvedTensorType} {b h i j : Nat}

theorem Broadcastable.length_le (hb : n.Broadcastable ty) : ty.dims.length ≤ 4 := by
  have hlen := (broadcastShape_eq_ok.mp hb.dims).1
  have hqk : n.qkDims.length = 4 := rfl
  omega

/-- An axis of the mask is full or has extent one. -/
theorem Broadcastable.axis (hb : n.Broadcastable ty) (k : Nat) :
    fromRight ty.dims k = 1 ∨ fromRight ty.dims k = fromRight n.qkDims k := by
  have hk := (broadcastShape_eq_ok.mp hb.dims).2 k
  unfold JoinsTo at hk
  omega

theorem selected_pos (hstride : ty.stride.length = ty.dims.length) (hle : ty.dims.length ≤ 4) :
    (selected ty b h i j).pos =
      b * maskStride ty 3 + h * maskStride ty 2 + i * maskStride ty 1 + j * maskStride ty 0 := by
  obtain ⟨elemType, dims, stride⟩ := ty
  simp only at hstride hle
  unfold selected maskStride
  match dims, stride, hstride, hle with
  | [], [], _, _ => simp [fromRight, elementAt, clamp]
  | [d0], [s0], _, _ => simp [fromRight, elementAt, clamp]
  | [d1, d0], [s1, s0], _, _ => simp [fromRight, elementAt, clamp]
  | [d2, d1, d0], [s2, s1, s0], _, _ => simp [fromRight, elementAt, clamp]; ring
  | [d3, d2, d1, d0], [s3, s2, s1, s0], _, _ => simp [fromRight, elementAt, clamp]; ring

theorem maskStrides_eq (hne : ty.dims ≠ []) (hle : ty.dims.length ≤ 4) :
    maskStrides ty.dims =
      some (if 1 < maskBatch ty * maskHeads ty then maskRows ty * maskCols ty else 0,
        if 1 < maskRows ty then maskCols ty else 0) := by
  obtain ⟨elemType, dims, stride⟩ := ty
  simp only at hne hle
  unfold maskStrides maskBatch maskHeads maskRows maskCols
  match dims, hne, hle with
  | [d0], _, _ => simp [fromRight]
  | [d1, d0], _, _ => simp [fromRight]
  | [d2, d1, d0], _, _ => simp [fromRight]
  | [d3, d2, d1, d0], _, _ => simp [fromRight]

/-- Two sums with constant strides agree on a box if and only if the strides agree along every axis that has a
second index. -/
theorem strides_agree_iff {B H Q K o r s3 s2 s1 s0 : Nat} (hB : 0 < B) (hH : 0 < H) (hQ : 0 < Q) (hK : 0 < K) :
    (∀ b < B, ∀ h < H, ∀ i < Q, ∀ j < K, (b * H + h) * o + i * r + j = b * s3 + h * s2 + i * s1 + j * s0) ↔
      (B = 1 ∨ s3 = H * o) ∧ (H = 1 ∨ s2 = o) ∧ (Q = 1 ∨ s1 = r) ∧ (K = 1 ∨ s0 = 1) := by
  constructor
  · intro hall
    refine ⟨?_, ?_, ?_, ?_⟩
    · refine or_iff_not_imp_left.mpr fun hne => ?_
      have h1 := hall 1 (by omega) 0 hH 0 hQ 0 hK
      simpa using h1.symm
    · refine or_iff_not_imp_left.mpr fun hne => ?_
      have h1 := hall 0 hB 1 (by omega) 0 hQ 0 hK
      simpa using h1.symm
    · refine or_iff_not_imp_left.mpr fun hne => ?_
      have h1 := hall 0 hB 0 hH 1 (by omega) 0 hK
      simpa using h1.symm
    · refine or_iff_not_imp_left.mpr fun hne => ?_
      have h1 := hall 0 hB 0 hH 0 hQ 1 (by omega)
      simpa using h1.symm
  · rintro ⟨h3, h2, h1, h0⟩ b hb h hh i hi j hj
    have hb' : b * (H * o) = b * s3 := by
      obtain rfl | rfl := h3
      · simp [Nat.lt_one_iff.mp hb]
      · rfl
    have hh' : h * o = h * s2 := by
      obtain rfl | rfl := h2
      · simp [Nat.lt_one_iff.mp hh]
      · rfl
    have hi' : i * r = i * s1 := by
      obtain rfl | rfl := h1
      · simp [Nat.lt_one_iff.mp hi]
      · rfl
    have hj' : j = j * s0 := by
      obtain rfl | rfl := h0
      · simp [Nat.lt_one_iff.mp hj]
      · exact (Nat.mul_one j).symm
    rw [← hb', ← hh', ← hi', ← hj']
    ring

/-- What the strides of the kernel say about the mask. -/
theorem axes_iff (hb : n.Broadcastable ty) (hpos : 0 ∉ n.qkDims) :
    ((n.batchSize = 1 ∨ maskStride ty 3 =
        n.numQHeads * (if 1 < maskBatch ty * maskHeads ty then maskRows ty * maskCols ty else 0)) ∧
      (n.numQHeads = 1 ∨ maskStride ty 2 =
        if 1 < maskBatch ty * maskHeads ty then maskRows ty * maskCols ty else 0) ∧
      (n.seqQ = 1 ∨ maskStride ty 1 = if 1 < maskRows ty then maskCols ty else 0) ∧
      (n.seqK = 1 ∨ maskStride ty 0 = 1)) ↔ n.SlicesAgree ty ∧ n.SliceDense ty := by
  have hB : maskBatch ty = 1 ∨ maskBatch ty = n.batchSize := hb.axis 3
  have hH : maskHeads ty = 1 ∨ maskHeads ty = n.numQHeads := hb.axis 2
  have hQ : maskRows ty = 1 ∨ maskRows ty = n.seqQ := hb.axis 1
  have hK : maskCols ty = 1 ∨ maskCols ty = n.seqK := hb.axis 0
  have h3 : maskBatch ty = 1 → maskStride ty 3 = 0 := fun h => if_pos h
  have h2 : maskHeads ty = 1 → maskStride ty 2 = 0 := fun h => if_pos h
  have h1 : maskRows ty = 1 → maskStride ty 1 = 0 := fun h => if_pos h
  have h0 : maskCols ty = 1 → maskStride ty 0 = 0 := fun h => if_pos h
  simp only [qkDims, List.mem_cons, List.not_mem_nil, or_false, not_or] at hpos
  obtain ⟨hposB, hposH, hposQ, hposK⟩ := hpos
  have hrows : 0 < maskRows ty := by omega
  have hcols : 0 < maskCols ty := by omega
  unfold SlicesAgree SliceDense
  rw [← and_assoc]
  refine and_congr ?_ (and_congr ?_ ?_)
  · by_cases hone : maskBatch ty = 1 ∧ maskHeads ty = 1
    · refine iff_of_true ?_ (.inl hone)
      simp [hone.1, hone.2, h3 hone.1, h2 hone.2]
    · have hlt : 1 < maskBatch ty * maskHeads ty := by
        obtain hne | hne := not_and_or.mp hone
        · have hmul := Nat.mul_le_mul (show 2 ≤ maskBatch ty by omega) (show 1 ≤ maskHeads ty by omega)
          omega
        · have hmul := Nat.mul_le_mul (show 1 ≤ maskBatch ty by omega) (show 2 ≤ maskHeads ty by omega)
          omega
      have hslice : 0 < maskRows ty * maskCols ty := Nat.mul_pos hrows hcols
      have hheads : 0 < n.numQHeads * (maskRows ty * maskCols ty) := Nat.mul_pos (Nat.pos_of_ne_zero (Ne.symm hposH)) hslice
      rw [if_pos hlt, or_iff_right hone]
      refine and_congr (or_congr_right ?_) (or_congr_right ?_) <;> omega
  · by_cases hone : maskRows ty = 1
    · simp [hone, h1 hone]
    · rw [if_pos (by omega), or_iff_right hone]
  · omega

/-- Every score gets the element that broadcasting selects, or nothing without a mask. -/
def AddsSelected (n : MaskedNode) (added : Nat → Nat → Nat → Nat → Option (Option MaskElement)) : Prop :=
  ∀ b < n.batchSize, ∀ h < n.numQHeads, ∀ i < n.seqQ, ∀ j < n.seqK,
    added b h i j = some (n.mask.map fun ty => selected ty b h i j)

theorem addsSelected_of_zero {added : Nat → Nat → Nat → Nat → Option (Option MaskElement)}
    (h : 0 ∈ n.qkDims) : n.AddsSelected added := by
  intro b hb h' hh i hi j hj
  simp only [qkDims, List.mem_cons, List.not_mem_nil, or_false] at h
  omega

/-- The positions of a kernel. -/
theorem position_eq_some {k : Kernel} {pos : Nat} : k.position b h i j = some pos ↔
    k.Fits b h i j ∧ (b * k.numQHeads + h) * k.maskOuterStride + i * k.maskRowStride + j = pos := by
  unfold Kernel.position
  simp only [Option.ite_none_right_eq_some, Option.some_inj]

theorem added_eq_selected {k : Kernel} (hmask : k.mask = true) :
    k.added b h i j = some (some (selected ty b h i j)) ↔
      k.dataTy = ty.elemType ∧ k.position b h i j = some (selected ty b h i j).pos := by
  unfold Kernel.added
  rw [if_pos hmask, Option.map_eq_some_iff]
  constructor
  · rintro ⟨pos, hpos, heq⟩
    have heq := Option.some.inj heq
    rw [← heq]
    exact ⟨congrArg MaskElement.elemType heq, hpos⟩
  · rintro ⟨htype, hpos⟩
    exact ⟨_, hpos, by rw [htype]; rfl⟩

theorem cuda_iff (hmask : n.mask = some ty) (hb : n.Broadcastable ty) (hpos : 0 ∉ n.qkDims) :
    n.AddsSelected n.cudaAdded ↔ n.Supported ty := by
  have hdims := hpos
  simp only [qkDims, List.mem_cons, List.not_mem_nil, or_false, not_or] at hdims
  obtain ⟨hposB, hposH, hposQ, hposK⟩ := hdims
  have hB : 0 < n.batchSize := by omega
  have hH : 0 < n.numQHeads := by omega
  have hQ : 0 < n.seqQ := by omega
  have hK : 0 < n.seqK := by omega
  unfold AddsSelected
  simp only [hmask, Option.map_some]
  by_cases hdecode : n.Decodes
  · -- The decode kernel adds nothing.
    refine iff_of_false (fun hall => ?_) fun h => h.tiled hdecode
    have hfirst := hall 0 hB 0 hH 0 hQ 0 hK
    rw [cudaAdded, if_pos hdecode] at hfirst
    exact nomatch hfirst
  by_cases hne : ty.dims = []
  · refine iff_of_false (fun hall => ?_) fun h => h.axes hne
    have hfirst := hall 0 hB 0 hH 0 hQ 0 hK
    have hnone : n.launch = none := by
      unfold launch
      simp only [hmask, hne]
      rfl
    rw [cudaAdded, if_neg hdecode, hnone] at hfirst
    exact nomatch hfirst
  obtain ⟨k, hk, hkmask, hktype, hkouter, hkrow, hkheads, hktc⟩ : ∃ k, n.launch = some k ∧ k.mask = true ∧
      k.dataTy = .float n.elemType ∧
      k.maskOuterStride = (if 1 < maskBatch ty * maskHeads ty then maskRows ty * maskCols ty else 0) ∧
      k.maskRowStride = (if 1 < maskRows ty then maskCols ty else 0) ∧ k.numQHeads = n.numQHeads ∧
      k.useTensorCore = n.useTensorCore := by
    unfold launch
    rw [hmask]
    simp only [maskStrides_eq hne hb.length_le, Option.map_some]
    exact ⟨_, rfl, rfl, rfl, rfl, rfl, rfl, rfl⟩
  have hadded : ∀ b h i j, n.cudaAdded b h i j = some (some (selected ty b h i j)) ↔
      ty.elemType = .float n.elemType ∧ k.Fits b h i j ∧
        (b * n.numQHeads + h) * k.maskOuterStride + i * k.maskRowStride + j =
          b * maskStride ty 3 + h * maskStride ty 2 + i * maskStride ty 1 + j * maskStride ty 0 := by
    intro b h i j
    rw [cudaAdded, if_neg hdecode, hk, Option.bind_some, added_eq_selected hkmask, hktype, position_eq_some,
      hkheads, selected_pos hb.strides hb.length_le, eq_comm]
  have haxes := axes_iff hb hpos
  rw [← hkouter, ← hkrow, ← strides_agree_iff hB hH hQ hK] at haxes
  -- Along the axes that agree the kernel's numbers are those of the mask.
  have hfits : n.SlicesAgree ty ∧ n.SliceDense ty → ((∀ b < n.batchSize, ∀ h < n.numQHeads, ∀ i < n.seqQ,
      ∀ j < n.seqK, k.Fits b h i j) ↔ n.Fits ty) := by
    intro hagree
    have hlin := haxes.mpr hagree
    refine forall₂_congr fun b hb' => forall₂_congr fun h hh => forall₂_congr fun i hi => forall₂_congr fun j hj => ?_
    have hall := hlin b hb' h hh i hi j hj
    have hrow := hlin 0 hB 0 hH i hi 0 hK
    have hbase := hlin b hb' h hh 0 hQ 0 hK
    simp only [Nat.zero_mul, Nat.zero_add, Nat.add_zero] at hrow hbase
    unfold Kernel.Fits
    simp only [hkheads, hktc, hrow, hbase] at hall ⊢
    rw [hall]
  simp only [hadded]
  constructor
  · intro hall
    have hlin := haxes.mp fun b hb h hh i hi j hj => (hall b hb h hh i hi j hj).2.2
    exact
      { tiled := hdecode
        axes := hne
        elemType := (hall 0 hB 0 hH 0 hQ 0 hK).1
        slices := hlin.1
        dense := hlin.2
        fits := (hfits hlin).mp fun b hb h hh i hi j hj => (hall b hb h hh i hi j hj).2.1 }
  · intro hs b hb h hh i hi j hj
    have hlin : n.SlicesAgree ty ∧ n.SliceDense ty := ⟨hs.slices, hs.dense⟩
    exact ⟨hs.elemType, (hfits hlin).mpr hs.fits b hb h hh i hi j hj, haxes.mpr hlin b hb h hh i hi j hj⟩

/-! ### The CPU -/

theorem cpuPosition_eq {strides : List Nat} (hlen : strides.length = 4) :
    cpuPosition strides b h i j = elementAt strides [b, h, i, j] := by
  match strides, hlen with
  | [s0, s1, s2, s3], _ =>
      have hterm : ∀ idx s : Nat, (if s = 0 then 0 else idx * s) = idx * s := by
        intro idx s
        split
        · rename_i hs
          rw [hs, Nat.mul_zero]
        · rfl
      simp [cpuPosition, elementAt, hterm, Nat.add_assoc]

theorem cpu_iff (hmask : n.mask = some ty) (hb : n.Broadcastable ty) (hpos : 0 ∉ n.qkDims) :
    n.AddsSelected n.cpuAdded ↔ ty.elemType = .float (llvmFloat n.elemType) ∧ ty.BroadcastsFlat n.qkDims := by
  rw [← ResolvedTensorType.broadcastAddresses_iff hb.dims]
  have hdims := hpos
  simp only [qkDims, List.mem_cons, List.not_mem_nil, or_false, not_or] at hdims
  have hbroadcast := ResolvedTensorType.broadcast_eq_some hb.strides (d := n.qkDims) hb.length_le
  have hlen : (List.replicate (n.qkDims.length - ty.dims.length) 0 ++ ty.stride).length = 4 := by
    have hle := hb.length_le
    have hqk : n.qkDims.length = 4 := rfl
    simp only [List.length_append, List.length_replicate, hb.strides]
    omega
  have hadded : ∀ b h i j, n.cpuAdded b h i j = some (some (selected ty b h i j)) ↔
      ty.elemType = .float (llvmFloat n.elemType) ∧
        elementAt (List.replicate (n.qkDims.length - ty.dims.length) 0 ++ ty.stride) [b, h, i, j] =
          (selected ty b h i j).pos := by
    intro b h i j
    unfold cpuAdded
    simp only [hmask, hbroadcast, Option.map_some, Option.some_inj, cpuPosition_eq hlen]
    rw [MaskElement.mk.injEq, eq_comm (a := DataType.float _)]
    rfl
  unfold AddsSelected
  simp only [hmask, Option.map_some, hadded]
  constructor
  · intro hall
    refine ⟨(hall 0 (by omega) 0 (by omega) 0 (by omega) 0 (by omega)).1, _, hbroadcast, rfl, ?_⟩
    intro idx hidx
    match idx, hidx with
    | [b, h, i, j], .cons hb' (.cons hh (.cons hi (.cons hj .nil))) => exact (hall b hb' h hh i hi j hj).2
  · rintro ⟨htype, ty', hty', -, haddr⟩ b hb' h hh i hi j hj
    obtain rfl := Option.some.inj (hbroadcast.symm.trans hty')
    exact ⟨htype, haddr [b, h, i, j] (.cons hb' (.cons hh (.cons hi (.cons hj .nil))))⟩

/-- A mask with a row for each query, shared by the heads of a batch of two. -/
def sharedMask : MaskedNode :=
  { batchSize := 2, numQHeads := 2, seqQ := 3, seqK := 4, headSize := 16, elemType := .F32
    mask := some (.new (.float .F32) [3, 4]) }

/-- One new token, with a padding mask for each sequence of the batch. -/
def maskedToken : MaskedNode :=
  { batchSize := 2, numQHeads := 2, seqQ := 1, seqK := 4, headSize := 16, elemType := .F32
    mask := some (.new (.float .F32) [2, 1, 1, 4]) }

/-- The same masks for three tokens. -/
def maskedTokens : MaskedNode := { maskedToken with seqQ := 3 }

end MaskedNode

end Attention
end Llm
end NnEngine
