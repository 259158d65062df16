import NnEngine.Codegen.Coverage
import NnEngine.Graph.SliceRanges

/-!
# Slices in three places

`build_slice` of `src/codegen/cpu/translator.rs`, which copies the elements of a slice, and that it, the inferred
type and constant folding agree on the operator unless a slice has no element.  Offsets are unbounded.
-/

namespace NnEngine

open Coverage

namespace Slice

/-- An axis of the output: its dim, where the slice starts, and the strides of the source and of the
destination. -/
structure Axis where
  dim : Nat
  start : Nat
  srcStride : Nat
  dstStride : Nat

/-- One axis of the body, from the rest of the index and the offsets into the source and the destination.  A
remainder by zero has no value. -/
def axisOffsets (state : Nat × Nat × Nat) (axis : Axis) : Option (Nat × Nat × Nat) :=
  if axis.dim = 0 then none
  else
    let outIdx := state.1 % axis.dim
    let inIdx := outIdx + axis.start
    some (state.1 / axis.dim, state.2.1 + inIdx * axis.srcStride, state.2.2 + outIdx * axis.dstStride)

/-- The body: the offsets that are stored to and loaded from. -/
def copyOffsets (axes : List Axis) (ind : Nat) : Option (Nat × Nat) :=
  (axes.reverse.foldlM axisOffsets (ind, 0, 0)).map fun state => (state.2.2, state.2.1)

/-- The axes, from the vectors over them. -/
def axesOf : List Nat → List Nat → List Nat → List Nat → List Axis
  | dim :: dims, start :: starts, srcStride :: src, dstStride :: dst =>
      { dim, start, srcStride, dstStride } :: axesOf dims starts src dst
  | _, _, _, _ => []

/-- `build_slice`: the offsets of the copied elements, one after the other. -/
def buildSlice (dst src : ResolvedTensorType) (slices : List Slice) : Option (List (Nat × Nat)) := do
  let ndim := dst.dims.length
  let starts ← slices.foldlM (fun starts s =>
    if s.step = 1 ∧ s.axis < ndim then some (starts.set s.axis s.start.toUInt64.toNat) else none)
    (List.replicate ndim 0)
  let srcStrides ← (List.range ndim).mapM fun d => src.stride[d]?
  let dstStrides ← (List.range ndim).mapM fun d => dst.stride[d]?
  let axes := axesOf dst.dims starts srcStrides dstStrides
  let inds ← countedLoop (ResolvedTensorDims.size dst.dims)
  inds.mapM (copyOffsets axes)

/-- The kernel of a Slice. -/
def compileSlice (typeOf : ValueId → Option ResolvedTensorType) (getInitializer : ValueId → Option Tensor)
    (inputs : List (Option ValueId)) (dst src : ResolvedTensorType) : Option (List (Nat × Nat)) :=
  match collectSliceInfo typeOf getInitializer inputs with
  | .ok slices => buildSlice dst src slices
  | .error _ => none

/-- Inference, folding and the kernel do what the operator is for. -/
structure Agrees (nd : Ndarray) (typeOf : ValueId → Option ResolvedTensorType)
    (getInitializer : ValueId → Option Tensor) (inputs : List (Option ValueId)) (ty : ResolvedTensorType)
    (ops : List (Nat × Int64 × Int64)) : Prop where
  collected : collectFromInputs typeOf getInitializer inputs = .ok (normalized ty.dims ops) ∧
    collectSliceInfo typeOf getInitializer inputs = .ok (normalized ty.dims ops)
  inferred : inferSlice typeOf getInitializer inputs ty = .ok (.new ty.elemType (sizes ty.dims ops))
  inside : ∀ idx, Inside idx (sizes ty.dims ops) → Inside (sliceSource (firsts ty.dims ops) idx) ty.dims
  folded : ∀ (getInline : ValueId → Option Tensor) (v : ValueId) (t : Tensor), operand? inputs 0 = some v →
    getInline v = some t → t.dims = ty.dims → t.data.elemType = ty.elemType → t.Full → t.data.OfType →
    ∃ t', foldSlice nd typeOf getInitializer getInline inputs = .ok [t'] ∧ t'.dims = sizes ty.dims ops ∧
      t'.data.elemType = ty.elemType ∧
      ∀ idx, Inside idx (sizes ty.dims ops) → t'.scalarAt idx = t.scalarAt (sliceSource (firsts ty.dims ops) idx)
  compiled : ∀ dst : ResolvedTensorType, dst.dims = sizes ty.dims ops → dst.HasStrides →
    compileSlice typeOf getInitializer inputs dst ty =
      some ((List.range (sizes ty.dims ops).prod).map fun n =>
        (elementAt dst.stride (multiIndex dst.dims n),
          elementAt ty.stride (sliceSource (firsts ty.dims ops) (multiIndex dst.dims n))))

/-! ### The body -/

variable {dims starts src dst : List Nat}

/-- The body splits the index into coordinates, the last one first. -/
theorem foldrM_axes (hpos : ∀ d ∈ dims, 0 < d) (hstarts : starts.length = dims.length)
    (hsrc : src.length = dims.length) (hdst : dst.length = dims.length) (n : Nat) :
    (axesOf dims starts src dst).foldrM (fun axis state => axisOffsets state axis) (n, 0, 0) =
      some (n / dims.prod, elementAt src (sliceSource starts (multiIndex dims n)),
        elementAt dst (multiIndex dims n)) := by
  induction dims generalizing starts src dst with
  | nil => simp [axesOf, multiIndex, sliceSource, elementAt]
  | cons d dims ih =>
      obtain ⟨hd, hdims⟩ := List.forall_mem_cons.mp hpos
      obtain ⟨start, starts, rfl⟩ := List.exists_cons_of_length_eq_add_one hstarts
      obtain ⟨s, src, rfl⟩ := List.exists_cons_of_length_eq_add_one hsrc
      obtain ⟨s', dst, rfl⟩ := List.exists_cons_of_length_eq_add_one hdst
      have hrest := @ih starts src dst hdims (by simpa using hstarts) (by simpa using hsrc) (by simpa using hdst)
      rw [axesOf, List.foldrM_cons, hrest]
      simp only [bind, Option.bind, axisOffsets, if_neg (Nat.ne_of_gt hd), multiIndex, elementAt_cons, List.prod_cons]
      rw [Nat.div_div_eq_div_mul, Nat.mul_comm dims.prod d]
      have hsource : sliceSource (start :: starts) (n / dims.prod % d :: multiIndex dims n) =
          (start + n / dims.prod % d) :: sliceSource starts (multiIndex dims n) := rfl
      rw [hsource, elementAt_cons, Nat.add_comm start, Nat.add_comm (elementAt src _), Nat.add_comm (elementAt dst _)]

theorem copyOffsets_eq (hpos : ∀ d ∈ dims, 0 < d) (hstarts : starts.length = dims.length)
    (hsrc : src.length = dims.length) (hdst : dst.length = dims.length) (n : Nat) :
    copyOffsets (axesOf dims starts src dst) n =
      some (elementAt dst (multiIndex dims n), elementAt src (sliceSource starts (multiIndex dims n))) := by
  rw [copyOffsets, List.foldlM_reverse, foldrM_axes hpos hstarts hsrc hdst]
  rfl

/-! ### The kernel -/

variable {typeOf : ValueId → Option ResolvedTensorType} {getInitializer : ValueId → Option Tensor}
  {inputs : List (Option ValueId)} {ty : ResolvedTensorType} {ops : List (Nat × Int64 × Int64)}

theorem mapM_getElem? (l : List Nat) : ((List.range l.length).mapM fun d => l[d]?) = some l := by
  have hget : ∀ d ∈ List.range l.length, l[d]? = some (l.getD d 0) := by
    intro d hd
    have hlt := List.mem_range.mp hd
    simp [List.getD, hlt]
  rw [mapM_some hget]
  congr 1
  refine List.ext_getElem (by simp) fun i hi hi' => ?_
  simp [List.getD, hi']

/-- The starts that the kernel adds. -/
theorem Operands.kernelStarts (h : Operands typeOf getInitializer inputs ty ops) :
    (normalized ty.dims ops).foldlM (fun starts s =>
        if s.step = 1 ∧ s.axis < ty.dims.length then some (starts.set s.axis s.start.toUInt64.toNat) else none)
      (List.replicate ty.dims.length 0) = some (firsts ty.dims ops) := by
  have hloop : ∀ (slices : List Slice) (l : List Nat), (∀ s ∈ slices, s.step = 1 ∧ s.axis < ty.dims.length) →
      slices.foldlM (fun starts s =>
        if s.step = 1 ∧ s.axis < ty.dims.length then some (starts.set s.axis s.start.toUInt64.toNat) else none) l =
      some (slices.foldl (fun l s => l.set s.axis s.start.toUInt64.toNat) l) := by
    intro slices
    induction slices with
    | nil => exact fun _ _ => rfl
    | cons s slices ih =>
        intro l hall
        obtain ⟨hs, hrest⟩ := List.forall_mem_cons.mp hall
        rw [List.foldlM_cons, if_pos hs]
        exact ih _ hrest
  rw [hloop _ _ h.normalized_spec, h.foldl_eq _ (List.length_replicate ..)]
  congr 1
  refine List.map_congr_left fun i hi => ?_
  unfold range
  cases ops.lookup i with
  | none => simp [List.getD]
  | some op =>
      have hlt := h.dim_lt i
      have hle := bound_le (ty.dims.getD i 0) op.1
      exact UInt64.toNat_ofNat_of_lt (Nat.lt_of_le_of_lt hle (hlt.trans (by decide)))

theorem sizes_length (dims : ResolvedTensorDims) : (sizes dims ops).length = dims.length := by simp [sizes]

/-- The strides that the kernel reads; without axes there are none. -/
theorem exists_strides {ty' : ResolvedTensorType} (hty : ty'.HasStrides) :
    ∃ l, ((List.range ty'.dims.length).mapM fun d => ty'.stride[d]?) = some l ∧ (ty'.dims ≠ [] → l = ty'.stride) := by
  by_cases hnil : ty'.dims = []
  · exact ⟨[], by simp [hnil], fun hne => absurd hnil hne⟩
  · refine ⟨ty'.stride, ?_, fun _ => rfl⟩
    rw [← hty hnil]
    exact mapM_getElem? _

/-- The kernel runs the body for each number that the loop takes. -/
theorem Operands.compileSlice_eq (h : Operands typeOf getInitializer inputs ty ops) {dst : ResolvedTensorType}
    (hdims : dst.dims = sizes ty.dims ops) (hdst : dst.HasStrides) :
    compileSlice typeOf getInitializer inputs dst ty =
      (List.range (if dst.dims.size % 2 ^ 64 = 0 then 2 ^ 64 else dst.dims.size % 2 ^ 64)).mapM
        (copyOffsets (axesOf dst.dims (firsts ty.dims ops) ty.stride dst.stride)) := by
  have hlen : dst.dims.length = ty.dims.length := by rw [hdims, sizes_length]
  obtain ⟨src, hsrc, hsrcEq⟩ := exists_strides h.strides
  obtain ⟨dst', hdst', hdstEq⟩ := exists_strides hdst
  rw [hlen] at hdst'
  have haxes : axesOf dst.dims (firsts ty.dims ops) src dst' =
      axesOf dst.dims (firsts ty.dims ops) ty.stride dst.stride := by
    by_cases hnil : dst.dims = []
    · rw [hnil]
      rfl
    · rw [hdstEq hnil, hsrcEq]
      intro hnil'
      rw [hnil', List.length_nil] at hlen
      exact hnil (List.length_eq_zero_iff.mp hlen)
  unfold compileSlice
  rw [h.collected.2]
  unfold buildSlice
  simp only [hlen, h.kernelStarts, hsrc, hdst', countedLoop_eq, bind, Option.bind, haxes]

theorem prod_le_of_forall {l l' : List Nat} (h : List.Forall₂ (· ≤ ·) l l') : l.prod ≤ l'.prod := by
  induction h with
  | nil => exact le_rfl
  | cons hle _ ih => simpa using Nat.mul_le_mul hle ih

theorem Operands.sizes_prod_lt (h : Operands typeOf getInitializer inputs ty ops) :
    (sizes ty.dims ops).prod < 2 ^ 64 := by
  refine Nat.lt_of_le_of_lt (prod_le_of_forall (forall_le_dims fun i => ?_)) h.size_lt
  exact (Nat.sub_le _ _).trans (range_le i).2

/-- The kernel copies each element of the slice once, if there is one. -/
theorem Operands.compiled_iff (h : Operands typeOf getInitializer inputs ty ops) {dst : ResolvedTensorType}
    (hdims : dst.dims = sizes ty.dims ops) (hdst : dst.HasStrides) :
    compileSlice typeOf getInitializer inputs dst ty =
        some ((List.range (sizes ty.dims ops).prod).map fun n =>
          (elementAt dst.stride (multiIndex dst.dims n),
            elementAt ty.stride (sliceSource (firsts ty.dims ops) (multiIndex dst.dims n)))) ↔
      sizes ty.dims ops ≠ [] ∧ ∀ d ∈ sizes ty.dims ops, 0 < d := by
  have hlt := h.sizes_prod_lt
  rw [h.compileSlice_eq hdims hdst]
  constructor
  · intro hrun
    have hcount := Tensor.mapM_length hrun
    rw [List.length_map, List.length_range, List.length_range, hdims] at hcount
    -- A size of zero runs the body for each number of 64 bits.
    have hsize : ResolvedTensorDims.size (sizes ty.dims ops) ≠ 0 := by
      intro hzero
      rw [hzero] at hcount
      simp at hcount
      omega
    have hne : sizes ty.dims ops ≠ [] := by
      intro hnil
      rw [hnil] at hsize
      exact hsize rfl
    rw [ResolvedTensorType.size_of_ne_nil hne] at hsize
    exact ⟨hne, pos_of_prod_pos (Nat.pos_of_ne_zero hsize)⟩
  · rintro ⟨hne, hpos⟩
    have hprod : 0 < (sizes ty.dims ops).prod := List.prod_pos hpos
    have hnil : dst.dims ≠ [] := hdims ▸ hne
    have hlen : dst.dims.length = ty.dims.length := by rw [hdims, sizes_length]
    have hcount : dst.dims.size % 2 ^ 64 = (sizes ty.dims ops).prod := by
      rw [hdims, ResolvedTensorType.size_of_ne_nil hne, Nat.mod_eq_of_lt hlt]
    rw [hcount, if_neg (by omega)]
    refine mapM_some fun n _ => copyOffsets_eq (hdims ▸ hpos) ?_ ?_ (hdst hnil) n
    · rw [firsts_length, hlen]
    · rw [hlen]
      refine h.strides fun hnil' => ?_
      rw [hnil', List.length_nil] at hlen
      exact hnil (List.length_eq_zero_iff.mp hlen)

/-! ### Folding -/

variable {nd : Ndarray} {getInline : ValueId → Option Tensor} {v : ValueId} {t : Tensor}

/-- Folding takes the slice of the array. -/
theorem Operands.foldSlice_eq (h : Operands typeOf getInitializer inputs ty ops) (hv : operand? inputs 0 = some v)
    (ht : getInline v = some t) (hdims : t.dims = ty.dims) :
    foldSlice nd typeOf getInitializer getInline inputs =
      (t.slices nd (firsts ty.dims ops) ((List.range ty.dims.length).map fun i => (range ty.dims ops i).2)).bind
        fun res => .ok [res] := by
  unfold foldSlice
  have hbounds := @foldlM_bounds (normalized ty.dims ops) (List.replicate ty.dims.length 0) ty.dims ty.dims.length
    h.normalized_spec
  rw [h.bounds_eq.1, h.bounds_eq.2] at hbounds
  rw [hv, h.collected.1]
  simp only [orPanics, orUnfolded, bind, Except.bind, ht]
  rw [hdims, hbounds]
  rfl

theorem sizes_eq (dims : ResolvedTensorDims) :
    sizes dims ops =
      List.zipWith (· - ·) ((List.range dims.length).map fun i => (range dims ops i).2) (firsts dims ops) := by
  rw [sizes, firsts, List.zipWith_map, List.zipWith_self]

theorem bounds_le (dims : ResolvedTensorDims) :
    List.Forall₂ (· ≤ ·) (firsts dims ops) dims ∧
      List.Forall₂ (· ≤ ·) ((List.range dims.length).map fun i => (range dims ops i).2) dims :=
  ⟨forall_le_dims fun i => (range_le i).1, forall_le_dims fun i => (range_le i).2⟩

/-- A tensor of zeros. -/
theorem exists_zeros (ty : ResolvedTensorType) :
    ∃ t : Tensor, t.dims = ty.dims ∧ t.data.elemType = ty.elemType ∧ t.Full ∧ t.data.OfType := by
  have hsize : max (ResolvedTensorDims.size ty.dims) 1 = max ty.dims.prod 1 := by
    by_cases hnil : ty.dims = []
    · rw [hnil]
      rfl
    · rw [ResolvedTensorType.size_of_ne_nil hnil]
  obtain ⟨data, hdata, hcount, htype⟩ : ∃ data : TensorData, data.elemType = ty.elemType ∧
      data.size = ty.dims.prod ∧ data.OfType := by
    cases ty.elemType with
    | bool => exact ⟨.bool (List.replicate _ 0), rfl, List.length_replicate .., by simp [TensorData.OfType]⟩
    | sInt s =>
        refine ⟨.sInt s (List.replicate _ 0), rfl, List.length_replicate .., ?_⟩
        cases s <;> simp only [TensorData.OfType, List.mem_replicate]
        · rintro x ⟨-, rfl⟩
          exact ⟨0, rfl⟩
        · rintro x ⟨-, rfl⟩
          exact ⟨0, rfl⟩
    | uInt u =>
        refine ⟨.uInt u (List.replicate _ 0), rfl, List.length_replicate .., ?_⟩
        cases u <;> simp only [TensorData.OfType, List.mem_replicate]
        rintro x ⟨-, rfl⟩
        exact ⟨0, rfl⟩
    | float f =>
        refine ⟨.float f (List.replicate _ (bf16AsF64 0)), rfl, List.length_replicate .., ?_⟩
        cases f <;> simp only [TensorData.OfType, List.mem_replicate]
        · rintro x ⟨-, rfl⟩
          exact ⟨0, rfl⟩
        · rintro x ⟨-, rfl⟩
          exact ⟨_, rfl⟩
  exact ⟨⟨data, ty.dims, by rw [hcount, hsize]⟩, rfl, hdata, hcount, htype⟩

/-- A result with elements is folded, if the element type has a native type of its own. -/
theorem Operands.folded (h : Operands typeOf getInitializer inputs ty ops) (hpos : ∀ d ∈ sizes ty.dims ops, 0 < d)
    (hu8 : ty.elemType ≠ .uInt .U8) (hbf16 : ty.elemType ≠ .float .BF16) (hv : operand? inputs 0 = some v)
    (ht : getInline v = some t) (hdims : t.dims = ty.dims) (htype : t.data.elemType = ty.elemType) (hfull : t.Full)
    (hdata : t.data.OfType) :
    ∃ t', foldSlice nd typeOf getInitializer getInline inputs = .ok [t'] ∧ t'.dims = sizes ty.dims ops ∧
      t'.data.elemType = ty.elemType ∧
      ∀ idx, Inside idx (sizes ty.dims ops) → t'.scalarAt idx = t.scalarAt (sliceSource (firsts ty.dims ops) idx) := by
  have hnative : ∃ N, Native.of t.data.elemType = some N ∧ N.elemType = t.data.elemType := by
    rw [htype]
    match helem : ty.elemType with
    | .bool => exact ⟨_, rfl, rfl⟩
    | .sInt .I8 => exact ⟨_, rfl, rfl⟩
    | .sInt .I32 => exact ⟨_, rfl, rfl⟩
    | .sInt .I64 => exact ⟨_, rfl, rfl⟩
    | .uInt .U8 => exact absurd helem hu8
    | .uInt .U64 => exact ⟨_, rfl, rfl⟩
    | .float .F32 => exact ⟨_, rfl, rfl⟩
    | .float .F64 => exact ⟨_, rfl, rfl⟩
    | .float .BF16 => exact absurd helem hbf16
  obtain ⟨N, hN, hNtype⟩ := hnative
  obtain ⟨t', ht'⟩ := @Tensor.exists_slices nd t (firsts ty.dims ops)
    ((List.range ty.dims.length).map fun i => (range ty.dims ops i).2) hfull (by rw [hdims]; exact bounds_le ty.dims) N hN
  obtain ⟨-, -, N', hN', hgathered⟩ := Tensor.gathered_of_slices ht'
  obtain rfl : N = N' := Option.some.inj (hN.symm.trans hN')
  rw [← sizes_eq] at hgathered
  refine ⟨t', by rw [h.foldSlice_eq hv ht hdims, ht']; rfl, ?_, hgathered.elemType.trans (hNtype.trans htype),
    fun idx hidx => ?_⟩
  · rw [hgathered.dims]
    exact ResolvedTensorType.new_of_prod_pos (List.prod_pos hpos)
  · rw [hgathered.elems idx hidx]
    cases hat : t.scalarAt (sliceSource (firsts ty.dims ops) idx) with
    | none => rfl
    | some x =>
        have hx : x ∈ t.data.toScalars := List.mem_of_getElem? hat
        rw [Option.map_some, Native.convert_of_ofType hN hdata (htype ▸ hu8) x hx]

/-- Inference, folding and the kernel agree on a slice with the operator, if it has an element, and if the
element type is neither `u8` nor `bf16`. -/
theorem agrees_iff (nd : Ndarray) (typeOf : ValueId → Option ResolvedTensorType)
    (getInitializer : ValueId → Option Tensor) (inputs : List (Option ValueId)) (ty : ResolvedTensorType)
    (ops : List (Nat × Int64 × Int64)) (h : Operands typeOf getInitializer inputs ty ops) :
    Agrees nd typeOf getInitializer inputs ty ops ↔
      (ty.dims ≠ [] ∧ ∀ i < ty.dims.length, (range ty.dims ops i).1 < (range ty.dims ops i).2) ∧
        ty.elemType ≠ .uInt .U8 ∧ ty.elemType ≠ .float .BF16 := by
  have hcond : (ty.dims ≠ [] ∧ ∀ i < ty.dims.length, (range ty.dims ops i).1 < (range ty.dims ops i).2) ↔
      sizes ty.dims ops ≠ [] ∧ ∀ d ∈ sizes ty.dims ops, 0 < d := by
    simp [sizes]
  rw [hcond]
  constructor
  · intro hagrees
    refine ⟨?_, ?_⟩
    · have hstrides : (ResolvedTensorType.new ty.elemType (sizes ty.dims ops)).HasStrides := fun _ => calcStride_length _
      exact (h.compiled_iff rfl hstrides).mp (hagrees.compiled _ rfl hstrides)
    · obtain ⟨v, hv, -⟩ := h.data
      obtain ⟨t, hdims, htype, hfull, hdata⟩ := exists_zeros ty
      obtain ⟨t', ht', -, htype', -⟩ := hagrees.folded (fun _ => some t) v t hv rfl hdims htype hfull hdata
      rw [h.foldSlice_eq hv rfl hdims] at ht'
      obtain ⟨res, hres, hlist⟩ := bind_eq_ok.mp ht'
      cases hlist
      obtain ⟨-, -, N, hN, hgathered⟩ := Tensor.gathered_of_slices hres
      rw [htype] at hN
      rw [hgathered.elemType] at htype'
      constructor <;> intro helem <;> rw [helem] at hN htype' <;> cases hN
      cases htype'
  · rintro ⟨⟨hne, hpos⟩, hu8, hbf16⟩
    refine ⟨h.collected, ?_, fun idx hidx => inside_source hidx, fun getInline v t hv ht hdims htype hfull hdata =>
      h.folded hpos hu8 hbf16 hv ht hdims htype hfull hdata, fun dst hdims hdst =>
      (h.compiled_iff hdims hdst).mpr ⟨hne, hpos⟩⟩
    unfold inferSlice
    rw [h.collected.1]
    change (slicedDims ty.dims (normalized ty.dims ops) >>= fun dims => pure _) = _
    rw [h.slicedDims_eq fun i => ?_]
    · rfl
    · rcases Nat.lt_or_ge i ty.dims.length with hlt | hge
      · exact ((hcond.mpr ⟨hne, hpos⟩).2 i hlt).le
      · have hdim : ty.dims.getD i 0 = 0 := List.getD_eq_default _ _ hge
        have hle := @range_le ops ty.dims i
        omega

/-- A row of four. -/
def rowType (v : ValueId) : Option ResolvedTensorType := if v = 0 then some (.new (.float .F32) [4]) else none

/-- A number as an operand. -/
def number (x : Int64) : Tensor := ⟨.sInt .I64 [x], [1], Tensor.hsize_one⟩

/-- The start is the value 1, the end the value 2. -/
def startAndEnd (start finish : Int64) (v : ValueId) : Option Tensor :=
  if v = 1 then some (number start) else if v = 2 then some (number finish) else none

theorem operands_row (start finish : Int64) :
    Operands rowType (startAndEnd start finish) [some 0, some 1, some 2] (.new (.float .F32) [4])
      [(0, start, finish)] where
  data := ⟨0, rfl, rfl⟩
  starts := ⟨1, number start, .I64, rfl, rfl, rfl, rfl⟩
  ends := ⟨2, number finish, .I64, rfl, rfl, rfl, rfl⟩
  axes := Or.inl ⟨rfl, rfl⟩
  steps := nofun
  nodup := by simp
  axes_lt := by simp [ResolvedTensorType.new]
  rank_lt := by decide
  dims_lt := by simp [ResolvedTensorType.new]
  size_lt := by decide
  strides := fun _ => calcStride_length _

/-- From the second element to the largest number. -/
theorem row_without_first :
    Agrees .documented rowType (startAndEnd 1 9223372036854775807) [some 0, some 1, some 2] (.new (.float .F32) [4])
      [(0, 1, 9223372036854775807)] :=
  (agrees_iff .documented rowType (startAndEnd 1 9223372036854775807) [some 0, some 1, some 2]
    (.new (.float .F32) [4]) [(0, 1, 9223372036854775807)] (operands_row 1 9223372036854775807)).mpr
    ⟨⟨nofun, by decide⟩, nofun, nofun⟩

/-- From the fourth element to before the second. -/
theorem row_reversed :
    Operands rowType (startAndEnd 3 1) [some 0, some 1, some 2] (.new (.float .F32) [4]) [(0, 3, 1)] ∧
      sizes [4] [(0, 3, 1)] = [0] ∧
      inferSlice rowType (startAndEnd 3 1) [some 0, some 1, some 2] (.new (.float .F32) [4]) =
        .ok (.new (.float .F32) [2 ^ 64 - 2]) :=
  ⟨operands_row 3 1, by decide, by decide⟩

end Slice
end NnEngine
