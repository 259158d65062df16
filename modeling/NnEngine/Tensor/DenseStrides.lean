import NnEngine.Tensor.Contiguity

/-!
# Dense strides

Types whose elements lie without gaps, in the row-major order of some permutation of their axes: what `new`
makes, and `transpose` after it.  The index of the element at a storage position is found again axis by axis,
from the stride and the extent of the axis.
-/

namespace NnEngine

variable {perm : List Nat}

theorem zipWith_permute (f : Nat → Nat → Nat) {a b : List Nat} (hlen : b.length = a.length)
    (h : IsPerm perm a.length) :
    List.zipWith f (permute perm a) (permute perm b) = permute perm (List.zipWith f a b) := by
  unfold permute
  rw [List.zipWith_map, List.zipWith_self]
  refine List.map_congr_left fun p hp => ?_
  have hp := h.mem_iff.mp hp
  rw [getD_of_lt hp, getD_of_lt (by omega), getD_of_lt (by rw [List.length_zipWith]; omega), List.getElem_zipWith]

theorem elementAt_permute {stride idx : List Nat} (hlen : idx.length = stride.length)
    (h : IsPerm perm idx.length) : elementAt (permute perm stride) (permute perm idx) = elementAt stride idx := by
  unfold elementAt
  rw [zipWith_permute _ hlen.symm h]
  refine (permute_perm ?_).sum_eq
  rwa [List.length_zipWith, ← hlen, Nat.min_self]

/-- The coordinate on one axis of the element at a storage position. -/
def axisIndex (pos : Nat) (dim stride : Nat) : Nat := if dim ≤ 1 ∨ stride = 0 then 0 else pos / stride % dim

/-- In row-major order the coordinates are those of the row-major number. -/
theorem axisIndex_calcStride {dims : List Nat} (hpos : ∀ d ∈ dims, 0 < d) (pos : Nat) :
    List.zipWith (axisIndex pos) dims (calcStride dims) = multiIndex dims pos := by
  induction dims with
  | nil => rfl
  | cons d dims ih =>
      have hd : 0 < d := hpos d List.mem_cons_self
      have htail : ∀ x ∈ dims, 0 < x := fun x hx => hpos x (List.mem_cons_of_mem d hx)
      have hprod : 0 < dims.prod := prod_pos_of_pos htail
      rw [calcStride, List.zipWith_cons_cons, ih htail, multiIndex]
      congr 1
      unfold axisIndex
      by_cases hone : d = 1
      · rw [if_pos (.inl hone.le), hone, Nat.mod_one]
      · rw [if_neg hone, if_neg]
        omega

namespace ResolvedTensorType

/-- The strides are row-major in some order of the axes, and 0 on the axes of extent one. -/
def Dense (ty : ResolvedTensorType) : Prop :=
  ∃ perm dims, IsPerm perm dims.length ∧ ty.dims = permute perm dims ∧ ty.stride = permute perm (calcStride dims)

/-- The index of the element at a storage position. -/
def indexAt (ty : ResolvedTensorType) (pos : Nat) : List Nat :=
  List.zipWith (axisIndex pos) ty.dims ty.stride

theorem dense_new (e : DataType) (dims : ResolvedTensorDims) : (new e dims).Dense :=
  ⟨List.range dims.length, dims, .refl _, (permute_range rfl).symm,
    (permute_range (calcStride_length dims)).symm⟩

variable {ty : ResolvedTensorType} {idx : List Nat} {pos : Nat}

theorem Dense.length (h : ty.Dense) : ty.stride.length = ty.dims.length := by
  obtain ⟨perm, dims, -, hdims, hstride⟩ := h
  rw [hdims, hstride, permute_length, permute_length]

/-- A storage position and the index of its element. -/
theorem Dense.indexAt_spec (h : ty.Dense) (hpos : ∀ d ∈ ty.dims, 0 < d) (hlt : pos < ty.dims.prod) :
    Inside (ty.indexAt pos) ty.dims ∧ elementAt ty.stride (ty.indexAt pos) = pos := by
  obtain ⟨perm, dims, hperm, hdims, hstride⟩ := h
  have hdims' : ∀ d ∈ dims, 0 < d := fun d hd => hpos d (hdims ▸ (permute_perm hperm).mem_iff.mpr hd)
  have hlt' : pos < dims.prod := by rwa [hdims, prod_permute hperm] at hlt
  have hindex : ty.indexAt pos = permute perm (multiIndex dims pos) := by
    unfold indexAt
    rw [hdims, hstride, zipWith_permute _ (calcStride_length dims) hperm, axisIndex_calcStride hdims']
  have hin := multiIndex_lt hdims' pos
  rw [hindex, hdims, hstride]
  refine ⟨inside_permute hin fun p hp => hperm.mem_iff.mp hp, ?_⟩
  rw [elementAt_permute (by rw [multiIndex_length, calcStride_length]) (by rwa [multiIndex_length]),
    elementAt_calcStride hin, rowMajor_multiIndex hlt']

/-- An axis has no stride if and only if it has extent one. -/
theorem Dense.stride_eq_zero_iff (h : ty.Dense) (hpos : ∀ d ∈ ty.dims, 0 < d) {axis : Nat}
    (haxis : axis < ty.dims.length) : ty.stride.getD axis 0 = 0 ↔ ty.dims.getD axis 0 = 1 := by
  obtain ⟨perm, dims, hperm, hdims, hstride⟩ := h
  have hdims' : ∀ d ∈ dims, 0 < d := fun d hd => hpos d (hdims ▸ (permute_perm hperm).mem_iff.mpr hd)
  have hstored : ∀ (dims : List Nat), (∀ d ∈ dims, 0 < d) → ∀ k < dims.length,
      (calcStride dims).getD k 0 = 0 ↔ dims.getD k 0 = 1 := by
    intro dims hpos
    induction dims with
    | nil => exact fun k hk => absurd hk (Nat.not_lt_zero k)
    | cons d dims ih =>
        have htail : ∀ x ∈ dims, 0 < x := fun x hx => hpos x (List.mem_cons_of_mem d hx)
        intro k hk
        cases k with
        | zero =>
            have hprod := (prod_pos_of_pos htail).ne'
            simp [calcStride, hprod]
        | succ k => simpa [calcStride] using ih htail k (Nat.lt_of_succ_lt_succ hk)
  rw [hdims, permute_length] at haxis
  rw [hdims, hstride, List.getD_eq_getElem?_getD, List.getD_eq_getElem?_getD, getElem?_permute _ haxis,
    getElem?_permute _ haxis, Option.getD_some, Option.getD_some]
  exact hstored dims hdims' _ (hperm.mem_iff.mp (List.getElem_mem haxis))

end ResolvedTensorType
end NnEngine
