import NnEngine.Tensor.Types

/-!
# Footprints of tensor values

The bytes that a type's strides address over all indices of its dims, and the number of bytes that
hold them.  A type with row-major strides stays within `storage_num_elements`; a type whose strides
were set by a broadcast need not.
-/

namespace NnEngine

/-- The element that an index addresses. -/
def elementAt (stride idx : List Nat) : Nat :=
  (List.zipWith (· * ·) idx stride).sum

@[simp]
theorem elementAt_cons (s i : Nat) (stride idx : List Nat) :
    elementAt (s :: stride) (i :: idx) = i * s + elementAt stride idx := rfl

theorem elementAt_replicate_zero (stride : List Nat) (k : Nat) : elementAt stride (List.replicate k 0) = 0 := by
  induction k generalizing stride with
  | zero => rfl
  | succ k ih =>
      cases stride with
      | nil => rfl
      | cons s stride => rw [List.replicate_succ, elementAt_cons, ih, Nat.zero_mul]

/-- The element that the last index addresses. -/
def lastElement (dims stride : List Nat) : Nat :=
  (List.zipWith (fun d s => (d - 1) * s) dims stride).sum

theorem elementAt_le_lastElement {dims idx : List Nat} (h : List.Forall₂ (· < ·) idx dims)
    (stride : List Nat) : elementAt stride idx ≤ lastElement dims stride := by
  induction h generalizing stride with
  | nil => simp [elementAt, lastElement]
  | @cons i d idx dims hi _ ih =>
      cases stride with
      | nil => simp [elementAt, lastElement]
      | cons s stride =>
          have hhead : i * s ≤ (d - 1) * s := Nat.mul_le_mul_right s (by omega)
          have htail := ih stride
          simp only [elementAt, lastElement, List.zipWith_cons_cons, List.sum_cons] at htail ⊢
          omega

/-- Without an empty axis there is a last index. -/
theorem exists_lastElement {dims : List Nat} (stride : List Nat) (h : ∀ d ∈ dims, d ≠ 0) :
    ∃ idx, List.Forall₂ (· < ·) idx dims ∧ elementAt stride idx = lastElement dims stride := by
  refine ⟨dims.map (· - 1), ?_, ?_⟩
  · rw [List.forall₂_map_left_iff, List.forall₂_same]
    intro d hd
    have := h d hd
    omega
  · rw [elementAt, lastElement, List.zipWith_map_left]

/-- Row-major strides number the elements without gaps. -/
theorem lastElement_calcStride {dims : List Nat} (h : ∀ d ∈ dims, d ≠ 0) :
    lastElement dims (calcStride dims) + 1 = dims.prod := by
  induction dims with
  | nil => rfl
  | cons d dims ih =>
      have htail := ih fun e he => h e (List.mem_cons_of_mem _ he)
      have hd := h d List.mem_cons_self
      have hhead : (d - 1) * (if d = 1 then 0 else dims.prod) = (d - 1) * dims.prod := by
        split
        · rename_i hone
          simp [hone]
        · rfl
      have hsum : lastElement (d :: dims) (calcStride (d :: dims)) =
          (d - 1) * dims.prod + lastElement dims (calcStride dims) := by
        simp only [lastElement, calcStride, List.zipWith_cons_cons, List.sum_cons, hhead]
      calc lastElement (d :: dims) (calcStride (d :: dims)) + 1
          = (d - 1) * dims.prod + dims.prod := by rw [hsum, Nat.add_assoc, htail]
        _ = d * dims.prod := by rw [← Nat.succ_mul, Nat.succ_eq_add_one, Nat.sub_add_cancel (by omega)]
        _ = (d :: dims).prod := by rw [List.prod_cons]

/-- The first axis that is not of extent one spans the whole row-major buffer. -/
theorem prod_le_axisExtents {dims : List Nat} (hne : dims.prod ≠ 1) :
    dims.prod ≤ (axisExtents dims (calcStride dims)).foldr max 0 := by
  induction dims with
  | nil => exact absurd List.prod_nil hne
  | cons d dims ih =>
      simp only [axisExtents, calcStride, List.zipWith_cons_cons, List.foldr_cons, List.prod_cons]
        at ih hne ⊢
      by_cases hd : d = 1
      · rw [hd, Nat.one_mul] at hne ⊢
        exact (ih hne).trans (Nat.le_max_right _ _)
      · rw [if_neg hd]
        exact (Nat.mul_le_mul_right _ (Nat.le_max_left d 1)).trans (Nat.le_max_left _ _)

namespace ResolvedTensorType

/-- The bytes that a value of the type touches. -/
def Touches (ty : ResolvedTensorType) (n : Nat) : Prop :=
  ∃ idx, List.Forall₂ (· < ·) idx ty.dims ∧
    elementAt ty.stride idx * (ty.elemType.bitWidth / 8) ≤ n ∧
    n < (elementAt ty.stride idx + 1) * (ty.elemType.bitWidth / 8)

/-- The end of the last byte touched. -/
def extent (ty : ResolvedTensorType) : Nat :=
  if ty.dims.any (· == 0) then 0
  else (lastElement ty.dims ty.stride + 1) * (ty.elemType.bitWidth / 8)

/-- The extent is the least size that holds the bytes touched. -/
theorem extent_le_iff (ty : ResolvedTensorType) (size : Nat) :
    ty.extent ≤ size ↔ ∀ n, ty.Touches n → n < size := by
  unfold extent
  constructor
  · rintro hle n ⟨idx, hidx, -, hn⟩
    by_cases hany : ty.dims.any (· == 0) = true
    · obtain ⟨d, hd, hzero⟩ := List.any_eq_true.mp hany
      obtain rfl : d = 0 := by simpa using hzero
      obtain ⟨k, hk, hget⟩ := List.mem_iff_getElem.mp hd
      have hlt := hidx.get (i := k) (by rw [hidx.length_eq]; exact hk) hk
      simp only [List.get_eq_getElem, hget] at hlt
      omega
    · rw [if_neg hany] at hle
      have hlast := elementAt_le_lastElement hidx ty.stride
      have hmul := Nat.mul_le_mul_right (ty.elemType.bitWidth / 8) (Nat.succ_le_succ hlast)
      exact Nat.lt_of_lt_of_le hn (hmul.trans hle)
  · intro hall
    split
    · exact Nat.zero_le _
    · rename_i hany
      have hne : ∀ d ∈ ty.dims, d ≠ 0 := by
        rintro d hd rfl
        exact hany (List.any_eq_true.mpr ⟨0, hd, rfl⟩)
      obtain ⟨idx, hidx, helem⟩ := exists_lastElement ty.stride hne
      have hw := ty.elemType.one_le_bytes
      have hpos : 1 * 1 ≤ (lastElement ty.dims ty.stride + 1) * (ty.elemType.bitWidth / 8) :=
        Nat.mul_le_mul (Nat.le_add_left 1 _) hw
      have hlt := hall ((lastElement ty.dims ty.stride + 1) * (ty.elemType.bitWidth / 8) - 1)
        ⟨idx, hidx, by rw [helem, Nat.succ_mul]; omega, by rw [helem]; omega⟩
      omega

/-- A type with row-major strides touches no byte past `storage_num_elements`. -/
theorem new_extent_le (t : DataType) (dims : ResolvedTensorDims) :
    (ResolvedTensorType.new t dims).extent ≤ (ResolvedTensorType.new t dims).byteSize := by
  unfold extent byteSize
  split
  · exact Nat.zero_le _
  · rename_i hany
    refine Nat.mul_le_mul_right _ ?_
    have hne : ∀ d ∈ dims, d ≠ 0 := by
      rintro d hd rfl
      exact hany (List.any_eq_true.mpr ⟨0, hd, rfl⟩)
    have hlast := lastElement_calcStride hne
    show lastElement dims (calcStride dims) + 1 ≤ _
    rw [hlast]
    unfold storageNumElements
    by_cases hscalar : (ResolvedTensorType.new t dims).isScalar = true
    · rw [if_pos hscalar]
      simp only [isScalar, ResolvedTensorType.new, ResolvedTensorDims.size, Bool.or_eq_true,
        List.isEmpty_iff, beq_iff_eq] at hscalar
      rcases hscalar with rfl | hone
      · exact Nat.le_refl 1
      · split at hone
        · cases hone
        · exact Nat.le_of_eq hone
    · rw [if_neg hscalar, if_neg hany]
      refine prod_le_axisExtents fun hone => hscalar ?_
      simp only [isScalar, ResolvedTensorType.new, ResolvedTensorDims.size, Bool.or_eq_true,
        List.isEmpty_iff, beq_iff_eq]
      by_cases hnil : dims = []
      · exact Or.inl hnil
      · right
        rw [if_neg hnil]
        exact hone

end ResolvedTensorType
end NnEngine
