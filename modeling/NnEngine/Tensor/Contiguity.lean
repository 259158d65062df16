import NnEngine.Tensor.ReshapeAddress

/-!
# Contiguous types

`is_contiguous` of `src/tensor/types.rs` looks at the stride of each axis and takes 0 for any extent.
Here the axes are told apart by what their strides do, `is_contiguous` and row-major storage are both
put in these terms, and so it is said on which types they are the same.
-/

namespace NnEngine

/-- The axes with their extents, their strides and how many elements one step in row-major order goes past. -/
def steps : List Nat → List Nat → List (Nat × Nat × Nat)
  | d :: dims, s :: stride => (d, s, dims.prod) :: steps dims stride
  | _, _ => []

@[simp]
theorem steps_cons (d s : Nat) (dims stride : List Nat) :
    steps (d :: dims) (s :: stride) = (d, s, dims.prod) :: steps dims stride := rfl

theorem steps_pos {dims stride : List Nat} (hpos : ∀ d ∈ dims, 0 < d) :
    ∀ a ∈ steps dims stride, 0 < a.1 ∧ 0 < a.2.2 := by
  induction dims generalizing stride with
  | nil => exact nofun
  | cons d dims ih =>
      cases stride with
      | nil => exact nofun
      | cons s stride =>
          have hpos' : ∀ x ∈ dims, 0 < x := fun x hx => hpos x (List.mem_cons_of_mem d hx)
          exact List.forall_mem_cons.mpr ⟨⟨hpos d List.mem_cons_self, prod_pos_of_pos hpos'⟩, ih hpos'⟩

/-! ### Storage in row-major order -/

/-- Every element lies at its row-major number. -/
def StoresRowMajor (dims stride : List Nat) : Prop :=
  ∀ idx, Inside idx dims → elementAt stride idx = rowMajor dims idx

/-- Row-major storage is a matter of the axes that have more than one element. -/
theorem storesRowMajor_iff {dims stride : List Nat} (hlen : stride.length = dims.length)
    (hpos : ∀ d ∈ dims, 0 < d) :
    StoresRowMajor dims stride ↔ ∀ a ∈ steps dims stride, a.1 = 1 ∨ a.2.1 = a.2.2 := by
  induction dims generalizing stride with
  | nil =>
      obtain rfl := List.length_eq_zero_iff.mp hlen
      refine iff_of_true (fun idx hidx => ?_) nofun
      cases hidx
      rfl
  | cons d dims ih =>
      cases stride with
      | nil => cases hlen
      | cons s stride =>
          obtain ⟨hd, hpos'⟩ := List.forall_mem_cons.mp hpos
          rw [steps_cons, List.forall_mem_cons, ← ih (Nat.succ.inj hlen) hpos']
          constructor
          · intro h
            refine ⟨?_, fun idx hidx => ?_⟩
            · -- The second element of the outer axis.
              by_cases hone : d = 1
              · exact Or.inl hone
              · right
                have hlt : 1 < d := by omega
                have hfirst := h (1 :: List.replicate dims.length 0) (.cons hlt (inside_replicate_zero hpos'))
                rwa [elementAt_cons, elementAt_replicate_zero, rowMajor, rowMajor_replicate_zero, Nat.one_mul,
                  Nat.one_mul] at hfirst
            · have hzero := h (0 :: idx) (.cons hd hidx)
              rwa [elementAt_cons, rowMajor, Nat.zero_mul, Nat.zero_mul, Nat.zero_add, Nat.zero_add] at hzero
          · rintro ⟨hhead, htail⟩ idx hidx
            cases hidx with
            | @cons i _ idx _ hi hidx =>
                rw [elementAt_cons, rowMajor, htail idx hidx]
                obtain hone | hs := hhead
                · obtain rfl : i = 0 := by
                    dsimp only at hone
                    omega
                  rw [Nat.zero_mul, Nat.zero_mul]
                · dsimp only at hs
                  rw [hs]

/-- Row-major strides address the elements in row-major order. -/
theorem elementAt_calcStride {dims idx : List Nat} (h : Inside idx dims) :
    elementAt (calcStride dims) idx = rowMajor dims idx := by
  induction h with
  | nil => rfl
  | @cons i d idx dims hlt _ ih =>
      rw [calcStride, elementAt_cons, rowMajor, ih]
      split
      · obtain rfl : i = 0 := by omega
        rw [Nat.zero_mul, Nat.zero_mul]
      · rfl

namespace ResolvedTensorType

variable {ty : ResolvedTensorType}

/-! ### The test -/

theorem contiguousFrom_append (acc : Nat) (axes axes' : List (Nat × Nat)) :
    contiguousFrom acc (axes ++ axes') =
      (contiguousFrom acc axes && contiguousFrom (acc * Strided.size axes) axes') := by
  induction axes generalizing acc with
  | nil => simp [contiguousFrom]
  | cons a axes ih =>
      obtain ⟨d, s⟩ := a
      rw [List.cons_append, contiguousFrom, contiguousFrom, ih, Strided.size_cons, Nat.mul_assoc, Bool.and_assoc]

theorem contiguousFrom_reverse {dims stride : List Nat} (hlen : stride.length = dims.length) :
    contiguousFrom 1 (dims.zip stride).reverse = true ↔ ∀ a ∈ steps dims stride, a.2.1 = 0 ∨ a.2.1 = a.2.2 := by
  induction dims generalizing stride with
  | nil => exact iff_of_true rfl nofun
  | cons d dims ih =>
      cases stride with
      | nil => cases hlen
      | cons s stride =>
          have hlen' : stride.length = dims.length := Nat.succ.inj hlen
          have hsize : Strided.size (dims.zip stride).reverse = dims.prod := by
            rw [Strided.size, List.map_reverse, List.prod_reverse, List.map_fst_zip (Nat.le_of_eq hlen'.symm)]
          rw [List.zip_cons_cons, List.reverse_cons, contiguousFrom_append, Bool.and_eq_true, ih hlen', hsize,
            Nat.one_mul, steps_cons, List.forall_mem_cons, and_comm]
          simp [contiguousFrom]

theorem new_isContiguous (t : DataType) (dims : ResolvedTensorDims) :
    (ResolvedTensorType.new t dims).isContiguous = true := by
  refine (contiguousFrom_reverse (calcStride_length dims)).mpr ?_
  induction dims with
  | nil => exact nofun
  | cons d dims ih =>
      rw [calcStride, steps_cons, List.forall_mem_cons]
      refine ⟨?_, ih⟩
      split
      · exact .inl rfl
      · exact .inr rfl

/-! ### Which strides go wrong -/

/-- The elements along an axis are one and the same. -/
def Repeats (ty : ResolvedTensorType) : Prop := ∃ a ∈ steps ty.dims ty.stride, 1 < a.1 ∧ a.2.1 = 0

/-- The elements along an axis are apart, but not as in row-major order. -/
def Displaces (ty : ResolvedTensorType) : Prop :=
  ∃ a ∈ steps ty.dims ty.stride, 1 < a.1 ∧ a.2.1 ≠ 0 ∧ a.2.1 ≠ a.2.2

/-- An axis of one element has a stride that no element uses, neither 0 nor that of row-major order. -/
def Idles (ty : ResolvedTensorType) : Prop :=
  ∃ a ∈ steps ty.dims ty.stride, a.1 = 1 ∧ a.2.1 ≠ 0 ∧ a.2.1 ≠ a.2.2

theorem isContiguous_iff (hlen : ty.stride.length = ty.dims.length) (hpos : ∀ d ∈ ty.dims, 0 < d) :
    ty.isContiguous = true ↔ ¬ ty.Displaces ∧ ¬ ty.Idles := by
  unfold isContiguous Displaces Idles
  rw [contiguousFrom_reverse hlen]
  push Not
  constructor
  · intro h
    exact ⟨fun a ha _ hzero => (h a ha).resolve_left hzero, fun a ha _ hzero => (h a ha).resolve_left hzero⟩
  · rintro ⟨hlong, hunit⟩ a ha
    by_cases hzero : a.2.1 = 0
    · exact Or.inl hzero
    · right
      have hd := (steps_pos hpos a ha).1
      by_cases hone : a.1 = 1
      · exact hunit a ha hone hzero
      · exact hlong a ha (by omega) hzero

theorem stores_iff (hlen : ty.stride.length = ty.dims.length) (hpos : ∀ d ∈ ty.dims, 0 < d) :
    StoresRowMajor ty.dims ty.stride ↔ ¬ ty.Displaces ∧ ¬ ty.Repeats := by
  unfold Displaces Repeats
  rw [storesRowMajor_iff hlen hpos]
  push Not
  constructor
  · intro h
    have hlong : ∀ a ∈ steps ty.dims ty.stride, 1 < a.1 → a.2.1 = a.2.2 :=
      fun a ha hlt => (h a ha).resolve_left (Nat.ne_of_gt hlt)
    refine ⟨fun a ha hlt _ => hlong a ha hlt, fun a ha hlt => ?_⟩
    rw [hlong a ha hlt]
    exact Nat.ne_of_gt (steps_pos hpos a ha).2
  · rintro ⟨hapart, hstep⟩ a ha
    have hd := (steps_pos hpos a ha).1
    by_cases hone : a.1 = 1
    · exact Or.inl hone
    · have hlt : 1 < a.1 := by omega
      exact Or.inr (hapart a ha hlt (hstep a ha hlt))

/-- `is_contiguous` tells row-major storage, unless an axis that repeats its elements passes for one that is
stored, or an idle stride makes a type fail that is stored. -/
theorem isContiguous_rowMajor_iff (h : Built ty) (hpos : ∀ d ∈ ty.dims, 0 < d) :
    (ty.isContiguous = true ↔ ∀ idx, Inside idx ty.dims → elementAt ty.stride idx = rowMajor ty.dims idx) ↔
      (ty.Displaces ∨ (ty.Repeats ↔ ty.Idles)) := by
  have htest := isContiguous_iff h.length hpos
  have hstores := stores_iff h.length hpos
  unfold StoresRowMajor at hstores
  rw [htest, hstores]
  tauto

/-- A matrix that is transposed. -/
theorem transposed_isContiguous_iff :
    ((ResolvedTensorType.mk (.float .F32) [4, 3] [1, 4]).isContiguous = true ↔
      ∀ idx, Inside idx [4, 3] → elementAt [1, 4] idx = rowMajor [4, 3] idx) ↔
      ((ResolvedTensorType.mk (.float .F32) [4, 3] [1, 4]).Displaces ∨
        ((ResolvedTensorType.mk (.float .F32) [4, 3] [1, 4]).Repeats ↔
          (ResolvedTensorType.mk (.float .F32) [4, 3] [1, 4]).Idles)) :=
  isContiguous_rowMajor_iff (@Built.transpose _ _ [1, 0] (Built.new (.float .F32) [3, 4]) rfl) (by decide)

/-- One element seen as four passes for four elements in a row. -/
theorem broadcast_isContiguous :
    Built ⟨.float .F32, [4], [0]⟩ ∧ (⟨.float .F32, [4], [0]⟩ : ResolvedTensorType).isContiguous = true ∧
      Inside [3] [4] ∧ elementAt [0] [3] ≠ rowMajor [4] [3] :=
  ⟨@Built.broadcast (.new (.float .F32) [1]) _ [4] (.new _ _) rfl, rfl, by simp, by decide⟩

/-! ### Reshaped types -/

section Reshaped

open Strided

variable {u : ResolvedTensorType} {target dims : ResolvedTensorDims} {e : DataType}

theorem tryReshape_type (h : ty.tryReshape target = .ok u) :
    u.elemType = ty.elemType ∧ u.dims = target ∧ u.stride.length = u.dims.length := by
  unfold tryReshape at h
  split at h
  · cases h
    exact ⟨rfl, rfl, calcStride_length _⟩
  · split at h
    · cases h
    · simp only [do_eq_ok, pure_eq_ok] at h
      obtain ⟨newStrides, -, stride, hfill, rfl⟩ := h
      exact ⟨rfl, rfl, fillStrides_length hfill⟩

/-- Strides that are row-major, with zeros on the axes of one element, are those of `new`. -/
theorem calcStride_unique {stride : List Nat} (hlen : stride.length = dims.length)
    (hsteps : ∀ a ∈ steps dims stride, a.1 = 1 ∨ a.2.1 = a.2.2) (hunit : ∀ a ∈ dims.zip stride, a.1 = 1 → a.2 = 0) :
    stride = calcStride dims := by
  induction dims generalizing stride with
  | nil => exact List.length_eq_zero_iff.mp hlen
  | cons d dims ih =>
      cases stride with
      | nil => cases hlen
      | cons s stride =>
          obtain ⟨hhead, htail⟩ := List.forall_mem_cons.mp hsteps
          obtain ⟨hzero, hunit⟩ := List.forall_mem_cons.mp hunit
          rw [calcStride, ← ih (Nat.succ.inj hlen) htail hunit]
          congr 1
          split
          · rename_i hone
            exact hzero hone
          · rename_i hone
            exact hhead.resolve_left hone

theorem reshapedAxes_new (e : DataType) (dims : ResolvedTensorDims) :
    (new e dims).reshapedAxes = dense 1 (dims.filter fun d => d ≠ 1).reverse := by
  show ((dims.zip (calcStride dims)).filter fun a => a.1 ≠ 1).reverse = _
  induction dims with
  | nil => rfl
  | cons d dims ih =>
      by_cases hd : d = 1
      · subst hd
        simpa [calcStride] using ih
      · rw [calcStride, if_neg hd, List.zip_cons_cons, List.filter_cons_of_pos (by simpa using hd),
          List.filter_cons_of_pos (by simpa using hd), List.reverse_cons, List.reverse_cons, dense_concat, ih,
          List.prod_reverse, prod_filter, Nat.one_mul]

/-- The axes of a new type follow each other without gaps. -/
theorem reshapable_new (e : DataType) (dims target : ResolvedTensorDims) : (new e dims).Reshapable target := by
  rw [Reshapable, reshapedAxes_new]
  exact isChain_dense _ _ _ _

theorem offset_new (e : DataType) {n : Nat} (hn : n < dims.prod) : (new e dims).offset n = n := by
  show elementAt (calcStride dims) (multiIndex dims n) = n
  rw [elementAt_calcStride (multiIndex_lt (pos_of_prod_pos (Nat.zero_lt_of_lt hn)) n), rowMajor_multiIndex hn]

/-- A new type is reshaped, and to a new type if its axes are split evenly. -/
theorem tryReshape_new (hpos : ∀ d ∈ dims, 0 < d) (hcount : target.prod = dims.prod) :
    ∃ u, (new e dims).tryReshape target = .ok u ∧ ((new e dims).SplitsEvenly target → u = new e target) := by
  obtain ⟨-, hnot⟩ | ⟨u, hok, -, haddress, -, hunit⟩ :=
    @tryReshape_spec (new e dims) target (calcStride_length dims) hpos hcount
  · exact absurd (reshapable_new e dims target) hnot
  refine ⟨u, hok, fun heven => ?_⟩
  obtain ⟨helem, hdims, hlen⟩ := tryReshape_type hok
  obtain ⟨elemType, dims', stride⟩ := u
  obtain rfl : elemType = e := helem
  obtain rfl : dims' = target := hdims
  have htarget : ∀ d ∈ dims', 0 < d := pos_of_prod_pos (hcount ▸ prod_pos_of_pos hpos)
  have hrows : StoresRowMajor dims' stride := by
    intro idx hidx
    have hlt : rowMajor dims' idx < dims.prod := hcount ▸ rowMajor_lt hidx
    have hoffset := haddress.mpr heven _ hlt
    rw [offset_new _ hlt] at hoffset
    change elementAt stride (multiIndex dims' (rowMajor dims' idx)) = _ at hoffset
    rwa [multiIndex_rowMajor hidx] at hoffset
  exact congrArg (ResolvedTensorType.mk elemType dims')
    (calcStride_unique hlen ((storesRowMajor_iff hlen htarget).mp hrows) hunit)

/-- A single axis is split evenly. -/
theorem splitsEvenly_row (e : DataType) {rows : List Nat} (hrows : (rows.filter fun d => d ≠ 1).length ≤ 1)
    (hcount : target.prod = rows.prod) : (new e rows).SplitsEvenly target := by
  rw [SplitsEvenly, reshapedAxes_new]
  intro n hn x hx _ _
  left
  have hdvd := dvd_of_mem_ends hn
  rw [List.prod_reverse, prod_filter, hcount, ← prod_filter rows, Nat.one_mul] at hdvd
  generalize rows.filter (fun d => d ≠ 1) = l at hrows hx hdvd
  cases l with
  | nil => cases hx
  | cons d l =>
      obtain rfl := List.length_eq_zero_iff.mp (Nat.le_zero.mp (Nat.le_of_succ_le_succ hrows))
      obtain rfl := List.mem_singleton.mp hx
      simpa using hdvd

end Reshaped

end ResolvedTensorType

end NnEngine
