import NnEngine.RowMajor
import NnEngine.Tensor.Reshape

/-!
# Types from other types

`transpose`, `broadcast` and `extend_per_channel_params` of `src/tensor/types.rs`, the types that they
and `try_reshape` build, and where an element of a type is stored.
-/

namespace NnEngine

theorem calcStride_length (dims : List Nat) : (calcStride dims).length = dims.length := by
  induction dims with
  | nil => rfl
  | cons d dims ih => rw [calcStride, List.length_cons, List.length_cons, ih]

/-- `ResolvedTensorDims::transpose`; an index out of range panics. -/
def transposeDims (v perms : List Nat) : Option (List Nat) :=
  if v.length < perms.length then none
  else (perms.mapM fun p => v[p]?).map (· ++ v.drop perms.length)

theorem transposeDims_of_isPerm {v perms : List Nat} {rank : Nat} (h : IsPerm perms rank)
    (hv : v.length = rank) : transposeDims v perms = some (permute perms v) := by
  have hmem : ∀ p ∈ perms, p < v.length := fun p hp => by
    rw [hv]
    exact h.mem_iff.mp hp
  have hall : ∀ l : List Nat, (∀ p ∈ l, p < v.length) → l.mapM (fun p => v[p]?) = some (permute l v) := by
    intro l
    induction l with
    | nil => exact fun _ => rfl
    | cons p l ih =>
        intro hl
        have hp := hl p List.mem_cons_self
        rw [List.mapM_cons, List.getElem?_eq_getElem hp, ih fun x hx => hl x (List.mem_cons_of_mem p hx),
          ← getD_of_lt hp]
        rfl
  rw [transposeDims, if_neg (by rw [h.length, hv]; omega), hall perms hmem, Option.map_some,
    List.drop_eq_nil_of_le (by rw [h.length, hv]), List.append_nil]

namespace ResolvedTensorType

/-- `transpose`. -/
def transpose (ty : ResolvedTensorType) (perms : List Nat) : Option ResolvedTensorType := do
  let dims ← transposeDims ty.dims perms
  let stride ← transposeDims ty.stride perms
  some { elemType := ty.elemType, dims, stride }

/-- What `with_stride` asserts: every axis has a stride, unless there are no axes. -/
def HasStrides (ty : ResolvedTensorType) : Prop := ty.dims ≠ [] → ty.stride.length = ty.dims.length

/-- The type of a transposed tensor, where every axis has its place and its stride. -/
theorem transpose_of_isPerm {ty : ResolvedTensorType} {perms : List Nat} (h : IsPerm perms ty.dims.length)
    (hty : ty.HasStrides) :
    ty.transpose perms =
      some { elemType := ty.elemType, dims := permute perms ty.dims
             stride := if ty.dims = [] then ty.stride else permute perms ty.stride } := by
  unfold transpose
  rw [transposeDims_of_isPerm h rfl]
  by_cases hdims : ty.dims = []
  · have hnil : perms = [] := by
      rw [hdims] at h
      exact List.length_eq_zero_iff.mp h.length
    rw [if_pos hdims, hnil]
    simp [transposeDims]
  · rw [transposeDims_of_isPerm h (hty hdims), if_neg hdims]
    rfl

theorem transpose_transpose {ty ty' : ResolvedTensorType} {p q : List Nat} (hq : IsPerm q ty.dims.length)
    (hp : IsPerm p ty.dims.length) (hty : ty.HasStrides) (h : ty.transpose q = some ty') :
    ty'.transpose p = ty.transpose (permute p q) := by
  have hmem : ∀ i ∈ p, i < q.length := fun i hi => by
    rw [hq.length]
    exact hp.mem_iff.mp hi
  have hlen : (permute q ty.dims).length = ty.dims.length := by rw [permute_length, hq.length]
  have hnil : permute q ty.dims = [] ↔ ty.dims = [] := by
    rw [← List.length_eq_zero_iff, ← List.length_eq_zero_iff, hlen]
  rw [transpose_of_isPerm hq hty, Option.some.injEq] at h
  subst h
  rw [transpose_of_isPerm (isPerm_permute hp hq) hty, transpose_of_isPerm]
  · rw [permute_permute hmem]
    by_cases hdims : ty.dims = []
    · simp only [hdims, if_true]
      rw [if_pos]
      exact List.length_eq_zero_iff.mp (by rw [permute_length, hq.length, hdims]; rfl)
    · simp only [if_neg hdims, if_neg (fun h => hdims (hnil.mp h)), permute_permute hmem]
  · rw [hlen]
    exact hp
  · intro hdims
    have hne : ty.dims ≠ [] := fun h => hdims (hnil.mpr h)
    rw [if_neg hne, permute_length, hlen, hq.length]

/-- `broadcast`; `zip_eq` panics if the lengths differ. -/
def broadcast (ty : ResolvedTensorType) (target : ResolvedTensorDims) : Option ResolvedTensorType :=
  if ty.stride.isEmpty then
    some { elemType := ty.elemType, dims := target, stride := List.replicate target.length 0 }
  else if target.length < ty.dims.length ∨ ty.stride.length ≠ ty.dims.length then none
  else
    some
      { elemType := ty.elemType
        dims := target
        stride := List.replicate (target.length - ty.dims.length) 0 ++ ty.stride }

/-- `extend_per_channel_params`. -/
def extendPerChannelParams (ty : ResolvedTensorType) (target : ResolvedTensorDims) :
    Option ResolvedTensorType :=
  if ty.dims.length ≠ 1 then none
  else match target with
    | _ :: _ :: rest =>
        some { elemType := ty.elemType, dims := target, stride := 0 :: 1 :: List.replicate rest.length 0 }
    | _ => none

/-- The loop of `is_contiguous`, over the axes from the last one on. -/
def contiguousFrom : Nat → List (Nat × Nat) → Bool
  | _, [] => true
  | acc, (d, s) :: axes => (s == 0 || s == acc) && contiguousFrom (acc * d) axes

/-- `is_contiguous`. -/
def isContiguous (ty : ResolvedTensorType) : Bool := contiguousFrom 1 (ty.dims.zip ty.stride).reverse

/-- The types that are built from `new`. -/
inductive Built : ResolvedTensorType → Prop
  | new (elemType : DataType) (dims : ResolvedTensorDims) : Built (.new elemType dims)
  | transpose {ty ty' : ResolvedTensorType} {perms : List Nat} (h : Built ty)
      (hty : ty.transpose perms = some ty') : Built ty'
  | broadcast {ty ty' : ResolvedTensorType} {target : ResolvedTensorDims} (h : Built ty)
      (hty : ty.broadcast target = some ty') : Built ty'
  | extendPerChannelParams {ty ty' : ResolvedTensorType} {target : ResolvedTensorDims} (h : Built ty)
      (hty : ty.extendPerChannelParams target = some ty') : Built ty'
  | tryReshape {ty ty' : ResolvedTensorType} {target : ResolvedTensorDims} (h : Built ty)
      (hty : ty.tryReshape target = .ok ty') : Built ty'

end ResolvedTensorType

/-! ### Where elements are -/

/-- The offset of the element with this row-major number. -/
def ResolvedTensorType.offset (ty : ResolvedTensorType) (n : Nat) : Nat :=
  elementAt ty.stride (multiIndex ty.dims n)

theorem elementAt_multiIndex {dims stride : List Nat} (h : stride.length = dims.length) (n : Nat) :
    elementAt stride (multiIndex dims n) = Strided.offset (dims.zip stride).reverse n := by
  induction dims generalizing stride with
  | nil =>
      cases stride with
      | nil => rfl
      | cons s stride => cases h
  | cons d dims ih =>
      cases stride with
      | nil => cases h
      | cons s stride =>
          have hlen : stride.length = dims.length := Nat.succ.inj h
          have hsize : Strided.size (dims.zip stride).reverse = dims.prod := by
            rw [Strided.size, List.map_reverse, List.prod_reverse, List.map_fst_zip (Nat.le_of_eq hlen.symm)]
          rw [List.zip_cons_cons, List.reverse_cons, Strided.offset_append, ← ih hlen, hsize, Nat.add_comm]
          rfl

end NnEngine
