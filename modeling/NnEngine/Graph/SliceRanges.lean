import NnEngine.Graph.SqueezeViews
import NnEngine.Tensor.ElementTypes

/-!
# The ranges of a slice

`Slice::collect_from_inputs` of `src/graph/operator.rs`, its twin `collect_slice_info` of `src/codegen/cpu.rs`,
the dims that `ResolvedTensorDims::slices` infers from the ranges, and the folding of Slice in
`const_folding.rs`.  A graph is read through the types and the initializers of its values.
-/

namespace NnEngine

/-- `to_indices`, with a cast to `isize` of each element. -/
def Tensor.toIndices (t : Tensor) : Option (List TensorIndex) :=
  if t.dims.length ≠ 1 then none
  else
    match t.data with
    | .sInt _ v => some (v.map TensorIndex.mk)
    | .uInt _ v => some (v.map fun x => ⟨x.toInt64⟩)
    | _ => none

/-- `to_1d_sints`. -/
def Tensor.to1dSInts (t : Tensor) : Option (List Int64) :=
  if t.dims.length ≠ 1 then none
  else
    match t.data with
    | .sInt _ v => some v
    | _ => none

/-- `Slice`; `isize` is `Int64`. -/
structure Slice where
  start : Int64
  finish : Int64
  axis : Nat
  step : Int64
  deriving DecidableEq, Repr

namespace Slice

/-- `x.clamp(0, dim as isize)`, which panics if the bounds are in the wrong order. -/
def clamp (x : Int64) (dim : Nat) : Except FoldError Int64 :=
  let hi := Int64.ofNat dim
  if hi < 0 then .error .panic
  else .ok (if x < 0 then 0 else if hi < x then hi else x)

/-- `inputs.get(i).and_then(|x| *x)`. -/
def operand? (inputs : List (Option ValueId)) (i : Nat) : Option ValueId := inputs[i]?.join

section Collect

variable (typeOf : ValueId → Option ResolvedTensorType) (getInitializer : ValueId → Option Tensor)
  (inputs : List (Option ValueId))

/-- The axes, by default as many as there are starts. -/
def sliceAxes (count : Nat) : List TensorIndex :=
  ((operand? inputs 3).bind fun axes => (getInitializer axes).bind Tensor.toIndices).getD
    ((List.range count).map fun i => ⟨Int64.ofNat i⟩)

/-- Steps other than one panic. -/
def checkSteps : Except FoldError Unit :=
  match operand? inputs 4 with
  | some stepsId => do
      let steps ← orPanics ((getInitializer stepsId).bind Tensor.to1dSInts)
      if steps.all (· == 1) then .ok () else .error .panic
  | none => .ok ()

/-- `collect_from_inputs`. -/
def collectFromInputs : Except FoldError (List Slice) := do
  let data ← orPanics (operand? inputs 0)
  let ty ← orUnfolded (typeOf data)
  let startsId ← orPanics (operand? inputs 1)
  let starts ← orUnfolded ((getInitializer startsId).bind Tensor.toIndices)
  let endsId ← orPanics (operand? inputs 2)
  let ends ← orUnfolded ((getInitializer endsId).bind Tensor.toIndices)
  let axes := sliceAxes getInitializer inputs starts.length
  checkSteps getInitializer inputs
  (starts.zip (ends.zip axes)).mapM fun (start, finish, axis) => do
    let axis := axis.index ty.dims.length
    let dim ← orPanics ty.dims[axis]?
    let start ← clamp (Int64.ofNat (start.index dim)) dim
    let finish ← clamp (Int64.ofNat (finish.index dim)) dim
    pure { start, finish, axis, step := 1 }

/-- `collect_slice_info`, where each missing operand panics. -/
def collectSliceInfo : Except FoldError (List Slice) := do
  let dataId ← orPanics (operand? inputs 0)
  let ty ← orPanics (typeOf dataId)
  let startsId ← orPanics (operand? inputs 1)
  let endsId ← orPanics (operand? inputs 2)
  let starts ← orPanics ((getInitializer startsId).bind Tensor.toIndices)
  let ends ← orPanics ((getInitializer endsId).bind Tensor.toIndices)
  let axes := sliceAxes getInitializer inputs starts.length
  checkSteps getInitializer inputs
  ((starts.zip ends).zip axes).mapM fun ((start, finish), axis) => do
    let axis := axis.index ty.dims.length
    let dim ← orPanics ty.dims[axis]?
    let start ← clamp (Int64.ofNat (start.index dim)) dim
    let finish ← clamp (Int64.ofNat (finish.index dim)) dim
    pure { start, finish, axis, step := 1 }

end Collect

/-- `ResolvedTensorDims::slices`: the difference is cast to `usize`. -/
def slicedDims (dims : ResolvedTensorDims) (slices : List Slice) : Except FoldError ResolvedTensorDims :=
  slices.foldlM (fun res s =>
    if s.step ≠ 1 ∨ res.length ≤ s.axis then .error .panic
    else .ok (res.set s.axis (s.finish - s.start).toUInt64.toNat)) dims

/-- The inferred type. -/
def inferSlice (typeOf : ValueId → Option ResolvedTensorType) (getInitializer : ValueId → Option Tensor)
    (inputs : List (Option ValueId)) (input : ResolvedTensorType) : Except FoldError ResolvedTensorType := do
  let slices ← collectFromInputs typeOf getInitializer inputs
  let dims ← slicedDims input.dims slices
  pure (.new input.elemType dims)

/-- The folding of Slice; a start or an end that is clamped is not negative. -/
def foldSlice (nd : Ndarray) (typeOf : ValueId → Option ResolvedTensorType)
    (getInitializer getInlineInitializer : ValueId → Option Tensor) (inputs : List (Option ValueId)) :
    Except FoldError (List Tensor) := do
  let inputId ← orPanics (operand? inputs 0)
  let slices ← collectFromInputs typeOf getInitializer inputs
  let input ← orUnfolded (getInlineInitializer inputId)
  let (starts, ends) ← slices.foldlM (fun (bounds : List Nat × List Nat) s =>
    if s.step ≠ 1 ∨ input.dims.length ≤ s.axis then .error .panic
    else .ok (bounds.1.set s.axis s.start.toNatClampNeg, bounds.2.set s.axis s.finish.toNatClampNeg))
    (List.replicate input.dims.length 0, input.dims)
  let res ← input.slices nd starts ends
  pure [res]

/-! ### What Slice is for -/

/-- A start or an end: from the back if it is negative, and clamped to the axis. -/
def bound (dim : Nat) (x : Int64) : Nat := (min (if x.toInt < 0 then x.toInt + dim else x.toInt) dim).toNat

/-- The range on an axis, the whole axis by default. -/
def range (dims : ResolvedTensorDims) (ops : List (Nat × Int64 × Int64)) (axis : Nat) : Nat × Nat :=
  match ops.lookup axis with
  | some (start, finish) => (bound (dims.getD axis 0) start, bound (dims.getD axis 0) finish)
  | none => (0, dims.getD axis 0)

/-- Where each axis starts. -/
def firsts (dims : ResolvedTensorDims) (ops : List (Nat × Int64 × Int64)) : List Nat :=
  (List.range dims.length).map fun axis => (range dims ops axis).1

/-- The dims of the result; a range that ends before it starts is empty. -/
def sizes (dims : ResolvedTensorDims) (ops : List (Nat × Int64 × Int64)) : List Nat :=
  (List.range dims.length).map fun axis => (range dims ops axis).2 - (range dims ops axis).1

/-- An operand that is a one-dimensional tensor of signed integers. -/
def Ints (getInitializer : ValueId → Option Tensor) (inputs : List (Option ValueId)) (i : Nat) (v : List Int64) :
    Prop :=
  ∃ id t s, operand? inputs i = some id ∧ getInitializer id = some t ∧ t.dims.length = 1 ∧ t.data = .sInt s v

/-- The operands of a Slice of a value of type `ty`: the starts and ends of different axes, in unit steps.  A dim
fits an `isize` and the size a `usize`. -/
structure Operands (typeOf : ValueId → Option ResolvedTensorType) (getInitializer : ValueId → Option Tensor)
    (inputs : List (Option ValueId)) (ty : ResolvedTensorType) (ops : List (Nat × Int64 × Int64)) : Prop where
  data : ∃ v, operand? inputs 0 = some v ∧ typeOf v = some ty
  starts : Ints getInitializer inputs 1 (ops.map fun op => op.2.1)
  ends : Ints getInitializer inputs 2 (ops.map fun op => op.2.2)
  axes : operand? inputs 3 = none ∧ ops.map Prod.fst = List.range ops.length ∨
    ∃ axes, Ints getInitializer inputs 3 axes ∧
      List.Forall₂ (fun x op => Names ty.dims.length ⟨x⟩ op.1) axes ops
  steps : ∀ id, operand? inputs 4 = some id → ∃ v, Ints getInitializer inputs 4 v ∧ v.all (· == 1)
  nodup : (ops.map Prod.fst).Nodup
  axes_lt : ∀ op ∈ ops, op.1 < ty.dims.length
  rank_lt : ty.dims.length < 2 ^ 63
  dims_lt : ∀ d ∈ ty.dims, d < 2 ^ 63
  size_lt : ty.dims.prod < 2 ^ 64
  strides : ty.HasStrides

/-! ### The normalised ranges -/

variable {typeOf : ValueId → Option ResolvedTensorType} {getInitializer : ValueId → Option Tensor}
  {inputs : List (Option ValueId)} {ty : ResolvedTensorType} {ops : List (Nat × Int64 × Int64)}

theorem Ints.toIndices {i : Nat} {v : List Int64} (h : Ints getInitializer inputs i v) :
    ∃ id, operand? inputs i = some id ∧ (getInitializer id).bind Tensor.toIndices = some (v.map TensorIndex.mk) ∧
      (getInitializer id).bind Tensor.to1dSInts = some v := by
  obtain ⟨id, t, s, hid, ht, hrank, hdata⟩ := h
  exact ⟨id, hid, by simp [ht, Tensor.toIndices, hrank, hdata], by simp [ht, Tensor.to1dSInts, hrank, hdata]⟩

theorem ofNat_toUInt64 (x : Int64) : Int64.ofNat x.toUInt64.toNat = x := by
  apply Int64.toBitVec_inj.mp
  change BitVec.ofNat 64 x.toBitVec.toNat = x.toBitVec
  simp

/-- The wrap-around of a negative index is undone by the cast back. -/
theorem toInt_index {dim : Nat} (hdim : dim < 2 ^ 63) (x : Int64) :
    (Int64.ofNat (TensorIndex.index ⟨x⟩ dim)).toInt = if x.toInt < 0 then x.toInt + dim else x.toInt := by
  have hofNat : (Int64.ofNat dim).toInt = dim := Int64.toInt_ofNat_of_lt hdim
  have hneg : x < 0 ↔ x.toInt < 0 := Int64.lt_iff_toInt_lt
  have hge := x.le_toInt
  unfold TensorIndex.index
  rw [apply_ite Int64.ofNat, ofNat_toUInt64, ofNat_toUInt64, apply_ite Int64.toInt, if_congr hneg rfl rfl]
  refine ite_congr rfl (fun hlt => ?_) fun _ => rfl
  change (Int64.ofNat dim + x).toInt = _
  rw [Int64.toInt_add, hofNat, Int.bmod_eq_of_le (by omega) (by omega), Int.add_comm]

theorem clamp_index {dim : Nat} (hdim : dim < 2 ^ 63) (x : Int64) :
    clamp (Int64.ofNat (TensorIndex.index ⟨x⟩ dim)) dim = .ok (Int64.ofNat (bound dim x)) := by
  have hofNat : (Int64.ofNat dim).toInt = dim := Int64.toInt_ofNat_of_lt hdim
  have hindex := toInt_index hdim x
  have hbound : bound dim x < 2 ^ 63 := by
    unfold bound
    omega
  have hboundInt : (Int64.ofNat (bound dim x)).toInt = bound dim x := Int64.toInt_ofNat_of_lt hbound
  have hzero : (0 : Int64).toInt = 0 := rfl
  unfold clamp
  simp only [Int64.lt_iff_toInt_lt, hofNat, hzero]
  rw [if_neg (by omega)]
  congr 1
  apply Int64.toInt_inj.mp
  rw [hboundInt, apply_ite Int64.toInt, apply_ite Int64.toInt, hindex, hofNat, hzero]
  unfold bound
  split_ifs <;> omega

/-- The slices that both collections give. -/
def normalized (dims : ResolvedTensorDims) (ops : List (Nat × Int64 × Int64)) : List Slice :=
  ops.map fun op =>
    { start := Int64.ofNat (bound (dims.getD op.1 0) op.2.1)
      finish := Int64.ofNat (bound (dims.getD op.1 0) op.2.2)
      axis := op.1
      step := 1 }

theorem forall_index {rank : Nat} (hrank : rank < 2 ^ 63) {axes : List Int64}
    (hnames : List.Forall₂ (fun x (op : Nat × Int64 × Int64) => Names rank ⟨x⟩ op.1) axes ops)
    (hlt : ∀ op ∈ ops, op.1 < rank) :
    List.Forall₂ (fun x op => TensorIndex.index ⟨x⟩ rank = op.1 ∧ op.1 < rank) axes ops := by
  induction hnames with
  | nil => exact .nil
  | @cons x op axes ops hname _ ih =>
      obtain ⟨hop, hrest⟩ := List.forall_mem_cons.mp hlt
      exact .cons ⟨hname.index (by omega), hop⟩ (ih hrest)

theorem Operands.sliceAxes (h : Operands typeOf getInitializer inputs ty ops) :
    List.Forall₂ (fun axis op => axis.index ty.dims.length = op.1 ∧ op.1 < ty.dims.length)
      (Slice.sliceAxes getInitializer inputs ops.length) ops := by
  have hlt := h.rank_lt
  obtain ⟨hnone, hdefault⟩ | ⟨axes, haxes, hnames⟩ := h.axes
  · rw [Slice.sliceAxes, hnone, Option.bind_none, Option.getD_none, List.forall₂_map_left_iff, ← hdefault,
      List.forall₂_map_left_iff, List.forall₂_same]
    intro op hop
    have hop' := h.axes_lt op hop
    have hname : Names ty.dims.length ⟨Int64.ofNat op.1⟩ op.1 := by
      have hint : (Int64.ofNat op.1).toInt = op.1 := Int64.toInt_ofNat_of_lt (hop'.trans hlt)
      change (op.1 : Int) = if (Int64.ofNat op.1).toInt < 0 then _ else (Int64.ofNat op.1).toInt
      omega
    exact ⟨hname.index (by omega), hop'⟩
  · obtain ⟨id, hid, htoIndices, -⟩ := haxes.toIndices
    rw [Slice.sliceAxes, hid, Option.bind_some, htoIndices, Option.getD_some, List.forall₂_map_left_iff]
    exact forall_index hlt hnames h.axes_lt

/-- One slice is normalised as the operator says. -/
theorem normalize_one {dims : ResolvedTensorDims} (hdims : ∀ d ∈ dims, d < 2 ^ 63) {axis : TensorIndex}
    {op : Nat × Int64 × Int64} (haxis : axis.index dims.length = op.1) (hlt : op.1 < dims.length) :
    (do
      let axis := axis.index dims.length
      let dim ← orPanics dims[axis]?
      let start ← clamp (Int64.ofNat (TensorIndex.index ⟨op.2.1⟩ dim)) dim
      let finish ← clamp (Int64.ofNat (TensorIndex.index ⟨op.2.2⟩ dim)) dim
      pure { start, finish, axis, step := 1 } : Except FoldError Slice) =
    .ok
      { start := Int64.ofNat (bound (dims.getD op.1 0) op.2.1)
        finish := Int64.ofNat (bound (dims.getD op.1 0) op.2.2)
        axis := op.1
        step := 1 } := by
  have hget : dims[op.1]? = some (dims.getD op.1 0) := by simp [List.getD, hlt]
  have hdim : dims.getD op.1 0 < 2 ^ 63 := hdims _ (List.mem_of_getElem? hget)
  simp only [haxis, hget, orPanics, clamp_index hdim, bind, Except.bind, pure, Except.pure]

theorem Operands.checkSteps (h : Operands typeOf getInitializer inputs ty ops) :
    Slice.checkSteps getInitializer inputs = .ok () := by
  unfold Slice.checkSteps
  cases hsteps : operand? inputs 4 with
  | none => rfl
  | some id =>
      obtain ⟨v, hv, hall⟩ := h.steps id hsteps
      obtain ⟨id', hid', -, hsints⟩ := hv.toIndices
      obtain rfl : id = id' := Option.some.inj (hsteps.symm.trans hid')
      dsimp only
      rw [hsints]
      exact if_pos hall

/-- The starts, the ends and the axes of the operands, side by side. -/
theorem forall_zip {S : TensorIndex → Nat × Int64 × Int64 → Prop} {axes : List TensorIndex}
    (haxes : List.Forall₂ S axes ops) :
    List.Forall₂ (fun x op => x.1 = ⟨op.2.1⟩ ∧ x.2.1 = ⟨op.2.2⟩ ∧ S x.2.2 op)
      ((ops.map fun op => (⟨op.2.1⟩ : TensorIndex)).zip ((ops.map fun op => (⟨op.2.2⟩ : TensorIndex)).zip axes)) ops := by
  induction haxes with
  | nil => exact .nil
  | cons hop _ ih => exact .cons ⟨rfl, rfl, hop⟩ ih

theorem zip_assoc {α β γ : Type} (a : List α) (b : List β) (c : List γ) :
    (a.zip b).zip c = (a.zip (b.zip c)).map fun x => ((x.1, x.2.1), x.2.2) := by
  induction a generalizing b c with
  | nil => rfl
  | cons x a ih => cases b <;> cases c <;> simp [ih]

/-- Both collections give the ranges of the operator. -/
theorem Operands.collected (h : Operands typeOf getInitializer inputs ty ops) :
    collectFromInputs typeOf getInitializer inputs = .ok (normalized ty.dims ops) ∧
      collectSliceInfo typeOf getInitializer inputs = .ok (normalized ty.dims ops) := by
  obtain ⟨v, hv, hty⟩ := h.data
  obtain ⟨sid, hsid, hstarts, -⟩ := h.starts.toIndices
  obtain ⟨eid, heid, hends, -⟩ := h.ends.toIndices
  have haxes := h.sliceAxes
  have hlen : (ops.map fun op => op.2.1).length = ops.length := List.length_map _
  constructor
  · refine do_eq_ok.mpr ⟨v, orPanics_eq_ok.mpr hv, do_eq_ok.mpr ⟨ty, orUnfolded_eq_ok.mpr hty, ?_⟩⟩
    refine do_eq_ok.mpr ⟨sid, orPanics_eq_ok.mpr hsid, do_eq_ok.mpr ⟨_, orUnfolded_eq_ok.mpr hstarts, ?_⟩⟩
    refine do_eq_ok.mpr ⟨eid, orPanics_eq_ok.mpr heid, do_eq_ok.mpr ⟨_, orUnfolded_eq_ok.mpr hends, ?_⟩⟩
    refine do_eq_ok.mpr ⟨(), h.checkSteps, ?_⟩
    rw [List.length_map, hlen, List.map_map, List.map_map]
    refine mapM_eq_ok.mpr (List.forall₂_map_right_iff.mpr ((forall_zip haxes).imp ?_))
    rintro ⟨start, finish, axis⟩ op ⟨rfl, rfl, haxis, hlt⟩
    exact normalize_one h.dims_lt haxis hlt
  · refine do_eq_ok.mpr ⟨v, orPanics_eq_ok.mpr hv, do_eq_ok.mpr ⟨ty, orPanics_eq_ok.mpr hty, ?_⟩⟩
    refine do_eq_ok.mpr ⟨sid, orPanics_eq_ok.mpr hsid, do_eq_ok.mpr ⟨eid, orPanics_eq_ok.mpr heid, ?_⟩⟩
    refine do_eq_ok.mpr ⟨_, orPanics_eq_ok.mpr hstarts, do_eq_ok.mpr ⟨_, orPanics_eq_ok.mpr hends, ?_⟩⟩
    refine do_eq_ok.mpr ⟨(), h.checkSteps, ?_⟩
    rw [List.length_map, hlen, List.map_map, List.map_map, zip_assoc]
    refine mapM_eq_ok.mpr (List.forall₂_map_left_iff.mpr (List.forall₂_map_right_iff.mpr ((forall_zip haxes).imp ?_)))
    rintro ⟨start, finish, axis⟩ op ⟨rfl, rfl, haxis, hlt⟩
    exact normalize_one h.dims_lt haxis hlt

/-! ### The loops over the slices -/

/-- Entries that are set one after the other, at different places. -/
theorem getElem?_foldl_set {β : Type} {f : Nat × β → Nat} {ops : List (Nat × β)} (hnodup : (ops.map Prod.fst).Nodup)
    (l : List Nat) (i : Nat) :
    (ops.foldl (fun l op => l.set op.1 (f op)) l)[i]? =
      (l[i]?).map fun x => match ops.lookup i with
        | some b => f (i, b)
        | none => x := by
  induction ops generalizing l with
  | nil => simp
  | cons op ops ih =>
      obtain ⟨a, b⟩ := op
      rw [List.map_cons, List.nodup_cons] at hnodup
      rw [List.foldl_cons, ih hnodup.2, List.lookup_cons]
      by_cases hi : i = a
      · subst hi
        have hnone : ops.lookup i = none := by
          rw [List.lookup_eq_none_iff]
          intro x hx
          refine bne_iff_ne.mpr fun heq => hnodup.1 ?_
          exact List.mem_map.mpr ⟨x, hx, heq.symm⟩
        rcases Nat.lt_or_ge i l.length with hlt | hge
        · simp [hnone, hlt]
        · simp [hge]
      · have hne : (i == a) = false := by simpa using hi
        rw [hne, List.getElem?_set_ne (Ne.symm hi)]

variable {dims : ResolvedTensorDims} {slices : List Slice}

theorem slicedDims_eq (h : ∀ s ∈ slices, s.step = 1 ∧ s.axis < dims.length) :
    slicedDims dims slices = .ok (slices.foldl (fun res s => res.set s.axis (s.finish - s.start).toUInt64.toNat) dims) := by
  induction slices generalizing dims with
  | nil => rfl
  | cons s slices ih =>
      obtain ⟨⟨hstep, haxis⟩, hrest⟩ := List.forall_mem_cons.mp h
      have hnext := @ih (dims.set s.axis (s.finish - s.start).toUInt64.toNat) (by simpa using hrest)
      unfold slicedDims at hnext ⊢
      rw [List.foldlM_cons, List.foldl_cons, if_neg (by simp [hstep, haxis])]
      exact hnext

/-- The bounds that folding slices at. -/
theorem foldlM_bounds {starts ends : List Nat} {rank : Nat} (h : ∀ s ∈ slices, s.step = 1 ∧ s.axis < rank) :
    slices.foldlM (fun (bounds : List Nat × List Nat) s =>
        if s.step ≠ 1 ∨ rank ≤ s.axis then (.error .panic : Except FoldError _)
        else .ok (bounds.1.set s.axis s.start.toNatClampNeg, bounds.2.set s.axis s.finish.toNatClampNeg))
      (starts, ends) =
    .ok (slices.foldl (fun l s => l.set s.axis s.start.toNatClampNeg) starts,
      slices.foldl (fun l s => l.set s.axis s.finish.toNatClampNeg) ends) := by
  induction slices generalizing starts ends with
  | nil => rfl
  | cons s slices ih =>
      obtain ⟨⟨hstep, haxis⟩, hrest⟩ := List.forall_mem_cons.mp h
      rw [List.foldlM_cons, List.foldl_cons, List.foldl_cons, if_neg (by simp [hstep, haxis])]
      exact ih hrest

theorem Operands.normalized_spec (h : Operands typeOf getInitializer inputs ty ops) :
    ∀ s ∈ normalized ty.dims ops, s.step = 1 ∧ s.axis < ty.dims.length := by
  intro s hs
  obtain ⟨op, hop, rfl⟩ := List.mem_map.mp hs
  exact ⟨rfl, h.axes_lt op hop⟩

theorem bound_le (dim : Nat) (x : Int64) : bound dim x ≤ dim := by
  unfold bound
  omega

/-- A loop over the slices, axis by axis. -/
theorem Operands.foldl_eq (h : Operands typeOf getInitializer inputs ty ops) (g : Slice → Nat) {l : List Nat}
    (hlen : l.length = ty.dims.length) :
    (normalized ty.dims ops).foldl (fun l s => l.set s.axis (g s)) l =
      (List.range ty.dims.length).map fun i =>
        match ops.lookup i with
        | some (start, finish) =>
            g { start := Int64.ofNat (bound (ty.dims.getD i 0) start)
                finish := Int64.ofNat (bound (ty.dims.getD i 0) finish)
                axis := i
                step := 1 }
        | none => l.getD i 0 := by
  refine List.ext_getElem? fun i => ?_
  rw [normalized, List.foldl_map]
  rw [@getElem?_foldl_set _ (fun op => g
    { start := Int64.ofNat (bound (ty.dims.getD op.1 0) op.2.1)
      finish := Int64.ofNat (bound (ty.dims.getD op.1 0) op.2.2)
      axis := op.1
      step := 1 }) ops h.nodup]
  rcases Nat.lt_or_ge i l.length with hlt | hge
  · rw [List.getElem?_map, List.getElem?_range (hlen ▸ hlt), List.getElem?_eq_getElem hlt]
    cases hop : ops.lookup i <;> simp [hlt, hop]
  · simp [hge, ← hlen]

theorem Operands.dim_lt (h : Operands typeOf getInitializer inputs ty ops) (i : Nat) : ty.dims.getD i 0 < 2 ^ 63 := by
  rcases Nat.lt_or_ge i ty.dims.length with hlt | hge
  · rw [List.getD_eq_getElem _ _ hlt]
    exact h.dims_lt _ (List.getElem_mem hlt)
  · rw [List.getD_eq_default _ _ hge]
    decide

theorem toNatClampNeg_bound {dim : Nat} (hdim : dim < 2 ^ 63) (x : Int64) :
    (Int64.ofNat (bound dim x)).toNatClampNeg = bound dim x :=
  Int64.toNatClampNeg_ofNat_of_lt (Nat.lt_of_le_of_lt (bound_le dim x) hdim)

/-- Folding slices at the ranges of the operator. -/
theorem Operands.bounds_eq (h : Operands typeOf getInitializer inputs ty ops) :
    (normalized ty.dims ops).foldl (fun l s => l.set s.axis s.start.toNatClampNeg) (List.replicate ty.dims.length 0) =
      firsts ty.dims ops ∧
    (normalized ty.dims ops).foldl (fun l s => l.set s.axis s.finish.toNatClampNeg) ty.dims =
      (List.range ty.dims.length).map fun i => (range ty.dims ops i).2 := by
  rw [h.foldl_eq _ (List.length_replicate ..), h.foldl_eq _ rfl]
  constructor <;> refine List.map_congr_left fun i hi => ?_ <;> unfold range <;>
    cases ops.lookup i with
    | none => simp [List.getD]
    | some op => exact toNatClampNeg_bound (h.dim_lt i) _

theorem toNat_sub_ofNat {m n : Nat} (hle : m ≤ n) (hlt : n < 2 ^ 63) :
    (Int64.ofNat n - Int64.ofNat m).toUInt64.toNat = n - m := by
  change (BitVec.ofNat 64 n - BitVec.ofNat 64 m).toNat = n - m
  rw [BitVec.toNat_sub, BitVec.toNat_ofNat, BitVec.toNat_ofNat]
  omega

/-- The inferred dims are those of the operator, if no range ends before it starts. -/
theorem Operands.slicedDims_eq (h : Operands typeOf getInitializer inputs ty ops)
    (hle : ∀ i, (range ty.dims ops i).1 ≤ (range ty.dims ops i).2) :
    slicedDims ty.dims (normalized ty.dims ops) = .ok (sizes ty.dims ops) := by
  rw [Slice.slicedDims_eq h.normalized_spec, h.foldl_eq _ rfl]
  congr 1
  refine List.map_congr_left fun i hi => ?_
  have hlt := h.dim_lt i
  have hrange := hle i
  unfold range at hrange ⊢
  cases hop : ops.lookup i with
  | none => simp
  | some op =>
      rw [hop] at hrange
      dsimp only at hrange ⊢
      have hfinish := bound_le (ty.dims.getD i 0) op.2
      exact toNat_sub_ofNat hrange (by omega)

theorem firsts_length (dims : ResolvedTensorDims) : (firsts dims ops).length = dims.length := by simp [firsts]

theorem range_le (i : Nat) : (range dims ops i).1 ≤ dims.getD i 0 ∧ (range dims ops i).2 ≤ dims.getD i 0 := by
  unfold range
  split
  · exact ⟨bound_le _ _, bound_le _ _⟩
  · exact ⟨Nat.zero_le _, le_rfl⟩

/-- A list of numbers that are at most the dims. -/
theorem forall_le_dims {f : Nat → Nat} (h : ∀ i, f i ≤ dims.getD i 0) :
    List.Forall₂ (· ≤ ·) ((List.range dims.length).map f) dims := by
  refine List.forall₂_iff_get.mpr ⟨by simp, fun i hi hi' => ?_⟩
  have hle := h i
  simpa [List.getD, hi'] using hle

/-- Element `i` of a slice is element `start + i` of the input, which is there. -/
theorem inside_source {idx : List Nat} (hidx : Inside idx (sizes dims ops)) :
    Inside (sliceSource (firsts dims ops) idx) dims := by
  have hsizes : sizes dims ops = List.zipWith (· - ·) ((List.range dims.length).map fun i => (range dims ops i).2)
      (firsts dims ops) := by
    rw [sizes, firsts, List.zipWith_map, List.zipWith_self]
  rw [hsizes] at hidx
  exact Ndarray.inside_sliceSource (forall_le_dims fun i => (range_le i).2) (firsts_length dims) hidx

end Slice
end NnEngine
