import NnEngine.Graph.ViewShapes

/-!
# Squeezed views

What `infer_node_output` of `src/transform/shape.rs` does for Squeeze and Unsqueeze.  Axes of one element are
dropped or inserted, in the dims and in the strides; both lists are rebuilt by `ResolvedTensorDims::new`.
-/

namespace NnEngine

open ResolvedTensorType

/-- The marks at the axes, all of which have to be in range and to pass the check. -/
def markAxes (rank : Nat) (check : Nat → Bool) (axes : List TensorIndex) : Except InferStop (List Bool) :=
  axes.foldlM (fun mask axis =>
    if axis.index rank < rank ∧ check (axis.index rank) then .ok (mask.set (axis.index rank) true)
    else .error .panic) (List.replicate rank false)

/-- `with_stride`. -/
def withStride (elemType : DataType) (dims stride : ResolvedTensorDims) : Except InferStop ResolvedTensorType :=
  if dims ≠ [] ∧ dims.length ≠ stride.length then .error .panic else .ok { elemType, dims, stride }

/-- The type of both operators, from its dims and strides. -/
def viewType (input : ResolvedTensorType) (dims strides : List Nat) (mode : UnifyMode) :
    Except InferStop ResolvedTensorType :=
  if mode = .checkStrides then withStride input.elemType (.new dims) (.new strides)
  else .ok (.new input.elemType (.new dims))

/-- The entries without a mark. -/
def dropped {α : Type} : List Bool → List α → List α
  | mark :: mask, x :: l => if mark then dropped mask l else x :: dropped mask l
  | _, _ => []

/-- `drop`. -/
def squeezeDrop (dims : ResolvedTensorDims) : Option (List TensorIndex) → Except InferStop (List Bool)
  | some axes => markAxes dims.length (fun axis => dims[axis]? == some 1) axes
  | none => .ok (dims.map (· == 1))

/-- Squeeze. -/
def inferSqueeze (axes : Option (List TensorIndex)) (input : ResolvedTensorType) (mode : UnifyMode) :
    Except InferStop ResolvedTensorType := do
  let drop ← squeezeDrop input.dims axes
  let kept := dropped drop (input.dims.zip input.stride)
  viewType input (kept.map Prod.fst) (kept.map Prod.snd) mode

/-- The loop of Unsqueeze, over the marks, and the assertion after it. -/
def insertOnes : List Bool → List Nat → List Nat → Except InferStop (List (Nat × Nat))
  | [], dims, _ => if dims.isEmpty then .ok [] else .error .panic
  | true :: insert, dims, strides => do
      let rest ← insertOnes insert dims strides
      pure ((1, 0) :: rest)
  | false :: _, [], _ => .error (.inferError "Unsqueeze: Not enough dimensions")
  | false :: _, _ :: _, [] => .error (.inferError "Unsqueeze: Not enough strides")
  | false :: insert, d :: dims, s :: strides => do
      let rest ← insertOnes insert dims strides
      pure ((d, s) :: rest)

/-- Unsqueeze. -/
def inferUnsqueeze (axes : List TensorIndex) (input : ResolvedTensorType) (mode : UnifyMode) :
    Except InferStop ResolvedTensorType := do
  let insert ← markAxes (input.dims.length + axes.length) (fun _ => true) axes
  let entries ← insertOnes insert input.dims input.stride
  viewType input (entries.map Prod.fst) (entries.map Prod.snd) mode

/-! ### What the operators are for -/

/-- An axis is named by its number, or from the end by a negative one. -/
def Names (rank : Nat) (axis : TensorIndex) (i : Nat) : Prop :=
  (i : Int) = if axis.raw.toInt < 0 then rank + axis.raw.toInt else axis.raw.toInt

instance (rank : Nat) (axis : TensorIndex) (i : Nat) : Decidable (Names rank axis i) :=
  inferInstanceAs (Decidable (_ = _))

/-- The marks of the axes that are named. -/
def named (rank : Nat) (axes : List TensorIndex) : List Bool :=
  (List.range rank).map fun i => axes.any fun axis => Names rank axis i

/-- Axes of one element are named. -/
def SqueezeAxes (dims : ResolvedTensorDims) (axes : List TensorIndex) : Prop :=
  dims.length < 2 ^ 64 ∧ ∀ axis ∈ axes, ∃ i, Names dims.length axis i ∧ dims[i]? = some 1

/-- Different axes of the result are named. -/
def UnsqueezeAxes (dims : ResolvedTensorDims) (axes : List TensorIndex) : Prop :=
  dims.length + axes.length < 2 ^ 64 ∧ ∃ is : List Nat, is.Nodup ∧
    List.Forall₂ (fun axis i => Names (dims.length + axes.length) axis i ∧ i < dims.length + axes.length) axes is

/-- The axes that Squeeze drops: those of one element, if no axes are given. -/
def squeezed (dims : ResolvedTensorDims) : Option (List TensorIndex) → List Bool
  | some axes => named dims.length axes
  | none => dims.map (· == 1)

/-- The entries with `one` at the marks. -/
def inserted {α : Type} (one : α) : List Bool → List α → List α
  | true :: mask, l => one :: inserted one mask l
  | false :: mask, x :: l => x :: inserted one mask l
  | _, _ => []

/-- A type with these dims is returned, and it has the elements where the input has them. -/
def Views (ty : ResolvedTensorType) (res : Except InferStop ResolvedTensorType) (dims : List Nat)
    (coords : List Nat → List Nat) : Prop :=
  ∃ u, res = .ok u ∧ u.elemType = ty.elemType ∧ u.dims = dims ∧ u.HasStrides ∧
    ∀ idx, Inside idx ty.dims → elementAt u.stride (coords idx) = elementAt ty.stride idx

/-- `ResolvedTensorDims::new` keeps both lists. -/
def Survives (dims strides : List Nat) : Prop := dims = [] ∨ (∃ d ∈ dims, d ≠ 0) ∧ ∃ s ∈ strides, s ≠ 0

/-! ### The marks -/

variable {rank : Nat} {axis : TensorIndex} {axes : List TensorIndex} {dims stride : List Nat} {mask : List Bool}

theorem Names.unique {i j : Nat} (hi : Names rank axis i) (hj : Names rank axis j) : i = j := by
  unfold Names at hi hj
  omega

/-- The wrap-around of the index is undone if an axis is named. -/
theorem Names.index {i : Nat} (h : Names rank axis i) (hlt : i < 2 ^ 64) : axis.index rank = i := by
  have hcond : axis.raw.toInt = if 2 * axis.raw.toUInt64.toNat < 2 ^ 64 then (axis.raw.toUInt64.toNat : Int)
      else (axis.raw.toUInt64.toNat : Int) - 2 ^ 64 := BitVec.toInt_eq_toNat_cond axis.raw.toBitVec
  have hneg : axis.raw < 0 ↔ axis.raw.toInt < 0 := Int64.lt_iff_toInt_lt
  have hbound := axis.raw.toUInt64.toNat_lt
  have hsum : (Int64.ofNat rank + axis.raw).toUInt64.toNat = (rank + axis.raw.toUInt64.toNat) % 2 ^ 64 := by
    change (BitVec.ofNat 64 rank + axis.raw.toBitVec).toNat = _
    rw [BitVec.toNat_add, BitVec.toNat_ofNat, Nat.mod_add_mod]
    rfl
  unfold TensorIndex.index
  unfold Names at h
  rw [hsum, if_congr hneg rfl rfl]
  split_ifs at h hcond ⊢ <;> omega

theorem named_length (rank : Nat) (axes : List TensorIndex) : (named rank axes).length = rank := by
  simp [named]

theorem getElem?_named {i : Nat} (hi : i < rank) :
    (named rank axes)[i]? = some (axes.any fun axis => Names rank axis i) := by
  simp [named, hi]

/-- The loop of the code adds the marks of its axes. -/
theorem foldlM_marks {check : Nat → Bool} (hrank : rank < 2 ^ 64) (hmask : mask.length = rank)
    (haxes : ∀ axis ∈ axes, ∃ i, Names rank axis i ∧ i < rank ∧ check i = true) :
    ∃ mask', axes.foldlM (fun mask axis =>
        if axis.index rank < rank ∧ check (axis.index rank) then .ok (mask.set (axis.index rank) true)
        else (.error .panic : Except InferStop (List Bool))) mask = .ok mask' ∧ mask'.length = rank ∧
      ∀ i < rank, mask'.getD i false = (mask.getD i false || axes.any fun axis => Names rank axis i) := by
  induction axes generalizing mask with
  | nil => exact ⟨mask, rfl, hmask, by simp⟩
  | cons axis axes ih =>
      obtain ⟨⟨i, hname, hlt, hcheck⟩, hrest⟩ := List.forall_mem_cons.mp haxes
      have hindex := hname.index (hlt.trans hrank)
      obtain ⟨mask', hok, hlen, hmarks⟩ := @ih (mask.set i true) (by simpa using hmask) hrest
      refine ⟨mask', ?_, hlen, fun j hj => ?_⟩
      · rw [List.foldlM_cons, hindex, if_pos ⟨hlt, hcheck⟩]
        exact hok
      · have hiff : Names rank axis j ↔ i = j := ⟨fun h => hname.unique h, fun h => h ▸ hname⟩
        rw [hmarks j hj, List.any_cons]
        by_cases heq : i = j
        · subst heq
          simp [List.getD, hname, hmask, hlt]
        · simp [List.getD, hiff, heq, List.getElem?_set_ne heq]

theorem markAxes_eq {check : Nat → Bool} (hrank : rank < 2 ^ 64)
    (haxes : ∀ axis ∈ axes, ∃ i, Names rank axis i ∧ i < rank ∧ check i = true) :
    markAxes rank check axes = .ok (named rank axes) := by
  obtain ⟨mask, hok, hlen, hmarks⟩ := foldlM_marks hrank (List.length_replicate (a := false)) haxes
  have heq : mask = named rank axes := by
    refine List.ext_getElem? fun i => ?_
    by_cases hi : i < rank
    · have hmark := hmarks i hi
      rw [getElem?_named hi, ← hlen] at *
      simpa [List.getD, hi, hlen] using hmark
    · rw [List.getElem?_eq_none (by omega), List.getElem?_eq_none (by rw [named_length]; omega)]
  rw [markAxes, hok, heq]

/-! ### Dropped and inserted entries -/

theorem map_fst_dropped (mask : List Bool) {dims stride : List Nat} (hlen : dims.length ≤ stride.length) :
    (dropped mask (dims.zip stride)).map Prod.fst = dropped mask dims := by
  induction mask generalizing dims stride with
  | nil => rfl
  | cons mark mask ih =>
      cases dims with
      | nil => rfl
      | cons d dims =>
          cases stride with
          | nil => simp at hlen
          | cons s stride =>
              have hrest := ih (show dims.length ≤ stride.length by simpa using hlen)
              cases mark <;> simp [dropped, hrest]

theorem map_snd_dropped {dims stride : List Nat} (hlen : dims.length ≤ stride.length)
    (hmask : mask.length = dims.length) : (dropped mask (dims.zip stride)).map Prod.snd = dropped mask stride := by
  induction mask generalizing dims stride with
  | nil => rfl
  | cons mark mask ih =>
      cases dims with
      | nil => simp at hmask
      | cons d dims =>
          cases stride with
          | nil => simp at hlen
          | cons s stride =>
              have hrest := ih (show dims.length ≤ stride.length by simpa using hlen) (by simpa using hmask)
              cases mark <;> simp [dropped, hrest]

/-- The coordinates that are dropped are zero. -/
theorem elementAt_dropped {idx : List Nat} (hidx : Inside idx dims) (hmask : mask.length = dims.length)
    (hone : ∀ a ∈ mask.zip dims, a.1 = true → a.2 = 1) (stride : List Nat) :
    elementAt (dropped mask stride) (dropped mask idx) = elementAt stride idx := by
  induction hidx generalizing mask stride with
  | nil => cases mask <;> cases stride <;> simp [dropped, elementAt]
  | @cons i d idx dims hlt hrest ih =>
      cases mask with
      | nil => simp at hmask
      | cons mark mask =>
          rw [List.zip_cons_cons, List.forall_mem_cons] at hone
          cases stride with
          | nil => simp [dropped, elementAt]
          | cons s stride =>
              have hinner := ih (show mask.length = dims.length by simpa using hmask) hone.2 stride
              cases mark with
              | true =>
                  have hzero : i = 0 := by
                    have hd := hone.1 rfl
                    omega
                  simp [dropped, elementAt_cons, hinner, hzero]
              | false => simp [dropped, elementAt_cons, hinner]

/-- The code inserts the ones and the zeros. -/
theorem insertOnes_eq (hmask : mask.count false = dims.length) (hlen : dims.length ≤ stride.length) :
    ∃ entries, insertOnes mask dims stride = .ok entries ∧ entries.map Prod.fst = inserted 1 mask dims ∧
      entries.map Prod.snd = inserted 0 mask stride := by
  induction mask generalizing dims stride with
  | nil =>
      have hnil : dims = [] := List.length_eq_zero_iff.mp hmask.symm
      exact ⟨[], by simp [insertOnes, hnil], rfl, rfl⟩
  | cons mark mask ih =>
      cases mark with
      | true =>
          obtain ⟨entries, hok, hfst, hsnd⟩ := @ih dims stride (by simpa using hmask) hlen
          exact ⟨(1, 0) :: entries, by simp [insertOnes, hok, pure, Except.pure, bind, Except.bind],
            by simp [inserted, hfst], by simp [inserted, hsnd]⟩
      | false =>
          rw [List.count_cons_self] at hmask
          cases dims with
          | nil => simp at hmask
          | cons d dims =>
              cases stride with
              | nil => simp at hlen
              | cons s stride =>
                  obtain ⟨entries, hok, hfst, hsnd⟩ := @ih dims stride (by simpa using hmask) (by simpa using hlen)
                  exact ⟨(d, s) :: entries, by simp [insertOnes, hok, pure, Except.pure, bind, Except.bind],
                    by simp [inserted, hfst], by simp [inserted, hsnd]⟩

theorem inserted_length {one : Nat} {l : List Nat} (hmask : mask.count false ≤ l.length) :
    (inserted one mask l).length = mask.length := by
  induction mask generalizing l with
  | nil => rfl
  | cons mark mask ih =>
      cases mark with
      | true => simpa [inserted] using ih (by simpa using hmask)
      | false =>
          cases l with
          | nil => simp at hmask
          | cons x l => simpa [inserted] using ih (by simpa using hmask)

/-- The coordinates that are inserted are zero. -/
theorem elementAt_inserted {idx stride : List Nat} (hmask : mask.count false = idx.length)
    (hlen : idx.length ≤ stride.length) :
    elementAt (inserted 0 mask stride) (inserted 0 mask idx) = elementAt stride idx := by
  induction mask generalizing idx stride with
  | nil =>
      have hnil : idx = [] := List.length_eq_zero_iff.mp hmask.symm
      cases stride <;> simp [inserted, elementAt, hnil]
  | cons mark mask ih =>
      cases mark with
      | true => simpa [inserted, elementAt_cons] using @ih idx stride (by simpa using hmask) hlen
      | false =>
          rw [List.count_cons_self] at hmask
          cases idx with
          | nil => simp at hmask
          | cons i idx =>
              cases stride with
              | nil => simp at hlen
              | cons s stride =>
                  simpa [inserted, elementAt_cons] using @ih idx stride (by simpa using hmask) (by simpa using hlen)

/-! ### The views -/

variable {ty : ResolvedTensorType}

theorem new_eq_self {l : List Nat} (h : l = [] ∨ ∃ x ∈ l, x ≠ 0) : ResolvedTensorDims.new l = l := by
  unfold ResolvedTensorDims.new
  split
  · rename_i hsum
    obtain rfl | ⟨x, hx, hne⟩ := h
    · rfl
    · exact absurd (List.sum_eq_zero_iff.mp hsum x hx) hne
  · rfl

theorem new_eq_nil {l : List Nat} (h : ∀ x ∈ l, x = 0) : ResolvedTensorDims.new l = [] :=
  if_pos (List.sum_eq_zero_iff.mpr h)

/-- The view is there if the rebuilt lists are the lists of the entries. -/
theorem views_iff {strides : List Nat} {coords : List Nat → List Nat} (hlen : strides.length = dims.length)
    (hcoords : ∀ idx, Inside idx ty.dims → elementAt strides (coords idx) = elementAt ty.stride idx) :
    Views ty (viewType ty dims strides .checkStrides) dims coords ↔ Survives dims strides := by
  have hview : viewType ty dims strides .checkStrides = withStride ty.elemType (.new dims) (.new strides) := if_pos rfl
  rw [hview]
  constructor
  · rintro ⟨u, hu, -, hdims, -⟩
    unfold withStride at hu
    split at hu
    · cases hu
    · rename_i hpanic
      cases hu
      refine or_iff_not_imp_left.mpr fun hne => ⟨?_, ?_⟩
      · by_contra hzero
        push Not at hzero
        exact hne (hdims.symm.trans (new_eq_nil hzero))
      · -- Strides that are all zero are lost, and their number is not that of the dims.
        by_contra hzero
        push Not at hzero
        refine hpanic ⟨fun hnil => hne (hdims.symm.trans hnil), ?_⟩
        rw [new_eq_nil hzero]
        change (ResolvedTensorDims.new dims) = dims at hdims
        rw [hdims]
        exact fun hzero => hne (List.length_eq_zero_iff.mp hzero)
  · intro hsurvives
    have hdims : ResolvedTensorDims.new dims = dims := new_eq_self (hsurvives.imp_right fun h => h.1)
    have hstrides : ResolvedTensorDims.new strides = strides := by
      refine new_eq_self (hsurvives.imp (fun hnil => ?_) fun h => h.2)
      exact List.length_eq_zero_iff.mp (by rw [hlen, hnil, List.length_nil])
    rw [hdims, hstrides]
    exact ⟨_, if_neg fun h => h.2 hlen.symm, rfl, rfl, fun _ => hlen, hcoords⟩

theorem squeezed_spec {axes : Option (List TensorIndex)} (haxes : ∀ l, axes = some l → SqueezeAxes ty.dims l) :
    squeezeDrop ty.dims axes = .ok (squeezed ty.dims axes) ∧ (squeezed ty.dims axes).length = ty.dims.length ∧
      ∀ a ∈ (squeezed ty.dims axes).zip ty.dims, a.1 = true → a.2 = 1 := by
  cases axes with
  | none =>
      refine ⟨rfl, by simp [squeezed], fun a ha hmark => ?_⟩
      have hmap : ∀ l : List Nat, ∀ a ∈ (l.map (· == 1)).zip l, a.1 = true → a.2 = 1 := by
        intro l
        induction l with
        | nil => simp
        | cons d l ih => simpa using ih
      exact hmap ty.dims a ha hmark
  | some axes =>
      obtain ⟨hrank, hnames⟩ := haxes axes rfl
      have hlt : ∀ {i : Nat}, ty.dims[i]? = some 1 → i < ty.dims.length := by
        intro i hi
        exact (List.getElem?_eq_some_iff.mp hi).1
      refine ⟨?_, named_length _ _, fun a ha hmark => ?_⟩
      · unfold squeezeDrop squeezed
        refine markAxes_eq hrank fun axis haxis => ?_
        obtain ⟨i, hname, hone⟩ := hnames axis haxis
        exact ⟨i, hname, hlt hone, by simp [hone]⟩
      · obtain ⟨i, hi, rfl⟩ := List.mem_iff_getElem.mp ha
        rw [List.length_zip, squeezed, named_length, Nat.min_self] at hi
        rw [List.getElem_zip] at hmark ⊢
        simp only [squeezed, named, List.getElem_map, List.getElem_range, List.any_eq_true, decide_eq_true_eq] at hmark
        obtain ⟨axis, haxis, hname⟩ := hmark
        obtain ⟨j, hname', hone⟩ := hnames axis haxis
        obtain rfl : i = j := hname.unique hname'
        exact (List.getElem?_eq_some_iff.mp hone).2

theorem exists_names_iff {is : List Nat} {i : Nat}
    (h : List.Forall₂ (fun axis j => Names rank axis j ∧ j < rank) axes is) :
    (∃ axis ∈ axes, Names rank axis i) ↔ i ∈ is := by
  induction h with
  | nil => simp
  | @cons axis j axes is hname _ ih =>
      have hiff : Names rank axis i ↔ i = j := ⟨fun h => h.unique hname.1, fun h => h ▸ hname.1⟩
      simp [← ih, hiff]

/-- As many marks are free as the input has dims. -/
theorem count_named (haxes : UnsqueezeAxes dims axes) :
    (named (dims.length + axes.length) axes).count false = dims.length := by
  obtain ⟨-, is, hnodup, hnames⟩ := haxes
  have hlt : ∀ i ∈ is, i < dims.length + axes.length := by
    intro i hi
    obtain ⟨j, hj, rfl⟩ := List.mem_iff_getElem.mp hi
    exact (hnames.get (by rw [hnames.length_eq]; exact hj) hj).2
  have hperm : ((List.range (dims.length + axes.length)).filter
      fun i => axes.any fun axis => Names (dims.length + axes.length) axis i).Perm is := by
    refine (List.perm_ext_iff_of_nodup (List.nodup_range.filter _) hnodup).mpr fun i => ?_
    have hmem := @exists_names_iff _ axes is i hnames
    simp only [List.mem_filter, List.mem_range, List.any_eq_true, decide_eq_true_eq, hmem]
    exact ⟨fun h => h.2, fun h => ⟨hlt i h, h⟩⟩
  have htrue : (named (dims.length + axes.length) axes).count true = axes.length := by
    have hlen := hnames.length_eq.trans hperm.length_eq.symm
    rw [← List.countP_eq_length_filter] at hlen
    refine Eq.trans ?_ hlen.symm
    rw [named, List.count, List.countP_map]
    exact List.countP_congr fun i _ => by simp
  have htotal := List.count_false_add_count_true (named (dims.length + axes.length) axes)
  rw [named_length] at htotal
  omega

/-- Squeeze and Unsqueeze give a view in stride-checking mode, unless all dims or all strides of the result are
zero; a result without axes is a scalar. -/
theorem squeeze_unsqueeze_iff (ty : ResolvedTensorType) (hty : ty.HasStrides) (drops : Option (List TensorIndex))
    (hdrops : ∀ axes, drops = some axes → SqueezeAxes ty.dims axes) (inserts : List TensorIndex)
    (hinserts : UnsqueezeAxes ty.dims inserts) :
    (Views ty (inferSqueeze drops ty .checkStrides) (dropped (squeezed ty.dims drops) ty.dims)
        (dropped (squeezed ty.dims drops)) ↔
      Survives (dropped (squeezed ty.dims drops) ty.dims) (dropped (squeezed ty.dims drops) ty.stride)) ∧
    (Views ty (inferUnsqueeze inserts ty .checkStrides)
        (inserted 1 (named (ty.dims.length + inserts.length) inserts) ty.dims)
        (inserted 0 (named (ty.dims.length + inserts.length) inserts)) ↔
      Survives (inserted 1 (named (ty.dims.length + inserts.length) inserts) ty.dims)
        (inserted 0 (named (ty.dims.length + inserts.length) inserts) ty.stride)) := by
  have hlen : ty.dims.length ≤ ty.stride.length := by
    by_cases hnil : ty.dims = []
    · simp [hnil]
    · exact Nat.le_of_eq (hty hnil).symm
  constructor
  · obtain ⟨hmarks, hmask, hone⟩ := squeezed_spec hdrops
    have hinfer : inferSqueeze drops ty .checkStrides =
        viewType ty (dropped (squeezed ty.dims drops) ty.dims) (dropped (squeezed ty.dims drops) ty.stride) .checkStrides := by
      unfold inferSqueeze
      rw [hmarks, ← map_fst_dropped (squeezed ty.dims drops) hlen, ← map_snd_dropped hlen hmask]
      rfl
    rw [hinfer]
    refine views_iff ?_ fun idx hidx => elementAt_dropped hidx hmask hone ty.stride
    rw [← map_fst_dropped _ hlen, ← map_snd_dropped hlen hmask, List.length_map, List.length_map]
  · have hcount := count_named hinserts
    obtain ⟨hrank, is, -, hnames⟩ := hinserts
    have hmarks : markAxes (ty.dims.length + inserts.length) (fun _ => true) inserts =
        .ok (named (ty.dims.length + inserts.length) inserts) := by
      refine markAxes_eq hrank fun axis haxis => ?_
      obtain ⟨i, hi, rfl⟩ := List.mem_iff_getElem.mp haxis
      have hname := hnames.get hi (by rw [← hnames.length_eq]; exact hi)
      exact ⟨_, hname.1, hname.2, rfl⟩
    obtain ⟨entries, hok, hfst, hsnd⟩ := insertOnes_eq hcount hlen
    have hinfer : inferUnsqueeze inserts ty .checkStrides =
        viewType ty (inserted 1 (named (ty.dims.length + inserts.length) inserts) ty.dims)
          (inserted 0 (named (ty.dims.length + inserts.length) inserts) ty.stride) .checkStrides := by
      unfold inferUnsqueeze
      rw [hmarks]
      change (insertOnes _ ty.dims ty.stride >>= fun entries => viewType ty _ _ _) = _
      rw [hok, ← hfst, ← hsnd]
      rfl
    rw [hinfer]
    refine views_iff ?_ fun idx hidx => ?_
    · rw [inserted_length (by omega), inserted_length (by omega)]
    · have hidxLen := List.Forall₂.length_eq hidx
      exact elementAt_inserted (by omega) (by omega)

/-- A column without its last axis, and with one in front. -/
theorem column_views :
    (Views (.new (.float .F32) [3, 1]) (inferSqueeze (some [⟨-1⟩]) (.new (.float .F32) [3, 1]) .checkStrides)
        (dropped (squeezed [3, 1] (some [⟨-1⟩])) [3, 1]) (dropped (squeezed [3, 1] (some [⟨-1⟩]))) ↔
      Survives (dropped (squeezed [3, 1] (some [⟨-1⟩])) [3, 1]) (dropped (squeezed [3, 1] (some [⟨-1⟩])) [1, 0])) ∧
    (Views (.new (.float .F32) [3, 1]) (inferUnsqueeze [⟨0⟩] (.new (.float .F32) [3, 1]) .checkStrides)
        (inserted 1 (named 3 [⟨0⟩]) [3, 1]) (inserted 0 (named 3 [⟨0⟩])) ↔
      Survives (inserted 1 (named 3 [⟨0⟩]) [3, 1]) (inserted 0 (named 3 [⟨0⟩]) [1, 0])) := by
  refine squeeze_unsqueeze_iff (.new (.float .F32) [3, 1]) (fun _ => rfl) (some [⟨-1⟩]) (fun axes haxes => ?_) [⟨0⟩]
    ⟨by decide, [0], by decide, .cons (by decide) .nil⟩
  obtain rfl : [⟨-1⟩] = axes := Option.some.inj haxes
  exact ⟨by decide, fun axis haxis => ⟨1, by rw [List.mem_singleton.mp haxis]; decide, rfl⟩⟩

/-- Two axes of one element, of which one is dropped, and a scalar that becomes a vector. -/
theorem single_elements :
    SqueezeAxes [1, 1] [⟨0⟩] ∧
      inferSqueeze (some [⟨0⟩]) (.new (.float .F32) [1, 1]) .checkStrides = .error .panic ∧
      UnsqueezeAxes [] [⟨0⟩] ∧
      inferUnsqueeze [⟨0⟩] (.new (.float .F32) []) .checkStrides = .error .panic := by
  refine ⟨⟨by decide, ?_⟩, by decide, ⟨by decide, [0], by decide, .cons (by decide) .nil⟩, by decide⟩
  intro axis haxis
  exact ⟨0, by rw [List.mem_singleton.mp haxis]; decide, rfl⟩

end NnEngine
