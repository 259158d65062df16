import NnEngine.Result
import NnEngine.Tensor.Layout

/-!
# The addresses of a reshaped type

`try_reshape` never panics on a type with positive dims, and the type that it returns addresses every
element where it was if and only if each boundary between target dims that lies inside an axis divides
where the axis ends, unless the axis has stride 0.
-/

namespace NnEngine

open Strided

/-! ### Lengths -/

theorem mapM_getElem?_eq {v perms l : List Nat} (h : (perms.mapM fun p => v[p]?) = some l) :
    l = perms.map fun p => v.getD p 0 := by
  induction perms generalizing l with
  | nil =>
      cases h
      rfl
  | cons p perms ih =>
      rw [List.mapM_cons] at h
      obtain ⟨x, hx, h⟩ := Option.bind_eq_some_iff.mp h
      obtain ⟨xs, hxs, h⟩ := Option.bind_eq_some_iff.mp h
      cases h
      rw [List.map_cons, ih hxs, List.getD_eq_getElem?_getD, hx]
      rfl

theorem mapM_getElem?_length {v perms l : List Nat} (h : (perms.mapM fun p => v[p]?) = some l) :
    l.length = perms.length := by
  rw [mapM_getElem?_eq h, List.length_map]

theorem transposeDims_length {v perms l : List Nat} (h : transposeDims v perms = some l) :
    l.length = v.length := by
  unfold transposeDims at h
  split at h
  · cases h
  · obtain ⟨xs, hxs, rfl⟩ := Option.map_eq_some_iff.mp h
    rw [List.length_append, mapM_getElem?_length hxs, List.length_drop]
    omega

theorem fillStrides_eq_ok {dims strides : List Nat} (h : strides.length = (dims.filter fun d => d ≠ 1).length) :
    ∃ full, fillStrides dims strides = .ok full ∧ full.length = dims.length ∧
      ((dims.zip full).filter fun a => a.1 ≠ 1) = (dims.filter fun d => d ≠ 1).zip strides ∧
      ∀ a ∈ dims.zip full, a.1 = 1 → a.2 = 0 := by
  induction dims generalizing strides with
  | nil =>
      obtain rfl : strides = [] := List.length_eq_zero_iff.mp h
      exact ⟨[], rfl, rfl, rfl, nofun⟩
  | cons d dims ih =>
      by_cases hd : d = 1
      · subst hd
        obtain ⟨full, hfull, hlen, hfilter, hunit⟩ := ih h
        refine ⟨0 :: full, ?_, congrArg Nat.succ hlen, hfilter, List.forall_mem_cons.mpr ⟨fun _ => rfl, hunit⟩⟩
        unfold fillStrides
        rw [if_pos rfl, hfull]
        rfl
      · rw [List.filter_cons_of_pos (by simpa using hd)] at h
        cases strides with
        | nil => cases h
        | cons s strides =>
            obtain ⟨full, hfull, hlen, hfilter, hunit⟩ := ih (Nat.succ.inj h)
            refine ⟨s :: full, ?_, congrArg Nat.succ hlen, ?_,
              List.forall_mem_cons.mpr ⟨fun hone => absurd hone hd, hunit⟩⟩
            · unfold fillStrides
              rw [if_neg hd]
              dsimp only
              rw [hfull]
              rfl
            · rw [List.zip_cons_cons, List.filter_cons_of_pos (by simpa using hd), hfilter,
                List.filter_cons_of_pos (by simpa using hd), List.zip_cons_cons]

theorem fillStrides_length {dims strides full : List Nat} (h : fillStrides dims strides = .ok full) :
    full.length = dims.length := by
  induction dims generalizing strides full with
  | nil =>
      unfold fillStrides at h
      split at h
      · cases h
        rfl
      · cases h
  | cons d dims ih =>
      unfold fillStrides at h
      split at h
      · obtain ⟨rest, hrest, rfl⟩ := map_eq_ok.mp h
        exact congrArg Nat.succ (ih hrest)
      · cases strides with
        | nil => cases h
        | cons s strides =>
            obtain ⟨rest, hrest, rfl⟩ := map_eq_ok.mp h
            exact congrArg Nat.succ (ih hrest)

namespace ResolvedTensorType

variable {ty ty' : ResolvedTensorType} {target : ResolvedTensorDims}

theorem transpose_eq_some {perms : List Nat} (h : ty.transpose perms = some ty') :
    transposeDims ty.dims perms = some ty'.dims ∧ transposeDims ty.stride perms = some ty'.stride := by
  obtain ⟨dims, hdims, h⟩ := Option.bind_eq_some_iff.mp h
  obtain ⟨stride, hstride, h⟩ := Option.bind_eq_some_iff.mp h
  cases h
  exact ⟨hdims, hstride⟩

theorem tryReshape_cases (h : ty.tryReshape target = .ok ty') :
    ty' = .new ty.elemType target ∨
      ∃ newStrides, reshapeLoop (target.filter fun d => d ≠ 1).reverse.length
          (target.filter fun d => d ≠ 1).reverse ty.reshapedAxes [] = .ok newStrides ∧
        fillStrides target newStrides = .ok ty'.stride ∧ ty'.dims = target := by
  unfold tryReshape at h
  split at h
  · cases h
    exact Or.inl rfl
  · split at h
    · cases h
    · simp only [do_eq_ok, pure_eq_ok] at h
      obtain ⟨newStrides, hstrides, stride, hfill, rfl⟩ := h
      exact Or.inr ⟨newStrides, hstrides, hfill, rfl⟩

/-- Every axis has a stride. -/
theorem Built.length (h : Built ty) : ty.stride.length = ty.dims.length := by
  induction h with
  | new elemType dims => exact calcStride_length dims
  | transpose _ hty ih =>
      obtain ⟨hdims, hstride⟩ := transpose_eq_some hty
      rw [transposeDims_length hdims, transposeDims_length hstride, ih]
  | @broadcast ty ty' target _ hty ih =>
      unfold ResolvedTensorType.broadcast at hty
      split at hty
      · cases hty
        exact List.length_replicate
      · split at hty
        · cases hty
        · rename_i hlen
          cases hty
          show (List.replicate _ 0 ++ ty.stride).length = target.length
          rw [List.length_append, List.length_replicate]
          omega
  | extendPerChannelParams _ hty _ =>
      unfold ResolvedTensorType.extendPerChannelParams at hty
      split at hty
      · cases hty
      · split at hty
        · cases hty
          simp
        · cases hty
  | tryReshape _ hty _ =>
      obtain rfl | ⟨newStrides, -, hfill, hdims⟩ := tryReshape_cases hty
      · exact calcStride_length _
      · rw [fillStrides_length hfill, hdims]

/-! ### Addresses -/

theorem compatibleWithScalar_iff (dims : ResolvedTensorDims) :
    ResolvedTensorDims.compatibleWithScalar dims = true ↔ dims.prod = 1 := by
  cases dims with
  | nil => exact iff_of_true rfl rfl
  | cons d dims => exact beq_iff_eq

theorem size_of_prod_ne_one {dims : ResolvedTensorDims} (h : dims.prod ≠ 1) :
    ResolvedTensorDims.size dims = dims.prod := by
  cases dims with
  | nil => exact absurd rfl h
  | cons d dims => rfl

theorem offset_eq (hlen : ty.stride.length = ty.dims.length) (n : Nat) :
    ty.offset n = Strided.offset ty.reshapedAxes n := by
  rw [reshapedAxes, ← List.filter_reverse, offset_filter]
  exact elementAt_multiIndex hlen n

theorem prod_filter (dims : List Nat) : (dims.filter fun d => d ≠ 1).prod = dims.prod := by
  induction dims with
  | nil => rfl
  | cons d dims ih =>
      by_cases hd : d = 1
      · subst hd
        rw [List.filter_cons_of_neg (by simp), ih, List.prod_cons, Nat.one_mul]
      · rw [List.filter_cons_of_pos (by simpa using hd), List.prod_cons, List.prod_cons, ih]

/-- The axes of the source that no target boundary separates have no gap. -/
def Reshapable (ty : ResolvedTensorType) (target : ResolvedTensorDims) : Prop :=
  Joins 1 ty.reshapedAxes (target.filter fun d => d ≠ 1).reverse

/-- A target boundary inside an axis of the source divides where the axis ends, or the axis has stride 0. -/
def SplitsEvenly (ty : ResolvedTensorType) (target : ResolvedTensorDims) : Prop :=
  Splits 1 ty.reshapedAxes (target.filter fun d => d ≠ 1).reverse

theorem reshapedAxes_size (hlen : ty.stride.length = ty.dims.length) :
    Strided.size ty.reshapedAxes = ty.dims.prod := by
  rw [reshapedAxes, ← List.filter_reverse, size_filter, Strided.size, List.map_reverse, List.prod_reverse,
    List.map_fst_zip (Nat.le_of_eq hlen.symm)]

theorem one_lt_reshapedAxes (hpos : ∀ d ∈ ty.dims, 0 < d) : ∀ a ∈ ty.reshapedAxes, 1 < a.1 := by
  intro a ha
  obtain ⟨hmem, hne⟩ := List.mem_filter.mp (List.mem_reverse.mp ha)
  have hlt := hpos a.1 (List.of_mem_zip hmem).1
  have hne' : a.1 ≠ 1 := of_decide_eq_true hne
  omega

theorem one_lt_target (hpos : ∀ d ∈ target, 0 < d) : ∀ d ∈ (target.filter fun d => d ≠ 1).reverse, 1 < d := by
  intro d hd
  obtain ⟨hmem, hne⟩ := List.mem_filter.mp (List.mem_reverse.mp hd)
  have hlt := hpos d hmem
  have hne' : d ≠ 1 := of_decide_eq_true hne
  omega

theorem pos_of_prod {dims : List Nat} (h : 0 < dims.prod) : ∀ d ∈ dims, 0 < d := by
  intro d hd
  exact Nat.pos_of_ne_zero fun hzero => absurd (List.prod_eq_zero (hzero ▸ hd)) (Nat.ne_of_gt h)

/-- Axes of one element have stride 0. -/
def UnitStrides (ty : ResolvedTensorType) : Prop := ∀ a ∈ ty.dims.zip ty.stride, a.1 = 1 → a.2 = 0

theorem unitStrides_new (elemType : DataType) (dims : ResolvedTensorDims) : (new elemType dims).UnitStrides := by
  show ∀ a ∈ dims.zip (calcStride dims), a.1 = 1 → a.2 = 0
  induction dims with
  | nil => exact nofun
  | cons d dims ih =>
      rw [calcStride, List.zip_cons_cons, List.forall_mem_cons]
      exact ⟨fun hd => if_pos hd, ih⟩

/-- A type of one element addresses it at 0. -/
theorem offset_zero' (ty : ResolvedTensorType) : ty.offset 0 = 0 := by
  have hindex : ∀ dims, multiIndex dims 0 = List.replicate dims.length 0 := by
    intro dims
    induction dims with
    | nil => rfl
    | cons d dims ih => rw [multiIndex, ih, Nat.zero_div, Nat.zero_mod, List.length_cons, List.replicate_succ]
  rw [ResolvedTensorType.offset, hindex, elementAt_replicate_zero]

theorem tryReshape_spec (hlen : ty.stride.length = ty.dims.length) (hpos : ∀ d ∈ ty.dims, 0 < d)
    (hcount : target.prod = ty.dims.prod) :
    (ty.tryReshape target = .error .notReshapable ∧ ¬ ty.Reshapable target) ∨
      ∃ u, ty.tryReshape target = .ok u ∧ ty.Reshapable target ∧
        ((∀ n < ty.dims.prod, u.offset n = ty.offset n) ↔ ty.SplitsEvenly target) ∧
        (ty.SplitsEvenly target → Spread ty.reshapedAxes → Spread u.reshapedAxes) ∧ u.UnitStrides := by
  have hprod : 0 < ty.dims.prod := List.prod_pos hpos
  have htarget : ∀ d ∈ target, 0 < d := pos_of_prod (hcount ▸ hprod)
  by_cases hone : ty.dims.prod = 1
  · -- A single element.
    right
    have hcompat : (ResolvedTensorDims.compatibleWithScalar ty.dims &&
        ResolvedTensorDims.compatibleWithScalar target) = true := by
      rw [(compatibleWithScalar_iff ty.dims).mpr hone, (compatibleWithScalar_iff target).mpr (hcount.trans hone)]
      rfl
    have haxes : ty.reshapedAxes = [] := by
      cases haxes : ty.reshapedAxes with
      | nil => rfl
      | cons a axes =>
          have hlt : 1 < ((a :: axes).map Prod.fst).prod := by
            refine one_lt_prod fun x hx => ?_
            obtain ⟨y, hy, rfl⟩ := List.mem_map.mp (show x ∈ (a :: axes).map Prod.fst from hx)
            exact one_lt_reshapedAxes hpos y (haxes ▸ hy)
          have hsize := reshapedAxes_size hlen
          rw [haxes, hone] at hsize
          exact absurd hsize (Nat.ne_of_gt hlt)
    refine ⟨_, if_pos hcompat, ?_, iff_of_true (fun n hn => ?_) ?_, fun _ _ => ?_, unitStrides_new _ _⟩
    · rw [Reshapable, haxes]
      exact List.isChain_nil
    · obtain rfl : n = 0 := by omega
      rw [offset_zero', offset_zero']
    · rw [SplitsEvenly, haxes]
      exact fun _ _ _ hx => nomatch hx
    · have hnil : (ResolvedTensorType.new ty.elemType target).reshapedAxes = [] := by
        rw [reshapedAxes, List.reverse_eq_nil_iff, List.filter_eq_nil_iff]
        intro a ha hne
        have hmem : a.1 ∈ target := (List.of_mem_zip ha).1
        have hdvd : a.1 ∣ target.prod := List.dvd_prod hmem
        rw [hcount, hone, Nat.dvd_one] at hdvd
        exact of_decide_eq_true hne hdvd
      rw [hnil]
      exact .nil
  · have hcompat : ¬ (ResolvedTensorDims.compatibleWithScalar ty.dims &&
        ResolvedTensorDims.compatibleWithScalar target) = true := by
      intro h
      exact hone ((compatibleWithScalar_iff ty.dims).mp (Bool.and_eq_true_iff.mp h).1)
    have hsize : ¬ ResolvedTensorDims.size ty.dims ≠ ResolvedTensorDims.size target := by
      rw [size_of_prod_ne_one hone, size_of_prod_ne_one (hcount ▸ hone), hcount]
      exact not_not_intro rfl
    have hloop := @reshapeLoop_spec 1 _ Nat.one_pos (target.filter fun d => d ≠ 1).reverse [] ty.reshapedAxes
      (one_lt_target htarget) (one_lt_reshapedAxes hpos)
      (by rw [reshapedAxes_size hlen, List.prod_reverse, prod_filter, hcount]) (Nat.le_refl _)
    unfold tryReshape
    rw [if_neg hcompat, if_neg hsize]
    obtain ⟨hstop, hnot⟩ | ⟨strides, hok, hlength, hjoins, hagree, hspread⟩ := hloop
    · left
      refine ⟨?_, hnot⟩
      dsimp only
      rw [hstop]
      rfl
    · right
      rw [List.append_nil] at hok
      have hfillLen : strides.reverse.length = (target.filter fun d => d ≠ 1).length := by
        rw [List.length_reverse, hlength, List.length_reverse]
      obtain ⟨full, hfull, hfullLen, hfilter, hunit⟩ := fillStrides_eq_ok hfillLen
      have haxes : ResolvedTensorType.reshapedAxes { elemType := ty.elemType, dims := target, stride := full } =
          (target.filter fun d => d ≠ 1).reverse.zip strides := by
        rw [reshapedAxes, hfilter, List.zip, List.reverse_zipWith hfillLen.symm, List.reverse_reverse]
      refine ⟨{ elemType := ty.elemType, dims := target, stride := full }, ?_, hjoins, ?_, ?_, hunit⟩
      · dsimp only
        rw [hok]
        change (fillStrides target strides.reverse >>= fun stride => pure _) = _
        rw [hfull]
        rfl
      · rw [SplitsEvenly, ← hagree]
        have hsizes : Strided.size ((target.filter fun d => d ≠ 1).reverse.zip strides) = ty.dims.prod := by
          rw [size_zip hlength, List.prod_reverse, prod_filter, hcount]
        unfold Agree
        rw [hsizes]
        refine forall₂_congr fun n _ => ?_
        rw [offset_eq hlen, ← haxes]
        exact ⟨fun h => h ▸ (offset_eq hfullLen n).symm, fun h => (offset_eq hfullLen n).trans h⟩
      · intro heven haxesSpread
        have houter := hspread heven []
        rw [List.append_nil, List.append_nil, ← haxes] at houter
        exact houter haxesSpread

/-- On a type with positive dims and as many elements as the target, `try_reshape` does not panic, and a type
that it returns addresses every element where it was, if and only if a target that it accepts splits the
axes evenly. -/
theorem tryReshape_addresses_iff (h : Built ty) (hpos : ∀ d ∈ ty.dims, 0 < d)
    (hcount : target.prod = ty.dims.prod) :
    (ty.tryReshape target ≠ .error .panic ∧
      ∀ u, ty.tryReshape target = .ok u → ∀ n < ty.dims.prod, u.offset n = ty.offset n) ↔
        (ty.Reshapable target → ty.SplitsEvenly target) := by
  obtain ⟨hstop, hnot⟩ | ⟨u, hok, hreshapable, haddress, -⟩ := tryReshape_spec h.length hpos hcount
  · rw [hstop]
    exact iff_of_true ⟨nofun, nofun⟩ fun hreshapable => absurd hreshapable hnot
  · rw [hok]
    constructor
    · exact fun haddr _ => haddress.mp (haddr.2 u rfl)
    · intro heven
      refine ⟨nofun, fun u' hu' => ?_⟩
      cases hu'
      exact haddress.mpr (heven hreshapable)

/-- A matrix that is transposed and then split. -/
theorem transposed_addresses :
    ((ResolvedTensorType.mk (.float .F32) [6, 4] [1, 6]).tryReshape [2, 3, 4] ≠ .error .panic ∧
      ∀ u, (ResolvedTensorType.mk (.float .F32) [6, 4] [1, 6]).tryReshape [2, 3, 4] = .ok u →
        ∀ n < 24, u.offset n = (ResolvedTensorType.mk (.float .F32) [6, 4] [1, 6]).offset n) ↔
      ((ResolvedTensorType.mk (.float .F32) [6, 4] [1, 6]).Reshapable [2, 3, 4] →
        (ResolvedTensorType.mk (.float .F32) [6, 4] [1, 6]).SplitsEvenly [2, 3, 4]) :=
  @tryReshape_addresses_iff _ [2, 3, 4]
    (@Built.transpose _ _ [1, 0] (Built.new (.float .F32) [4, 6]) rfl) (by decide) rfl

/-- Twelve elements in two rows, seen as three rows. -/
theorem three_rows_of_two :
    Built (.new (.float .F32) [2, 6]) ∧
      (ResolvedTensorType.new (.float .F32) [2, 6]).tryReshape [3, 4] = .ok ⟨.float .F32, [3, 4], [1, 1]⟩ ∧
      (⟨.float .F32, [3, 4], [1, 1]⟩ : ResolvedTensorType).offset 4 = 1 ∧
      (ResolvedTensorType.new (.float .F32) [2, 6]).offset 4 = 4 :=
  ⟨Built.new _ _, by decide, by decide, by decide⟩

/-! ### Completeness -/

theorem map_fst_reshapedAxes (hlen : ty.stride.length = ty.dims.length) :
    ty.reshapedAxes.map Prod.fst = (ty.dims.filter fun d => d ≠ 1).reverse := by
  have hfst : (ty.dims.zip ty.stride).map Prod.fst = ty.dims := List.map_fst_zip (Nat.le_of_eq hlen.symm)
  have hfilter : ((ty.dims.zip ty.stride).filter fun a => a.1 ≠ 1).map Prod.fst = ty.dims.filter fun d => d ≠ 1 := by
    conv_rhs => rw [← hfst, List.filter_map]
    rfl
  rw [reshapedAxes, List.map_reverse, hfilter]

/-- If there are strides for the target dims at all, then no axes with a gap have to be joined. -/
theorem reshapable_of_strides (hlen : ty.stride.length = ty.dims.length) (hpos : ∀ d ∈ ty.dims, 0 < d)
    (hcount : target.prod = ty.dims.prod) {stride : List Nat} (hstride : stride.length = target.length)
    (h : ∀ n < target.prod, elementAt stride (multiIndex target n) = ty.offset n) : ty.Reshapable target := by
  let u : ResolvedTensorType := { elemType := ty.elemType, dims := target, stride }
  have haxes : u.reshapedAxes = (target.filter fun d => d ≠ 1).reverse.zip (u.reshapedAxes.map Prod.snd) :=
    List.zip_of_prod (map_fst_reshapedAxes hstride) rfl
  have htarget : ∀ d ∈ target, 0 < d := pos_of_prod (hcount ▸ List.prod_pos hpos)
  refine @joins_of_agree 1 ty.reshapedAxes _ (u.reshapedAxes.map Prod.snd) Nat.one_pos
    (one_lt_reshapedAxes hpos) (one_lt_target htarget) ?_ ?_ ?_
  · rw [List.length_map, ← List.length_map Prod.fst, map_fst_reshapedAxes hstride]
  · rw [reshapedAxes_size hlen, List.prod_reverse, prod_filter, hcount]
  · intro n hn
    rw [reshapedAxes_size hlen, ← hcount] at hn
    rw [← haxes, ← offset_eq hlen, ← @offset_eq u hstride, ← h n hn]
    rfl

/-- `try_reshape` gives up only if no strides for the target dims address every element where it is. -/
theorem tryReshape_complete (hty : ty.HasStrides) (hpos : ∀ d ∈ ty.dims, 0 < d)
    (hcount : target.prod = ty.dims.prod) (hnone : ty.tryReshape target = .error .notReshapable) :
    ¬ ∃ stride : List Nat, stride.length = target.length ∧
      ∀ n < target.prod, elementAt stride (multiIndex target n) = ty.offset n := by
  rintro ⟨stride, hstride, haddress⟩
  by_cases hdims : ty.dims = []
  · -- Without axes there is one element, and the target is a single element too.
    have hone : ty.dims.prod = 1 := by rw [hdims, List.prod_nil]
    unfold tryReshape at hnone
    rw [if_pos (by
      rw [(compatibleWithScalar_iff ty.dims).mpr hone, (compatibleWithScalar_iff target).mpr (hcount.trans hone)]
      rfl)] at hnone
    cases hnone
  · have hlen := hty hdims
    obtain ⟨-, hnot⟩ | ⟨u, hok, -⟩ := tryReshape_spec hlen hpos hcount
    · exact hnot (reshapable_of_strides hlen hpos hcount hstride haddress)
    · rw [hok] at hnone
      cases hnone

/-- A matrix that is transposed and then flattened. -/
theorem transposed_not_flat :
    ¬ ∃ stride : List Nat, stride.length = [24].length ∧ ∀ n < [24].prod,
      elementAt stride (multiIndex [24] n) = (ResolvedTensorType.mk (.float .F32) [6, 4] [1, 6]).offset n :=
  tryReshape_complete (fun _ => rfl) (by decide) rfl rfl

end ResolvedTensorType

end NnEngine
