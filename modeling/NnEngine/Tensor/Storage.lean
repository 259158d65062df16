import NnEngine.Tensor.ReshapeAddress

/-!
# The storage of built types

The offsets of a type that was built from `new` stay below `storage_num_elements`, as long as a target that
`try_reshape` accepts splits the axes evenly, and no type of more than one element gets strides that are all
zero.
-/

namespace NnEngine

open Strided

/-! ### Building -/

/-- The dims of a broadcast: an axis keeps its extent or had one element. -/
def Broadcastable (dims target : ResolvedTensorDims) : Prop :=
  List.Forall₂ (fun d t => d = t ∨ d = 1) dims (target.drop (target.length - dims.length))

namespace ResolvedTensorType

/-- The types that are built from `new` by steps that keep the storage large enough. -/
inductive BuiltSoundly : ResolvedTensorType → Prop
  | new (elemType : DataType) (dims : ResolvedTensorDims) : BuiltSoundly (.new elemType dims)
  | transpose {ty ty' : ResolvedTensorType} {perms : List Nat} (h : BuiltSoundly ty)
      (hperms : perms.Perm (List.range ty.dims.length)) (hty : ty.transpose perms = some ty') :
      BuiltSoundly ty'
  | broadcast {ty ty' : ResolvedTensorType} {target : ResolvedTensorDims} (h : BuiltSoundly ty)
      (htarget : Broadcastable ty.dims target)
      (hmoves : ResolvedTensorDims.compatibleWithScalar target = true ∨ ∃ s ∈ ty.stride, s ≠ 0)
      (hty : ty.broadcast target = some ty') : BuiltSoundly ty'
  | extendPerChannelParams {ty ty' : ResolvedTensorType} {target : ResolvedTensorDims} (h : BuiltSoundly ty)
      (hty : ty.extendPerChannelParams target = some ty') : BuiltSoundly ty'
  | tryReshape {ty ty' : ResolvedTensorType} {target : ResolvedTensorDims} (h : BuiltSoundly ty)
      (heven : ty.SplitsEvenly target)
      (hmoves : ResolvedTensorDims.compatibleWithScalar target = true ∨ ∃ a ∈ ty.reshapedAxes, a.2 ≠ 0)
      (hty : ty.tryReshape target = .ok ty') : BuiltSoundly ty'

/-- What the steps keep: the axes are apart, and not every stride is zero. -/
structure Stored (ty : ResolvedTensorType) : Prop where
  spread : Spread (ty.dims.zip ty.stride)
  moves : ResolvedTensorDims.compatibleWithScalar ty.dims = true ∨ ∃ s ∈ ty.stride, s ≠ 0

variable {ty ty' : ResolvedTensorType} {target : ResolvedTensorDims}

theorem BuiltSoundly.built (h : BuiltSoundly ty) : Built ty := by
  induction h with
  | new elemType dims => exact .new elemType dims
  | transpose _ _ hty ih => exact .transpose ih hty
  | broadcast _ _ _ hty ih => exact .broadcast ih hty
  | extendPerChannelParams _ hty ih => exact .extendPerChannelParams ih hty
  | tryReshape _ _ _ hty ih => exact .tryReshape ih hty

/-! ### `new` -/

theorem calcStride_extent {dims : List Nat} (hpos : ∀ d ∈ dims, 0 < d) :
    ∀ a ∈ dims.zip (calcStride dims), a.1 * a.2 ≤ dims.prod := by
  induction dims with
  | nil => exact nofun
  | cons d dims ih =>
      have hpos' : ∀ d ∈ dims, 0 < d := fun x hx => hpos x (List.mem_cons_of_mem d hx)
      have hd := hpos d List.mem_cons_self
      rw [calcStride, List.zip_cons_cons, List.forall_mem_cons, List.prod_cons]
      refine ⟨Nat.mul_le_mul_left d ?_, fun a ha => (ih hpos' a ha).trans (Nat.le_mul_of_pos_left _ hd)⟩
      split
      · exact Nat.zero_le _
      · exact Nat.le_refl _

theorem spread_calcStride {dims : List Nat} (hpos : ∀ d ∈ dims, 0 < d) : Spread (dims.zip (calcStride dims)) := by
  induction dims with
  | nil => exact .nil
  | cons d dims ih =>
      have hpos' : ∀ d ∈ dims, 0 < d := fun x hx => hpos x (List.mem_cons_of_mem d hx)
      have hd := hpos d List.mem_cons_self
      refine List.pairwise_cons.mpr ⟨fun y hy => ?_, ih hpos'⟩
      by_cases hone : d = 1
      · exact Or.inl (if_pos hone)
      by_cases hy' : y.1 = 1
      · exact Or.inr (Or.inl (unitStrides_new (.bool) dims y hy hy'))
      · have hy1 : 0 < y.1 := hpos' y.1 (List.of_mem_zip hy).1
        refine Or.inr (Or.inr ⟨by dsimp only; omega, by omega, Or.inr ?_⟩)
        rw [if_neg hone]
        exact calcStride_extent hpos' y hy

theorem exists_calcStride_ne_zero {dims : List Nat} (hpos : ∀ d ∈ dims, 0 < d) (hprod : dims.prod ≠ 1) :
    ∃ s ∈ calcStride dims, s ≠ 0 := by
  induction dims with
  | nil => exact absurd rfl hprod
  | cons d dims ih =>
      have hpos' : ∀ d ∈ dims, 0 < d := fun x hx => hpos x (List.mem_cons_of_mem d hx)
      by_cases hone : d = 1
      · rw [hone, List.prod_cons, Nat.one_mul] at hprod
        obtain ⟨s, hs, hne⟩ := ih hpos' hprod
        exact ⟨s, List.mem_cons_of_mem _ hs, hne⟩
      · refine ⟨_, List.mem_cons_self, ?_⟩
        rw [if_neg hone]
        exact Nat.ne_of_gt (List.prod_pos hpos')

theorem stored_new (elemType : DataType) {dims : ResolvedTensorDims} (hpos : ∀ d ∈ dims, 0 < d) :
    (new elemType dims).Stored where
  spread := spread_calcStride hpos
  moves := by
    by_cases hone : dims.prod = 1
    · exact Or.inl ((compatibleWithScalar_iff dims).mpr hone)
    · exact Or.inr (exists_calcStride_ne_zero hpos hone)

/-! ### `transpose` -/

theorem transposeDims_eq {v perms l : List Nat} (h : transposeDims v perms = some l)
    (hlen : perms.length = v.length) : l = perms.map fun p => v.getD p 0 := by
  unfold transposeDims at h
  split at h
  · cases h
  · obtain ⟨xs, hxs, rfl⟩ := Option.map_eq_some_iff.mp h
    rw [hlen, List.drop_length, List.append_nil]
    exact mapM_getElem?_eq hxs

/-- The axes of a transposed type. -/
theorem transpose_perm {perms : List Nat} (hlen : ty.stride.length = ty.dims.length)
    (hperms : perms.Perm (List.range ty.dims.length)) (hty : ty.transpose perms = some ty') :
    (ty'.dims.zip ty'.stride).Perm (ty.dims.zip ty.stride) := by
  obtain ⟨hdims, hstride⟩ := transpose_eq_some hty
  have hperm : perms.length = ty.dims.length := by rw [hperms.length_eq, List.length_range]
  rw [transposeDims_eq hdims hperm, transposeDims_eq hstride (hperm.trans hlen.symm), List.zip_map']
  refine (hperms.map _).trans (List.Perm.of_eq (List.ext_getElem ?_ fun i hi hi' => ?_))
  · rw [List.length_map, List.length_range, List.length_zip, hlen, Nat.min_self]
  · rw [List.length_map, List.length_range] at hi
    have hi'' : i < ty.stride.length := hlen ▸ hi
    rw [List.getElem_map, List.getElem_range, List.getElem_zip, List.getD_eq_getElem?_getD,
      List.getD_eq_getElem?_getD, List.getElem?_eq_getElem hi, List.getElem?_eq_getElem hi'']
    rfl

theorem map_fst_axes (hlen : ty.stride.length = ty.dims.length) :
    (ty.dims.zip ty.stride).map Prod.fst = ty.dims := List.map_fst_zip (Nat.le_of_eq hlen.symm)

theorem map_snd_axes (hlen : ty.stride.length = ty.dims.length) :
    (ty.dims.zip ty.stride).map Prod.snd = ty.stride := List.map_snd_zip (Nat.le_of_eq hlen)

/-- What is said of the axes only, without their order. -/
theorem Stored.of_perm (hlen : ty.stride.length = ty.dims.length) (hlen' : ty'.stride.length = ty'.dims.length)
    (hperm : (ty'.dims.zip ty'.stride).Perm (ty.dims.zip ty.stride)) (h : ty.Stored) : ty'.Stored := by
  have hdims : ty'.dims.Perm ty.dims := by
    have hmap := hperm.map Prod.fst
    rwa [map_fst_axes hlen, map_fst_axes hlen'] at hmap
  have hstride : ty'.stride.Perm ty.stride := by
    have hmap := hperm.map Prod.snd
    rwa [map_snd_axes hlen, map_snd_axes hlen'] at hmap
  refine ⟨h.spread.perm hperm.symm, h.moves.imp (fun hone => ?_) ?_⟩
  · rw [compatibleWithScalar_iff] at hone ⊢
    rw [hdims.prod_eq, hone]
  · rintro ⟨s, hs, hne⟩
    exact ⟨s, hstride.mem_iff.mpr hs, hne⟩

/-! ### `broadcast` and `extend_per_channel_params` -/

theorem spread_zeros {dims stride : List Nat} (h : ∀ s ∈ stride, s = 0) (axes : List (Nat × Nat))
    (haxes : Spread axes) : Spread (dims.zip stride ++ axes) := by
  refine List.pairwise_append.mpr ⟨?_, haxes, ?_⟩
  · exact List.pairwise_of_forall_mem_list fun x hx y _ => Or.inl (h x.2 (List.of_mem_zip hx).2)
  · exact fun x hx y _ => Or.inl (h x.2 (List.of_mem_zip hx).2)

theorem exists_zip_of_forall₂ {r : Nat → Nat → Prop} {dims target stride : List Nat}
    (h : List.Forall₂ r dims target) {y : Nat × Nat} (hy : y ∈ target.zip stride) :
    ∃ d, r d y.1 ∧ (d, y.2) ∈ dims.zip stride := by
  induction h generalizing stride with
  | nil => cases hy
  | @cons d t dims target hd _ ih =>
      cases stride with
      | nil => cases hy
      | cons s stride =>
          obtain rfl | hy := List.mem_cons.mp hy
          · exact ⟨d, hd, List.mem_cons_self⟩
          · obtain ⟨e, he, hmem⟩ := ih hy
            exact ⟨e, he, List.mem_cons_of_mem _ hmem⟩

/-- An axis of one element with a stride is the only one with a stride, so it may get another extent. -/
theorem spread_broadcast {dims target stride : List Nat} (h : Spread (dims.zip stride))
    (htarget : List.Forall₂ (fun d t => d = t ∨ d = 1) dims target) : Spread (target.zip stride) := by
  induction htarget generalizing stride with
  | nil => exact .nil
  | @cons d t dims target hd htarget ih =>
      cases stride with
      | nil => exact .nil
      | cons s stride =>
          obtain ⟨hhead, htail⟩ := List.pairwise_cons.mp h
          refine List.pairwise_cons.mpr ⟨fun y hy => ?_, ih htail⟩
          obtain ⟨e, he, hmem⟩ := exists_zip_of_forall₂ htarget hy
          have hapart : Apart (d, s) (e, y.2) := hhead (e, y.2) hmem
          obtain hs | hy | ⟨hd1, he1, hle⟩ := hapart
          · exact Or.inl hs
          · exact Or.inr (Or.inl hy)
          · dsimp only at hd1 he1 hle
            obtain rfl : d = t := hd.resolve_right (by omega)
            obtain rfl : e = y.1 := he.resolve_right (by omega)
            exact Or.inr (Or.inr ⟨hd1, he1, hle⟩)

theorem stored_broadcast (hlen : ty.stride.length = ty.dims.length) (htarget : Broadcastable ty.dims target)
    (hmoves : ResolvedTensorDims.compatibleWithScalar target = true ∨ ∃ s ∈ ty.stride, s ≠ 0)
    (hty : ty.broadcast target = some ty') (h : Spread (ty.dims.zip ty.stride)) : ty'.Stored := by
  unfold ResolvedTensorType.broadcast at hty
  split at hty
  · rename_i hempty
    cases hty
    have hzeros : ∀ s ∈ List.replicate target.length 0, s = 0 := fun s hs => List.eq_of_mem_replicate hs
    refine ⟨?_, Or.inl (hmoves.resolve_right ?_)⟩
    · have hspread := @spread_zeros target _ hzeros [] .nil
      rwa [List.append_nil] at hspread
    · rw [List.isEmpty_iff.mp hempty]
      exact nofun
  · split at hty
    · cases hty
    · rename_i hle
      cases hty
      have hle : ty.dims.length ≤ target.length := by
        push Not at hle
        exact hle.1
      have hlength : (target.take (target.length - ty.dims.length)).length =
          (List.replicate (target.length - ty.dims.length) 0).length := by
        rw [List.length_take, List.length_replicate]
        omega
      have hzip : target.zip (List.replicate (target.length - ty.dims.length) 0 ++ ty.stride) =
          (target.take (target.length - ty.dims.length)).zip (List.replicate (target.length - ty.dims.length) 0) ++
            (target.drop (target.length - ty.dims.length)).zip ty.stride := by
        rw [← List.zip_append hlength, List.take_append_drop]
      refine ⟨?_, hmoves.imp id ?_⟩
      · show Spread (target.zip _)
        rw [hzip]
        exact spread_zeros (fun s hs => List.eq_of_mem_replicate hs) _ (spread_broadcast h htarget)
      · rintro ⟨s, hs, hne⟩
        exact ⟨s, List.mem_append_right _ hs, hne⟩

theorem stored_extendPerChannelParams (hty : ty.extendPerChannelParams target = some ty') : ty'.Stored := by
  unfold ResolvedTensorType.extendPerChannelParams at hty
  split at hty
  · cases hty
  · split at hty
    · rename_i a b rest
      cases hty
      have hzeros : ∀ s ∈ List.replicate rest.length 0, s = 0 := fun s hs => List.eq_of_mem_replicate hs
      refine ⟨?_, Or.inr ⟨1, List.mem_cons_of_mem _ List.mem_cons_self, Nat.one_ne_zero⟩⟩
      refine List.pairwise_cons.mpr ⟨fun y _ => Or.inl rfl, List.pairwise_cons.mpr ⟨fun y hy => ?_, ?_⟩⟩
      · exact Or.inr (Or.inl (hzeros y.2 (List.of_mem_zip hy).2))
      · have hspread := @spread_zeros rest _ hzeros [] .nil
        rwa [List.append_nil] at hspread
    · cases hty

/-! ### `try_reshape` -/

theorem tryReshape_dims (hty : ty.tryReshape target = .ok ty') : ty'.dims = target := by
  obtain rfl | ⟨-, -, -, hdims⟩ := tryReshape_cases hty
  · rfl
  · exact hdims

/-- A type that is reshaped to positive dims has positive dims and as many elements. -/
theorem tryReshape_prod (hlen : ty.stride.length = ty.dims.length) (hty : ty.tryReshape target = .ok ty')
    (hpos : ∀ d ∈ target, 0 < d) : target.prod = ty.dims.prod := by
  have hprod : 0 < target.prod := List.prod_pos hpos
  unfold tryReshape at hty
  split at hty
  · rename_i hcompat
    obtain ⟨hone, hone'⟩ := Bool.and_eq_true_iff.mp hcompat
    rw [(compatibleWithScalar_iff _).mp hone, (compatibleWithScalar_iff _).mp hone']
  · split at hty
    · cases hty
    · rename_i hcompat hsize
      have hsize : ResolvedTensorDims.size ty.dims = ResolvedTensorDims.size target := not_not.mp hsize
      cases htarget : target with
      | cons t rest =>
          cases hdims : ty.dims with
          | cons d dims =>
              rw [hdims, htarget] at hsize
              exact hsize.symm
          | nil =>
              rw [hdims, htarget] at hsize
              have hzero : 0 = (t :: rest).prod := hsize
              rw [htarget] at hprod
              omega
      | nil =>
          by_cases hone : ty.dims.prod = 1
          · exact hone.symm
          -- Some axis is left when the target dims are used up.
          have haxes : ty.reshapedAxes ≠ [] := by
            intro hnil
            have hsize := reshapedAxes_size hlen
            rw [hnil] at hsize
            exact hone hsize.symm
          rw [htarget] at hty
          simp only [do_eq_ok] at hty
          obtain ⟨newStrides, hloop, -⟩ := hty
          cases haxes' : ty.reshapedAxes with
          | nil => exact absurd haxes' haxes
          | cons a axes =>
              rw [haxes'] at hloop
              cases hloop

theorem stored_tryReshape (hlen : ty.stride.length = ty.dims.length) (hlen' : ty'.stride.length = ty'.dims.length)
    (hpos : ∀ d ∈ target, 0 < d) (heven : ty.SplitsEvenly target)
    (hmoves : ResolvedTensorDims.compatibleWithScalar target = true ∨ ∃ a ∈ ty.reshapedAxes, a.2 ≠ 0)
    (hty : ty.tryReshape target = .ok ty') (h : ty.Stored) : ty'.Stored := by
  have hcount := tryReshape_prod hlen hty hpos
  have hpos' : ∀ d ∈ ty.dims, 0 < d := pos_of_prod (hcount ▸ List.prod_pos hpos)
  have hdims := tryReshape_dims hty
  obtain ⟨hstop, -⟩ | ⟨u, hok, -, haddress, hspread, hunit⟩ := tryReshape_spec hlen hpos' hcount
  · rw [hstop] at hty
    cases hty
  · rw [hok] at hty
    cases hty
    have hreshaped : Spread ty.reshapedAxes :=
      Spread.perm (h.spread.filter _) (List.reverse_perm _).symm
    have hspread' : Spread ty'.reshapedAxes := hspread heven hreshaped
    refine ⟨?_, ?_⟩
    · have hfilter : Spread ((ty'.dims.zip ty'.stride).filter fun a => a.1 ≠ 1) :=
        hspread'.perm (List.reverse_perm _)
      rw [Spread, List.pairwise_filter] at hfilter
      refine List.Pairwise.imp_of_mem (fun {x y} hx hy hxy => ?_) hfilter
      by_cases hx1 : x.1 = 1
      · exact Or.inl (hunit x hx hx1)
      by_cases hy1 : y.1 = 1
      · exact Or.inr (Or.inl (hunit y hy hy1))
      · exact hxy (decide_eq_true hx1) (decide_eq_true hy1)
    · rw [hdims]
      refine hmoves.imp id ?_
      rintro ⟨a, ha, hne⟩
      obtain ⟨n, hn, hoffset⟩ := exists_offset_ne_zero
        (fun a ha => Nat.lt_of_succ_lt (one_lt_reshapedAxes hpos' a ha)) ha (one_lt_reshapedAxes hpos' a ha) hne
      rw [reshapedAxes_size hlen] at hn
      rw [← offset_eq hlen, ← haddress.mpr heven n hn, offset_eq hlen'] at hoffset
      by_contra hall
      push Not at hall
      refine hoffset (offset_eq_zero (fun a ha => ?_) n)
      exact hall a.2 (List.of_mem_zip (List.mem_filter.mp (List.mem_reverse.mp ha)).1).2

/-! ### The bound -/

theorem pos_of_perm {dims dims' : List Nat} (h : dims.Perm dims') (hpos : ∀ d ∈ dims, 0 < d) :
    ∀ d ∈ dims', 0 < d := fun d hd => hpos d (h.mem_iff.mpr hd)

theorem pos_of_broadcastable (htarget : Broadcastable ty.dims target) (hpos : ∀ d ∈ target, 0 < d) :
    ∀ d ∈ ty.dims, 0 < d := by
  intro d hd
  obtain ⟨i, hi, rfl⟩ := List.mem_iff_getElem.mp hd
  have hi' : i < (target.drop (target.length - ty.dims.length)).length := htarget.length_eq ▸ hi
  obtain heq | hone := htarget.get hi hi'
  · rw [List.get_eq_getElem] at heq
    rw [heq]
    exact hpos _ (List.mem_of_mem_drop (List.getElem_mem hi'))
  · rw [List.get_eq_getElem] at hone
    rw [hone]
    exact Nat.one_pos

theorem broadcast_dims (hty : ty.broadcast target = some ty') : ty'.dims = target := by
  unfold ResolvedTensorType.broadcast at hty
  split at hty
  · cases hty
    rfl
  · split at hty
    · cases hty
    · cases hty
      rfl

/-- Every step keeps the axes apart, and a type of more than one element has a stride that is not zero. -/
theorem BuiltSoundly.stored (h : BuiltSoundly ty) (hpos : ∀ d ∈ ty.dims, 0 < d) : ty.Stored := by
  induction h with
  | new elemType dims => exact stored_new elemType hpos
  | @transpose ty ty' perms h hperms hty ih =>
      have hlen := h.built.length
      have hlen' := (h.built.transpose hty).length
      have hperm := transpose_perm hlen hperms hty
      have hdims : ty'.dims.Perm ty.dims := by
        have hmap := hperm.map Prod.fst
        rwa [map_fst_axes hlen, map_fst_axes hlen'] at hmap
      exact (ih (pos_of_perm hdims hpos)).of_perm hlen hlen' hperm
  | @broadcast ty ty' target h htarget hmoves hty ih =>
      rw [broadcast_dims hty] at hpos
      exact stored_broadcast h.built.length htarget hmoves hty (ih (pos_of_broadcastable htarget hpos)).spread
  | extendPerChannelParams _ hty _ => exact stored_extendPerChannelParams hty
  | @tryReshape ty ty' target h heven hmoves hty ih =>
      rw [tryReshape_dims hty] at hpos
      have hcount := tryReshape_prod h.built.length hty hpos
      have hpos' : ∀ d ∈ ty.dims, 0 < d := pos_of_prod (hcount ▸ List.prod_pos hpos)
      exact stored_tryReshape h.built.length (h.built.tryReshape hty).length hpos heven hmoves hty (ih hpos')

theorem lastElement_eq_sum (dims stride : List Nat) :
    lastElement dims stride = ((dims.zip stride).map fun a => (a.1 - 1) * a.2).sum := by
  rw [lastElement, List.zip, List.map_zipWith]

theorem le_foldr_max {l : List Nat} {x : Nat} (h : x ∈ l) : x ≤ l.foldr max 0 := by
  induction l with
  | nil => cases h
  | cons y l ih =>
      cases h with
      | head => exact Nat.le_max_left _ _
      | tail _ h => exact (ih h).trans (Nat.le_max_right _ _)

theorem Stored.lastElement_lt (h : ty.Stored) (hlen : ty.stride.length = ty.dims.length)
    (hpos : ∀ d ∈ ty.dims, 0 < d) : lastElement ty.dims ty.stride < ty.storageNumElements := by
  have hposAxes : ∀ a ∈ ty.dims.zip ty.stride, 0 < a.1 := fun a ha => hpos a.1 (List.of_mem_zip ha).1
  rw [lastElement_eq_sum]
  unfold storageNumElements
  by_cases hscalar : ty.isScalar = true
  · rw [if_pos hscalar]
    have hone : ty.dims.prod = 1 := (compatibleWithScalar_iff ty.dims).mp hscalar
    have hzero : ∀ x ∈ (ty.dims.zip ty.stride).map fun a => (a.1 - 1) * a.2, x = 0 := by
      intro x hx
      obtain ⟨a, ha, rfl⟩ := List.mem_map.mp hx
      have hdvd : a.1 ∣ ty.dims.prod := List.dvd_prod (List.of_mem_zip ha).1
      rw [hone, Nat.dvd_one] at hdvd
      rw [hdvd, Nat.sub_self, Nat.zero_mul]
    rw [List.sum_eq_zero hzero]
    exact Nat.one_pos
  · have hany : ¬ ty.dims.any (· == 0) = true := by
      intro hany
      obtain ⟨d, hd, hzero⟩ := List.any_eq_true.mp hany
      have hd0 : d = 0 := by simpa using hzero
      exact absurd (hpos d hd) (hd0 ▸ Nat.lt_irrefl 0)
    rw [if_neg hscalar, if_neg hany]
    have hbound : ∀ a ∈ ty.dims.zip ty.stride, a.1 * a.2 ≤ (axisExtents ty.dims ty.stride).foldr max 0 := by
      intro a ha
      refine le_foldr_max ?_
      have hmem : max a.1 1 * a.2 ∈ (ty.dims.zip ty.stride).map fun a => max a.1 1 * a.2 := List.mem_map_of_mem ha
      rw [List.zip, List.map_zipWith] at hmem
      rwa [Nat.max_eq_left (hposAxes a ha)] at hmem
    refine h.spread.sum_lt hposAxes ?_ hbound
    obtain hone | ⟨s, hs, hne⟩ := h.moves
    · exact absurd hone hscalar
    · rw [← map_snd_axes hlen] at hs
      obtain ⟨a, ha, rfl⟩ := List.mem_map.mp hs
      exact lt_of_lt_of_le (Nat.mul_pos (hposAxes a ha) (Nat.pos_of_ne_zero hne)) (hbound a ha)

/-- Every element of a type that was built by sound steps lies below `storage_num_elements`, and so does every
byte that a kernel reads or writes. -/
theorem storage_bounds (h : BuiltSoundly ty) (hpos : ∀ d ∈ ty.dims, 0 < d) :
    (∀ idx, List.Forall₂ (· < ·) idx ty.dims → elementAt ty.stride idx < ty.storageNumElements) ∧
      ∀ n, ty.Touches n → n < ty.byteSize := by
  have hlast := (h.stored hpos).lastElement_lt h.built.length hpos
  have helement : ∀ idx, List.Forall₂ (· < ·) idx ty.dims → elementAt ty.stride idx < ty.storageNumElements :=
    fun idx hidx => (elementAt_le_lastElement hidx ty.stride).trans_lt hlast
  refine ⟨helement, ?_⟩
  rintro n ⟨idx, hidx, -, hn⟩
  exact lt_of_lt_of_le hn (Nat.mul_le_mul_right _ (helement idx hidx))

/-- Channels that are spread over an image. -/
theorem channel_bounds :
    (∀ idx, List.Forall₂ (· < ·) idx [2, 3, 4, 4] → elementAt [0, 1, 0, 0] idx <
        (ResolvedTensorType.mk (.float .F32) [2, 3, 4, 4] [0, 1, 0, 0]).storageNumElements) ∧
      ∀ n, (ResolvedTensorType.mk (.float .F32) [2, 3, 4, 4] [0, 1, 0, 0]).Touches n →
        n < (ResolvedTensorType.mk (.float .F32) [2, 3, 4, 4] [0, 1, 0, 0]).byteSize :=
  storage_bounds (@BuiltSoundly.extendPerChannelParams (.new (.float .F32) [3]) _ [2, 3, 4, 4] (.new _ _) rfl) (by decide)

/-- One element that is broadcast gets no storage. -/
theorem broadcast_scalar_unstored :
    Built ⟨.float .F32, [4], [0]⟩ ∧ List.Forall₂ (· < ·) [3] [4] ∧
      ¬ elementAt [0] [3] < (ResolvedTensorType.mk (.float .F32) [4] [0]).storageNumElements :=
  ⟨@Built.broadcast (.new (.float .F32) []) _ [4] (.new _ _) rfl, by simp, by decide⟩

end ResolvedTensorType

end NnEngine
