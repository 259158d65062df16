import NnEngine.NdArray

/-!
# Reducing axes

An array reduced over some of its axes by a function of the elements in any order.  The axes can be moved
to the end and the array be read as a matrix, each row of which gives one element of the result:
`reduceAxes_eq_rows`.
-/

namespace NnEngine

variable {dims idx : List Nat} {drop : List Bool} {keep : Bool} {kept axes : List Nat}

/-! ### Dropped axes -/

/-- The entries of the axes that are not dropped. -/
def keptOf (drop : List Bool) (l : List Nat) : List Nat := ((l.zip drop).filter fun x => !x.2).map Prod.fst

/-- The entries, without those of the dropped axes or with `unit` in their place. -/
def collapse (keep : Bool) (unit : Nat) (drop : List Bool) (l : List Nat) : List Nat :=
  ((l.zip drop).filter fun x => keep || !x.2).map fun x => if x.2 then unit else x.1

@[simp] theorem keptOf_nil (l : List Nat) : keptOf [] l = [] := by simp [keptOf]

@[simp] theorem keptOf_cons (b : Bool) (drop : List Bool) (x : Nat) (l : List Nat) :
    keptOf (b :: drop) (x :: l) = if b then keptOf drop l else x :: keptOf drop l := by
  cases b <;> simp [keptOf]

@[simp] theorem collapse_nil (keep : Bool) (unit : Nat) (l : List Nat) : collapse keep unit [] l = [] := by
  simp [collapse]

@[simp] theorem collapse_cons (keep : Bool) (unit : Nat) (b : Bool) (drop : List Bool) (x : Nat) (l : List Nat) :
    collapse keep unit (b :: drop) (x :: l) =
      if b then (if keep then unit :: collapse keep unit drop l else collapse keep unit drop l)
      else x :: collapse keep unit drop l := by
  cases b <;> cases keep <;> simp [collapse]

theorem prod_collapse (keep : Bool) (drop : List Bool) (dims : List Nat) :
    (collapse keep 1 drop dims).prod = (keptOf drop dims).prod := by
  induction dims generalizing drop with
  | nil => rfl
  | cons d dims ih =>
      cases drop with
      | nil => simp
      | cons b drop => cases b <;> cases keep <;> simp [ih]

theorem inside_collapse (h : Inside idx dims) (keep : Bool) (drop : List Bool) :
    Inside (collapse keep 0 drop idx) (collapse keep 1 drop dims) := by
  induction h generalizing drop with
  | nil => exact .nil
  | cons hlt _ ih =>
      cases drop with
      | nil => simp
      | cons b drop => cases b <;> cases keep <;> simp [ih, hlt]

theorem inside_keptOf (h : Inside idx dims) (drop : List Bool) : Inside (keptOf drop idx) (keptOf drop dims) := by
  induction h generalizing drop with
  | nil => exact .nil
  | cons hlt _ ih =>
      cases drop with
      | nil => simp
      | cons b drop => cases b <;> simp [ih, hlt]

/-- Axes of one element do not change a row-major number. -/
theorem rowMajor_collapse (h : Inside idx dims) (keep : Bool) (drop : List Bool) :
    rowMajor (collapse keep 1 drop dims) (collapse keep 0 drop idx) = rowMajor (keptOf drop dims) (keptOf drop idx) := by
  induction h generalizing drop with
  | nil => rfl
  | cons _ _ ih =>
      cases drop with
      | nil => simp
      | cons b drop => cases b <;> cases keep <;> simp [rowMajor, ih, prod_collapse]

/-- The axes that are not dropped, by their numbers. -/
def keptAxes (drop : List Bool) : List Nat := (List.range drop.length).filter fun i => !drop.getD i false

theorem permute_keptAxes {l : List Nat} (h : l.length = drop.length) : permute (keptAxes drop) l = keptOf drop l := by
  unfold keptAxes permute
  induction l generalizing drop with
  | nil =>
      obtain rfl := List.length_eq_zero_iff.mp h.symm
      rfl
  | cons x l ih =>
      cases drop with
      | nil => cases h
      | cons b drop =>
          have hrest := ih (Nat.succ.inj h)
          rw [List.length_cons, List.range_succ_eq_map, List.filter_cons, keptOf_cons]
          cases b <;> simpa [List.filter_map, Function.comp_def] using hrest

theorem permute_append (kept axes l : List Nat) : permute (kept ++ axes) l = permute kept l ++ permute axes l :=
  List.map_append

/-! ### All indices -/

/-- The indices of an array, in row-major order. -/
def indices (dims : List Nat) : List (List Nat) := (List.range dims.prod).map (multiIndex dims)

theorem mem_indices : idx ∈ indices dims ↔ Inside idx dims := by
  unfold indices
  rw [List.mem_map]
  constructor
  · rintro ⟨n, hn, rfl⟩
    exact multiIndex_lt (pos_of_prod_pos (Nat.zero_lt_of_lt (List.mem_range.mp hn))) n
  · exact fun h => ⟨rowMajor dims idx, List.mem_range.mpr (rowMajor_lt h), multiIndex_rowMajor h⟩

theorem nodup_indices (dims : List Nat) : (indices dims).Nodup := by
  refine List.Nodup.map_on (fun n hn m hm heq => ?_) List.nodup_range
  rw [← rowMajor_multiIndex (List.mem_range.mp hn), heq, rowMajor_multiIndex (List.mem_range.mp hm)]

theorem multiIndex_append {outer inner : List Nat} {r c : Nat} (hr : r < outer.prod) (hc : c < inner.prod) :
    multiIndex (outer ++ inner) (r * inner.prod + c) = multiIndex outer r ++ multiIndex inner c := by
  have houter : Inside (multiIndex outer r) outer := multiIndex_lt (pos_of_prod_pos (Nat.zero_lt_of_lt hr)) r
  have hinner : Inside (multiIndex inner c) inner := multiIndex_lt (pos_of_prod_pos (Nat.zero_lt_of_lt hc)) c
  have hboth : Inside (multiIndex outer r ++ multiIndex inner c) (outer ++ inner) := List.rel_append houter hinner
  have hnumber := multiIndex_rowMajor hboth
  rwa [rowMajor_append houter, rowMajor_multiIndex hr, rowMajor_multiIndex hc] at hnumber

/-- The place that a row and a column of the matrix come from. -/
def placeOf (drop : List Bool) (axes dims : List Nat) (r c : Nat) : List Nat :=
  unpermute (keptAxes drop ++ axes) (multiIndex (keptOf drop dims) r ++ multiIndex (permute axes dims) c)

section Places

variable {r c : Nat} (hperm : IsPerm (keptAxes drop ++ axes) dims.length) (hdrop : drop.length = dims.length)
  (hr : r < (keptOf drop dims).prod) (hc : c < (permute axes dims).prod)
include hperm hdrop hr hc

theorem inside_placeOf : Inside (placeOf drop axes dims r c) dims := by
  refine inside_unpermute hperm ?_
  rw [permute_append, permute_keptAxes hdrop.symm]
  exact List.rel_append (multiIndex_lt (pos_of_prod_pos (Nat.zero_lt_of_lt hr)) r)
    (multiIndex_lt (pos_of_prod_pos (Nat.zero_lt_of_lt hc)) c)

theorem coordinates_placeOf : keptOf drop (placeOf drop axes dims r c) = multiIndex (keptOf drop dims) r ∧
    permute axes (placeOf drop axes dims r c) = multiIndex (permute axes dims) c := by
  have hlen := (inside_placeOf hperm hdrop hr hc).length_eq
  have hkept := permute_keptAxes hdrop.symm
  have hboth : permute (keptAxes drop ++ axes) (placeOf drop axes dims r c) =
      multiIndex (keptOf drop dims) r ++ multiIndex (permute axes dims) c := by
    refine permute_unpermute hperm ?_
    rw [List.length_append, multiIndex_length, multiIndex_length, ← hkept, permute_length, permute_length,
      ← List.length_append, hperm.length]
  rw [permute_append, permute_keptAxes (hlen.trans hdrop.symm)] at hboth
  refine List.append_inj hboth ?_
  rw [multiIndex_length, ← hkept, permute_length, ← permute_keptAxes (hlen.trans hdrop.symm), permute_length]

end Places

/-- The places of a row of the matrix are those that collapse to the index with its number. -/
theorem fibre_perm (hperm : IsPerm (keptAxes drop ++ axes) dims.length) (hdrop : drop.length = dims.length)
    (hidx : Inside idx (collapse keep 1 drop dims)) :
    ((indices dims).filter fun i => collapse keep 0 drop i = idx).Perm
      ((List.range (permute axes dims).prod).map
        (placeOf drop axes dims (rowMajor (collapse keep 1 drop dims) idx))) := by
  have hr : rowMajor (collapse keep 1 drop dims) idx < (keptOf drop dims).prod := by
    rw [← prod_collapse keep]
    exact rowMajor_lt hidx
  refine (List.perm_ext_iff_of_nodup ((nodup_indices dims).filter _) ?_).mpr fun i => ?_
  · -- different columns are different places
    refine List.Nodup.map_on (fun c hc c' hc' heq => ?_) List.nodup_range
    have hc := List.mem_range.mp hc
    have hc' := List.mem_range.mp hc'
    rw [← rowMajor_multiIndex hc, ← (coordinates_placeOf hperm hdrop hr hc).2, heq,
      (coordinates_placeOf hperm hdrop hr hc').2, rowMajor_multiIndex hc']
  · rw [List.mem_filter, mem_indices, decide_eq_true_eq, List.mem_map]
    constructor
    · rintro ⟨hi, rfl⟩
      have haxes : Inside (permute axes i) (permute axes dims) := inside_permute hi fun p hp =>
        hperm.mem_iff.mp (List.mem_append_right _ hp)
      have hlen : i.length = dims.length := hi.length_eq
      refine ⟨rowMajor (permute axes dims) (permute axes i), List.mem_range.mpr (rowMajor_lt haxes), ?_⟩
      rw [placeOf, multiIndex_rowMajor haxes, rowMajor_collapse hi, multiIndex_rowMajor (inside_keptOf hi drop),
        ← permute_keptAxes (hlen.trans hdrop.symm), ← permute_append, unpermute_permute hperm hlen]
    · rintro ⟨c, hc, rfl⟩
      have hc := List.mem_range.mp hc
      have hi := inside_placeOf hperm hdrop hr hc
      refine ⟨hi, rowMajor_injective (inside_collapse hi keep drop) hidx ?_⟩
      -- the kept coordinates are those of the row
      rw [rowMajor_collapse hi, (coordinates_placeOf hperm hdrop hr hc).1, rowMajor_multiIndex hr]

/-! ### Reductions of arrays -/

namespace NdArray

variable {α : Type} [Zero α]

/-- The array reduced over the dropped axes, which stay with one element if `keep` holds. -/
def reduceAxes (f : Multiset α → α) (keep : Bool) (drop : List Bool) (x : NdArray α) : NdArray α :=
  .tabulate (collapse keep 1 drop x.shape) fun idx =>
    f (((indices x.shape).filter fun i => collapse keep 0 drop i = idx).map x.get)

/-- The array with its axes in this order. -/
def transposed (perm : List Nat) (x : NdArray α) : NdArray α :=
  .tabulate (permute perm x.shape) fun idx => x.get (unpermute perm idx)

/-- The same elements in the same order. -/
def reshaped (shape : List Nat) (x : NdArray α) : NdArray α :=
  .tabulate shape fun idx => x.get (multiIndex x.shape (rowMajor shape idx))

/-- The array of this shape whose elements are the reduced rows of a matrix. -/
def reduceRows (f : Multiset α → α) (shape : List Nat) (x : NdArray α) : NdArray α :=
  .tabulate shape fun idx => f ((List.range (x.shape.getD 1 0)).map fun c => x.get [rowMajor shape idx, c])

theorem get_reshaped {x : NdArray α} {shape : List Nat} (h : Inside idx shape) :
    (x.reshaped shape).get idx = x.get (multiIndex x.shape (rowMajor shape idx)) := get_tabulate h

/-- Reducing axes is to move them to the end and to reduce the rows of the matrix. -/
theorem reduceAxes_eq_rows (f : Multiset α → α) {x : NdArray α} {rows : List Nat}
    (hperm : IsPerm (keptAxes drop ++ axes) x.shape.length) (hdrop : drop.length = x.shape.length)
    (hrows : rows.prod = (keptOf drop x.shape).prod) :
    ((((x.transposed (keptAxes drop ++ axes)).reshaped
        [(keptOf drop x.shape).prod, (permute axes x.shape).prod]).reduceRows f rows).reshaped
          (collapse keep 1 drop x.shape)) = x.reduceAxes f keep drop := by
  refine tabulate_congr fun idx hidx => ?_
  have hr : rowMajor (collapse keep 1 drop x.shape) idx < rows.prod := by
    rw [hrows, ← prod_collapse keep]
    exact rowMajor_lt hidx
  have hsplit : permute (keptAxes drop ++ axes) x.shape = keptOf drop x.shape ++ permute axes x.shape := by
    rw [permute_append, permute_keptAxes hdrop.symm]
  show (reduceRows f rows _).get (multiIndex rows _) = _
  rw [reduceRows, get_tabulate (multiIndex_lt (pos_of_prod_pos (Nat.zero_lt_of_lt hr)) _), rowMajor_multiIndex hr]
  congr 1
  refine Multiset.coe_eq_coe.mpr ((List.Perm.of_eq ?_).trans ((fibre_perm hperm hdrop hidx).map x.get).symm)
  rw [List.map_map]
  refine List.map_congr_left fun c hc => ?_
  have hc : c < (permute axes x.shape).prod := List.mem_range.mp hc
  rw [hrows] at hr
  have hmatrix : Inside [rowMajor (collapse keep 1 drop x.shape) idx, c]
      [(keptOf drop x.shape).prod, (permute axes x.shape).prod] := .cons hr (.cons hc .nil)
  have hturned : Inside (multiIndex (keptOf drop x.shape) (rowMajor (collapse keep 1 drop x.shape) idx) ++
      multiIndex (permute axes x.shape) c) (permute (keptAxes drop ++ axes) x.shape) := by
    rw [hsplit]
    exact List.rel_append (multiIndex_lt (pos_of_prod_pos (Nat.zero_lt_of_lt hr)) _)
      (multiIndex_lt (pos_of_prod_pos (Nat.zero_lt_of_lt hc)) _)
  rw [get_reshaped hmatrix]
  show (x.transposed _).get (multiIndex (permute _ x.shape) _) = x.get (placeOf drop axes x.shape _ c)
  rw [hsplit]
  have hnumber : rowMajor [(keptOf drop x.shape).prod, (permute axes x.shape).prod]
      [rowMajor (collapse keep 1 drop x.shape) idx, c] =
        rowMajor (collapse keep 1 drop x.shape) idx * (permute axes x.shape).prod + c := by
    simp [rowMajor]
  rw [hnumber, multiIndex_append hr hc]
  exact get_tabulate hturned

theorem transposed_range (x : NdArray α) : x.transposed (List.range x.shape.length) = x := by
  unfold transposed
  rw [permute_range rfl]
  refine (tabulate_congr fun idx hidx => ?_).trans (tabulate_get x)
  rw [unpermute_range hidx.length_eq]

/-- Axes at the end are not moved. -/
theorem reduceAxes_eq_rows_of_last (f : Multiset α → α) {x : NdArray α} {rows : List Nat}
    (hlast : keptAxes drop ++ axes = List.range x.shape.length) (hdrop : drop.length = x.shape.length)
    (hrows : rows.prod = (keptOf drop x.shape).prod) :
    (((x.reshaped [(keptOf drop x.shape).prod, (permute axes x.shape).prod]).reduceRows f rows).reshaped
      (collapse keep 1 drop x.shape)) = x.reduceAxes f keep drop := by
  have hmoved := @reduceAxes_eq_rows _ keep axes _ _ f x rows (hlast ▸ List.Perm.refl _) hdrop hrows
  rwa [hlast, transposed_range] at hmoved

end NdArray

end NnEngine
