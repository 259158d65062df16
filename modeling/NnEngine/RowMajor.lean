import Mathlib.Tactic

/-!
# Row-major numbers

The elements of an array of some extents, by their index or by their row-major number, and what a
permutation of the axes does to an index.
-/

namespace NnEngine

variable {dims idx : List Nat}

/-- Every coordinate of the index is below its extent. -/
abbrev Inside (idx dims : List Nat) : Prop := List.Forall₂ (· < ·) idx dims

/-- The index of the element with this row-major number. -/
def multiIndex : List Nat → Nat → List Nat
  | [], _ => []
  | d :: dims, n => n / dims.prod % d :: multiIndex dims n

/-- The row-major number of the element with this index. -/
def rowMajor : List Nat → List Nat → Nat
  | _ :: dims, i :: idx => i * dims.prod + rowMajor dims idx
  | _, _ => 0

@[simp] theorem multiIndex_length (dims : List Nat) (n : Nat) : (multiIndex dims n).length = dims.length := by
  induction dims with
  | nil => rfl
  | cons d dims ih => simp [multiIndex, ih]

theorem multiIndex_lt (h : ∀ d ∈ dims, 0 < d) (n : Nat) : Inside (multiIndex dims n) dims := by
  induction dims with
  | nil => exact .nil
  | cons d dims ih =>
      exact .cons (Nat.mod_lt _ (h d List.mem_cons_self)) (ih fun x hx => h x (List.mem_cons_of_mem d hx))

/-- The coordinates of the inner axes do not see the outer ones. -/
theorem multiIndex_add (dims : List Nat) (k n : Nat) :
    multiIndex dims (k * dims.prod + n) = multiIndex dims n := by
  induction dims generalizing k with
  | nil => rfl
  | cons d dims ih =>
      rw [multiIndex, multiIndex, List.prod_cons, ← Nat.mul_assoc, ih]
      congr 1
      rcases Nat.eq_zero_or_pos dims.prod with hzero | hpos
      · rw [hzero, Nat.mul_zero, Nat.zero_add]
      · rw [Nat.mul_comm, Nat.mul_add_div hpos, Nat.mul_add_mod_self_right]

theorem Inside.pos (h : Inside idx dims) : ∀ d ∈ dims, 0 < d := by
  induction h with
  | nil => nofun
  | cons hlt _ ih =>
      intro d hd
      rcases List.mem_cons.mp hd with rfl | hd
      · exact Nat.zero_lt_of_lt hlt
      · exact ih d hd

theorem prod_pos_of_pos (h : ∀ d ∈ dims, 0 < d) : 0 < dims.prod := by
  induction dims with
  | nil => exact Nat.one_pos
  | cons d dims ih =>
      rw [List.prod_cons]
      exact Nat.mul_pos (h d List.mem_cons_self) (ih fun x hx => h x (List.mem_cons_of_mem d hx))

theorem pos_of_prod_pos (h : 0 < dims.prod) : ∀ d ∈ dims, 0 < d :=
  fun _ hd => Nat.pos_of_ne_zero fun hzero => h.ne' (List.prod_eq_zero (hzero ▸ hd))

theorem rowMajor_lt (h : Inside idx dims) : rowMajor dims idx < dims.prod := by
  induction h with
  | nil => exact Nat.one_pos
  | @cons i d idx dims hlt _ ih =>
      calc rowMajor (d :: dims) (i :: idx) < i * dims.prod + dims.prod := Nat.add_lt_add_left ih _
        _ = (i + 1) * dims.prod := (Nat.succ_mul i _).symm
        _ ≤ d * dims.prod := Nat.mul_le_mul_right _ hlt
        _ = (d :: dims).prod := List.prod_cons.symm

/-- An index is found again from its row-major number. -/
theorem multiIndex_rowMajor (h : Inside idx dims) : multiIndex dims (rowMajor dims idx) = idx := by
  induction h with
  | nil => rfl
  | @cons i d idx dims hlt htail ih =>
      have hinner := rowMajor_lt htail
      rw [multiIndex, rowMajor, multiIndex_add, ih, Nat.mul_comm i, Nat.mul_add_div (by omega),
        Nat.div_eq_of_lt hinner, Nat.add_zero, Nat.mod_eq_of_lt hlt]

theorem rowMajor_multiIndex_mod (hpos : 0 < dims.prod) (n : Nat) :
    rowMajor dims (multiIndex dims n) = n % dims.prod := by
  induction dims with
  | nil => exact (Nat.mod_one n).symm
  | cons d dims ih =>
      rw [List.prod_cons] at hpos
      have hinner : 0 < dims.prod := Nat.pos_of_mul_pos_left hpos
      rw [multiIndex, rowMajor, ih hinner, List.prod_cons, Nat.mul_comm d, Nat.mod_mul, Nat.mul_comm,
        Nat.add_comm]

/-- A row-major number is found again from its index. -/
theorem rowMajor_multiIndex {n : Nat} (hn : n < dims.prod) : rowMajor dims (multiIndex dims n) = n := by
  rw [rowMajor_multiIndex_mod (Nat.zero_lt_of_lt hn), Nat.mod_eq_of_lt hn]

theorem rowMajor_injective {idx' : List Nat} (h : Inside idx dims) (h' : Inside idx' dims)
    (heq : rowMajor dims idx = rowMajor dims idx') : idx = idx' := by
  rw [← multiIndex_rowMajor h, heq, multiIndex_rowMajor h']

theorem rowMajor_append {outer i : List Nat} (hi : Inside i outer) (inner j : List Nat) :
    rowMajor (outer ++ inner) (i ++ j) = rowMajor outer i * inner.prod + rowMajor inner j := by
  induction hi with
  | nil => simp [rowMajor]
  | @cons i d is outer _ _ ih =>
      rw [List.cons_append, List.cons_append, rowMajor, rowMajor, ih, List.prod_append]
      ring

theorem rowMajor_of_prod_one {outer i : List Nat} (hi : Inside i outer) (hone : outer.prod = 1) :
    rowMajor outer i = 0 := by
  have := rowMajor_lt hi
  omega

theorem rowMajor_replicate_zero (dims : List Nat) (k : Nat) : rowMajor dims (List.replicate k 0) = 0 := by
  induction dims generalizing k with
  | nil => rfl
  | cons d dims ih =>
      cases k with
      | zero => rfl
      | succ k => rw [List.replicate_succ, rowMajor, ih, Nat.zero_mul]

theorem inside_replicate_zero (h : ∀ d ∈ dims, 0 < d) : Inside (List.replicate dims.length 0) dims := by
  induction dims with
  | nil => exact .nil
  | cons d dims ih =>
      exact .cons (h d List.mem_cons_self) (ih fun x hx => h x (List.mem_cons_of_mem d hx))

/-- The index that is one on axis `i` and zero on the others. -/
def single : Nat → Nat → List Nat
  | 0, _ => []
  | rank + 1, 0 => 1 :: List.replicate rank 0
  | rank + 1, i + 1 => 0 :: single rank i

theorem single_getD_of_ne {rank i j : Nat} (h : j ≠ i) : (single rank i).getD j 0 = 0 := by
  induction rank generalizing i j with
  | zero => rfl
  | succ rank ih =>
      cases i with
      | zero =>
          cases j with
          | zero => exact absurd rfl h
          | succ j =>
              rw [single, List.getD_eq_getElem?_getD, List.getElem?_cons_succ, List.getElem?_replicate]
              split <;> rfl
      | succ i =>
          cases j with
          | zero => rfl
          | succ j => exact ih fun heq => h (congrArg (· + 1) heq)

theorem single_drop (k rank i : Nat) : (single (k + rank) (k + i)).drop k = single rank i := by
  induction k with
  | zero => rw [Nat.zero_add, Nat.zero_add, List.drop_zero]
  | succ k ih =>
      rw [Nat.add_right_comm k 1 rank, Nat.add_right_comm k 1 i, single, List.drop_succ_cons, ih]

theorem inside_single {i : Nat} (h : ∀ d ∈ dims, 0 < d) (hi : 1 < dims.getD i 0) :
    Inside (single dims.length i) dims := by
  induction dims generalizing i with
  | nil => exact .nil
  | cons d dims ih =>
      have htail : ∀ x ∈ dims, 0 < x := fun x hx => h x (List.mem_cons_of_mem d hx)
      cases i with
      | zero => exact .cons hi (inside_replicate_zero htail)
      | succ i => exact .cons (h d List.mem_cons_self) (ih htail hi)

theorem rowMajor_single {i : Nat} (hi : i < dims.length) :
    rowMajor dims (single dims.length i) = (dims.drop (i + 1)).prod := by
  induction dims generalizing i with
  | nil => cases hi
  | cons d dims ih =>
      cases i with
      | zero =>
          show 1 * dims.prod + rowMajor dims (List.replicate dims.length 0) = dims.prod
          rw [rowMajor_replicate_zero, Nat.one_mul, Nat.add_zero]
      | succ i =>
          show 0 * dims.prod + rowMajor dims (single dims.length i) = (dims.drop (i + 1)).prod
          rw [ih (Nat.lt_of_succ_lt_succ hi), Nat.zero_mul, Nat.zero_add]

/-- The last axis with more than one element. -/
theorem exists_last_axis (h : dims.prod ≠ 1) :
    ∃ i < dims.length, dims.getD i 0 ≠ 1 ∧ (dims.drop (i + 1)).prod = 1 := by
  induction dims with
  | nil => exact absurd rfl h
  | cons d dims ih =>
      by_cases hone : dims.prod = 1
      · refine ⟨0, Nat.zero_lt_succ _, ?_, hone⟩
        rintro rfl
        exact h (by rw [List.prod_cons, hone])
      · obtain ⟨i, hi, hne, hlast⟩ := ih hone
        exact ⟨i + 1, Nat.succ_lt_succ hi, hne, hlast⟩

theorem eq_one_of_prod_eq_one (h : dims.prod = 1) : ∀ d ∈ dims, d = 1 :=
  fun _ hd => Nat.dvd_one.mp (h ▸ List.dvd_prod hd)

/-! ### Permuted axes -/

/-- The list whose entry `k` is entry `perm[k]`. -/
def permute (perm l : List Nat) : List Nat := perm.map fun p => l.getD p 0

/-- The list whose entry `perm[k]` is entry `k`. -/
def unpermute (perm l : List Nat) : List Nat :=
  (List.range perm.length).map fun j => l.getD (perm.idxOf j) 0

/-- The axes in some order. -/
abbrev IsPerm (perm : List Nat) (rank : Nat) : Prop := perm.Perm (List.range rank)

variable {perm : List Nat} {rank : Nat}

theorem IsPerm.length (h : IsPerm perm rank) : perm.length = rank := by
  rw [List.Perm.length_eq h, List.length_range]

theorem IsPerm.mem_iff (h : IsPerm perm rank) {p : Nat} : p ∈ perm ↔ p < rank := by
  rw [List.Perm.mem_iff h, List.mem_range]

theorem IsPerm.nodup (h : IsPerm perm rank) : perm.Nodup := (List.Perm.nodup_iff h).mpr List.nodup_range

@[simp] theorem permute_length (perm l : List Nat) : (permute perm l).length = perm.length := by
  simp [permute]

@[simp] theorem unpermute_length (perm l : List Nat) : (unpermute perm l).length = perm.length := by
  simp [unpermute]

theorem getElem?_permute (l : List Nat) {k : Nat} (hk : k < perm.length) :
    (permute perm l)[k]? = some (l.getD perm[k] 0) := by
  simp [permute, hk]

theorem getElem?_unpermute (l : List Nat) {j : Nat} (hj : j < perm.length) :
    (unpermute perm l)[j]? = some (l.getD (perm.idxOf j) 0) := by
  simp [unpermute, hj]

theorem unpermute_permute (h : IsPerm perm rank) {l : List Nat} (hl : l.length = rank) :
    unpermute perm (permute perm l) = l := by
  refine List.ext_getElem? fun j => ?_
  by_cases hj : j < rank
  · have hmem : j ∈ perm := h.mem_iff.mpr hj
    have hidx : perm.idxOf j < perm.length := List.idxOf_lt_length_of_mem hmem
    rw [getElem?_unpermute _ (by rw [h.length]; exact hj), List.getD_eq_getElem?_getD,
      getElem?_permute l hidx, Option.getD_some, List.getElem_idxOf hidx,
      List.getElem?_eq_getElem (by omega), List.getD_eq_getElem?_getD,
      List.getElem?_eq_getElem (by omega), Option.getD_some]
  · rw [List.getElem?_eq_none (by rw [unpermute_length, h.length]; omega),
      List.getElem?_eq_none (by omega)]

theorem permute_unpermute (h : IsPerm perm rank) {l : List Nat} (hl : l.length = rank) :
    permute perm (unpermute perm l) = l := by
  refine List.ext_getElem? fun k => ?_
  by_cases hk : k < rank
  · have hk' : k < perm.length := by rw [h.length]; exact hk
    have hlt : perm[k] < perm.length := by
      rw [h.length]
      exact h.mem_iff.mp (List.getElem_mem hk')
    rw [getElem?_permute _ hk', List.getD_eq_getElem?_getD, getElem?_unpermute l hlt, Option.getD_some,
      h.nodup.idxOf_getElem k hk', List.getElem?_eq_getElem (by omega), List.getD_eq_getElem?_getD,
      List.getElem?_eq_getElem (by omega), Option.getD_some]
  · rw [List.getElem?_eq_none (by rw [permute_length, h.length]; omega),
      List.getElem?_eq_none (by omega)]

theorem getD_of_lt {l : List Nat} {k : Nat} (hk : k < l.length) : l.getD k 0 = l[k] := by
  rw [List.getD_eq_getElem?_getD, List.getElem?_eq_getElem hk, Option.getD_some]

theorem inside_iff : Inside idx dims ↔
    idx.length = dims.length ∧ ∀ k < dims.length, idx.getD k 0 < dims.getD k 0 := by
  unfold Inside
  rw [List.forall₂_iff_get]
  constructor
  · rintro ⟨hlen, hall⟩
    refine ⟨hlen, fun k hk => ?_⟩
    rw [getD_of_lt (by omega), getD_of_lt hk]
    exact hall k (by omega) hk
  · rintro ⟨hlen, hall⟩
    refine ⟨hlen, fun k hk hk' => ?_⟩
    have h := hall k hk'
    rw [getD_of_lt hk, getD_of_lt hk'] at h
    exact h

/-- An index stays inside when its axes are taken in another order. -/
theorem inside_permute (h : Inside idx dims) (hperm : ∀ p ∈ perm, p < dims.length) :
    Inside (permute perm idx) (permute perm dims) := by
  obtain ⟨-, hall⟩ := inside_iff.mp h
  unfold permute Inside
  rw [List.forall₂_map_left_iff, List.forall₂_map_right_iff, List.forall₂_same]
  exact fun p hp => hall p (hperm p hp)

/-- An index of the permuted array comes from an index of the array. -/
theorem inside_unpermute (h : IsPerm perm dims.length) (hidx : Inside idx (permute perm dims)) :
    Inside (unpermute perm idx) dims := by
  obtain ⟨hlen, hall⟩ := inside_iff.mp hidx
  rw [permute_length] at hlen hall
  refine inside_iff.mpr ⟨by rw [unpermute_length, h.length], fun j hj => ?_⟩
  have hmem : j ∈ perm := h.mem_iff.mpr hj
  have hk : perm.idxOf j < perm.length := List.idxOf_lt_length_of_mem hmem
  have hlt := hall _ hk
  rw [List.getD_eq_getElem?_getD (l := permute perm dims), getElem?_permute dims hk, Option.getD_some,
    List.getElem_idxOf hk] at hlt
  rw [List.getD_eq_getElem?_getD, getElem?_unpermute idx (by rw [h.length]; exact hj), Option.getD_some]
  exact hlt

theorem permute_range {l : List Nat} (hl : l.length = rank) : permute (List.range rank) l = l := by
  refine List.ext_getElem (by simp [hl]) fun k hk hk' => ?_
  simp [permute, hk']

theorem permute_perm {l : List Nat} (h : IsPerm perm l.length) : (permute perm l).Perm l := by
  have hmap : (permute perm l).Perm ((List.range l.length).map fun p => l.getD p 0) := List.Perm.map _ h
  exact hmap.trans (List.Perm.of_eq (permute_range rfl))

theorem prod_permute (h : IsPerm perm dims.length) : (permute perm dims).prod = dims.prod :=
  (permute_perm h).prod_eq

theorem permute_permute {q l : List Nat} (hperm : ∀ i ∈ perm, i < q.length) :
    permute perm (permute q l) = permute (permute perm q) l := by
  show _ = ((perm.map fun p => q.getD p 0).map fun p => l.getD p 0)
  rw [permute, List.map_map]
  refine List.map_congr_left fun i hi => ?_
  have hlt : i < q.length := hperm i hi
  rw [List.getD_eq_getElem?_getD, getElem?_permute l hlt, Option.getD_some, Function.comp_apply,
    getD_of_lt hlt]

/-- A permutation of permuted axes is a permutation of the axes. -/
theorem isPerm_permute {q : List Nat} (hperm : IsPerm perm rank) (hq : IsPerm q rank) :
    IsPerm (permute perm q) rank := by
  have hmap : (permute perm q).Perm ((List.range rank).map fun p => q.getD p 0) := List.Perm.map _ hperm
  have hid : ((List.range rank).map fun p => q.getD p 0) = q := permute_range hq.length
  rw [hid] at hmap
  exact hmap.trans hq

theorem unpermute_unpermute {q l : List Nat} (hperm : IsPerm perm rank) (hq : IsPerm q rank)
    (hl : l.length = rank) :
    unpermute q (unpermute perm l) = unpermute (permute perm q) l := by
  have hmem : ∀ i ∈ perm, i < q.length := fun i hi => by
    rw [hq.length]
    exact hperm.mem_iff.mp hi
  have hinner : (unpermute q (unpermute perm l)).length = rank := by rw [unpermute_length, hq.length]
  have houter : (unpermute perm l).length = rank := by rw [unpermute_length, hperm.length]
  rw [← unpermute_permute (isPerm_permute hperm hq) hinner, ← permute_permute hmem,
    permute_unpermute hq houter, permute_unpermute hperm hl]

/-! ### Reversed axes -/

theorem unpermute_range {l : List Nat} (hl : l.length = rank) : unpermute (List.range rank) l = l := by
  rw [← permute_range hl, unpermute_permute (List.Perm.refl _) hl, permute_range hl]

theorem permute_reverse {l : List Nat} (hl : l.length = rank) :
    permute (List.range rank).reverse l = l.reverse := by
  rw [permute, List.map_reverse, ← permute, permute_range hl]

theorem isPerm_reverse (rank : Nat) : IsPerm (List.range rank).reverse rank := List.reverse_perm _

theorem unpermute_reverse {l : List Nat} (hl : l.length = rank) :
    unpermute (List.range rank).reverse l = l.reverse := by
  have hlen : l.reverse.length = rank := by rw [List.length_reverse, hl]
  rw [← unpermute_permute (isPerm_reverse rank) hlen, permute_reverse hlen, List.reverse_reverse]

/-- At most one axis has more than one element. -/
def SingleAxis (dims : List Nat) : Prop := (dims.filter (1 < ·)).length ≤ 1

instance (dims : List Nat) : Decidable (SingleAxis dims) := inferInstanceAs (Decidable (_ ≤ _))

theorem singleAxis_reverse : SingleAxis dims.reverse ↔ SingleAxis dims := by
  rw [SingleAxis, SingleAxis, List.filter_reverse, List.length_reverse]

theorem singleAxis_one_cons : SingleAxis (1 :: dims) ↔ SingleAxis dims := by
  simp [SingleAxis]

theorem singleAxis_cons_of_lt {d : Nat} (hd : 1 < d) (hpos : ∀ x ∈ dims, 0 < x) :
    SingleAxis (d :: dims) ↔ dims.prod = 1 := by
  rw [SingleAxis, List.filter_cons_of_pos (by simpa using hd), List.length_cons, Nat.succ_le_succ_iff,
    Nat.le_zero, List.length_eq_zero_iff, List.filter_eq_nil_iff]
  constructor
  · intro h
    refine List.prod_eq_one fun x hx => ?_
    have hle := h x hx
    have := hpos x hx
    simp only [decide_eq_true_eq] at hle
    omega
  · intro h x hx
    simp [eq_one_of_prod_eq_one h x hx]

theorem rowMajor_reverse_cons {d i : Nat} (h : Inside idx dims) :
    rowMajor (d :: dims).reverse (i :: idx).reverse = rowMajor dims.reverse idx.reverse * d + i := by
  have hreverse : Inside idx.reverse dims.reverse := List.forall₂_reverse_iff.mpr h
  rw [List.reverse_cons, List.reverse_cons, rowMajor_append hreverse]
  simp [rowMajor]

/-- Reversing the axes keeps the row-major numbers if and only if at most one axis has elements to count. -/
theorem rowMajor_reverse_iff (hpos : ∀ d ∈ dims, 0 < d) :
    (∀ idx, Inside idx dims → rowMajor dims.reverse idx.reverse = rowMajor dims idx) ↔ SingleAxis dims := by
  induction dims with
  | nil =>
      refine iff_of_true (fun idx hidx => ?_) (Nat.zero_le _)
      cases hidx
      rfl
  | cons d dims ih =>
      have htail : ∀ x ∈ dims, 0 < x := fun x hx => hpos x (List.mem_cons_of_mem d hx)
      have hd := hpos d List.mem_cons_self
      rcases Nat.eq_or_lt_of_le (Nat.succ_le_of_lt hd) with hone | hlt
      · obtain rfl : 1 = d := hone
        rw [singleAxis_one_cons, ← ih htail]
        constructor
        · intro h idx hidx
          have hcons := h (0 :: idx) (.cons Nat.one_pos hidx)
          rw [rowMajor_reverse_cons hidx, rowMajor] at hcons
          omega
        · intro h idx hidx
          cases hidx with
          | @cons i _ idx _ hi hrest =>
              rw [rowMajor_reverse_cons hrest, rowMajor, h idx hrest]
              have hzero : i = 0 := by omega
              rw [hzero]
              ring
      · rw [singleAxis_cons_of_lt hlt htail]
        constructor
        · intro h
          have hcons := h (1 :: List.replicate dims.length 0) (.cons hlt (inside_replicate_zero htail))
          rw [rowMajor_reverse_cons (inside_replicate_zero htail), List.reverse_replicate,
            rowMajor_replicate_zero, rowMajor, rowMajor_replicate_zero] at hcons
          omega
        · intro hone idx hidx
          cases hidx with
          | @cons i _ idx _ hi hrest =>
              have hreverse : Inside idx.reverse dims.reverse := List.forall₂_reverse_iff.mpr hrest
              rw [rowMajor_reverse_cons hrest, rowMajor, hone, rowMajor_of_prod_one hrest hone,
                rowMajor_of_prod_one hreverse (by rw [List.prod_reverse, hone])]
              omega

/-- The indices that read the same from both ends. -/
theorem reverse_eq_iff (hpos : ∀ d ∈ dims, 0 < d) :
    (∀ idx, Inside idx dims → idx.reverse = idx) ↔ SingleAxis dims ∧ dims.reverse = dims := by
  constructor
  · intro h
    have hlast : (dims.map (· - 1)).reverse = dims.map (· - 1) := by
      refine h _ ?_
      rw [Inside, List.forall₂_map_left_iff, List.forall₂_same]
      intro d hd
      have := hpos d hd
      omega
    have hsymm : dims.reverse = dims := by
      have hdims : (dims.map (· - 1)).map (· + 1) = dims := by
        rw [List.map_map]
        conv_rhs => rw [← List.map_id dims]
        exact List.map_congr_left fun d hd => Nat.sub_add_cancel (hpos d hd)
      rw [← hdims, ← List.map_reverse, hlast]
    refine ⟨(rowMajor_reverse_iff hpos).mp fun idx hidx => ?_, hsymm⟩
    rw [hsymm, h idx hidx]
  · rintro ⟨hsingle, hsymm⟩ idx hidx
    have hreverse : Inside idx.reverse dims := by
      have := List.forall₂_reverse_iff.mpr hidx
      rwa [hsymm] at this
    refine rowMajor_injective hreverse hidx ?_
    have := (rowMajor_reverse_iff hpos).mpr hsingle idx hidx
    rwa [hsymm] at this

end NnEngine
