import NnEngine.RowMajor
import Mathlib.Data.List.GetD

/-!
# Blocks in a row

Blocks of some sizes that follow each other: where a block begins, and in which block a position lies.  An
array that is cut along an axis has its parts in such a row on that axis.
-/

namespace NnEngine
namespace Blocks

variable {sizes : List Nat} {k k' i i' q : Nat}

/-- Where block `k` begins. -/
def offset (sizes : List Nat) (k : Nat) : Nat := (sizes.take k).sum

@[simp] theorem offset_zero (sizes : List Nat) : offset sizes 0 = 0 := rfl

@[simp] theorem offset_cons_succ (s : Nat) (sizes : List Nat) (k : Nat) :
    offset (s :: sizes) (k + 1) = s + offset sizes k := rfl

theorem offset_length (sizes : List Nat) : offset sizes sizes.length = sizes.sum := by
  rw [offset, List.take_length]

theorem offset_succ (hk : k < sizes.length) : offset sizes (k + 1) = offset sizes k + sizes.getD k 0 := by
  rw [offset, offset, List.take_succ_eq_append_getElem hk, List.sum_append, List.sum_singleton,
    List.getD_eq_getElem _ _ hk]

theorem offset_mono (h : k ≤ k') : offset sizes k ≤ offset sizes k' := by
  unfold offset
  rw [← Nat.min_eq_left h, ← List.take_take]
  exact (List.take_sublist k _).sum_le_sum (fun _ _ => Nat.zero_le _)

/-- The position lies in block `k`, `i` after its beginning. -/
structure At (sizes : List Nat) (k i q : Nat) : Prop where
  block : k < sizes.length
  inside : i < sizes.getD k 0
  pos : offset sizes k + i = q

theorem At.next (h : At sizes k i q) (hlt : k < k') : q < offset sizes k' := by
  have hnext := offset_succ h.block
  have hmono : offset sizes (k + 1) ≤ offset sizes k' := offset_mono hlt
  have hpos := h.pos
  have hin := h.inside
  omega

theorem At.lt_sum (h : At sizes k i q) : q < sizes.sum := by
  rw [← offset_length]
  exact h.next h.block

theorem At.offset_le_iff (h : At sizes k i q) : offset sizes k' ≤ q ↔ k' ≤ k := by
  constructor
  · intro hle
    by_contra hlt
    exact absurd (h.next (Nat.lt_of_not_le hlt)) (Nat.not_lt_of_le hle)
  · intro hle
    have hmono : offset sizes k' ≤ offset sizes k := offset_mono hle
    have hpos := h.pos
    omega

/-- A position lies in one block only. -/
theorem At.unique (h : At sizes k i q) (h' : At sizes k' i' q) : k = k' ∧ i = i' := by
  have hk : k = k' := by
    have hle := h.offset_le_iff.mp (show offset sizes k' ≤ q by rw [← h'.pos]; exact Nat.le_add_right _ _)
    have hge := h'.offset_le_iff.mp (show offset sizes k ≤ q by rw [← h.pos]; exact Nat.le_add_right _ _)
    omega
  subst hk
  have hpos := h.pos
  have hpos' := h'.pos
  exact ⟨rfl, by omega⟩

theorem exists_at (h : q < sizes.sum) : ∃ k i, At sizes k i q := by
  induction sizes generalizing q with
  | nil => exact absurd h (Nat.not_lt_zero q)
  | cons s sizes ih =>
      rw [List.sum_cons] at h
      by_cases hlt : q < s
      · exact ⟨0, q, Nat.zero_lt_succ _, hlt, Nat.zero_add q⟩
      · obtain ⟨k, i, hat⟩ := ih (show q - s < sizes.sum by omega)
        have hpos := hat.pos
        refine ⟨k + 1, i, Nat.succ_lt_succ hat.block, hat.inside, ?_⟩
        rw [offset_cons_succ]
        omega

/-- All pairs of a block and a position in it. -/
def places (sizes : List Nat) : List (Nat × Nat) :=
  sizes.zipIdx.flatMap fun (s, k) => (List.range s).map fun i => (k, i)

theorem mem_places : (k, i) ∈ places sizes ↔ k < sizes.length ∧ i < sizes.getD k 0 := by
  unfold places
  simp only [List.mem_flatMap, Prod.exists, List.mem_zipIdx_iff_getElem?, List.mem_map, List.mem_range,
    Prod.mk.injEq]
  constructor
  · rintro ⟨s, k', hs, i', hi, rfl, rfl⟩
    obtain ⟨hk, rfl⟩ := List.getElem?_eq_some_iff.mp hs
    exact ⟨hk, by rwa [List.getD_eq_getElem _ _ hk]⟩
  · rintro ⟨hk, hi⟩
    rw [List.getD_eq_getElem _ _ hk] at hi
    exact ⟨sizes[k], k, List.getElem?_eq_getElem hk, i, hi, rfl, rfl⟩

theorem length_places : (places sizes).length = sizes.sum := by
  unfold places
  rw [List.length_flatMap]
  simp only [List.length_map, List.length_range]
  congr 1
  exact List.zipIdx_map_fst 0 sizes

/-- A map that takes the first numbers to the elements of a list, each to another one, meets all of them. -/
theorem map_range_perm {β : Type} {f : Nat → β} {l : List β} (hmem : ∀ x < l.length, f x ∈ l)
    (hinj : ∀ x < l.length, ∀ y < l.length, f x = f y → x = y) : ((List.range l.length).map f).Perm l := by
  have hnodup : ((List.range l.length).map f).Nodup := by
    refine List.Nodup.map_on ?_ List.nodup_range
    intro x hx y hy
    exact hinj x (List.mem_range.mp hx) y (List.mem_range.mp hy)
  have hsubset : (List.range l.length).map f ⊆ l := by
    intro y hy
    obtain ⟨x, hx, rfl⟩ := List.mem_map.mp hy
    exact hmem x (List.mem_range.mp hx)
  refine (List.subperm_of_subset hnodup hsubset).perm_of_length_le ?_
  rw [List.length_map, List.length_range]

/-! ### Arrays cut along an axis -/

section Arrays

variable {whole idx idx' : List Nat} {axis v d : Nat} {parts : List (List Nat)}

theorem getD_set_self (l : List Nat) (h : axis < l.length) : (l.set axis v).getD axis 0 = v := by
  rw [List.getD_eq_getElem _ _ (by rwa [List.length_set]), List.getElem_set_self]

theorem set_getD_self (l : List Nat) (axis : Nat) : l.set axis (l.getD axis 0) = l := by
  by_cases h : axis < l.length
  · rw [List.getD_eq_getElem _ _ h, List.set_getElem_self]
  · exact List.set_eq_of_length_le (Nat.le_of_not_lt h)

theorem inside_set {dims : List Nat} (h : Inside idx dims) (hv : v < d) (axis : Nat) :
    Inside (idx.set axis v) (dims.set axis d) := by
  induction h generalizing axis with
  | nil => exact .nil
  | cons hlt hrest ih =>
      cases axis with
      | zero => exact .cons hv hrest
      | succ axis => exact .cons hlt (ih axis)

theorem inside_getD {dims : List Nat} (h : Inside idx dims) (haxis : axis < dims.length) :
    idx.getD axis 0 < dims.getD axis 0 := (inside_iff.mp h).2 axis haxis

theorem prod_set (h : axis < whole.length) : (whole.set axis d).prod = d * (whole.eraseIdx axis).prod := by
  induction whole generalizing axis with
  | nil => exact absurd h (Nat.not_lt_zero axis)
  | cons x whole ih =>
      cases axis with
      | zero => rfl
      | succ axis =>
          rw [List.set_cons_succ, List.eraseIdx_cons_succ, List.prod_cons, List.prod_cons,
            ih (Nat.lt_of_succ_lt_succ h), Nat.mul_left_comm]

/-- The extents of the parts on the axis. -/
def extents (axis : Nat) (parts : List (List Nat)) : List Nat := parts.map (·.getD axis 0)

/-- The extents of an array and those of its parts, which differ on the axis only. -/
structure Cut (whole : List Nat) (axis : Nat) (parts : List (List Nat)) : Prop where
  axis_lt : axis < whole.length
  part : ∀ p ∈ parts, p = whole.set axis (p.getD axis 0)
  sum : (extents axis parts).sum = whole.getD axis 0

/-- The index in the array of the element with an index in part `k`. -/
def join (axis : Nat) (sizes : List Nat) (k : Nat) (idx : List Nat) : List Nat :=
  idx.set axis (offset sizes k + idx.getD axis 0)

theorem Cut.getElem?_part (h : Cut whole axis parts) {p : List Nat} (hp : parts[k]? = some p) :
    p = whole.set axis ((extents axis parts).getD k 0) := by
  have hget : (extents axis parts).getD k 0 = p.getD axis 0 := by
    rw [extents, List.getD_eq_getElem?_getD, List.getElem?_map, hp]
    rfl
  rw [hget]
  exact h.part p (List.mem_of_getElem? hp)

/-- The parts have the elements of the array. -/
theorem Cut.sum_prod (h : Cut whole axis parts) : (parts.map List.prod).sum = whole.prod := by
  have hmap : parts.map List.prod = (extents axis parts).map (· * (whole.eraseIdx axis).prod) := by
    rw [extents, List.map_map]
    refine List.map_congr_left fun p hp => ?_
    rw [Function.comp_apply, ← prod_set h.axis_lt, ← h.part p hp]
  rw [hmap, List.sum_map_mul_right, List.map_id', h.sum, ← prod_set h.axis_lt, set_getD_self]

/-- An index of a part has its place in the array. -/
theorem Cut.join_spec (h : Cut whole axis parts) {p : List Nat} (hp : parts[k]? = some p) (hidx : Inside idx p) :
    At (extents axis parts) k (idx.getD axis 0) ((join axis (extents axis parts) k idx).getD axis 0) ∧
      Inside (join axis (extents axis parts) k idx) whole := by
  have hpart := h.getElem?_part hp
  have haxis : axis < p.length := by
    rw [hpart, List.length_set]
    exact h.axis_lt
  have hat : At (extents axis parts) k (idx.getD axis 0) (offset (extents axis parts) k + idx.getD axis 0) := by
    refine ⟨?_, ?_, rfl⟩
    · rw [extents, List.length_map]
      exact (List.getElem?_eq_some_iff.mp hp).1
    · refine (inside_getD hidx haxis).trans_eq ?_
      conv_lhs => rw [hpart]
      exact getD_set_self _ h.axis_lt
  have hlt := hat.lt_sum
  rw [h.sum] at hlt
  refine ⟨?_, ?_⟩
  · rw [join, getD_set_self _ (by rwa [hidx.length_eq])]
    exact hat
  · have hset := inside_set hidx hlt axis
    rwa [hpart, List.set_set, set_getD_self] at hset

/-- An index of the array has its place in a part. -/
theorem Cut.part_spec (h : Cut whole axis parts) {p : List Nat} (hp : parts[k]? = some p) (hidx : Inside idx whole)
    (hat : At (extents axis parts) k i (idx.getD axis 0)) :
    Inside (idx.set axis i) p ∧ join axis (extents axis parts) k (idx.set axis i) = idx := by
  refine ⟨?_, ?_⟩
  · rw [h.getElem?_part hp]
    exact inside_set hidx hat.inside axis
  · rw [join, getD_set_self _ (by rw [hidx.length_eq]; exact h.axis_lt), hat.pos, List.set_set, set_getD_self]

/-- An index of the array comes from one part, and from one index in it. -/
theorem Cut.join_injective (h : Cut whole axis parts) {p p' : List Nat} (hp : parts[k]? = some p)
    (hp' : parts[k']? = some p') (hidx : Inside idx p) (hidx' : Inside idx' p')
    (heq : join axis (extents axis parts) k idx = join axis (extents axis parts) k' idx') : k = k' ∧ idx = idx' := by
  have hat := (h.join_spec hp hidx).1
  have hat' := (h.join_spec hp' hidx').1
  rw [← heq] at hat'
  obtain ⟨rfl, hcoord⟩ := hat.unique hat'
  refine ⟨rfl, ?_⟩
  have hset := congrArg (·.set axis (idx.getD axis 0)) heq
  simp only [join, List.set_set] at hset
  rw [set_getD_self, hcoord, set_getD_self] at hset
  exact hset

end Arrays

end Blocks
end NnEngine
