import Mathlib.Tactic

/-!
# Sliding windows

Along an axis a window takes a number of places, which lie a dilation apart; from one window to the next it
moves by a stride, and it may reach over both ends of the axis.  What a loop over the places of a window finds
is told by the positions on the axis that the window covers.
-/

namespace NnEngine
namespace SlidingWindow

/-- A window on an axis of `size` positions; the first window begins `pad` positions before the axis. -/
structure Axis where
  size : Nat
  kernel : Nat
  stride : Nat
  dilation : Nat
  pad : Nat
  deriving DecidableEq, Repr

namespace Axis

variable (a : Axis)

/-- Place `k` of window `o`. -/
def place (o k : Nat) : Int := o * a.stride + k * a.dilation - a.pad

/-- The place is on the axis. -/
def Holds (p : Int) : Prop := 0 ≤ p ∧ p < a.size

instance (p : Int) : Decidable (a.Holds p) := inferInstanceAs (Decidable (_ ∧ _))

/-- The positions that window `o` covers. -/
def positions (o : Nat) : Finset Nat := (Finset.range a.size).filter fun i => ∃ k < a.kernel, a.place o k = i

/-- The positions that a loop over the places of window `o` comes to. -/
def visited (o : Nat) : List Nat :=
  (List.range a.kernel).filterMap fun k => if a.Holds (a.place o k) then some (a.place o k).toNat else none

/-- How often the loop comes to a position. -/
def repeats : Nat := if a.dilation = 0 then a.kernel else 1

variable {a} {o i k : Nat}

theorem mem_positions : i ∈ a.positions o ↔ i < a.size ∧ ∃ k < a.kernel, a.place o k = i := by
  unfold positions
  rw [Finset.mem_filter, Finset.mem_range]

theorem mem_visited : i ∈ a.visited o ↔ i ∈ a.positions o := by
  unfold visited
  rw [List.mem_filterMap, mem_positions]
  simp only [List.mem_range, Option.ite_none_right_eq_some, Option.some_inj]
  constructor
  · rintro ⟨k, hk, ⟨hle, hlt⟩, rfl⟩
    exact ⟨by omega, k, hk, by omega⟩
  · rintro ⟨hi, k, hk, hplace⟩
    exact ⟨k, hk, ⟨by omega, by omega⟩, by omega⟩

/-- With a dilation the loop comes to a position once. -/
theorem visited_nodup (h : a.dilation ≠ 0) : (a.visited o).Nodup := by
  refine List.nodup_range.filterMap fun k k' i hk hk' => ?_
  rw [Option.mem_def, Option.ite_none_right_eq_some, Option.some_inj] at hk hk'
  obtain ⟨⟨hle, -⟩, rfl⟩ := hk
  obtain ⟨⟨hle', -⟩, heq⟩ := hk'
  have hplace : a.place o k = a.place o k' := by omega
  unfold place at hplace
  have hmul : k * a.dilation = k' * a.dilation := by zify; omega
  exact Nat.eq_of_mul_eq_mul_right (Nat.pos_of_ne_zero h) hmul

/-- Without one all places are the same. -/
theorem visited_of_dilation_zero (h : a.dilation = 0) :
    a.visited o = [] ∧ a.positions o = ∅ ∨
      ∃ i, a.visited o = List.replicate a.kernel i ∧ (0 < a.kernel → a.positions o = {i}) := by
  have hplace (k : Nat) : a.place o k = a.place o 0 := by simp [place, h]
  by_cases hin : a.Holds (a.place o 0)
  · right
    refine ⟨(a.place o 0).toNat, ?_, fun hkernel => ?_⟩
    · unfold visited
      simp only [hplace, if_pos hin]
      rw [List.filterMap_eq_map', List.map_const', List.length_range]
    · ext i
      rw [mem_positions, Finset.mem_singleton]
      simp only [hplace]
      unfold Holds at hin
      constructor
      · rintro ⟨-, -, -, hi⟩
        omega
      · rintro rfl
        exact ⟨by omega, 0, hkernel, by omega⟩
  · left
    have hnil : a.visited o = [] := by
      unfold visited
      simp only [hplace, if_neg hin]
      exact List.filterMap_eq_nil_iff.mpr fun _ _ => rfl
    refine ⟨hnil, Finset.eq_empty_of_forall_notMem fun i hi => ?_⟩
    have hmem := mem_visited.mpr hi
    rw [hnil] at hmem
    cases hmem

/-- What the loop adds up. -/
theorem sum_visited {M : Type*} [AddCommMonoid M] (g : Nat → M) :
    ((a.visited o).map g).sum = a.repeats • ∑ i ∈ a.positions o, g i := by
  unfold repeats
  split
  · rename_i h
    obtain ⟨hnil, hempty⟩ | ⟨i, hlist, hset⟩ := visited_of_dilation_zero (o := o) h
    · rw [hnil, hempty, Finset.sum_empty, smul_zero]
      rfl
    · rw [hlist, List.map_replicate, List.sum_replicate]
      by_cases hkernel : 0 < a.kernel
      · rw [hset hkernel, Finset.sum_singleton]
      · obtain hzero : a.kernel = 0 := by omega
        rw [hzero, zero_smul, zero_smul]
  · rename_i h
    have hset : (a.visited o).toFinset = a.positions o := by
      ext i
      rw [List.mem_toFinset, mem_visited]
    rw [one_smul, ← hset, List.sum_toFinset g (visited_nodup h)]

theorem length_visited : (a.visited o).length = a.repeats * (a.positions o).card := by
  have hsum := sum_visited (a := a) (o := o) fun _ => 1
  rw [List.map_const', List.sum_replicate, Finset.sum_const] at hsum
  simpa using hsum

theorem repeats_pos (h : 0 < a.kernel) : 0 < a.repeats := by
  unfold repeats
  split
  · exact h
  · exact Nat.one_pos

end Axis

/-! ### Loops over the places of a window of two axes -/

section Sweep

variable {α β : Type*} (step : β → α → β) (init : β)

/-- A loop over rows and columns, which passes over what cannot be read. -/
def sweep (read : Nat → Nat → Option α) (rows cols : Nat) : β :=
  (List.range rows).foldl (fun acc k => (List.range cols).foldl (fun acc l =>
    match read k l with
    | none => acc
    | some x => step acc x) acc) init

variable {step} in
/-- A loop that keeps more than another one. -/
theorem sweep_hom {α' β' : Type*} {step' : β' → α' → β'} (π : β → β') (τ : α → α')
    (h : ∀ acc x, π (step acc x) = step' (π acc) (τ x)) (read : Nat → Nat → Option α) (rows cols : Nat) :
    π (sweep step init read rows cols) = sweep step' (π init) (fun k l => (read k l).map τ) rows cols := by
  unfold sweep
  symm
  refine List.foldl_hom π fun acc k => ?_
  refine List.foldl_hom π fun acc l => ?_
  dsimp only
  cases read k l with
  | none => rfl
  | some x => exact (h acc x).symm

variable (v w : Axis) (o p : Nat)

/-- What a loop finds that reads the positions on both axes, in its order. -/
def found (f : Nat → Nat → α) : List α := (v.visited o).flatMap fun i => (w.visited p).map (f i)

/-- The loop goes through what it finds. -/
theorem sweep_eq_foldl (f : Nat → Nat → α) {read : Nat → Nat → Option α}
    (hread : ∀ k < v.kernel, ∀ l < w.kernel, read k l =
      if v.Holds (v.place o k) ∧ w.Holds (w.place p l) then
        some (f (v.place o k).toNat (w.place p l).toNat)
      else none) :
    sweep step init read v.kernel w.kernel = (found v w o p f).foldl step init := by
  have hinner (k : Nat) (hk : k < v.kernel) (acc : β) :
      (List.range w.kernel).foldl (fun acc l =>
        match read k l with
        | none => acc
        | some x => step acc x) acc =
      if v.Holds (v.place o k) then ((w.visited p).map (f (v.place o k).toNat)).foldl step acc else acc := by
    have hrow : (List.range w.kernel).filterMap (read k) =
        if v.Holds (v.place o k) then (w.visited p).map (f (v.place o k).toNat) else [] := by
      unfold Axis.visited
      split
      · rename_i hin
        rw [List.map_filterMap]
        refine List.filterMap_congr fun l hl => ?_
        rw [hread k hk l (List.mem_range.mp hl)]
        by_cases hcol : w.Holds (w.place p l) <;> simp [hin, hcol]
      · rename_i hout
        refine List.filterMap_eq_nil_iff.mpr fun l hl => ?_
        rw [hread k hk l (List.mem_range.mp hl), if_neg fun h => hout h.1]
    have hfold : ((List.range w.kernel).filterMap (read k)).foldl step acc =
        (List.range w.kernel).foldl (fun acc l =>
          match read k l with
          | none => acc
          | some x => step acc x) acc := by
      rw [List.foldl_filterMap]
      refine congrArg (fun h => List.foldl h acc _) ?_
      funext acc l
      cases read k l <;> rfl
    rw [← hfold, hrow]
    split <;> rfl
  unfold sweep found
  rw [List.foldl_flatMap]
  unfold Axis.visited
  rw [List.foldl_filterMap]
  refine List.foldl_ext _ _ _ fun acc k hk => ?_
  rw [hinner k (List.mem_range.mp hk)]
  split <;> rfl

variable {v w o p}

theorem mem_found {f : Nat → Nat → α} {x : α} :
    x ∈ found v w o p f ↔ ∃ q ∈ v.positions o ×ˢ w.positions p, f q.1 q.2 = x := by
  unfold found
  simp only [List.mem_flatMap, List.mem_map, Axis.mem_visited, Prod.exists, Finset.mem_product]
  constructor
  · rintro ⟨i, hi, j, hj, rfl⟩
    exact ⟨i, j, ⟨hi, hj⟩, rfl⟩
  · rintro ⟨i, j, ⟨hi, hj⟩, rfl⟩
    exact ⟨i, hi, j, hj, rfl⟩

/-- What the loop adds up. -/
theorem sum_found [AddCommMonoid α] (f : Nat → Nat → α) : (found v w o p f).sum =
    (v.repeats * w.repeats) • ∑ q ∈ v.positions o ×ˢ w.positions p, f q.1 q.2 := by
  unfold found
  rw [List.flatMap_def, List.sum_flatten, List.map_map]
  have hrow : (List.sum ∘ fun i => (w.visited p).map (f i)) =
      fun i => w.repeats • ∑ j ∈ w.positions p, f i j := by
    funext i
    exact Axis.sum_visited (f i)
  rw [hrow, Axis.sum_visited, Finset.sum_product, ← Finset.smul_sum, smul_smul]

theorem length_found (f : Nat → Nat → α) : (found v w o p f).length =
    v.repeats * w.repeats * (v.positions o ×ˢ w.positions p).card := by
  unfold found
  rw [List.length_flatMap]
  simp only [List.length_map]
  rw [List.map_const', List.sum_replicate, Axis.length_visited, Axis.length_visited, Finset.card_product,
    smul_eq_mul]
  ring

end Sweep

/-! ### How many windows there are -/

section Windows

namespace Axis

variable (a : Axis)

/-- What lies between the first and the last place of a window, with both ends. -/
def extent : Nat := a.dilation * (a.kernel - 1) + 1

/-- The positions of the axis with `post` more after it and the pad before it. -/
def padded (post : Nat) : Nat := a.size + a.pad + post

variable {a} {post o : Nat}

/-- A window that begins before the end of an axis and reaches over a shorter pad is not empty. -/
theorem positions_nonempty (hdilation : a.dilation = 1) (hkernel : 0 < a.kernel) (hsize : 0 < a.size)
    (hpad : a.pad < a.extent) (h : o * a.stride < a.size + a.pad) : (a.positions o).Nonempty := by
  unfold extent at hpad
  rw [hdilation] at hpad
  have hplace (k : Nat) : a.place o k = o * a.stride + k - a.pad := by simp [place, hdilation]
  by_cases hbefore : o * a.stride < a.pad
  · -- the window begins in the pad, and the first position of the axis is one of its places
    refine ⟨0, mem_positions.mpr ⟨hsize, a.pad - o * a.stride, by omega, ?_⟩⟩
    rw [hplace]
    omega
  · refine ⟨o * a.stride - a.pad, mem_positions.mpr ⟨by omega, 0, hkernel, ?_⟩⟩
    rw [hplace]
    omega

/-- With the quotient rounded down the windows are those that fit. -/
theorem lt_floor_iff (hstride : 0 < a.stride) (hfits : a.extent ≤ a.padded post) :
    o < (a.padded post - a.extent) / a.stride + 1 ↔ o * a.stride + a.extent ≤ a.padded post := by
  rw [Nat.lt_succ_iff, Nat.le_div_iff_mul_le hstride]
  omega

/-- With the quotient rounded up there is a next window as long as one does not reach the end. -/
theorem succ_lt_ceil_iff (hstride : 0 < a.stride) (hfits : a.extent ≤ a.padded post) :
    o + 1 < (a.padded post - a.extent + a.stride - 1) / a.stride + 1 ↔
      o * a.stride + a.extent < a.padded post := by
  rw [Nat.add_lt_add_iff_right, ← Nat.succ_le_iff, Nat.le_div_iff_mul_le hstride, Nat.succ_mul]
  omega

end Axis

end Windows

end SlidingWindow
end NnEngine
