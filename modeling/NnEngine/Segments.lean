import Mathlib.Tactic

/-!
# Code in segments

Positions in a program that is laid out segment after segment, and counting by positions.
-/

namespace NnEngine
namespace Segments

variable {α β : Type} {segs : List (List α)} {seg : List α} {i j k q : Nat} {x : α}

/-- Where a segment starts. -/
def start (segs : List (List α)) (i : Nat) : Nat := (segs.take i).flatten.length

@[simp] theorem start_zero : start segs 0 = 0 := by simp [start]

theorem start_succ (h : segs[i]? = some seg) : start segs (i + 1) = start segs i + seg.length := by
  obtain ⟨hi, rfl⟩ := List.getElem?_eq_some_iff.mp h
  rw [start, start, List.take_succ_eq_append_getElem hi, List.flatten_append, List.length_append]
  simp

theorem start_mono (h : i ≤ j) : start segs i ≤ start segs j := by
  unfold start
  apply List.Sublist.length_le
  exact (List.take_sublist_take_left h).flatten

/-- A segment that is not empty ends after its start. -/
theorem start_lt (h : segs[i]? = some seg) (hk : k < seg.length) (hij : i < j) :
    start segs i + k < start segs j := by
  have hnext := start_succ h
  have hle : start segs (i + 1) ≤ start segs j := start_mono hij
  omega

theorem getElem?_start_add (h : segs[i]? = some seg) (hk : k < seg.length) :
    segs.flatten[start segs i + k]? = seg[k]? := by
  obtain ⟨hi, rfl⟩ := List.getElem?_eq_some_iff.mp h
  have hsplit : segs.flatten = (segs.take i).flatten ++ (segs[i] ++ (segs.drop (i + 1)).flatten) := by
    rw [← List.flatten_cons, List.getElem_cons_drop, ← List.flatten_append, List.take_append_drop]
  rw [hsplit, start, List.getElem?_append_right (Nat.le_add_right _ _), Nat.add_sub_cancel_left,
    List.getElem?_append_left hk]

/-- Every position is in a segment. -/
theorem exists_segment (h : segs.flatten[q]? = some x) :
    ∃ i seg k, segs[i]? = some seg ∧ seg[k]? = some x ∧ q = start segs i + k := by
  induction segs generalizing q with
  | nil => simp at h
  | cons s segs ih =>
      rw [List.flatten_cons] at h
      by_cases hq : q < s.length
      · rw [List.getElem?_append_left hq] at h
        exact ⟨0, s, q, rfl, h, by simp⟩
      · rw [List.getElem?_append_right (Nat.le_of_not_lt hq)] at h
        obtain ⟨i, seg, k, hi, hk, heq⟩ := ih h
        refine ⟨i + 1, seg, k, hi, hk, ?_⟩
        have hstart : start (s :: segs) (i + 1) = s.length + start segs i := by simp [start]
        omega

/-! ### Counting by positions -/

/-- The positions of the elements with a property. -/
def positions (l : List α) (p : α → Bool) : Set Nat := {i | ∃ x, l[i]? = some x ∧ p x = true}

theorem positions_append_singleton (l : List α) (a : α) (p : α → Bool) :
    positions (l ++ [a]) p = if p a then insert l.length (positions l p) else positions l p := by
  have hmem : ∀ i, i ∈ positions (l ++ [a]) p ↔
      i ∈ positions l p ∨ i = l.length ∧ p a = true := by
    intro i
    simp only [positions, Set.mem_ofPred_eq, List.getElem?_append]
    constructor
    · rintro ⟨x, hx, hp⟩
      split at hx
      · exact Or.inl ⟨x, hx, hp⟩
      · obtain ⟨hi, rfl⟩ : i - l.length = 0 ∧ a = x := by
          cases hd : i - l.length with
          | zero => simpa [hd] using hx
          | succ n => simp [hd] at hx
        exact Or.inr ⟨by omega, hp⟩
    · rintro (⟨x, hx, hp⟩ | ⟨rfl, hp⟩)
      · have hlt := (List.getElem?_eq_some_iff.mp hx).1
        exact ⟨x, by rw [if_pos hlt]; exact hx, hp⟩
      · exact ⟨a, by simp, hp⟩
  ext i
  split
  · rename_i hp
    rw [hmem, Set.mem_insert_iff]
    tauto
  · rename_i hp
    rw [hmem]
    tauto

theorem encard_positions (l : List α) (p : α → Bool) : (positions l p).encard = l.countP p := by
  induction l using List.reverseRecOn with
  | nil => simp [positions]
  | append_singleton l a ih =>
      rw [positions_append_singleton, List.countP_append, List.countP_singleton]
      split
      · have hnew : l.length ∉ positions l p := by
          rintro ⟨x, hx, -⟩
          simp at hx
        rw [Set.encard_insert_of_notMem hnew, ih]
        push_cast
        rfl
      · simpa using ih

/-- Positions that correspond one to one are as many. -/
theorem countP_eq_of_bijOn {l : List α} {l' : List β} {p : α → Bool} {p' : β → Bool} {f : Nat → Nat}
    (h : Set.BijOn f (positions l p) (positions l' p')) : l.countP p = l'.countP p' := by
  have hcard := h.injOn.encard_image
  rw [h.image_eq, encard_positions, encard_positions] at hcard
  exact_mod_cast hcard.symm

/-- A property that is counted once has one position. -/
theorem position_unique {l : List α} {p : α → Bool} (h : l.countP p ≤ 1) (hi : i ∈ positions l p)
    (hj : j ∈ positions l p) : i = j := by
  have hle : (positions l p).encard ≤ 1 := by
    rw [encard_positions]
    exact_mod_cast h
  exact Set.encard_le_one_iff.mp hle i j hi hj

end Segments
end NnEngine
