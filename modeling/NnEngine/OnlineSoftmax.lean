import Mathlib.Tactic
import Mathlib.Algebra.Order.Field.Basic

/-!
# Online softmax

The attention of a row is a mean of the values of its keys, weighted by the softmax of their scores.  A loop
that takes the keys tile by tile keeps the largest score so far, and the sums so far relative to that score;
when the largest score grows, it rescales the sums.

A score is a number or `-∞`, which is `⊥`, and `exp (-∞) = 0`.  As long as all scores are `-∞` there is nothing
to which the sums could be relative; they are zero.
-/

namespace NnEngine
namespace OnlineSoftmax

/-- The laws of an exponential. -/
structure Exponential {α : Type} [Field α] [LinearOrder α] (exp : α → α) : Prop where
  add : ∀ a b, exp (a + b) = exp a * exp b
  pos : ∀ a, 0 < exp a

/-- A key of a row: its score, and the columns of its value. -/
structure Key (α : Type) where
  score : WithBot α
  value : Nat → α

variable {α : Type} [Field α]

/-- `exp s`, with `exp (-∞) = 0`. -/
def weight (exp : α → α) : WithBot α → α
  | ⊥ => 0
  | .some a => exp a

@[simp]
theorem weight_bot (exp : α → α) : weight exp ⊥ = 0 := rfl

/-- The sum of a function of the keys, each with the weight of its score. -/
def mass (exp : α → α) (f : Key α → α) (keys : List (Key α)) : α :=
  (keys.map fun k => weight exp k.score * f k).sum

/-- The softmax of a score among the scores of all keys. -/
def softmax (exp : α → α) (keys : List (Key α)) (s : WithBot α) : α :=
  weight exp s / (keys.map fun k => weight exp k.score).sum

/-- The mean of a function of the keys, weighted by the softmax of their scores. -/
def attend (exp : α → α) (f : Key α → α) (keys : List (Key α)) : α :=
  (keys.map fun k => softmax exp keys k.score * f k).sum

variable {exp : α → α} {f : Key α → α} {keys tile : List (Key α)}

@[simp]
theorem mass_append : mass exp f (keys ++ tile) = mass exp f keys + mass exp f tile := by
  unfold mass
  rw [List.map_append, List.sum_append]

theorem mass_one : mass exp (fun _ => 1) keys = (keys.map fun k => weight exp k.score).sum := by
  simp only [mass, mul_one]

theorem mass_div (c : α) : mass exp f keys / c = (keys.map fun k => weight exp k.score / c * f k).sum := by
  unfold mass
  rw [div_eq_mul_inv, ← List.sum_map_mul_right]
  congr 1
  refine List.map_congr_left fun k _ => ?_
  ring

theorem attend_eq : attend exp f keys = mass exp f keys / mass exp (fun _ => 1) keys := by
  unfold attend softmax
  rw [mass_div, mass_one]

/-- Keys with score `-∞` have no part in a mass. -/
theorem mass_of_bot (h : ∀ k ∈ keys, k.score = ⊥) : mass exp f keys = 0 := by
  refine List.sum_eq_zero fun x hx => ?_
  obtain ⟨k, hk, rfl⟩ := List.mem_map.mp hx
  rw [h k hk, weight_bot, zero_mul]

/-- Further keys with score `-∞` have no part in the mean. -/
theorem attend_append_of_bot (h : ∀ k ∈ tile, k.score = ⊥) :
    attend exp f (keys ++ tile) = attend exp f keys := by
  simp only [attend_eq, mass_append, mass_of_bot h, add_zero]

variable [LinearOrder α]

/-- The largest score. -/
def top (keys : List (Key α)) : WithBot α := (keys.map Key.score).foldl max ⊥

omit [Field α] in
theorem top_append : top (keys ++ tile) = (tile.map Key.score).foldl max (top keys) := by
  unfold top
  rw [List.map_append, List.foldl_append]

omit [Field α] in
theorem foldl_max_eq_bot {l : List (WithBot α)} {m : WithBot α} :
    l.foldl max m = ⊥ ↔ m = ⊥ ∧ ∀ s ∈ l, s = ⊥ := by
  induction l generalizing m with
  | nil => simp
  | cons s l ih => simp only [List.foldl_cons, ih, max_eq_bot, List.forall_mem_cons, and_assoc]

omit [Field α] in
theorem top_eq_bot : top keys = ⊥ ↔ ∀ k ∈ keys, k.score = ⊥ := by
  unfold top
  rw [foldl_max_eq_bot, List.forall_mem_map]
  simp

omit [Field α] in
theorem le_foldl_max {l : List (WithBot α)} {m : WithBot α} : m ≤ l.foldl max m := by
  induction l generalizing m with
  | nil => exact le_rfl
  | cons s l ih => exact (le_max_left m s).trans ih

omit [Field α] in
theorem le_top {k : Key α} (hk : k ∈ keys) : k.score ≤ top keys := by
  obtain ⟨l, l', rfl⟩ := List.append_of_mem hk
  rw [top_append, List.map_cons, List.foldl_cons]
  exact (le_max_right _ _).trans le_foldl_max

omit [Field α] in

/-! ### The first keys of a row -/

/-- The first `n` keys. -/
def firstKeys (key : Nat → Key α) (n : Nat) : List (Key α) := (List.range n).map key

variable {key key' : Nat → Key α} {m n : Nat}

omit [Field α] [LinearOrder α] in
theorem firstKeys_add :
    firstKeys key (m + n) = firstKeys key m ++ (List.range n).map fun j => key (m + j) := by
  unfold firstKeys
  rw [List.range_add, List.map_append, List.map_map]
  rfl

omit [Field α] [LinearOrder α] in
theorem firstKeys_succ : firstKeys key (n + 1) = firstKeys key n ++ [key n] := firstKeys_add

omit [Field α] [LinearOrder α] in
theorem firstKeys_congr (h : ∀ j < n, key j = key' j) : firstKeys key n = firstKeys key' n :=
  List.map_congr_left fun j hj => h j (List.mem_range.mp hj)

omit [Field α] in
theorem top_firstKeys_ne_bot : top (firstKeys key n) ≠ ⊥ ↔ ∃ j < n, (key j).score ≠ ⊥ := by
  rw [Ne, top_eq_bot]
  simp [firstKeys]

omit [LinearOrder α] in
/-- Keys after the first ones that all have score `-∞` may be left out, or added. -/
theorem attend_firstKeys (hle : m ≤ n) (h : ∀ j, m ≤ j → j < n → (key j).score = ⊥) :
    attend exp f (firstKeys key n) = attend exp f (firstKeys key m) := by
  obtain ⟨d, rfl⟩ := Nat.exists_eq_add_of_le hle
  rw [firstKeys_add, attend_append_of_bot]
  intro k hk
  obtain ⟨j, hj, rfl⟩ := List.mem_map.mp hk
  exact h (m + j) (Nat.le_add_right m j) (Nat.add_lt_add_left (List.mem_range.mp hj) m)

/-! ### The loop -/

/-- A mass relative to the largest score. -/
def running (exp : α → α) (f : Key α → α) (keys : List (Key α)) : α :=
  mass exp f keys / weight exp (top keys)

@[simp]
theorem running_nil : running exp f [] = 0 := by simp [running, mass]

theorem running_of_bot (h : top keys = ⊥) : running exp f keys = 0 := by
  unfold running
  rw [mass_of_bot (top_eq_bot.mp h), zero_div]

theorem Exponential.weight_pos (hexp : Exponential exp) {s : WithBot α} (hs : s ≠ ⊥) : 0 < weight exp s := by
  cases s with
  | bot => exact absurd rfl hs
  | coe a => exact hexp.pos a

theorem Exponential.weight_nonneg (hexp : Exponential exp) (s : WithBot α) : 0 ≤ weight exp s := by
  cases s with
  | bot => exact le_rfl
  | coe a => exact (hexp.pos a).le

/-- `exp (a - b)` is a quotient of weights. -/
theorem Exponential.sub (hexp : Exponential exp) (a b : α) : exp (a - b) = exp a / exp b := by
  rw [eq_div_iff (hexp.pos b).ne', ← hexp.add, sub_add_cancel]

/-- The step of the loop: the sums so far are rescaled to the new largest score, and those of the tile are
added. -/
theorem Exponential.running_append (hexp : Exponential exp) :
    running exp f (keys ++ tile) =
      running exp f keys * (weight exp (top keys) / weight exp (top (keys ++ tile))) +
        (tile.map fun k => weight exp k.score / weight exp (top (keys ++ tile)) * f k).sum := by
  rw [← mass_div, running, mass_append, add_div, running]
  congr 1
  by_cases hbot : top keys = ⊥
  · rw [mass_of_bot (top_eq_bot.mp hbot)]
    simp
  · have hpos := hexp.weight_pos hbot
    field_simp

/-- The quotient at the end of the loop. -/
theorem Exponential.running_div (hexp : Exponential exp) (h : top keys ≠ ⊥) :
    running exp f keys / running exp (fun _ => 1) keys = attend exp f keys := by
  rw [attend_eq, running, running, div_div_div_cancel_right₀ (hexp.weight_pos h).ne']

variable [IsStrictOrderedRing α]

theorem Exponential.mass_pos (hexp : Exponential exp) (h : top keys ≠ ⊥) :
    0 < mass exp (fun _ => 1) keys := by
  obtain ⟨k, hk, hscore⟩ : ∃ k ∈ keys, k.score ≠ ⊥ := by
    by_contra hnot
    push Not at hnot
    exact h (top_eq_bot.mpr hnot)
  rw [mass_one]
  refine (hexp.weight_pos hscore).trans_le (List.single_le_sum ?_ _ (List.mem_map_of_mem hk))
  intro x hx
  obtain ⟨k', -, rfl⟩ := List.mem_map.mp hx
  exact hexp.weight_nonneg _

theorem Exponential.running_one_pos (hexp : Exponential exp) (h : top keys ≠ ⊥) :
    0 < running exp (fun _ => 1) keys :=
  div_pos (hexp.mass_pos h) (hexp.weight_pos h)

end OnlineSoftmax
end NnEngine
