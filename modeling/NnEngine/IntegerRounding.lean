import Mathlib.Algebra.Order.Floor.Ring
import Mathlib.Algebra.Order.Round
import Mathlib.Tactic

/-!
# Rounding to an integer

To the nearest integer, and from the middle either away from zero or to the even one.  The two differ at the
middles whose neighbour towards zero is even.
-/

namespace NnEngine

theorem atLeastTwo_two : Nat.AtLeastTwo 2 := inferInstance
theorem atLeastTwo_three : Nat.AtLeastTwo 3 := inferInstance
theorem atLeastTwo_127 : Nat.AtLeastTwo 127 := inferInstance

namespace IntegerRounding

variable {α : Type} [Field α] [LinearOrder α] [IsStrictOrderedRing α] [FloorRing α] {x : α} {n : ℤ}

/-- `round`, of C and of Rust. -/
def roundAway (x : α) : ℤ := if 0 ≤ x then ⌊x + 1 / 2⌋ else -⌊-x + 1 / 2⌋

/-- `nearbyint` in the default rounding mode. -/
def roundEven (x : α) : ℤ :=
  if x - ⌊x⌋ < 1 / 2 then ⌊x⌋
  else if 1 / 2 < x - ⌊x⌋ then ⌊x⌋ + 1
  else if Even ⌊x⌋ then ⌊x⌋ else ⌊x⌋ + 1

/-- Conversion to an integer: towards zero. -/
def truncate (x : α) : ℤ := if 0 ≤ x then ⌊x⌋ else ⌈x⌉

/-- The middle between an even integer and the next one further from zero. -/
def IsEvenMiddle (x : α) : Prop := ∃ j : ℕ, |x| = 2 * j + 1 / 2

theorem near_or_middle (x : α) : (∃ n : ℤ, |x - n| < 1 / 2) ∨ ∃ n : ℤ, x = n + 1 / 2 := by
  have hle := Int.floor_le x
  have hlt := Int.lt_floor_add_one x
  rcases lt_trichotomy (x - ⌊x⌋) (1 / 2) with h | h | h
  · exact .inl ⟨⌊x⌋, by rw [abs_lt]; constructor <;> linarith⟩
  · exact .inr ⟨⌊x⌋, by linarith⟩
  · refine .inl ⟨⌊x⌋ + 1, ?_⟩
    rw [abs_lt]
    push_cast
    constructor <;> linarith

theorem roundAway_of_near (h : |x - n| < 1 / 2) : roundAway x = n := by
  rw [abs_lt] at h
  unfold roundAway
  split
  · rw [Int.floor_eq_iff]
    constructor <;> linarith
  · have hfloor : ⌊-x + 1 / 2⌋ = -n := by
      rw [Int.floor_eq_iff]
      push_cast
      constructor <;> linarith
    rw [hfloor, neg_neg]

theorem roundEven_of_near (h : |x - n| < 1 / 2) : roundEven x = n := by
  rw [abs_lt] at h
  rcases le_or_gt (n : α) x with hx | hx
  · have hfloor : ⌊x⌋ = n := by
      rw [Int.floor_eq_iff]
      constructor <;> linarith
    rw [roundEven, hfloor, if_pos (by linarith)]
  · have hfloor : ⌊x⌋ = n - 1 := by
      rw [Int.floor_eq_iff]
      push_cast
      constructor <;> linarith
    rw [roundEven, hfloor, if_neg (by push_cast; linarith), if_pos (by push_cast; linarith)]
    omega

theorem roundAway_middle (n : ℤ) : roundAway ((n : α) + 1 / 2) = if 0 ≤ n then n + 1 else n := by
  unfold roundAway
  by_cases hn : 0 ≤ n
  · have hn' : (0 : α) ≤ n := by exact_mod_cast hn
    rw [if_pos (by linarith), if_pos hn, Int.floor_eq_iff]
    push_cast
    constructor <;> linarith
  · have hn' : (n : α) + 1 ≤ 0 := by
      have hle : n + 1 ≤ 0 := by omega
      exact_mod_cast hle
    have hfloor : ⌊-((n : α) + 1 / 2) + 1 / 2⌋ = -n := by
      rw [Int.floor_eq_iff]
      push_cast
      constructor <;> linarith
    rw [if_neg (by linarith), if_neg hn, hfloor, neg_neg]

theorem roundEven_middle (n : ℤ) : roundEven ((n : α) + 1 / 2) = if Even n then n else n + 1 := by
  have hfloor : ⌊(n : α) + 1 / 2⌋ = n := by
    rw [Int.floor_eq_iff]
    constructor <;> linarith
  rw [roundEven, hfloor, if_neg (by linarith), if_neg (by linarith)]

theorem abs_roundAway_sub_le (x : α) : |(roundAway x : α) - x| ≤ 1 / 2 := by
  obtain ⟨n, h⟩ | ⟨n, rfl⟩ := near_or_middle x
  · rw [roundAway_of_near h, abs_sub_comm]
    exact h.le
  · rw [roundAway_middle, abs_le]
    split
    · push_cast
      constructor <;> linarith
    · constructor <;> linarith

theorem abs_roundEven_sub_le (x : α) : |(roundEven x : α) - x| ≤ 1 / 2 := by
  obtain ⟨n, h⟩ | ⟨n, rfl⟩ := near_or_middle x
  · rw [roundEven_of_near h, abs_sub_comm]
    exact h.le
  · rw [roundEven_middle, abs_le]
    split
    · constructor <;> linarith
    · push_cast
      constructor <;> linarith

theorem isEvenMiddle_middle (n : ℤ) : IsEvenMiddle ((n : α) + 1 / 2) ↔ (0 ≤ n ↔ Even n) := by
  unfold IsEvenMiddle
  by_cases hn : 0 ≤ n
  · have hn' : (0 : α) ≤ n := by exact_mod_cast hn
    rw [abs_of_nonneg (by linarith)]
    simp only [hn, true_iff, add_left_inj]
    constructor
    · rintro ⟨j, hj⟩
      have hj' : n = 2 * j := by exact_mod_cast hj
      exact ⟨j, by omega⟩
    · rintro ⟨k, rfl⟩
      obtain ⟨j, rfl⟩ := Int.eq_ofNat_of_zero_le (by omega : 0 ≤ k)
      exact ⟨j, by push_cast; ring⟩
  · have hn' : (n : α) + 1 ≤ 0 := by
      have hle : n + 1 ≤ 0 := by omega
      exact_mod_cast hle
    rw [abs_of_neg (by linarith)]
    simp only [hn, false_iff]
    constructor
    · rintro ⟨j, hj⟩ ⟨k, rfl⟩
      have hj' : -(k + k) - 1 = 2 * (j : ℤ) := by
        have hcast : -((k : α) + k) - 1 = 2 * j := by
          push_cast at hj
          linarith
        exact_mod_cast hcast
      omega
    · intro hodd
      obtain ⟨k, rfl⟩ := Int.not_even_iff_odd.mp hodd
      obtain ⟨j, hj⟩ := Int.eq_ofNat_of_zero_le (by omega : 0 ≤ -k - 1)
      refine ⟨j, ?_⟩
      have hcast : -(k : α) - 1 = j := by exact_mod_cast hj
      push_cast
      linarith

/-- The two roundings differ only at such middles. -/
theorem roundAway_eq_roundEven_iff (x : α) : roundAway x = roundEven x ↔ ¬IsEvenMiddle x := by
  obtain ⟨n, h⟩ | ⟨n, rfl⟩ := near_or_middle x
  · rw [roundAway_of_near h, roundEven_of_near h]
    simp only [true_iff]
    rintro ⟨j, hj⟩
    -- no integer is strictly between two that follow each other
    rw [abs_lt] at h
    rcases abs_eq_abs.mp (hj.trans (abs_of_nonneg (by positivity)).symm) with rfl | rfl
    · have h1 : (2 * j : ℤ) < n := by
        have hlt : (2 * j : α) < n := by linarith
        exact_mod_cast hlt
      have h2 : n < (2 * j + 1 : ℤ) := by
        have hlt : (n : α) < 2 * j + 1 := by linarith
        exact_mod_cast hlt
      omega
    · have h1 : -(2 * j + 1 : ℤ) < n := by
        have hlt : -(2 * j + 1 : α) < n := by linarith
        exact_mod_cast hlt
      have h2 : n < -(2 * j : ℤ) := by
        have hlt : (n : α) < -(2 * j) := by linarith
        exact_mod_cast hlt
      omega
  · rw [roundAway_middle, roundEven_middle, isEvenMiddle_middle]
    by_cases hn : 0 ≤ n <;> by_cases heven : Even n <;> simp [hn, heven]

theorem not_isEvenMiddle_int (n : ℤ) : ¬IsEvenMiddle (n : α) := by
  have hnear : |(n : α) - n| < 1 / 2 := by norm_num
  rw [← roundAway_eq_roundEven_iff, roundAway_of_near hnear, roundEven_of_near hnear]

/-- Half a unit away from zero, and then towards zero. -/
theorem truncate_half (x : α) : truncate (x + if 0 ≤ x then 1 / 2 else -(1 / 2)) = roundAway x := by
  unfold truncate roundAway
  by_cases hx : 0 ≤ x
  · rw [if_pos hx, if_pos (by linarith), if_pos hx]
  · have hneg : ¬(0 : α) ≤ x + -(1 / 2) := by linarith
    rw [if_neg hx, if_neg hneg, if_neg hx, ← Int.ceil_neg]
    congr 1
    ring

/-- No rounding leaves an interval of integers. -/
theorem abs_le_of_near {m : ℤ} (hx : |x| ≤ m) (h : |(n : α) - x| ≤ 1 / 2) : |n| ≤ m := by
  have hlt : ((|n| : ℤ) : α) < ((m + 1 : ℤ) : α) := by
    push_cast
    have htri := abs_sub_abs_le_abs_sub (n : α) x
    linarith
  exact Int.lt_add_one_iff.mp (by exact_mod_cast hlt)

end IntegerRounding
end NnEngine
