import Mathlib.Algebra.Order.Field.Rat
import Mathlib.Data.Nat.Dist
import Mathlib.Order.Monotone.Basic
import Mathlib.Tactic.Ring

/-!
# Rounding a floating point pattern

The patterns without a sign are the naturals, in the order of their numbers: the fraction below, the exponent
above it.  A shorter format has every `k`-th of them, so rounding to it is a division of patterns.
-/

namespace NnEngine
namespace FloatPattern

variable {f g n j : Nat}

/-- The number of a pattern with `f` fraction bits, counted in the smallest one.  No exponent is the last:
the pattern of infinity has the power of two that follows the finite numbers. -/
def units (f n : Nat) : Nat := if n / 2 ^ f = 0 then n else (2 ^ f + n % 2 ^ f) * 2 ^ (n / 2 ^ f - 1)

/-- What one in the last place of a pattern counts. -/
def lastPlace (f n : Nat) : Nat := 2 ^ (n / 2 ^ f - 1)

theorem lastPlace_pos (f n : Nat) : 0 < lastPlace f n := Nat.two_pow_pos _

/-- The number of a pattern with `f` fraction bits and `w` exponent bits below its sign. -/
def number (f w n : Nat) : ℚ :=
  (if n / 2 ^ (f + w) = 0 then 1 else -1) * (units f (n % 2 ^ (f + w)) * 2 ^ (2 - 2 ^ (w - 1) - f : Int))

/-- The exponent is not that of infinity and the NaNs. -/
def IsFinite (f w n : Nat) : Prop := n % 2 ^ (f + w) < 2 ^ f * (2 ^ w - 1)

instance (f w n : Nat) : Decidable (IsFinite f w n) := inferInstanceAs (Decidable (_ < _))

/-- Zeros behind a fraction. -/
theorem units_mul (f g n : Nat) : units (f + g) (2 ^ g * n) = 2 ^ g * units f n := by
  have hpow : 2 ^ (f + g) = 2 ^ g * 2 ^ f := by rw [Nat.add_comm, Nat.pow_add]
  unfold units
  rw [hpow, Nat.mul_div_mul_left _ _ (Nat.two_pow_pos g), Nat.mul_mod_mul_left]
  split
  · rfl
  · ring

/-- Patterns count evenly up to the next exponent. -/
theorem units_add (h : n % 2 ^ f + j ≤ 2 ^ f) : units f (n + j) = units f n + j * lastPlace f n := by
  have hpos := Nat.two_pow_pos f
  have hsplit := Nat.div_add_mod n (2 ^ f)
  unfold units lastPlace
  generalize n / 2 ^ f = e at hsplit ⊢
  generalize n % 2 ^ f = m at h hsplit ⊢
  subst hsplit
  rcases Nat.lt_or_eq_of_le h with hlt | heq
  · have hdiv : (2 ^ f * e + m + j) / 2 ^ f = e := by
      rw [Nat.add_assoc, Nat.mul_add_div hpos, Nat.div_eq_of_lt hlt, Nat.add_zero]
    have hmod : (2 ^ f * e + m + j) % 2 ^ f = m + j := by
      rw [Nat.add_assoc, Nat.mul_add_mod, Nat.mod_eq_of_lt hlt]
    rw [hdiv, hmod]
    split
    · simp [*]
    · ring
  · -- the next exponent begins with a fraction of zero
    have hnext : 2 ^ f * e + m + j = 2 ^ f * (e + 1) := by rw [Nat.add_assoc, heq]; ring
    rw [hnext, Nat.mul_div_cancel_left _ hpos, Nat.mul_mod_right, if_neg (Nat.succ_ne_zero e)]
    cases e with
    | zero => simp; omega
    | succ e =>
        rw [if_neg (Nat.succ_ne_zero e), Nat.add_zero, ← heq]
        simp only [Nat.add_sub_cancel, Nat.pow_succ]
        ring

theorem units_strictMono (f : Nat) : StrictMono (units f) := by
  apply strictMono_nat_of_lt_succ
  intro n
  rw [units_add (Nat.mod_lt n (Nat.two_pow_pos f))]
  have hpos := lastPlace_pos f n
  omega

theorem units_eq_zero_iff : units f n = 0 ↔ n = 0 := by
  have hzero : units f 0 = 0 := by simp [units]
  constructor
  · intro h
    exact (units_strictMono f).injective (h.trans hzero.symm)
  · rintro rfl
    exact hzero

/-- A pattern `k` exponents higher. -/
theorem units_exponent (h : 2 ^ f ≤ n) (k : Nat) : units f (2 ^ f * k + n) = 2 ^ k * units f n := by
  have hdiv : 1 ≤ n / 2 ^ f := Nat.div_pos h (Nat.two_pow_pos f)
  unfold units
  rw [Nat.mul_add_div (Nat.two_pow_pos f), Nat.mul_add_mod, if_neg (by omega), if_neg (by omega),
    show k + n / 2 ^ f - 1 = k + (n / 2 ^ f - 1) by omega, Nat.pow_add]
  ring

/-- Zeros behind a fraction do not change the number. -/
theorem number_mul (f g w n : Nat) : number (f + g) w (2 ^ g * n) = number f w n := by
  have hpow : 2 ^ (f + g + w) = 2 ^ g * 2 ^ (f + w) := by
    rw [← Nat.pow_add]
    congr 1
    omega
  have hexp : (2 - 2 ^ (w - 1) - f : Int) = g + (2 - 2 ^ (w - 1) - (f + g : Nat)) := by push_cast; ring
  unfold number
  rw [hpow, Nat.mul_div_mul_left _ _ (Nat.two_pow_pos g), Nat.mul_mod_mul_left, units_mul, hexp,
    zpow_add₀ two_ne_zero, zpow_natCast]
  push_cast
  ring

theorem isFinite_mul (f g w n : Nat) : IsFinite (f + g) w (2 ^ g * n) ↔ IsFinite f w n := by
  have hpow : 2 ^ (f + g + w) = 2 ^ g * 2 ^ (f + w) := by
    rw [← Nat.pow_add]
    congr 1
    omega
  unfold IsFinite
  rw [hpow, Nat.mul_mod_mul_left, Nat.pow_add 2 f g, Nat.mul_comm (2 ^ f), Nat.mul_assoc]
  exact Nat.mul_lt_mul_left (Nat.two_pow_pos g)

/-! ### The nearest on a grid -/

section NearestEven

variable {v : Nat → Nat} {k w x c d q r : Nat}

/-- Of the multiples of `k`, the one that `c` counts has the number nearest to that of `x`, and `c` is even
if another is as near. -/
def NearestEven (v : Nat → Nat) (k x c : Nat) : Prop :=
  ∀ c', Nat.dist (v x) (v (k * c)) ≤ Nat.dist (v x) (v (k * c')) ∧
    (Nat.dist (v x) (v (k * c)) = Nat.dist (v x) (v (k * c')) → c' = c ∨ c % 2 = 0)

/-- The quotient, rounded to the nearest, to an even one from the middle. -/
def rounded (k x : Nat) : Nat := x / k + if 2 * (x % k) < k ∨ 2 * (x % k) = k ∧ x / k % 2 = 0 then 0 else 1

theorem NearestEven.unique (hv : StrictMono v) (hk : 0 < k) (hc : NearestEven v k x c) (hd : NearestEven v k x d) :
    c = d := by
  wlog hlt : c < d generalizing c d
  · rcases Nat.lt_or_eq_of_le (Nat.not_lt.mp hlt) with hgt | heq
    · exact (this hd hc hgt).symm
    · exact heq.symm
  · have hsame := Nat.le_antisymm (hc d).1 (hd c).1
    have heven : c % 2 = 0 := ((hc d).2 hsame).resolve_left (by omega)
    have heven' : d % 2 = 0 := ((hd c).2 hsame.symm).resolve_left (by omega)
    -- the odd one between the two is nearer than they are
    have hbetween := (hc (c + 1)).1
    have hbelow := hv (Nat.mul_lt_mul_of_pos_left (Nat.lt_succ_self c) hk)
    have habove := hv (Nat.mul_lt_mul_of_pos_left (show c + 1 < d by omega) hk)
    simp only [Nat.dist, Nat.succ_eq_add_one] at hsame hbetween hbelow habove
    omega

/-- Between two neighbours whose distance is divided evenly, the middle decides. -/
theorem nearestEven_of_even (hv : StrictMono v) (hw : 0 < w) (hr : r < k)
    (hlow : v (k * q + r) = v (k * q) + r * w) (hhigh : v (k * q + k) = v (k * q) + k * w) :
    NearestEven v k (k * q + r) (q + if 2 * r < k ∨ 2 * r = k ∧ q % 2 = 0 then 0 else 1) := by
  have hk : 0 < k := by omega
  have hin : r * w < k * w := Nat.mul_lt_mul_of_pos_right hr hw
  have hbelow : 2 * r < k → 2 * (r * w) < k * w := fun h => by
    have := Nat.mul_lt_mul_of_pos_right h hw
    rwa [Nat.mul_assoc] at this
  have hmiddle : 2 * r = k → 2 * (r * w) = k * w := fun h => by rw [← h, Nat.mul_assoc]
  have habove : k < 2 * r → k * w < 2 * (r * w) := fun h => by
    have := Nat.mul_lt_mul_of_pos_right h hw
    rwa [Nat.mul_assoc] at this
  rw [← Nat.mul_succ] at hhigh
  intro c'
  have hleft : c' < q → v (k * c') < v (k * q) := fun h => hv (Nat.mul_lt_mul_of_pos_left h hk)
  have hright : q + 1 < c' → v (k * (q + 1)) < v (k * c') := fun h => hv (Nat.mul_lt_mul_of_pos_left h hk)
  have hq : c' = q → v (k * c') = v (k * q) := fun h => by rw [h]
  have hq' : c' = q + 1 → v (k * c') = v (k * (q + 1)) := fun h => by rw [h]
  rw [hlow]
  simp only [Nat.succ_eq_add_one] at hhigh
  split
  · simp only [Nat.dist, Nat.add_zero]
    omega
  · simp only [Nat.dist, hhigh]
    omega

end NearestEven

/-- A multiple of a smaller power of two stays below the next exponent up to the next multiple. -/
theorem mod_add_pow_le (hg : g ≤ f) (q : Nat) : 2 ^ g * q % 2 ^ f + 2 ^ g ≤ 2 ^ f := by
  obtain ⟨d, rfl⟩ := Nat.exists_eq_add_of_le hg
  rw [Nat.pow_add, Nat.mul_mod_mul_left]
  have hlt := Nat.mod_lt q (Nat.two_pow_pos d)
  calc 2 ^ g * (q % 2 ^ d) + 2 ^ g = 2 ^ g * (q % 2 ^ d + 1) := by ring
    _ ≤ 2 ^ g * 2 ^ d := Nat.mul_le_mul_left _ hlt

/-- Rounding to a format with fewer fraction bits is rounding the quotient of the pattern. -/
theorem nearestEven_rounded (hg : g ≤ f) (x : Nat) : NearestEven (units f) (2 ^ g) x (rounded (2 ^ g) x) := by
  have hlt := Nat.mod_lt x (Nat.two_pow_pos g)
  have hblock := mod_add_pow_le hg (x / 2 ^ g)
  have hnear := nearestEven_of_even (units_strictMono f) (lastPlace_pos f _) hlt
    (units_add (by omega)) (units_add hblock)
  rwa [Nat.div_add_mod] at hnear

theorem nearestEven_iff (hg : g ≤ f) (x c : Nat) : NearestEven (units f) (2 ^ g) x c ↔ c = rounded (2 ^ g) x := by
  constructor
  · intro h
    exact h.unique (units_strictMono f) (Nat.two_pow_pos g) (nearestEven_rounded hg x)
  · rintro rfl
    exact nearestEven_rounded hg x

/-- With all its fraction bits a number is moved by half a last place of the shorter format at most, and does not
leave its exponent downwards. -/
theorem rounded_error (hg : g ≤ f) (hn : 2 ^ f ≤ n) :
    ∃ least, 0 < least ∧ least ≤ units f n ∧ least ≤ units f (2 ^ g * rounded (2 ^ g) n) ∧
      2 ^ (f - g + 1) * Nat.dist (units f n) (units f (2 ^ g * rounded (2 ^ g) n)) ≤ least := by
  have hpos := Nat.two_pow_pos g
  have hlt := Nat.mod_lt n hpos
  have hsplit := Nat.div_add_mod n (2 ^ g)
  have hblock := mod_add_pow_le hg (n / 2 ^ g)
  have hhere := units_add (f := f) (n := 2 ^ g * (n / 2 ^ g)) (j := n % 2 ^ g) (by omega)
  have hnext := units_add hblock
  rw [hsplit] at hhere
  rw [← Nat.mul_succ, Nat.succ_eq_add_one] at hnext
  have hexp : 1 ≤ 2 ^ g * (n / 2 ^ g) / 2 ^ f := by
    obtain ⟨d, rfl⟩ := Nat.exists_eq_add_of_le hg
    have hle : 2 ^ d ≤ n / 2 ^ g := by
      rw [Nat.le_div_iff_mul_le hpos, ← Nat.pow_add, Nat.add_comm]
      exact hn
    rw [Nat.pow_add, Nat.mul_div_mul_left _ _ hpos]
    exact Nat.div_pos hle (Nat.two_pow_pos d)
  have hleast : 2 ^ f * lastPlace f (2 ^ g * (n / 2 ^ g)) ≤ units f (2 ^ g * (n / 2 ^ g)) := by
    unfold units lastPlace
    rw [if_neg (by omega)]
    exact Nat.mul_le_mul_right _ (Nat.le_add_right _ _)
  have hplace := lastPlace_pos f (2 ^ g * (n / 2 ^ g))
  have hscale : 2 ^ (f - g + 1) * 2 ^ g = 2 * 2 ^ f := by
    rw [← Nat.pow_add, Nat.mul_comm, ← Nat.pow_succ]
    congr 1
    omega
  generalize lastPlace f (2 ^ g * (n / 2 ^ g)) = place at *
  refine ⟨2 ^ f * place, Nat.mul_pos (Nat.two_pow_pos f) hplace, by omega, ?_, ?_⟩
  · unfold rounded
    split
    · rwa [Nat.add_zero]
    · omega
  · -- twice the distance is a block of the shorter format at most
    have hdist : 2 * Nat.dist (units f n) (units f (2 ^ g * rounded (2 ^ g) n)) ≤ 2 ^ g * place := by
      unfold rounded
      split
      · rename_i hdown
        have hlow : 2 * (n % 2 ^ g) ≤ 2 ^ g := by omega
        have hmul := Nat.mul_le_mul_right place hlow
        rw [Nat.mul_assoc] at hmul
        rw [Nat.add_zero, hhere, Nat.dist]
        omega
      · rename_i hup
        have hhigh : 2 ^ g ≤ 2 * (n % 2 ^ g) := by omega
        have hmul := Nat.mul_le_mul_right place hhigh
        have hle := Nat.mul_le_mul_right place hlt.le
        rw [Nat.mul_assoc] at hmul
        rw [hhere, hnext, Nat.dist]
        omega
    have hmul := Nat.mul_le_mul_left (2 ^ (f - g + 1)) hdist
    rw [← Nat.mul_assoc _ (2 ^ g), hscale, Nat.mul_left_comm, Nat.mul_assoc] at hmul
    exact Nat.le_of_mul_le_mul_left hmul Nat.two_pos

end FloatPattern
end NnEngine
