import Mathlib.Algebra.BigOperators.Group.Finset.Basic
import Mathlib.Algebra.Order.Field.Basic
import Mathlib.Tactic

/-!
# Exact arithmetic with infinities

The numbers of a field, two infinities and a not-a-number, with the rules of floating-point arithmetic but
without rounding.  Both zeros are one, and a quotient by it has the sign of the dividend.
-/

namespace NnEngine

inductive Number (α : Type)
  | nan
  | negInf
  | num (a : α)
  | posInf
deriving DecidableEq, Repr

namespace Number

variable {α : Type}

/-- `fmax`: of a number and a not-a-number, the number. -/
def max [LinearOrder α] : Number α → Number α → Number α
  | nan, y => y
  | x, nan => x
  | posInf, _ | _, posInf => posInf
  | negInf, y => y
  | x, negInf => x
  | num a, num b => num (Max.max a b)

section Max

variable [LinearOrder α]

instance : Std.Commutative (max : Number α → Number α → Number α) where
  comm x y := by cases x <;> cases y <;> simp [max, max_comm]

instance : Std.Associative (max : Number α → Number α → Number α) where
  assoc x y z := by cases x <;> cases y <;> cases z <;> simp [max, max_assoc]

theorem max_negInf_self : max (negInf : Number α) negInf = negInf := rfl

end Max

section Field

variable [Field α] [LinearOrder α]

def add : Number α → Number α → Number α
  | nan, _ | _, nan | posInf, negInf | negInf, posInf => nan
  | posInf, _ | _, posInf => posInf
  | negInf, _ | _, negInf => negInf
  | num a, num b => num (a + b)

def neg : Number α → Number α
  | nan => nan
  | negInf => posInf
  | num a => num (-a)
  | posInf => negInf

/-- An infinity with the sign of a number, and not-a-number for zero. -/
def infOf (a : α) : Number α := if 0 < a then posInf else if a < 0 then negInf else nan

def mul : Number α → Number α → Number α
  | nan, _ | _, nan => nan
  | num a, num b => num (a * b)
  | num a, posInf | posInf, num a => infOf a
  | num a, negInf | negInf, num a => (infOf a).neg
  | posInf, posInf | negInf, negInf => posInf
  | posInf, negInf | negInf, posInf => negInf

def div : Number α → Number α → Number α
  | nan, _ | _, nan => nan
  | num a, num b => if b = 0 then infOf a else num (a / b)
  | num _, posInf | num _, negInf => num 0
  | posInf, num b => if b < 0 then negInf else posInf
  | negInf, num b => if b < 0 then posInf else negInf
  | posInf, posInf | posInf, negInf | negInf, posInf | negInf, negInf => nan

/-- An exponential, with its limits. -/
def exp (exp : α → α) : Number α → Number α
  | nan => nan
  | negInf => num 0
  | num a => num (exp a)
  | posInf => posInf

def sqrt (sqrt : α → α) : Number α → Number α
  | nan | negInf => nan
  | num a => if a < 0 then nan else num (sqrt a)
  | posInf => posInf

instance : Add (Number α) := ⟨add⟩
instance : Sub (Number α) := ⟨fun x y => add x (neg y)⟩
instance : Mul (Number α) := ⟨mul⟩
instance : Div (Number α) := ⟨div⟩
instance : Zero (Number α) := ⟨num 0⟩

omit [LinearOrder α] in
@[simp]
theorem num_add (a b : α) : (num a + num b : Number α) = num (a + b) := rfl

omit [LinearOrder α] in
@[simp]
theorem num_sub (a b : α) : (num a - num b : Number α) = num (a - b) := congrArg num (sub_eq_add_neg a b).symm

@[simp]
theorem num_mul (a b : α) : (num a * num b : Number α) = num (a * b) := rfl

theorem num_div (a : α) {b : α} (hb : b ≠ 0) : (num a / num b : Number α) = num (a / b) := if_neg hb

theorem zero_div_zero : (num 0 / num 0 : Number α) = nan := by
  change div (num 0) (num 0) = nan
  simp [div, infOf]

/-- The sums do not depend on an order: not-a-number, or both infinities, or the sum of the numbers. -/
instance : AddCommMonoid (Number α) where
  add_assoc x y z := by
    change add (add x y) z = add x (add y z)
    cases x <;> cases y <;> cases z <;> simp [add, add_assoc]
  zero_add x := by
    change add (num 0) x = x
    cases x <;> simp [add]
  add_zero x := by
    change add x (num 0) = x
    cases x <;> simp [add]
  add_comm x y := by
    change add x y = add y x
    cases x <;> cases y <;> simp [add, add_comm]
  nsmul := nsmulRec

/-- The numbers of the field, as a part of the monoid. -/
def numHom : α →+ Number α where
  toFun := num
  map_zero' := rfl
  map_add' a b := (num_add a b).symm

omit [LinearOrder α] in
theorem sum_num (s : Finset ℕ) (f : ℕ → α) : ∑ i ∈ s, (num (f i) : Number α) = num (∑ i ∈ s, f i) :=
  (map_sum (numHom : α →+ Number α) f s).symm

/-! ### Comparisons -/

/-- The number is at least `c`. -/
def AtLeast (c : α) : Number α → Prop
  | num a => c ≤ a
  | posInf => True
  | nan | negInf => False

omit [Field α] in
theorem atLeast_max {c : α} {x y : Number α} : AtLeast c (max x y) ↔ AtLeast c x ∨ AtLeast c y := by
  cases x <;> cases y <;> simp [max, AtLeast]

omit [Field α] in
theorem max_num_eq_iff {c : α} {x : Number α} : max (num c) x = x ↔ AtLeast c x := by
  cases x <;> simp [max, AtLeast]

omit [Field α] in
theorem atLeast_fold {c : α} {n : ℕ} {x : ℕ → Number α} :
    AtLeast c ((Finset.range n).fold max negInf x) ↔ ∃ i < n, AtLeast c (x i) := by
  induction n with
  | zero => simp [AtLeast]
  | succ n ih =>
      rw [Finset.range_add_one, Finset.fold_insert Finset.notMem_range_self, atLeast_max, ih]
      constructor
      · rintro (h | ⟨i, hi, h⟩)
        · exact ⟨n, Nat.lt_succ_self n, h⟩
        · exact ⟨i, Nat.lt_succ_of_lt hi, h⟩
      · rintro ⟨i, hi, h⟩
        rcases Nat.lt_succ_iff_lt_or_eq.mp hi with hi | rfl
        · exact .inr ⟨i, hi, h⟩
        · exact .inl h

/-! ### Sums of squares -/

/-- Not-a-number, infinite or not negative. -/
def NonNeg : Number α → Prop
  | num a => 0 ≤ a
  | nan | posInf => True
  | negInf => False

theorem square_eq_nan {x : Number α} : x * x = nan ↔ x = nan := by
  change mul x x = nan ↔ _
  cases x <;> simp [mul]

theorem square_eq_zero {x : Number α} : x * x = 0 ↔ x = 0 := by
  change mul x x = num 0 ↔ x = num 0
  cases x <;> simp [mul]

variable [IsStrictOrderedRing α]

theorem square_nonNeg (x : Number α) : NonNeg (x * x) := by
  change NonNeg (mul x x)
  cases x <;> simp [mul, NonNeg, mul_self_nonneg]

theorem NonNeg.add {x y : Number α} (hx : NonNeg x) (hy : NonNeg y) :
    NonNeg (x + y) ∧ (x + y = nan ↔ x = nan ∨ y = nan) ∧ (x + y = 0 ↔ x = 0 ∧ y = 0) := by
  change NonNeg (Number.add x y) ∧ (Number.add x y = nan ↔ _) ∧ (Number.add x y = num 0 ↔ x = num 0 ∧ y = num 0)
  cases x with
  | num a =>
      cases y with
      | num b =>
          simp only [NonNeg] at hx hy
          simpa [Number.add, NonNeg] using ⟨add_nonneg hx hy, add_eq_zero_iff_of_nonneg hx hy⟩
      | nan | posInf => simp [Number.add, NonNeg]
      | negInf => exact hy.elim
  | negInf => exact hx.elim
  | nan => simp [Number.add, NonNeg]
  | posInf =>
      cases y with
      | negInf => exact hy.elim
      | nan | num _ | posInf => simp [Number.add, NonNeg]

/-- A sum of such numbers is no number if one of them is none, and zero if all are. -/
theorem sum_nonNeg {f : ℕ → Number α} (hf : ∀ i, NonNeg (f i)) (n : ℕ) :
    NonNeg (∑ i ∈ Finset.range n, f i) ∧ (∑ i ∈ Finset.range n, f i = nan ↔ ∃ i < n, f i = nan) ∧
      (∑ i ∈ Finset.range n, f i = 0 ↔ ∀ i < n, f i = 0) := by
  induction n with
  | zero =>
      refine ⟨le_refl (0 : α), ?_, by simp⟩
      simp only [Finset.range_zero, Finset.sum_empty, Nat.not_lt_zero, false_and, exists_false, iff_false]
      exact fun h => nomatch h
  | succ n ih =>
      obtain ⟨hsum, hnan, hzero⟩ := ih
      obtain ⟨hadd, haddNan, haddZero⟩ := hsum.add (hf n)
      rw [Finset.sum_range_succ]
      refine ⟨hadd, ?_, ?_⟩
      · rw [haddNan, hnan]
        simp only [Nat.lt_succ_iff_lt_or_eq, or_and_right, exists_or, exists_eq_left]
      · rw [haddZero, hzero]
        simp only [Nat.lt_succ_iff_lt_or_eq, or_imp, forall_and, forall_eq]

/-- What can be added to a number without a change. -/
theorem NonNeg.add_eq_right {x y : Number α} (hx : NonNeg x) (hy : NonNeg y) :
    x + y = y ↔ x = 0 ∨ y = nan ∨ y = posInf ∧ x ≠ nan := by
  change Number.add x y = y ↔ x = num 0 ∨ _
  cases x <;> cases y <;> simp_all [Number.add, NonNeg]

omit [IsStrictOrderedRing α] in
/-- Division by a positive number tells numbers apart. -/
theorem div_num_inj {c : α} (hc : 0 < c) {x y : Number α} : x / num c = y / num c ↔ x = y := by
  change Number.div x (num c) = Number.div y (num c) ↔ _
  cases x <;> cases y <;> simp [Number.div, hc.ne', hc.not_gt, div_left_inj' hc.ne']

end Field

end Number
end NnEngine
