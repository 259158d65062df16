import Mathlib.Data.Finset.Fold
import Mathlib.Tactic

/-!
# Reductions of a thread block

A block of threads reduces one accumulator for each thread in two halving loops: shuffles within tiles of
lanes, then sums in shared memory of the first lanes of all tiles.  The operation is commutative and
associative, and starts from an element `e` with `op e e = e` (a zero, a bottom).

A shuffle from a lane beyond the tile gives the lane's own value; from a lane of the tile that was not
launched it gives an unspecified one.
-/

namespace NnEngine
namespace WarpReduction

variable {β : Type} (op : β → β → β)

/-- `s`, `s / 2`, … as long as it is at least `low`, for at most so many turns. -/
def halvings (low : ℕ) : ℕ → ℕ → List ℕ
  | 0, _ => []
  | turns + 1, s => if low ≤ s then s :: halvings low turns (s / 2) else []

/-- What a lane gets that is `s` further on. -/
def shflDown (tile launched : ℕ) (unspecified : ℕ → ℕ → β) (acc : ℕ → β) (s t : ℕ) : β :=
  if tile ≤ t % tile + s then acc t
  else if t + s < launched then acc (t + s)
  else unspecified s t

/-- One turn of the first loop: every lane adds what it gets. -/
def tileStep (tile launched : ℕ) (unspecified : ℕ → ℕ → β) (acc : ℕ → β) (s t : ℕ) : β :=
  op (acc t) (shflDown tile launched unspecified acc s t)

/-- One turn of the second loop: the first `s` threads add a place of the shared array to their own. -/
def sharedStep (shared : ℕ → β) (s t : ℕ) : β := if t < s then op (shared t) (shared (t + s)) else shared t

/-- What the first thread has after both loops. -/
def blockReduce (tile launched : ℕ) (unspecified : ℕ → ℕ → β) (acc : ℕ → β) : β :=
  let acc := (halvings 1 tile (tile / 2)).foldl (tileStep op tile launched unspecified) acc
  let shared := (halvings tile launched (launched / 2)).foldl (sharedStep op) acc
  shared 0

/-! ### Folds over ranges -/

section Folds

variable {op} [Std.Commutative op] [Std.Associative op] {e : β} {f g : ℕ → β} {a b : ℕ}

theorem fold_absorb (he : op e e = e) (s : Finset ℕ) (f : ℕ → β) : op (s.fold op e f) e = s.fold op e f := by
  induction s using Finset.induction_on with
  | empty => exact he
  | insert i s hi ih => rw [Finset.fold_insert hi, @Std.Associative.assoc β op, ih]

theorem fold_distrib (he : op e e = e) (s : Finset ℕ) (f g : ℕ → β) :
    (s.fold op e fun i => op (f i) (g i)) = op (s.fold op e f) (s.fold op e g) := by
  have hdistrib := @Finset.fold_op_distrib ℕ β op _ _ s f g e e
  rwa [he] at hdistrib

theorem fold_range_succ : (Finset.range (a + 1)).fold op e f = op (f a) ((Finset.range a).fold op e f) := by
  rw [Finset.range_add_one, Finset.fold_insert Finset.notMem_range_self]

theorem fold_range_add (he : op e e = e) : (Finset.range (a + b)).fold op e f =
    op ((Finset.range a).fold op e f) ((Finset.range b).fold op e fun i => f (a + i)) := by
  induction b with
  | zero => simp [fold_absorb he]
  | succ b ih =>
      rw [← Nat.add_assoc, fold_range_succ, ih, fold_range_succ]
      ac_rfl

theorem fold_range_mul (he : op e e = e) : (Finset.range (a * b)).fold op e f =
    (Finset.range a).fold op e fun j => (Finset.range b).fold op e fun i => f (j * b + i) := by
  induction a with
  | zero => simp
  | succ a ih => rw [Nat.succ_mul, fold_range_add he, ih, fold_range_succ, @Std.Commutative.comm β op]

theorem fold_neutral (he : op e e = e) (h : ∀ i < a, f i = e) : (Finset.range a).fold op e f = e := by
  rw [Finset.fold_congr (g := fun _ => e) fun i hi => h i (Finset.mem_range.mp hi),
    Finset.fold_const e (by rw [he, he])]
  split
  · rfl
  · exact he

theorem fold_swap (he : op e e = e) (F : ℕ → ℕ → β) :
    ((Finset.range a).fold op e fun i => (Finset.range b).fold op e fun j => F i j) =
      (Finset.range b).fold op e fun j => (Finset.range a).fold op e fun i => F i j := by
  induction a with
  | zero => exact (fold_neutral he fun _ _ => rfl).symm
  | succ a ih =>
      rw [fold_range_succ, ih]
      simp only [fold_range_succ]
      exact (fold_distrib he _ _ _).symm

end Folds

/-! ### The two loops -/

section Loops

variable {op} [Std.Commutative op] [Std.Associative op] {e : β} {f acc : ℕ → β}

/-- Halving from `2 ^ n / 2` down to `2 ^ m` adds up what is `2 ^ m` apart. -/
theorem foldl_halvings (he : op e e = e) {step : (ℕ → β) → ℕ → ℕ → β} {m n turns base r : ℕ} (hmn : m ≤ n)
    (hturns : n ≤ turns) (hr : r < 2 ^ m) (hf : ∀ t < 2 ^ n, op (f (base + t)) e = f (base + t))
    (hstep : ∀ i < n, ∀ f, ∀ r < 2 ^ i, step f (2 ^ i) (base + r) = op (f (base + r)) (f (base + r + 2 ^ i))) :
    (halvings (2 ^ m) turns (2 ^ n / 2)).foldl step f (base + r) =
      (Finset.range (2 ^ (n - m))).fold op e fun j => f (base + r + j * 2 ^ m) := by
  induction n, hmn using Nat.le_induction generalizing f turns with
  | base =>
      have hnil : halvings (2 ^ m) turns (2 ^ m / 2) = [] := by
        cases turns with
        | zero => rfl
        | succ turns => exact if_neg (by have := Nat.two_pow_pos m; omega)
      simp [hnil, hf r hr]
  | succ n hmn ih =>
      obtain ⟨turns, rfl⟩ : ∃ k, turns = k + 1 := ⟨turns - 1, by omega⟩
      have hpow : 2 ^ (n + 1) / 2 = 2 ^ n := by rw [pow_succ]; omega
      have hle : 2 ^ m ≤ 2 ^ n := Nat.pow_le_pow_right (by norm_num) hmn
      have habsorb : ∀ t < 2 ^ n, op (step f (2 ^ n) (base + t)) e = step f (2 ^ n) (base + t) := by
        intro t ht
        have htn := hf (t + 2 ^ n) (by rw [pow_succ]; omega)
        rw [← Nat.add_assoc] at htn
        rw [hstep n (by omega) f t ht, @Std.Associative.assoc β op, htn]
      rw [hpow, halvings, if_pos hle, List.foldl_cons, ih (by omega) habsorb fun i hi => hstep i (by omega)]
      -- the first turn adds to each place the one half of the width further on
      have hwidth : 2 ^ (n - m) * 2 ^ m = 2 ^ n := by rw [← pow_add, Nat.sub_add_cancel hmn]
      have hplace : ∀ j < 2 ^ (n - m), r + j * 2 ^ m < 2 ^ n := by
        intro j hj
        have hmul : (j + 1) * 2 ^ m ≤ 2 ^ (n - m) * 2 ^ m := Nat.mul_le_mul_right _ hj
        rw [Nat.succ_mul] at hmul
        omega
      have hdouble : 2 ^ (n + 1 - m) = 2 ^ (n - m) + 2 ^ (n - m) := by
        rw [Nat.sub_add_comm hmn, pow_succ]
        omega
      rw [hdouble, fold_range_add he, ← fold_distrib he]
      refine Finset.fold_congr fun j hj => ?_
      rw [Nat.add_assoc, hstep n (by omega) f _ (hplace j (Finset.mem_range.mp hj))]
      congr 2
      rw [Nat.add_mul, hwidth]
      omega

/-- What the lanes hold, and `e` where none was launched. -/
def extend (e : β) (launched : ℕ) (acc : ℕ → β) (t : ℕ) : β := if t < launched then acc t else e

/-- The turn of a tile, on a block with all lanes. -/
def fullStep (op : β → β → β) (tile : ℕ) (acc : ℕ → β) (s t : ℕ) : β :=
  op (acc t) (if tile ≤ t % tile + s then acc t else acc (t + s))

omit [Std.Commutative op] in
theorem foldl_fullStep_absorb {tile : ℕ} (l : List ℕ) (hf : ∀ t, op (f t) e = f t) (t : ℕ) :
    op (l.foldl (fullStep op tile) f t) e = l.foldl (fullStep op tile) f t := by
  induction l generalizing f with
  | nil => exact hf t
  | cons s l ih =>
      refine ih fun t => ?_
      unfold fullStep
      split
      · rw [@Std.Associative.assoc β op, hf]
      · rw [@Std.Associative.assoc β op, hf]

variable {tile launched : ℕ} {unspecified : ℕ → ℕ → β}

/-- Shuffles from lanes that were not launched give `e`; where there are none, this says nothing. -/
def Neutral (e : β) (tile launched : ℕ) (unspecified : ℕ → ℕ → β) : Prop :=
  ∀ s t, t < launched → launched ≤ t + s → t % tile + s < tile → unspecified s t = e

omit [Std.Commutative op] [Std.Associative op] in
/-- Then these lanes do as if they held `e`. -/
theorem extend_tileStep (he : op e e = e) (hneutral : Neutral e tile launched unspecified) (acc : ℕ → β) (s : ℕ) :
    extend e launched (tileStep op tile launched unspecified acc s) = fullStep op tile (extend e launched acc) s := by
  funext t
  simp only [extend, fullStep, tileStep, shflDown]
  by_cases ht : t < launched
  · rw [if_pos ht, if_pos ht]
    by_cases hs : tile ≤ t % tile + s
    · rw [if_pos hs, if_pos hs]
    · rw [if_neg hs, if_neg hs]
      by_cases hts : t + s < launched
      · rw [if_pos hts, if_pos hts]
      · rw [if_neg hts, if_neg hts, hneutral s t ht (by omega) (by omega)]
  · rw [if_neg ht, if_neg ht]
    by_cases hs : tile ≤ t % tile + s
    · rw [if_pos hs, he]
    · rw [if_neg hs, if_neg (by omega), he]

omit [Std.Commutative op] [Std.Associative op] in
theorem extend_foldl_tileStep (he : op e e = e) (hneutral : Neutral e tile launched unspecified) (l : List ℕ)
    (acc : ℕ → β) : extend e launched (l.foldl (tileStep op tile launched unspecified) acc) =
      l.foldl (fullStep op tile) (extend e launched acc) := by
  induction l generalizing acc with
  | nil => rfl
  | cons s l ih => rw [List.foldl_cons, List.foldl_cons, ih, extend_tileStep he hneutral]

/-- In a block with whole tiles every shuffle is from a lane that was launched. -/
theorem neutral_of_dvd (h : tile ∣ launched) : Neutral e tile launched unspecified := by
  intro s t ht hts hlt
  obtain ⟨k, rfl⟩ := h
  have hdiv := Nat.div_add_mod t tile
  have hk : t / tile < k := Nat.div_lt_of_lt_mul ht
  have hmul : tile * (t / tile + 1) ≤ tile * k := Nat.mul_le_mul_left _ hk
  rw [Nat.mul_add, Nat.mul_one] at hmul
  omega

/-- The first thread of the block ends up with what all launched threads had. -/
theorem blockReduce_eq (he : op e e = e) {m n : ℕ} (hneutral : Neutral e (2 ^ m) (2 ^ n) unspecified)
    (hacc : ∀ t < 2 ^ n, op (acc t) e = acc t) :
    blockReduce op (2 ^ m) (2 ^ n) unspecified acc = (Finset.range (2 ^ n)).fold op e acc := by
  have hextend : ∀ t, op (extend e (2 ^ n) acc t) e = extend e (2 ^ n) acc t := by
    intro t
    unfold extend
    split
    · exact hacc t ‹_›
    · exact he
  -- what the first lane of a tile holds
  have htile : ∀ j, j * 2 ^ m < 2 ^ n → (halvings 1 (2 ^ m) (2 ^ m / 2)).foldl
      (tileStep op (2 ^ m) (2 ^ n) unspecified) acc (j * 2 ^ m) =
        (Finset.range (2 ^ m)).fold op e fun i => extend e (2 ^ n) acc (j * 2 ^ m + i) := by
    intro j hj
    have hfull := congrFun (extend_foldl_tileStep he hneutral (halvings 1 (2 ^ m) (2 ^ m / 2)) acc) (j * 2 ^ m)
    rw [extend, if_pos hj] at hfull
    have hhalve := @foldl_halvings _ op _ _ e (extend e (2 ^ n) acc) he (fullStep op (2 ^ m)) 0 m (2 ^ m) (j * 2 ^ m) 0
      (Nat.zero_le m) Nat.lt_two_pow_self.le (by norm_num) (fun t _ => hextend _) ?_
    · simpa using hfull.trans hhalve
    · intro i hi f r hr
      have hpow : 2 ^ (i + 1) ≤ 2 ^ m := Nat.pow_le_pow_right (by norm_num) hi
      rw [pow_succ] at hpow
      have hmod : (j * 2 ^ m + r) % 2 ^ m = r := by
        rw [Nat.mul_comm, Nat.mul_add_mod, Nat.mod_eq_of_lt (by omega)]
      rw [fullStep, hmod, if_neg (by omega)]
  unfold blockReduce
  dsimp only
  rcases Nat.lt_or_ge n m with hnm | hmn
  · -- a part of one tile: nothing is left for the second loop
    have hlt : 2 ^ n < 2 ^ m := Nat.pow_lt_pow_right (by norm_num) hnm
    have hnil : halvings (2 ^ m) (2 ^ n) (2 ^ n / 2) = [] := by
      obtain ⟨k, hk⟩ : ∃ k, 2 ^ n = k + 1 := ⟨2 ^ n - 1, by have := Nat.two_pow_pos n; omega⟩
      rw [hk, halvings, if_neg (by omega)]
    have hfirst := htile 0 (by have := Nat.two_pow_pos n; omega)
    rw [Nat.zero_mul] at hfirst
    rw [hnil, List.foldl_nil, hfirst]
    obtain ⟨k, hk⟩ := Nat.exists_eq_add_of_lt hlt
    have hrest : ∀ i < k + 1, extend e (2 ^ n) acc (0 + (2 ^ n + i)) = e := by
      intro i _
      exact if_neg (by omega)
    rw [hk, Nat.add_assoc, fold_range_add he, fold_neutral he hrest, fold_absorb he]
    refine Finset.fold_congr fun i hi => ?_
    rw [Nat.zero_add]
    exact if_pos (Finset.mem_range.mp hi)
  · have habsorb : ∀ t < 2 ^ n, op ((halvings 1 (2 ^ m) (2 ^ m / 2)).foldl
        (tileStep op (2 ^ m) (2 ^ n) unspecified) acc (0 + t)) e =
          (halvings 1 (2 ^ m) (2 ^ m / 2)).foldl (tileStep op (2 ^ m) (2 ^ n) unspecified) acc (0 + t) := by
      intro t ht
      have hfull := congrFun (extend_foldl_tileStep he hneutral (halvings 1 (2 ^ m) (2 ^ m / 2)) acc) t
      rw [extend, if_pos ht] at hfull
      rw [Nat.zero_add, hfull]
      exact foldl_fullStep_absorb _ hextend t
    have hstep : ∀ i < n, ∀ f : ℕ → β, ∀ r < 2 ^ i,
        sharedStep op f (2 ^ i) (0 + r) = op (f (0 + r)) (f (0 + r + 2 ^ i)) := by
      intro i _ f r hr
      rw [sharedStep, if_pos (by omega)]
    have hshared := foldl_halvings he hmn Nat.lt_two_pow_self.le (Nat.two_pow_pos m) habsorb hstep
    rw [Nat.add_zero] at hshared
    rw [hshared]
    have hwidth : 2 ^ (n - m) * 2 ^ m = 2 ^ n := by rw [← pow_add, Nat.sub_add_cancel hmn]
    have hplace : ∀ j < 2 ^ (n - m), ∀ i < 2 ^ m, j * 2 ^ m + i < 2 ^ n := by
      intro j hj i hi
      have hmul : (j + 1) * 2 ^ m ≤ 2 ^ (n - m) * 2 ^ m := Nat.mul_le_mul_right _ hj
      rw [Nat.succ_mul] at hmul
      omega
    conv_rhs => rw [← hwidth, fold_range_mul he]
    refine Finset.fold_congr fun j hj => ?_
    have hj' := hplace j (Finset.mem_range.mp hj)
    rw [Nat.zero_add, htile j (hj' 0 (Nat.two_pow_pos m))]
    exact Finset.fold_congr fun i hi => if_pos (hj' i (Finset.mem_range.mp hi))

theorem le_of_mem_halvings {low turns s s' : ℕ} (h : s' ∈ halvings low turns s) : s' ≤ s := by
  induction turns generalizing s with
  | zero => cases h
  | succ turns ih =>
      unfold halvings at h
      split at h
      · rcases List.mem_cons.mp h with rfl | h
        · exact le_refl _
        · exact (ih h).trans (Nat.div_le_self s 2)
      · cases h

/-- One shuffle from a lane that was not launched puts any value into the result. -/
theorem blockReduce_unspecified (he : op e e = e) {m n : ℕ} (hnm : n < m) {v : β} (hv : op v e = v)
    (hacc : ∀ t < 2 ^ n, op (acc t) e = acc t) :
    blockReduce op (2 ^ m) (2 ^ n) (fun s t => if s = 2 ^ m / 2 ∧ t = 0 then v else e) acc =
      op ((Finset.range (2 ^ n)).fold op e acc) v := by
  -- no lane reads the first one: the value may as well be there from the start
  have hfirst : blockReduce op (2 ^ m) (2 ^ n) (fun s t => if s = 2 ^ m / 2 ∧ t = 0 then v else e) acc =
      blockReduce op (2 ^ m) (2 ^ n) (fun _ _ => e) (Function.update acc 0 (op (acc 0) v)) := by
    obtain ⟨k, rfl⟩ : ∃ k, m = k + 1 := ⟨m - 1, by omega⟩
    have hpow : 2 ^ (k + 1) / 2 = 2 ^ k := by rw [pow_succ]; omega
    have hlaunched : 2 ^ n ≤ 2 ^ k := Nat.pow_le_pow_right (by norm_num) (by omega)
    have hpos := Nat.two_pow_pos k
    obtain ⟨turns, hturns⟩ : ∃ turns, 2 ^ (k + 1) = turns + 1 := ⟨2 ^ (k + 1) - 1, by omega⟩
    have hhalvings : halvings 1 (2 ^ (k + 1)) (2 ^ k) = 2 ^ k :: halvings 1 turns (2 ^ k / 2) := by
      rw [hturns, halvings, if_pos (by omega)]
    unfold blockReduce
    dsimp only
    rw [hpow, hhalvings, List.foldl_cons, List.foldl_cons]
    have hhead : tileStep op (2 ^ (k + 1)) (2 ^ n) (fun s t => if s = 2 ^ k ∧ t = 0 then v else e) acc (2 ^ k) =
        tileStep op (2 ^ (k + 1)) (2 ^ n) (fun _ _ => e) (Function.update acc 0 (op (acc 0) v)) (2 ^ k) := by
      funext t
      simp only [tileStep, shflDown]
      by_cases ht : t = 0
      · subst ht
        have hwidth : ¬2 ^ (k + 1) ≤ 0 % 2 ^ (k + 1) + 2 ^ k := by
          rw [Nat.zero_mod, pow_succ]
          omega
        have hout : ¬0 + 2 ^ k < 2 ^ n := by omega
        rw [if_neg hwidth, if_neg hwidth, if_neg hout, if_neg hout]
        simp [@Std.Associative.assoc β op, hv]
      · simp [ht]
    rw [hhead]
    have hrest : ∀ f : ℕ → β, ∀ s ∈ halvings 1 turns (2 ^ k / 2),
        tileStep op (2 ^ (k + 1)) (2 ^ n) (fun s t => if s = 2 ^ k ∧ t = 0 then v else e) f s =
          tileStep op (2 ^ (k + 1)) (2 ^ n) (fun _ _ => e) f s := by
      intro f s hs
      have hle := le_of_mem_halvings hs
      funext t
      simp only [tileStep, shflDown]
      rw [if_neg (by omega : ¬(s = 2 ^ k ∧ t = 0))]
    rw [List.foldl_ext _ _ _ hrest]
  obtain ⟨k, hk⟩ : ∃ k, 2 ^ n = 1 + k := ⟨2 ^ n - 1, by have := Nat.two_pow_pos n; omega⟩
  rw [hfirst, blockReduce_eq he fun _ _ _ _ _ => rfl]
  · rw [hk, fold_range_add he, fold_range_add he]
    have hne : ∀ i, Function.update acc 0 (op (acc 0) v) (1 + i) = acc (1 + i) := fun i =>
      Function.update_of_ne (by omega) _ _
    simp only [hne, Finset.range_one, Finset.fold_singleton, Function.update_self]
    ac_rfl
  · intro t ht
    by_cases h0 : t = 0
    · rw [h0, Function.update_self, @Std.Associative.assoc β op, hv]
    · rw [Function.update_of_ne h0, hacc t ht]

end Loops

/-! ### Blocks of any size -/

section Reached

variable {op} [Std.Commutative op] [Std.Associative op] {e : β}

/-- The places from which the second loop reaches the first one: all sums of some of its strides. -/
def reached : List ℕ → List ℕ
  | [] => [0]
  | s :: strides => reached strides ++ (reached strides).map (s + ·)

omit [Std.Commutative op] [Std.Associative op] in
theorem le_of_mem_reached {low turns s t : ℕ} (h : t ∈ reached (halvings low turns s)) : t ≤ 2 * s - 1 := by
  induction turns generalizing s t with
  | zero =>
      rw [List.mem_singleton.mp h]
      exact Nat.zero_le _
  | succ turns ih =>
      unfold halvings at h
      split at h
      · rcases List.mem_append.mp h with h | h
        · have hle := ih h
          omega
        · obtain ⟨t', ht', rfl⟩ := List.mem_map.mp h
          have hle := ih ht'
          omega
      · rw [List.mem_singleton.mp h]
        exact Nat.zero_le _

theorem foldl_map_op (l : List ℕ) (f g : ℕ → β) (a b : β) :
    (l.map fun t => op (f t) (g t)).foldl op (op a b) = op ((l.map f).foldl op a) ((l.map g).foldl op b) := by
  induction l generalizing a b with
  | nil => rfl
  | cons t l ih =>
      simp only [List.map_cons, List.foldl_cons]
      rw [← ih]
      congr 1
      ac_rfl

theorem foldl_absorb (he : op e e = e) (l : List β) : op (l.foldl op e) e = l.foldl op e := by
  rw [@Std.Commutative.comm β op, ← @List.foldl_assoc β op, he]

theorem foldl_append_op (he : op e e = e) (l l' : List β) : (l ++ l').foldl op e = op (l.foldl op e) (l'.foldl op e) := by
  rw [List.foldl_append, ← @List.foldl_assoc β op, foldl_absorb he]

/-- The first place ends up with what was at the reached ones. -/
theorem foldl_sharedStep (he : op e e = e) {low turns s : ℕ} (hlow : 0 < low) {f : ℕ → β} (hf : ∀ t, op (f t) e = f t) :
    (halvings low turns s).foldl (sharedStep op) f 0 =
      ((reached (halvings low turns s)).map f).foldl op e := by
  have hzero : ∀ f : ℕ → β, (∀ t, op (f t) e = f t) → f 0 = ([0].map f).foldl op e := by
    intro f hf
    rw [List.map_singleton, List.foldl_cons, List.foldl_nil, @Std.Commutative.comm β op, hf]
  induction turns generalizing s f with
  | zero => exact hzero f hf
  | succ turns ih =>
      unfold halvings
      split
      · rename_i hle
        have habsorb : ∀ t, op (sharedStep op f s t) e = sharedStep op f s t := by
          intro t
          unfold sharedStep
          split
          · rw [@Std.Associative.assoc β op, hf]
          · exact hf t
        -- all that is reached later is among the first `s` places
        have hfirst : (reached (halvings low turns (s / 2))).map (sharedStep op f s) =
            (reached (halvings low turns (s / 2))).map fun t => op (f t) (f (s + t)) := by
          refine List.map_congr_left fun t ht => ?_
          have hlt := le_of_mem_reached ht
          rw [sharedStep, if_pos (by omega), Nat.add_comm]
        have hmap := @foldl_map_op β op _ _ (reached (halvings low turns (s / 2))) f (fun t => f (s + t)) e e
        rw [he] at hmap
        rw [List.foldl_cons, ih habsorb, hfirst, hmap, reached, List.map_append, foldl_append_op he, List.map_map]
        rfl
      · exact hzero f hf

/-- For a power of two these are all places. -/
theorem reached_two_pow (n turns : ℕ) (hturns : n ≤ turns) :
    reached (halvings 1 turns (2 ^ n / 2)) = List.range (2 ^ n) := by
  induction n generalizing turns with
  | zero =>
      cases turns with
      | zero => rfl
      | succ turns => rfl
  | succ n ih =>
      obtain ⟨turns, rfl⟩ : ∃ k, turns = k + 1 := ⟨turns - 1, by omega⟩
      have hpow : 2 ^ (n + 1) / 2 = 2 ^ n := by rw [pow_succ]; omega
      have hpos := Nat.two_pow_pos n
      rw [hpow, halvings, if_pos (by omega), reached, ih turns (by omega), pow_succ, Nat.mul_two, List.range_add]

end Reached

/-! ### What the threads add up before -/

section Threads

variable {op} [Std.Commutative op] [Std.Associative op] {e : β} {f : ℕ → β} {size step turns k t : ℕ}

/-- The places of a loop from `i` on, `step` apart, for at most so many turns. -/
def strided (bound step : ℕ) : ℕ → ℕ → List ℕ
  | 0, _ => []
  | turns + 1, i => if i < bound then i :: strided bound step turns (i + step) else []

theorem strided_eq (hturns : k ≤ turns) (ht : t < step) (j : ℕ) :
    strided ((j + k) * step) step turns (j * step + t) = (List.range' j k).map fun i => i * step + t := by
  induction k generalizing j turns with
  | zero =>
      cases turns with
      | zero => rfl
      | succ turns => exact if_neg (by simp)
  | succ k ih =>
      obtain ⟨turns, rfl⟩ : ∃ n, turns = n + 1 := ⟨turns - 1, by omega⟩
      have hlt : j * step + t < (j + (k + 1)) * step := by
        have hmul : (j + 1) * step ≤ (j + (k + 1)) * step := Nat.mul_le_mul_right _ (by omega)
        rw [Nat.succ_mul] at hmul
        omega
      have hnext : j * step + t + step = (j + 1) * step + t := by
        rw [Nat.succ_mul]
        omega
      have hbound : (j + (k + 1)) * step = (j + 1 + k) * step := by
        congr 1
        omega
      rw [strided, if_pos hlt, hnext, hbound, ih (by omega) (j + 1), List.range'_succ, List.map_cons]

/-- A thread skips the places beyond the row. -/
def threadFold (op : β → β → β) (e : β) (f : ℕ → β) (size : ℕ) (places : List ℕ) : β :=
  places.foldl (fun acc i => if i < size then op acc (f i) else acc) e

omit [Std.Commutative op] [Std.Associative op] in
theorem threadFold_congr {g : ℕ → β} (h : ∀ i < size, f i = g i) (places : List ℕ) :
    threadFold op e f size places = threadFold op e g size places := by
  unfold threadFold
  congr 1
  funext acc i
  split
  · rw [h i ‹_›]
  · rfl

theorem threadFold_eq (he : op e e = e) (step t k : ℕ) :
    threadFold op e f size ((List.range k).map fun i => i * step + t) =
      (Finset.range k).fold op e fun i => if i * step + t < size then f (i * step + t) else e := by
  induction k with
  | zero => rfl
  | succ k ih =>
      unfold threadFold at ih ⊢
      rw [List.range_succ, List.map_append, List.foldl_append, ih, fold_range_succ]
      simp only [List.map_cons, List.map_nil, List.foldl_cons, List.foldl_nil]
      split
      · exact Std.Commutative.comm _ _
      · rw [@Std.Commutative.comm β op, fold_absorb he]

/-- The threads of a block add up every place of the row once. -/
theorem fold_threads (he : op e e = e) (hsize : size ≤ k * step) :
    ((Finset.range step).fold op e fun t => threadFold op e f size ((List.range k).map fun i => i * step + t)) =
      (Finset.range size).fold op e f := by
  have hplaces := fold_range_mul (a := k) (b := step) (f := fun i => if i < size then f i else e) he
  simp only [threadFold_eq he]
  rw [fold_swap he, ← hplaces]
  obtain ⟨r, hr⟩ := Nat.exists_eq_add_of_le hsize
  have hrest : ∀ i < r, (if size + i < size then f (size + i) else e) = e := fun i _ => if_neg (by omega)
  rw [hr, fold_range_add he, fold_neutral he hrest, fold_absorb he]
  exact Finset.fold_congr fun i hi => if_pos (Finset.mem_range.mp hi)

end Threads

/-! ### Positions of the threads -/

section Positions

variable {dim blockSize tid : ℕ}

/-- The positions of a thread, `i * blockSize + tid` for as many `i` as a row takes. -/
def axisPositions (dim blockSize tid : ℕ) : List ℕ :=
  (List.range ((dim + blockSize - 1) / blockSize)).map fun i => i * blockSize + tid

theorem dim_le_repeat (hpos : 0 < blockSize) (dim : ℕ) : dim ≤ (dim + blockSize - 1) / blockSize * blockSize := by
  have hdiv := Nat.div_add_mod (dim + blockSize - 1) blockSize
  have hmod := Nat.mod_lt (dim + blockSize - 1) hpos
  rw [Nat.mul_comm] at hdiv
  omega

theorem mem_axisPositions {p : ℕ} (ht : tid < blockSize) :
    p ∈ (axisPositions dim blockSize tid).filter (· < dim) ↔ p < dim ∧ p % blockSize = tid := by
  simp only [axisPositions, List.mem_filter, List.mem_map, List.mem_range, decide_eq_true_eq]
  constructor
  · rintro ⟨⟨i, -, rfl⟩, hp⟩
    exact ⟨hp, by rw [Nat.mul_comm, Nat.mul_add_mod, Nat.mod_eq_of_lt ht]⟩
  · rintro ⟨hp, rfl⟩
    have hdiv := Nat.div_add_mod p blockSize
    have hle := dim_le_repeat (by omega : 0 < blockSize) dim
    rw [Nat.mul_comm] at hdiv
    exact ⟨⟨p / blockSize, Nat.div_lt_of_lt_mul (by rw [Nat.mul_comm]; omega), hdiv⟩, hp⟩

/-- The threads of a block share the positions out. -/
theorem axisPositions_perm (hpos : 0 < blockSize) (dim : ℕ) :
    ((List.range blockSize).flatMap fun t => (axisPositions dim blockSize t).filter (· < dim)).Perm
      (List.range dim) := by
  rw [List.perm_ext_iff_of_nodup _ List.nodup_range]
  · intro p
    rw [List.mem_flatMap, List.mem_range]
    constructor
    · rintro ⟨t, ht, hp⟩
      exact ((mem_axisPositions (List.mem_range.mp ht)).mp hp).1
    · intro hp
      have ht := Nat.mod_lt p hpos
      exact ⟨_, List.mem_range.mpr ht, (mem_axisPositions ht).mpr ⟨hp, rfl⟩⟩
  · rw [List.nodup_flatMap]
    refine ⟨fun t _ => ?_, ?_⟩
    · refine List.Nodup.filter _ (List.nodup_range.map fun i j hij => ?_)
      exact Nat.eq_of_mul_eq_mul_right hpos (Nat.add_right_cancel hij)
    · refine List.Pairwise.imp_of_mem ?_ (List.nodup_iff_pairwise_ne.mp List.nodup_range)
      intro t t' ht ht' hne
      rw [Function.onFun, List.disjoint_left]
      intro p hp hp'
      rw [mem_axisPositions (List.mem_range.mp ht)] at hp
      rw [mem_axisPositions (List.mem_range.mp ht')] at hp'
      exact hne (hp.2.symm.trans hp'.2)

/-- A loop that stops at the end of the row visits the same positions. -/
theorem strided_eq_filter {turns k : ℕ} (hturns : k ≤ turns) (j : ℕ) (hbound : dim ≤ (j + k) * blockSize) :
    strided dim blockSize turns (j * blockSize + tid) =
      ((List.range' j k).map fun i => i * blockSize + tid).filter (· < dim) := by
  induction k generalizing j turns with
  | zero =>
      cases turns with
      | zero => rfl
      | succ turns => exact if_neg (by rw [Nat.add_zero] at hbound; omega)
  | succ k ih =>
      obtain ⟨turns, rfl⟩ : ∃ n, turns = n + 1 := ⟨turns - 1, by omega⟩
      have hnext : j * blockSize + tid + blockSize = (j + 1) * blockSize + tid := by
        rw [Nat.succ_mul]
        omega
      rw [strided, List.range'_succ, List.map_cons]
      split
      · rename_i hlt
        rw [List.filter_cons_of_pos (by simpa using hlt), hnext,
          ih (by omega) (j + 1) (by rwa [Nat.add_assoc, Nat.add_comm 1 k])]
      · rename_i hlt
        symm
        rw [List.filter_eq_nil_iff]
        intro p hp
        obtain ⟨i, hi, rfl⟩ : ∃ i, j ≤ i ∧ i * blockSize + tid = p := by
          rcases List.mem_cons.mp hp with rfl | hp
          · exact ⟨j, le_refl j, rfl⟩
          · obtain ⟨i, hi, rfl⟩ := List.mem_map.mp hp
            rw [List.mem_range'_1] at hi
            exact ⟨i, by omega, rfl⟩
        have hmul : j * blockSize ≤ i * blockSize := Nat.mul_le_mul_right _ hi
        simp only [decide_eq_true_eq]
        omega

theorem strided_eq_positions (hpos : 0 < blockSize) :
    strided dim blockSize dim tid = (axisPositions dim blockSize tid).filter (· < dim) := by
  have hle := dim_le_repeat hpos dim
  have hturns : (dim + blockSize - 1) / blockSize ≤ dim := by
    rcases Nat.eq_zero_or_pos dim with rfl | hdim
    · rw [Nat.div_eq_of_lt (by omega)]
    · rw [Nat.div_le_iff_le_mul_add_pred hpos]
      have hmul : dim * 1 ≤ dim * blockSize := Nat.mul_le_mul_left _ hpos
      rw [Nat.mul_comm blockSize]
      omega
  have hstrided := @strided_eq_filter dim blockSize tid dim _ hturns 0 (by rwa [Nat.zero_add])
  rw [Nat.zero_mul, Nat.zero_add] at hstrided
  rw [hstrided, ← List.range_eq_range', axisPositions]

end Positions

end WarpReduction
end NnEngine
