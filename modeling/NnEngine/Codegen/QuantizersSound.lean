import NnEngine.Codegen.Quantizers

/-!
# What the quantisers compute

Both find the largest magnitude of a row, the block of `quantizing_kvcache_update` only if its loop reaches the
thread that holds it.  The integers of `DynamicQuantizeLinear` differ where the two roundings do, the scales for a
row of zeros, and the zero points where the buffer held something else before.
-/

namespace NnEngine
namespace Quantizers

open WarpReduction KernelWrites IntegerRounding

variable {α : Type} [Field α] [LinearOrder α]

/-! ### The largest magnitude -/

/-- The largest magnitude at some places. -/
def maxAbsAt (x : ℕ → α) (places : List ℕ) : α := places.foldl (fun acc i => max acc |x i|) 0

/-- The largest magnitude of a row. -/
def maxAbs (k : ℕ) (x : ℕ → α) : α := maxAbsAt x (List.range k)

section MaxAbs

variable {x : ℕ → α} {places : List ℕ} {k : ℕ} {c : α}

omit [Field α] in
theorem foldl_max_le_iff (l : List α) (e : α) : l.foldl max e ≤ c ↔ e ≤ c ∧ ∀ v ∈ l, v ≤ c := by
  induction l generalizing e with
  | nil => simp
  | cons v l ih => simp [ih, and_assoc]

theorem maxAbsAt_eq (x : ℕ → α) (places : List ℕ) : maxAbsAt x places = (places.map fun i => |x i|).foldl max 0 := by
  rw [maxAbsAt, List.foldl_map]

theorem maxAbsAt_le_iff : maxAbsAt x places ≤ c ↔ 0 ≤ c ∧ ∀ i ∈ places, |x i| ≤ c := by
  simp [maxAbsAt_eq, foldl_max_le_iff]

theorem maxAbs_le_iff : maxAbs k x ≤ c ↔ 0 ≤ c ∧ ∀ i < k, |x i| ≤ c := by
  simp [maxAbs, maxAbsAt_le_iff]

theorem maxAbsAt_nonneg (x : ℕ → α) (places : List ℕ) : 0 ≤ maxAbsAt x places := (maxAbsAt_le_iff.mp (le_refl _)).1

theorem maxAbs_nonneg (k : ℕ) (x : ℕ → α) : 0 ≤ maxAbs k x := maxAbsAt_nonneg x _

theorem abs_le_maxAbs {i : ℕ} (hi : i < k) : |x i| ≤ maxAbs k x := (maxAbs_le_iff.mp (le_refl _)).2 i hi

theorem maxAbsAt_mem (x : ℕ → α) (places : List ℕ) : maxAbsAt x places = 0 ∨ ∃ i ∈ places, maxAbsAt x places = |x i| := by
  induction places using List.reverseRecOn with
  | nil => exact .inl rfl
  | append_singleton places i ih =>
      have hlast : maxAbsAt x (places ++ [i]) = max (maxAbsAt x places) |x i| := List.foldl_append ..
      rw [hlast]
      rcases max_choice (maxAbsAt x places) |x i| with h | h
      · rw [h]
        refine ih.imp_right ?_
        rintro ⟨j, hj, heq⟩
        exact ⟨j, by simp [hj], heq⟩
      · exact .inr ⟨i, by simp, h⟩

variable [IsStrictOrderedRing α]

theorem maxAbs_pos_iff : 0 < maxAbs k x ↔ ∃ i < k, x i ≠ 0 := by
  rw [← not_iff_not, not_lt]
  simp [maxAbs_le_iff]

/-- The magnitudes of some places are at most those of all, and they may reach them. -/
theorem maxAbsAt_eq_iff {P : ℕ → Prop} (hplaces : ∀ i, i ∈ places ↔ i < k ∧ P i) (hzero : 0 < k) (hP : P 0) :
    maxAbsAt x places = maxAbs k x ↔ ∃ i < k, P i ∧ ∀ j < k, |x j| ≤ |x i| := by
  constructor
  · intro heq
    rcases maxAbsAt_mem x places with h | ⟨i, hi, h⟩
    · refine ⟨0, hzero, hP, fun j hj => ?_⟩
      rw [heq] at h
      exact (abs_le_maxAbs hj).trans (h.le.trans (abs_nonneg _))
    · have hmem := (hplaces i).mp hi
      refine ⟨i, hmem.1, hmem.2, fun j hj => ?_⟩
      rw [← h, heq]
      exact abs_le_maxAbs hj
  · rintro ⟨i, hi, hPi, hle⟩
    apply le_antisymm
    · rw [maxAbsAt_le_iff]
      refine ⟨maxAbs_nonneg k x, fun j hj => ?_⟩
      exact abs_le_maxAbs ((hplaces j).mp hj).1
    · rw [maxAbs_le_iff]
      refine ⟨maxAbsAt_nonneg x places, fun j hj => ?_⟩
      exact (hle j hj).trans ((maxAbsAt_le_iff.mp (le_refl _)).2 i ((hplaces i).mpr ⟨hi, hPi⟩))

end MaxAbs

/-! ### The blocks -/

section Blocks

variable {x : ℕ → α}

theorem mem_strided {dim blockSize tid i : ℕ} (ht : tid < blockSize) :
    i ∈ strided dim blockSize dim tid ↔ i < dim ∧ i % blockSize = tid := by
  rw [strided_eq_positions (by omega), mem_axisPositions ht]

/-- The threads write a row. -/
theorem strided_perm {β : Type} {blockSize : ℕ} (hpos : 0 < blockSize) (dim : ℕ) (f : ℕ → β) :
    ((List.range blockSize).flatMap fun tid => (strided dim blockSize dim tid).map f).Perm ((List.range dim).map f) := by
  rw [← List.map_flatMap]
  apply List.Perm.map
  have hperm := axisPositions_perm hpos dim
  rwa [← funext fun tid => @strided_eq_positions dim blockSize tid hpos] at hperm

/-- Shuffles in whole tiles fold each tile into its first lane. -/
theorem foldl_fullStep {f : ℕ → α} (hf : ∀ t, max (f t) 0 = f t) {n : ℕ} (hn : n ≤ 5) (tile : ℕ) :
    (halvings 1 warpSize (2 ^ n / 2)).foldl (fullStep max warpSize) f (tile * warpSize) =
      (Finset.range (2 ^ n)).fold max 0 fun i => f (tile * warpSize + i) := by
  have hhalve := @foldl_halvings _ max _ _ 0 f (max_self 0) (fullStep max warpSize) 0 n warpSize (tile * warpSize) 0
    (Nat.zero_le n) (hn.trans (by decide)) (by norm_num) (fun t _ => hf _) ?_
  · simpa using hhalve
  · intro i hi f r hr
    have hpow : 2 ^ (i + 1) ≤ 2 ^ 5 := Nat.pow_le_pow_right (by norm_num) (by omega)
    rw [pow_succ] at hpow
    have hmod : (tile * warpSize + r) % warpSize = r := by
      rw [Nat.mul_comm, Nat.mul_add_mod, Nat.mod_eq_of_lt (by unfold warpSize; omega)]
    rw [fullStep, hmod, if_neg (by unfold warpSize; omega)]

/-- A block of `dynamic_quantize_linear_kernel` finds the largest magnitude of its row. -/
theorem blockMaxAbs_eq (sliceLen : ℕ) (x : ℕ → α) : blockMaxAbs sliceLen x = maxAbs sliceLen x := by
  set localMax := fun tid => maxAbsAt x (strided sliceLen blockSize sliceLen tid) with hlocal
  have hlocalMax : ∀ t, max (localMax t) 0 = localMax t := fun t => max_eq_left (maxAbsAt_nonneg x _)
  set shuffled := (halvings 1 warpSize (warpSize / 2)).foldl (fullStep max warpSize) localMax with hshuffled
  have hwarp : ∀ w, shuffled (w * warpSize) = (Finset.range 32).fold max 0 fun i => localMax (w * warpSize + i) :=
    fun w => foldl_fullStep hlocalMax (le_refl 5) w
  set v := fun lane => if lane < blockSize / warpSize then shuffled (lane * warpSize) else 0 with hv
  have hvmax : ∀ t, max (v t) 0 = v t := by
    intro t
    rw [hv]
    dsimp only
    split
    · exact foldl_fullStep_absorb _ hlocalMax _
    · exact max_self 0
  have hfirst : blockMaxAbs sliceLen x = (Finset.range 8).fold max 0 v := by
    have hfold := @foldl_fullStep α _ _ v hvmax 3 (by norm_num) 0
    rw [Nat.zero_mul] at hfold
    simp only [Nat.zero_add] at hfold
    exact hfold
  apply eq_of_forall_ge_iff
  intro c
  rw [hfirst, Finset.fold_max_le, maxAbs_le_iff]
  refine and_congr_right fun hc => ?_
  constructor
  · intro h i hi
    -- the place belongs to one thread, and the thread to one warp
    have htid := Nat.mod_lt i (by decide : 0 < blockSize)
    have hw : i % blockSize / warpSize < 8 := by unfold blockSize warpSize at *; omega
    have hvw := h _ (Finset.mem_range.mpr hw)
    rw [hv] at hvw
    dsimp only at hvw
    rw [if_pos (by simpa [blockSize, warpSize] using hw), hwarp, Finset.fold_max_le] at hvw
    have hlane := hvw.2 (i % blockSize % warpSize) (Finset.mem_range.mpr (Nat.mod_lt _ (by decide)))
    rw [Nat.mul_comm, Nat.div_add_mod, hlocal] at hlane
    exact (maxAbsAt_le_iff.mp hlane).2 i ((mem_strided htid).mpr ⟨hi, rfl⟩)
  · intro h w hw
    have hw := Finset.mem_range.mp hw
    rw [hv]
    dsimp only
    rw [if_pos (by simpa [blockSize, warpSize] using hw), hwarp, Finset.fold_max_le]
    refine ⟨hc, fun lane hlane => ?_⟩
    have hlane := Finset.mem_range.mp hlane
    rw [hlocal]
    refine maxAbsAt_le_iff.mpr ⟨hc, fun i hi => h i ?_⟩
    exact ((mem_strided (by unfold blockSize warpSize at *; omega)).mp hi).1

/-- The threads that the loop of `quantizing_kvcache_update` reaches. -/
def reachedThreads (blockSize : ℕ) : List ℕ := reached (halvings 1 blockSize (blockSize / 2))

theorem zero_mem_reached (l : List ℕ) : 0 ∈ reached l := by
  induction l with
  | nil => exact List.mem_singleton.mpr rfl
  | cons s l ih => exact List.mem_append_left _ ih

/-- Its block finds the largest magnitude of the places of these threads. -/
theorem sharedMax_eq {blockSize dim : ℕ} (hpos : 0 < blockSize) (x : ℕ → α) :
    (halvings 1 blockSize (blockSize / 2)).foldl (sharedStep max)
        (fun tid => maxAbsAt x (strided dim blockSize dim tid)) 0 =
      maxAbsAt x ((List.range dim).filter fun d => d % blockSize ∈ reachedThreads blockSize) := by
  rw [foldl_sharedStep (max_self 0) one_pos fun t => max_eq_left (maxAbsAt_nonneg x _)]
  apply eq_of_forall_ge_iff
  intro c
  rw [foldl_max_le_iff, maxAbsAt_le_iff]
  refine and_congr_right fun hc => ?_
  simp only [List.mem_map, List.mem_filter, List.mem_range, decide_eq_true_eq]
  constructor
  · rintro h d ⟨hd, hreach⟩
    have hthread := h _ ⟨_, hreach, rfl⟩
    exact (maxAbsAt_le_iff.mp hthread).2 d ((mem_strided (Nat.mod_lt d hpos)).mpr ⟨hd, rfl⟩)
  · rintro h _ ⟨tid, htid, rfl⟩
    refine maxAbsAt_le_iff.mpr ⟨hc, fun d hd => ?_⟩
    have hlt : tid < blockSize := by
      have hle := le_of_mem_reached htid
      omega
    obtain ⟨hdim, rfl⟩ := (mem_strided hlt).mp hd
    exact h d ⟨hdim, htid⟩

/-- For a power of two the loop reaches all threads. -/
theorem mem_reachedThreads_two_pow (n : ℕ) {t : ℕ} (ht : t < 2 ^ n) : t ∈ reachedThreads (2 ^ n) := by
  rw [reachedThreads, reached_two_pow n _ Nat.lt_two_pow_self.le]
  exact List.mem_range.mpr ht

end Blocks

/-! ### Rounding a multiple of the scale -/

section Scale

variable [IsStrictOrderedRing α] [FloorRing α] {v s : α} {n : ℤ}

omit [FloorRing α] in
theorem abs_div_le (hs : 0 < s) (h : |v| ≤ 127 * s) : |v / s| ≤ ((127 : ℤ) : α) := by
  rw [abs_div, abs_of_pos hs, div_le_iff₀ hs]
  exact_mod_cast h

theorem clamp_eq (h : |n| ≤ 127) : clamp (-127) 127 n = n := by
  have hle := abs_le.mp h
  unfold clamp
  omega

/-- Half a unit is half a scale. -/
theorem error_le (hs : 0 < s) (h : |(n : α) - v / s| ≤ 1 / 2) : |n * s - v| ≤ s / 2 := by
  have hmul : (n : α) * s - v = (n - v / s) * s := by
    rw [sub_mul, div_mul_cancel₀ v hs.ne']
  rw [hmul, abs_mul, abs_of_pos hs]
  calc |(n : α) - v / s| * s ≤ 1 / 2 * s := mul_le_mul_of_nonneg_right h hs.le
    _ = s / 2 := by ring

end Scale

/-! ### `DynamicQuantizeLinear` -/

section DynamicQuantizeLinear

variable [IsStrictOrderedRing α] [FloorRing α] {x : ℕ → α} {k m i : ℕ} {nanAsInt : ℤ}

omit [IsStrictOrderedRing α] [FloorRing α] in
theorem dynquantScale_eq (k : ℕ) (x : ℕ → α) :
    dynquantScale k x = if 0 < maxAbs k x then maxAbs k x / 127 else 1 := rfl

/-- No number of a row is further from zero than 127 scales. -/
theorem abs_le_scale (hi : i < k) : |x i| ≤ 127 * dynquantScale k x := by
  have hle := abs_le_maxAbs (x := x) hi
  rw [dynquantScale_eq]
  split
  · rwa [mul_div_cancel₀ _ (by norm_num : (127 : α) ≠ 0)]
  · linarith

theorem dynquantScale_pos (k : ℕ) (x : ℕ → α) : 0 < dynquantScale k x := by
  rw [dynquantScale_eq]
  split
  · positivity
  · exact one_pos

/-- The CPU does not clamp anything. -/
theorem dynquant_eq (hi : i < k) :
    clamp (-127) 127 (roundAway (x i * (dynquantScale k x)⁻¹)) = roundAway (x i / dynquantScale k x) := by
  have hle := abs_div_le (dynquantScale_pos k x) (abs_le_scale hi)
  rw [← div_eq_mul_inv]
  exact clamp_eq (abs_le_of_near hle (abs_roundAway_sub_le _))

/-- Neither does CUDA, in a row that is not zero. -/
theorem quantized_eq (hi : i < k) (hpos : 0 < maxAbs k x) :
    quantized nanAsInt (maxAbs k x / 127) (x i) 0 = roundEven (x i / (maxAbs k x / 127)) := by
  have hscale : dynquantScale k x = maxAbs k x / 127 := if_pos hpos
  have hs := dynquantScale_pos k x
  have hle := abs_div_le hs (abs_le_scale hi)
  rw [hscale] at hs hle
  rw [quantized, if_neg hs.ne', add_zero]
  exact clamp_eq (abs_le_of_near hle (abs_roundEven_sub_le _))

/-- A row that both quantise alike: not all zeros, and without a number in the middle after an even multiple of the
scale. -/
structure AlikeRow (k : ℕ) (x : ℕ → α) : Prop where
  nonzero : ∃ i < k, x i ≠ 0
  noMiddle : ∀ i < k, ¬IsEvenMiddle (x i / (maxAbs k x / 127))

theorem alikeRow_iff : AlikeRow k x ↔ dynquantScale k x = maxAbs k x / 127 ∧ ∀ i < k,
    clamp (-127) 127 (roundAway (x i * (dynquantScale k x)⁻¹)) = quantized nanAsInt (maxAbs k x / 127) (x i) 0 := by
  constructor
  · rintro ⟨hnonzero, hmiddle⟩
    have hpos := maxAbs_pos_iff.mpr hnonzero
    have hscale : dynquantScale k x = maxAbs k x / 127 := if_pos hpos
    refine ⟨hscale, fun i hi => ?_⟩
    rw [dynquant_eq hi, quantized_eq hi hpos, hscale]
    exact (roundAway_eq_roundEven_iff _).mpr (hmiddle i hi)
  · rintro ⟨hscale, hint⟩
    have hpos : 0 < maxAbs k x := by
      by_contra hzero
      -- the scale of a row of zeros is one on the CPU, and zero in CUDA
      have hmax : maxAbs k x = 0 := le_antisymm (not_lt.mp hzero) (maxAbs_nonneg k x)
      rw [dynquantScale_eq, if_neg hzero, hmax, zero_div] at hscale
      exact one_ne_zero hscale
    refine ⟨maxAbs_pos_iff.mp hpos, fun i hi => ?_⟩
    have heq := hint i hi
    rw [dynquant_eq hi, quantized_eq hi hpos, hscale] at heq
    exact (roundAway_eq_roundEven_iff _).mp heq

attribute [local instance] atLeastTwo_two in
/-- Both write the same outputs, over the same contents of the third, and every integer is at most half a scale
away. -/
def DynamicQuantizeLinearAgrees (nanAsInt : ℤ) (dims : List ℕ) (zeroPoint : ℕ → ℤ) (x : ℕ → α) : Prop :=
  ∃ cpu cuda, buildDynamicQuantizeLinear dims x = some cpu ∧ dynamicQuantizeLinear nanAsInt dims x = some cuda ∧
    cpu.y.Perm cuda.y ∧ cpu.scale.Perm cuda.scale ∧
    store zeroPoint cpu.zeroPoint = store zeroPoint cuda.zeroPoint ∧
    ∀ pq ∈ cpu.y, ∀ rs ∈ cpu.scale, pq.1 / dims.tail.prod = rs.1 → 0 < rs.2 → |pq.2 * rs.2 - x pq.1| ≤ rs.2 / 2

/-- When they do: the rows are along the last axis, `int`s can index them, all are alike, and the zero points were
zero before. -/
def DynamicQuantizeLinearAlike (dims : List ℕ) (zeroPoint : ℕ → ℤ) (x : ℕ → α) : Prop :=
  ∃ m rest, dims = m :: rest ∧ dims.getLast? = some rest.prod ∧ 0 < m ∧ 0 < rest.prod ∧
    m < 2 ^ 31 ∧ rest.prod + 255 < 2 ^ 31 ∧
    ∀ r < m, zeroPoint r = 0 ∧ AlikeRow rest.prod fun i => x (r * rest.prod + i)

/-- The last dimension is the length of the rows if there are as many of them as of the first. -/
theorem last_eq_prod {rest : List ℕ} (hm : 0 < m) (hk : 0 < k) (hlast : (m :: rest).getLast? = some k)
    (hrows : (m :: rest).prod / k = m) : k = rest.prod := by
  rw [List.prod_cons] at hrows
  cases rest with
  | nil =>
      obtain rfl : m = k := by simpa using hlast
      rw [List.prod_nil, Nat.mul_one, Nat.div_self hm] at hrows
      exact hrows.symm
  | cons d rest =>
      rw [List.getLast?_cons_cons] at hlast
      obtain ⟨c, hc⟩ := List.dvd_prod (List.mem_of_getLast? hlast)
      rw [hc, Nat.mul_left_comm, Nat.mul_div_cancel_left _ hk] at hrows
      rw [hc, Nat.eq_of_mul_eq_mul_left hm (hrows.trans (Nat.mul_one m).symm), Nat.mul_one]

/-- What both write for `m` rows of `k` numbers. -/
theorem outputs_agree_iff {zeroPoint : ℕ → ℤ} {cuda : Outputs α}
    (hy : cuda.y.Perm ((List.range m).flatMap fun r => (List.range k).map fun i =>
      (r * k + i, quantized nanAsInt (maxAbs k (fun i => x (r * k + i)) / 127) (x (r * k + i)) 0)))
    (hscale : cuda.scale = (List.range m).map fun r => (r, maxAbs k (fun i => x (r * k + i)) / 127))
    (hzero : cuda.zeroPoint = (List.range m).map fun r => (r, 0)) :
    ((dynquantI8 m k x).y.Perm cuda.y ∧ (dynquantI8 m k x).scale.Perm cuda.scale ∧
        store zeroPoint (dynquantI8 m k x).zeroPoint = store zeroPoint cuda.zeroPoint) ↔
      ∀ r < m, zeroPoint r = 0 ∧ AlikeRow k fun i => x (r * k + i) := by
  have hstore : store zeroPoint (dynquantI8 m k x).zeroPoint = store zeroPoint cuda.zeroPoint ↔
      ∀ r < m, zeroPoint r = 0 := by
    rw [hzero, store_map]
    constructor
    · intro h r hr
      have heq := congrFun h r
      rwa [if_pos hr] at heq
    · intro h
      funext r
      by_cases hr : r < m
      · rw [if_pos hr]
        exact h r hr
      · rw [if_neg hr]
        rfl
  have hscales : (dynquantI8 m k x).scale.Perm cuda.scale ↔
      ∀ r < m, dynquantScale k (fun i => x (r * k + i)) = maxAbs k (fun i => x (r * k + i)) / 127 := by
    rw [hscale]
    exact perm_map_iff id fun _ _ h => h
  have hints : (dynquantI8 m k x).y.Perm cuda.y ↔ ∀ r < m, ∀ i < k,
      clamp (-127) 127 (roundAway (x (r * k + i) * (dynquantScale k fun i => x (r * k + i))⁻¹)) =
        quantized nanAsInt (maxAbs k (fun i => x (r * k + i)) / 127) (x (r * k + i)) 0 := by
    rw [hy.congr_right, ← forall_rows_iff]
    unfold dynquantI8
    rw [rows_eq, rows_eq]
    exact perm_map_iff id fun _ _ h => h
  rw [hints, hscales, hstore]
  constructor
  · rintro ⟨h1, h2, h3⟩ r hr
    exact ⟨h3 r hr, alikeRow_iff.mpr ⟨h2 r hr, h1 r hr⟩⟩
  · intro h
    refine ⟨fun r hr => ?_, fun r hr => ?_, fun r hr => (h r hr).1⟩
    · exact (alikeRow_iff.mp (h r hr).2).2
    · exact ((@alikeRow_iff α _ _ _ _ _ k nanAsInt).mp (h r hr).2).1

/-- The integers of the CPU are at most half a scale away. -/
theorem dynquantI8_error {pq : ℕ × ℤ} (hpq : pq ∈ (dynquantI8 m k x).y) {rs : ℕ × α}
    (hrs : rs ∈ (dynquantI8 m k x).scale) (hrow : pq.1 / k = rs.1) : |pq.2 * rs.2 - x pq.1| ≤ rs.2 / 2 := by
  obtain ⟨r, -, rfl⟩ := List.mem_map.mp hrs
  obtain ⟨r', -, hpq⟩ := List.mem_flatMap.mp hpq
  obtain ⟨i, hi, rfl⟩ := List.mem_map.mp hpq
  have hi := List.mem_range.mp hi
  obtain rfl : r' = r := (row_of_address hi).1.symm.trans hrow
  have hround := abs_roundAway_sub_le (x (r' * k + i) / dynquantScale k fun i => x (r' * k + i))
  rw [← @dynquant_eq α _ _ _ _ (fun i => x (r' * k + i)) k i hi] at hround
  exact error_le (dynquantScale_pos k _) hround

theorem dynamicQuantizeLinear_iff (nanAsInt : ℤ) (dims : List ℕ) (zeroPoint : ℕ → ℤ) (x : ℕ → α) :
    DynamicQuantizeLinearAgrees nanAsInt dims zeroPoint x ↔ DynamicQuantizeLinearAlike dims zeroPoint x := by
  -- what CUDA writes, row by row
  have hcuda : ∀ m k : ℕ, ((List.range m).flatMap fun axis => (List.range blockSize).flatMap fun tid =>
      (strided k blockSize k tid).map fun i => (axis * k + i, quantized nanAsInt
        (blockMaxAbs k (fun i => x (axis * k + i)) / 127) (x (axis * k + i)) 0)).Perm
      ((List.range m).flatMap fun r => (List.range k).map fun i =>
        (r * k + i, quantized nanAsInt (maxAbs k (fun i => x (r * k + i)) / 127) (x (r * k + i)) 0)) := by
    intro m k
    simp only [blockMaxAbs_eq]
    exact List.Perm.flatMap_left _ fun r _ => strided_perm (by decide) k _
  have hscales : ∀ m k : ℕ, ((List.range m).map fun axis => (axis, blockMaxAbs k (fun i => x (axis * k + i)) / 127)) =
      (List.range m).map fun r => (r, maxAbs k (fun i => x (r * k + i)) / 127) := by
    intro m k
    simp only [blockMaxAbs_eq]
  have hagree := fun m k =>
    @outputs_agree_iff α _ _ _ _ x k m nanAsInt zeroPoint ⟨_, _, _⟩ (hcuda m k) (hscales m k) rfl
  constructor
  · rintro ⟨cpu, cuda, hcpu, hcuda', hy, hscale, hzero, -⟩
    unfold buildDynamicQuantizeLinear at hcpu
    split at hcpu
    · cases hcpu
    · rename_i k hlast
      split at hcpu
      · cases hcpu
      · rename_i hk
        obtain rfl := Option.some.inj hcpu
        unfold dynamicQuantizeLinear at hcuda'
        split at hcuda'
        · cases hcuda'
        · rename_i m rest
          dsimp only at hcuda'
          split at hcuda'
          · cases hcuda'
          · rename_i hfits
            obtain rfl := Option.some.inj hcuda'
            have hrows := hscale.length_eq
            simp only [dynquantI8, List.length_map, List.length_range] at hrows
            obtain rfl := last_eq_prod (by omega) (by omega) hlast hrows
            rw [hrows] at hy hscale hzero
            refine ⟨m, rest, rfl, hlast, by omega, by omega, by omega, ?_, (hagree m _).mp ⟨hy, hscale, hzero⟩⟩
            unfold blockSize at hfits
            omega
  · rintro ⟨m, rest, rfl, hlast, hm, hk, hm', hk', halike⟩
    have hrows : (m :: rest).prod / rest.prod = m := by rw [List.prod_cons, Nat.mul_div_cancel _ hk]
    have hcpu : buildDynamicQuantizeLinear (m :: rest) x = some (dynquantI8 m rest.prod x) := by
      unfold buildDynamicQuantizeLinear
      rw [hlast]
      dsimp only
      rw [if_neg hk.ne', hrows]
    refine ⟨_, _, hcpu, if_neg (by unfold blockSize; omega), ?_⟩
    obtain ⟨hy, hscale, hzero⟩ := (hagree m _).mpr halike
    exact ⟨hy, hscale, hzero, fun pq hpq rs hrs hrow _ => dynquantI8_error hpq hrs hrow⟩

end DynamicQuantizeLinear

/-! ### `QuantizingKVCacheUpdate` -/

section Update

variable [IsStrictOrderedRing α] {u : Update} {newKv : ℕ → α} {r d : ℕ}

/-- A new row. -/
def Update.newRow (u : Update) (newKv : ℕ → α) (r d : ℕ) : α := newKv (r * u.headDim + d)

attribute [local instance] atLeastTwo_127 in
/-- What a number is multiplied by, from the largest magnitude of its row. -/
def inverse (m : α) : α := if m = 0 then 0 else 127 / m

omit [IsStrictOrderedRing α] in
/-- `1 / s` is the same. -/
theorem inverse_eq (m : α) : (if m = 0 then 0 else 1 / (m / 127)) = inverse m := by
  unfold inverse
  rw [one_div_div]

theorem abs_mul_inverse_le {m v : α} (hv : |v| ≤ m) : |v * inverse m| ≤ ((127 : ℤ) : α) := by
  unfold inverse
  split
  · simp
  · rename_i hm
    have hpos : 0 < m := lt_of_le_of_ne ((abs_nonneg v).trans hv) (Ne.symm hm)
    rw [abs_mul, abs_of_pos (by positivity : 0 < 127 / m), ← mul_div_assoc, div_le_iff₀ hpos, mul_comm]
    push_cast
    linarith

/-- The largest magnitude that the block of a row finds. -/
def Update.cudaMax (u : Update) (newKv : ℕ → α) (r : ℕ) : α :=
  maxAbsAt (u.newRow newKv r) ((List.range u.headDim).filter fun d =>
    d % Update.kvBlockSize u.headDim ∈ reachedThreads (Update.kvBlockSize u.headDim))

theorem Update.kvBlockSize_pos (headDim : ℕ) : 0 < Update.kvBlockSize headDim := by
  unfold Update.kvBlockSize
  omega

variable [FloorRing α]

/-- The integer for a number of a row. -/
def kvInt (m v : α) : ℤ := roundAway (v * inverse m)

theorem abs_kvInt_le {m v : α} (hv : |v| ≤ m) : |kvInt m v| ≤ 127 :=
  abs_le_of_near (abs_mul_inverse_le hv) (abs_roundAway_sub_le _)

/-- The row of the cache that the CPU writes. -/
theorem Update.cpuRow_eq (r : ℕ) : u.cpuRow newKv r = {
    cache := (List.range u.headDim).map fun d =>
      ((r / u.newSeq * u.maxSeq + (u.offset + r % u.newSeq)) * u.headDim + d,
        kvInt (maxAbs u.headDim (u.newRow newKv r)) (u.newRow newKv r d))
    scale := (r / u.newSeq * u.maxSeq + (u.offset + r % u.newSeq), maxAbs u.headDim (u.newRow newKv r) / 127) } := by
  have hsrc : r / u.newSeq * u.newSeq + r % u.newSeq = r := by rw [Nat.mul_comm, Nat.div_add_mod]
  have hmax : (List.range u.headDim).foldl
      (fun curMax d => max curMax (max (newKv (r * u.headDim + d)) (-newKv (r * u.headDim + d)))) 0 =
        maxAbs u.headDim (u.newRow newKv r) := rfl
  unfold Update.cpuRow
  dsimp only
  rw [hsrc, hmax, mul_one_div]
  congr 1
  refine List.map_congr_left fun d hd => ?_
  have hle := abs_le.mp (abs_kvInt_le (abs_le_maxAbs (x := u.newRow newKv r) (List.mem_range.mp hd)))
  rw [truncate_half]
  congr 1
  unfold kvInt inverse Update.newRow at *
  omega

omit [IsStrictOrderedRing α] in
/-- The row of the cache that CUDA writes. -/
theorem Update.cudaRow_eq (r : ℕ) : u.cudaRow newKv r = {
    cache := (List.range (Update.kvBlockSize u.headDim)).flatMap fun tid =>
      (strided u.headDim (Update.kvBlockSize u.headDim) u.headDim tid).map fun d =>
        (r / u.newSeq * u.maxSeq * u.headDim + u.phys (r % u.newSeq) * u.headDim + d,
          (fun q => if 127 < q then 127 else q) ((fun q => if q < -128 then -128 else q)
            (kvInt (u.cudaMax newKv r) (u.newRow newKv r d))))
    scale := (r / u.newSeq * u.maxSeq + u.phys (r % u.newSeq), u.cudaMax newKv r / 127) } := by
  have hsrc : ∀ d, newKv (r / u.newSeq * u.newSeq * u.headDim + r % u.newSeq * u.headDim + d) =
      u.newRow newKv r d := by
    intro d
    rw [← Nat.add_mul, Nat.mul_comm _ u.newSeq, Nat.div_add_mod]
    rfl
  have hop : (fun own other : α => if own < other then other else own) = max := by
    funext own other
    exact (max_def_lt own other).symm
  have hlocal : ∀ tid, (strided u.headDim (Update.kvBlockSize u.headDim) u.headDim tid).foldl
      (fun localMax d => if localMax < |u.newRow newKv r d| then |u.newRow newKv r d| else localMax) 0 =
        maxAbsAt (u.newRow newKv r) (strided u.headDim (Update.kvBlockSize u.headDim) u.headDim tid) := by
    intro tid
    unfold maxAbsAt
    congr 1
    funext localMax d
    exact congrFun (congrFun hop _) _
  unfold Update.cudaRow
  simp only [hsrc, hop, hlocal, sharedMax_eq (Update.kvBlockSize_pos u.headDim)]
  simp only [inverse_eq]
  rfl

/-- If the block finds the largest magnitude, both write the same. -/
theorem Update.cache_perm (hslot : u.phys (r % u.newSeq) = u.offset + r % u.newSeq)
    (hmax : u.cudaMax newKv r = maxAbs u.headDim (u.newRow newKv r)) :
    (u.cpuRow newKv r).cache.Perm (u.cudaRow newKv r).cache := by
  rw [Update.cpuRow_eq, Update.cudaRow_eq, hmax]
  refine .trans (.of_eq (List.map_congr_left fun d hd => ?_)) (strided_perm (Update.kvBlockSize_pos u.headDim) _ _).symm
  have hle := abs_le.mp (abs_kvInt_le (abs_le_maxAbs (x := u.newRow newKv r) (List.mem_range.mp hd)))
  dsimp only
  rw [hslot, Nat.add_mul, if_neg (by omega), if_neg (by omega)]

/-- Both find the same scale only then. -/
theorem Update.scale_eq_iff (hslot : u.phys (r % u.newSeq) = u.offset + r % u.newSeq) :
    (u.cpuRow newKv r).scale = (u.cudaRow newKv r).scale ↔
      u.cudaMax newKv r = maxAbs u.headDim (u.newRow newKv r) := by
  rw [Update.cpuRow_eq, Update.cudaRow_eq, hslot]
  simp only [Prod.mk.injEq, true_and]
  rw [div_left_inj' (by norm_num : (127 : α) ≠ 0), eq_comm]

/-- The integers of the CPU are at most half a scale away. -/
theorem Update.cpuRow_error {pq : ℕ × ℤ} (hpq : pq ∈ (u.cpuRow newKv r).cache)
    (hpos : 0 < (u.cpuRow newKv r).scale.2) :
    |pq.2 * (u.cpuRow newKv r).scale.2 - newKv (r * u.headDim + pq.1 % u.headDim)| ≤ (u.cpuRow newKv r).scale.2 / 2 := by
  rw [Update.cpuRow_eq] at hpq hpos ⊢
  obtain ⟨d, hd, rfl⟩ := List.mem_map.mp hpq
  rw [(row_of_address (List.mem_range.mp hd)).2]
  dsimp only at hpos ⊢
  refine error_le hpos ?_
  have hround := abs_roundAway_sub_le (u.newRow newKv r d / (maxAbs u.headDim (u.newRow newKv r) / 127))
  have hne : maxAbs u.headDim (u.newRow newKv r) ≠ 0 := by
    intro hzero
    rw [hzero, zero_div] at hpos
    exact lt_irrefl 0 hpos
  rwa [kvInt, inverse, if_neg hne, ← mul_div_assoc, ← div_div_eq_mul_div]

attribute [local instance] atLeastTwo_two in
/-- Both write the same rows, and every integer is at most half a scale away. -/
def Update.Agrees (u : Update) (newKv : ℕ → α) : Prop :=
  ∃ cpu cuda, u.buildQuantizingKVCacheUpdate newKv = some cpu ∧ u.quantizingKVCacheUpdate newKv = some cuda ∧
    List.Forall₂ (fun row row' => row.cache.Perm row'.cache ∧ row.scale = row'.scale) cpu cuda ∧
    ∀ r row, cpu[r]? = some row → ∀ pq ∈ row.cache, 0 < row.scale.2 →
      |pq.2 * row.scale.2 - newKv (r * u.headDim + pq.1 % u.headDim)| ≤ row.scale.2 / 2

/-- When they do: `int`s can index the rows, and the loop of a block reaches a thread that holds the largest
magnitude of its row. -/
def Update.Alike (u : Update) (newKv : ℕ → α) : Prop :=
  0 < u.rows ∧ u.rows < 2 ^ 31 ∧ 0 < u.headDim ∧ ∀ r < u.rows, u.IntsFit r ∧
    ∃ d < u.headDim, d % Update.kvBlockSize u.headDim ∈ reachedThreads (Update.kvBlockSize u.headDim) ∧
      ∀ d' < u.headDim, |u.newRow newKv r d'| ≤ |u.newRow newKv r d|

theorem Update.agreement_iff (hslot : ∀ t < u.newSeq, u.phys t = u.offset + t) : u.Agrees newKv ↔ u.Alike newKv := by
  have hmax : 0 < u.headDim → ∀ r, u.cudaMax newKv r = maxAbs u.headDim (u.newRow newKv r) ↔
      ∃ d < u.headDim, d % Update.kvBlockSize u.headDim ∈ reachedThreads (Update.kvBlockSize u.headDim) ∧
        ∀ d' < u.headDim, |u.newRow newKv r d'| ≤ |u.newRow newKv r d| := by
    intro hdim r
    refine maxAbsAt_eq_iff (fun d => ?_) hdim ?_
    · rw [List.mem_filter, List.mem_range, decide_eq_true_eq]
    · rw [Nat.zero_mod]
      exact zero_mem_reached _
  have hslots : 0 < u.rows → ∀ r, u.phys (r % u.newSeq) = u.offset + r % u.newSeq := by
    intro hrows r
    have hnew : 0 < u.newSeq := Nat.pos_of_mul_pos_left hrows
    exact hslot _ (Nat.mod_lt r hnew)
  constructor
  · rintro ⟨cpu, cuda, hcpu, hcuda, hrows, -⟩
    unfold Update.buildQuantizingKVCacheUpdate at hcpu
    unfold Update.quantizingKVCacheUpdate at hcuda
    split at hcpu
    · cases hcpu
    · rename_i hdims
      split at hcuda
      · rename_i hfits
        obtain rfl := Option.some.inj hcpu
        obtain rfl := Option.some.inj hcuda
        rw [List.forall₂_map_left_iff, List.forall₂_map_right_iff, List.forall₂_same] at hrows
        have hdim : 0 < u.headDim := by omega
        refine ⟨hfits.1, hfits.2.1, hdim, fun r hr => ⟨hfits.2.2 r hr, ?_⟩⟩
        have hscale := (hrows r (List.mem_range.mpr hr)).2
        exact (hmax hdim r).mp ((Update.scale_eq_iff (hslots hfits.1 r)).mp hscale)
      · cases hcuda
  · rintro ⟨hpos, hrows, hdim, hrow⟩
    refine ⟨_, _, if_neg (by omega), if_pos ⟨hpos, hrows, fun r hr => (hrow r hr).1⟩, ?_, ?_⟩
    · rw [List.forall₂_map_left_iff, List.forall₂_map_right_iff, List.forall₂_same]
      intro r hr
      have heq := (hmax hdim r).mpr (hrow r (List.mem_range.mp hr)).2
      exact ⟨Update.cache_perm (hslots hpos r) heq, (Update.scale_eq_iff (hslots hpos r)).mpr heq⟩
    · intro r row hget pq hpq
      rw [List.getElem?_map] at hget
      obtain ⟨r', hr', rfl⟩ := Option.map_eq_some_iff.mp hget
      obtain ⟨hlt, heq⟩ := List.getElem?_eq_some_iff.mp hr'
      obtain rfl : r = r' := by rw [← heq, List.getElem_range]
      exact Update.cpuRow_error hpq

omit [IsStrictOrderedRing α] [FloorRing α] in
/-- The loop of a block with a power of two of threads reaches all of them. -/
theorem Update.alike_of_two_pow {n : ℕ} (hblock : Update.kvBlockSize u.headDim = 2 ^ n) (hpos : 0 < u.rows)
    (hrows : u.rows < 2 ^ 31) (hdim : 0 < u.headDim) (hfit : ∀ r < u.rows, u.IntsFit r) : u.Alike newKv := by
  refine ⟨hpos, hrows, hdim, fun r hr => ⟨hfit r hr, ?_⟩⟩
  obtain ⟨d, hd, hle⟩ := Finset.exists_max_image (Finset.range u.headDim) (fun d => |u.newRow newKv r d|)
    ⟨0, Finset.mem_range.mpr hdim⟩
  refine ⟨d, Finset.mem_range.mp hd, ?_, fun d' hd' => hle d' (Finset.mem_range.mpr hd')⟩
  rw [hblock]
  exact mem_reachedThreads_two_pow n (Nat.mod_lt d (Nat.two_pow_pos n))

end Update

/-! ### Both operators -/

/-- The two backends quantise alike exactly where these conditions hold. -/
theorem quantizers_agree_iff [IsStrictOrderedRing α] [FloorRing α] (nanAsInt : ℤ) (dims : List ℕ)
    (zeroPoint : ℕ → ℤ) (x : ℕ → α) (u : Update) (newKv : ℕ → α)
    (hslot : ∀ t < u.newSeq, u.phys t = u.offset + t) :
    (DynamicQuantizeLinearAgrees nanAsInt dims zeroPoint x ↔ DynamicQuantizeLinearAlike dims zeroPoint x) ∧
      (u.Agrees newKv ↔ u.Alike newKv) :=
  ⟨dynamicQuantizeLinear_iff nanAsInt dims zeroPoint x, Update.agreement_iff hslot⟩

/-- Two new rows of 64 numbers in a cache for eight, after the first three. -/
def decodeUpdate (headDim : ℕ) : Update where
  bDim := 1
  hDim := 1
  maxSeq := 8
  newSeq := 2
  headDim := headDim
  offset := 3
  ringSink := 0
  ringWindow := 0
  ringStart := 0

/-- A row of 127 and another number, the scale of which is one. -/
def pair (v : ℚ) (i : ℕ) : ℚ := if i = 0 then 127 else v

theorem maxAbs_pair {v : ℚ} (hv : |v| ≤ 127) : maxAbs 2 (pair v) = 127 := by
  apply le_antisymm
  · rw [maxAbs_le_iff]
    refine ⟨by norm_num, fun i _ => ?_⟩
    unfold pair
    split
    · norm_num
    · exact hv
  · have hfirst := abs_le_maxAbs (x := pair v) (by norm_num : 0 < 2)
    simpa [pair] using hfirst

theorem alike_pair_iff {v : ℚ} (hv : |v| ≤ 127) (zeroPoint : ℕ → ℤ) :
    DynamicQuantizeLinearAlike [1, 2] zeroPoint (pair v) ↔ zeroPoint 0 = 0 ∧ ¬IsEvenMiddle v := by
  have hrow : (fun i => pair v (0 * [2].prod + i)) = pair v := by
    funext i
    rw [Nat.zero_mul, Nat.zero_add]
  have hscale : ∀ a : ℚ, a / (maxAbs 2 (pair v) / 127) = a := fun a => by
    rw [maxAbs_pair hv]
    norm_num
  constructor
  · rintro ⟨m, rest, heq, -, hm, -, -, -, halike⟩
    obtain ⟨rfl, rfl⟩ := List.cons.inj heq
    obtain ⟨hzero, -, hmiddle⟩ := halike 0 hm
    have hsecond := hmiddle 1 (by norm_num)
    rw [hrow] at hsecond
    refine ⟨hzero, ?_⟩
    change ¬IsEvenMiddle (v / (maxAbs 2 (pair v) / 127)) at hsecond
    rwa [hscale] at hsecond
  · rintro ⟨hzero, hmiddle⟩
    refine ⟨1, [2], rfl, rfl, by norm_num, by norm_num, by norm_num, by norm_num, fun r hr => ?_⟩
    obtain rfl : r = 0 := by omega
    refine ⟨hzero, ⟨0, by norm_num, by norm_num [pair]⟩, fun i hi => ?_⟩
    have hvalue := congrFun hrow i
    rw [hvalue, hrow]
    change ¬IsEvenMiddle (pair v i / (maxAbs 2 (pair v) / 127))
    rw [hscale]
    unfold pair
    split
    · exact_mod_cast not_isEvenMiddle_int 127
    · exact hmiddle

/-- They agree on a row without a tie, and on any rows of 64 numbers in a cache. -/
theorem quantizers_agree_example :
    DynamicQuantizeLinearAgrees 0 [1, 2] (fun _ => 0) (pair 3) ∧ (decodeUpdate 64).Agrees fun i => (i : ℚ) := by
  have hiff := quantizers_agree_iff 0 [1, 2] (fun _ => 0) (pair 3) (decodeUpdate 64) (fun i => (i : ℚ)) fun _ _ => rfl
  refine ⟨hiff.1.mpr ?_, hiff.2.mpr ?_⟩
  · rw [alike_pair_iff (by norm_num)]
    exact ⟨rfl, by exact_mod_cast not_isEvenMiddle_int 3⟩
  · exact Update.alike_of_two_pow (n := 6) rfl (by decide) (by decide) (by decide) (by decide)

/-- A tie, a row of zeros, a zero point of something else, and a row of 96 numbers of which the third is the largest. -/
theorem quantizers_differ :
    ¬DynamicQuantizeLinearAgrees 0 [1, 2] (fun _ => 0) (pair (1 / 2)) ∧
      ¬DynamicQuantizeLinearAgrees 0 [1, 2] (fun _ => 0) (fun _ => (0 : ℚ)) ∧
      ¬DynamicQuantizeLinearAgrees 0 [1, 2] (fun _ => 5) (pair 3) ∧
      ¬(decodeUpdate 96).Agrees fun i => if i = 2 then (1 : ℚ) else 0 := by
  refine ⟨?_, ?_, ?_, ?_⟩
  · rw [dynamicQuantizeLinear_iff, alike_pair_iff (by norm_num [abs_of_pos])]
    rintro ⟨-, hmiddle⟩
    exact hmiddle ⟨0, by norm_num [abs_of_pos]⟩
  · rw [dynamicQuantizeLinear_iff]
    rintro ⟨m, rest, heq, -, hm, -, -, -, halike⟩
    obtain ⟨i, -, hne⟩ := (halike 0 hm).2.nonzero
    exact hne rfl
  · rw [dynamicQuantizeLinear_iff, alike_pair_iff (by norm_num)]
    rintro ⟨hzero, -⟩
    exact absurd hzero (by norm_num)
  · rw [Update.agreement_iff fun _ _ => rfl]
    rintro ⟨-, -, -, hrow⟩
    obtain ⟨-, d, hd, hreach, hle⟩ := hrow 0 (by decide)
    have hthird := hle 2 (by decide)
    have hrow0 : ∀ d, (decodeUpdate 96).newRow (fun i => if i = 2 then (1 : ℚ) else 0) 0 d = if d = 2 then 1 else 0 := by
      intro d
      unfold Update.newRow
      rw [Nat.zero_mul, Nat.zero_add]
    rw [hrow0, hrow0] at hthird
    by_cases h2 : d = 2
    · -- the third thread is not reached
      rw [h2] at hreach
      exact absurd hreach (by decide +kernel)
    · rw [if_neg h2] at hthird
      norm_num at hthird

end Quantizers
end NnEngine
