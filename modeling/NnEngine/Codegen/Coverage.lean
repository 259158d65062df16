import NnEngine.Tensor.Types
import NnEngine.Result
import Mathlib.Tactic

/-!
# Which elements a generated loop writes

The loops that `codegen/cpu/translator.rs` makes for elementwise operators, `Where` and copies, and the guard of
the generated CUDA kernels, in the arithmetic of the machine.  A loop is told by the row-major numbers of the
elements that it writes, in order.

A scalar has one element and no dims, and the `size()` of its dims is 0.  So a loop that tests its bound first
leaves a scalar unwritten, and a loop that tests it afterwards never meets the bound of a scalar, nor that of an
empty tensor.
-/

namespace NnEngine
namespace Coverage

/-- The elements of a tensor: one for a scalar, none if a dim is zero. -/
def elements (dims : ResolvedTensorDims) : Nat := dims.prod

/-- The loop ends, and has written every element exactly once. -/
def Covers (dims : ResolvedTensorDims) (written : Option (List Nat)) : Prop :=
  ∃ l, written = some l ∧ l.Perm (List.range (elements dims))

/-! ### Loops on the CPU -/

/-- `init_counted_loop` and `finalize_counted_loop`: the body runs before the counter is compared with the
bound. -/
def countedFrom (bound : Nat) : Nat → Nat → Option (List Nat)
  | 0, _ => none
  | fuel + 1, ind =>
      let next := (ind + 1) % 2 ^ 64
      if next = bound then some [ind]
      else (countedFrom bound fuel next).map (ind :: ·)

/-- The loop from 0.  After `2 ^ 64` steps the counter has come around. -/
def countedLoop (bound : Nat) : Option (List Nat) := countedFrom (bound % 2 ^ 64) (2 ^ 64) 0

/-- `build_where`, and likewise `build_expand` and `build_slice`. -/
def whereLoop (dims : ResolvedTensorDims) : Option (List Nat) := countedLoop dims.size

/-- `build_flat_loop_body`, whose comparison has a sign. -/
def flatLoopBody (lb ub : Int) : List Int :=
  if lb < ub then lb :: flatLoopBody (lb + 1) ub else []
termination_by (ub - lb).toNat

/-- `build_flat_loop` on one thread. -/
def flatLoop (dims : ResolvedTensorDims) : Option (List Nat) :=
  some ((flatLoopBody 0 (BitVec.ofNat 64 dims.size).toInt).map Int.toNat)

/-- `build_flat_loop` on a team, with `omp_for_static`.  `bound - 1` has no value for a bound of 0.  The runtime
gives each thread of the team its bounds. -/
def ompFlatLoop (staticInit : Int → List (Int × Int)) (dims : ResolvedTensorDims) : Option (List Nat) :=
  if dims.size = 0 then none
  else
    let len := (BitVec.ofNat 32 (dims.size - 1)).toInt
    some <| (staticInit len).flatMap fun (lb, ub) =>
      let ubOpen := (BitVec.ofInt 32 (min ub len + 1)).toInt
      if lb < ubOpen then (flatLoopBody lb ubOpen).map Int.toNat else []

/-- `__kmpc_for_static_init_4` with a static schedule: bounds of 32 bits, which divide the iterations `0..=n`
among the threads. -/
structure SplitsStatic (staticInit : Int → List (Int × Int)) : Prop where
  bounds : ∀ n : Nat, n < 2 ^ 31 → ∀ c ∈ staticInit n, -2 ^ 31 ≤ c.2 ∧ c.2 < 2 ^ 31
  divides : ∀ n : Nat, n < 2 ^ 31 →
    ((staticInit n).flatMap fun c => flatLoopBody c.1 (min c.2 (n : Int) + 1)).Perm
      (flatLoopBody 0 (n + 1))

/-- The copy of `Identity` and `Reinterpret`: one `memcpy` of the bytes of the output. -/
def memcpy (elemType : DataType) (dims : ResolvedTensorDims) : Option (List Nat) :=
  let len := elemType.bitWidth / 8 * dims.size % 2 ^ 64
  some (List.range (len / (elemType.bitWidth / 8)))

/-! ### CUDA -/

/-- `DEFAULT_BLOCK_SIZE`. -/
def defaultBlockSize : Nat := 256

/-- A thread of a guarded kernel.  Its number is an `int`; a store in front of the buffer has no result. -/
def guardedThread (size i : Nat) : Option (List Nat) :=
  let gid := (BitVec.ofNat 32 i).toInt
  if size ≤ gid then some []
  else if gid < 0 then none
  else some [gid.toNat]

/-- `create_launch_kernel` with the number of threads, for a kernel guarded by `size <= gid`. -/
def launchGuarded (numThreads size : Nat) : Option (List Nat) :=
  let gridSize := numThreads / defaultBlockSize + if numThreads % defaultBlockSize = 0 then 0 else 1
  ((List.range (gridSize * defaultBlockSize)).mapM (guardedThread size)).map List.flatten

/-- `ElementwiseKernelBuilder`; `tensor_idx` knows one to five axes. -/
def elementwiseKernel (dims : ResolvedTensorDims) : Option (List Nat) :=
  if 1 ≤ dims.length ∧ dims.length ≤ 5 then launchGuarded dims.size dims.size else none

/-- `WhereBuilder`. -/
def whereKernel (dims : ResolvedTensorDims) : Option (List Nat) := launchGuarded dims.size dims.size

/-- `CopyBuilder`: the threads are those of the output, the guard is that of the input. -/
def copyKernel (input output : ResolvedTensorDims) : Option (List Nat) := launchGuarded output.size input.size

/-! ### What the loops write -/

variable {dims input : ResolvedTensorDims} {written l : List Nat}

theorem size_of_ne_nil (h : dims ≠ []) : dims.size = elements dims := by
  cases dims with
  | nil => exact absurd rfl h
  | cons d dims => rfl

theorem Covers.length (h : Covers dims (some l)) : l.length = elements dims := by
  obtain ⟨_, ⟨⟩, hperm⟩ := h
  rw [hperm.length_eq, List.length_range]

theorem not_covers_none : ¬Covers dims none := fun ⟨_, h, _⟩ => nomatch h

theorem covers_range {n : Nat} : Covers dims (some (List.range n)) ↔ n = elements dims := by
  constructor
  · intro h
    rw [← h.length, List.length_range]
  · rintro rfl
    exact ⟨_, rfl, .refl _⟩

/-- The counted loop runs `k` more times if it meets its bound after `k` steps, perhaps by coming around. -/
theorem countedFrom_eq {bound fuel ind k : Nat} (hk : 0 < k) (hfuel : k ≤ fuel) (hle : ind + k ≤ 2 ^ 64)
    (hbound : (ind + k) % 2 ^ 64 = bound) : countedFrom bound fuel ind = some (List.range' ind k) := by
  induction k generalizing fuel ind with
  | zero => exact absurd hk (Nat.lt_irrefl 0)
  | succ k ih =>
      obtain ⟨fuel, rfl⟩ := Nat.exists_eq_add_of_le' (Nat.lt_of_lt_of_le hk hfuel)
      unfold countedFrom
      rcases Nat.eq_zero_or_pos k with rfl | hpos
      · exact if_pos hbound
      · have hnext : (ind + 1) % 2 ^ 64 = ind + 1 := Nat.mod_eq_of_lt (by omega)
        have hne : ind + 1 ≠ bound := by omega
        rw [hnext]
        simp only [if_neg hne]
        rw [ih hpos (by omega) (by omega) (by rw [← hbound]; congr 1; omega)]
        rfl

theorem countedLoop_eq (bound : Nat) :
    countedLoop bound = some (List.range (if bound % 2 ^ 64 = 0 then 2 ^ 64 else bound % 2 ^ 64)) := by
  have hlt := Nat.mod_lt bound (show 0 < 2 ^ 64 by decide)
  rw [List.range_eq_range']
  unfold countedLoop
  split
  · rename_i hzero
    refine countedFrom_eq (by decide) le_rfl (by simp) ?_
    rw [hzero, Nat.zero_add, Nat.mod_self]
  · rename_i hne
    refine countedFrom_eq (by omega) (by omega) (by omega) ?_
    rw [Nat.zero_add, Nat.mod_mod]

theorem flatLoopBody_eq (lb ub : Int) :
    flatLoopBody lb ub = (List.range (ub - lb).toNat).map fun i : Nat => lb + i := by
  fun_induction flatLoopBody lb ub with
  | case1 lb hlt ih =>
      obtain ⟨n, hn⟩ : ∃ n, (ub - lb).toNat = n + 1 := ⟨(ub - lb).toNat - 1, by omega⟩
      have hn' : (ub - (lb + 1)).toNat = n := by omega
      rw [ih, hn, hn', List.range_succ_eq_map, List.map_cons, List.map_map]
      congr 1
      · simp
      · refine List.map_congr_left fun i _ => ?_
        simp only [Function.comp_apply]
        omega
  | case2 lb hlt =>
      have hzero : (ub - lb).toNat = 0 := by omega
      rw [hzero]
      rfl

theorem flatLoopBody_zero (ub : Int) : (flatLoopBody 0 ub).map Int.toNat = List.range ub.toNat := by
  rw [flatLoopBody_eq, List.map_map, Int.sub_zero]
  refine (List.map_congr_left fun i _ => ?_).trans (List.map_id _)
  simp

theorem toInt_ofNat {n : Nat} : (BitVec.ofNat 64 n).toInt.toNat = n ↔ n < 2 ^ 63 := by
  rw [BitVec.toInt_ofNat', Int.bmod_def]
  constructor
  · intro h
    split at h <;> omega
  · intro h
    split <;> omega

/-! ### Coverage -/

theorem flatLoop_iff : Covers dims (flatLoop dims) ↔ dims ≠ [] ∧ elements dims < 2 ^ 63 := by
  unfold flatLoop
  rw [flatLoopBody_zero, covers_range]
  by_cases hnil : dims = []
  · rw [hnil]
    decide
  · rw [size_of_ne_nil hnil, toInt_ofNat, and_iff_right hnil]

theorem whereLoop_iff :
    Covers dims (whereLoop dims) ↔ dims ≠ [] ∧ 0 < elements dims ∧ elements dims ≤ 2 ^ 64 := by
  unfold whereLoop
  rw [countedLoop_eq, covers_range]
  by_cases hnil : dims = []
  · rw [hnil]
    decide
  · rw [size_of_ne_nil hnil, and_iff_right hnil]
    split <;> omega

theorem memcpy_iff {elemType : DataType} : Covers dims (memcpy elemType dims) ↔
    dims ≠ [] ∧ elemType.bitWidth / 8 * elements dims < 2 ^ 64 := by
  unfold memcpy
  rw [covers_range]
  by_cases hnil : dims = []
  · rw [hnil]
    simp [ResolvedTensorDims.size, elements]
  · have hpos : 0 < elemType.bitWidth / 8 := elemType.one_le_bytes
    rw [size_of_ne_nil hnil, and_iff_right hnil]
    constructor
    · intro h
      have hle := Nat.div_mul_le_self (elemType.bitWidth / 8 * elements dims % 2 ^ 64) (elemType.bitWidth / 8)
      have hlt := Nat.mod_lt (elemType.bitWidth / 8 * elements dims) (show 0 < 2 ^ 64 by decide)
      rw [h, Nat.mul_comm] at hle
      omega
    · intro h
      rw [Nat.mod_eq_of_lt h, Nat.mul_div_cancel_left _ hpos]

theorem toInt_ofInt_of_fits {i : Int} (hle : -2 ^ 31 ≤ i) (hlt : i < 2 ^ 31) : (BitVec.ofInt 32 i).toInt = i := by
  rw [BitVec.toInt_ofInt, Int.bmod_def]
  split <;> omega

theorem ompFlatLoop_iff {staticInit : Int → List (Int × Int)} (hinit : SplitsStatic staticInit) :
    Covers dims (ompFlatLoop staticInit dims) ↔ dims ≠ [] ∧ 0 < elements dims ∧ elements dims < 2 ^ 31 := by
  unfold ompFlatLoop
  by_cases hnil : dims = []
  · rw [hnil]
    exact iff_of_false not_covers_none fun h => h.1 rfl
  rw [size_of_ne_nil hnil, and_iff_right hnil]
  by_cases hzero : elements dims = 0
  · rw [if_pos hzero]
    exact iff_of_false not_covers_none fun h => hzero.not_gt h.1
  rw [if_neg hzero, and_iff_right (Nat.pos_of_ne_zero hzero)]
  constructor
  · -- The bound of a thread has 32 bits and is open, so that the last number below `2 ^ 31` is out of reach.
    intro h
    by_contra hlarge
    obtain ⟨_, ⟨⟩, hperm⟩ := h
    have hmem := hperm.mem_iff.mpr (List.mem_range.mpr (show 2 ^ 31 - 1 < elements dims by omega))
    obtain ⟨⟨lb, ub⟩, -, hmem⟩ := List.mem_flatMap.mp hmem
    dsimp only at hmem
    split at hmem
    · rw [flatLoopBody_eq, List.map_map] at hmem
      obtain ⟨i, hi, heq⟩ := List.mem_map.mp hmem
      have hi := List.mem_range.mp hi
      simp only [Function.comp_apply] at heq
      have hub := BitVec.toInt_lt (x := BitVec.ofInt 32 (min ub (BitVec.ofNat 32 (elements dims - 1)).toInt + 1))
      omega
    · exact nomatch hmem
  · intro hlt
    obtain ⟨n, hn⟩ := Nat.exists_eq_succ_of_ne_zero hzero
    have hlen : (BitVec.ofNat 32 (elements dims - 1)).toInt = n := by
      rw [BitVec.toInt_ofNat', Int.bmod_def, hn]
      split <;> omega
    refine ⟨_, rfl, ?_⟩
    rw [hlen]
    have hchunks : (staticInit n).flatMap (fun c =>
        if c.1 < (BitVec.ofInt 32 (min c.2 (n : Int) + 1)).toInt then
          (flatLoopBody c.1 (BitVec.ofInt 32 (min c.2 (n : Int) + 1)).toInt).map Int.toNat else []) =
        ((staticInit n).flatMap fun c => flatLoopBody c.1 (min c.2 (n : Int) + 1)).map Int.toNat := by
      rw [List.map_flatMap]
      refine List.flatMap_congr fun c hc => ?_
      have hbounds := hinit.bounds n (by omega) c hc
      rw [toInt_ofInt_of_fits (by omega) (by omega)]
      split
      · rfl
      · rename_i hge
        rw [flatLoopBody, if_neg hge]
        rfl
    have hperm := (hinit.divides n (by omega)).map Int.toNat
    rw [flatLoopBody_zero] at hperm
    refine (List.Perm.of_eq hchunks).trans (hperm.trans (List.Perm.of_eq ?_))
    rw [hn]
    rfl

/-! ### Guarded kernels -/

/-- The threads of a launch. -/
def threads (numThreads : Nat) : Nat :=
  (numThreads / defaultBlockSize + if numThreads % defaultBlockSize = 0 then 0 else 1) * defaultBlockSize

theorem le_threads (n : Nat) : n ≤ threads n := by
  unfold threads defaultBlockSize
  split <;> omega

theorem threads_le_iff {n : Nat} : threads n ≤ 2 ^ 31 ↔ n ≤ 2 ^ 31 := by
  unfold threads defaultBlockSize
  split <;> omega

theorem threads_zero : threads 0 = 0 := rfl

theorem flatten_guarded (n size : Nat) :
    ((List.range n).map fun i => if size ≤ i then [] else [i]).flatten = List.range (min n size) := by
  induction n with
  | zero => simp
  | succ n ih =>
      rw [List.range_succ, List.map_append, List.flatten_append, ih]
      by_cases hle : size ≤ n
      · simp [hle, Nat.le_succ_of_le hle]
      · rw [Nat.min_eq_left (by omega), Nat.min_eq_left (by omega), List.range_succ]
        simp [hle]

theorem launchGuarded_eq_some {numThreads size : Nat} (h : numThreads ≤ 2 ^ 31) :
    launchGuarded numThreads size = some (List.range (min (threads numThreads) size)) := by
  have hthread : ∀ i ∈ List.range (threads numThreads),
      guardedThread size i = some (if size ≤ i then [] else [i]) := by
    intro i hi
    have hi := (List.mem_range.mp hi).trans_le (threads_le_iff.mpr h)
    have hgid : (BitVec.ofNat 32 i).toInt = i := by
      rw [BitVec.toInt_ofNat', Int.bmod_def]
      split <;> omega
    unfold guardedThread
    simp only [hgid]
    split <;> split
    · rfl
    · omega
    · omega
    · rw [if_neg (by omega)]
      rfl
  show ((List.range (threads numThreads)).mapM (guardedThread size)).map List.flatten = _
  rw [mapM_some hthread, Option.map_some, flatten_guarded]

/-- A thread whose number is no `int` passes the guard. -/
theorem launchGuarded_eq_none {numThreads size : Nat} (h : 2 ^ 31 < numThreads) :
    launchGuarded numThreads size = none := by
  have hmem : 2 ^ 31 ∈ List.range (threads numThreads) := List.mem_range.mpr (h.trans_le (le_threads numThreads))
  have hgid : (BitVec.ofNat 32 (2 ^ 31)).toInt = -2 ^ 31 := by decide
  have hnone : guardedThread size (2 ^ 31) = none := by
    unfold guardedThread
    simp only [hgid]
    rw [if_neg (by omega)]
    rfl
  show ((List.range (threads numThreads)).mapM (guardedThread size)).map List.flatten = none
  rw [mapM_eq_none hmem hnone, Option.map_none]

theorem launchGuarded_iff {numThreads size : Nat} : Covers dims (launchGuarded numThreads size) ↔
    numThreads ≤ 2 ^ 31 ∧ min (threads numThreads) size = elements dims := by
  by_cases h : numThreads ≤ 2 ^ 31
  · rw [launchGuarded_eq_some h, covers_range, and_iff_right h]
  · rw [launchGuarded_eq_none (not_le.mp h)]
    exact iff_of_false not_covers_none fun hand => h hand.1

theorem whereKernel_iff : Covers dims (whereKernel dims) ↔ dims ≠ [] ∧ elements dims ≤ 2 ^ 31 := by
  unfold whereKernel
  rw [launchGuarded_iff, Nat.min_eq_right (le_threads _)]
  by_cases hnil : dims = []
  · rw [hnil]
    decide
  · rw [size_of_ne_nil hnil, and_iff_left rfl, and_iff_right hnil]

theorem elementwiseKernel_iff : Covers dims (elementwiseKernel dims) ↔
    1 ≤ dims.length ∧ dims.length ≤ 5 ∧ elements dims ≤ 2 ^ 31 := by
  unfold elementwiseKernel
  rw [← and_assoc]
  by_cases hrank : 1 ≤ dims.length ∧ dims.length ≤ 5
  · have hnil : dims ≠ [] := List.ne_nil_of_length_pos hrank.1
    rw [if_pos hrank, and_iff_right hrank]
    exact whereKernel_iff.trans (and_iff_right hnil)
  · rw [if_neg hrank]
    exact iff_of_false not_covers_none fun h => hrank h.1

theorem copyKernel_iff (hsame : elements input = elements dims) : Covers dims (copyKernel input dims) ↔
    input ≠ [] ∧ dims ≠ [] ∧ elements dims ≤ 2 ^ 31 := by
  unfold copyKernel
  rw [launchGuarded_iff]
  by_cases hnil : dims = []
  · rw [hnil]
    simp [ResolvedTensorDims.size, threads_zero, elements]
  by_cases hinput : input = []
  · have hone : elements dims = 1 := by rw [← hsame, hinput]; rfl
    rw [hinput, hone]
    simp [ResolvedTensorDims.size]
  · rw [size_of_ne_nil hnil, size_of_ne_nil hinput, hsame, Nat.min_eq_right (le_threads _), and_iff_left rfl,
      and_iff_right hinput, and_iff_right hnil]

/-- A team of one thread. -/
def oneThread (len : Int) : List (Int × Int) := [(0, len)]

theorem oneThread_splits : SplitsStatic oneThread where
  bounds := by
    intro n hn c hc
    obtain rfl := List.mem_singleton.mp hc
    dsimp only
    omega
  divides := by
    intro n _
    unfold oneThread
    rw [List.flatMap_singleton, min_self]

end Coverage
end NnEngine
