import NnEngine.Codegen.Reductions
import NnEngine.OnlineSoftmax

/-!
# What the reductions of rows compute

A block with whole tiles reduces exactly the row, whatever the shuffles give from lanes that do not exist; a
shorter one adds up what such shuffles give.  The loop of the CPU computes sums and means; its maximum starts from
a finite number, and its variance is the term of the last element.
-/

namespace NnEngine
namespace Reductions

open WarpReduction KernelWrites
export KernelWrites (Computes)

variable {α : Type} [Field α] [LinearOrder α]

instance (op : ReduceOp) : Std.Commutative (combine op : Number α → Number α → Number α) := by
  cases op
  case max => exact inferInstanceAs (Std.Commutative Number.max)
  all_goals exact ⟨add_comm⟩

instance (op : ReduceOp) : Std.Associative (combine op : Number α → Number α → Number α) := by
  cases op
  case max => exact inferInstanceAs (Std.Associative Number.max)
  all_goals exact ⟨add_assoc⟩

theorem combine_init (op : ReduceOp) : combine op (init op : Number α) (init op) = init op := by
  cases op with
  | max => rfl
  | mean | variance | sum => exact add_zero 0

/-- The block size of a row is a power of two, and it has whole tiles from 17 elements on. -/
theorem blockSizeOf_eq {len : ℕ} (hlen : 0 < len) :
    ∃ n ≤ 8, blockSizeOf len = 2 ^ n ∧ (5 ≤ n ↔ 17 ≤ len) ∧ (n < 8 → len ≤ 128) := by
  by_cases hle : len ≤ 256
  · have hsmall : ∀ len < 257, 0 < len →
        ∃ n < 9, blockSizeOf len = 2 ^ n ∧ (5 ≤ n ↔ 17 ≤ len) ∧ (n < 8 → len ≤ 128) := by
      decide +kernel
    obtain ⟨n, hn, h⟩ := hsmall len (by omega) hlen
    exact ⟨n, by omega, h⟩
  · refine ⟨8, le_refl 8, ?_, by omega, by omega⟩
    have hor : len - 1 ≤ ceilPow2 len - 1 := by
      rw [ceilPow2, if_neg (by omega)]
      simp only [Nat.add_sub_cancel]
      exact ((((Nat.left_le_or).trans Nat.left_le_or).trans Nat.left_le_or).trans Nat.left_le_or).trans Nat.left_le_or
    unfold blockSizeOf Coverage.defaultBlockSize
    omega

/-- The rounding up of a length to the block size fits an `int`. -/
theorem le_repeat_iff {n len : ℕ} (hn : n ≤ 8) (hsmall : n < 8 → len ≤ 128) :
    2 ^ 31 ≤ len + 2 ^ n - 1 ↔ 2 ^ 31 ≤ len + 255 := by
  rcases Nat.lt_or_ge n 8 with hlt | hge
  · have hpow : 2 ^ n ≤ 2 ^ 8 := Nat.pow_le_pow_right (by norm_num) hn
    have hle := hsmall hlt
    omega
  · obtain rfl : n = 8 := by omega
    omega

/-! ### One reduction of a block -/

section Block

variable {β : Type} {op : β → β → β} [Std.Commutative op] [Std.Associative op] {e : β} {f acc : ℕ → β}
  {n dim : ℕ} {unspecified : ℕ → ℕ → β}

/-- Threads hold what is at their positions. -/
def HoldRow (op : β → β → β) (e : β) (f acc : ℕ → β) (n dim : ℕ) : Prop :=
  ∀ t < 2 ^ n, acc t = threadFold op e f dim (axisPositions dim (2 ^ n) t)

theorem HoldRow.absorb (h : HoldRow op e f acc n dim) (he : op e e = e) : ∀ t < 2 ^ n, op (acc t) e = acc t := by
  intro t ht
  rw [h t ht, axisPositions, threadFold_eq he, fold_absorb he]

theorem HoldRow.fold (h : HoldRow op e f acc n dim) (he : op e e = e) :
    (Finset.range (2 ^ n)).fold op e acc = (Finset.range dim).fold op e f := by
  rw [← fold_threads he (dim_le_repeat (Nat.two_pow_pos n) dim)]
  exact Finset.fold_congr fun t ht => h t (Finset.mem_range.mp ht)

theorem HoldRow.blockReduce_eq (h : HoldRow op e f acc n dim) (he : op e e = e)
    (hneutral : Neutral e tileSize (2 ^ n) unspecified) :
    blockReduce op tileSize (2 ^ n) unspecified acc = (Finset.range dim).fold op e f := by
  rw [tileSize, WarpReduction.blockReduce_eq he hneutral (h.absorb he), h.fold he]

/-- A value that one shuffle gives, and no lane has. -/
def spot (e v : β) (s t : ℕ) : β := if s = tileSize / 2 ∧ t = 0 then v else e

theorem HoldRow.blockReduce_spot (h : HoldRow op e f acc n dim) (he : op e e = e) (hn : n < 5) {v : β}
    (hv : op v e = v) :
    blockReduce op tileSize (2 ^ n) (spot e v) acc = op ((Finset.range dim).fold op e f) v := by
  rw [← h.fold he]
  exact blockReduce_unspecified he hn hv (h.absorb he)

end Block

/-! ### `reduce_matrix_kernel` -/

section Matrix

variable {op : ReduceOp} {row col : ℕ}

theorem finalize_fold (hop : op ≠ .variance) (x : ℕ → Number α) :
    finalize op ((Finset.range col).fold (combine op) (init op) x) col = reduction op col 0 x := by
  cases op with
  | variance => exact absurd rfl hop
  | max | sum | mean => rfl

theorem holdRow_strided (op : ReduceOp) (x : ℕ → Number α) (n col : ℕ) :
    HoldRow (combine op) (init op) x (fun tid => threadFold (combine op) (init op) x col
      (strided ((col + 2 ^ n - 1) / 2 ^ n * 2 ^ n) (2 ^ n) ((col + 2 ^ n - 1) / 2 ^ n * 2 ^ n) tid)) n col := by
  intro t ht
  have hturns : (col + 2 ^ n - 1) / 2 ^ n ≤ (col + 2 ^ n - 1) / 2 ^ n * 2 ^ n :=
    Nat.le_mul_of_pos_right _ (Nat.two_pow_pos n)
  have hstrided := strided_eq hturns ht 0
  rw [Nat.zero_add, Nat.zero_mul, Nat.zero_add] at hstrided
  dsimp only
  rw [hstrided, ← List.range_eq_range', axisPositions]

theorem reduceMatrixBlock_eq (hop : op ≠ .variance) {n rowId : ℕ} {unspecified : ℕ → ℕ → Number α}
    {src : ℕ → Number α} (hneutral : Neutral (init op) tileSize (2 ^ n) unspecified) :
    reduceMatrixBlock op (2 ^ n) col unspecified src rowId = reduction op col 0 fun i => src (rowId * col + i) := by
  rw [← finalize_fold hop]
  exact congrArg (finalize op · col) ((holdRow_strided op _ n col).blockReduce_eq (combine_init op) hneutral)

/-- The kernel reduces every matrix of a shape, whatever the unspecified values. -/
def ReducesMatrix (α : Type) [Field α] [LinearOrder α] (op : ReduceOp) (row col : ℕ) : Prop :=
  ∀ (unspecified : ℕ → ℕ → ℕ → ℕ → Number α) (src : ℕ → Number α),
    Computes row (fun r => reduction op col 0 fun i => src (r * col + i)) (reduceMatrix op row col unspecified src)

variable [IsStrictOrderedRing α]

theorem num_zero_div (hcol : 0 < col) : (0 : Number α) / .num (col : α) = .num 0 := by
  have hne : (col : α) ≠ 0 := by exact_mod_cast hcol.ne'
  exact (Number.num_div 0 hne).trans (by rw [zero_div])

/-- A value that spoils a reduction. -/
theorem exists_spoils (op : ReduceOp) (hcol : 0 < col) : ∃ v : Number α, combine op v (init op) = v ∧
    finalize op (combine op (init op) v) col ≠ finalize op (init op) col := by
  cases op with
  | max => exact ⟨.posInf, rfl, by simp [finalize, combine, init, Number.max]⟩
  | mean =>
      refine ⟨.nan, rfl, ?_⟩
      change (.nan : Number α) ≠ 0 / .num (col : α)
      simp [num_zero_div hcol]
  | sum | variance => exact ⟨.nan, rfl, fun h => nomatch h⟩

theorem reducesMatrix_iff (hop : op ≠ .variance) (hrow : 0 < row) (hcol : 0 < col) :
    ReducesMatrix α op row col ↔ 17 ≤ col ∧ col + 255 < 2 ^ 31 ∧ row * col ≤ 2 ^ 31 := by
  obtain ⟨n, hn, hblock, hlanes, hsmall⟩ := blockSizeOf_eq hcol
  have hint := le_repeat_iff hn hsmall
  constructor
  · intro h
    have hlen : 17 ≤ col := by
      by_contra hlt
      -- one shuffle gives the first lane of every block a value that spoils its row
      obtain ⟨v, hv, hspoils⟩ := @exists_spoils α _ _ col _ op hcol
      have hcomputes := h (fun _ _ => spot (init op) v) fun _ => init op
      unfold reduceMatrix at hcomputes
      simp only at hcomputes
      split at hcomputes
      · exact not_computes_none hcomputes
      · rw [computes_map] at hcomputes
        have hfirst := hcomputes 0 hrow
        have hspot := (holdRow_strided op (fun _ => (init op : Number α)) n col).blockReduce_spot (combine_init op)
          (by omega) hv
        have hfold : (Finset.range col).fold (combine op) (init op : Number α) (fun _ => init op) = init op :=
          fold_neutral (combine_init op) fun _ _ => rfl
        rw [← finalize_fold hop, hfold] at hfirst
        rw [hfold] at hspot
        apply hspoils
        rw [← hspot, ← hfirst, hblock]
        rfl
    obtain ⟨w, hw, -⟩ := h (fun _ _ _ _ => 0) fun _ => 0
    unfold reduceMatrix at hw
    simp only at hw
    split at hw
    · cases hw
    · rename_i hvalid
      rw [hblock, hint] at hvalid
      push Not at hvalid
      exact ⟨hlen, hvalid.2.2⟩
  · rintro ⟨hlen, hfits, hsize⟩ unspecified src
    have hvalid : ¬(op = .variance ∨ 2 ^ 31 ≤ row ∨ 2 ^ 31 ≤ col + blockSizeOf col - 1 ∨ 2 ^ 31 < row * col) := by
      have hgrid : row * 17 ≤ row * col := Nat.mul_le_mul_left _ hlen
      rw [hblock, hint]
      simp only [hop, false_or]
      omega
    unfold reduceMatrix
    simp only
    rw [if_neg hvalid, computes_map, hblock]
    intro r _
    exact reduceMatrixBlock_eq hop (neutral_of_dvd (pow_dvd_pow 2 (hlanes.mpr hlen)))

end Matrix

/-! ### Rows of a tensor, one for each block -/

section Rows

variable {n dim stride outer size : ℕ}

/-- The address of a position in the row of a block. -/
def rowAddress (dim stride block p : ℕ) : ℕ := block / stride * dim * stride + block % stride + p * stride

theorem rowAddress_spec {b p : ℕ} (hstride : 0 < stride) (hp : p < dim) :
    rowAddress dim stride b p % stride = b % stride ∧ rowAddress dim stride b p / stride / dim = b / stride ∧
      rowAddress dim stride b p / stride % dim = p := by
  have heq : rowAddress dim stride b p = (b / stride * dim + p) * stride + b % stride := by
    unfold rowAddress
    ring
  have hmod := Nat.mod_lt b hstride
  have hdiv : rowAddress dim stride b p / stride = b / stride * dim + p := by
    rw [heq, Nat.mul_comm, Nat.mul_add_div hstride, Nat.div_eq_of_lt hmod, Nat.add_zero]
  rw [hdiv]
  refine ⟨?_, ?_, ?_⟩
  · rw [heq, Nat.mul_comm, Nat.mul_add_mod, Nat.mod_mod]
  · rw [Nat.mul_comm, Nat.mul_add_div (by omega), Nat.div_eq_of_lt hp, Nat.add_zero]
  · rw [Nat.mul_comm, Nat.mul_add_mod, Nat.mod_eq_of_lt hp]

/-- The rows of all blocks make up the tensor. -/
theorem rowAddress_perm (hstride : 0 < stride) (hdim : 0 < dim) :
    ((List.range (outer * stride)).flatMap fun b => (List.range dim).map (rowAddress dim stride b)).Perm
      (List.range (outer * dim * stride)) := by
  rw [List.perm_ext_iff_of_nodup _ List.nodup_range]
  · intro q
    simp only [List.mem_flatMap, List.mem_map, List.mem_range]
    constructor
    · rintro ⟨b, hb, p, hp, rfl⟩
      have hmod := Nat.mod_lt b hstride
      have hout : b / stride + 1 ≤ outer := Nat.div_lt_of_lt_mul (by rwa [Nat.mul_comm])
      have h1 : (b / stride * dim + p + 1) * stride ≤ outer * dim * stride := by
        refine Nat.mul_le_mul_right _ (le_trans ?_ (Nat.mul_le_mul_right dim hout))
        rw [Nat.succ_mul]
        omega
      have heq : rowAddress dim stride b p = (b / stride * dim + p) * stride + b % stride := by
        unfold rowAddress
        ring
      rw [Nat.succ_mul] at h1
      omega
    · intro hq
      have hmod := Nat.mod_lt q hstride
      have hpmod := Nat.mod_lt (q / stride) hdim
      have hrow : q / stride / dim < outer := by
        refine Nat.div_lt_of_lt_mul (Nat.div_lt_of_lt_mul ?_)
        calc q < outer * dim * stride := hq
          _ = stride * (dim * outer) := by ring
      have hb : (q / stride / dim * stride + q % stride) / stride = q / stride / dim := by
        rw [Nat.mul_comm, Nat.mul_add_div hstride, Nat.div_eq_of_lt hmod, Nat.add_zero]
      have hbm : (q / stride / dim * stride + q % stride) % stride = q % stride := by
        rw [Nat.mul_comm, Nat.mul_add_mod, Nat.mod_mod]
      refine ⟨q / stride / dim * stride + q % stride, ?_, q / stride % dim, hpmod, ?_⟩
      · have hmul : (q / stride / dim + 1) * stride ≤ outer * stride := Nat.mul_le_mul_right _ hrow
        rw [Nat.succ_mul] at hmul
        omega
      · rw [rowAddress, hb, hbm]
        have h1 := Nat.div_add_mod q stride
        have h2 := Nat.div_add_mod (q / stride) dim
        calc q / stride / dim * dim * stride + q % stride + q / stride % dim * stride
            = stride * (dim * (q / stride / dim) + q / stride % dim) + q % stride := by ring
          _ = q := by rw [h2, h1]
  · rw [List.nodup_flatMap]
    refine ⟨fun b _ => List.nodup_range.map fun p p' h => ?_, ?_⟩
    · exact Nat.eq_of_mul_eq_mul_right hstride (Nat.add_left_cancel h)
    · refine List.Pairwise.imp ?_ (List.nodup_iff_pairwise_ne.mp List.nodup_range)
      intro b b' hne
      rw [Function.onFun, List.disjoint_left]
      intro q hq hq'
      obtain ⟨p, hp, rfl⟩ := List.mem_map.mp hq
      obtain ⟨p', hp', heq⟩ := List.mem_map.mp hq'
      obtain ⟨h1, h2, -⟩ := @rowAddress_spec dim stride b p hstride (List.mem_range.mp hp)
      obtain ⟨h1', h2', -⟩ := @rowAddress_spec dim stride b' p' hstride (List.mem_range.mp hp')
      rw [heq] at h1' h2'
      apply hne
      rw [← Nat.div_add_mod b stride, ← Nat.div_add_mod b' stride, ← h1, ← h2, h1', h2']

theorem inRow_rowAddress {b p : ℕ} (hstride : 0 < stride) (hp : p < dim) (j : ℕ) :
    inRow dim stride (rowAddress dim stride b p) j = rowAddress dim stride b j := by
  obtain ⟨hmod, hrow, -⟩ := @rowAddress_spec dim stride b p hstride hp
  rw [inRow, hmod, hrow, rowAddress]
  ring

omit [Field α] [LinearOrder α] in
/-- Blocks that each write their rows, thread by thread. -/
theorem computes_rows {value : ℕ → Number α} {val : ℕ → ℕ → Number α} (hstride : 0 < stride) (hdim : 0 < dim)
    (hval : ∀ b < outer * stride, ∀ p < dim, val b p = value (rowAddress dim stride b p)) :
    Computes (outer * dim * stride) value (some ((List.range (outer * stride)).flatMap fun b =>
      (List.range (2 ^ n)).flatMap fun t =>
        ((axisPositions dim (2 ^ n) t).filter (· < dim)).map fun p => (rowAddress dim stride b p, val b p))) := by
  have hblock : ∀ b ∈ List.range (outer * stride), ((List.range (2 ^ n)).flatMap fun t =>
      ((axisPositions dim (2 ^ n) t).filter (· < dim)).map fun p => (rowAddress dim stride b p, val b p)).Perm
        (((List.range dim).map (rowAddress dim stride b)).map fun q => (q, value q)) := by
    intro b hb
    rw [← List.map_flatMap, List.map_map]
    refine ((axisPositions_perm (Nat.two_pow_pos n) dim).map _).trans (.of_eq (List.map_congr_left fun p hp => ?_))
    rw [hval b (List.mem_range.mp hb) p (List.mem_range.mp hp)]
    rfl
  have hrows := (@rowAddress_perm dim stride outer hstride hdim).map fun q => (q, value q)
  rw [List.map_flatMap] at hrows
  exact ⟨_, rfl, (List.Perm.flatMap_left _ hblock).trans hrows⟩

/-- Every position of every block is written. -/
theorem mem_rows {β : Type} {val : ℕ → ℕ → β} {blocks b p : ℕ} (hb : b < blocks) (hp : p < dim) :
    (rowAddress dim stride b p, val b p) ∈ (List.range blocks).flatMap fun b => (List.range (2 ^ n)).flatMap fun t =>
      ((axisPositions dim (2 ^ n) t).filter (· < dim)).map fun p => (rowAddress dim stride b p, val b p) := by
  obtain ⟨t, ht, hpt⟩ := List.mem_flatMap.mp ((axisPositions_perm (Nat.two_pow_pos n) dim).mem_iff.mpr (List.mem_range.mpr hp))
  exact List.mem_flatMap.mpr ⟨b, List.mem_range.mpr hb, List.mem_flatMap.mpr ⟨t, ht, List.mem_map.mpr ⟨p, hpt, rfl⟩⟩⟩

end Rows

/-! ### `softmax` -/

section Softmax

variable {exp : α → α} {n outer dim stride : ℕ}

/-- The softmax of a row. -/
def softmaxAt (exp : α → α) (dim stride : ℕ) (src : ℕ → Number α) (q : ℕ) : Number α :=
  softmaxOf exp dim (fun j => src (inRow dim stride q j)) (q / stride % dim)

/-- The kernel computes the softmax of every tensor of a shape, whatever the unspecified values. -/
def ComputesSoftmax (exp : α → α) (outer dim stride : ℕ) : Prop :=
  ∀ (unspecified : ℕ → ℕ → ℕ → ℕ → Number α) (src : ℕ → Number α),
    Computes (outer * dim * stride) (softmaxAt exp dim stride src)
      (softmax exp (outer * dim * stride) dim stride unspecified src)

/-- The exponentials of a row, relative to its largest number. -/
def exps (exp : α → α) (dim : ℕ) (x : ℕ → Number α) (j : ℕ) : Number α := (x j - reduction .max dim 0 x).exp exp

/-- The sum of them that a block finds. -/
def blockSum (exp : α → α) (n dim : ℕ) (unspecified : ℕ → ℕ → Number α) (x : ℕ → Number α) : Number α :=
  blockReduce (· + ·) tileSize (2 ^ n) unspecified fun tid =>
    threadFold (· + ·) 0 (exps exp dim x) dim (axisPositions dim (2 ^ n) tid)

theorem softmaxBlock_eq {unspecified : ℕ → ℕ → ℕ → Number α} {src : ℕ → Number α} {b : ℕ}
    (hneutral : Neutral .negInf tileSize (2 ^ n) (unspecified 0)) :
    softmaxBlock exp (2 ^ n) dim stride unspecified src b =
      (List.range (2 ^ n)).flatMap fun t => ((axisPositions dim (2 ^ n) t).filter (· < dim)).map fun p =>
        (rowAddress dim stride b p, exps exp dim (fun j => src (rowAddress dim stride b j)) p /
          blockSum exp n dim (unspecified 1) fun j => src (rowAddress dim stride b j)) := by
  have hmax : blockReduce Number.max tileSize (2 ^ n) (unspecified 0) (fun tid => threadFold Number.max .negInf
      (fun p => src (rowAddress dim stride b p)) dim (axisPositions dim (2 ^ n) tid)) =
        reduction .max dim 0 fun j => src (rowAddress dim stride b j) :=
    HoldRow.blockReduce_eq (fun _ _ => rfl) Number.max_negInf_self hneutral
  unfold rowAddress at hmax
  unfold softmaxBlock
  dsimp only
  rw [hmax]
  rfl

theorem blockSum_eq {unspecified : ℕ → ℕ → Number α} (hneutral : Neutral 0 tileSize (2 ^ n) unspecified)
    (x : ℕ → Number α) : blockSum exp n dim unspecified x = reduction .sum dim 0 (exps exp dim x) :=
  HoldRow.blockReduce_eq (fun _ _ => rfl) (add_zero 0) hneutral

/-- With a sum for each block, the launch writes the quotients by it. -/
theorem softmax_eq {size : ℕ} (hblock : blockSizeOf dim = 2 ^ n)
    (hvalid : ¬(2 ^ 31 ≤ size / dim ∨ 2 ^ 31 ≤ dim + 2 ^ n - 1 ∨ 2 ^ 31 < size))
    {unspecified : ℕ → ℕ → ℕ → ℕ → Number α} (hneutral : ∀ b, Neutral .negInf tileSize (2 ^ n) (unspecified b 0))
    (src : ℕ → Number α) :
    softmax exp size dim stride unspecified src = some ((List.range (size / dim)).flatMap fun b =>
      (List.range (2 ^ n)).flatMap fun t => ((axisPositions dim (2 ^ n) t).filter (· < dim)).map fun p =>
        (rowAddress dim stride b p, exps exp dim (fun j => src (rowAddress dim stride b j)) p /
          blockSum exp n dim (unspecified b 1) fun j => src (rowAddress dim stride b j))) := by
  unfold softmax
  simp only [hblock]
  rw [if_neg hvalid]
  simp only [softmaxBlock_eq (hneutral _)]

/-- The exponential of a row of zeros. -/
theorem exps_zero (hdim : 0 < dim) (j : ℕ) : exps exp dim (fun _ => 0) j = .num (exp 0) := by
  have hmax : reduction .max dim 0 (fun _ => (0 : Number α)) = .num 0 := by
    have hzero : Number.max (.num 0 : Number α) (.num 0) = .num 0 := by simp [Number.max]
    change (Finset.range dim).fold Number.max .negInf (fun _ => (.num 0 : Number α)) = _
    rw [Finset.fold_const _ hzero, if_neg (by simp; omega)]
    rfl
  rw [exps, hmax]
  change Number.exp exp (.num 0 - .num 0) = _
  rw [Number.num_sub, sub_zero]
  rfl

theorem blocks_of_size (hdim : 0 < dim) : outer * dim * stride / dim = outer * stride := by
  rw [Nat.mul_right_comm, Nat.mul_div_cancel _ hdim]

variable [IsStrictOrderedRing α]

/-- The softmax of zeros is a number. -/
theorem softmaxAt_zero (hexp : ∀ a, 0 < exp a) (hdim : 0 < dim) (q : ℕ) :
    softmaxAt exp dim stride (fun _ => 0) q ≠ .nan := by
  have hsum : reduction .sum dim 0 (exps exp dim fun _ => 0) = .num (dim * exp 0) := by
    simp only [reduction, exps_zero hdim, Number.sum_num]
    rw [Finset.sum_const, Finset.card_range, nsmul_eq_mul]
  have hpos : (dim * exp 0 : α) ≠ 0 := by
    have hdim' : (0 : α) < dim := by exact_mod_cast hdim
    exact (mul_pos hdim' (hexp 0)).ne'
  change exps exp dim (fun _ => 0) (q / stride % dim) / reduction .sum dim 0 (exps exp dim fun _ => 0) ≠ _
  rw [exps_zero hdim, hsum, Number.num_div _ hpos]
  exact fun h => nomatch h

theorem computesSoftmax_iff (hexp : ∀ a, 0 < exp a) (houter : 0 < outer) (hstride : 0 < stride) (hdim : 0 < dim) :
    ComputesSoftmax exp outer dim stride ↔
      17 ≤ dim ∧ dim + 255 < 2 ^ 31 ∧ outer * dim * stride ≤ 2 ^ 31 := by
  obtain ⟨n, hn, hblock, hlanes, hsmall⟩ := blockSizeOf_eq hdim
  have hint := le_repeat_iff hn hsmall
  have hblocks := @blocks_of_size outer dim stride hdim
  have hpos : 0 < outer * stride := Nat.mul_pos houter hstride
  constructor
  · intro h
    have hvalid : ¬(2 ^ 31 ≤ outer * dim * stride / dim ∨ 2 ^ 31 ≤ dim + 2 ^ n - 1 ∨ 2 ^ 31 < outer * dim * stride) := by
      intro hinvalid
      have hnone := h (fun _ _ _ _ => 0) fun _ => 0
      unfold softmax at hnone
      simp only [hblock] at hnone
      rw [if_pos hinvalid] at hnone
      exact not_computes_none hnone
    refine ⟨?_, by omega, by omega⟩
    by_contra hlt
    -- the largest number of each row is found, and then one shuffle gives no number
    have hwrong := h (fun _ reduction => if reduction = 0 then fun _ _ => .negInf else spot 0 .nan) fun _ => 0
    rw [softmax_eq hblock hvalid (fun _ _ _ _ _ _ => rfl), hblocks] at hwrong
    have hfirst := hwrong.eq_of_mem (mem_rows hpos hdim)
    have hspot : blockSum exp n dim (spot 0 .nan) (fun _ => (0 : Number α)) = .nan := by
      rw [blockSum, HoldRow.blockReduce_spot (fun _ _ => rfl) (add_zero 0) (by omega) rfl]
      exact add_comm _ _
    rw [if_neg one_ne_zero, hspot, exps_zero hdim] at hfirst
    exact softmaxAt_zero hexp hdim _ hfirst.symm
  · rintro ⟨hlen, hfits, hsize⟩ unspecified src
    have hneutral : ∀ {e : Number α} {u : ℕ → ℕ → Number α}, Neutral e tileSize (2 ^ n) u :=
      neutral_of_dvd (pow_dvd_pow 2 (hlanes.mpr hlen))
    have hgrid : outer * stride * 17 ≤ outer * dim * stride := by
      rw [Nat.mul_right_comm outer dim]
      exact Nat.mul_le_mul_left _ hlen
    rw [softmax_eq hblock (by rw [hblocks, hint]; omega) (fun _ => hneutral), hblocks]
    refine computes_rows hstride hdim fun b _ p hp => ?_
    rw [blockSum_eq hneutral, softmaxAt, (rowAddress_spec hstride hp).2.2]
    simp only [inRow_rowAddress hstride hp]
    rfl

end Softmax

/-! ### `layer_norm` -/

section LayerNorm

variable {sqrt : α → α} {epsilon : α} {n outer dim : ℕ}

/-- The normalisation of a row. -/
def layerNormAt (sqrt : α → α) (epsilon : α) (scale bias : ℕ → Number α) (dim : ℕ) (src : ℕ → Number α) (q : ℕ) :
    Number α :=
  layerNormOf sqrt epsilon scale bias dim (fun j => src (q / dim * dim + j)) (q % dim)

/-- The kernel normalises the rows of every matrix of a shape, whatever the unspecified values. -/
def ComputesLayerNorm (sqrt : α → α) (epsilon : α) (outer dim : ℕ) : Prop :=
  ∀ (unspecified : ℕ → ℕ → ℕ → ℕ → Number α) (src scale bias : ℕ → Number α),
    Computes (outer * dim) (layerNormAt sqrt epsilon scale bias dim src)
      (layerNorm sqrt epsilon (outer * dim) dim unspecified src scale bias)

/-- The mean that a block finds. -/
def blockMean (n dim : ℕ) (unspecified : ℕ → ℕ → Number α) (x : ℕ → Number α) : Number α :=
  blockReduce (· + ·) tileSize (2 ^ n) unspecified
    (fun tid => threadFold (· + ·) 0 x dim (axisPositions dim (2 ^ n) tid)) / .num dim

/-- What a block writes, from the two means that it finds. -/
def blockNorm (sqrt : α → α) (epsilon : α) (n dim : ℕ) (unspecified : ℕ → ℕ → ℕ → Number α)
    (scale bias x : ℕ → Number α) (p : ℕ) : Number α :=
  let mean := blockMean n dim (unspecified 0) x
  (x p - mean) / (blockMean n dim (unspecified 1) (fun j => (x j - mean) * (x j - mean)) + .num epsilon).sqrt sqrt *
    scale p + bias p

omit [LinearOrder α] in
/-- Registers that stay zero do not count. -/
theorem foldl_add_registers (f : ℕ → Number α) (dim : ℕ) (places : List ℕ) :
    places.foldl (fun acc p => acc + if p < dim then f p else 0) 0 = threadFold (· + ·) 0 f dim places := by
  unfold threadFold
  congr 1
  funext acc p
  split
  · rfl
  · rw [add_zero]

theorem layerNormBlock_eq {size b : ℕ} {unspecified : ℕ → ℕ → ℕ → Number α} {src scale bias : ℕ → Number α}
    (hdim : 0 < dim) (hsize : size < 2 ^ 32) (hb : b * dim + dim ≤ size) :
    layerNormBlock sqrt epsilon (2 ^ n) dim size unspecified src scale bias b =
      (List.range (2 ^ n)).flatMap fun t => ((axisPositions dim (2 ^ n) t).filter (· < dim)).map fun p =>
        (rowAddress dim 1 b p, blockNorm sqrt epsilon n dim unspecified scale bias (fun j => src (b * dim + j)) p) := by
  have haddress : ∀ p < dim, (b * dim + p) % 2 ^ 32 = b * dim + p := fun p hp => Nat.mod_eq_of_lt (by omega)
  have hmean : ∀ {u : ℕ → ℕ → Number α} {f : Number α → Number α},
      blockReduce (· + ·) tileSize (2 ^ n) u (fun tid => threadFold (· + ·) 0
        (fun p => f (src ((b * dim + p) % 2 ^ 32))) dim (axisPositions dim (2 ^ n) tid)) / .num (dim : α) =
          blockMean n dim u fun j => f (src (b * dim + j)) := by
    intro u f
    unfold blockMean
    congr 2
    funext tid
    exact threadFold_congr (fun p hp => by rw [haddress p hp]) _
  have hfirst := @hmean (unspecified 0) id
  simp only [id] at hfirst
  have hrun : ¬size % 2 ^ 32 ≤ b * dim % 2 ^ 32 := by
    rw [Nat.mod_eq_of_lt hsize, Nat.mod_eq_of_lt (by omega)]
    omega
  unfold layerNormBlock
  rw [if_neg hrun]
  simp only [foldl_add_registers]
  rw [hfirst]
  congr 1
  funext t
  refine List.map_congr_left fun p hp => ?_
  have hp := of_decide_eq_true (List.mem_filter.mp hp).2
  have hrow : rowAddress dim 1 b p = b * dim + p := by simp [rowAddress, Nat.mod_one]
  have hsecond := @hmean (unspecified 1) fun y =>
    (y - blockMean n dim (unspecified 0) fun j => src (b * dim + j)) *
      (y - blockMean n dim (unspecified 0) fun j => src (b * dim + j))
  rw [haddress p hp, hrow, hsecond]
  rfl

theorem blockMean_eq {unspecified : ℕ → ℕ → Number α} (hneutral : Neutral 0 tileSize (2 ^ n) unspecified)
    (x : ℕ → Number α) : blockMean n dim unspecified x = reduction .mean dim 0 x :=
  congrArg (· / Number.num (dim : α)) (HoldRow.blockReduce_eq (fun _ _ => rfl) (add_zero 0) hneutral)

theorem blockNorm_eq {unspecified : ℕ → ℕ → ℕ → Number α} (h0 : Neutral 0 tileSize (2 ^ n) (unspecified 0))
    (h1 : Neutral 0 tileSize (2 ^ n) (unspecified 1)) (scale bias x : ℕ → Number α) :
    blockNorm sqrt epsilon n dim unspecified scale bias x = layerNormOf sqrt epsilon scale bias dim x := by
  funext p
  unfold blockNorm
  simp only [blockMean_eq h0, blockMean_eq h1]
  rfl

theorem layerNorm_eq (hdim : 0 < dim) (hblock : blockSizeOf dim = 2 ^ n) (hsize : outer * dim < 2 ^ 32)
    (hvalid : ¬(2 ^ 31 ≤ outer * dim / dim ∨ 2 ^ 31 ≤ dim + 2 ^ n - 1))
    (unspecified : ℕ → ℕ → ℕ → ℕ → Number α) (src scale bias : ℕ → Number α) :
    layerNorm sqrt epsilon (outer * dim) dim unspecified src scale bias =
      some ((List.range outer).flatMap fun b => (List.range (2 ^ n)).flatMap fun t =>
        ((axisPositions dim (2 ^ n) t).filter (· < dim)).map fun p => (rowAddress dim 1 b p,
          blockNorm sqrt epsilon n dim (unspecified b) scale bias (fun j => src (b * dim + j)) p)) := by
  unfold layerNorm
  simp only [hblock]
  rw [if_neg hvalid, Nat.mul_div_cancel _ hdim]
  congr 1
  refine List.flatMap_congr fun b hb => layerNormBlock_eq hdim hsize ?_
  have hmul : (b + 1) * dim ≤ outer * dim := Nat.mul_le_mul_right _ (List.mem_range.mp hb)
  rwa [Nat.succ_mul] at hmul

/-- The addresses that the threads compute are below `2 ^ 32`. -/
theorem size_lt_of_computes {value : ℕ → Number α} {unspecified : ℕ → ℕ → ℕ → ℕ → Number α}
    {src scale bias : ℕ → Number α} {size : ℕ}
    (h : Computes size value (layerNorm sqrt epsilon size dim unspecified src scale bias)) : size < 2 ^ 32 := by
  by_contra hge
  obtain ⟨w, hw, hperm⟩ := h
  unfold layerNorm at hw
  simp only at hw
  split at hw
  · cases hw
  · obtain rfl := Option.some.inj hw
    have hlast : (size - 1, value (size - 1)) ∈ (List.range size).map fun p => (p, value p) :=
      List.mem_map.mpr ⟨size - 1, List.mem_range.mpr (by omega), rfl⟩
    obtain ⟨b, -, hb⟩ := List.mem_flatMap.mp (hperm.mem_iff.mpr hlast)
    unfold layerNormBlock at hb
    split at hb
    · cases hb
    · rename_i hrun
      obtain ⟨t, -, ht⟩ := List.mem_flatMap.mp hb
      obtain ⟨p, -, hp⟩ := List.mem_map.mp ht
      simp only [Prod.mk.injEq] at hp
      omega

variable [IsStrictOrderedRing α]

theorem num_sum_div (hdim : 0 < dim) (a : α) :
    (∑ _i ∈ Finset.range dim, (.num a : Number α)) / .num (dim : α) = .num a := by
  have hdim' : (dim : α) ≠ 0 := by exact_mod_cast hdim.ne'
  rw [Number.sum_num, Number.num_div _ hdim', Finset.sum_const, Finset.card_range, nsmul_eq_mul,
    mul_div_cancel_left₀ _ hdim']

/-- A row of zeros is normalised to zero, or to no number. -/
theorem layerNormAt_zero (hdim : 0 < dim) (q : ℕ) {a : α} (ha : a ≠ 0) :
    layerNormAt sqrt epsilon (fun _ => .num 1) (fun _ => 0) dim (fun _ => 0) q ≠ .num a := by
  have hmean : reduction .mean dim 0 (fun _ => (0 : Number α)) = .num 0 := num_sum_div hdim 0
  have hsquare : ((0 : Number α) - .num 0) * (0 - .num 0) = .num 0 := by
    change ((.num 0 : Number α) - .num 0) * (.num 0 - .num 0) = _
    simp
  have hvariance : reduction .variance dim (.num 0) (fun _ => (0 : Number α)) = .num 0 := by
    unfold reduction
    simp only [hsquare]
    exact num_sum_div hdim 0
  unfold layerNormAt layerNormOf
  simp only [hmean, hvariance]
  change (.num 0 - .num 0) / Number.sqrt sqrt (.num 0 + .num epsilon) * .num 1 + .num 0 ≠ _
  rw [Number.num_sub, Number.num_add, sub_zero, zero_add]
  unfold Number.sqrt
  dsimp only
  split
  · exact fun h => nomatch h
  · by_cases hs : sqrt epsilon = 0
    · rw [hs, Number.zero_div_zero]
      exact fun h => nomatch h
    · rw [Number.num_div _ hs]
      simpa using ha.symm

/-- With one wrong mean the normalisation of zeros is another number. -/
theorem blockNorm_spot (hdim : 0 < dim) (hn : n < 5) (hsqrt : ∀ a, 0 < a → sqrt a ≠ 0) :
    ∃ (v a : α), a ≠ 0 ∧ blockNorm sqrt epsilon n dim (fun i => if i = 0 then spot 0 (.num v) else fun _ _ => 0)
      (fun _ => .num 1) (fun _ => 0) (fun _ => 0) 0 = .num a := by
  have hdim' : (dim : α) ≠ 0 := by exact_mod_cast hdim.ne'
  have hw : 0 < 1 + |epsilon| := by positivity
  set w := 1 + |epsilon|
  have hpos : 0 < w * w + epsilon := by
    have habs := neg_abs_le epsilon
    nlinarith [abs_nonneg epsilon]
  have hfirst : blockMean n dim (spot 0 (.num (dim * w))) (fun _ => (0 : Number α)) = .num w := by
    have hzero : ∑ _i ∈ Finset.range dim, (0 : Number α) = 0 := Finset.sum_const_zero
    rw [Finset.sum_eq_fold] at hzero
    rw [blockMean, HoldRow.blockReduce_spot (fun _ _ => rfl) (add_zero 0) hn (add_zero _), hzero, zero_add,
      Number.num_div _ hdim', mul_div_cancel_left₀ _ hdim']
  have hsquare : ((0 : Number α) - .num w) * (0 - .num w) = .num (w * w) := by
    change ((.num 0 : Number α) - .num w) * (.num 0 - .num w) = _
    simp
  have hsecond : blockMean n dim (fun _ _ => 0) (fun _ => (.num (w * w) : Number α)) = .num (w * w) :=
    (blockMean_eq (fun _ _ _ _ _ => rfl) _).trans (num_sum_div hdim _)
  have hs := hsqrt _ hpos
  refine ⟨dim * w, (0 - w) / sqrt (w * w + epsilon), div_ne_zero (by simpa using hw.ne') hs, ?_⟩
  unfold blockNorm
  simp only [if_true, one_ne_zero, if_false, hfirst, hsquare, hsecond]
  change (.num 0 - .num w) / Number.sqrt sqrt (.num (w * w) + .num epsilon) * .num 1 + .num 0 = _
  rw [Number.num_sub, Number.num_add, Number.sqrt, if_neg hpos.not_gt, Number.num_div _ hs]
  simp

theorem computesLayerNorm_iff (hsqrt : ∀ a, 0 < a → sqrt a ≠ 0) (houter : 0 < outer) (hdim : 0 < dim) :
    ComputesLayerNorm sqrt epsilon outer dim ↔ 17 ≤ dim ∧ dim + 255 < 2 ^ 31 ∧ outer * dim < 2 ^ 32 := by
  obtain ⟨n, hn, hblock, hlanes, hsmall⟩ := blockSizeOf_eq hdim
  have hint := le_repeat_iff hn hsmall
  have hblocks : outer * dim / dim = outer := Nat.mul_div_cancel _ hdim
  constructor
  · intro h
    have hsize := size_lt_of_computes (h (fun _ _ _ _ => 0) (fun _ => 0) (fun _ => 0) fun _ => 0)
    have hvalid : ¬(2 ^ 31 ≤ outer * dim / dim ∨ 2 ^ 31 ≤ dim + 2 ^ n - 1) := by
      intro hinvalid
      have hnone := h (fun _ _ _ _ => 0) (fun _ => 0) (fun _ => 0) fun _ => 0
      unfold layerNorm at hnone
      simp only [hblock] at hnone
      rw [if_pos hinvalid] at hnone
      exact not_computes_none hnone
    refine ⟨?_, by omega, hsize⟩
    by_contra hlt
    -- the first mean of every row is spoilt
    obtain ⟨v, a, ha, hspot⟩ := @blockNorm_spot α _ _ sqrt epsilon n dim _ hdim (by omega) hsqrt
    have hwrong := h (fun _ i => if i = 0 then spot 0 (.num v) else fun _ _ => 0) (fun _ => 0) (fun _ => .num 1)
      fun _ => 0
    rw [layerNorm_eq hdim hblock hsize hvalid] at hwrong
    have hfirst := hwrong.eq_of_mem (mem_rows houter hdim)
    rw [hspot] at hfirst
    exact layerNormAt_zero hdim _ ha hfirst.symm
  · rintro ⟨hlen, hfits, hsize⟩ unspecified src scale bias
    have hneutral : ∀ {e : Number α} {u : ℕ → ℕ → Number α}, Neutral e tileSize (2 ^ n) u :=
      neutral_of_dvd (pow_dvd_pow 2 (hlanes.mpr hlen))
    have hgrid : outer * 17 ≤ outer * dim := Nat.mul_le_mul_left _ hlen
    rw [layerNorm_eq hdim hblock hsize (by rw [hblocks, hint]; omega)]
    have hrows := @computes_rows α n dim 1 outer (layerNormAt sqrt epsilon scale bias dim src)
      (fun b => blockNorm sqrt epsilon n dim (unspecified b) scale bias fun j => src (b * dim + j)) one_pos hdim ?_
    · rwa [Nat.mul_one, Nat.mul_one] at hrows
    · intro b _ p hp
      obtain ⟨-, hrow, hpos⟩ := @rowAddress_spec dim 1 b p one_pos hp
      rw [Nat.div_one] at hrow hpos
      rw [blockNorm_eq hneutral hneutral, layerNormAt, hrow, hpos, Nat.div_one]

end LayerNorm

/-! ### `build_matrix_reduce` -/

section Cpu

variable {elemTy : FloatType} {op : ReduceOp} {row col stride0 stride1 : ℕ} {src means : ℕ → Number α}

/-- When the loop over a row finds its reduction: sums and means always, a maximum if it is not below the number
from which the loop starts, a variance if the terms before the last one do not count. -/
def LoopKeeps (elemTy : FloatType) (op : ReduceOp) (col : ℕ) (mean : Number α) (x : ℕ → Number α) : Prop :=
  match op with
  | .sum | .mean => True
  | .max => match (lowest elemTy : Number α) with
    | .num c => ∃ i < col, (x i).AtLeast c
    | _ => True
  | .variance => (∀ i < col - 1, x i - mean = 0) ∨ x (col - 1) - mean = .nan ∨
      (x (col - 1) - mean) * (x (col - 1) - mean) = .posInf ∧ ∀ i < col - 1, x i - mean ≠ .nan

omit [Field α] [LinearOrder α] in
theorem foldl_range_eq {β : Type} {op : β → β → β} [Std.Commutative op] [Std.Associative op] (f : ℕ → β) (e : β)
    (n : ℕ) : (List.range n).foldl (fun acc i => op acc (f i)) e = (Finset.range n).fold op e f := by
  induction n with
  | zero => rfl
  | succ n ih =>
      rw [List.range_succ, List.foldl_append, ih, fold_range_succ]
      exact Std.Commutative.comm _ _

theorem turns_eq {n : ℕ} (hn : 0 < n) : turns n = List.range n := by
  rw [turns, max_eq_left hn]

omit [Field α] in
/-- The largest number, and the one from which the loop starts. -/
theorem fold_max_start {c : Number α} (hc : Number.max c .negInf = c) (x : ℕ → Number α) (n : ℕ) :
    (Finset.range n).fold Number.max c x = Number.max c ((Finset.range n).fold Number.max .negInf x) := by
  induction n with
  | zero => exact hc.symm
  | succ n ih =>
      rw [fold_range_succ, fold_range_succ, ih]
      ac_rfl

theorem reduceLoop_max_iff (hcol : 0 < col) (mean : Number α) (x : ℕ → Number α) :
    reduceLoop elemTy .max col mean x = reduction .max col mean x ↔ LoopKeeps elemTy .max col mean x := by
  have hstart : Number.max (lowest elemTy : Number α) .negInf = lowest elemTy := by
    cases elemTy <;> rfl
  unfold reduceLoop reduction LoopKeeps
  simp only [turns_eq hcol]
  rw [foldl_range_eq, fold_max_start hstart]
  cases elemTy with
  | BF16 =>
      have habsorb := fold_absorb Number.max_negInf_self (Finset.range col) x
      simp only [lowest, iff_true]
      exact (Std.Commutative.comm _ _).trans habsorb
  | F32 => exact Number.max_num_eq_iff.trans Number.atLeast_fold
  | F64 => exact Number.max_num_eq_iff.trans Number.atLeast_fold

variable [IsStrictOrderedRing α]

theorem reduceLoop_variance_iff (hcol : 0 < col) (mean : Number α) (x : ℕ → Number α) :
    reduceLoop elemTy .variance col mean x = reduction .variance col mean x ↔
      LoopKeeps elemTy .variance col mean x := by
  have hcol' : (0 : α) < col := by exact_mod_cast hcol
  have hsquare : ∀ i, ((x i - mean) * (x i - mean)).NonNeg := fun i => Number.square_nonNeg _
  obtain ⟨hsum, hnan, hzero⟩ := Number.sum_nonNeg hsquare (col - 1)
  have hlast : ∑ i ∈ Finset.range col, (x i - mean) * (x i - mean) =
      ∑ i ∈ Finset.range (col - 1), (x i - mean) * (x i - mean) + (x (col - 1) - mean) * (x (col - 1) - mean) := by
    rw [← Finset.sum_range_succ, Nat.sub_add_cancel hcol]
  have hloop : (List.range col).foldl (fun (_ : Number α) i => (x i - mean) * (x i - mean)) 0 =
      (x (col - 1) - mean) * (x (col - 1) - mean) := by
    obtain ⟨k, rfl⟩ : ∃ k, col = k + 1 := ⟨col - 1, by omega⟩
    simp [List.range_succ]
  unfold reduceLoop reduction LoopKeeps
  simp only [turns_eq hcol]
  rw [hloop, Number.div_num_inj hcol', hlast, eq_comm, hsum.add_eq_right (hsquare (col - 1)), hzero,
    Number.square_eq_nan]
  simp only [Number.square_eq_zero, Ne, hnan, not_exists, not_and, Number.square_eq_nan]

theorem reduceLoop_iff (hcol : 0 < col) (mean : Number α) (x : ℕ → Number α) :
    reduceLoop elemTy op col mean x = reduction op col mean x ↔ LoopKeeps elemTy op col mean x := by
  cases op with
  | max => exact reduceLoop_max_iff hcol mean x
  | variance => exact reduceLoop_variance_iff hcol mean x
  | sum =>
      unfold reduceLoop reduction LoopKeeps
      simp only [turns_eq hcol, iff_true]
      exact foldl_range_eq x 0 col
  | mean =>
      unfold reduceLoop reduction LoopKeeps
      simp only [turns_eq hcol, iff_true]
      exact congrArg (· / Number.num (col : α)) (foldl_range_eq x 0 col)

theorem buildMatrixReduce_iff (hcol : 0 < col) :
    Computes row (fun r => reduction op col (means r) fun i => src (r * stride0 + i * stride1))
        (some (buildMatrixReduce elemTy op row col stride0 stride1 src means)) ↔
      0 < row ∧ ∀ r < row, LoopKeeps elemTy op col (means r) fun i => src (r * stride0 + i * stride1) := by
  rcases Nat.eq_zero_or_pos row with rfl | hrow
  · simp only [Nat.lt_irrefl, false_and, iff_false]
    rintro ⟨w, hw, hperm⟩
    obtain rfl := Option.some.inj hw
    exact absurd hperm.length_eq (by simp [buildMatrixReduce, turns])
  · unfold buildMatrixReduce
    rw [turns_eq hrow, computes_map]
    simp only [hrow, true_and, reduceLoop_iff hcol]

end Cpu

/-! ### All of them -/

theorem reductions_iff [IsStrictOrderedRing α] {exp sqrt : α → α} (hexp : ∀ a, 0 < exp a)
    (hsqrt : ∀ a, 0 < a → sqrt a ≠ 0) (row len : ℕ) (hlen : 0 < len) :
    (∀ op, op ≠ .variance → 0 < row → (ReducesMatrix α op row len ↔
        17 ≤ len ∧ len + 255 < 2 ^ 31 ∧ row * len ≤ 2 ^ 31)) ∧
      (∀ outer stride, row = outer * stride → 0 < row → (ComputesSoftmax exp outer len stride ↔
        17 ≤ len ∧ len + 255 < 2 ^ 31 ∧ row * len ≤ 2 ^ 31)) ∧
      (∀ epsilon, 0 < row → (ComputesLayerNorm sqrt epsilon row len ↔
        17 ≤ len ∧ len + 255 < 2 ^ 31 ∧ row * len < 2 ^ 32)) ∧
      ∀ elemTy op stride0 stride1 (src means : ℕ → Number α),
        Computes row (fun r => reduction op len (means r) fun i => src (r * stride0 + i * stride1))
            (some (buildMatrixReduce elemTy op row len stride0 stride1 src means)) ↔
          0 < row ∧ ∀ r < row, LoopKeeps elemTy op len (means r) fun i => src (r * stride0 + i * stride1) := by
  refine ⟨fun op hop hrow => reducesMatrix_iff hop hrow hlen, ?_,
    fun epsilon hrow => computesLayerNorm_iff hsqrt hrow hlen, fun _ _ _ _ _ _ => buildMatrixReduce_iff hlen⟩
  rintro outer stride rfl hrow
  rw [Nat.mul_right_comm]
  exact computesSoftmax_iff hexp (Nat.pos_of_mul_pos_right hrow) (Nat.pos_of_mul_pos_left hrow) hlen

/-- Rows of 17 and of 16 real numbers. -/
theorem reductions_real : ReducesMatrix ℝ .max 3 17 ∧ ComputesSoftmax Real.exp 3 17 1 ∧
    ComputesLayerNorm Real.sqrt 0 3 17 ∧ ¬ComputesSoftmax Real.exp 1 16 1 := by
  have hsqrt : ∀ a : ℝ, 0 < a → Real.sqrt a ≠ 0 := fun a ha => (Real.sqrt_pos.mpr ha).ne'
  obtain ⟨hmatrix, hsoftmax, hnorm, -⟩ := reductions_iff Real.exp_pos hsqrt 3 17 (by norm_num)
  have hshort := (reductions_iff Real.exp_pos hsqrt 1 16 (by norm_num)).2.1 1 1 rfl one_pos
  refine ⟨(hmatrix .max (by decide) (by norm_num)).mpr (by norm_num),
    (hsoftmax 3 1 rfl (by norm_num)).mpr (by norm_num), (hnorm 0 (by norm_num)).mpr (by norm_num), ?_⟩
  rw [hshort]
  norm_num

/-- A row of one element on the GPU; a maximum of `-∞` and a variance of two elements on the CPU. -/
theorem reductions_differ :
    ¬Computes 1 (fun _ => .num 5) (reduceMatrix .sum 1 1 (fun _ _ _ _ => .num (1 : ℚ)) fun _ => .num 5) ∧
      reduceLoop .F32 .max 1 0 (fun _ => .negInf) ≠ reduction .max 1 0 (fun _ => (.negInf : Number ℚ)) ∧
      reduceLoop .F32 .variance 2 (.num (1 : ℚ)) (fun i => .num (2 * i)) ≠
        reduction .variance 2 (.num (1 : ℚ)) fun i => .num (2 * i) := by
  refine ⟨?_, ?_, ?_⟩
  · have hrun : reduceMatrix .sum 1 1 (fun _ _ _ _ => .num (1 : ℚ)) (fun _ => .num 5) = some [(0, .num 10)] := by
      decide +kernel
    rw [hrun]
    intro h
    exact absurd (h.eq_of_mem List.mem_cons_self) (by decide)
  · decide +kernel
  · decide +kernel

end Reductions
end NnEngine
