import NnEngine.Codegen.CpuGemmSound
import NnEngine.Elementwise

/-!
# Batches of matrix products on the CPU

The kernels of `MatMul` and of `BatchedGemm`, and all kernels of matrix products together: `cpuKernel_computes_iff`.
-/

namespace NnEngine
namespace CpuGemm

open Blas

/-! ### Loops and single products -/

section Loop

variable {R : Type}

/-- The code of a loop whose body is one call. -/
theorem countedLoop_calls {b : Block} {bound : Nat} (hbound : bound ≠ 0) {p : Prop} [Decidable p]
    {body : Nat → Option (List (Instr R))} {g : Nat → Call Operand R}
    (hbody : ∀ i, body i = if p then some [.call (g i)] else none) :
    countedLoop b b bound body = if p then some (((List.range bound).map g).map .call) else none := by
  unfold countedLoop
  rw [if_pos ⟨rfl, hbound⟩, funext hbody]
  by_cases hp : p
  · simp only [if_pos hp]
    have hmap : ((List.range bound).mapM fun i => some [Instr.call (g i)]) =
        some ((List.range bound).map fun i => [Instr.call (g i)]) := List.mapM_pure
    rw [hmap, Option.map_some, ← List.flatMap_def, List.map_map, List.map_eq_flatMap]
    rfl
  · obtain ⟨n, rfl⟩ : ∃ n, bound = n + 1 := ⟨bound - 1, by omega⟩
    simp [hp, List.range_succ_eq_map]

/-- A loop that is entered from another block. -/
theorem countedLoop_of_ne {b b' : Block} (hne : b ≠ b') (bound : Nat)
    (body : Nat → Option (List (Instr R))) : countedLoop b b' bound body = none :=
  if_neg fun h => hne h.1

/-- A buffer that is not empty is converted in a loop, which ends in another block. -/
theorem convertBuf_block (src dst : Pointer) {count : Nat} (hcount : count ≠ 0) (b : Block) :
    (convertBuf (R := R) src dst count b).1 = .after b := if_neg hcount

end Loop

/-- The kernel of a product that is alone in its batch. -/
def singleKernel {R : Type} (gemm : Gemm R) (t : FloatType) {m n k : Nat} (hm : 0 < m) (hn : 0 < n)
    (hk : 0 < k) : GemmKernel R :=
  { gemm, elemType := t, m, n, k, mPos := hm, nPos := hn, kPos := hk, swappedA := false, swappedB := false
    cStride := none }

/-! ### `MatMul` -/

/-- A kernel of `MatMul` on row-major operands, whose outer axes broadcast. -/
structure MatmulKernel where
  elemType : FloatType
  batchA : List Nat
  batchB : List Nat
  batch : List Nat
  m : Nat
  n : Nat
  k : Nat
  mPos : 0 < m
  nPos : 0 < n
  kPos : 0 < k
  nonempty : batchA ≠ []
  batchAPos : ∀ d ∈ batchA, 0 < d
  batchBPos : ∀ d ∈ batchB, 0 < d
  broadcast : broadcastShape batchA batchB = .ok batch

namespace MatmulKernel

variable (x : MatmulKernel)

def aType : ResolvedTensorType := .new (.float x.elemType) (x.batchA ++ [x.m, x.k])

def bType : ResolvedTensorType := .new (.float x.elemType) (x.batchB ++ [x.k, x.n])

def outType : ResolvedTensorType := .new (.float x.elemType) (x.batch ++ [x.m, x.n])

/-- The elements that an operand holds. -/
def size : Operand → Nat
  | .dst => x.batch.prod * (x.m * x.n)
  | .a => x.batchA.prod * (x.m * x.k)
  | .b => x.batchB.prod * (x.k * x.n)
  | _ => 0

variable (R : Type) [CommRing R] [DecidableEq R]

/-- The scheduler appends no workspace, and there is no third operand. -/
def build : Option (List (Instr R)) :=
  buildMatmul (.operand .dst x.outType) (.operand .a x.aType) (.operand .b x.bType) none .start

variable {R}

/-- The memory after the kernel. -/
def run (μ : Memory Operand R) : Option (Memory Operand R) := (x.build R).bind fun code => exec x.size code μ

/-- Entry `i`, `j` of the product at an index of the outer axes. -/
def product (μ : Memory Operand R) (idx : List Nat) (i j : Nat) : R :=
  ∑ l ∈ Finset.range x.k,
    μ .a (rowMajor x.aType.dims (broadcastSource x.batchA x.batch idx ++ [i, l])) *
      μ .b (rowMajor x.bType.dims (broadcastSource x.batchB x.batch idx ++ [l, j]))

variable (R)

/-- The kernel computes the products, and goes past the end of no operand. -/
def Computes : Prop :=
  ∀ μ : Memory Operand R, ∃ μ', x.run μ = some μ' ∧
    ∀ idx, Inside idx x.batch → ∀ i < x.m, ∀ j < x.n,
      μ' .dst (rowMajor x.outType.dims (idx ++ [i, j])) = x.product μ idx i j

/-- There is one product, its sizes fit into the `i32` of BLAS, and its elements are not of bf16. -/
def Sound : Prop :=
  x.elemType ≠ .BF16 ∧ (x.m < 2 ^ 31 ∧ x.n < 2 ^ 31 ∧ x.k < 2 ^ 31) ∧ x.batch.prod = 1

section Build

/-- The kernel of one of the products. -/
def kernel : GemmKernel R :=
  singleKernel { alpha := 1, beta := 0, transA := false, transB := false } x.elemType x.mPos x.nPos x.kPos

/-- The call for the first product. -/
def call : Call Operand R := ((x.kernel R).args ⟨.a, 0⟩ ⟨.b, 0⟩ ⟨.dst, 0⟩).toCall

theorem prod_pos : 0 < x.batchA.prod := prod_pos_of_pos x.batchAPos

/-- Each offset is added twice. -/
theorem build_eq : x.build R =
    if x.elemType ≠ .BF16 ∧ (x.kernel R).Fits then
      some (((x.call R).batch (2 * (x.m * x.k)) (2 * (x.k * x.n)) (2 * (x.m * x.n)) x.batchA.prod).map .call)
    else none := by
  have hsize : divUsize (ResolvedTensorDims.size (x.batchA ++ [x.m, x.k])) (x.m * x.k) = some x.batchA.prod := by
    have hmk := Nat.mul_pos x.mPos x.kPos
    have hdims : ResolvedTensorDims.size (x.batchA ++ [x.m, x.k]) = x.batchA.prod * (x.m * x.k) := by
      simp [ResolvedTensorDims.size]
    rw [hdims, divUsize, if_neg (by omega), Nat.mul_div_cancel _ hmk]
  have hrank : 3 ≤ (x.batchA ++ [x.m, x.k]).length := by
    have := List.length_pos_iff.mpr x.nonempty
    simp
    omega
  have hdims (t : DataType) (d : ResolvedTensorDims) : (ResolvedTensorType.new t d).dims = d := rfl
  have helem (t : DataType) (d : ResolvedTensorDims) : (ResolvedTensorType.new t d).elemType = t := rfl
  unfold build buildMatmul
  simp [aType, bType, outType, hdims, helem, hsize, subUsize, ResolvedTensorType.new_isContiguous]
  rw [if_pos (by simpa using hrank)]
  refine (countedLoop_calls x.prod_pos.ne' (p := ¬ x.elemType = .BF16 ∧ (x.kernel R).Fits)
    (g := (x.call R).step (2 * (x.m * x.k)) (2 * (x.k * x.n)) (2 * (x.m * x.n))) fun ind => ?_).trans rfl
  have hbody := (x.kernel R).buildGemm_inPlace
    { ptr := { buf := .dst, pos := 0 + ind * (x.m * x.n) }, ty := (x.kernel R).outType
      offset := ind * (x.m * x.n) }
    { ptr := { buf := .a, pos := 0 + ind * (x.m * x.k) }, ty := (x.kernel R).aType
      offset := ind * (x.m * x.k) }
    { ptr := { buf := .b, pos := 0 + ind * (x.k * x.n) }, ty := (x.kernel R).bType
      offset := ind * (x.k * x.n) } rfl rfl rfl rfl .start
  have hcall : ((x.kernel R).args ⟨.a, 0 + ind * (x.m * x.k) + ind * (x.m * x.k)⟩
      ⟨.b, 0 + ind * (x.k * x.n) + ind * (x.k * x.n)⟩
      ⟨.dst, 0 + ind * (x.m * x.n) + ind * (x.m * x.n)⟩).toCall =
        (x.call R).step (2 * (x.m * x.k)) (2 * (x.k * x.n)) (2 * (x.m * x.n)) ind := by
    have hdouble (a : Nat) : 0 + ind * a + ind * a = 0 + ind * (2 * a) := by ring
    rw [hdouble, hdouble, hdouble]
    rfl
  rw [← hcall]
  exact Eq.trans (by rw [Option.map_eq_bind]; rfl) hbody

end Build

section Sound

variable {R : Type} [Field R] [DecidableEq R] {μ : Memory Operand R}

omit [DecidableEq R] in
/-- Without a transposition the factors are found by rows. -/
theorem kernel_addressA {i l : Nat} (hi : i < x.m) (hl : l < x.k) :
    (x.kernel R).addressA i l = i * x.k + l := by
  refine ((x.kernel R).elementAt_aType hi hl).symm.trans ?_
  have hidx : Inside [i, l] [x.m, x.k] := .cons hi (.cons hl .nil)
  refine (elementAt_calcStride hidx).trans ?_
  simp [rowMajor]

omit [DecidableEq R] in
theorem kernel_addressB {l j : Nat} (hl : l < x.k) (hj : j < x.n) :
    (x.kernel R).addressB l j = l * x.n + j := by
  refine ((x.kernel R).elementAt_bType hl hj).symm.trans ?_
  have hidx : Inside [l, j] [x.k, x.n] := .cons hl (.cons hj .nil)
  refine (elementAt_calcStride hidx).trans ?_
  simp [rowMajor]

theorem run_eq_some {μ' : Memory Operand R} : x.run μ = some μ' ↔
    (x.elemType ≠ .BF16 ∧ (x.kernel R).Fits) ∧
      runAll x.size ((x.call R).batch (2 * (x.m * x.k)) (2 * (x.k * x.n)) (2 * (x.m * x.n)) x.batchA.prod) μ =
        some μ' := by
  unfold run
  rw [build_eq]
  split
  · rename_i hfits
    rw [Option.bind_some, exec_calls]
    exact (and_iff_right hfits).symm
  · rename_i hfits
    exact iff_of_false nofun fun h => hfits h.1

/-- A second product is read from past the end of its operand. -/
theorem prod_eq_one {μ' : Memory Operand R} (h : x.run μ = some μ') : x.batchA.prod = 1 := by
  by_contra hne
  have hpos := x.prod_pos
  have hmk := Nat.mul_pos x.mPos x.kPos
  obtain ⟨-, hrun⟩ := x.run_eq_some.mp h
  have hinside := inside_of_runAll hrun _
    (List.mem_map_of_mem (List.mem_range.mpr (Nat.sub_lt hpos Nat.one_pos)))
  change ((x.kernel R).args ⟨.a, 0 + (x.batchA.prod - 1) * (2 * (x.m * x.k))⟩ ⟨.b, _⟩ ⟨.dst, _⟩).toCall.Inside _
    at hinside
  have hfirst := (((x.kernel R).inside_args.mp hinside).2 one_ne_zero).1 0 x.mPos 0 x.kPos
  have hdouble : x.batchA.prod * (x.m * x.k) ≤ (x.batchA.prod - 1) * (2 * (x.m * x.k)) := by
    have htwice : x.batchA.prod ≤ (x.batchA.prod - 1) * 2 := by omega
    rw [← Nat.mul_assoc (x.batchA.prod - 1)]
    exact Nat.mul_le_mul_right _ htwice
  change 0 + (x.batchA.prod - 1) * (2 * (x.m * x.k)) + _ < x.batchA.prod * (x.m * x.k) at hfirst
  omega

/-- The axes of a batch of one product have one element each. -/
theorem prod_eq_one_of_broadcasts {s : List Nat} (h : Broadcasts s x.batch) (hone : x.batch.prod = 1) :
    s.prod = 1 := by
  have hall := eq_one_of_prod_eq_one hone
  have hones : ∀ d ∈ s, d = 1 := by
    intro d hd
    obtain ⟨k, hk, rfl⟩ := List.mem_iff_getElem.mp hd
    have hk' := h.2.length_eq ▸ hk
    obtain heq | heq := (List.forall₂_iff_get.mp h.2).2 k hk hk'
    · exact heq
    · rw [List.get_eq_getElem, List.get_eq_getElem] at heq
      rw [heq]
      exact hall _ (List.mem_of_mem_drop (List.getElem_mem _))
  exact List.prod_eq_one hones

/-- The one product of a batch. -/
theorem run_of_sound (h : x.Sound) : ∃ μ', x.run μ = some μ' ∧
    ∀ i < x.m, ∀ j < x.n, μ' .dst (i * x.n + j) =
      ∑ l ∈ Finset.range x.k, μ .a (i * x.k + l) * μ .b (l * x.n + j) := by
  obtain ⟨hbf, hfits, hone⟩ := h
  obtain ⟨hA, hB⟩ := broadcasts_of_shape x.broadcast
  have hprodA := x.prod_eq_one_of_broadcasts hA hone
  have hprodB := x.prod_eq_one_of_broadcasts hB hone
  have hsize : x.size .dst = x.m * x.n ∧ x.size .a = x.m * x.k ∧ x.size .b = x.k * x.n := by
    simp [size, hone, hprodA, hprodB]
  have hstep : (x.call R).step (2 * (x.m * x.k)) (2 * (x.k * x.n)) (2 * (x.m * x.n)) 0 = x.call R := by
    simp [Call.step, Matrix.shift]
  have hinside : (x.call R).Inside x.size := by
    refine (x.kernel R).inside_args.mpr ?_
    simp only [Nat.zero_add, hsize.1, hsize.2.1, hsize.2.2]
    refine ⟨fun i hi j hj => mul_add_lt hi hj, fun _ => ⟨fun i hi l hl => ?_, fun l hl j hj => ?_⟩⟩
    · exact (x.kernel R).addressA_lt hi hl
    · exact (x.kernel R).addressB_lt hl hj
  refine ⟨(x.call R).result μ, ?_, fun i hi j hj => ?_⟩
  · refine x.run_eq_some.mpr ⟨⟨hbf, hfits⟩, ?_⟩
    rw [hprodA]
    show runAll x.size [(x.call R).step _ _ _ 0] μ = _
    rw [hstep]
    show ((x.call R).run x.size μ).bind some = _
    rw [Call.run, if_pos ⟨(x.kernel R).legal_args _ _ _, hinside⟩]
    rfl
  · have hentry := (x.kernel R).result_args (μ := μ) ⟨.a, 0⟩ ⟨.b, 0⟩ ⟨.dst, 0⟩ hi hj
    simp only [Nat.zero_add] at hentry
    refine hentry.trans ?_
    have hbeta : (x.kernel R).beta = 0 := rfl
    rw [hbeta, zero_mul, add_zero]
    refine (one_mul _).trans (Finset.sum_congr rfl fun l hl => ?_)
    have hl' := Finset.mem_range.mp hl
    rw [x.kernel_addressA hi hl', x.kernel_addressB hl' hj]

theorem batch_pos : ∀ d ∈ x.batch, 0 < d := by
  intro d hd
  by_contra hzero
  obtain rfl : d = 0 := by omega
  obtain ⟨k, hk⟩ := mem_iff_fromRight.mp hd
  obtain hA | hB : fromRight x.batchA k = 0 ∨ fromRight x.batchB k = 0 := by
    have hjoin := (broadcastShape_eq_ok.mp x.broadcast).2 k
    unfold JoinsTo at hjoin
    omega
  · exact absurd (x.batchAPos 0 (mem_iff_fromRight.mpr ⟨k, hA⟩)) (lt_irrefl 0)
  · exact absurd (x.batchBPos 0 (mem_iff_fromRight.mpr ⟨k, hB⟩)) (lt_irrefl 0)

/-- The batch has at most one product: the others are not computed. -/
theorem batch_prod_eq_one (h : x.Computes R) : x.batch.prod = 1 := by
  by_contra hne
  have hpos := prod_pos_of_pos x.batch_pos
  have hlt : 1 < x.batch.prod := by omega
  obtain ⟨μ', hrun, hentry⟩ := h fun o _ => if o = .dst then 1 else 0
  have hone := x.prod_eq_one hrun
  obtain ⟨-, hall⟩ := x.run_eq_some.mp hrun
  rw [hone] at hall
  -- the only call ends where the second product begins
  obtain ⟨μ₁, hcall, hlast⟩ := Option.bind_eq_some_iff.mp hall
  obtain rfl := Option.some.inj hlast
  obtain ⟨hlegal, -, rfl⟩ := Call.run_eq_some.mp hcall
  have hidx := multiIndex_lt x.batch_pos 1
  have hsecond := hentry _ hidx 0 x.mPos 0 x.nPos
  have haddr : rowMajor x.outType.dims (multiIndex x.batch 1 ++ [0, 0]) = x.m * x.n := by
    refine (rowMajor_append hidx [x.m, x.n] [0, 0]).trans ?_
    rw [rowMajor_multiIndex hlt]
    simp [rowMajor]
  rw [haddr] at hsecond
  have hout := Call.result_of_outside (μ := fun o _ => if o = Operand.dst then (1 : R) else 0) hlegal
    (p := x.m * x.n) (.inr (by show 0 + 0 * _ + x.m * x.n ≤ _; omega))
  have hzero : x.product (fun o _ => if o = Operand.dst then (1 : R) else 0) (multiIndex x.batch 1) 0 0 = 0 := by
    simp [product]
  exact one_ne_zero (hout.symm.trans (hsecond.trans hzero))

theorem computes_iff_sound : x.Computes R ↔ x.Sound := by
  constructor
  · intro h
    obtain ⟨μ', hrun, -⟩ := h fun _ _ => 0
    obtain ⟨⟨hbf, hfits⟩, -⟩ := x.run_eq_some.mp hrun
    exact ⟨hbf, hfits, x.batch_prod_eq_one h⟩
  · intro h μ
    obtain ⟨μ', hrun, hentry⟩ := x.run_of_sound (μ := μ) h
    refine ⟨μ', hrun, fun idx hidx i hi j hj => ?_⟩
    have hone := h.2.2
    obtain ⟨hA, hB⟩ := broadcasts_of_shape x.broadcast
    have hfirst {s r : List Nat} (hr : Inside r s) (hs : s.prod = 1) (d e p q : Nat) :
        rowMajor (s ++ [d, e]) (r ++ [p, q]) = p * e + q := by
      rw [rowMajor_append hr, rowMajor_of_prod_one hr hs]
      simp [rowMajor]
    have hsrcA := hfirst (inside_broadcastSource hA hidx) (x.prod_eq_one_of_broadcasts hA hone) x.m x.k
    have hsrcB := hfirst (inside_broadcastSource hB hidx) (x.prod_eq_one_of_broadcasts hB hone) x.k x.n
    show μ' .dst (rowMajor (x.batch ++ [x.m, x.n]) _) = _
    rw [hfirst hidx hone, hentry i hi j hj]
    refine Finset.sum_congr rfl fun l _ => ?_
    rw [← hsrcA i l, ← hsrcB l j]
    rfl

end Sound

end MatmulKernel

/-! ### `BatchedGemm` -/

/-- A kernel of `BatchedGemm` on row-major operands with the same outer axes. -/
structure BatchedKernel (R : Type) where
  gemm : Gemm R
  elemType : FloatType
  batch : List Nat
  m : Nat
  n : Nat
  k : Nat
  mPos : 0 < m
  nPos : 0 < n
  kPos : 0 < k
  nonempty : batch ≠ []
  batchPos : ∀ d ∈ batch, 0 < d

namespace BatchedKernel

variable {R : Type} (x : BatchedKernel R)

def aDims : ResolvedTensorDims := x.batch ++ if x.gemm.transA then [x.k, x.m] else [x.m, x.k]

def bDims : ResolvedTensorDims := x.batch ++ if x.gemm.transB then [x.n, x.k] else [x.k, x.n]

def outDims : ResolvedTensorDims := x.batch ++ [x.m, x.n]

/-- The workspace that the scheduler appends. -/
def workspaceType : Option ResolvedTensorType :=
  if x.elemType = .BF16 then
    some (.new (.float .F32)
      [ResolvedTensorDims.size x.aDims + ResolvedTensorDims.size x.bDims + ResolvedTensorDims.size x.outDims])
  else none

/-- The elements that an operand holds. -/
def size : Operand → Nat
  | .dst => x.batch.prod * (x.m * x.n)
  | .a => x.batch.prod * (x.m * x.k)
  | .b => x.batch.prod * (x.k * x.n)
  | .c => 0
  | .workspace => if x.elemType = .BF16 then
      x.batch.prod * (x.m * x.k) + x.batch.prod * (x.k * x.n) + x.batch.prod * (x.m * x.n) else 0

variable [CommRing R] [DecidableEq R]

def build (mkl : Bool) : Option (List (Instr R)) :=
  buildBatchedGemm mkl (.operand .dst (.new (.float x.elemType) x.outDims))
    (.operand .a (.new (.float x.elemType) x.aDims)) (.operand .b (.new (.float x.elemType) x.bDims))
    (x.workspaceType.map (.operand .workspace)) .start x.gemm

/-- The memory after the kernel. -/
def run (mkl : Bool) (μ : Memory Operand R) : Option (Memory Operand R) :=
  (x.build mkl).bind fun code => exec x.size code μ

/-- Entry `i`, `j` of the product at an index of the outer axes. -/
def product (μ : Memory Operand R) (idx : List Nat) (i j : Nat) : R :=
  x.gemm.alpha * ∑ l ∈ Finset.range x.k,
    μ .a (rowMajor x.aDims (idx ++ if x.gemm.transA then [l, i] else [i, l])) *
      μ .b (rowMajor x.bDims (idx ++ if x.gemm.transB then [j, l] else [l, j]))

/-- The kernel computes the products, and goes past the end of no operand. -/
def Computes (mkl : Bool) : Prop :=
  ∀ μ : Memory Operand R, ∃ μ', x.run mkl μ = some μ' ∧
    ∀ idx, Inside idx x.batch → ∀ i < x.m, ∀ j < x.n,
      μ' .dst (rowMajor x.outDims (idx ++ [i, j])) = x.product μ idx i j

/-- What has to fit into the `i32` of BLAS: with MKL also the distances and the number of the products. -/
def Fits (mkl : Bool) : Prop :=
  (x.m < 2 ^ 31 ∧ x.n < 2 ^ 31 ∧ x.k < 2 ^ 31) ∧
    (mkl = true → x.m * x.k < 2 ^ 31 ∧ x.k * x.n < 2 ^ 31 ∧ x.m * x.n < 2 ^ 31 ∧ x.batch.prod < 2 ^ 31)

/-- Everything fits, nothing is added to the products, and the elements are not of bf16. -/
def Sound (mkl : Bool) : Prop := x.elemType ≠ .BF16 ∧ x.Fits mkl ∧ x.gemm.beta = 0

section Build

variable {R : Type} [Field R] [DecidableEq R] (x : BatchedKernel R)

/-- The arguments of the call for the first product. -/
def args : GemmArgs R :=
  { a := (⟨.a, 0⟩, x.gemm.transA), b := (⟨.b, 0⟩, x.gemm.transB), c := ⟨.dst, 0⟩, alpha := x.gemm.alpha
    beta := x.gemm.beta, m := x.m, n := x.n, k := x.k }

/-- The arguments of call number `t`. -/
def argsAt (t : Nat) : GemmArgs R :=
  { x.args with
    a := (⟨.a, 0 + (0 + t * (x.m * x.k))⟩, x.gemm.transA)
    b := (⟨.b, 0 + (0 + t * (x.k * x.n))⟩, x.gemm.transB)
    c := ⟨.dst, 0 + (0 + t * (x.m * x.n))⟩ }

/-- The calls for all products. -/
def calls : List (Call Operand R) :=
  x.args.toCall.batch (x.m * x.k) (x.k * x.n) (x.m * x.n) x.batch.prod

instance (mkl : Bool) : Decidable (x.Fits mkl) := inferInstanceAs (Decidable (_ ∧ (_ → _)))

omit [Field R] [DecidableEq R] in
theorem prod_pos : 0 < x.batch.prod := prod_pos_of_pos x.batchPos

omit [Field R] [DecidableEq R] in
theorem argsAt_toCall (t : Nat) :
    (x.argsAt t).toCall = x.args.toCall.step (x.m * x.k) (x.k * x.n) (x.m * x.n) t := by
  simp [argsAt, args, GemmArgs.toCall, Call.step, Matrix.shift]

omit [Field R] [DecidableEq R] in
theorem aDims_eq : ∃ r c, x.aDims = x.batch ++ [r, c] ∧
    (if x.gemm.transA then (c, r) else (r, c)) = (x.m, x.k) ∧ r * c = x.m * x.k := by
  unfold aDims
  cases x.gemm.transA with
  | false => exact ⟨x.m, x.k, rfl, rfl, rfl⟩
  | true => exact ⟨x.k, x.m, rfl, rfl, Nat.mul_comm _ _⟩

omit [Field R] [DecidableEq R] in
theorem bDims_eq : ∃ r c, x.bDims = x.batch ++ [r, c] ∧
    (if x.gemm.transB then r else c) = x.n ∧ r * c = x.k * x.n := by
  unfold bDims
  cases x.gemm.transB with
  | false => exact ⟨x.k, x.n, rfl, rfl, rfl⟩
  | true => exact ⟨x.n, x.k, rfl, rfl, Nat.mul_comm _ _⟩

theorem build_eq (mkl : Bool) : x.build mkl =
    if x.elemType ≠ .BF16 ∧ x.Fits mkl then some (x.calls.map .call) else none := by
  have hdims (t : DataType) (d : ResolvedTensorDims) : (ResolvedTensorType.new t d).dims = d := rfl
  have helem (t : DataType) (d : ResolvedTensorDims) : (ResolvedTensorType.new t d).elemType = t := rfl
  have hpos := x.prod_pos
  have hmk := Nat.mul_pos x.mPos x.kPos
  have hkn := Nat.mul_pos x.kPos x.nPos
  have hrank : 1 ≤ x.batch.length := List.length_pos_iff.mpr x.nonempty
  obtain ⟨r, c, hA, hflagA, hprodA⟩ := x.aDims_eq
  obtain ⟨r', c', hB, hflagB, hprodB⟩ := x.bDims_eq
  have hsize : divUsize (ResolvedTensorDims.size (x.batch ++ [r, c])) (x.m * x.k) = some x.batch.prod := by
    have hprod : ResolvedTensorDims.size (x.batch ++ [r, c]) = x.batch.prod * (x.m * x.k) := by
      simp [ResolvedTensorDims.size, ← hprodA]
    rw [hprod, divUsize, if_neg (by omega), Nat.mul_div_cancel _ hmk]
  unfold build buildBatchedGemm
  by_cases hbf : x.elemType = .BF16
  · -- the conversions end in a block that the loop does not know
    have hloadB (p q p' q' : Pointer) (b : Block) : Block.start ≠
        (convertBuf (R := R) p q (x.batch.prod * (x.k * x.n)) (convertBuf (R := R) p' q'
          (x.batch.prod * (x.m * x.k)) b).1).1 := by
      rw [convertBuf_block _ _ (Nat.mul_pos hpos hkn).ne']
      intro h
      cases h
    have hloadC (p q : Pointer) (b : Block) : Block.start ≠
        (convertBuf (R := R) p q (x.batch.prod * (x.m * x.n)) b).1 := by
      rw [convertBuf_block _ _ (Nat.mul_pos hpos (Nat.mul_pos x.mPos x.nPos)).ne']
      intro h
      cases h
    by_cases hbeta : x.gemm.beta = 0 <;>
    simp [hA, hB, outDims, hdims, helem, hrank, ResolvedTensorType.new_isContiguous, floatType, hsize, hbf,
      workspaceType, hpos.ne', hflagA, hflagB, hprodA, hprodB, hbeta, countedLoop_of_ne (hloadB _ _ _ _ _),
      countedLoop_of_ne (hloadC _ _ _), -mul_ite]
  · cases mkl with
    | true =>
        have hfits : (x.args.Fits ∧ x.m * x.k < 2 ^ 31 ∧ x.k * x.n < 2 ^ 31 ∧ x.m * x.n < 2 ^ 31 ∧
            x.batch.prod < 2 ^ 31) ↔ x.Fits true := and_congr Iff.rfl (by simp)
        have hcalls := x.args.callBatchStrided_eq (x.m * x.k) (x.k * x.n) (x.m * x.n) x.batch.prod
        simp only [hfits] at hcalls
        simp [hA, hB, outDims, hdims, helem, hrank, ResolvedTensorType.new_isContiguous, floatType, hsize, hbf,
          hflagA, hflagB, hprodA, hprodB, -mul_ite]
        show (x.args.callBatchStrided _ _ _ _).bind _ = _
        rw [hcalls]
        split <;> rfl
    | false =>
        have hfits (t : Nat) : (x.argsAt t).Fits ↔ x.Fits false := (and_iff_left (by simp)).symm
        simp [hA, hB, outDims, hdims, helem, hrank, ResolvedTensorType.new_isContiguous, floatType, hsize, hbf,
          hflagA, hflagB, hprodA, hprodB, hpos.ne', -mul_ite]
        refine (countedLoop_calls hpos.ne' (p := x.Fits false)
          (g := x.args.toCall.step (x.m * x.k) (x.k * x.n) (x.m * x.n)) fun t => ?_).trans rfl
        show (x.argsAt t).call.bind _ = _
        rw [GemmArgs.call_eq, argsAt_toCall]
        simp only [hfits]
        split <;> rfl

end Build

section Sound

variable {R : Type} [Field R] [DecidableEq R] (x : BatchedKernel R) {mkl : Bool} {μ : Memory Operand R}

theorem run_eq_some {μ' : Memory Operand R} : x.run mkl μ = some μ' ↔
    (x.elemType ≠ .BF16 ∧ x.Fits mkl) ∧ runAll x.size x.calls μ = some μ' := by
  unfold run
  rw [build_eq]
  split
  · rename_i hfits
    rw [Option.bind_some, exec_calls]
    exact (and_iff_right hfits).symm
  · rename_i hfits
    exact iff_of_false nofun fun h => hfits h.1

omit [Field R] [DecidableEq R] in
/-- A call finds the factors where they are stored. -/
theorem rowMajor_aDims {idx : List Nat} (hidx : Inside idx x.batch) (i l : Nat) :
    rowMajor x.aDims (idx ++ if x.gemm.transA then [l, i] else [i, l]) =
      rowMajor x.batch idx * (x.m * x.k) + x.args.addressA i l := by
  unfold aDims GemmArgs.addressA args entryAddress
  rw [rowMajor_append hidx]
  cases x.gemm.transA <;> simp [rowMajor, Nat.mul_comm x.k]

omit [Field R] [DecidableEq R] in
theorem rowMajor_bDims {idx : List Nat} (hidx : Inside idx x.batch) (l j : Nat) :
    rowMajor x.bDims (idx ++ if x.gemm.transB then [j, l] else [l, j]) =
      rowMajor x.batch idx * (x.k * x.n) + x.args.addressB l j := by
  unfold bDims GemmArgs.addressB args entryAddress
  rw [rowMajor_append hidx]
  cases x.gemm.transB <;> simp [rowMajor, Nat.mul_comm x.k]

/-- The calls leave the products, and add what was in the output before. -/
theorem run_of_fits (hbf : x.elemType ≠ .BF16) (hfits : x.Fits mkl) : ∃ μ', x.run mkl μ = some μ' ∧
    ∀ idx, Inside idx x.batch → ∀ i < x.m, ∀ j < x.n,
      μ' .dst (rowMajor x.outDims (idx ++ [i, j])) =
        x.product μ idx i j + x.gemm.beta * μ .dst (rowMajor x.outDims (idx ++ [i, j])) := by
  have hzero (p : Nat) : 0 + p ≤ p := (Nat.zero_add p).le
  obtain ⟨μ', hrun, hentry⟩ := runAll_dense x.gemm.alpha x.gemm.beta (Operand.a, 0, x.gemm.transA)
    (Operand.b, 0, x.gemm.transB) (Operand.dst, 0) x.size x.mPos x.nPos x.kPos nofun nofun (hzero _) (hzero _)
    (hzero _) μ
  refine ⟨μ', x.run_eq_some.mpr ⟨⟨hbf, hfits⟩, hrun⟩, fun idx hidx i hi j hj => ?_⟩
  have hout : rowMajor x.outDims (idx ++ [i, j]) = 0 + (rowMajor x.batch idx * (x.m * x.n) + (i * x.n + j)) := by
    rw [outDims, rowMajor_append hidx]
    simp [rowMajor]
  rw [hout]
  refine (hentry (rowMajor x.batch idx) (rowMajor_lt hidx) i hi j hj).trans ?_
  unfold product
  congr 1
  refine congrArg (x.gemm.alpha * ·) (Finset.sum_congr rfl fun l _ => ?_)
  rw [x.rowMajor_aDims hidx, x.rowMajor_bDims hidx]
  simp only [Nat.zero_add]
  rfl

theorem computes_iff_sound : x.Computes mkl ↔ x.Sound mkl := by
  constructor
  · intro h
    obtain ⟨μ', hrun, hentry⟩ := h fun o _ => if o = .dst then 1 else 0
    obtain ⟨⟨hbf, hfits⟩, -⟩ := x.run_eq_some.mp hrun
    refine ⟨hbf, hfits, ?_⟩
    -- with factors of zeros the first element is what was there before
    obtain ⟨μ'', hrun', hfound⟩ := x.run_of_fits (μ := fun o _ => if o = .dst then 1 else 0) hbf hfits
    obtain rfl := Option.some.inj (hrun.symm.trans hrun')
    have hidx := multiIndex_lt x.batchPos 0
    have hsame := (hfound _ hidx 0 x.mPos 0 x.nPos).symm.trans (hentry _ hidx 0 x.mPos 0 x.nPos)
    simpa [product] using hsame
  · rintro ⟨hbf, hfits, hbeta⟩ μ
    obtain ⟨μ', hrun, hentry⟩ := x.run_of_fits (μ := μ) hbf hfits
    refine ⟨μ', hrun, fun idx hidx i hi j hj => ?_⟩
    rw [hentry idx hidx i hi j hj, hbeta, zero_mul, add_zero]

end Sound

end BatchedKernel

/-! ### All kernels -/

/-- The kernels of matrix products. -/
inductive Kernel (R : Type)
  | gemm (x : GemmKernel R)
  | matmul (x : MatmulKernel)
  | batchedGemm (x : BatchedKernel R)

namespace Kernel

variable {R : Type} [Field R] [DecidableEq R]

/-- The kernel leaves its product in the output, and goes past the end of no operand. -/
def Computes (mkl : Bool) : Kernel R → Prop
  | gemm x => x.Computes
  | matmul x => x.Computes R
  | batchedGemm x => x.Computes mkl

/-- What the code asks of a kernel. -/
def Sound (mkl : Bool) : Kernel R → Prop
  | gemm x => x.Sound
  | matmul x => x.Sound
  | batchedGemm x => x.Sound mkl

/-- With either library, the kernels that compute their products are these. -/
theorem cpuKernel_computes_iff (mkl : Bool) (x : Kernel R) : x.Computes mkl ↔ x.Sound mkl := by
  cases x with
  | gemm x => exact x.computes_iff_sound
  | matmul x => exact x.computes_iff_sound
  | batchedGemm x => exact x.computes_iff_sound

end Kernel

/-- The product of a row, which is stored as a column, and a column. -/
def transposedColumn : GemmKernel ℚ :=
  { gemm := { alpha := 1, beta := 0, transA := true, transB := false }, elemType := .F32, m := 1, n := 1, k := 2
    mPos := Nat.one_pos, nPos := Nat.one_pos, kPos := Nat.two_pos, swappedA := false, swappedB := false
    cStride := none }

/-- A memory where only the second product is not zero. -/
def secondProduct : Memory Operand ℚ := fun o p => if o = .a ∧ p = 1 ∨ o = .b then 1 else 0

/-- The code adds up one product of two. -/
theorem transposedColumn_not_computes : ¬ (Kernel.gemm transposedColumn).Computes false := by
  intro h
  obtain ⟨μ', hrun, hentry⟩ := h secondProduct
  have hfound : (transposedColumn.run secondProduct).map (· .dst 0) = some 0 := by decide +kernel
  have hproduct : transposedColumn.product secondProduct 0 0 = 1 := by decide +kernel
  rw [hrun] at hfound
  have hfirst := hentry 0 (by decide) 0 (by decide)
  exact zero_ne_one ((Option.some.inj hfound).symm.trans (hfirst.trans hproduct))

end CpuGemm
end NnEngine
