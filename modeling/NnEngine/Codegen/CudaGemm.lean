import NnEngine.Codegen.CpuGemmSound
import NnEngine.Tensor.BroadcastShape
import NnEngine.Tensor.Contiguity

/-!
# Matrix products on the GPU

What `src/codegen/cuda.rs` emits for `Gemm` and `BatchedGemm`, with the calls of `src/codegen/cuda/cublas.rs`
and the workspace that `src/schedule/kernel.rs` appends to the operands.  cuBLAS stores matrices by columns,
so that the code asks for the product of the transposed matrices.  A failed assertion and an `unwrap` of
`None` are panics (`none`), and a call whose sizes its `int` arguments do not hold has no result.
-/

namespace NnEngine
namespace CudaGemm

open Blas
open CpuGemm (matrixType calcStride_pair)

/-- The buffers that a kernel uses. -/
inductive Buffer
  | out
  | a
  | b
  | c
  | workspace
  deriving DecidableEq, Repr

/-- An operand: its buffer and its type. -/
abbrev Operand := Buffer × ResolvedTensorType

inductive Op (R : Type)
  | gemm (g : CpuGemm.Gemm R)
  | batchedGemm (g : CpuGemm.Gemm R)

/-- The factors and the flags of the operator. -/
def Op.params {R : Type} : Op R → CpuGemm.Gemm R
  | gemm g => g
  | batchedGemm g => g

/-- `GEMM_WORKSPACE` and `BATCHED_GEMM_WORKSPACE`. -/
def Op.workspaceIndex {R : Type} : Op R → Nat
  | gemm _ => 3
  | batchedGemm _ => 2

/-- `set_node_input`. -/
def setNodeInput (inputs : List (Option Operand)) (index : Nat) (value : Operand) : List (Option Operand) :=
  (inputs ++ List.replicate (index + 1 - inputs.length) none).set index (some value)

/-- The statements that are emitted: a copy of `count` elements, and calls of cuBLAS. -/
inductive Stmt (R : Type)
  | memcpy (dst src : Buffer) (count : Nat)
  | gemm (g : Call Buffer R)
  | gemmStridedBatched (g : Call Buffer R) (strideA strideB strideC batchCount : Nat)

/-! ### Emission -/

/-- `suffix(2)`. -/
def suffixTwo (dims : ResolvedTensorDims) : Option (Nat × Nat) :=
  match dims.drop (dims.length - 2) with
  | [rows, cols] => some (rows, cols)
  | _ => none

/-- `transposed_layout`. -/
def transposedLayout (ty : ResolvedTensorType) : Option Bool :=
  if ty.isContiguous then some false
  else do
    let row ← (subUsize ty.dims.length 2).bind (ty.dims[·]?)
    let last ← (subUsize ty.dims.length 1).bind (ty.stride[·]?)
    let slow ← (subUsize ty.dims.length 2).bind (ty.stride[·]?)
    if last = row ∧ slow = 1 then some true else none

section Emission

variable {R : Type}

/-- The copy of the bias: there is one if the kernel has three operands. -/
def copyBias (op : Op R) (inputs : List (Option Operand)) (output : Operand) : Option (List (Stmt R)) :=
  if inputs.length = 3 then
    match op with
    | .gemm _ => do
        let bias ← inputs[2]?.join
        some (if bias.1 ≠ output.1 then [.memcpy output.1 bias.1 output.2.storageNumElements] else [])
    | .batchedGemm _ => none
  else some []

/-- The statements for a kernel. -/
def emit (op : Op R) (inputs : List (Option Operand)) (output : Operand) : Option (List (Stmt R)) := do
  let gemm := op.params
  let a ← inputs[0]?.join
  let b ← inputs[1]?.join
  let (aRows, aCols) ← suffixTwo a.2.dims
  let (m, k) := if gemm.transA then (aCols, aRows) else (aRows, aCols)
  let (bRows, bCols) ← suffixTwo b.2.dims
  let (k', n) := if gemm.transB then (bCols, bRows) else (bRows, bCols)
  if k = k' then do
    -- by columns, the product of the transposed factors
    let (m, k, n) := (n, k, m)
    let swappedA ← transposedLayout a.2
    let swappedB ← transposedLayout b.2
    let transA := gemm.transA ^^ swappedA
    let transB := gemm.transB ^^ swappedB
    let lda := if !transB then m else k
    let ldb := if !transA then k else n
    let ldc := m
    let copy ← copyBias op inputs output
    let _ ← CpuGemm.floatType output.2.elemType
    let call : Call Buffer R := {
      order := .colMajor, m, n, k, alpha := gemm.alpha, beta := gemm.beta
      a := { buf := b.1, start := 0, ld := lda, trans := transB }
      b := { buf := a.1, start := 0, ld := ldb, trans := transA }
      c := { buf := output.1, start := 0, ld := ldc, trans := false } }
    match op with
    | .gemm _ => some (copy ++ [.gemm call])
    | .batchedGemm _ => do
        let strideA := m * k
        let strideB := k * n
        let strideC := m * n
        let batchCount ← divUsize (ResolvedTensorDims.size b.2.dims) strideA
        some (copy ++ [.gemmStridedBatched call strideA strideB strideC batchCount])
  else none

end Emission

/-! ### Execution -/

section Execution

variable {R : Type} {size : Buffer → Nat} {dst src : Buffer} {count : Nat} {μ : Memory Buffer R}

/-- The sizes fit into the `int` arguments of cuBLAS. -/
def FitsInt (g : Call Buffer R) : Prop :=
  (g.m < 2 ^ 31 ∧ g.n < 2 ^ 31 ∧ g.k < 2 ^ 31) ∧ g.a.ld < 2 ^ 31 ∧ g.b.ld < 2 ^ 31 ∧ g.c.ld < 2 ^ 31

instance (g : Call Buffer R) : Decidable (FitsInt g) := inferInstanceAs (Decidable (_ ∧ _))

/-- The memory after a copy of the first elements. -/
def copied (dst src : Buffer) (count : Nat) (μ : Memory Buffer R) : Memory Buffer R := fun x p =>
  if x = dst ∧ p < count then μ src p else μ x p

theorem copied_of_ne {x : Buffer} (hx : x ≠ dst) : copied dst src count μ x = μ x := by
  ext p
  exact if_neg fun h => hx h.1

variable [CommSemiring R] [DecidableEq R]

def Stmt.run (size : Buffer → Nat) : Stmt R → Memory Buffer R → Option (Memory Buffer R)
  | .memcpy dst src count, μ => if count ≤ size dst ∧ count ≤ size src then some (copied dst src count μ) else none
  | .gemm g, μ => if FitsInt g then g.run size μ else none
  | .gemmStridedBatched g strideA strideB strideC batchCount, μ =>
      if FitsInt g ∧ batchCount < 2 ^ 31 then runAll size (g.batch strideA strideB strideC batchCount) μ else none

def exec (size : Buffer → Nat) (code : List (Stmt R)) (μ : Memory Buffer R) : Option (Memory Buffer R) :=
  code.foldlM (fun μ s => s.run size μ) μ

@[simp] theorem exec_nil : exec size ([] : List (Stmt R)) μ = some μ := rfl

@[simp] theorem exec_cons (s : Stmt R) (code : List (Stmt R)) :
    exec size (s :: code) μ = (s.run size μ).bind (exec size code) := rfl

end Execution

/-! ### Operands -/

/-- The type of a stack of matrices, whose last two axes were perhaps swapped. -/
def stackType (t : FloatType) (swapped : Bool) (batch : List Nat) (rows cols : Nat) : ResolvedTensorType :=
  { elemType := .float t, dims := batch ++ [rows, cols]
    stride := (calcStride batch).map (· * (rows * cols)) ++ (matrixType t swapped rows cols).stride }

/-- The axes are swapped, and it shows. -/
def isSwapped (swapped : Bool) (rows cols : Nat) : Bool := swapped && decide (rows ≠ 1 ∧ cols ≠ 1)

section StackType

variable (t : FloatType) (swapped : Bool) {batch idx : List Nat} {rows cols r c : Nat}

theorem matrixType_stride (rows cols : Nat) : ∃ s0 s1, (matrixType t swapped rows cols).stride = [s0, s1] ∧
    (s0 = if rows = 1 then 0 else if swapped then 1 else cols) ∧
      (s1 = if cols = 1 then 0 else if swapped then rows else 1) := by
  cases swapped with
  | false => exact ⟨_, _, calcStride_pair rows cols, rfl, rfl⟩
  | true => exact ⟨_, _, congrArg List.reverse (calcStride_pair cols rows), rfl, rfl⟩

theorem stackType_isContiguous (hrows : 0 < rows) :
    (stackType t swapped batch rows cols).isContiguous = !isSwapped swapped rows cols := by
  obtain ⟨s0, s1, hs, h0, h1⟩ := matrixType_stride t swapped rows cols
  have hlen : ((calcStride batch).map (· * (rows * cols)) ++ [s0, s1]).length = (batch ++ [rows, cols]).length := by
    simp [calcStride_length]
  have hlast : (s0 = 0 ∨ s0 = cols) ∧ (s1 = 0 ∨ s1 = 1) ↔ (!isSwapped swapped rows cols) = true := by
    rw [h0, h1]
    cases swapped with
    | false =>
        refine iff_of_true ⟨?_, ?_⟩ rfl <;> split <;> simp
    | true =>
        by_cases hr : rows = 1 <;> by_cases hc : cols = 1 <;> simp [isSwapped, hr, hc]
        omega
  rw [Bool.eq_iff_iff, ← hlast]
  unfold ResolvedTensorType.isContiguous stackType
  dsimp only
  rw [hs, ResolvedTensorType.contiguousFrom_reverse hlen]
  clear hlen
  induction batch with
  | nil => simp [steps, calcStride]
  | cons d batch ih =>
      rw [calcStride, List.map_cons, List.cons_append, List.cons_append, steps_cons, List.forall_mem_cons, ih]
      refine and_iff_right ?_
      split
      · exact .inl (Nat.zero_mul _)
      · exact .inr (by simp)

/-- The layout is recognised. -/
theorem transposedLayout_stackType (hrows : 0 < rows) :
    transposedLayout (stackType t swapped batch rows cols) = some (isSwapped swapped rows cols) := by
  unfold transposedLayout
  rw [stackType_isContiguous t swapped hrows]
  cases h : isSwapped swapped rows cols with
  | false => rfl
  | true =>
      obtain ⟨hswapped, hne⟩ : swapped = true ∧ rows ≠ 1 ∧ cols ≠ 1 := by simpa [isSwapped] using h
      obtain ⟨s0, s1, hs, h0, h1⟩ := matrixType_stride t swapped rows cols
      rw [if_neg hne.1, if_pos hswapped] at h0
      rw [if_neg hne.2, if_pos hswapped] at h1
      simp [stackType, hs, h0, h1, subUsize, calcStride_length]

theorem suffixTwo_append (batch : List Nat) (rows cols : Nat) :
    suffixTwo (batch ++ [rows, cols]) = some (rows, cols) := by
  simp [suffixTwo]

theorem elementAt_stackType (hidx : Inside idx batch) (hr : r < rows) (hc : c < cols) :
    elementAt (stackType t swapped batch rows cols).stride (idx ++ [r, c]) =
      rowMajor batch idx * (rows * cols) + denseEntry (isSwapped swapped rows cols) rows cols r c := by
  obtain ⟨s0, s1, hs, h0, h1⟩ := matrixType_stride t swapped rows cols
  have hscale (stride idx : List Nat) (d : Nat) :
      elementAt (stride.map (· * d)) idx = elementAt stride idx * d := by
    induction stride generalizing idx with
    | nil => simp [elementAt]
    | cons s stride ih =>
        cases idx with
        | nil => simp [elementAt]
        | cons i idx => rw [List.map_cons, elementAt_cons, elementAt_cons, ih, Nat.add_mul, Nat.mul_assoc]
  have hmatrix : elementAt [s0, s1] [r, c] = denseEntry (isSwapped swapped rows cols) rows cols r c := by
    have hr0 (h : rows = 1) : r = 0 := by omega
    have hc0 (h : cols = 1) : c = 0 := by omega
    rw [h0, h1]
    unfold denseEntry entryAddress
    cases swapped <;> by_cases h1 : rows = 1 <;> by_cases h2 : cols = 1 <;>
      simp [elementAt, isSwapped, h1, h2, hr0, hc0, Nat.add_comm]
  have hlen : idx.length = ((calcStride batch).map (· * (rows * cols))).length := by
    rw [List.length_map, calcStride_length]
    exact hidx.length_eq
  show elementAt (_ ++ (matrixType t swapped rows cols).stride) _ = _
  rw [elementAt_append hlen, hscale, elementAt_calcStride hidx, hs, hmatrix]

end StackType

/-! ### Kernels -/

/-- The third input of a `Gemm`: it has none, its name is left empty, or it is a matrix of the shape of the
product, which perhaps lies where the product goes. -/
inductive Bias
  | absent
  | omitted
  | given (inPlace : Bool) (stride : Nat × Nat)

/-- What the node is: one product, or a stack of products. -/
inductive Form
  | gemm (bias : Bias)
  | batchedGemm (batch : List Nat)

/-- The outer axes. -/
def Form.batch : Form → List Nat
  | gemm _ => []
  | batchedGemm batch => batch

/-- A kernel of matrix products with `m` rows and `n` columns that add up `k` products.  The target is perhaps
a hybrid one, where the scheduler appends a workspace to the products of bf16. -/
structure Kernel (R : Type) where
  form : Form
  params : CpuGemm.Gemm R
  elemType : FloatType
  m : Nat
  n : Nat
  k : Nat
  mPos : 0 < m
  nPos : 0 < n
  kPos : 0 < k
  batchPos : ∀ d ∈ form.batch, 0 < d
  swappedA : Bool
  swappedB : Bool
  hybrid : Bool

namespace Kernel

variable {R : Type} (x : Kernel R)

def op : Op R :=
  match x.form with
  | .gemm _ => .gemm x.params
  | .batchedGemm _ => .batchedGemm x.params

def aType : ResolvedTensorType :=
  if x.params.transA then stackType x.elemType x.swappedA x.form.batch x.k x.m
  else stackType x.elemType x.swappedA x.form.batch x.m x.k

def bType : ResolvedTensorType :=
  if x.params.transB then stackType x.elemType x.swappedB x.form.batch x.n x.k
  else stackType x.elemType x.swappedB x.form.batch x.k x.n

def outType : ResolvedTensorType := .new (.float x.elemType) (x.form.batch ++ [x.m, x.n])

/-- The inputs of the node. -/
def nodeInputs : List (Option Operand) :=
  [some (.a, x.aType), some (.b, x.bType)] ++
    match x.form with
    | .gemm .absent => []
    | .gemm .omitted => [none]
    | .gemm (.given inPlace s) =>
        [some (if inPlace then .out else .c, ⟨.float x.elemType, [x.m, x.n], [s.1, s.2]⟩)]
    | .batchedGemm _ => []

/-- The scheduler appends a workspace. -/
def HasWorkspace : Prop := x.hybrid = true ∧ x.elemType = .BF16

instance : Decidable x.HasWorkspace := inferInstanceAs (Decidable (_ ∧ _))

def workspaceType : ResolvedTensorType :=
  .new (.float .F32) [ResolvedTensorDims.size x.aType.dims + ResolvedTensorDims.size x.bType.dims +
    ResolvedTensorDims.size x.outType.dims]

/-- The operands of the kernel. -/
def inputs : List (Option Operand) :=
  if x.HasWorkspace then setNodeInput x.nodeInputs x.op.workspaceIndex (.workspace, x.workspaceType)
  else x.nodeInputs

/-- The elements that an operand holds. -/
def size : Buffer → Nat
  | .out => x.form.batch.prod * (x.m * x.n)
  | .a => x.form.batch.prod * (x.m * x.k)
  | .b => x.form.batch.prod * (x.k * x.n)
  | .c =>
      match x.form with
      | .gemm (.given _ s) => lastElement [x.m, x.n] [s.1, s.2] + 1
      | _ => 0
  | .workspace => x.workspaceType.storageNumElements

section Run

variable [CommSemiring R] [DecidableEq R]

def build : Option (List (Stmt R)) := emit x.op x.inputs (.out, x.outType)

/-- The memory after the kernel. -/
def run (μ : Memory Buffer R) : Option (Memory Buffer R) := x.build.bind fun code => exec x.size code μ

/-- What is added to entry `i`, `j` of the product: `beta * C`. -/
def added (μ : Memory Buffer R) (i j : Nat) : R :=
  match x.form with
  | .gemm (.given inPlace s) => x.params.beta * μ (if inPlace then .out else .c) (i * s.1 + j * s.2)
  | _ => 0

/-- Entry `i`, `j` of `alpha * op(A) * op(B) + beta * C`, at an index of the outer axes. -/
def product (μ : Memory Buffer R) (idx : List Nat) (i j : Nat) : R :=
  x.params.alpha * ∑ l ∈ Finset.range x.k,
      μ .a (elementAt x.aType.stride (idx ++ if x.params.transA then [l, i] else [i, l])) *
        μ .b (elementAt x.bType.stride (idx ++ if x.params.transB then [j, l] else [l, j])) +
    x.added μ i j

/-- The kernel computes the products, and goes past the end of no operand. -/
def Computes : Prop :=
  ∀ μ, ∃ μ', x.run μ = some μ' ∧ ∀ idx, Inside idx x.form.batch → ∀ i < x.m, ∀ j < x.n,
    μ' .out (rowMajor (x.form.batch ++ [x.m, x.n]) (idx ++ [i, j])) = x.product μ idx i j

end Run

/-- The sizes fit into the `int` arguments of cuBLAS. -/
def Fits : Prop :=
  (x.m < 2 ^ 31 ∧ x.n < 2 ^ 31 ∧ x.k < 2 ^ 31) ∧
    match x.form with
    | .gemm _ => True
    | .batchedGemm batch => batch.prod < 2 ^ 31

/-- The bias is copied to the output, or lies there already. -/
def Copies (inPlace : Bool) : Prop := inPlace = true ∨ ¬ x.HasWorkspace

/-- The sizes fit, and nothing is added to the product but a bias that is stored by rows, and that is copied
to the output unless it lies there: it is not copied where there is a workspace. -/
def Sound [Zero R] : Prop :=
  x.Fits ∧
    match x.form with
    | .gemm .absent => x.params.beta = 0
    | .gemm .omitted => x.HasWorkspace ∧ x.params.beta = 0
    | .gemm (.given inPlace s) =>
        (inPlace = false → ¬ x.HasWorkspace → x.m * x.n ≤ lastElement [x.m, x.n] [s.1, s.2] + 1) ∧
          (x.params.beta = 0 ∨ x.Copies inPlace ∧ ∀ i < x.m, ∀ j < x.n, i * s.1 + j * s.2 = i * x.n + j)
    | .batchedGemm _ => ¬ x.HasWorkspace ∧ x.params.beta = 0

/-! ### The emitted code -/

/-- The flag of the first factor, for its layout. -/
def flagA : Bool :=
  x.params.transA ^^
    if x.params.transA then isSwapped x.swappedA x.k x.m else isSwapped x.swappedA x.m x.k

/-- The flag of the second factor. -/
def flagB : Bool :=
  x.params.transB ^^
    if x.params.transB then isSwapped x.swappedB x.n x.k else isSwapped x.swappedB x.k x.n

/-- The product by rows. -/
def rowCall : Call Buffer R :=
  .dense x.m x.n x.k x.params.alpha x.params.beta (.a, 0, x.flagA) (.b, 0, x.flagB) (.out, 0)

/-- The call of cuBLAS. -/
def call : Stmt R :=
  match x.form with
  | .gemm _ => .gemm x.rowCall.swap
  | .batchedGemm batch => .gemmStridedBatched x.rowCall.swap (x.n * x.k) (x.k * x.m) (x.n * x.m) batch.prod

/-- What is emitted before the call. -/
def copy : Option (List (Stmt R)) :=
  match x.form with
  | .gemm .absent => some []
  | .gemm .omitted => if x.HasWorkspace then some [] else none
  | .gemm (.given inPlace _) =>
      some (if inPlace = false ∧ ¬ x.HasWorkspace then [.memcpy .out .c (x.m * x.n)] else [])
  | .batchedGemm _ => if x.HasWorkspace then none else some []

theorem aType_eq : ∃ r c, suffixTwo x.aType.dims = some (r, c) ∧
    (if x.params.transA then (c, r) else (r, c)) = (x.m, x.k) ∧
      transposedLayout x.aType = some (x.params.transA ^^ x.flagA) := by
  unfold aType flagA
  cases x.params.transA with
  | false => exact ⟨x.m, x.k, suffixTwo_append _ _ _, rfl, by simpa using transposedLayout_stackType _ _ x.mPos⟩
  | true => exact ⟨x.k, x.m, suffixTwo_append _ _ _, rfl, by simpa using transposedLayout_stackType _ _ x.kPos⟩

theorem bType_eq : ∃ r c, suffixTwo x.bType.dims = some (r, c) ∧
    (if x.params.transB then (c, r) else (r, c)) = (x.k, x.n) ∧
      transposedLayout x.bType = some (x.params.transB ^^ x.flagB) ∧
        ResolvedTensorDims.size x.bType.dims = x.form.batch.prod * (x.k * x.n) := by
  have hprod (r c : Nat) : ResolvedTensorDims.size (x.form.batch ++ [r, c]) = x.form.batch.prod * (r * c) := by
    simp [ResolvedTensorDims.size]
  unfold bType flagB
  cases x.params.transB with
  | false =>
      exact ⟨x.k, x.n, suffixTwo_append _ _ _, rfl, by simpa using transposedLayout_stackType _ _ x.kPos, hprod _ _⟩
  | true =>
      exact ⟨x.n, x.k, suffixTwo_append _ _ _, rfl, by simpa using transposedLayout_stackType _ _ x.nPos,
        (hprod _ _).trans (by rw [Nat.mul_comm x.n])⟩

/-- The output holds as many elements as it has entries. -/
theorem storageNumElements_pair (t : DataType) {m n : Nat} (hm : 0 < m) (hn : 0 < n) :
    (ResolvedTensorType.new t [m, n]).storageNumElements = m * n := by
  have hm' : m ≠ 0 := by omega
  have hn' : n ≠ 0 := by omega
  have hlarge : max (max m 1 * n) (max n 1) = m * n := by
    rw [Nat.max_eq_left hm, Nat.max_eq_left hn, Nat.max_eq_left (Nat.le_mul_of_pos_left n hm)]
  by_cases h1 : m = 1 <;> by_cases h2 : n = 1 <;>
    simp [ResolvedTensorType.storageNumElements, ResolvedTensorType.isScalar, ResolvedTensorType.new,
      ResolvedTensorDims.size, calcStride, axisExtents, h1, h2, hm', hn', hlarge]
  · omega
  · omega

theorem setNodeInput_cons (a : Option Operand) (inputs : List (Option Operand)) (i : Nat) (v : Operand) :
    setNodeInput (a :: inputs) (i + 1) v = a :: setNodeInput inputs i v := by
  simp [setNodeInput]

/-- The workspace goes behind the factors. -/
theorem inputs_eq : ∃ rest, x.inputs = some (.a, x.aType) :: some (.b, x.bType) :: rest := by
  have hindex : ∃ i, x.op.workspaceIndex = i + 2 := by
    cases x.op with
    | gemm g => exact ⟨1, rfl⟩
    | batchedGemm g => exact ⟨0, rfl⟩
  obtain ⟨i, hi⟩ := hindex
  unfold inputs nodeInputs
  rw [hi]
  simp only [List.cons_append, List.nil_append, setNodeInput_cons]
  split <;> exact ⟨_, rfl⟩

theorem copyBias_eq : copyBias x.op x.inputs (.out, x.outType) = x.copy := by
  have houts (batch : List Nat) : x.form.batch = batch → x.outType.storageNumElements =
      (ResolvedTensorType.new (.float x.elemType) (batch ++ [x.m, x.n])).storageNumElements := by
    rintro rfl
    rfl
  have hout := storageNumElements_pair (.float x.elemType) x.mPos x.nPos
  unfold copyBias inputs nodeInputs op copy
  by_cases hws : x.HasWorkspace
  · rcases hform : x.form with (_ | _ | ⟨inPlace, s⟩) | batch <;>
      simp [hws, setNodeInput, Op.workspaceIndex]
  · rcases hform : x.form with (_ | _ | ⟨inPlace, s⟩) | batch <;> simp [hws]
    cases inPlace <;> simp [houts [] (by rw [hform]; rfl), hout]

theorem build_eq : x.build = x.copy.map (· ++ [x.call]) := by
  obtain ⟨r, c, hdimsA, hflipA, hlayoutA⟩ := x.aType_eq
  obtain ⟨r', c', hdimsB, hflipB, hlayoutB, hsizeB⟩ := x.bType_eq
  have hflags (a b : Bool) : (a ^^ (a ^^ b)) = b := by
    cases a <;> cases b <;> rfl
  obtain ⟨rest, hinputs⟩ := x.inputs_eq
  have hfirst : x.inputs[0]?.join = some (.a, x.aType) ∧ x.inputs[1]?.join = some (.b, x.bType) := by
    rw [hinputs]
    exact ⟨rfl, rfl⟩
  have hparams : x.op.params = x.params := by
    unfold op
    split <;> rfl
  unfold build emit
  rw [copyBias_eq]
  have hld (a b : Bool) (p q : Nat) : (if a = (a ^^ b) then p else q) = if !b then p else q := by
    cases a <;> cases b <;> rfl
  have hcount : divUsize (ResolvedTensorDims.size x.bType.dims) (x.n * x.k) = some x.form.batch.prod := by
    have hkn := Nat.mul_pos x.kPos x.nPos
    rw [hsizeB, Nat.mul_comm x.n, divUsize, if_neg (by omega), Nat.mul_div_cancel _ hkn]
  have helem : CpuGemm.floatType x.outType.elemType = some x.elemType := rfl
  simp [hfirst, hparams, hdimsA, hdimsB, hflipA, hflipB, hlayoutA, hlayoutB, hflags, hld, hcount, helem]
  rw [Option.map_eq_bind]
  have hswap : x.rowCall.swap = {
      order := .colMajor, m := x.n, n := x.m, k := x.k, alpha := x.params.alpha, beta := x.params.beta
      a := { buf := .b, start := 0, ld := if x.flagB = false then x.n else x.k, trans := x.flagB }
      b := { buf := .a, start := 0, ld := if x.flagA = false then x.k else x.m, trans := x.flagA }
      c := { buf := .out, start := 0, ld := x.n, trans := false } } := by
    simp [rowCall, Call.dense, Call.swap, Order.other]
  unfold op call
  rw [hswap]
  cases x.form <;> rfl

/-! ### The run -/

section Run

variable {idx : List Nat} {i j l : Nat}

/-- The strides of the first factor are those of the flag. -/
theorem elementAt_aType (hidx : Inside idx x.form.batch) (hi : i < x.m) (hl : l < x.k) :
    elementAt x.aType.stride (idx ++ if x.params.transA then [l, i] else [i, l]) =
      rowMajor x.form.batch idx * (x.m * x.k) + denseEntry x.flagA x.m x.k i l := by
  unfold aType flagA
  cases x.params.transA with
  | false => simpa using elementAt_stackType x.elemType x.swappedA hidx hi hl
  | true =>
      have hentry := elementAt_stackType x.elemType x.swappedA hidx hl hi
      simp only [if_true, Bool.true_xor]
      rw [hentry, Nat.mul_comm x.k]
      cases isSwapped x.swappedA x.k x.m <;> rfl

/-- The strides of the second factor are those of the flag. -/
theorem elementAt_bType (hidx : Inside idx x.form.batch) (hl : l < x.k) (hj : j < x.n) :
    elementAt x.bType.stride (idx ++ if x.params.transB then [j, l] else [l, j]) =
      rowMajor x.form.batch idx * (x.k * x.n) + denseEntry x.flagB x.k x.n l j := by
  unfold bType flagB
  cases x.params.transB with
  | false => simpa using elementAt_stackType x.elemType x.swappedB hidx hl hj
  | true =>
      have hentry := elementAt_stackType x.elemType x.swappedB hidx hj hl
      simp only [if_true, Bool.true_xor]
      rw [hentry, Nat.mul_comm x.n]
      cases isSwapped x.swappedB x.n x.k <;> rfl

theorem rowMajor_entry (hidx : Inside idx x.form.batch) :
    rowMajor (x.form.batch ++ [x.m, x.n]) (idx ++ [i, j]) =
      rowMajor x.form.batch idx * (x.m * x.n) + (i * x.n + j) := by
  rw [rowMajor_append hidx]
  simp [rowMajor]

/-- The entries of one product. -/
theorem forall_single_iff {p : List Nat → Nat → Nat → Prop} (hbatch : x.form.batch = []) :
    (∀ idx, Inside idx x.form.batch → ∀ i < x.m, ∀ j < x.n, p idx i j) ↔ ∀ i < x.m, ∀ j < x.n, p [] i j := by
  rw [hbatch]
  constructor
  · exact fun h => h [] .nil
  · intro h idx hidx
    cases hidx
    exact h

instance : Decidable x.Fits := by
  unfold Fits
  cases x.form <;> infer_instance

variable [CommRing R] [DecidableEq R] {μ : Memory Buffer R}

/-- The calls for all products, by rows. -/
def rowCalls : List (Call Buffer R) :=
  x.rowCall.batch (x.m * x.k) (x.k * x.n) (x.m * x.n) x.form.batch.prod

/-- cuBLAS leaves what a library for matrices by rows would leave. -/
theorem run_call : x.call.run x.size μ = if x.Fits then runAll x.size x.rowCalls μ else none := by
  have hint : FitsInt x.rowCall.swap ↔ x.m < 2 ^ 31 ∧ x.n < 2 ^ 31 ∧ x.k < 2 ^ 31 := by
    unfold FitsInt
    simp only [rowCall, Call.dense, Call.swap]
    constructor
    · rintro ⟨⟨hn, hm, hk⟩, -⟩
      exact ⟨hm, hn, hk⟩
    · rintro ⟨hm, hn, hk⟩
      refine ⟨⟨hn, hm, hk⟩, ?_, ?_, hn⟩ <;> split <;> assumption
  cases hform : x.form with
  | gemm bias =>
      have hfirst : x.rowCall.step (x.m * x.k) (x.k * x.n) (x.m * x.n) 0 = x.rowCall := by
        simp [Call.step, Matrix.shift]
      have hone : runAll x.size x.rowCalls μ = x.rowCall.run x.size μ := by
        unfold rowCalls
        rw [hform]
        show (Call.run x.size (x.rowCall.step _ _ _ 0) μ).bind some = _
        rw [hfirst, Option.bind_fun_some]
      simp [call, Fits, hform, Stmt.run, hint, Call.swap_run, hone]
  | batchedGemm batch =>
      have hall : runAll x.size (x.rowCall.swap.batch (x.n * x.k) (x.k * x.m) (x.n * x.m) batch.prod) μ =
          runAll x.size x.rowCalls μ := by
        unfold rowCalls
        rw [hform, Nat.mul_comm x.n x.k, Nat.mul_comm x.k x.m, Nat.mul_comm x.n x.m, runAll_swap]
        rfl
      simp [call, Fits, hform, Stmt.run, hint, hall]

/-- The call leaves the products, and what is added to them. -/
theorem run_call_of_fits (hfits : x.Fits) : ∃ μ', x.call.run x.size μ = some μ' ∧
    ∀ idx, Inside idx x.form.batch → ∀ i < x.m, ∀ j < x.n,
      μ' .out (rowMajor (x.form.batch ++ [x.m, x.n]) (idx ++ [i, j])) =
        x.params.alpha * ∑ l ∈ Finset.range x.k,
            μ .a (elementAt x.aType.stride (idx ++ if x.params.transA then [l, i] else [i, l])) *
              μ .b (elementAt x.bType.stride (idx ++ if x.params.transB then [j, l] else [l, j])) +
          x.params.beta * μ .out (rowMajor (x.form.batch ++ [x.m, x.n]) (idx ++ [i, j])) := by
  have hzero (p : Nat) : 0 + p ≤ p := (Nat.zero_add p).le
  obtain ⟨μ', hrun, hentry⟩ := runAll_dense x.params.alpha x.params.beta (Buffer.a, 0, x.flagA)
    (Buffer.b, 0, x.flagB) (Buffer.out, 0) x.size x.mPos x.nPos x.kPos nofun nofun (hzero _) (hzero _)
    (hzero _) μ
  refine ⟨μ', by rw [run_call, if_pos hfits]; exact hrun, fun idx hidx i hi j hj => ?_⟩
  have hat := hentry (rowMajor x.form.batch idx) (rowMajor_lt hidx) i hi j hj
  simp only [Nat.zero_add] at hat
  rw [x.rowMajor_entry hidx, hat]
  refine congrArg (x.params.alpha * · + _) (Finset.sum_congr rfl fun l hl => ?_)
  have hl' := Finset.mem_range.mp hl
  rw [x.elementAt_aType hidx hi hl', x.elementAt_bType hidx hl' hj]

theorem run_eq : x.run μ = x.copy.bind fun code => exec x.size (code ++ [x.call]) μ := by
  unfold run
  rw [build_eq]
  cases x.copy <;> rfl

/-- What has to be in the output before the call: the matrix that is added. -/
theorem computes_iff_before (before : Memory Buffer R → Memory Buffer R) (p : Prop) [Decidable p]
    (hrun : ∀ μ, x.run μ = if p then x.call.run x.size (before μ) else none)
    (hA : ∀ μ, before μ .a = μ .a) (hB : ∀ μ, before μ .b = μ .b) :
    x.Computes ↔ p ∧ x.Fits ∧ ∀ μ idx, Inside idx x.form.batch → ∀ i < x.m, ∀ j < x.n,
      x.params.beta * before μ .out (rowMajor (x.form.batch ++ [x.m, x.n]) (idx ++ [i, j])) = x.added μ i j := by
  constructor
  · intro h
    have hentries (μ : Memory Buffer R) : (p ∧ x.Fits) ∧ ∀ idx, Inside idx x.form.batch → ∀ i < x.m, ∀ j < x.n,
        x.params.beta * before μ .out (rowMajor (x.form.batch ++ [x.m, x.n]) (idx ++ [i, j])) =
          x.added μ i j := by
      obtain ⟨μ', hsome, hentry⟩ := h μ
      rw [hrun, Option.ite_none_right_eq_some] at hsome
      obtain ⟨hp, hcall⟩ := hsome
      have hfits : x.Fits := by
        by_contra hnot
        rw [run_call, if_neg hnot] at hcall
        cases hcall
      obtain ⟨μ'', hcall', hfound⟩ := x.run_call_of_fits (μ := before μ) hfits
      obtain rfl := Option.some.inj (hcall.symm.trans hcall')
      refine ⟨⟨hp, hfits⟩, fun idx hidx i hi j hj => ?_⟩
      have hsame := (hfound idx hidx i hi j hj).symm.trans (hentry idx hidx i hi j hj)
      rw [hA, hB] at hsame
      exact add_left_cancel hsame
    obtain ⟨⟨hp, hfits⟩, -⟩ := hentries fun _ _ => 0
    exact ⟨hp, hfits, fun μ => (hentries μ).2⟩
  · rintro ⟨hp, hfits, hadded⟩ μ
    obtain ⟨μ', hcall, hentry⟩ := x.run_call_of_fits (μ := before μ) hfits
    refine ⟨μ', by rw [hrun, if_pos hp, hcall], fun idx hidx i hi j hj => ?_⟩
    rw [hentry idx hidx i hi j hj, hA, hB, hadded μ idx hidx i hi j hj]
    rfl

/-- Without a copy the output is what it was. -/
theorem computes_iff_of_copy_nil (hcopy : x.copy = some []) :
    x.Computes ↔ x.Fits ∧ ∀ μ idx, Inside idx x.form.batch → ∀ i < x.m, ∀ j < x.n,
      x.params.beta * μ .out (rowMajor (x.form.batch ++ [x.m, x.n]) (idx ++ [i, j])) = x.added μ i j := by
  refine (x.computes_iff_before id True (fun μ => ?_) (fun _ => rfl) fun _ => rfl).trans (and_iff_right trivial)
  rw [run_eq, hcopy, if_pos trivial]
  exact Option.bind_fun_some _

theorem not_computes_of_copy_none (hcopy : x.copy = none) : ¬ x.Computes := by
  intro h
  obtain ⟨μ', hrun, -⟩ := h fun _ _ => 0
  rw [run_eq, hcopy] at hrun
  cases hrun

omit [DecidableEq R] in
/-- Nothing is to be added to the product. -/
theorem beta_eq_zero_iff (hadded : ∀ μ i j, x.added μ i j = 0) :
    (∀ (μ : Memory Buffer R) idx, Inside idx x.form.batch → ∀ i < x.m, ∀ j < x.n,
      x.params.beta * μ .out (rowMajor (x.form.batch ++ [x.m, x.n]) (idx ++ [i, j])) = x.added μ i j) ↔
        x.params.beta = 0 := by
  constructor
  · intro h
    have hfirst := h (fun _ _ => 1) _ (multiIndex_lt x.batchPos 0) 0 x.mPos 0 x.nPos
    rwa [hadded, mul_one] at hfirst
  · intro hbeta μ idx _ i _ j _
    rw [hadded, hbeta, zero_mul]

end Run

section Added

variable [CommRing R]

/-- The matrix that is added has to lie in the output by rows. -/
theorem rows_iff {y : Buffer} {beta : R} {m n : Nat} {s : Nat × Nat} :
    (∀ μ : Memory Buffer R, ∀ i < m, ∀ j < n, beta * μ y (i * n + j) = beta * μ y (i * s.1 + j * s.2)) ↔
      beta = 0 ∨ ∀ i < m, ∀ j < n, i * s.1 + j * s.2 = i * n + j := by
  constructor
  · intro h
    by_cases hrows : ∀ i < m, ∀ j < n, i * s.1 + j * s.2 = i * n + j
    · exact .inr hrows
    · push Not at hrows
      obtain ⟨i, hi, j, hj, hne⟩ := hrows
      have hone := h (fun _ p => if p = i * n + j then 1 else 0) i hi j hj
      rw [if_pos rfl, if_neg hne, mul_one, mul_zero] at hone
      exact .inl hone
  · rintro (rfl | hrows) μ i hi j hj
    · rw [zero_mul, zero_mul]
    · rw [hrows i hi j hj]

/-- Another matrix is added than the one that lies in the output. -/
theorem other_iff {beta : R} {m n : Nat} {s : Nat × Nat} (hm : 0 < m) (hn : 0 < n) :
    (∀ μ : Memory Buffer R, ∀ i < m, ∀ j < n, beta * μ .out (i * n + j) = beta * μ .c (i * s.1 + j * s.2)) ↔
      beta = 0 := by
  constructor
  · intro h
    have hfirst := h (fun y _ => if y = .out then 1 else 0) 0 hm 0 hn
    rwa [if_pos rfl, if_neg (by decide), mul_one, mul_zero] at hfirst
  · rintro rfl μ i _ j _
    rw [zero_mul, zero_mul]

end Added

section Sound

variable [CommRing R] [DecidableEq R]

/-- A matrix that lies in the output already. -/
theorem computes_iff_inPlace {s : Nat × Nat} (hform : x.form = .gemm (.given true s)) :
    x.Computes ↔ x.Fits ∧ (x.params.beta = 0 ∨ ∀ i < x.m, ∀ j < x.n, i * s.1 + j * s.2 = i * x.n + j) := by
  have hcopy : x.copy = some [] := by simp [copy, hform]
  have hbatch : x.form.batch = [] := by rw [hform]; rfl
  rw [x.computes_iff_of_copy_nil hcopy, ← rows_iff (y := .out)]
  refine and_congr_right fun _ => forall_congr' fun μ => (x.forall_single_iff hbatch).trans ?_
  simp [Form.batch, added, hform, rowMajor]

/-- A matrix that is not copied, for the workspace is a fourth operand. -/
theorem computes_iff_workspace {s : Nat × Nat} (hform : x.form = .gemm (.given false s)) (hws : x.HasWorkspace) :
    x.Computes ↔ x.Fits ∧ x.params.beta = 0 := by
  have hcopy : x.copy = some [] := by simp [copy, hform, hws]
  have hbatch : x.form.batch = [] := by rw [hform]; rfl
  rw [x.computes_iff_of_copy_nil hcopy, ← other_iff (s := s) x.mPos x.nPos]
  refine and_congr_right fun _ => forall_congr' fun μ => (x.forall_single_iff hbatch).trans ?_
  simp [Form.batch, added, hform, rowMajor]

/-- A matrix whose first elements are copied. -/
theorem computes_iff_copied {s : Nat × Nat} (hform : x.form = .gemm (.given false s)) (hws : ¬ x.HasWorkspace) :
    x.Computes ↔ x.m * x.n ≤ lastElement [x.m, x.n] [s.1, s.2] + 1 ∧ x.Fits ∧
      (x.params.beta = 0 ∨ ∀ i < x.m, ∀ j < x.n, i * s.1 + j * s.2 = i * x.n + j) := by
  have hcopy : x.copy = some [.memcpy .out .c (x.m * x.n)] := by simp [copy, hform, hws]
  have hbatch : x.form.batch = [] := by rw [hform]; rfl
  have hout : x.size .out = x.m * x.n := by simp [size, hbatch]
  have hc : x.size .c = lastElement [x.m, x.n] [s.1, s.2] + 1 := by simp [size, hform]
  have hrun (μ : Memory Buffer R) : x.run μ = if x.m * x.n ≤ lastElement [x.m, x.n] [s.1, s.2] + 1 then
      x.call.run x.size (copied .out .c (x.m * x.n) μ) else none := by
    rw [run_eq, hcopy]
    show ((Stmt.memcpy _ _ _).run x.size μ).bind (exec x.size [x.call]) = _
    simp only [Stmt.run, hout, hc, Nat.le_refl, true_and]
    split
    · exact Option.bind_fun_some _
    · rfl
  rw [x.computes_iff_before (copied .out .c (x.m * x.n)) _ hrun (fun μ => copied_of_ne (by decide))
    fun μ => copied_of_ne (by decide), ← rows_iff (y := .c)]
  refine and_congr_right fun _ => and_congr_right fun _ => forall_congr' fun μ =>
    (x.forall_single_iff hbatch).trans ?_
  have hcopied {i j : Nat} (hi : i < x.m) (hj : j < x.n) :
      copied .out .c (x.m * x.n) μ .out (i * x.n + j) = μ .c (i * x.n + j) := if_pos ⟨rfl, mul_add_lt hi hj⟩
  simp [Form.batch, added, hform, rowMajor]
  refine forall₂_congr fun i hi => forall₂_congr fun j hj => ?_
  rw [hcopied hi hj]

/-- The kernels that compute their products. -/
theorem cudaKernel_computes_iff : x.Computes ↔ x.Sound := by
  cases hform : x.form with
  | batchedGemm batch =>
      have hadded (μ : Memory Buffer R) (i j : Nat) : x.added μ i j = 0 := by simp [added, hform]
      have hsound : x.Sound ↔ x.Fits ∧ ¬ x.HasWorkspace ∧ x.params.beta = 0 := by simp [Sound, hform]
      rw [hsound]
      by_cases hws : x.HasWorkspace
      · have hcopy : x.copy = none := by simp [copy, hform, hws]
        exact iff_of_false (x.not_computes_of_copy_none hcopy) fun h => h.2.1 hws
      · have hcopy : x.copy = some [] := by simp [copy, hform, hws]
        rw [x.computes_iff_of_copy_nil hcopy, x.beta_eq_zero_iff hadded, and_iff_right hws]
  | gemm bias =>
      cases bias with
      | absent =>
          have hadded (μ : Memory Buffer R) (i j : Nat) : x.added μ i j = 0 := by simp [added, hform]
          have hcopy : x.copy = some [] := by simp [copy, hform]
          rw [x.computes_iff_of_copy_nil hcopy, x.beta_eq_zero_iff hadded]
          simp [Sound, hform]
      | omitted =>
          have hadded (μ : Memory Buffer R) (i j : Nat) : x.added μ i j = 0 := by simp [added, hform]
          have hsound : x.Sound ↔ x.Fits ∧ x.HasWorkspace ∧ x.params.beta = 0 := by simp [Sound, hform]
          rw [hsound]
          by_cases hws : x.HasWorkspace
          · have hcopy : x.copy = some [] := by simp [copy, hform, hws]
            rw [x.computes_iff_of_copy_nil hcopy, x.beta_eq_zero_iff hadded, and_iff_right hws]
          · have hcopy : x.copy = none := by simp [copy, hform, hws]
            exact iff_of_false (x.not_computes_of_copy_none hcopy) fun h => hws h.2.1
      | given inPlace s =>
          have hsound : x.Sound ↔ x.Fits ∧
              (inPlace = false → ¬ x.HasWorkspace → x.m * x.n ≤ lastElement [x.m, x.n] [s.1, s.2] + 1) ∧
                (x.params.beta = 0 ∨
                  x.Copies inPlace ∧ ∀ i < x.m, ∀ j < x.n, i * s.1 + j * s.2 = i * x.n + j) := by
            simp [Sound, hform]
          rw [hsound]
          cases inPlace with
          | true =>
              rw [x.computes_iff_inPlace hform]
              simp [Copies]
          | false =>
              by_cases hws : x.HasWorkspace
              · rw [x.computes_iff_workspace hform hws]
                simp [Copies, hws]
              · rw [x.computes_iff_copied hform hws]
                simp only [Copies, hws, not_false_eq_true, or_true, true_and, forall_const]
                exact and_left_comm

end Sound

end Kernel

/-- A product of bf16 with a matrix that is added, for a hybrid target. -/
def biasWithWorkspace : Kernel ℚ :=
  { form := .gemm (.given false (0, 0)), params := { alpha := 1, beta := 1, transA := false, transB := false }
    elemType := .BF16, m := 1, n := 1, k := 1, mPos := Nat.one_pos, nPos := Nat.one_pos
    kPos := Nat.one_pos, batchPos := nofun, swappedA := false, swappedB := false, hybrid := true }

/-- A memory where only the matrix that is added is not zero. -/
def onlyBias : Memory Buffer ℚ := fun y _ => if y = .c then 1 else 0

/-- With four operands the matrix is not copied. -/
theorem biasWithWorkspace_not_computes : ¬ biasWithWorkspace.Computes := by
  intro h
  obtain ⟨μ', hrun, hentry⟩ := h onlyBias
  have hfound : (biasWithWorkspace.run onlyBias).map (· .out 0) = some 0 := by decide +kernel
  have hproduct : biasWithWorkspace.product onlyBias [] 0 0 = 1 := by decide +kernel
  rw [hrun] at hfound
  have hfirst := hentry [] .nil 0 (by decide) 0 (by decide)
  exact zero_ne_one ((Option.some.inj hfound).symm.trans (hfirst.trans hproduct))

end CudaGemm
end NnEngine
