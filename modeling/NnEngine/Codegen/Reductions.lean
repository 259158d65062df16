import NnEngine.Codegen.Coverage
import NnEngine.ExactNumber
import NnEngine.Graph.Operator
import NnEngine.IntegerRounding
import NnEngine.KernelWrites
import NnEngine.WarpReduction

/-!
# Reductions of rows

`reduce_matrix_kernel`, `softmax` and `layer_norm` reduce a row with the threads of a block; `build_matrix_reduce`
does it with one loop.  Kernels are told by what they write, addresses and values, in exact arithmetic.  What a
shuffle gives from a lane that was not launched is a parameter: a number for each block, reduction, stride and
lane.  A launch whose indices leave the range of `int` has no result.
-/

namespace NnEngine
namespace Reductions

open WarpReduction KernelWrites

variable {α : Type} [Field α] [LinearOrder α]

/-! ### What is computed -/

/-- A reduction of the first `n` numbers; the variance is relative to a given mean. -/
def reduction (op : ReduceOp) (n : ℕ) (mean : Number α) (x : ℕ → Number α) : Number α :=
  match op with
  | .max => (Finset.range n).fold Number.max .negInf x
  | .sum => ∑ i ∈ Finset.range n, x i
  | .mean => (∑ i ∈ Finset.range n, x i) / .num n
  | .variance => (∑ i ∈ Finset.range n, (x i - mean) * (x i - mean)) / .num n

/-- Softmax of the first `n` numbers, relative to the largest of them. -/
def softmaxOf (exp : α → α) (n : ℕ) (x : ℕ → Number α) (i : ℕ) : Number α :=
  let e j := (x j - reduction .max n 0 x).exp exp
  e i / reduction .sum n 0 e

def layerNormOf (sqrt : α → α) (epsilon : α) (scale bias : ℕ → Number α) (n : ℕ) (x : ℕ → Number α) (i : ℕ) :
    Number α :=
  let mean := reduction .mean n 0 x
  (x i - mean) / (reduction .variance n mean x + .num epsilon).sqrt sqrt * scale i + bias i

/-- The address of the `j`th element of the row in which an address is; the elements are `stride` apart. -/
def inRow (dim stride q j : ℕ) : ℕ := (q / stride / dim * dim + j) * stride + q % stride

/-! ### CUDA -/

/-- `ceil_pow2`. -/
def ceilPow2 (x : ℕ) : ℕ :=
  if x = 0 then 1
  else
    let x := x - 1
    let x := x ||| x >>> 1
    let x := x ||| x >>> 2
    let x := x ||| x >>> 4
    let x := x ||| x >>> 8
    let x := x ||| x >>> 16
    x + 1

/-- `min(DEFAULT_BLOCK_SIZE, ceil_pow2(len))`. -/
def blockSizeOf (len : ℕ) : ℕ := min Coverage.defaultBlockSize (ceilPow2 len)

/-- `tile32.size()`. -/
def tileSize : ℕ := 2 ^ 5

/-- `Op::init()`. -/
def init : ReduceOp → Number α
  | .max => .negInf
  | _ => 0

/-- `Op::op` and `Op::combine`. -/
def combine : ReduceOp → Number α → Number α → Number α
  | .max => Number.max
  | _ => (· + ·)

/-- `Op::finalize`. -/
def finalize (op : ReduceOp) (x : Number α) (col : ℕ) : Number α :=
  match op with
  | .mean => x / .num col
  | _ => x

/-- One block of `reduce_matrix_kernel`. -/
def reduceMatrixBlock (op : ReduceOp) (blockSize col : ℕ) (unspecified : ℕ → ℕ → Number α) (src : ℕ → Number α)
    (rowId : ℕ) : Number α :=
  let ceilCol := (col + blockSize - 1) / blockSize * blockSize
  let acc tid := threadFold (combine op) (init op) (fun i => src (rowId * col + i)) col
    (strided ceilCol blockSize ceilCol tid)
  finalize op (blockReduce (combine op) tileSize blockSize unspecified acc) col

/-- The launch of a `ReduceMatrix`, which has no kernel for the variance. -/
def reduceMatrix (op : ReduceOp) (row col : ℕ) (unspecified : ℕ → ℕ → ℕ → ℕ → Number α) (src : ℕ → Number α) :
    Option (Writes (Number α)) :=
  let blockSize := blockSizeOf col
  -- the largest index is `row * col - 1`
  if op = .variance ∨ 2 ^ 31 ≤ row ∨ 2 ^ 31 ≤ col + blockSize - 1 ∨ 2 ^ 31 < row * col then none
  else some ((List.range row).map fun rowId =>
    (rowId, reduceMatrixBlock op blockSize col (unspecified rowId 0) src rowId))

/-- One block of `softmax`, on the row whose elements are `stride` apart. -/
def softmaxBlock (exp : α → α) (blockSize dim stride : ℕ) (unspecified : ℕ → ℕ → ℕ → Number α) (src : ℕ → Number α)
    (block : ℕ) : Writes (Number α) :=
  let base := block / stride * dim * stride + block % stride
  let inputs p := src (base + p * stride)
  let maxAcc tid := threadFold Number.max .negInf inputs dim (axisPositions dim blockSize tid)
  let axisMax := blockReduce Number.max tileSize blockSize (unspecified 0) maxAcc
  let exps p := (inputs p - axisMax).exp exp
  let sumAcc tid := threadFold (· + ·) 0 exps dim (axisPositions dim blockSize tid)
  let axisSum := blockReduce (· + ·) tileSize blockSize (unspecified 1) sumAcc
  (List.range blockSize).flatMap fun tid =>
    ((axisPositions dim blockSize tid).filter (· < dim)).map fun p => (base + p * stride, exps p / axisSum)

/-- The launch of a `Softmax` over an axis of a tensor of so many elements. -/
def softmax (exp : α → α) (size dim stride : ℕ) (unspecified : ℕ → ℕ → ℕ → ℕ → Number α) (src : ℕ → Number α) :
    Option (Writes (Number α)) :=
  let blockSize := blockSizeOf dim
  -- the addresses are of type `int`, the largest one is `size - 1`
  if 2 ^ 31 ≤ size / dim ∨ 2 ^ 31 ≤ dim + blockSize - 1 ∨ 2 ^ 31 < size then none
  else some ((List.range (size / dim)).flatMap fun block =>
    softmaxBlock exp blockSize dim stride (unspecified block) src block)

/-- One block of `layer_norm`, whose addresses are unsigned and wrap around. -/
def layerNormBlock (sqrt : α → α) (epsilon : α) (blockSize dim size : ℕ) (unspecified : ℕ → ℕ → ℕ → Number α)
    (src scale bias : ℕ → Number α) (block : ℕ) : Writes (Number α) :=
  if size % 2 ^ 32 ≤ block * dim % 2 ^ 32 then []
  else
    let address p := (block * dim + p) % 2 ^ 32
    -- the registers of positions beyond the row stay zero
    let inputs p := if p < dim then src (address p) else 0
    let sumAcc tid := (axisPositions dim blockSize tid).foldl (fun acc p => acc + inputs p) 0
    let mean := blockReduce (· + ·) tileSize blockSize (unspecified 0) sumAcc / .num dim
    let centred p := src (address p) - mean
    let vars p := if p < dim then centred p * centred p else 0
    let varAcc tid := (axisPositions dim blockSize tid).foldl (fun acc p => acc + vars p) 0
    let variance := blockReduce (· + ·) tileSize blockSize (unspecified 1) varAcc / .num dim
    let stdDev := (variance + .num epsilon).sqrt sqrt
    (List.range blockSize).flatMap fun tid =>
      ((axisPositions dim blockSize tid).filter (· < dim)).map fun p =>
        (address p, centred p / stdDev * scale p + bias p)

/-- The launch of a `LayerNormalization` over the last axis. -/
def layerNorm (sqrt : α → α) (epsilon : α) (size dim : ℕ) (unspecified : ℕ → ℕ → ℕ → ℕ → Number α)
    (src scale bias : ℕ → Number α) : Option (Writes (Number α)) :=
  let blockSize := blockSizeOf dim
  if 2 ^ 31 ≤ size / dim ∨ 2 ^ 31 ≤ dim + blockSize - 1 then none
  else some ((List.range (size / dim)).flatMap fun block =>
    layerNormBlock sqrt epsilon blockSize dim size (unspecified block) src scale bias block)

/-! ### The CPU -/

attribute [local instance] atLeastTwo_two in
/-- The constant from which `Max` starts: `f32::MIN` or `f64::MIN`; the former rounds to `-∞` as a `BF16`. -/
def lowest : FloatType → Number α
  | .BF16 => .negInf
  | .F32 => .num (-((2 ^ 24 - 1) * 2 ^ 104))
  | .F64 => .num (-((2 ^ 53 - 1) * 2 ^ 971))

/-- The turns of a loop that tests its bound at the end. -/
def turns (bound : ℕ) : List ℕ := List.range (max bound 1)

/-- The loop over one row, and what follows it. -/
def reduceLoop (elemTy : FloatType) (op : ReduceOp) (col : ℕ) (mean : Number α) (val : ℕ → Number α) : Number α :=
  let idV := match op with
    | .max => lowest elemTy
    | .sum | .mean | .variance => 0
  let turn acc ind1 := match op with
    | .max => Number.max acc (val ind1)
    | .sum | .mean => acc + val ind1
    -- the accumulator is not used
    | .variance => (val ind1 - mean) * (val ind1 - mean)
  let res := (turns col).foldl turn idV
  match op with
  | .mean | .variance => res / .num col
  | .max | .sum => res

/-- `build_matrix_reduce`, from an operand with two strides and, for the variance, one with the means. -/
def buildMatrixReduce (elemTy : FloatType) (op : ReduceOp) (row col stride0 stride1 : ℕ) (src means : ℕ → Number α) :
    Writes (Number α) :=
  (turns row).map fun ind0 =>
    (ind0, reduceLoop elemTy op col (means ind0) fun ind1 => src (ind0 * stride0 + ind1 * stride1))

end Reductions
end NnEngine
