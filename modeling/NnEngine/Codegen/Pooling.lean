import NnEngine.Graph.ConvShape
import NnEngine.RowMajor
import NnEngine.SlidingWindow
import NnEngine.Tensor.Contiguity

/-!
# Pooling kernels

The kernels of `MaxPool` and `AveragePool` that `src/codegen/cuda/kernel.rs` writes for the GPU, and the loops
that `src/codegen/cpu/translator.rs` emits.  Elements are rational numbers, and a maximum may also be −∞.
A failed assertion, `unimplemented!` and an index out of range are panics (`none`), and so is a loop whose
counter never meets its bound.
-/

namespace NnEngine
namespace PoolKernel

open SlidingWindow (Axis sweep)

/-- What a kernel adds up or takes the maximum of. -/
abbrev Value := WithBot ℚ

/-- `PoolMode`. -/
inductive Mode
  | max
  | avg
  deriving DecidableEq, Repr

/-- An element is taken in: the accumulator, and the number of elements. -/
def Mode.step : Mode → Value × Nat → ℚ → Value × Nat
  | max, acc, x => (acc.1 ⊔ x, acc.2 + 1)
  | avg, acc, x => (acc.1 + x, acc.2 + 1)

/-- What is stored. -/
def Mode.finish : Mode → Value × Nat → Value
  | max, acc => acc.1
  | avg, acc => acc.1.map (· / (acc.2 : ℚ))

/-- The extents or the coordinates in the order of the layout. -/
def arrange {α : Type} (layout : Layout) (n c h w : α) : List α :=
  match layout with
  | .NCHW => [n, c, h, w]
  | .NHWC => [n, h, w, c]

/-! ### The GPU -/

/-- `std::numeric_limits<T>::min()`: the least positive normal number, and 0 for a type that the library does
not know. -/
def numericLimitsMin : FloatType → ℚ
  | .F32 => 1 / 2 ^ 126
  | .F64 => 1 / 2 ^ 1022
  | .BF16 => 0

/-- The constants in the text of a kernel. -/
structure CudaPool where
  mode : Mode
  elemType : FloatType
  layout : Layout
  nbatch : Nat
  channels : Nat
  height : Nat
  width : Nat
  oHeight : Nat
  oWidth : Nat
  kernelH : Nat
  kernelW : Nat
  strideH : Nat
  strideW : Nat
  padH : Nat
  padW : Nat

/-- `PoolBuilder::build`, for elements of a float type. -/
def CudaPool.build (mode : Mode) (pool : Pooling) (elemType : FloatType) (input output : ResolvedTensorType) :
    Option CudaPool :=
  if pool.kernelShape.length = 2 ∧ input.isContiguous ∧ output.isContiguous then do
    let (nbatch, channels, height, width, oHeight, oWidth) ← match pool.layout, input.dims, output.dims with
      | .NCHW, [nbatch, channels, height, width], [nbatch', channels', oHeight, oWidth] =>
          if nbatch = nbatch' ∧ channels = channels' then
            some (nbatch, channels, height, width, oHeight, oWidth)
          else none
      | .NHWC, [nbatch, height, width, channels], [_, oHeight, oWidth, channels'] =>
          if channels = channels' then some (nbatch, channels, height, width, oHeight, oWidth) else none
      | _, _, _ => none
    let kernelH ← pool.kernelShape[0]?
    let kernelW ← pool.kernelShape[1]?
    let strideH ← pool.strides.at? 0
    let strideW ← pool.strides.at? 1
    match pool.pad with
    | .notSet pad => do
        let padH ← pad.at? 0
        let padW ← pad.at? 1
        some {
          mode, elemType, layout := pool.layout, nbatch, channels, height, width, oHeight, oWidth
          kernelH, kernelW, strideH, strideW, padH := padH.1, padW := padW.1 }
    | _ => none
  else none

namespace CudaPool

variable (k : CudaPool)

def size : Nat :=
  match k.layout with
  | .NCHW => k.nbatch * k.channels * k.oHeight * k.oWidth
  | .NHWC => k.nbatch * k.oHeight * k.oWidth * k.channels

def oWIdx (gid : Nat) : Nat :=
  match k.layout with
  | .NCHW => gid % k.oWidth
  | .NHWC => gid / k.channels % k.oWidth

def oHIdx (gid : Nat) : Nat :=
  match k.layout with
  | .NCHW => gid / k.oWidth % k.oHeight
  | .NHWC => gid / (k.channels * k.oWidth) % k.oHeight

def oCIdx (gid : Nat) : Nat :=
  match k.layout with
  | .NCHW => gid / (k.oWidth * k.oHeight) % k.channels
  | .NHWC => gid % k.channels

def oBIdx (gid : Nat) : Nat :=
  match k.layout with
  | .NCHW => gid / (k.oWidth * k.oHeight * k.channels)
  | .NHWC => gid / (k.channels * k.oWidth * k.oHeight)

def iHBegin (gid : Nat) : Int := k.oHIdx gid * k.strideH - k.padH

def iWBegin (gid : Nat) : Int := k.oWIdx gid * k.strideW - k.padW

/-- `in_idx`. -/
def inIdx (gid : Nat) (h w : Int) : Int :=
  match k.layout with
  | .NCHW => ((k.oBIdx gid * k.channels + k.oCIdx gid) * k.height + h) * k.width + w
  | .NHWC =>
      k.oBIdx gid * (k.height * k.width * k.channels) + h * (k.width * k.channels) + w * k.channels + k.oCIdx gid

/-- The test in the loops. -/
def InBounds (h w : Int) : Prop := 0 ≤ h ∧ h < k.height ∧ 0 ≤ w ∧ w < k.width

instance (h w : Int) : Decidable (k.InBounds h w) := inferInstanceAs (Decidable (_ ∧ _ ∧ _ ∧ _))

/-- What a thread computes in its `int`s before and after its loops. -/
def ints (gid : Nat) : List Int :=
  [(gid : Int), k.oWidth * k.oHeight * k.channels, k.oHIdx gid * k.strideH, k.iHBegin gid,
    k.iHBegin gid + k.kernelH, k.oWIdx gid * k.strideW, k.iWBegin gid, k.iWBegin gid + k.kernelW,
    k.height * k.width * k.channels]

/-- An `int` holds the number. -/
def IsInt (x : Int) : Prop := -2 ^ 31 ≤ x ∧ x < 2 ^ 31

instance (x : Int) : Decidable (IsInt x) := inferInstanceAs (Decidable (_ ∧ _))

/-- No computation of a thread overflows. -/
def FitsAt (gid : Nat) : Prop :=
  (∀ x ∈ k.ints gid, IsInt x) ∧ ∀ i < k.kernelH, ∀ j < k.kernelW,
    k.InBounds (k.iHBegin gid + i) (k.iWBegin gid + j) →
      IsInt (k.inIdx gid (k.iHBegin gid + i) (k.iWBegin gid + j))

instance (gid : Nat) : Decidable (k.FitsAt gid) := inferInstanceAs (Decidable (_ ∧ _))

/-- The initial value of the accumulator. -/
def start : Value :=
  match k.mode with
  | .max => numericLimitsMin k.elemType
  | .avg => 0

/-- What thread `gid` stores. -/
def value (src : Nat → ℚ) (gid : Nat) : Value :=
  k.mode.finish (sweep k.mode.step (k.start, 0) (fun i j =>
    let h := k.iHBegin gid + i
    let w := k.iWBegin gid + j
    if k.InBounds h w then some (src (k.inIdx gid h w).toNat) else none) k.kernelH k.kernelW)

/-- The output after all threads. -/
def run (src : Nat → ℚ) (dst : Nat → Value) : Option (Nat → Value) :=
  if ∀ gid < k.size, k.FitsAt gid then some fun p => if p < k.size then k.value src p else dst p else none

end CudaPool

/-! ### The CPU -/

/-- The constants in the loops. -/
structure CpuPool where
  mode : Mode
  layout : Layout
  nbatch : Nat
  cIn : Nat
  hIn : Nat
  wIn : Nat
  hOut : Nat
  wOut : Nat
  kh : Nat
  kw : Nat
  strideH : Nat
  strideW : Nat
  dilationH : Nat
  dilationW : Nat
  padH : Nat
  padW : Nat

/-- `calc_pad`. -/
def calcPad (pool : Pooling) (dim : Nat) : Option Nat :=
  match pool.pad with
  | .notSet pad => (pad.at? dim).map Prod.fst
  | .valid => some 0
  | _ => none

/-- The constants of `build_pool_nchw` and of `build_pool_nhwc`, for elements of a float type. -/
def CpuPool.build (mode : Mode) (pooling : Pooling) (dst src : ResolvedTensorType) : Option CpuPool :=
  if pooling.kernelShape.length = 2 then do
    let nbatch ← src.dims[0]?
    let (cIn, hIn, wIn, hOut, wOut) ← match pooling.layout with
      | .NCHW => do
          let cIn ← src.dims[1]?
          let hIn ← src.dims[2]?
          let wIn ← src.dims[3]?
          let hOut ← dst.dims[2]?
          let wOut ← dst.dims[3]?
          some (cIn, hIn, wIn, hOut, wOut)
      | .NHWC => do
          let hIn ← src.dims[1]?
          let wIn ← src.dims[2]?
          let cIn ← src.dims.getLast?
          let hOut ← dst.dims[1]?
          let wOut ← dst.dims[2]?
          some (cIn, hIn, wIn, hOut, wOut)
    let kh ← pooling.kernelShape[0]?
    let kw ← pooling.kernelShape[1]?
    let strideH ← pooling.strides.at? 0
    let strideW ← pooling.strides.at? 1
    let dilationH ← pooling.dilations.at? 0
    let dilationW ← pooling.dilations.at? 1
    let padH ← calcPad pooling 0
    let padW ← calcPad pooling 1
    if nbatch ≠ 0 ∧ cIn ≠ 0 ∧ hOut ≠ 0 ∧ wOut ≠ 0 ∧ kh ≠ 0 ∧ kw ≠ 0 then
      some {
        mode, layout := pooling.layout, nbatch, cIn, hIn, wIn, hOut, wOut, kh, kw, strideH, strideW
        dilationH, dilationW, padH, padW }
    else none
  else none

namespace CpuPool

variable (k : CpuPool)

def ih (oh i : Nat) : Int := oh * k.strideH + i * k.dilationH - k.padH

def iw (ow j : Nat) : Int := ow * k.strideW + j * k.dilationW - k.padW

/-- `oob`. -/
def Oob (h w : Int) : Prop := (h < 0 ∨ h ≥ k.hIn) ∨ w < 0 ∨ w ≥ k.wIn

instance (h w : Int) : Decidable (k.Oob h w) := inferInstanceAs (Decidable (_ ∨ _))

/-- `init_val`. -/
def initVal : Value :=
  match k.mode with
  | .avg => 0
  | .max => ⊥

/-- `src_offset`. -/
def srcOff (n c : Nat) (h w : Int) : Int :=
  match k.layout with
  | .NCHW => n * (k.cIn * k.hIn * k.wIn) + c * (k.hIn * k.wIn) + h * k.wIn + w
  | .NHWC => n * (k.hIn * k.wIn * k.cIn) + h * (k.wIn * k.cIn) + w * k.cIn + c

/-- `dst_offset`. -/
def dstOff (n c oh ow : Nat) : Nat :=
  match k.layout with
  | .NCHW => n * (k.cIn * k.hOut * k.wOut) + c * (k.hOut * k.wOut) + oh * k.wOut + ow
  | .NHWC => n * (k.hOut * k.wOut * k.cIn) + oh * (k.wOut * k.cIn) + ow * k.cIn + c

/-- The stores of `build_pool_nchw`, in their order. -/
def storesNchw (src : Nat → ℚ) : List (Nat × Value) :=
  (List.range k.nbatch).flatMap fun n => (List.range k.cIn).flatMap fun c =>
    (List.range k.hOut).flatMap fun oh => (List.range k.wOut).map fun ow =>
      let acc := sweep k.mode.step (k.initVal, 0) (fun i j =>
        if k.Oob (k.ih oh i) (k.iw ow j) then none
        else some (src (k.srcOff n c (k.ih oh i) (k.iw ow j)).toNat)) k.kh k.kw
      (k.dstOff n c oh ow, k.mode.finish acc)

/-- `update_loop`: an accumulator for each channel, and the number of positions. -/
def update (src : Nat → ℚ) (n : Nat) (acc : (Nat → Value) × Nat) (p : Int × Int) : (Nat → Value) × Nat :=
  ((List.range k.cIn).foldl (fun vals ch =>
    Function.update vals ch (k.mode.step (vals ch, acc.2) (src (k.srcOff n ch p.1 p.2).toNat)).1) acc.1, acc.2 + 1)

/-- The stores of `build_pool_nhwc`, in their order. -/
def storesNhwc (src : Nat → ℚ) : List (Nat × Value) :=
  (List.range k.nbatch).flatMap fun n => (List.range k.hOut).flatMap fun oh =>
    (List.range k.wOut).flatMap fun ow =>
      let acc := sweep (k.update src n) (fun _ => k.initVal, 0) (fun i j =>
        if k.Oob (k.ih oh i) (k.iw ow j) then none else some (k.ih oh i, k.iw ow j)) k.kh k.kw
      (List.range k.cIn).map fun ch => (k.dstOff n ch oh ow, k.mode.finish (acc.1 ch, acc.2))

/-- The output after the loops. -/
def run (src : Nat → ℚ) (dst : Nat → Value) : Nat → Value :=
  let stores := match k.layout with
    | .NCHW => k.storesNchw src
    | .NHWC => k.storesNhwc src
  stores.foldl (fun μ s => Function.update μ s.1 s.2) dst

end CpuPool

end PoolKernel
end NnEngine
