import NnEngine.Codegen.Coverage
import NnEngine.IntegerRounding
import NnEngine.KernelWrites
import NnEngine.Llm.Streaming
import NnEngine.WarpReduction

/-!
# Quantisation of rows

`DynamicQuantizeLinear`, symmetric and along the first axis, and `QuantizingKVCacheUpdate`, each as the CPU and
as CUDA compute it, in exact arithmetic.  A row gets a scale, and every number of it an integer.  Where `int`s of a
kernel overflow, a grid is empty, a panic is raised or a loop does not end, there is no result.
-/

namespace NnEngine
namespace Quantizers

open WarpReduction KernelWrites IntegerRounding

variable {α : Type} [Field α] [LinearOrder α] [IsStrictOrderedRing α] [FloorRing α]

/-- `clamp`. -/
def clamp (lo hi v : ℤ) : ℤ := max lo (min v hi)

/-! ### `DynamicQuantizeLinear` -/

/-- What an operator writes into its three outputs. -/
structure Outputs (α : Type) where
  y : Writes ℤ
  scale : Writes α
  zeroPoint : Writes ℤ

/-- The scale of a row in `mynn_dynquant_i8`. -/
def dynquantScale (k : ℕ) (x : ℕ → α) : α :=
  let amax := (List.range k).foldl (fun amax j => max amax |x j|) 0
  if 0 < amax then amax / 127 else 1

/-- `mynn_dynquant_i8`. -/
def dynquantI8 (m k : ℕ) (x : ℕ → α) : Outputs α where
  y := (List.range m).flatMap fun mi => (List.range k).map fun j =>
    (mi * k + j, clamp (-127) 127 (roundAway (x (mi * k + j) * (dynquantScale k fun j => x (mi * k + j))⁻¹)))
  scale := (List.range m).map fun mi => (mi, dynquantScale k fun j => x (mi * k + j))
  zeroPoint := []

/-- `build_dynamic_quantize_linear`, of a tensor of these dimensions. -/
def buildDynamicQuantizeLinear (dims : List ℕ) (x : ℕ → α) : Option (Outputs α) :=
  match dims.getLast? with
  | none => none
  | some k => if k = 0 then none else some (dynquantI8 (dims.prod / k) k x)

/-- `BLOCK_SIZE` and `WARP_SIZE` of `dynamic_quantize_linear_kernel`. -/
def blockSize : ℕ := 256

def warpSize : ℕ := 32

/-- The largest magnitude that a block finds: each thread, each warp, and then the first warp. -/
def blockMaxAbs (sliceLen : ℕ) (x : ℕ → α) : α :=
  let localMaxAbs tid := (strided sliceLen blockSize sliceLen tid).foldl (fun acc i => max acc |x i|) 0
  let shuffled := (halvings 1 warpSize (warpSize / 2)).foldl (fullStep max warpSize) localMaxAbs
  let maxBuf warpId := shuffled (warpId * warpSize)
  let v lane := if lane < blockSize / warpSize then maxBuf lane else 0
  (halvings 1 warpSize (blockSize / warpSize / 2)).foldl (fullStep max warpSize) v 0

/-- `(int)nearbyintf(v / scale) + zp`, clamped; `0 / 0` is no number, and what it is as an `int` is a parameter. -/
def quantized (nanAsInt : ℤ) (scale v : α) (zp : ℤ) : ℤ :=
  clamp (-127) 127 ((if scale = 0 then nanAsInt else roundEven (v / scale)) + zp)

/-- `dynamic_quantize_linear_kernel` with `SYMMETRIC`, and its launch. -/
def dynamicQuantizeLinear (nanAsInt : ℤ) (dims : List ℕ) (x : ℕ → α) : Option (Outputs α) :=
  match dims with
  | [] => none
  | axisDim :: rest =>
    let innerSize := rest.prod
    -- a thread leaves its loop at the latest with `innerSize + 255`
    if axisDim = 0 ∨ 2 ^ 31 ≤ axisDim ∨ 2 ^ 31 ≤ innerSize + blockSize - 1 then none
    else
      let scale axis := blockMaxAbs innerSize (fun i => x (axis * innerSize + i)) / 127
      some {
        y := (List.range axisDim).flatMap fun axis => (List.range blockSize).flatMap fun tid =>
          (strided innerSize blockSize innerSize tid).map fun i =>
            (axis * innerSize + i, quantized nanAsInt (scale axis) (x (axis * innerSize + i)) 0)
        scale := (List.range axisDim).map fun axis => (axis, scale axis)
        zeroPoint := (List.range axisDim).map fun axis => (axis, 0) }

/-! ### `QuantizingKVCacheUpdate` -/

/-- The dimensions of the cache `[b, h, maxSeq, headDim]` and of the new rows, and where the new ones go. -/
structure Update where
  bDim : ℕ
  hDim : ℕ
  maxSeq : ℕ
  newSeq : ℕ
  headDim : ℕ
  offset : ℕ
  ringSink : ℕ
  ringWindow : ℕ
  ringStart : ℕ

/-- What is written for one new row, into the cache and into the scales. -/
structure CacheRow (α : Type) where
  cache : Writes ℤ
  scale : ℕ × α

namespace Update

variable (u : Update)

def rows : ℕ := u.bDim * u.hDim * u.newSeq

attribute [local instance] atLeastTwo_two in
attribute [local instance] atLeastTwo_127 in
/-- One turn of the outer loop of `build_quantizing_kv_cache_update`. -/
def cpuRow (newKv : ℕ → α) (outer : ℕ) : CacheRow α :=
  let bh := outer / u.newSeq
  let t := outer % u.newSeq
  let dstToken := u.offset + t
  let srcBase := (bh * u.newSeq + t) * u.headDim
  let dstBase := (bh * u.maxSeq + dstToken) * u.headDim
  let maxAbs := (List.range u.headDim).foldl
    (fun curMax d => max curMax (max (newKv (srcBase + d)) (-newKv (srcBase + d)))) 0
  let s := maxAbs * (1 / 127)
  let invS := if maxAbs = 0 then 0 else 127 / maxAbs
  let q d :=
    let scaled := newKv (srcBase + d) * invS
    min (max (truncate (scaled + if 0 ≤ scaled then 1 / 2 else -(1 / 2))) (-128)) 127
  { cache := (List.range u.headDim).map fun d => (dstBase + d, q d)
    scale := (bh * u.maxSeq + dstToken, s) }

/-- `build_quantizing_kv_cache_update`; its loops test their bounds at the end, and only for equality. -/
def buildQuantizingKVCacheUpdate (newKv : ℕ → α) : Option (List (CacheRow α)) :=
  if u.rows = 0 ∨ u.headDim = 0 then none else some ((List.range u.rows).map (u.cpuRow newKv))

/-- The block size of the launch. -/
def kvBlockSize (headDim : ℕ) : ℕ := max (min Coverage.defaultBlockSize headDim) 32

/-- The slot of a new row. -/
def phys (t : ℕ) : ℕ := Llm.ringPhysIndex (u.offset + t) u.ringSink u.ringWindow u.ringStart

/-- One block of `quantizing_kvcache_update`. -/
def cudaRow (newKv : ℕ → α) (gid : ℕ) : CacheRow α :=
  let t := gid % u.newSeq
  let bh := gid / u.newSeq
  let blockSize := kvBlockSize u.headDim
  let src d := newKv (bh * u.newSeq * u.headDim + t * u.headDim + d)
  let dst := bh * u.maxSeq * u.headDim + u.phys t * u.headDim
  let localMax tid := (strided u.headDim blockSize u.headDim tid).foldl
    (fun localMax d => if localMax < |src d| then |src d| else localMax) 0
  let reduction := (halvings 1 blockSize (blockSize / 2)).foldl (sharedStep fun own other =>
    if own < other then other else own) localMax
  let maxAbs := reduction 0
  let s := maxAbs / 127
  let invS := if maxAbs = 0 then 0 else 1 / s
  let q d :=
    let q := roundAway (src d * invS)
    let q := if q < -128 then -128 else q
    if 127 < q then 127 else q
  { cache := (List.range blockSize).flatMap fun tid =>
      (strided u.headDim blockSize u.headDim tid).map fun d => (dst + d, q d)
    scale := (bh * u.maxSeq + u.phys t, s) }

/-- The `int`s of a block. -/
def IntsFit (gid : ℕ) : Prop :=
  let t := gid % u.newSeq
  let bh := gid / u.newSeq
  u.headDim + kvBlockSize u.headDim - 1 < 2 ^ 31 ∧ u.offset + t < 2 ^ 31 ∧
    (u.ringWindow ≠ 0 → u.ringSink ≤ u.offset + t → u.ringStart + (u.offset + t - u.ringSink) < 2 ^ 31) ∧
    bh * u.newSeq * u.headDim < 2 ^ 31 ∧ t * u.headDim < 2 ^ 31 ∧
    bh * u.maxSeq * u.headDim < 2 ^ 31 ∧ u.phys t * u.headDim < 2 ^ 31

instance (gid : ℕ) : Decidable (u.IntsFit gid) := by unfold IntsFit; infer_instance

/-- The launch of a `QuantizingKVCacheUpdate`. -/
def quantizingKVCacheUpdate (newKv : ℕ → α) : Option (List (CacheRow α)) :=
  if 0 < u.rows ∧ u.rows < 2 ^ 31 ∧ ∀ gid < u.rows, u.IntsFit gid then some ((List.range u.rows).map (u.cudaRow newKv)) else none

end Update

end Quantizers
end NnEngine
