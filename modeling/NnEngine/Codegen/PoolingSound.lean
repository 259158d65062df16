import NnEngine.Codegen.Pooling

/-!
# What the pooling kernels compute

The loops on the CPU compute the maximum and the mean of the elements that a window covers.  The kernels on
the GPU take their windows without the dilation, and a maximum there is never below the least positive number:
`poolKernel_computes_iff`.
-/

namespace NnEngine
namespace PoolKernel

open SlidingWindow

inductive Backend
  | cuda
  | cpu
  deriving DecidableEq, Repr

/-- A kernel of `MaxPool` or `AveragePool` with explicit pads, on row-major operands of two spatial axes. -/
structure Kernel where
  backend : Backend
  mode : Mode
  elemType : FloatType
  pool : Pooling
  pads : OptionalVec (Nat × Nat)
  n : Nat
  c : Nat
  h : Axis
  w : Axis
  oh : Nat
  ow : Nat
  padEq : pool.pad = .notSet pads
  kernelShape : pool.kernelShape = [h.kernel, w.kernel]
  strideH : pool.strides.at? 0 = some h.stride
  strideW : pool.strides.at? 1 = some w.stride
  dilationH : pool.dilations.at? 0 = some h.dilation
  dilationW : pool.dilations.at? 1 = some w.dilation
  padH : (pads.at? 0).map Prod.fst = some h.pad
  padW : (pads.at? 1).map Prod.fst = some w.pad
  nPos : 0 < n
  cPos : 0 < c
  ohPos : 0 < oh
  owPos : 0 < ow
  kernelHPos : 0 < h.kernel
  kernelWPos : 0 < w.kernel

namespace Kernel

variable (x : Kernel)

def inDims : ResolvedTensorDims := arrange x.pool.layout x.n x.c x.h.size x.w.size

def outDims : ResolvedTensorDims := arrange x.pool.layout x.n x.c x.oh x.ow

/-- Where an element of the input lies. -/
def inAt (b ch i j : Nat) : Nat := rowMajor x.inDims (arrange x.pool.layout b ch i j)

/-- Where an element of the output lies. -/
def outAt (b ch o p : Nat) : Nat := rowMajor x.outDims (arrange x.pool.layout b ch o p)

/-- The output after the kernel. -/
def run (src : Nat → ℚ) (dst : Nat → Value) : Option (Nat → Value) :=
  let input := ResolvedTensorType.new (.float x.elemType) x.inDims
  let output := ResolvedTensorType.new (.float x.elemType) x.outDims
  match x.backend with
  | .cuda => (CudaPool.build x.mode x.pool x.elemType input output).bind fun k => k.run src dst
  | .cpu => (CpuPool.build x.mode x.pool output input).map fun k => k.run src dst

/-- The positions that a window covers. -/
def window (o p : Nat) : Finset (Nat × Nat) := x.h.positions o ×ˢ x.w.positions p

/-- The maximum, or the mean, of the elements at these positions. -/
def reduce (src : Nat → ℚ) (b ch : Nat) (q : Finset (Nat × Nat)) : Value :=
  match x.mode with
  | .max => q.sup fun q => ((src (x.inAt b ch q.1 q.2) : ℚ) : Value)
  | .avg => (((∑ q ∈ q, src (x.inAt b ch q.1 q.2)) / q.card : ℚ) : Value)

/-- The kernel leaves in the output what the windows hold. -/
def Correct (src : Nat → ℚ) : Prop :=
  ∀ dst, ∃ out, x.run src dst = some out ∧ ∀ b < x.n, ∀ ch < x.c, ∀ o < x.oh, ∀ p < x.ow,
    out (x.outAt b ch o p) = x.reduce src b ch (x.window o p)

end Kernel

/-! ### Accumulators -/

section Accumulators

variable {s : Value} {m : Nat} {xs : List ℚ}

theorem foldl_max : xs.foldl Mode.max.step (s, m) = (xs.foldl (fun a (x : ℚ) => a ⊔ (x : Value)) s, m + xs.length) := by
  induction xs generalizing s m with
  | nil => rfl
  | cons x xs ih =>
      rw [List.foldl_cons, Mode.step, ih, List.foldl_cons, List.length_cons]
      congr 1
      omega

theorem foldl_sup_le {b : Value} :
    xs.foldl (fun a (x : ℚ) => a ⊔ (x : Value)) s ≤ b ↔ s ≤ b ∧ ∀ x ∈ xs, (x : Value) ≤ b := by
  induction xs generalizing s with
  | nil => simp
  | cons x xs ih => simp [ih, and_assoc]

theorem foldl_avg : xs.foldl Mode.avg.step (s, m) = (s + ((xs.sum : ℚ) : Value), m + xs.length) := by
  induction xs generalizing s m with
  | nil => simp
  | cons x xs ih =>
      rw [List.foldl_cons, Mode.step, ih, List.sum_cons, List.length_cons, WithBot.coe_add, add_assoc]
      congr 1
      omega

variable {v w : Axis} {o p : Nat}

/-- A loop for the maximum. -/
theorem finish_max (f : Nat → Nat → ℚ) :
    Mode.max.finish ((found v w o p f).foldl Mode.max.step (s, 0)) =
      s ⊔ (v.positions o ×ˢ w.positions p).sup fun q => ((f q.1 q.2 : ℚ) : Value) := by
  rw [foldl_max, Mode.finish]
  refine eq_of_forall_ge_iff fun b => ?_
  rw [foldl_sup_le, sup_le_iff, Finset.sup_le_iff]
  refine and_congr_right fun _ => ⟨fun h q hq => h _ (mem_found.mpr ⟨q, hq, rfl⟩), fun h x hx => ?_⟩
  obtain ⟨q, hq, rfl⟩ := mem_found.mp hx
  exact h q hq

/-- A loop for the mean: it may come to a position more than once, but to all of them equally often. -/
theorem finish_avg (hv : 0 < v.kernel) (hw : 0 < w.kernel) (f : Nat → Nat → ℚ) :
    Mode.avg.finish ((found v w o p f).foldl Mode.avg.step (0, 0)) =
      (((∑ q ∈ v.positions o ×ˢ w.positions p, f q.1 q.2) / (v.positions o ×ˢ w.positions p).card : ℚ) : Value) := by
  have hrepeats : ((v.repeats * w.repeats : Nat) : ℚ) ≠ 0 :=
    Nat.cast_ne_zero.mpr (Nat.mul_pos (Axis.repeats_pos hv) (Axis.repeats_pos hw)).ne'
  rw [foldl_avg, Mode.finish, zero_add, Nat.zero_add, sum_found, length_found, nsmul_eq_mul, Nat.cast_mul _ (Finset.card _)]
  show ((_ / _ : ℚ) : Value) = _
  rw [mul_div_mul_left _ _ hrepeats]

end Accumulators

/-! ### Addresses -/

theorem div_mod_step {a d r : Nat} (hr : r < d) : (a * d + r) / d = a ∧ (a * d + r) % d = r := by
  have hd : 0 < d := Nat.zero_lt_of_lt hr
  refine ⟨?_, ?_⟩
  · rw [Nat.mul_comm, Nat.mul_add_div hd, Nat.div_eq_of_lt hr, Nat.add_zero]
  · rw [Nat.mul_comm, Nat.mul_add_mod, Nat.mod_eq_of_lt hr]

/-- The window without its dilation. -/
def flat (a : Axis) : Axis := { a with dilation := 1 }

namespace Kernel

variable (x : Kernel) {b ch o p : Nat}

theorem inside_out (hb : b < x.n) (hch : ch < x.c) (ho : o < x.oh) (hp : p < x.ow) :
    Inside (arrange x.pool.layout b ch o p) x.outDims := by
  unfold outDims
  cases x.pool.layout with
  | NCHW => exact .cons hb (.cons hch (.cons ho (.cons hp .nil)))
  | NHWC => exact .cons hb (.cons ho (.cons hp (.cons hch .nil)))

/-! ### The GPU -/

/-- The constants in the text of the kernel. -/
def cudaPool : CudaPool :=
  { mode := x.mode, elemType := x.elemType, layout := x.pool.layout, nbatch := x.n, channels := x.c
    height := x.h.size, width := x.w.size, oHeight := x.oh, oWidth := x.ow, kernelH := x.h.kernel
    kernelW := x.w.kernel, strideH := x.h.stride, strideW := x.w.stride, padH := x.h.pad, padW := x.w.pad }

theorem cudaPool_build : CudaPool.build x.mode x.pool x.elemType (.new (.float x.elemType) x.inDims)
    (.new (.float x.elemType) x.outDims) = some x.cudaPool := by
  have hdims (t : DataType) (d : ResolvedTensorDims) : (ResolvedTensorType.new t d).dims = d := rfl
  obtain ⟨p0, hp0, hfst0⟩ := Option.map_eq_some_iff.mp x.padH
  obtain ⟨p1, hp1, hfst1⟩ := Option.map_eq_some_iff.mp x.padW
  unfold CudaPool.build cudaPool inDims outDims
  cases hlayout : x.pool.layout <;>
    simp [arrange, hdims, ResolvedTensorType.new_isContiguous, x.kernelShape, x.strideH, x.strideW, x.padEq,
      hp0, hp1, hfst0, hfst1]

theorem size_cudaPool : x.cudaPool.size = x.outDims.prod := by
  unfold CudaPool.size outDims cudaPool
  cases x.pool.layout <;> simp [arrange, Nat.mul_assoc]

/-- A thread knows which element it computes. -/
theorem indices_cudaPool (hch : ch < x.c) (ho : o < x.oh) (hp : p < x.ow) :
    x.cudaPool.oBIdx (x.outAt b ch o p) = b ∧ x.cudaPool.oCIdx (x.outAt b ch o p) = ch ∧
      x.cudaPool.oHIdx (x.outAt b ch o p) = o ∧ x.cudaPool.oWIdx (x.outAt b ch o p) = p := by
  unfold CudaPool.oBIdx CudaPool.oCIdx CudaPool.oHIdx CudaPool.oWIdx outAt outDims cudaPool
  dsimp only
  cases x.pool.layout with
  | NCHW =>
      have hgid : rowMajor (arrange .NCHW x.n x.c x.oh x.ow) (arrange .NCHW b ch o p) =
          ((b * x.c + ch) * x.oh + o) * x.ow + p := by
        simp only [arrange, rowMajor, List.prod_cons, List.prod_nil]
        ring
      obtain ⟨hdivW, hmodW⟩ := div_mod_step (a := (b * x.c + ch) * x.oh + o) hp
      obtain ⟨hdivH, hmodH⟩ := div_mod_step (a := b * x.c + ch) ho
      obtain ⟨hdivC, hmodC⟩ := div_mod_step (a := b) hch
      dsimp only
      rw [hgid, ← Nat.div_div_eq_div_mul, ← Nat.div_div_eq_div_mul, hdivW, hdivH]
      exact ⟨hdivC, hmodC, hmodH, hmodW⟩
  | NHWC =>
      have hgid : rowMajor (arrange .NHWC x.n x.c x.oh x.ow) (arrange .NHWC b ch o p) =
          ((b * x.oh + o) * x.ow + p) * x.c + ch := by
        simp only [arrange, rowMajor, List.prod_cons, List.prod_nil]
        ring
      obtain ⟨hdivC, hmodC⟩ := div_mod_step (a := (b * x.oh + o) * x.ow + p) hch
      obtain ⟨hdivW, hmodW⟩ := div_mod_step (a := b * x.oh + o) hp
      obtain ⟨hdivH, hmodH⟩ := div_mod_step (a := b) ho
      dsimp only
      rw [hgid, ← Nat.div_div_eq_div_mul, ← Nat.div_div_eq_div_mul, hdivC, hdivW]
      exact ⟨hdivH, hmodC, hmodH, hmodW⟩

/-- What a thread finds in its loops. -/
theorem value_cudaPool (src : Nat → ℚ) (hch : ch < x.c) (ho : o < x.oh) (hp : p < x.ow) :
    x.cudaPool.value src (x.outAt b ch o p) = x.mode.finish ((found (flat x.h) (flat x.w) o p
      fun i j => src (x.inAt b ch i j)).foldl x.mode.step (x.cudaPool.start, 0)) := by
  obtain ⟨hbIdx, hcIdx, hhIdx, hwIdx⟩ := x.indices_cudaPool (b := b) hch ho hp
  have hplaceH (i : Nat) : x.cudaPool.iHBegin (x.outAt b ch o p) + i = (flat x.h).place o i := by
    unfold CudaPool.iHBegin Axis.place flat
    rw [hhIdx]
    simp [cudaPool]
    ring
  have hplaceW (j : Nat) : x.cudaPool.iWBegin (x.outAt b ch o p) + j = (flat x.w).place p j := by
    unfold CudaPool.iWBegin Axis.place flat
    rw [hwIdx]
    simp [cudaPool]
    ring
  have hbounds (h w : Int) : x.cudaPool.InBounds h w ↔ (flat x.h).Holds h ∧ (flat x.w).Holds w :=
    and_assoc.symm
  have hindex (h w : Int) (hin : (flat x.h).Holds h ∧ (flat x.w).Holds w) :
      (x.cudaPool.inIdx (x.outAt b ch o p) h w).toNat = x.inAt b ch h.toNat w.toNat := by
    obtain ⟨⟨hh, -⟩, hw, -⟩ := hin
    obtain ⟨i, rfl⟩ := Int.eq_ofNat_of_zero_le hh
    obtain ⟨j, rfl⟩ := Int.eq_ofNat_of_zero_le hw
    unfold CudaPool.inIdx inAt inDims
    rw [hbIdx, hcIdx, Int.toNat_natCast, Int.toNat_natCast]
    unfold cudaPool
    dsimp only
    cases x.pool.layout with
    | NCHW =>
        simp only [arrange, rowMajor, List.prod_cons, List.prod_nil]
        zify
        rw [Int.toNat_of_nonneg (by positivity)]
        ring
    | NHWC =>
        simp only [arrange, rowMajor, List.prod_cons, List.prod_nil]
        zify
        rw [Int.toNat_of_nonneg (by positivity)]
        ring
  unfold CudaPool.value
  congr 1
  refine sweep_eq_foldl x.mode.step _ (flat x.h) (flat x.w) o p _ fun i _ j _ => ?_
  dsimp only
  rw [hplaceH, hplaceW]
  simp only [hbounds]
  split
  · rename_i hin
    rw [hindex _ _ hin]
  · rfl

end Kernel

/-! ### The CPU -/

section Stores

variable {β : Type}

/-- The last store to an address counts, and all of them store the same. -/
theorem foldl_update {l : List (Nat × β)} {a : Nat} {v : β} (hl : ∀ s ∈ l, s.1 = a → s.2 = v)
    {μ : Nat → β} (h : (∃ s ∈ l, s.1 = a) ∨ μ a = v) :
    l.foldl (fun μ s => Function.update μ s.1 s.2) μ a = v := by
  induction l generalizing μ with
  | nil => simpa using h
  | cons s l ih =>
      obtain ⟨hs, hl'⟩ := List.forall_mem_cons.mp hl
      refine ih hl' ?_
      by_cases haddr : s.1 = a
      · right
        dsimp only
        rw [← haddr, Function.update_self]
        exact hs haddr
      · obtain ⟨s', hs', ha⟩ | hμ := h
        · obtain rfl | hmem := List.mem_cons.mp hs'
          · exact absurd ha haddr
          · exact .inl ⟨s', hmem, ha⟩
        · right
          dsimp only
          rw [Function.update_of_ne (Ne.symm haddr), hμ]

/-- A loop that replaces each of the first entries. -/
theorem foldl_update_range (F : Nat → β → β) (vals : Nat → β) (n ch : Nat) :
    (List.range n).foldl (fun vals ch => Function.update vals ch (F ch (vals ch))) vals ch =
      if ch < n then F ch (vals ch) else vals ch := by
  induction n with
  | zero => rfl
  | succ n ih =>
      rw [List.range_succ, List.foldl_append, List.foldl_cons, List.foldl_nil]
      by_cases hch : ch = n
      · subst hch
        rw [Function.update_self, ih, if_neg (Nat.lt_irrefl ch), if_pos (Nat.lt_succ_self ch)]
      · rw [Function.update_of_ne hch, ih]
        refine if_congr ?_ rfl rfl
        omega

end Stores

namespace CpuPool

variable (k : CpuPool)

/-- What is stored for an element of the output. -/
def value (src : Nat → ℚ) (n ch oh ow : Nat) : Value :=
  k.mode.finish (sweep k.mode.step (k.initVal, 0) (fun i j =>
    if k.Oob (k.ih oh i) (k.iw ow j) then none
    else some (src (k.srcOff n ch (k.ih oh i) (k.iw ow j)).toNat)) k.kh k.kw)

theorem mode_step_snd (mode : Mode) (acc : Value × Nat) (q : ℚ) : (mode.step acc q).2 = acc.2 + 1 := by
  cases mode <;> rfl

/-- The accumulator of a channel sees the elements of that channel alone. -/
theorem finish_update (src : Nat → ℚ) (n oh ow : Nat) {ch : Nat} (hch : ch < k.cIn) :
    let acc := sweep (k.update src n) (fun _ => k.initVal, 0) (fun i j =>
      if k.Oob (k.ih oh i) (k.iw ow j) then none else some (k.ih oh i, k.iw ow j)) k.kh k.kw
    k.mode.finish (acc.1 ch, acc.2) = k.value src n ch oh ow := by
  have hstep (acc : (Nat → Value) × Nat) (p : Int × Int) :
      ((k.update src n acc p).1 ch, (k.update src n acc p).2) =
        k.mode.step (acc.1 ch, acc.2) (src (k.srcOff n ch p.1 p.2).toNat) := by
    refine Prod.ext ?_ (mode_step_snd k.mode (acc.1 ch, acc.2) _).symm
    show (List.range k.cIn).foldl _ acc.1 ch = _
    rw [foldl_update_range (fun ch v => (k.mode.step (v, acc.2) (src (k.srcOff n ch p.1 p.2).toNat)).1),
      if_pos hch]
  have hhom := sweep_hom (fun _ => k.initVal, 0) (fun acc : (Nat → Value) × Nat => (acc.1 ch, acc.2))
    (fun p : Int × Int => src (k.srcOff n ch p.1 p.2).toNat) hstep
    (fun i j => if k.Oob (k.ih oh i) (k.iw ow j) then none else some (k.ih oh i, k.iw ow j)) k.kh k.kw
  refine (congrArg k.mode.finish hhom).trans ?_
  unfold value
  congr 2
  funext i j
  split <;> rfl

/-- Both loop nests store the same. -/
theorem mem_stores (src : Nat → ℚ) (s : Nat × Value) :
    s ∈ (match k.layout with
      | .NCHW => k.storesNchw src
      | .NHWC => k.storesNhwc src) ↔
      ∃ n < k.nbatch, ∃ ch < k.cIn, ∃ oh < k.hOut, ∃ ow < k.wOut,
        (k.dstOff n ch oh ow, k.value src n ch oh ow) = s := by
  split
  · unfold storesNchw value
    simp only [List.mem_flatMap, List.mem_map, List.mem_range]
  · unfold storesNhwc
    simp only [List.mem_flatMap, List.mem_map, List.mem_range]
    constructor
    · rintro ⟨n, hn, oh, hoh, ow, how, ch, hch, rfl⟩
      exact ⟨n, hn, ch, hch, oh, hoh, ow, how, Prod.ext rfl (k.finish_update src n oh ow hch).symm⟩
    · rintro ⟨n, hn, ch, hch, oh, hoh, ow, how, rfl⟩
      exact ⟨n, hn, oh, hoh, ow, how, ch, hch, Prod.ext rfl (k.finish_update src n oh ow hch)⟩

end CpuPool

namespace Kernel

variable (x : Kernel) {b ch o p : Nat}

/-- The constants in the loops. -/
def cpuPool : CpuPool :=
  { mode := x.mode, layout := x.pool.layout, nbatch := x.n, cIn := x.c, hIn := x.h.size, wIn := x.w.size
    hOut := x.oh, wOut := x.ow, kh := x.h.kernel, kw := x.w.kernel, strideH := x.h.stride
    strideW := x.w.stride, dilationH := x.h.dilation, dilationW := x.w.dilation, padH := x.h.pad
    padW := x.w.pad }

theorem cpuPool_build : CpuPool.build x.mode x.pool (.new (.float x.elemType) x.outDims)
    (.new (.float x.elemType) x.inDims) = some x.cpuPool := by
  have hdims (t : DataType) (d : ResolvedTensorDims) : (ResolvedTensorType.new t d).dims = d := rfl
  have hpad (i : Nat) : calcPad x.pool i = (x.pads.at? i).map Prod.fst := by
    unfold calcPad
    rw [x.padEq]
  unfold CpuPool.build cpuPool inDims outDims
  cases hlayout : x.pool.layout <;>
    simp [arrange, hdims, x.kernelShape, x.strideH, x.strideW, x.dilationH, x.dilationW, hpad, x.padH, x.padW,
      x.nPos.ne', x.cPos.ne', x.ohPos.ne', x.owPos.ne', x.kernelHPos.ne', x.kernelWPos.ne']

theorem dstOff_cpuPool : x.cpuPool.dstOff b ch o p = x.outAt b ch o p := by
  unfold CpuPool.dstOff outAt outDims cpuPool
  dsimp only
  cases x.pool.layout <;> simp only [arrange, rowMajor, List.prod_cons, List.prod_nil] <;> ring

/-- What the loops find for an element of the output. -/
theorem value_cpuPool (src : Nat → ℚ) : x.cpuPool.value src b ch o p =
    x.mode.finish ((found x.h x.w o p fun i j => src (x.inAt b ch i j)).foldl x.mode.step
      (x.cpuPool.initVal, 0)) := by
  have hoob (h w : Int) : ¬ x.cpuPool.Oob h w ↔ x.h.Holds h ∧ x.w.Holds w := by
    unfold CpuPool.Oob Axis.Holds cpuPool
    dsimp only
    omega
  have hindex (h w : Int) (hin : x.h.Holds h ∧ x.w.Holds w) :
      (x.cpuPool.srcOff b ch h w).toNat = x.inAt b ch h.toNat w.toNat := by
    obtain ⟨⟨hh, -⟩, hw, -⟩ := hin
    obtain ⟨i, rfl⟩ := Int.eq_ofNat_of_zero_le hh
    obtain ⟨j, rfl⟩ := Int.eq_ofNat_of_zero_le hw
    unfold CpuPool.srcOff inAt inDims cpuPool
    rw [Int.toNat_natCast, Int.toNat_natCast]
    dsimp only
    cases x.pool.layout with
    | NCHW =>
        simp only [arrange, rowMajor, List.prod_cons, List.prod_nil]
        zify
        rw [Int.toNat_of_nonneg (by positivity)]
        ring
    | NHWC =>
        simp only [arrange, rowMajor, List.prod_cons, List.prod_nil]
        zify
        rw [Int.toNat_of_nonneg (by positivity)]
        ring
  unfold CpuPool.value
  congr 1
  refine sweep_eq_foldl x.mode.step _ x.h x.w o p _ fun i _ j _ => ?_
  show (if x.cpuPool.Oob (x.h.place o i) (x.w.place p j) then none else _) = _
  by_cases hin : x.h.Holds (x.h.place o i) ∧ x.w.Holds (x.w.place p j)
  · rw [if_neg ((hoob _ _).mpr hin), if_pos hin]
    exact congrArg (fun a => some (src a)) (hindex _ _ hin)
  · rw [if_pos (by_contra fun h => hin ((hoob _ _).mp h)), if_neg hin]

/-- The loops store each element. -/
theorem run_cpuPool (src : Nat → ℚ) (dst : Nat → Value) (hb : b < x.n) (hch : ch < x.c) (ho : o < x.oh)
    (hp : p < x.ow) : x.cpuPool.run src dst (x.outAt b ch o p) = x.cpuPool.value src b ch o p := by
  unfold CpuPool.run
  refine foldl_update (fun s hs haddr => ?_) (.inl ⟨_, (x.cpuPool.mem_stores src _).mpr
    ⟨b, hb, ch, hch, o, ho, p, hp, rfl⟩, x.dstOff_cpuPool⟩)
  obtain ⟨b', hb', ch', hch', o', ho', p', hp', rfl⟩ := (x.cpuPool.mem_stores src s).mp hs
  have hsame := rowMajor_injective (x.inside_out hb' hch' ho' hp') (x.inside_out hb hch ho hp)
    (x.dstOff_cpuPool.symm.trans haddr)
  have hparts : b' = b ∧ ch' = ch ∧ o' = o ∧ p' = p := by
    revert hsame
    cases x.pool.layout <;> simp only [arrange, List.cons.injEq] <;> tauto
  obtain ⟨rfl, rfl, rfl, rfl⟩ := hparts
  rfl

end Kernel

/-! ### Which kernels are right -/

namespace Kernel

variable (x : Kernel) {b ch o p : Nat}

/-- The positions that a window on the GPU covers: those without the dilation. -/
def flatWindow (o p : Nat) : Finset (Nat × Nat) := (flat x.h).positions o ×ˢ (flat x.w).positions p

/-- No thread overflows. -/
def Fits : Prop := ∀ gid < x.cudaPool.size, x.cudaPool.FitsAt gid

/-- Without the dilation the windows cover the same positions. -/
def FlatWindows : Prop := ∀ o < x.oh, ∀ p < x.ow, x.flatWindow o p = x.window o p

/-- On the GPU the kernel takes the mean, no thread overflows, and the dilation does not matter. -/
def Sound : Prop := x.backend = .cuda → x.mode = .avg ∧ x.Fits ∧ x.FlatWindows

/-- On the GPU no thread overflows and the dilation does not matter. -/
def Regular : Prop := x.backend = .cuda → x.Fits ∧ x.FlatWindows

/-- On the GPU no maximum is below the least positive normal number. -/
def SoundOn (src : Nat → ℚ) : Prop :=
  x.backend = .cuda → x.mode = .max → ∀ b < x.n, ∀ ch < x.c, ∀ o < x.oh, ∀ p < x.ow,
    (numericLimitsMin x.elemType : Value) ≤ x.reduce src b ch (x.window o p)

instance : Decidable x.Fits := inferInstanceAs (Decidable (∀ gid < _, _))

/-- What the kernel leaves for an element of the output. -/
def result (src : Nat → ℚ) (b ch o p : Nat) : Value :=
  match x.backend with
  | .cpu => x.reduce src b ch (x.window o p)
  | .cuda =>
      match x.mode with
      | .max => (numericLimitsMin x.elemType : Value) ⊔ x.reduce src b ch (x.flatWindow o p)
      | .avg => x.reduce src b ch (x.flatWindow o p)

/-- What the loops of the CPU find. -/
theorem value_cpuPool_eq (src : Nat → ℚ) :
    x.cpuPool.value src b ch o p = x.reduce src b ch (x.window o p) := by
  rw [value_cpuPool]
  unfold reduce window CpuPool.initVal cpuPool
  cases x.mode with
  | max =>
      rw [finish_max]
      exact bot_sup_eq _
  | avg => exact finish_avg x.kernelHPos x.kernelWPos _

/-- What a thread finds. -/
theorem value_cudaPool_eq (src : Nat → ℚ) (hcuda : x.backend = .cuda) (hch : ch < x.c) (ho : o < x.oh)
    (hp : p < x.ow) : x.cudaPool.value src (x.outAt b ch o p) = x.result src b ch o p := by
  rw [x.value_cudaPool src hch ho hp]
  unfold result reduce flatWindow CudaPool.start cudaPool
  rw [hcuda]
  dsimp only
  cases x.mode with
  | max => exact finish_max _
  | avg => exact finish_avg (v := flat x.h) (w := flat x.w) x.kernelHPos x.kernelWPos _

/-- The kernel leaves its results, unless a thread overflows. -/
theorem run_eq_some {src : Nat → ℚ} {dst out : Nat → Value} (h : x.run src dst = some out) :
    (x.backend = .cuda → x.Fits) ∧ ∀ b < x.n, ∀ ch < x.c, ∀ o < x.oh, ∀ p < x.ow,
      out (x.outAt b ch o p) = x.result src b ch o p := by
  unfold run at h
  cases hbackend : x.backend with
  | cpu =>
      rw [hbackend] at h
      dsimp only at h
      rw [cpuPool_build, Option.map_some, Option.some_inj] at h
      refine ⟨nofun, fun b hb ch hch o ho p hp => ?_⟩
      rw [← h, x.run_cpuPool src dst hb hch ho hp, value_cpuPool_eq]
      unfold result
      rw [hbackend]
  | cuda =>
      rw [hbackend] at h
      dsimp only at h
      rw [cudaPool_build, Option.bind_some, CudaPool.run, Option.ite_none_right_eq_some, Option.some_inj] at h
      obtain ⟨hfits, rfl⟩ := h
      refine ⟨fun _ => hfits, fun b hb ch hch o ho p hp => ?_⟩
      have hgid : x.outAt b ch o p < x.cudaPool.size := by
        rw [size_cudaPool]
        exact rowMajor_lt (x.inside_out hb hch ho hp)
      dsimp only
      rw [if_pos hgid, x.value_cudaPool_eq src hbackend hch ho hp]

theorem exists_run (hfits : x.backend = .cuda → x.Fits) (src : Nat → ℚ) (dst : Nat → Value) :
    ∃ out, x.run src dst = some out := by
  unfold run
  cases hbackend : x.backend with
  | cpu =>
      refine ⟨x.cpuPool.run src dst, ?_⟩
      dsimp only
      rw [cpuPool_build, Option.map_some]
  | cuda =>
      refine ⟨fun p => if p < x.cudaPool.size then x.cudaPool.value src p else dst p, ?_⟩
      dsimp only
      rw [cudaPool_build, Option.bind_some, CudaPool.run]
      exact if_pos (hfits hbackend)

theorem correct_iff {src : Nat → ℚ} : x.Correct src ↔ (x.backend = .cuda → x.Fits) ∧
    ∀ b < x.n, ∀ ch < x.c, ∀ o < x.oh, ∀ p < x.ow,
      x.result src b ch o p = x.reduce src b ch (x.window o p) := by
  constructor
  · intro h
    obtain ⟨out, hrun, hout⟩ := h fun _ => ⊥
    obtain ⟨hfits, hresult⟩ := x.run_eq_some hrun
    exact ⟨hfits, fun b hb ch hch o ho p hp => (hresult b hb ch hch o ho p hp).symm.trans (hout b hb ch hch o ho p hp)⟩
  · rintro ⟨hfits, hsame⟩ dst
    obtain ⟨out, hrun⟩ := x.exists_run hfits src dst
    exact ⟨out, hrun, fun b hb ch hch o ho p hp =>
      ((x.run_eq_some hrun).2 b hb ch hch o ho p hp).trans (hsame b hb ch hch o ho p hp)⟩

/-- With windows that do not change, a kernel is right where its maxima are not too small. -/
theorem correct_iff_soundOn (h : x.Regular) (src : Nat → ℚ) : x.Correct src ↔ x.SoundOn src := by
  rw [correct_iff]
  unfold SoundOn result
  cases hbackend : x.backend with
  | cpu => exact iff_of_true ⟨nofun, fun _ _ _ _ _ _ _ _ => rfl⟩ nofun
  | cuda =>
      obtain ⟨hfits, hflat⟩ := h hbackend
      cases hmode : x.mode with
      | avg =>
          refine iff_of_true ⟨fun _ => hfits, fun b _ ch _ o ho p hp => ?_⟩ nofun
          dsimp only
          rw [hflat o ho p hp]
      | max =>
          dsimp only
          rw [and_iff_right fun _ => hfits, forall_prop_of_true rfl, forall_prop_of_true rfl]
          refine forall₂_congr fun b _ => forall₂_congr fun ch _ => forall₂_congr fun o ho =>
            forall₂_congr fun p hp => ?_
          rw [hflat o ho p hp, sup_eq_right]

/-- An element of one, the others zero. -/
def single (i : Nat) : Nat → ℚ := fun j => if j = i then 1 else 0

/-- The mean of such elements tells which positions a window covers. -/
theorem reduce_single_iff {q : Finset (Nat × Nat)} {i j : Nat}
    (hmode : x.mode = .avg) (hq : ∀ r ∈ q, x.inAt b ch r.1 r.2 = x.inAt b ch i j → r = (i, j)) :
    x.reduce (single (x.inAt b ch i j)) b ch q = 0 ↔ (i, j) ∉ q := by
  unfold reduce
  rw [hmode]
  dsimp only
  have hsum : ∑ r ∈ q, single (x.inAt b ch i j) (x.inAt b ch r.1 r.2) = if (i, j) ∈ q then 1 else 0 := by
    rw [← Finset.sum_ite_eq' q (i, j) fun _ => (1 : ℚ)]
    refine Finset.sum_congr rfl fun r hr => ?_
    unfold single
    refine if_congr ⟨hq r hr, ?_⟩ rfl rfl
    rintro rfl
    rfl
  rw [hsum, ← WithBot.coe_zero, WithBot.coe_inj]
  split
  · rename_i hmem
    have hcard : (q.card : ℚ) ≠ 0 := Nat.cast_ne_zero.mpr (Finset.card_ne_zero_of_mem hmem)
    simp [hmem, hcard]
  · rename_i hmem
    simp [hmem]

theorem inAt_injective {i j i' j' : Nat} (hb : b < x.n) (hch : ch < x.c) (hi : i < x.h.size) (hj : j < x.w.size)
    (hi' : i' < x.h.size) (hj' : j' < x.w.size) (h : x.inAt b ch i j = x.inAt b ch i' j') : (i, j) = (i', j') := by
  have hinside {r s : Nat} (hr : r < x.h.size) (hs : s < x.w.size) :
      Inside (arrange x.pool.layout b ch r s) x.inDims := by
    unfold inDims
    cases x.pool.layout with
    | NCHW => exact .cons hb (.cons hch (.cons hr (.cons hs .nil)))
    | NHWC => exact .cons hb (.cons hr (.cons hs (.cons hch .nil)))
  have hsame := rowMajor_injective (hinside hi hj) (hinside hi' hj') h
  revert hsame
  cases x.pool.layout <;> simp only [arrange, List.cons.injEq, Prod.mk.injEq] <;> tauto

/-- The kernels that are right on all inputs. -/
theorem correct_forall_iff : (∀ src, x.Correct src) ↔ x.Sound := by
  constructor
  · intro h hcuda
    obtain ⟨hfits, -⟩ := x.correct_iff.mp (h fun _ => 0)
    have hresult (src : Nat → ℚ) := (x.correct_iff.mp (h src)).2
    have hmode : x.mode = .avg := by
      by_contra hne
      have hmax : x.mode = .max := by
        cases hm : x.mode with
        | max => rfl
        | avg => exact absurd hm hne
      -- all elements are less than the least positive number
      have hfirst := hresult (fun _ => numericLimitsMin x.elemType - 1) 0 x.nPos 0 x.cPos 0 x.ohPos 0 x.owPos
      unfold result at hfirst
      rw [hcuda, hmax] at hfirst
      have hle : (numericLimitsMin x.elemType : Value) ≤
          x.reduce (fun _ => numericLimitsMin x.elemType - 1) 0 0 (x.window 0 0) := hfirst ▸ le_sup_left
      have hsmall : x.reduce (fun _ => numericLimitsMin x.elemType - 1) 0 0 (x.window 0 0) ≤
          ((numericLimitsMin x.elemType - 1 : ℚ) : Value) := by
        unfold reduce
        rw [hmax]
        exact Finset.sup_le fun _ _ => le_rfl
      have hcontra := WithBot.coe_le_coe.mp (hle.trans hsmall)
      linarith
    refine ⟨hmode, hfits hcuda, fun o ho p hp => ?_⟩
    have hinside (a c : Axis) (ha : a.size = x.h.size) (hc : c.size = x.w.size) :
        ∀ r ∈ a.positions o ×ˢ c.positions p, r.1 < x.h.size ∧ r.2 < x.w.size := by
      intro r hr
      rw [Finset.mem_product, Axis.mem_positions, Axis.mem_positions] at hr
      exact ⟨ha ▸ hr.1.1, hc ▸ hr.2.1⟩
    have hflat := hinside (flat x.h) (flat x.w) rfl rfl
    have htrue := hinside x.h x.w rfl rfl
    have hiff (i j : Nat) (hi : i < x.h.size) (hj : j < x.w.size) :
        (i, j) ∈ x.flatWindow o p ↔ (i, j) ∈ x.window o p := by
      have hsame := hresult (single (x.inAt 0 0 i j)) 0 x.nPos 0 x.cPos o ho p hp
      unfold result at hsame
      rw [hcuda, hmode] at hsame
      dsimp only at hsame
      have hleft := x.reduce_single_iff (q := x.flatWindow o p) hmode fun r hr h =>
        x.inAt_injective x.nPos x.cPos (hflat r hr).1 (hflat r hr).2 hi hj h
      have hright := x.reduce_single_iff (q := x.window o p) hmode fun r hr h =>
        x.inAt_injective x.nPos x.cPos (htrue r hr).1 (htrue r hr).2 hi hj h
      rw [hsame, hright] at hleft
      exact (not_iff_not.mp hleft).symm
    ext ⟨i, j⟩
    constructor
    · exact fun hmem => (hiff i j (hflat _ hmem).1 (hflat _ hmem).2).mp hmem
    · exact fun hmem => (hiff i j (htrue _ hmem).1 (htrue _ hmem).2).mpr hmem
  · intro h src
    refine (x.correct_iff_soundOn (fun hcuda => (h hcuda).2) src).mpr fun hcuda hmax => ?_
    rw [(h hcuda).1] at hmax
    cases hmax

end Kernel

/-- A window of one place, on one element, on the GPU. -/
def onePlace (mode : Mode) : Kernel :=
  { backend := .cuda, mode, elemType := .F32
    pool := {
      pad := .notSet defaultPad, ceilMode := false, dilations := ⟨none, 1⟩, kernelShape := .new [1, 1]
      strides := ⟨none, 1⟩, layout := .NCHW }
    pads := defaultPad, n := 1, c := 1, h := ⟨1, 1, 1, 1, 0⟩, w := ⟨1, 1, 1, 1, 0⟩, oh := 1, ow := 1
    padEq := rfl, kernelShape := rfl, strideH := rfl, strideW := rfl, dilationH := rfl, dilationW := rfl
    padH := rfl, padW := rfl, nPos := by decide, cPos := by decide, ohPos := by decide, owPos := by decide
    kernelHPos := by decide, kernelWPos := by decide }

end PoolKernel
end NnEngine
