import NnEngine.Codegen.CpuGemm

/-!
# What the matrix products on the CPU compute

A kernel of `Gemm` takes its inner dimension from the second axis of the first operand, also where the
operand is transposed; a loop of `MatMul` adds its offsets twice; and the loop of a `BatchedGemm` of bf16 is
entered from a block that its counter does not know: `cpuKernel_computes_iff`.
-/

namespace NnEngine
namespace CpuGemm

open Blas

/-! ### Matrices -/

/-- The type of a matrix that is stored by rows, or by columns after its axes were swapped. -/
def matrixType (t : FloatType) (swapped : Bool) (rows cols : Nat) : ResolvedTensorType :=
  { elemType := .float t, dims := [rows, cols]
    stride := if swapped then (calcStride [cols, rows]).reverse else calcStride [rows, cols] }

/-- The comparison of the strides that flips the transposition. -/
def flips (swapped : Bool) (rows cols : Nat) : Bool :=
  if swapped then decide (cols ≠ 1) else decide (rows = 1 ∧ cols ≠ 1)

section MatrixType

variable (t : FloatType) (swapped : Bool) {rows cols r c : Nat}

theorem calcStride_pair (a b : Nat) :
    calcStride [a, b] = [if a = 1 then 0 else b, if b = 1 then 0 else 1] := by
  simp [calcStride]

theorem stride_lt (hrows : 0 < rows) (hcols : 0 < cols) :
    ∃ s0 s1, (matrixType t swapped rows cols).stride = [s0, s1] ∧
      (s0 < s1 ↔ flips swapped rows cols = true) := by
  cases swapped with
  | false =>
      refine ⟨_, _, calcStride_pair rows cols, ?_⟩
      show _ ↔ decide (rows = 1 ∧ cols ≠ 1) = true
      rw [decide_eq_true_iff]
      split <;> split <;> omega
  | true =>
      refine ⟨_, _, congrArg List.reverse (calcStride_pair cols rows), ?_⟩
      show _ ↔ decide (cols ≠ 1) = true
      rw [decide_eq_true_iff]
      split <;> split <;> omega

/-- The address of an entry is the one that the flag stands for. -/
theorem elementAt_matrixType (hr : r < rows) (hc : c < cols) :
    elementAt (matrixType t swapped rows cols).stride [r, c] =
      if flips swapped rows cols then c * rows + r else r * cols + c := by
  have hsum (s0 s1 : Nat) : elementAt [s0, s1] [r, c] = r * s0 + c * s1 := by simp [elementAt]
  have hr0 (h : rows = 1) : r = 0 := by omega
  have hc0 (h : cols = 1) : c = 0 := by omega
  cases swapped with
  | false =>
      show elementAt (calcStride [rows, cols]) [r, c] = if decide (rows = 1 ∧ cols ≠ 1) = true then _ else _
      rw [calcStride_pair, hsum]
      by_cases h1 : rows = 1 <;> by_cases h2 : cols = 1 <;> simp [h1, h2, hr0, hc0]
  | true =>
      show elementAt (calcStride [cols, rows]).reverse [r, c] = if decide (cols ≠ 1) = true then _ else _
      rw [calcStride_pair]
      show elementAt [_, _] [r, c] = _
      rw [hsum]
      by_cases h1 : rows = 1 <;> by_cases h2 : cols = 1 <;> simp [h1, h2, hr0, hc0, Nat.add_comm]

end MatrixType

/-- A whole operand. -/
def TensorPtr.operand (o : Operand) (ty : ResolvedTensorType) : TensorPtr :=
  { ptr := { buf := o, pos := 0 }, ty, offset := 0 }

namespace TensorPtr

variable {o : Operand} {ty : ResolvedTensorType}

@[simp] theorem operand_ty : (operand o ty).ty = ty := rfl

@[simp] theorem buildGep_operand : buildGep (operand o ty) = ⟨o, 0⟩ := rfl

@[simp] theorem workspaceOffset_operand (n : Nat) : workspaceOffset (operand o ty) n = ⟨o, n⟩ := by
  simp [workspaceOffset, operand]

end TensorPtr

/-! ### `Gemm` -/

/-- A kernel of `Gemm` whose product has `m` rows and `n` columns and adds up `k` products.  Its factors are
stored by rows or by columns, and its third operand has the shape of the product. -/
structure GemmKernel (R : Type) where
  gemm : Gemm R
  elemType : FloatType
  m : Nat
  n : Nat
  k : Nat
  mPos : 0 < m
  nPos : 0 < n
  kPos : 0 < k
  swappedA : Bool
  swappedB : Bool
  cStride : Option (Nat × Nat)

namespace GemmKernel

variable {R : Type} (x : GemmKernel R)

def aType : ResolvedTensorType :=
  if x.gemm.transA then matrixType x.elemType x.swappedA x.k x.m else matrixType x.elemType x.swappedA x.m x.k

def bType : ResolvedTensorType :=
  if x.gemm.transB then matrixType x.elemType x.swappedB x.n x.k else matrixType x.elemType x.swappedB x.k x.n

def cType : Option ResolvedTensorType :=
  x.cStride.map fun s => { elemType := .float x.elemType, dims := [x.m, x.n], stride := [s.1, s.2] }

def outType : ResolvedTensorType := .new (.float x.elemType) [x.m, x.n]

/-- The workspace that the scheduler appends. -/
def workspaceType : Option ResolvedTensorType :=
  if x.elemType = .BF16 then
    some (.new (.float .F32)
      [ResolvedTensorDims.size x.aType.dims + ResolvedTensorDims.size x.bType.dims +
        ResolvedTensorDims.size x.outType.dims])
  else none

/-- The elements that an operand holds. -/
def size : Operand → Nat
  | .dst => x.m * x.n
  | .a => x.m * x.k
  | .b => x.k * x.n
  | .c => x.cStride.elim 0 fun s => lastElement [x.m, x.n] [s.1, s.2] + 1
  | .workspace => if x.elemType = .BF16 then x.m * x.k + x.k * x.n + x.m * x.n else 0

section Run

variable [CommSemiring R] [DecidableEq R]

def build : Option (Block × List (Instr R)) :=
  buildGemm (.operand .dst x.outType) (.operand .a x.aType) (.operand .b x.bType)
    (x.cType.map (.operand .c)) (x.workspaceType.map (.operand .workspace)) .start x.gemm

/-- The memory after the kernel. -/
def run (μ : Memory Operand R) : Option (Memory Operand R) :=
  x.build.bind fun code => exec x.size code.2 μ

/-- Entry `i`, `j` of `alpha * op(A) * op(B) + beta * C`. -/
def product (μ : Memory Operand R) (i j : Nat) : R :=
  x.gemm.alpha * ∑ l ∈ Finset.range x.k,
      μ .a (elementAt x.aType.stride (if x.gemm.transA then [l, i] else [i, l])) *
        μ .b (elementAt x.bType.stride (if x.gemm.transB then [j, l] else [l, j])) +
    x.cStride.elim 0 fun s => x.gemm.beta * μ .c (i * s.1 + j * s.2)

/-- The kernel computes the product, and goes past the end of no operand. -/
def Computes : Prop :=
  ∀ μ, ∃ μ', x.run μ = some μ' ∧ ∀ i < x.m, ∀ j < x.n, μ' .dst (i * x.n + j) = x.product μ i j

end Run

/-- The inner dimension that the code takes: the second axis of the first operand. -/
def inner : Nat := if x.gemm.transA then x.m else x.k

/-- The sizes fit into the `i32` of BLAS, and the second axis of the first operand is the inner dimension. -/
def Sound [Zero R] : Prop :=
  (x.m < 2 ^ 31 ∧ x.n < 2 ^ 31 ∧ x.inner < 2 ^ 31) ∧
    (x.gemm.transA = true → x.m = x.k ∨ x.gemm.alpha = 0 ∧ (x.elemType = .BF16 → x.m ≤ x.k))

section Build

/-- The flag of the first factor after the comparison of its strides. -/
def flagA : Bool :=
  if x.gemm.transA then !flips x.swappedA x.k x.m else flips x.swappedA x.m x.k

/-- The flag of the second factor. -/
def flagB : Bool :=
  if x.gemm.transB then !flips x.swappedB x.n x.k else flips x.swappedB x.k x.n

/-- The flag that the code computes is the one for the strides. -/
theorem flag_of_stride (t : FloatType) (swapped trans : Bool) {rows cols : Nat} (hrows : 0 < rows)
    (hcols : 0 < cols) : ∃ s0 s1, (matrixType t swapped rows cols).stride = [s0, s1] ∧
      (if s0 < s1 then !trans else trans) = (trans ^^ flips swapped rows cols) := by
  obtain ⟨s0, s1, hs, hlt⟩ := stride_lt t swapped hrows hcols
  refine ⟨s0, s1, hs, ?_⟩
  simp only [hlt]
  cases flips swapped rows cols <;> simp

theorem aType_eq : ∃ s0 s1, x.aType.dims = [if x.gemm.transA then x.k else x.m, x.inner] ∧
    x.aType.stride = [s0, s1] ∧ (if s0 < s1 then !x.gemm.transA else x.gemm.transA) = x.flagA := by
  unfold aType flagA inner
  cases x.gemm.transA with
  | false =>
      obtain ⟨s0, s1, hs, hflag⟩ := flag_of_stride x.elemType _ false x.mPos x.kPos
      exact ⟨s0, s1, rfl, hs, by simpa using hflag⟩
  | true =>
      obtain ⟨s0, s1, hs, hflag⟩ := flag_of_stride x.elemType _ true x.kPos x.mPos
      exact ⟨s0, s1, rfl, hs, by simpa using hflag⟩

theorem bType_eq : ∃ d0 d1 s0 s1, x.bType.dims = [d0, d1] ∧
    x.bType.stride = [s0, s1] ∧ (if s0 < s1 then !x.gemm.transB else x.gemm.transB) = x.flagB := by
  unfold bType flagB
  cases x.gemm.transB with
  | false =>
      obtain ⟨s0, s1, hs, hflag⟩ := flag_of_stride x.elemType _ false x.kPos x.nPos
      exact ⟨_, _, s0, s1, rfl, hs, by simpa using hflag⟩
  | true =>
      obtain ⟨s0, s1, hs, hflag⟩ := flag_of_stride x.elemType _ true x.nPos x.kPos
      exact ⟨_, _, s0, s1, rfl, hs, by simpa using hflag⟩

variable [CommSemiring R]

/-- The factor of the operand that is added. -/
def beta : R := if x.cStride.isSome then x.gemm.beta else 0

/-- The arguments of the call of BLAS on matrices that begin at these elements. -/
def args (a b c : Pointer) : GemmArgs R :=
  { a := (a, x.flagA), b := (b, x.flagB), c, alpha := x.gemm.alpha, beta := x.beta
    m := x.m, n := x.n, k := x.inner }

/-- The copy of the operand that is added. -/
def copyC : List (Instr R) :=
  match x.cType with
  | some ty => (buildContiguous (.operand .dst x.outType) (.operand .c ty) .start).2
  | none => []

def wsA : Pointer := ⟨.workspace, 0⟩

def wsB : Pointer := ⟨.workspace, x.m * x.inner⟩

def wsC : Pointer := ⟨.workspace, x.m * x.inner + x.inner * x.n⟩

variable [DecidableEq R]

/-- The conversions before the call, and the code after them. -/
def loads (code : List (Instr R)) : List (Instr R) :=
  (convertBuf ⟨.a, 0⟩ wsA (x.m * x.inner) .start).2 ++
    ((convertBuf ⟨.b, 0⟩ x.wsB (x.inner * x.n) .start).2 ++
      ((if x.beta ≠ 0 then (convertBuf ⟨.dst, 0⟩ x.wsC (x.m * x.n) .start).2 else []) ++ code))

/-- The product in the workspace, and the product in place. -/
def body : List (Instr R) :=
  if x.elemType = .BF16 then
    x.loads (.call (x.args wsA x.wsB x.wsC).toCall ::
      ((convertBuf x.wsC ⟨.dst, 0⟩ (x.m * x.n) .start).2 ++ []))
  else [.call (x.args ⟨.a, 0⟩ ⟨.b, 0⟩ ⟨.dst, 0⟩).toCall]

/-- The sizes fit into the `i32` of BLAS. -/
def Fits : Prop := x.m < 2 ^ 31 ∧ x.n < 2 ^ 31 ∧ x.inner < 2 ^ 31

instance : Decidable x.Fits := inferInstanceAs (Decidable (_ ∧ _ ∧ _))

/-- The code that is emitted. -/
theorem build_eq : x.build.map Prod.snd = if x.Fits then some (x.copyC ++ x.body) else none := by
  obtain ⟨s0, s1, hdims, hstride, hflag⟩ := x.aType_eq
  obtain ⟨d0, d1, t0, t1, hdimsB, hstrideB, hflagB⟩ := x.bType_eq
  have hcall (a b c : Pointer) : (x.args a b c).call = if x.Fits then some (x.args a b c).toCall else none :=
    (x.args a b c).call_eq
  have hargs {r : R} (h : x.beta = r) (a b c : Pointer) :
      GemmArgs.mk (a, x.flagA) (b, x.flagB) c x.gemm.alpha r x.m x.n x.inner = x.args a b c := by
    rw [← h]
    rfl
  unfold build buildGemm
  cases hc : x.cStride with
  | none =>
      have hbeta : x.beta = 0 := by simp [beta, hc]
      by_cases hbf : x.elemType = .BF16 <;> by_cases hfits : x.Fits <;>
      simp [cType, hc, outType, ResolvedTensorType.new, hdims, hstride, hflag, hdimsB, hstrideB, hflagB,
        workspaceType, floatType, hbf, hargs hbeta, hcall, hfits, body, loads, copyC, hbeta]
      rfl
  | some s =>
      have hbeta : x.beta = x.gemm.beta := by simp [beta, hc]
      by_cases hzero : x.gemm.beta = 0
      · by_cases hbf : x.elemType = .BF16 <;> by_cases hfits : x.Fits <;>
        simp [cType, hc, outType, ResolvedTensorType.new, hdims, hstride, hflag, hdimsB, hstrideB, hflagB,
          workspaceType, floatType, hbf, hargs (hbeta.trans hzero), hcall, hfits, body, loads, copyC, hbeta, hzero]
        rfl
      · by_cases hbf : x.elemType = .BF16 <;> by_cases hfits : x.Fits <;>
        simp [cType, hc, outType, ResolvedTensorType.new, hdims, hstride, hflag, hdimsB, hstrideB, hflagB,
          workspaceType, floatType, hbf, hargs hbeta, hcall, hfits, body, loads, copyC, hbeta, hzero]
        rfl

/-- A product in place without a third operand, at any pointers. -/
theorem buildGemm_inPlace (dst a b : TensorPtr) (hc : x.cStride = none) (hdst : dst.ty = x.outType)
    (ha : a.ty = x.aType) (hb : b.ty = x.bType) (entry : Block) :
    (buildGemm dst a b none none entry x.gemm).map Prod.snd =
      if x.elemType ≠ .BF16 ∧ x.Fits then
        some [.call (x.args (buildGep a) (buildGep b) (buildGep dst)).toCall]
      else none := by
  obtain ⟨s0, s1, hdims, hstride, hflag⟩ := x.aType_eq
  obtain ⟨d0, d1, t0, t1, hdimsB, hstrideB, hflagB⟩ := x.bType_eq
  have hcall (a b c : Pointer) : (x.args a b c).call = if x.Fits then some (x.args a b c).toCall else none :=
    (x.args a b c).call_eq
  have hargs (a b c : Pointer) :
      GemmArgs.mk (a, x.flagA) (b, x.flagB) c x.gemm.alpha 0 x.m x.n x.inner = x.args a b c := by
    simp [args, beta, hc]
  unfold buildGemm
  by_cases hbf : x.elemType = .BF16 <;> by_cases hfits : x.Fits <;>
  simp [hdst, ha, hb, outType, ResolvedTensorType.new, hdims, hstride, hflag, hdimsB, hstrideB, hflagB,
    floatType, hbf, hargs, hcall, hfits]

theorem run_eq (μ : Memory Operand R) : x.run μ = if x.Fits then exec x.size (x.copyC ++ x.body) μ else none := by
  have hrun : x.run μ = (x.build.map Prod.snd).bind fun code => exec x.size code μ := by
    unfold run
    cases x.build <;> rfl
  rw [hrun, build_eq]
  split <;> rfl

end Build

/-! ### The run -/

section Run

/-- Where the code expects entry `i`, `l` of the first factor. -/
def addressA (i l : Nat) : Nat := entryAddress x.flagA (if !x.flagA then x.inner else x.m) i l

/-- Where the code expects entry `l`, `j` of the second factor. -/
def addressB (l j : Nat) : Nat := entryAddress x.flagB (if !x.flagB then x.n else x.inner) l j

theorem inner_pos : 0 < x.inner := by
  unfold inner
  split
  · exact x.mPos
  · exact x.kPos

variable [CommSemiring R] [DecidableEq R] {pa pb pc : Pointer} {size : Operand → Nat}
  {μ : Memory Operand R}


omit [DecidableEq R] in
theorem legal_args (pa pb pc : Pointer) : (x.args pa pb pc).toCall.Legal :=
  (x.args pa pb pc).legal_toCall x.mPos x.nPos x.inner_pos

omit [DecidableEq R] in
theorem inside_args : (x.args pa pb pc).toCall.Inside size ↔
    (∀ i < x.m, ∀ j < x.n, pc.pos + (i * x.n + j) < size pc.buf) ∧
      (x.gemm.alpha ≠ 0 → (∀ i < x.m, ∀ l < x.inner, pa.pos + x.addressA i l < size pa.buf) ∧
        ∀ l < x.inner, ∀ j < x.n, pb.pos + x.addressB l j < size pb.buf) :=
  (x.args pa pb pc).inside_toCall x.mPos x.nPos

omit [DecidableEq R] in
/-- The call leaves the product of what lies where the code expects the factors. -/
theorem result_args (pa pb pc : Pointer) {i j : Nat} (hi : i < x.m) (hj : j < x.n) :
    (x.args pa pb pc).toCall.result μ pc.buf (pc.pos + (i * x.n + j)) =
      x.gemm.alpha * ∑ l ∈ Finset.range x.inner,
          μ pa.buf (pa.pos + x.addressA i l) * μ pb.buf (pb.pos + x.addressB l j) +
        x.beta * μ pc.buf (pc.pos + (i * x.n + j)) :=
  (x.args pa pb pc).result_toCall x.mPos x.nPos x.inner_pos hi hj

/-- What the code finds for entry `i`, `j`. -/
def found (μ : Memory Operand R) (i j : Nat) : R :=
  x.gemm.alpha * ∑ l ∈ Finset.range x.inner, μ .a (x.addressA i l) * μ .b (x.addressB l j) +
    x.cStride.elim 0 fun s => x.gemm.beta * μ .c (i * s.1 + j * s.2)

omit [DecidableEq R] in
theorem elementAt_pair (s : Nat × Nat) (i j : Nat) : elementAt [s.1, s.2] [i, j] = i * s.1 + j * s.2 := by
  simp [elementAt]

/-- The copy of the third operand, if there is one. -/
theorem exec_copyC (code : List (Instr R)) : ∃ μ', exec x.size (x.copyC ++ code) μ = exec x.size code μ' ∧
    (∀ o ≠ .dst, μ' o = μ o) ∧ ∀ i < x.m, ∀ j < x.n, x.beta * μ' .dst (i * x.n + j) =
      x.cStride.elim 0 fun s => x.gemm.beta * μ .c (i * s.1 + j * s.2) := by
  cases hc : x.cStride with
  | none =>
      refine ⟨μ, by simp [copyC, cType, hc], fun _ _ => rfl, fun i _ j _ => ?_⟩
      simp [beta, hc]
  | some s =>
      have hpos : ∀ d ∈ [x.m, x.n], 0 < d := by simp [x.mPos, x.nPos]
      have hprod : [x.m, x.n].prod = x.m * x.n := by simp
      have hcount : max (ResolvedTensorDims.size [x.m, x.n]) 1 = x.m * x.n := by
        show max [x.m, x.n].prod 1 = _
        rw [hprod]
        exact Nat.max_eq_left (Nat.mul_pos x.mPos x.nPos)
      set index := Translator.buildContiguous x.outType
        { elemType := .float x.elemType, dims := [x.m, x.n], stride := [s.1, s.2] } [] with hindex
      have hentry : ∀ p < x.m * x.n, index p = elementAt [s.1, s.2] (multiIndex [x.m, x.n] p) := by
        intro p hp
        rw [hindex, Translator.buildContiguous_eq rfl hpos rfl (by rwa [← hprod] at hp)]
        rfl
      have hcopy : x.copyC (R := R) = [.copy ⟨.dst, 0⟩ ⟨.c, 0⟩ (x.m * x.n) index] := by
        simp only [copyC, cType, hc, Option.map_some]
        rw [← hcount]
        rfl
      have hinside : CopyInside x.size ⟨.dst, 0⟩ ⟨.c, 0⟩ (x.m * x.n) index := by
        intro p hp
        refine ⟨by simpa [size] using hp, ?_⟩
        have hle := elementAt_le_lastElement (multiIndex_lt hpos p) [s.1, s.2]
        rw [hentry p hp]
        simp only [size, hc, Option.elim_some]
        omega
      refine ⟨copied ⟨.dst, 0⟩ ⟨.c, 0⟩ (x.m * x.n) index μ, ?_, ?_, ?_⟩
      · rw [hcopy, List.singleton_append, exec_copy hinside]
      · intro o ho
        ext p
        exact copied_of_ne ho
      · intro i hi j hj
        have hlt := mul_add_lt hi hj
        have hidx : multiIndex [x.m, x.n] (i * x.n + j) = [i, j] := by
          have hrow : rowMajor [x.m, x.n] [i, j] = i * x.n + j := by simp [rowMajor]
          rw [← hrow]
          exact multiIndex_rowMajor (.cons hi (.cons hj .nil))
        have hread := copied_at ⟨.dst, 0⟩ ⟨.c, 0⟩ index μ hlt
        simp only [Nat.zero_add] at hread
        rw [hread, hentry _ hlt, hidx, elementAt_pair]
        simp [beta, hc]

/-- Nothing that the code reads lies past the end of its operand. -/
def Reads : Prop :=
  (x.elemType = .BF16 → x.inner ≤ x.k) ∧
    (x.gemm.alpha ≠ 0 → (∀ i < x.m, ∀ l < x.inner, x.addressA i l < x.m * x.k) ∧
      ∀ l < x.inner, ∀ j < x.n, x.addressB l j < x.k * x.n)

omit [CommSemiring R] [DecidableEq R] in
theorem addressA_lt {i l : Nat} (hi : i < x.m) (hl : l < x.inner) : x.addressA i l < x.m * x.inner :=
  entryAddress_lt hi hl

omit [CommSemiring R] [DecidableEq R] in
theorem addressB_lt {l j : Nat} (hl : l < x.inner) (hj : j < x.n) : x.addressB l j < x.inner * x.n :=
  entryAddress_lt hl hj

/-- The product in place. -/
theorem exec_inPlace (hreads : x.Reads) : ∃ μ',
    exec x.size [.call (x.args ⟨.a, 0⟩ ⟨.b, 0⟩ ⟨.dst, 0⟩).toCall] μ = some μ' ∧
      ∀ i < x.m, ∀ j < x.n, μ' .dst (i * x.n + j) =
        x.gemm.alpha * ∑ l ∈ Finset.range x.inner, μ .a (x.addressA i l) * μ .b (x.addressB l j) +
          x.beta * μ .dst (i * x.n + j) := by
  have hinside : (x.args ⟨.a, 0⟩ ⟨.b, 0⟩ ⟨.dst, 0⟩).toCall.Inside x.size := by
    rw [inside_args]
    simp only [Nat.zero_add]
    exact ⟨fun i hi j hj => mul_add_lt hi hj, hreads.2⟩
  refine ⟨(x.args ⟨.a, 0⟩ ⟨.b, 0⟩ ⟨.dst, 0⟩).toCall.result μ, ?_, fun i hi j hj => ?_⟩
  · rw [exec_cons, Instr.run, Call.run, if_pos ⟨x.legal_args _ _ _, hinside⟩]
    rfl
  · have hentry := x.result_args (μ := μ) ⟨.a, 0⟩ ⟨.b, 0⟩ ⟨.dst, 0⟩ hi hj
    simpa only [Nat.zero_add] using hentry

omit [CommSemiring R] [DecidableEq R] in
theorem size_workspace (hbf : x.elemType = .BF16) (hle : x.inner ≤ x.k) :
    x.m * x.inner + x.inner * x.n + x.m * x.n ≤ x.size .workspace := by
  have hA : x.m * x.inner ≤ x.m * x.k := Nat.mul_le_mul_left _ hle
  have hB : x.inner * x.n ≤ x.k * x.n := Nat.mul_le_mul_right _ hle
  have hsize : x.size .workspace = x.m * x.k + x.k * x.n + x.m * x.n := if_pos hbf
  omega

/-- The workspace holds the first factor, then the second one, then what the product is added to. -/
theorem exec_loads (hbf : x.elemType = .BF16) (hle : x.inner ≤ x.k) : ∃ μ' : Memory Operand R,
    (∀ code, exec x.size (x.loads code) μ = exec x.size code μ') ∧
      (∀ p < x.m * x.inner, μ' .workspace (0 + p) = μ .a p) ∧
      (∀ p < x.inner * x.n, μ' .workspace (x.m * x.inner + p) = μ .b p) ∧
      ∀ p < x.m * x.n, x.beta * μ' .workspace (x.m * x.inner + x.inner * x.n + p) = x.beta * μ .dst p := by
  have hA : x.m * x.inner ≤ x.m * x.k := Nat.mul_le_mul_left _ hle
  have hB : x.inner * x.n ≤ x.k * x.n := Nat.mul_le_mul_right _ hle
  have hsize := x.size_workspace hbf hle
  have hloadA : CopyInside x.size wsA ⟨.a, 0⟩ (x.m * x.inner) id := fun i hi =>
    ⟨by show 0 + i < x.size .workspace; omega, by show 0 + i < x.m * x.k; omega⟩
  have hloadB : CopyInside x.size x.wsB ⟨.b, 0⟩ (x.inner * x.n) id := fun i hi =>
    ⟨by show x.m * x.inner + i < x.size .workspace; omega, by show 0 + i < x.k * x.n; omega⟩
  have hloadC : CopyInside x.size x.wsC ⟨.dst, 0⟩ (x.m * x.n) id := fun i hi =>
    ⟨by show x.m * x.inner + x.inner * x.n + i < x.size .workspace; omega, by show 0 + i < x.m * x.n; omega⟩
  set μ1 := copied wsA ⟨.a, 0⟩ (x.m * x.inner) id μ with hμ1
  set μ2 := copied x.wsB ⟨.b, 0⟩ (x.inner * x.n) id μ1 with hμ2
  have hfirst : ∀ p < x.m * x.inner, μ2 .workspace (0 + p) = μ .a p := by
    intro p hp
    have hcopy := copied_at wsA ⟨.a, 0⟩ id μ hp
    rw [hμ2, copied_of_outside (.inl (by show 0 + p < x.m * x.inner; omega))]
    refine hcopy.trans ?_
    simp
  have hsecond : ∀ p < x.inner * x.n, μ2 .workspace (x.m * x.inner + p) = μ .b p := by
    intro p hp
    have hcopy := copied_at x.wsB ⟨.b, 0⟩ id μ1 hp
    refine hcopy.trans ?_
    rw [hμ1, copied_of_ne (by decide)]
    simp
  have hrun (code : List (Instr R)) : exec x.size (x.loads code) μ =
      exec x.size ((if x.beta ≠ 0 then (convertBuf ⟨.dst, 0⟩ x.wsC (x.m * x.n) .start).2 else []) ++ code)
        μ2 := by
    unfold loads
    rw [exec_convertBuf hloadA, exec_convertBuf hloadB]
  by_cases hbeta : x.beta = 0
  · refine ⟨μ2, fun code => ?_, hfirst, hsecond, fun p _ => by rw [hbeta, zero_mul, zero_mul]⟩
    rw [hrun, if_neg (not_not.mpr hbeta), List.nil_append]
  · refine ⟨copied x.wsC ⟨.dst, 0⟩ (x.m * x.n) id μ2, fun code => ?_, ?_, ?_, ?_⟩
    · rw [hrun, if_pos hbeta, exec_convertBuf hloadC]
    · intro p hp
      rw [copied_of_outside (.inl (by show 0 + p < x.m * x.inner + x.inner * x.n; omega))]
      exact hfirst p hp
    · intro p hp
      rw [copied_of_outside (.inl (by show x.m * x.inner + p < x.m * x.inner + x.inner * x.n; omega))]
      exact hsecond p hp
    · intro p hp
      have hcopy := copied_at x.wsC ⟨.dst, 0⟩ id μ2 hp
      refine congrArg (x.beta * ·) (hcopy.trans ?_)
      rw [hμ2, copied_of_ne (by show Operand.dst ≠ .workspace; decide), hμ1, copied_of_ne (by decide)]
      simp

/-- The product in the workspace. -/
theorem exec_inWorkspace (hbf : x.elemType = .BF16) (hreads : x.Reads) : ∃ μ',
    exec x.size (x.loads (.call (x.args wsA x.wsB x.wsC).toCall ::
      ((convertBuf x.wsC ⟨.dst, 0⟩ (x.m * x.n) .start).2 ++ []))) μ = some μ' ∧
      ∀ i < x.m, ∀ j < x.n, μ' .dst (i * x.n + j) =
        x.gemm.alpha * ∑ l ∈ Finset.range x.inner, μ .a (x.addressA i l) * μ .b (x.addressB l j) +
          x.beta * μ .dst (i * x.n + j) := by
  have hsize := x.size_workspace hbf (hreads.1 hbf)
  obtain ⟨μ', hloads, hfirst, hsecond, hthird⟩ := x.exec_loads (μ := μ) hbf (hreads.1 hbf)
  have hinside : (x.args wsA x.wsB x.wsC).toCall.Inside x.size := by
    rw [inside_args]
    refine ⟨fun i hi j hj => ?_, fun _ => ⟨fun i hi l hl => ?_, fun l hl j hj => ?_⟩⟩
    · have hlt := mul_add_lt hi hj
      show x.m * x.inner + x.inner * x.n + _ < x.size .workspace
      omega
    · have hlt := x.addressA_lt hi hl
      show 0 + _ < x.size .workspace
      omega
    · have hlt := x.addressB_lt hl hj
      show x.m * x.inner + _ < x.size .workspace
      omega
  have hstore : CopyInside x.size ⟨.dst, 0⟩ x.wsC (x.m * x.n) id := fun i hi =>
    ⟨by show 0 + i < x.m * x.n; omega, by show x.m * x.inner + x.inner * x.n + i < x.size .workspace; omega⟩
  set μ4 := (x.args wsA x.wsB x.wsC).toCall.result μ' with hμ4
  refine ⟨copied ⟨.dst, 0⟩ x.wsC (x.m * x.n) id μ4, ?_, fun i hi j hj => ?_⟩
  · rw [hloads, exec_cons, Instr.run, Call.run, if_pos ⟨x.legal_args _ _ _, hinside⟩, Option.bind_some,
      exec_convertBuf hstore, exec_nil]
  · have hlt := mul_add_lt hi hj
    have hcopy := copied_at ⟨.dst, 0⟩ x.wsC id μ4 hlt
    simp only [Nat.zero_add, id_eq] at hcopy
    refine hcopy.trans ((x.result_args wsA x.wsB x.wsC hi hj).trans ?_)
    congr 1
    · congr 1
      refine Finset.sum_congr rfl fun l hl => ?_
      have hl' := Finset.mem_range.mp hl
      exact congrArg₂ (· * ·) (hfirst _ (x.addressA_lt hi hl')) (hsecond _ (x.addressB_lt hl' hj))
    · exact hthird _ hlt

theorem run_of_reads (hfits : x.Fits) (hreads : x.Reads) : ∃ μ', x.run μ = some μ' ∧
    ∀ i < x.m, ∀ j < x.n, μ' .dst (i * x.n + j) = x.found μ i j := by
  obtain ⟨μ₁, hcopy, hframe, hadd⟩ := x.exec_copyC (μ := μ) x.body
  have hrun : x.run μ = exec x.size x.body μ₁ := by rw [run_eq, if_pos hfits, hcopy]
  obtain ⟨μ', hexec, hentry⟩ : ∃ μ', x.run μ = some μ' ∧ ∀ i < x.m, ∀ j < x.n, μ' .dst (i * x.n + j) =
      x.gemm.alpha * ∑ l ∈ Finset.range x.inner, μ₁ .a (x.addressA i l) * μ₁ .b (x.addressB l j) +
        x.beta * μ₁ .dst (i * x.n + j) := by
    rw [hrun, body]
    split
    · rename_i hbf
      exact x.exec_inWorkspace hbf hreads
    · exact x.exec_inPlace hreads
  refine ⟨μ', hexec, fun i hi j hj => ?_⟩
  rw [hentry i hi j hj, hframe .a (by decide), hframe .b (by decide), hadd i hi j hj]
  rfl

theorem reads_of_run {μ' : Memory Operand R} (h : x.run μ = some μ') : x.Fits ∧ x.Reads := by
  rw [run_eq] at h
  by_cases hfits : x.Fits
  · obtain ⟨μ₁, hcopy, -, -⟩ := x.exec_copyC (μ := μ) x.body
    rw [if_pos hfits, hcopy, body] at h
    refine ⟨hfits, ?_⟩
    split at h
    · rename_i hbf
      -- the conversion of the first factor stays inside it
      have hle : x.inner ≤ x.k := by
        by_contra hlt
        have hmore : x.m * x.k < x.m * x.inner := Nat.mul_lt_mul_of_pos_left (by omega) x.mPos
        have hpast : ¬ CopyInside x.size wsA ⟨.a, 0⟩ (x.m * x.inner) id := fun hin => by
          have hlast := (hin (x.m * x.k) hmore).2
          change 0 + x.m * x.k < x.m * x.k at hlast
          omega
        rw [loads, exec_convertBuf_none hpast] at h
        cases h
      refine ⟨fun _ => hle, fun _ => ⟨fun i hi l hl => ?_, fun l hl j hj => ?_⟩⟩
      · exact (x.addressA_lt hi hl).trans_le (Nat.mul_le_mul_left _ hle)
      · exact (x.addressB_lt hl hj).trans_le (Nat.mul_le_mul_right _ hle)
    · rename_i hbf
      refine ⟨fun hne => absurd hne hbf, ?_⟩
      rw [exec_cons] at h
      obtain ⟨_, hcall, -⟩ := Option.bind_eq_some_iff.mp h
      have hinside := x.inside_args.mp (Call.run_eq_some.mp hcall).2.1
      simp only [Nat.zero_add] at hinside
      exact hinside.2
  · rw [if_neg hfits] at h
    cases h

end Run

section Sound

/-- The strides of the first factor are those of the flag. -/
theorem elementAt_aType {i l : Nat} (hi : i < x.m) (hl : l < x.k) :
    elementAt x.aType.stride (if x.gemm.transA then [l, i] else [i, l]) =
      entryAddress x.flagA (if !x.flagA then x.k else x.m) i l := by
  unfold aType flagA entryAddress
  cases x.gemm.transA with
  | false =>
      simp only [Bool.false_eq_true, if_false]
      rw [elementAt_matrixType _ _ hi hl]
      cases flips x.swappedA x.m x.k <;> rfl
  | true =>
      simp only [if_true]
      rw [elementAt_matrixType _ _ hl hi]
      cases flips x.swappedA x.k x.m <;> rfl

/-- The strides of the second factor are those of the flag. -/
theorem elementAt_bType {l j : Nat} (hl : l < x.k) (hj : j < x.n) :
    elementAt x.bType.stride (if x.gemm.transB then [j, l] else [l, j]) =
      entryAddress x.flagB (if !x.flagB then x.n else x.k) l j := by
  unfold bType flagB entryAddress
  cases x.gemm.transB with
  | false =>
      simp only [Bool.false_eq_true, if_false]
      rw [elementAt_matrixType _ _ hl hj]
      cases flips x.swappedB x.k x.n <;> rfl
  | true =>
      simp only [if_true]
      rw [elementAt_matrixType _ _ hj hl]
      cases flips x.swappedB x.n x.k <;> rfl

variable [CommSemiring R] [DecidableEq R]

omit [DecidableEq R] in
/-- With the right inner dimension the code finds the product. -/
theorem found_eq (hinner : x.inner = x.k) {μ : Memory Operand R} {i j : Nat} (hi : i < x.m) (hj : j < x.n) :
    x.found μ i j = x.product μ i j := by
  unfold found product
  congr 2
  rw [hinner]
  refine Finset.sum_congr rfl fun l hl => ?_
  have hl' := Finset.mem_range.mp hl
  rw [x.elementAt_aType hi hl', x.elementAt_bType hl' hj, addressA, addressB, hinner]

/-- The product has an entry that needs the last element of the first factor. -/
theorem alpha_eq_zero (h : x.Computes) (htrans : x.gemm.transA = true) (hne : x.m ≠ x.k) :
    x.gemm.alpha = 0 := by
  by_contra halpha
  have hm := x.mPos
  have hinner : x.inner = x.m := by simp [inner, htrans]
  have hreads : x.Reads := by
    obtain ⟨μ', hrun, -⟩ := h fun _ _ => 0
    exact (x.reads_of_run hrun).2
  -- the rows are read as if they had as many elements as there are rows
  have hlt : x.m < x.k := by
    have hlast := (hreads.2 halpha).1 (x.m - 1) (by omega) (x.m - 1) (by omega)
    have haddr : x.addressA (x.m - 1) (x.m - 1) = x.m * x.m - 1 := by
      rw [addressA, hinner]
      exact (entryAddress_last hm (by omega)).mpr rfl
    have hle : x.m * x.m ≤ x.m * x.k := by omega
    exact Nat.lt_of_le_of_ne (Nat.le_of_mul_le_mul_left hle hm) hne
  let μ : Memory Operand R := fun o p =>
    match o with
    | .a => if p = x.m * x.k - 1 then 1 else 0
    | .b => 1
    | _ => 0
  obtain ⟨μ', hrun, hentry⟩ := h μ
  obtain ⟨hfits, -⟩ := x.reads_of_run hrun
  obtain ⟨μ'', hrun', hfound⟩ := x.run_of_reads (μ := μ) hfits hreads
  obtain rfl := Option.some.inj (hrun.symm.trans hrun')
  have hsame : x.found μ (x.m - 1) 0 = x.product μ (x.m - 1) 0 :=
    (hfound _ (by omega) _ x.nPos).symm.trans (hentry _ (by omega) _ x.nPos)
  have hfoundZero : x.found μ (x.m - 1) 0 = 0 := by
    have hc : x.cStride.elim 0 (fun s => x.gemm.beta * μ .c ((x.m - 1) * s.1 + 0 * s.2)) = 0 := by
      cases x.cStride <;> simp [μ]
    rw [found, hc, Finset.sum_eq_zero, mul_zero, add_zero]
    intro l hl
    have haddr := x.addressA_lt (i := x.m - 1) (by omega) (Finset.mem_range.mp hl)
    have hle : x.m * x.inner ≤ x.m * (x.k - 1) := Nat.mul_le_mul_left _ (by omega)
    rw [Nat.mul_sub_one] at hle
    have hzero : μ .a (x.addressA (x.m - 1) l) = 0 := if_neg (by omega)
    rw [hzero, zero_mul]
  have hproduct : x.product μ (x.m - 1) 0 = x.gemm.alpha := by
    have hc : x.cStride.elim 0 (fun s => x.gemm.beta * μ .c ((x.m - 1) * s.1 + 0 * s.2)) = 0 := by
      cases x.cStride <;> simp [μ]
    rw [product, hc, Finset.sum_eq_single (x.k - 1), add_zero]
    · rw [x.elementAt_aType (by omega) (by omega), (entryAddress_last hm (by omega)).mpr rfl]
      simp [μ]
    · intro l hl hlast
      have hl' := Finset.mem_range.mp hl
      rw [x.elementAt_aType (by omega) hl']
      have hzero : μ .a (entryAddress x.flagA (if !x.flagA then x.k else x.m) (x.m - 1) l) = 0 :=
        if_neg fun heq => hlast ((entryAddress_last hm hl').mp heq)
      rw [hzero, zero_mul]
    · intro hnot
      exact absurd (Finset.mem_range.mpr (by omega)) hnot
  exact halpha (hproduct.symm.trans (hsame.symm.trans hfoundZero))

/-- A kernel computes its product if and only if its inner dimension is the second axis of its first operand,
or does not matter. -/
theorem computes_iff_sound : x.Computes ↔ x.Sound := by
  constructor
  · intro h
    obtain ⟨μ', hrun, -⟩ := h fun _ _ => 0
    obtain ⟨hfits, hreads⟩ := x.reads_of_run hrun
    refine ⟨hfits, fun htrans => ?_⟩
    by_cases hne : x.m = x.k
    · exact .inl hne
    · refine .inr ⟨x.alpha_eq_zero h htrans hne, fun hbf => ?_⟩
      simpa [inner, htrans] using hreads.1 hbf
  · rintro ⟨hfits, htrans⟩ μ
    by_cases hinner : x.inner = x.k
    · have hreads : x.Reads := by
        refine ⟨fun _ => hinner.le, fun _ => ⟨fun i hi l hl => ?_, fun l hl j hj => ?_⟩⟩
        · exact hinner ▸ x.addressA_lt hi hl
        · exact hinner ▸ x.addressB_lt hl hj
      obtain ⟨μ', hrun, hfound⟩ := x.run_of_reads (μ := μ) hfits hreads
      exact ⟨μ', hrun, fun i hi j hj => (hfound i hi j hj).trans (x.found_eq hinner hi hj)⟩
    · have hflag : x.gemm.transA = true := by
        by_contra hnot
        exact hinner (by simp [inner, hnot])
      have hm : x.inner = x.m := by simp [inner, hflag]
      obtain heq | ⟨halpha, hbf⟩ := htrans hflag
      · exact absurd (hm.trans heq) hinner
      · have hreads : x.Reads := ⟨fun h => hm ▸ hbf h, fun h => absurd halpha h⟩
        obtain ⟨μ', hrun, hfound⟩ := x.run_of_reads (μ := μ) hfits hreads
        refine ⟨μ', hrun, fun i hi j hj => ?_⟩
        rw [hfound i hi j hj, found, product, halpha, zero_mul, zero_mul]

end Sound

end GemmKernel

end CpuGemm
end NnEngine
