import NnEngine.Blas
import NnEngine.Codegen.Contiguous
import NnEngine.Graph.ConvShape

/-!
# Matrix products on the CPU

What `build_gemm`, `build_matmul` and `build_batched_gemm` of `src/codegen/cpu/translator.rs` emit, with the
calls of `src/codegen/cpu/blas.rs`.  Elements are numbers of a commutative semiring, and a conversion between
the float formats keeps the number.  A failed assertion and an `unwrap` of `None` are panics (`none`).
-/

namespace NnEngine
namespace CpuGemm

open Blas

/-- The operands of a kernel. -/
inductive Operand
  | dst
  | a
  | b
  | c
  | workspace
  deriving DecidableEq, Repr

/-- `PointerValue`: an element of an operand. -/
structure Pointer where
  buf : Operand
  pos : Nat
  deriving DecidableEq, Repr

structure TensorPtr where
  ptr : Pointer
  ty : ResolvedTensorType
  offset : Nat

/-- `set_offset`. -/
def TensorPtr.setOffset (p : TensorPtr) (offset : Nat) : TensorPtr := { p with offset }

/-- `build_gep`. -/
def buildGep (p : TensorPtr) : Pointer := { p.ptr with pos := p.ptr.pos + p.offset }

/-- `operator::Gemm`, with numbers for its factors. -/
structure Gemm (R : Type) where
  alpha : R
  beta : R
  transA : Bool
  transB : Bool

/-- The emitted code, without its control flow: a loop that copies `count` elements, and calls of BLAS. -/
inductive Instr (R : Type)
  | copy (dst src : Pointer) (count : Nat) (index : Nat → Nat)
  | call (g : Call Operand R)

/-- The basic blocks: a loop ends in a block of its own. -/
inductive Block
  | start
  | after (b : Block)
  deriving DecidableEq, Repr

section Emission

variable {R : Type}

/-- `finalize_counted_loop` names `entry` as the block that the loop is entered from: another block that
branches to the loop has no value for its counter.  A bound of zero lets the counter run on. -/
def countedLoop (entry preheader : Block) (bound : Nat) (body : Nat → Option (List (Instr R))) :
    Option (List (Instr R)) :=
  if entry = preheader ∧ bound ≠ 0 then ((List.range bound).mapM body).map List.flatten else none

/-- `build_contiguous` without steps. -/
def buildContiguous (dst src : TensorPtr) (entry : Block) : Block × List (Instr R) :=
  (.after entry, [.copy (buildGep dst) (buildGep src) (max dst.ty.dims.size 1)
    (Translator.buildContiguous dst.ty src.ty [])])

/-- `bf16_buf_to_f32` and `f32_buf_to_bf16`, emitted at the end of a block. -/
def convertBuf (src dst : Pointer) (count : Nat) (block : Block) : Block × List (Instr R) :=
  (if count = 0 then block else .after block, if count = 0 then [] else [.copy dst src count id])

/-- `workspace_offset`. -/
def workspaceOffset (workspace : TensorPtr) (offsetElems : Nat) : Pointer :=
  { workspace.ptr with pos := workspace.ptr.pos + (workspace.offset + offsetElems) }

structure GemmArgs (R : Type) where
  a : Pointer × Bool
  b : Pointer × Bool
  c : Pointer
  alpha : R
  beta : R
  m : Nat
  n : Nat
  k : Nat

/-- `const_int` of the `i32` type, `none` for a number that it does not hold. -/
def i32Const (x : Nat) : Option Nat := if x < 2 ^ 31 then some x else none

theorem i32Const_eq_some {x y : Nat} : i32Const x = some y ↔ x < 2 ^ 31 ∧ x = y := by
  unfold i32Const
  rw [Option.ite_none_right_eq_some, Option.some_inj]

/-- `call_gemm`. -/
def GemmArgs.call (gemm : GemmArgs R) : Option (Call Operand R) := do
  let m ← i32Const gemm.m
  let n ← i32Const gemm.n
  let k ← i32Const gemm.k
  let incA := if !gemm.a.2 then k else m
  let incB := if !gemm.b.2 then n else k
  some {
    order := .rowMajor, m, n, k, alpha := gemm.alpha, beta := gemm.beta
    a := { buf := gemm.a.1.buf, start := gemm.a.1.pos, ld := incA, trans := gemm.a.2 }
    b := { buf := gemm.b.1.buf, start := gemm.b.1.pos, ld := incB, trans := gemm.b.2 }
    c := { buf := gemm.c.buf, start := gemm.c.pos, ld := n, trans := false } }

/-- The sizes fit into an `i32`. -/
def GemmArgs.Fits (gemm : GemmArgs R) : Prop := gemm.m < 2 ^ 31 ∧ gemm.n < 2 ^ 31 ∧ gemm.k < 2 ^ 31

/-- The call with the sizes as they are. -/
def GemmArgs.toCall (gemm : GemmArgs R) : Call Operand R :=
  { order := .rowMajor, m := gemm.m, n := gemm.n, k := gemm.k, alpha := gemm.alpha, beta := gemm.beta
    a := {
      buf := gemm.a.1.buf, start := gemm.a.1.pos, ld := if !gemm.a.2 then gemm.k else gemm.m
      trans := gemm.a.2 }
    b := {
      buf := gemm.b.1.buf, start := gemm.b.1.pos, ld := if !gemm.b.2 then gemm.n else gemm.k
      trans := gemm.b.2 }
    c := { buf := gemm.c.buf, start := gemm.c.pos, ld := gemm.n, trans := false } }

instance (gemm : GemmArgs R) : Decidable gemm.Fits := inferInstanceAs (Decidable (_ ∧ _ ∧ _))

theorem GemmArgs.call_eq (gemm : GemmArgs R) : gemm.call = if gemm.Fits then some gemm.toCall else none := by
  ext g
  unfold GemmArgs.call
  simp only [Option.bind_eq_bind, Option.bind_eq_some_iff, i32Const_eq_some, Option.some_inj,
    Option.ite_none_right_eq_some]
  constructor
  · rintro ⟨m, ⟨hm, rfl⟩, n, ⟨hn, rfl⟩, k, ⟨hk, rfl⟩, rfl⟩
    exact ⟨⟨hm, hn, hk⟩, rfl⟩
  · rintro ⟨⟨hm, hn, hk⟩, rfl⟩
    exact ⟨_, ⟨hm, rfl⟩, _, ⟨hn, rfl⟩, _, ⟨hk, rfl⟩, rfl⟩

/-- `call_gemm_batch_strided`. -/
def GemmArgs.callBatchStrided (gemm : GemmArgs R) (strideA strideB strideC batchCount : Nat) :
    Option (List (Call Operand R)) := do
  let g ← gemm.call
  let strideA ← i32Const strideA
  let strideB ← i32Const strideB
  let strideC ← i32Const strideC
  let batchCount ← i32Const batchCount
  some (g.batch strideA strideB strideC batchCount)

theorem GemmArgs.callBatchStrided_eq (gemm : GemmArgs R) (da db dc count : Nat) :
    gemm.callBatchStrided da db dc count =
      if gemm.Fits ∧ da < 2 ^ 31 ∧ db < 2 ^ 31 ∧ dc < 2 ^ 31 ∧ count < 2 ^ 31 then
        some (gemm.toCall.batch da db dc count)
      else none := by
  ext calls
  unfold GemmArgs.callBatchStrided
  simp only [call_eq, Option.bind_eq_bind, Option.bind_eq_some_iff, i32Const_eq_some, Option.some_inj,
    Option.ite_none_right_eq_some]
  constructor
  · rintro ⟨_, ⟨hfits, rfl⟩, _, ⟨ha, rfl⟩, _, ⟨hb, rfl⟩, _, ⟨hc, rfl⟩, _, ⟨hcount, rfl⟩, rfl⟩
    exact ⟨⟨hfits, ha, hb, hc, hcount⟩, rfl⟩
  · rintro ⟨⟨hfits, ha, hb, hc, hcount⟩, rfl⟩
    exact ⟨_, ⟨hfits, rfl⟩, _, ⟨ha, rfl⟩, _, ⟨hb, rfl⟩, _, ⟨hc, rfl⟩, _, ⟨hcount, rfl⟩, rfl⟩

/-- `float_type`. -/
def floatType : DataType → Option FloatType
  | .float t => some t
  | _ => none

end Emission

section Build

variable {R : Type} [CommSemiring R] [DecidableEq R]

/-- `build_gemm`. -/
def buildGemm (dst a b : TensorPtr) (c workspace : Option TensorPtr) (entry : Block) (gemm : Gemm R) :
    Option (Block × List (Instr R)) := do
  let (entry, copy) ← match c with
    | some c => if c.ty.dims = dst.ty.dims then some (buildContiguous dst c entry) else none
    | none => some (entry, [])
  let m ← dst.ty.dims[0]?
  let n ← dst.ty.dims[1]?
  let k ← a.ty.dims[1]?
  let beta := if c.isSome then gemm.beta else 0
  if a.ty.dims.length = 2 ∧ b.ty.dims.length = 2 then do
    let a0 ← a.ty.stride[0]?
    let a1 ← a.ty.stride[1]?
    let transA := if a0 < a1 then !gemm.transA else gemm.transA
    let b0 ← b.ty.stride[0]?
    let b1 ← b.ty.stride[1]?
    let transB := if b0 < b1 then !gemm.transB else gemm.transB
    let aGep := buildGep a
    let bGep := buildGep b
    let cGep := buildGep dst
    let fpTy ← floatType dst.ty.elemType
    if fpTy = .BF16 then do
      let workspace ← workspace
      let wsA := buildGep workspace
      let wsB := workspaceOffset workspace (m * k)
      let wsC := workspaceOffset workspace (m * k + k * n)
      let (block, loadA) := convertBuf aGep wsA (m * k) entry
      let (block, loadB) := convertBuf bGep wsB (k * n) block
      let (block, loadC) := if beta ≠ 0 then convertBuf cGep wsC (m * n) block else (block, [])
      let g ← GemmArgs.call {
        a := (wsA, transA), b := (wsB, transB), c := wsC, alpha := gemm.alpha, beta, m, n, k }
      let (block, storeC) := convertBuf wsC cGep (m * n) block
      some (block, copy ++ loadA ++ loadB ++ loadC ++ [.call g] ++ storeC)
    else do
      let g ← GemmArgs.call {
        a := (aGep, transA), b := (bGep, transB), c := cGep, alpha := gemm.alpha, beta, m, n, k }
      some (entry, copy ++ [.call g])
  else none

/-- `build_matmul`. -/
def buildMatmul (dst a b : TensorPtr) (c : Option TensorPtr) (entry : Block) : Option (List (Instr R)) := do
  if 3 ≤ a.ty.dims.length then do
    let m ← a.ty.dims[a.ty.dims.length - 2]?
    let k ← a.ty.dims[a.ty.dims.length - 1]?
    let n ← b.ty.dims.getLast?
    let bRows ← (subUsize b.ty.dims.length 2).bind (b.ty.dims[·]?)
    let dstRows ← (subUsize dst.ty.dims.length 2).bind (dst.ty.dims[·]?)
    let dstCols ← dst.ty.dims.getLast?
    if bRows = k ∧ dstRows = m ∧ dstCols = n ∧ a.ty.isContiguous ∧ b.ty.isContiguous then do
      let bound ← divUsize a.ty.dims.size (m * k)
      let gemm : Gemm R := { transA := false, transB := false, alpha := 1, beta := if c.isSome then 1 else 0 }
      let slice (p : TensorPtr) (rows cols ind : Nat) : TensorPtr :=
        let offset := ind * (rows * cols)
        { ptr := buildGep (p.setOffset offset), ty := .new p.ty.elemType [rows, cols], offset }
      countedLoop entry entry bound fun ind => do
        let (_, code) ← buildGemm (slice dst m n ind) (slice a m k ind) (slice b k n ind)
          (c.map (slice · m n ind)) none .start gemm
        some code
    else none
  else none

/-- `build_batched_gemm`; `mkl` is `has_batch_strided`. -/
def buildBatchedGemm (mkl : Bool) (dst a b : TensorPtr) (workspace : Option TensorPtr) (entry : Block)
    (gemm : Gemm R) : Option (List (Instr R)) := do
  let ndim := a.ty.dims.length
  if 3 ≤ ndim ∧ a.ty.isContiguous ∧ b.ty.isContiguous ∧ dst.ty.isContiguous then do
    let fpTy ← floatType a.ty.elemType
    let aRows ← a.ty.dims[ndim - 2]?
    let aCols ← a.ty.dims[ndim - 1]?
    let bRows ← b.ty.dims[ndim - 2]?
    let bCols ← b.ty.dims[ndim - 1]?
    let (m, k) := if gemm.transA then (aCols, aRows) else (aRows, aCols)
    let n := if gemm.transB then bRows else bCols
    let batchCount ← divUsize a.ty.dims.size (aRows * aCols)
    let strideA := aRows * aCols
    let strideB := bRows * bCols
    let strideC := m * n
    let aPtr := buildGep a
    let bPtr := buildGep b
    let dstPtr := buildGep dst
    if fpTy = .BF16 then do
      let workspace ← workspace
      let wsA := buildGep workspace
      let wsB := workspaceOffset workspace (batchCount * strideA)
      let wsC := workspaceOffset workspace (batchCount * strideA + batchCount * strideB)
      let (block, loadA) := convertBuf aPtr wsA (batchCount * strideA) entry
      let (block, loadB) := convertBuf bPtr wsB (batchCount * strideB) block
      let (block, loadC) :=
        if gemm.beta ≠ 0 then convertBuf dstPtr wsC (batchCount * strideC) block else (block, [])
      let calls ←
        if batchCount = 0 then some []
        else countedLoop entry block batchCount fun idx => do
          let g ← GemmArgs.call {
            a := ({ wsA with pos := wsA.pos + idx * strideA }, gemm.transA)
            b := ({ wsB with pos := wsB.pos + idx * strideB }, gemm.transB)
            c := { wsC with pos := wsC.pos + idx * strideC }
            m, n, k, alpha := gemm.alpha, beta := gemm.beta }
          some [.call g]
      let (_, storeC) := convertBuf wsC dstPtr (batchCount * strideC) block
      some (loadA ++ loadB ++ loadC ++ calls ++ storeC)
    else if mkl then do
      let calls ← GemmArgs.callBatchStrided {
          a := (aPtr, gemm.transA), b := (bPtr, gemm.transB), c := dstPtr
          m, n, k, alpha := gemm.alpha, beta := gemm.beta }
        strideA strideB strideC batchCount
      some (calls.map .call)
    else if batchCount = 0 then some []
    else countedLoop entry entry batchCount fun idx => do
      let g ← GemmArgs.call {
        a := (buildGep (a.setOffset (a.offset + idx * strideA)), gemm.transA)
        b := (buildGep (b.setOffset (b.offset + idx * strideB)), gemm.transB)
        c := buildGep (dst.setOffset (dst.offset + idx * strideC))
        m, n, k, alpha := gemm.alpha, beta := gemm.beta }
      some [.call g]
  else none

end Build

/-! ### Addresses -/

namespace GemmArgs

variable {R : Type} [CommSemiring R] (g : GemmArgs R) {size : Operand → Nat} {μ : Memory Operand R}

/-- Where the call finds entry `i`, `l` of the first factor. -/
def addressA (i l : Nat) : Nat := entryAddress g.a.2 (if !g.a.2 then g.k else g.m) i l

/-- Where the call finds entry `l`, `j` of the second factor. -/
def addressB (l j : Nat) : Nat := entryAddress g.b.2 (if !g.b.2 then g.n else g.k) l j

omit [CommSemiring R] in
theorem toCall_eq_dense : g.toCall = Call.dense g.m g.n g.k g.alpha g.beta (g.a.1.buf, g.a.1.pos, g.a.2)
    (g.b.1.buf, g.b.1.pos, g.b.2) (g.c.buf, g.c.pos) := rfl

omit [CommSemiring R] in
theorem legal_toCall (hm : 0 < g.m) (hn : 0 < g.n) (hk : 0 < g.k) : g.toCall.Legal := by
  rw [toCall_eq_dense]
  exact dense_legal hm hn hk

theorem inside_toCall (hm : 0 < g.m) (hn : 0 < g.n) : g.toCall.Inside size ↔
    (∀ i < g.m, ∀ j < g.n, g.c.pos + (i * g.n + j) < size g.c.buf) ∧
      (g.alpha ≠ 0 → (∀ i < g.m, ∀ l < g.k, g.a.1.pos + g.addressA i l < size g.a.1.buf) ∧
        ∀ l < g.k, ∀ j < g.n, g.b.1.pos + g.addressB l j < size g.b.1.buf) := by
  rw [toCall_eq_dense]
  exact dense_inside hm hn

/-- The call leaves the product of what lies where it finds the factors. -/
theorem result_toCall (hm : 0 < g.m) (hn : 0 < g.n) (hk : 0 < g.k) {i j : Nat} (hi : i < g.m) (hj : j < g.n) :
    g.toCall.result μ g.c.buf (g.c.pos + (i * g.n + j)) =
      g.alpha * ∑ l ∈ Finset.range g.k,
          μ g.a.1.buf (g.a.1.pos + g.addressA i l) * μ g.b.1.buf (g.b.1.pos + g.addressB l j) +
        g.beta * μ g.c.buf (g.c.pos + (i * g.n + j)) := by
  rw [toCall_eq_dense]
  exact dense_result hm hn hk hi hj

end GemmArgs

/-! ### Execution -/

section Execution

variable {R : Type} {dst src : Pointer} {count : Nat} {index : Nat → Nat} {size : Operand → Nat}
  {μ μ' : Memory Operand R} {x : Operand} {i p : Nat}

/-- The memory after a loop that copies. -/
def copied (dst src : Pointer) (count : Nat) (index : Nat → Nat) (μ : Memory Operand R) :
    Memory Operand R := fun x p =>
  if x = dst.buf ∧ dst.pos ≤ p ∧ p < dst.pos + count then μ src.buf (src.pos + index (p - dst.pos)) else μ x p

theorem copied_at (dst src : Pointer) (index : Nat → Nat) (μ : Memory Operand R) (hi : i < count) :
    copied dst src count index μ dst.buf (dst.pos + i) = μ src.buf (src.pos + index i) := by
  unfold copied
  rw [if_pos ⟨rfl, by omega, by omega⟩, Nat.add_sub_cancel_left]

theorem copied_of_ne (hx : x ≠ dst.buf) : copied dst src count index μ x p = μ x p :=
  if_neg fun h => hx h.1

theorem copied_of_outside (hp : p < dst.pos ∨ dst.pos + count ≤ p) :
    copied dst src count index μ x p = μ x p :=
  if_neg fun h => by omega

/-- A loop that copies stays inside its operands. -/
def CopyInside (size : Operand → Nat) (dst src : Pointer) (count : Nat) (index : Nat → Nat) : Prop :=
  ∀ i < count, dst.pos + i < size dst.buf ∧ src.pos + index i < size src.buf

instance (size : Operand → Nat) (dst src : Pointer) (count : Nat) (index : Nat → Nat) :
    Decidable (CopyInside size dst src count index) :=
  inferInstanceAs (Decidable (∀ i < count, _))

variable [CommSemiring R] [DecidableEq R]

def Instr.run (size : Operand → Nat) : Instr R → Memory Operand R → Option (Memory Operand R)
  | .copy dst src count index, μ =>
      if CopyInside size dst src count index then some (copied dst src count index μ) else none
  | .call g, μ => g.run size μ

def exec (size : Operand → Nat) (code : List (Instr R)) (μ : Memory Operand R) :
    Option (Memory Operand R) :=
  code.foldlM (fun μ i => i.run size μ) μ

@[simp] theorem exec_nil : exec size ([] : List (Instr R)) μ = some μ := rfl

@[simp] theorem exec_cons (i : Instr R) (code : List (Instr R)) :
    exec size (i :: code) μ = (i.run size μ).bind (exec size code) := rfl

theorem exec_copy (h : CopyInside size dst src count index) (code : List (Instr R)) :
    exec size (.copy dst src count index :: code) μ = exec size code (copied dst src count index μ) := by
  rw [exec_cons, Instr.run, if_pos h, Option.bind_some]

/-- Calls of BLAS alone. -/
theorem exec_calls (calls : List (Call Operand R)) :
    exec size (calls.map .call) μ = runAll size calls μ := by
  unfold exec runAll
  rw [List.foldlM_map]
  rfl

/-- A buffer is converted, unless it is empty. -/
theorem exec_convertBuf {block : Block} (h : CopyInside size dst src count id) (code : List (Instr R)) :
    exec size ((convertBuf src dst count block).2 ++ code) μ = exec size code (copied dst src count id μ) := by
  show exec size ((if count = 0 then [] else _) ++ code) μ = _
  split
  · rename_i hzero
    have hsame : copied dst src count id μ = μ := by
      ext x p
      exact copied_of_outside (by omega)
    rw [hsame]
    rfl
  · exact exec_copy h code

/-- Nothing is executed after a conversion that goes past the end of its operand. -/
theorem exec_convertBuf_none {block : Block} (h : ¬ CopyInside size dst src count id)
    (code : List (Instr R)) : exec size ((convertBuf src dst count block).2 ++ code) μ = none := by
  have hcount : count ≠ 0 := by
    rintro rfl
    exact h nofun
  show exec size ((if count = 0 then [] else [.copy dst src count id]) ++ code) μ = none
  rw [if_neg hcount, List.singleton_append, exec_cons, Instr.run, if_neg h]
  rfl

end Execution

end CpuGemm
end NnEngine
