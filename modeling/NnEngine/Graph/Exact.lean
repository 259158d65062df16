import NnEngine.Elementwise
import NnEngine.Graph.Meaning
import NnEngine.IntegerRounding
import NnEngine.Onnx.LoadGraph

/-!
# Exact arithmetic

What the operators compute on arrays of real numbers.  A constant with an infinity or a NaN has no array,
and an operator that is not listed in `Exact.op` may compute anything.  Division by zero and the root of a
negative number are zero, as in Mathlib.
-/

namespace NnEngine

attribute [local instance] atLeastTwo_two in
/-- The number that a finite float is. -/
noncomputable def F64.real? (x : F64) : Option ℝ :=
  match x.unpack with
  | .finite .positive m e _ => some (m * 2 ^ e)
  | .finite .negative m e _ => some (-(m * 2 ^ e))
  | .zero _ => some 0
  | _ => none

/-- The same as a number, zero for the others. -/
noncomputable def F64.real (x : F64) : ℝ := x.real?.getD 0

/-- Floats that compare equal are the same number. -/
theorem F64.real?_of_beq {x y : F64} (h : (x == y) = true) : x.real? = y.real? := by
  change (x.unpack.compare y.unpack == some .eq) = true at h
  rw [beq_iff_eq] at h
  unfold F64.real?
  cases hx : x.unpack with
  | notANumber => rw [hx] at h; cases h
  | infinity s =>
      rw [hx] at h
      cases hy : y.unpack <;> rw [hy] at h <;> cases s <;> first | rfl | cases h
  | zero s =>
      rw [hx] at h
      cases hy : y.unpack with
      | zero => rfl
      | notANumber => rw [hy] at h; cases h
      | infinity s' => rw [hy] at h; cases s' <;> cases h
      | finite s' m e hm => rw [hy] at h; cases s' <;> cases h
  | finite s m e hm =>
      rw [hx] at h
      cases hy : y.unpack with
      | notANumber => rw [hy] at h; cases h
      | infinity s' => rw [hy] at h; cases s' <;> cases s <;> cases h
      | zero s' => rw [hy] at h; cases s <;> cases h
      | finite s' m' e' hm' =>
          rw [hy] at h
          have hlex (ho : (compare e e').then (compare m m') = .eq) : e = e' ∧ m = m' := by
            rwa [Ordering.then_eq_eq, compare_eq_iff_eq, compare_eq_iff_eq] at ho
          cases s <;> cases s' <;> try cases h
          · obtain ⟨rfl, rfl⟩ := hlex (Ordering.swap_eq_eq.mp (Option.some.inj h))
            rfl
          · obtain ⟨rfl, rfl⟩ := hlex (Option.some.inj h)
            rfl

theorem F64.real?_ofNat_one : F64.real? (.ofNat 1) = some 1 := by
  have hunpack : (Float.Model.ofNat 1).unpack = .finite .positive (2 ^ 52) (-52) (by decide) := rfl
  unfold F64.real?
  rw [hunpack]
  norm_num

@[simp] theorem F64.real_ofNat_one : F64.real (.ofNat 1) = 1 := by
  rw [F64.real, F64.real?_ofNat_one, Option.getD_some]

namespace Exact

open NdArray

/-- An array of real numbers. -/
abbrev Arr := NdArray ℝ

/-- The numbers of tensor data. -/
noncomputable def reals : TensorData → Option (List ℝ)
  | .bool v => some (v.map fun x => (x.toNat : ℝ))
  | .sInt _ v => some (v.map fun x => (x.toInt : ℝ))
  | .uInt _ v => some (v.map fun x => (x.toNat : ℝ))
  | .float _ v => v.mapM F64.real?

/-- The array is the one of a tensor. -/
def IsConstant (t : Tensor) (x : Arr) : Prop := x.shape = t.dims ∧ reals t.data = some x.data

/-- A chain of reinterpretations. -/
def Reinterprets (ops : List ReinterpretType) (x y : Arr) : Prop :=
  ∃ d, outDims ops x.shape = some d ∧ y = .tabulate d fun idx => x.get (source ops x.shape idx)

/-- The indices of a matrix. -/
theorem inside_pair {idx : List Nat} {m n : Nat} (h : Inside idx [m, n]) :
    ∃ i j, idx = [i, j] ∧ i < m ∧ j < n := by
  obtain _ | ⟨hi, _ | ⟨hj, _ | _⟩⟩ := h
  exact ⟨_, _, rfl, hi, hj⟩

theorem inside_of_pair {i j m n : Nat} (hi : i < m) (hj : j < n) : Inside [i, j] [m, n] :=
  .cons hi (.cons hj .nil)

theorem reinterprets_expand {x : Arr} {d : List Nat} (h : Broadcasts x.shape d) :
    Reinterprets [.broadcast x.shape d] x (x.expand d) := by
  have hout : (ReinterpretType.broadcast x.shape d).outDims x.shape = some d := if_pos ⟨rfl, h⟩
  refine ⟨d, ?_, NdArray.tabulate_congr fun idx _ => ?_⟩
  · unfold outDims
    rw [hout]
    rfl
  · unfold source
    rw [hout]
    rfl

/-- Entry `i`, `j` of a matrix or of its transpose. -/
def entry (trans : Bool) (x : Arr) (i j : Nat) : ℝ := if trans then x.get [j, i] else x.get [i, j]

/-- The array is a matrix of this many rows and columns, or the transpose of one. -/
def IsMatrix (trans : Bool) (x : Arr) (rows cols : Nat) : Prop :=
  x.shape = if trans then [cols, rows] else [rows, cols]

/-- `Gemm`; its third operand broadcasts to the product. -/
def IsGemm (g : Gemm) (a b : Arr) (c : Option Arr) (y : Arr) : Prop :=
  ∃ m k n, IsMatrix g.transA a m k ∧ IsMatrix g.transB b k n ∧
    (∀ c' ∈ c, Broadcasts c'.shape [m, n]) ∧
    y = .tabulate [m, n] fun idx =>
      g.alpha.real * ∑ p ∈ Finset.range k,
          entry g.transA a (idx.getD 0 0) p * entry g.transB b p (idx.getD 1 0) +
        g.beta.real * c.elim 0 fun c' => read c' [m, n] idx

/-- The mean over axis `k`. -/
noncomputable def meanAxis (keepdims : Bool) (k : Nat) (x : Arr) : Arr :=
  .tabulate (if keepdims then x.shape.set k 1 else x.shape.eraseIdx k) fun idx =>
    (∑ i ∈ Finset.range (x.shape.getD k 0),
      x.get (if keepdims then idx.set k i else idx.insertIdx k i)) / x.shape.getD k 0

/-- The mean of the elements whose index starts with `outer`. -/
noncomputable def meanOf (x : Arr) (k : Nat) (f : ℝ → ℝ) (outer : List Nat) : ℝ :=
  (∑ n ∈ Finset.range (x.shape.drop k).prod, f (x.get (outer ++ multiIndex (x.shape.drop k) n))) /
    (x.shape.drop k).prod

/-- `LayerNormalization` over the axes from `k` on. -/
def IsLayerNorm (k : Nat) (ε : ℝ) (x scale bias y : Arr) : Prop :=
  scale.shape = x.shape.drop k ∧ bias.shape = x.shape.drop k ∧
    y = .tabulate x.shape fun idx =>
      let mean := meanOf x k id (idx.take k)
      let var := meanOf x k (fun e => (e - mean) ^ 2) (idx.take k)
      (x.get idx - mean) / √(var + ε) * scale.get (idx.drop k) + bias.get (idx.drop k)

/-- `RMSNormalization` over the axes from `k` on. -/
def IsRMSNorm (k : Nat) (ε : ℝ) (x scale y : Arr) : Prop :=
  scale.shape = x.shape.drop k ∧
    y = .tabulate x.shape fun idx =>
      x.get idx / √(meanOf x k (fun e => e ^ 2) (idx.take k) + ε) * scale.get (idx.drop k)

/-- `DequantizeLinear`, with one scale for each index of axis `k`.  No backend reads a zero point. -/
def IsDequantized (k : Nat) (x scale y : Arr) : Prop :=
  k < x.shape.length ∧ scale.shape = [x.shape.getD k 0] ∧
    y = .tabulate x.shape fun idx => x.get idx * scale.get [idx.getD k 0]

/-- `DequantMatMul`: the rows of the weight have a scale each. -/
def IsDequantMatMul (x w scale y : Arr) : Prop :=
  ∃ outer k n, x.shape = outer ++ [k] ∧ w.shape = [n, k] ∧ scale.shape = [n] ∧
    y = .tabulate (outer ++ [n]) fun idx =>
      (∑ p ∈ Finset.range k, x.get (idx.take outer.length ++ [p]) * w.get [idx.getD outer.length 0, p]) *
        scale.get [idx.getD outer.length 0]

/-- Element `i` of an attribute. -/
def perAxis {α : Type} (v : OptionalVec α) (i : Nat) : α := (v.vec.bind (·[i]?)).getD v.default

/-- The sizes, or an index, of images in a layout. -/
def image : Layout → Nat → Nat → List Nat → List Nat
  | .NCHW, n, channel, pos => n :: channel :: pos
  | .NHWC, n, channel, pos => n :: (pos ++ [channel])

/-- The channel of an index. -/
def channelOf : Layout → List Nat → Nat
  | .NCHW, idx => idx.getD 1 0
  | .NHWC, idx => idx.getLastD 0

/-- The position of an index. -/
def positionOf : Layout → List Nat → List Nat
  | .NCHW, idx => idx.drop 2
  | .NHWC, idx => (idx.drop 1).dropLast

/-- The size of axis `j` of the result, for this size of the input and of the kernel. -/
def convSize (cv : Conv) (j size kernel : Nat) : Nat :=
  let reach := perAxis cv.dilations j * (kernel - 1) + 1
  match cv.pad with
  | .notSet pads => (size + (perAxis pads j).1 + (perAxis pads j).2 - reach) / perAxis cv.strides j + 1
  | .valid => (size - reach) / perAxis cv.strides j + 1
  | .sameUpper | .sameLower => (size + perAxis cv.strides j - 1) / perAxis cv.strides j

/-- The padding before axis `j`. -/
def padBefore (cv : Conv) (j size kernel : Nat) : Nat :=
  let reach := perAxis cv.dilations j * (kernel - 1) + 1
  let total := (convSize cv j size kernel - 1) * perAxis cv.strides j + reach - size
  match cv.pad with
  | .notSet pads => (perAxis pads j).1
  | .valid => 0
  | .sameUpper => total / 2
  | .sameLower => (total + 1) / 2

/-- The element of the input that an element of the kernel meets, which is zero in the padding. -/
def tap (cv : Conv) (x : Arr) (size kernel : List Nat) (n channel : Nat) (pos k : List Nat) : ℝ :=
  let source := (List.range size.length).mapM fun j =>
    let i := pos.getD j 0 * perAxis cv.strides j + k.getD j 0 * perAxis cv.dilations j
    let pad := padBefore cv j (size.getD j 0) (kernel.getD j 0)
    if pad ≤ i ∧ i < size.getD j 0 + pad then some (i - pad) else none
  source.elim 0 fun i => x.get (image cv.inputLayout n channel i)

def activate : Activation → ℝ → ℝ
  | .identity, r => r
  | .reLU, r => max r 0

/-- `Conv`. -/
def IsConv (cv : Conv) (x w : Arr) (b : Option Arr) (y : Arr) : Prop :=
  ∃ n c m size kernel, x.shape = image cv.inputLayout n (cv.group * c) size ∧ w.shape = m :: c :: kernel ∧
    kernel.length = size.length ∧ cv.group ∣ m ∧ (∀ b' ∈ b, b'.shape = [m]) ∧
    y = .tabulate (image cv.outputLayout n m
        ((List.range size.length).map fun j => convSize cv j (size.getD j 0) (kernel.getD j 0))) fun idx =>
      activate cv.activation (∑ p ∈ Finset.range (c :: kernel).prod,
          tap cv x size kernel (idx.getD 0 0)
              (channelOf cv.outputLayout idx / (m / cv.group) * c + (multiIndex (c :: kernel) p).headD 0)
              (positionOf cv.outputLayout idx) (multiIndex (c :: kernel) p).tail *
            w.get (channelOf cv.outputLayout idx :: multiIndex (c :: kernel) p) +
        b.elim 0 fun b' => b'.get [channelOf cv.outputLayout idx])

/-- `BatchNormalization`, of the channels at axis 1. -/
def IsBatchNorm (ε : ℝ) (x scale bias mean var y : Arr) : Prop :=
  ∃ m, x.shape[1]? = some m ∧ scale.shape = [m] ∧ bias.shape = [m] ∧ mean.shape = [m] ∧ var.shape = [m] ∧
    y = .tabulate x.shape fun idx =>
      (x.get idx - mean.get [idx.getD 1 0]) / √(var.get [idx.getD 1 0] + ε) * scale.get [idx.getD 1 0] +
        bias.get [idx.getD 1 0]

/-- The constants of the approximation of GeLU by `tanh`. -/
structure GeLUConstants where
  half : ℝ
  one : ℝ
  slope : ℝ
  cubic : ℝ

/-- The approximation of GeLU by `tanh`. -/
noncomputable def GeLUConstants.fastGeLU (c : GeLUConstants) (x : ℝ) : ℝ :=
  c.half * x * (c.one + Real.tanh (c.slope * (x + c.cubic * x ^ 3)))

/-- A node with one operand and one result. -/
def One (P : Arr → Arr → Prop) (ins : List (Option Arr)) (outs : List Arr) : Prop :=
  ∃ x y, ins = [some x] ∧ outs = [y] ∧ P x y

/-- A node with two operands and one result. -/
def Two (P : Arr → Arr → Arr → Prop) (ins : List (Option Arr)) (outs : List Arr) : Prop :=
  ∃ x y z, ins = [some x, some y] ∧ outs = [z] ∧ P x y z

section Operands

variable {ρ : ValueId → Arr} {ins : List (Option ValueId)} {outs : List ValueId} {k : Nat} {v w : ValueId}

theorem input_eq {a : Arr} {rest : List (Option Arr)} (h : ins.map (Option.map ρ) = rest)
    (hk : rest[k]? = some (some a)) (hv : ins[k]? = some (some v)) : a = ρ v := by
  rw [← h, List.getElem?_map, hv] at hk
  exact (Option.some.inj (Option.some.inj hk)).symm

/-- The third operand, which may be absent. -/
theorem third_eq {a b : Option Arr} {rest : List (Option Arr)} (h : ins.map (Option.map ρ) = a :: b :: rest) :
    rest.head?.join = ins[2]?.join.map ρ := by
  have hget : (ins.map (Option.map ρ))[2]? = rest[0]? := by
    rw [h]
    rfl
  rw [List.head?_eq_getElem?, ← hget, List.getElem?_map]
  cases ins[2]? with
  | none => rfl
  | some i => rfl

theorem output_eq {y : Arr} (h : outs.map ρ = [y]) (hw : outs[k]? = some w) : y = ρ w := by
  have hmem : ρ w ∈ outs.map ρ := List.mem_map_of_mem (List.mem_of_getElem? hw)
  rw [h, List.mem_singleton] at hmem
  exact hmem.symm

/-- The operand of a node with one operand. -/
theorem One.of_mem {P : Arr → Arr → Prop} (h : One P (ins.map (Option.map ρ)) (outs.map ρ))
    (hv : some v ∈ ins) (hw : outs[k]? = some w) : P (ρ v) (ρ w) := by
  obtain ⟨x, y, hx, hy, hP⟩ := h
  have hmem : some (ρ v) ∈ ins.map (Option.map ρ) := List.mem_map_of_mem hv
  rw [hx, List.mem_singleton] at hmem
  obtain rfl := Option.some.inj hmem
  obtain rfl := output_eq hy hw
  exact hP

/-- The operands of a node with two operands. -/
theorem Two.of_inputs {P : Arr → Arr → Arr → Prop} {u : ValueId}
    (h : Two P (ins.map (Option.map ρ)) (outs.map ρ)) (hu : ins[0]? = some (some u))
    (hv : ins[1]? = some (some v)) (hw : outs[k]? = some w) : P (ρ u) (ρ v) (ρ w) := by
  obtain ⟨x, y, z, hx, hz, hP⟩ := h
  obtain rfl := input_eq (k := 0) hx rfl hu
  obtain rfl := input_eq (k := 1) hx rfl hv
  obtain rfl := output_eq hz hw
  exact hP

end Operands

/-- What a node computes.  A node of a listed operator has the operands that the operator asks for. -/
def op (c : GeLUConstants) : Operator → List (Option Arr) → List Arr → Prop
  | .add => Two (Binary (· + ·))
  | .sub => Two (Binary (· - ·))
  | .mul => Two (Binary (· * ·))
  | .div => Two (Binary (· / ·))
  | .pow => Two (Binary (· ^ ·))
  | .sqrt => One fun x y => y = unary Real.sqrt x
  | .reciprocal => One fun x y => y = unary (fun e => e⁻¹) x
  | .tanh => One fun x y => y = unary Real.tanh x
  | .geLU true => One fun x y => y = unary c.fastGeLU x
  | .cast (.float _) => One fun x y => y = x
  | .transpose perm => One (Reinterprets [.transpose perm])
  | .contiguous ops => One (Reinterprets ops)
  | .reinterpret ops => One (Reinterprets ops)
  | .gemm g => fun ins outs =>
      ∃ a b rest y, ins = some a :: some b :: rest ∧ outs = [y] ∧ IsGemm g a b rest.head?.join y
  | .conv cv => fun ins outs =>
      ∃ x w rest y, ins = some x :: some w :: rest ∧ outs = [y] ∧ IsConv cv x w rest.head?.join y
  | .batchNormalization bn => fun ins outs =>
      ∃ x scale bias mean var y, ins = [some x, some scale, some bias, some mean, some var] ∧ outs = [y] ∧
        IsBatchNorm (F32.asF64 bn.epsilon).real x scale bias mean var y
  | .reduceMean ⟨[axis], keepdims⟩ => fun ins outs => ∃ x rest y, ins = some x :: rest ∧
      (∀ i ∈ rest, i = none) ∧ outs = [y] ∧ TensorIndex.index ⟨axis⟩ x.shape.length < x.shape.length ∧
        y = meanAxis keepdims (TensorIndex.index ⟨axis⟩ x.shape.length) x
  | .layerNormalization l => fun ins outs =>
      ∃ x scale bias y, ins = [some x, some scale, some bias] ∧ outs = [y] ∧
        IsLayerNorm (l.axis.index x.shape.length) l.epsilon.real x scale bias y
  | .rmsNormalization l => Two fun x scale y =>
      IsRMSNorm (l.axis.index x.shape.length) l.epsilon.real x scale y
  | .dequantizeLinear axis => fun ins outs =>
      ∃ x scale rest y, ins = some x :: some scale :: rest ∧ outs = [y] ∧
        IsDequantized (axis.index x.shape.length) x scale y
  | .dequantMatMul _ => fun ins outs =>
      ∃ x w scale rest y, ins = some x :: some w :: some scale :: rest ∧ outs = [y] ∧
        IsDequantMatMul x w scale y
  | _ => fun _ _ => True

end Exact

/-- The meaning of a graph in exact arithmetic, with these constants of GeLU and these files. -/
def exact (c : Exact.GeLUConstants) (files : Onnx.Files) : Meaning Exact.Arr where
  op := Exact.op c
  constant := Exact.IsConstant
  external r x := ∀ t, Onnx.loadExternal files r = some t → Exact.IsConstant t x
  hasType ty x := x.shape = ty.dims
  output _ _ _ := trivial

/-- The array of a constant. -/
theorem isConstant_of_initializer {c : Exact.GeLUConstants} {files : Onnx.Files} {g : Graph}
    {ρ : ValueId → Exact.Arr} (hρ : (exact c files).Holds g ρ) {v : ValueId} {t : Tensor}
    (h : Onnx.getInitializer files g v = some t) : Exact.IsConstant t (ρ v) := by
  unfold Onnx.getInitializer at h
  split at h
  · rename_i t' ht'
    obtain rfl := Option.some.inj h
    exact hρ.constants v t' ht'
  · obtain ⟨r, hr, hload⟩ := Option.bind_eq_some_iff.mp h
    exact hρ.externals v r hr t hload

end NnEngine
