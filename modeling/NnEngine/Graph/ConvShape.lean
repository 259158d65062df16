import NnEngine.Graph.Operator

/-!
# The shapes of convolutions and poolings

`Conv::output_shape` and `Pooling::output_shape` of `src/graph/operator.rs`.  A failed assertion, an index
out of range, a subtraction below zero and a division by zero are panics (`none`).
-/

namespace NnEngine

/-- `Index` of `OptionalVec`. -/
def OptionalVec.at? {α : Type} (v : OptionalVec α) (i : Nat) : Option α :=
  match v.vec with
  | none => some v.default
  | some l => l[i]?

/-- `a - b` of `usize`. -/
def subUsize (a b : Nat) : Option Nat := if b ≤ a then some (a - b) else none

/-- `a / b` of `usize`. -/
def divUsize (a b : Nat) : Option Nat := if b = 0 then none else some (a / b)

/-- `div_ceil`. -/
def divCeil (a b : Nat) : Option Nat := if b = 0 then none else some (a / b + if a % b = 0 then 0 else 1)

@[simp] theorem subUsize_eq_some {a b c : Nat} : subUsize a b = some c ↔ b ≤ a ∧ a - b = c := by
  unfold subUsize
  split <;> simp [*]

@[simp] theorem divUsize_eq_some {a b c : Nat} : divUsize a b = some c ↔ b ≠ 0 ∧ a / b = c := by
  unfold divUsize
  split <;> simp [*]

/-- The quotient is the least number of steps of `b` that cover `a`. -/
theorem divCeil_eq_some {a b c : Nat} : divCeil a b = some c ↔ b ≠ 0 ∧ (a + b - 1) / b = c := by
  unfold divCeil
  split
  · simp [*]
  · rename_i hb
    have hpos : 0 < b := Nat.pos_of_ne_zero hb
    have hdiv := Nat.div_add_mod a b
    have hmod := Nat.mod_lt a hpos
    suffices h : (a + b - 1) / b = a / b + if a % b = 0 then 0 else 1 by simp [hb, h]
    rw [Nat.div_eq_iff hpos]
    split
    · rw [Nat.add_zero, Nat.mul_comm]
      omega
    · rw [Nat.add_mul, Nat.one_mul, Nat.mul_comm]
      omega

structure ConvShape where
  kernelShape : List Nat
  inputShape : List Nat
  pad : OptionalVec (Nat × Nat)
  dilations : OptionalVec Nat

namespace ConvShape

/-- `padded_input_size`. -/
def paddedInputSize (s : ConvShape) (i : Nat) : Option Nat := do
  let size ← s.inputShape[i]?
  let pad ← s.pad.at? i
  pure (size + pad.1 + pad.2)

/-- `distance_per_conv`. -/
def distancePerConv (s : ConvShape) (i : Nat) : Option Nat := do
  let dilation ← s.dilations.at? i
  let kernel ← s.kernelShape[i]?
  let gaps ← subUsize kernel 1
  pure (dilation * gaps + 1)

end ConvShape

/-- The default of a pad. -/
def defaultPad : OptionalVec (Nat × Nat) := ⟨none, (0, 0)⟩

/-- The axis of the size in direction `dim` of an image. -/
def Layout.spatialAxis : Layout → Nat → Nat
  | .NCHW, dim => dim + 2
  | .NHWC, dim => dim + 1

namespace Conv

/-- `nchw_input`. -/
def nchwInput (layout : Layout) (dims : ResolvedTensorDims) : Option ResolvedTensorDims :=
  match layout, dims with
  | .NCHW, dims => some dims
  | .NHWC, [n, h, w, c] => some (.new [n, c, h, w])
  | .NHWC, _ => none

/-- The shape in the layout of the output. -/
def toOutput (layout : Layout) (dims : ResolvedTensorDims) : Option ResolvedTensorDims :=
  match layout, dims with
  | .NCHW, dims => some dims
  | .NHWC, [n, c, h, w] => some (.new [n, h, w, c])
  | .NHWC, _ => none

/-- The body of the loop of `output_shape`. -/
def outputSize (cv : Conv) (input kernel : List Nat) (i : Nat) : Option Nat := do
  let stride ← cv.strides.at? i
  let slide (pad : OptionalVec (Nat × Nat)) : Option Nat := do
    let s : ConvShape := { kernelShape := kernel, inputShape := input, pad, dilations := cv.dilations }
    let padded ← s.paddedInputSize i
    let distance ← s.distancePerConv i
    let rest ← subUsize padded distance
    let q ← divUsize rest stride
    pure (q + 1)
  match cv.pad with
  | .notSet pad => slide pad
  | .valid => slide defaultPad
  | .sameUpper | .sameLower => do
      let size ← input[i]?
      divCeil size stride

/-- `output_shape`. -/
def outputShape (cv : Conv) (input weight : ResolvedTensorDims) : Option ResolvedTensorDims :=
  if input.length ≠ weight.length then none
  else do
    let nchw ← nchwInput cv.inputLayout input
    let batch ← nchw[0]?
    let channels ← nchw[1]?
    let featureMapSize ← weight[0]?
    let channelsPerGroup ← weight[1]?
    if cv.group ∣ featureMapSize ∧ channels = channelsPerGroup * cv.group then do
      let sizes ← (List.range (nchw.length - 2)).mapM (cv.outputSize (nchw.drop 2) (weight.drop 2))
      toOutput cv.outputLayout (.new (batch :: featureMapSize :: sizes))
    else none

end Conv

namespace Pooling

/-- `nbatch`, `channel` and `spatial`. -/
def split (layout : Layout) (dims : ResolvedTensorDims) : Option (Nat × Nat × List Nat) :=
  match layout with
  | .NCHW => do
      let n ← dims[0]?
      let c ← dims[1]?
      pure (n, c, dims.drop 2)
  | .NHWC =>
      if dims.length < 2 then none
      else do
        let n ← dims[0]?
        let c ← dims.getLast?
        pure (n, c, dims.dropLast.drop 1)

/-- The body of the loop of `output_shape`; the other pads are not implemented. -/
def outputSize (p : Pooling) (input : List Nat) (i : Nat) : Option Nat := do
  let pad ← match p.pad with
    | .notSet pad => some pad
    | .valid => some defaultPad
    | .sameUpper | .sameLower => none
  let s : ConvShape := { kernelShape := p.kernelShape, inputShape := input, pad, dilations := p.dilations }
  let stride ← p.strides.at? i
  let padded ← s.paddedInputSize i
  let distance ← s.distancePerConv i
  let num ← subUsize padded distance
  let q ← if p.ceilMode then divCeil num stride else divUsize num stride
  pure (q + 1)

/-- `output_shape`. -/
def outputShape (p : Pooling) (input : ResolvedTensorDims) : Option ResolvedTensorDims := do
  let (n, c, spatial) ← split p.layout input
  let sizes ← (List.range spatial.length).mapM (p.outputSize spatial)
  match p.layout with
  | .NCHW => pure (.new (n :: c :: sizes))
  | .NHWC => pure (.new (n :: (sizes ++ [c])))

end Pooling

end NnEngine
