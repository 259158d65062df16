import NnEngine.Graph.Modify

/-!
# Propagating constants into operators

What `prop_constant` of `src/transform/optimize/const_folding.rs` makes of an operator.  `get_initializer` is
a parameter.
-/

namespace NnEngine

open DepthFirst

/-- The constants of the inputs, by their places. -/
abbrev Constants := Nat → Option Tensor

/-- `OneHot`'s `depth`, which must be a scalar. -/
def oneHotDepth (tensor : Tensor) : Except Stop Nat :=
  (GraphState.orPanic tensor.data.toScalarData).map ScalarData.asUsize

/-- `OneHot`'s `values`, which must be two scalars. -/
def oneHotValues (tensor : Tensor) : Except Stop (ScalarData × ScalarData) :=
  match tensor.data.toScalars with
  | [off, on] => .ok (off, on)
  | _ => .error .panic

/-- `OneHot`, with the inputs that are no longer needed. -/
def propOneHot (constants : Constants) (o : OneHot) : Except Stop (OneHot × List Nat) := do
  let depth ← (constants args.ONEHOT_DEPTH).mapM oneHotDepth
  let values ← (constants args.ONEHOT_VALUES).mapM oneHotValues
  if o.offValue.isSome ≠ o.onValue.isSome then .error .panic
  else
    let o := if o.depth = none then { o with depth } else o
    let o :=
      if o.offValue = none then
        { o with offValue := values.map Prod.fst, onValue := values.map Prod.snd }
      else o
    pure (o, (if depth.isSome then [args.ONEHOT_DEPTH] else []) ++
      if values.isSome then [args.ONEHOT_VALUES] else [])

/-- The scalar at a place of `Clip`. -/
def clipBound (constants : Constants) (arg : Nat) : Option F64 :=
  (constants arg).bind fun tensor => tensor.data.toScalarData.map ScalarData.asF64

/-- `Clip`. -/
def propClip (constants : Constants) (c : Clip) : Clip × List Nat :=
  let min := clipBound constants args.CLIP_MIN
  let max := clipBound constants args.CLIP_MAX
  ({ min := c.min <|> min, max := c.max <|> max },
    (if c.min.isNone && min.isSome then [args.CLIP_MIN] else []) ++
      if c.max.isNone && max.isSome then [args.CLIP_MAX] else [])

/-- `Resize`, which panics without scales and sizes. -/
def propResize (constants : Constants) (r : Resize) : Except Stop (Resize × List Nat) :=
  if r.scale.isSome then .ok (r, [])
  else
    let scales := (constants args.RESIZE_SCALES).bind Tensor.to1dFloats
    let sizes := (constants args.RESIZE_SIZES).bind Tensor.to1dSints
    let scale : Except Stop ResizeScale :=
      match scales, sizes with
      | some scales, none => .ok (.scales scales)
      | some [], some sizes => .ok (.sizes sizes)
      | none, some sizes => .ok (.sizes sizes)
      | some _, some _ => .error .panic
      | none, none => .error .panic
    scale.map fun scale =>
      ({ r with scale := some scale }, [args.RESIZE_ROI, args.RESIZE_SCALES, args.RESIZE_SIZES])

/-- What `prop_constant` makes of an operator, with the inputs that it then drops. -/
def propInto (constants : Constants) : Operator → Except Stop (Operator × List Nat)
  | .oneHot o => (propOneHot constants o).map fun x => (.oneHot x.1, x.2)
  | .clip c => .ok (.clip (propClip constants c).1, (propClip constants c).2)
  | .resize r => (propResize constants r).map fun x => (.resize x.1, x.2)
  | op => .ok (op, [])

end NnEngine
