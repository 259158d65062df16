import NnEngine.Schedule.Ir

/-!
# Schedules

`Kernel`, `Schedule` and the pure queries of `src/schedule.rs` that the schedulers use.

A `Schedule` is built after type inference, so every value has a resolved type here; the source
panics in `value_byte_size` on a value that has none.
-/

namespace NnEngine

inductive ElementwiseOpArg
  | input (i : Nat)
  | nthResult (i : Nat)
  deriving DecidableEq, Repr

/-- `KernelBody`, with `Opaque` and `ElementWises` flattened to their one field. -/
inductive KernelBody
  | opaqueOp (op : Operator)
  | elementWises (ops : List (Operator × List ElementwiseOpArg))
  deriving DecidableEq, Repr

structure Kernel where
  inputs : List (Option ValueId)
  outputs : List ValueId
  body : KernelBody
  name : String := ""
  deriving DecidableEq, Repr

instance : Inhabited Kernel := ⟨{ inputs := [], outputs := [], body := .elementWises [] }⟩

/-- A kernel with one operator, one input and one output. -/
def Kernel.unary (op : Operator) (input output : ValueId) : Kernel :=
  { inputs := [some input], outputs := [output], body := .opaqueOp op }

/-- `kernel.inputs.iter().flatten()`: the present inputs, in order. -/
def Kernel.presentInputs (k : Kernel) : List ValueId :=
  k.inputs.filterMap id

/-- `matches_opaque!(kernel, Operator::Identity | Operator::Reinterpret(_))`. -/
def Kernel.isForward (k : Kernel) : Bool :=
  match k.body with
  | .opaqueOp .identity => true
  | .opaqueOp (.reinterpret _) => true
  | _ => false

/-- `matches_opaque!(kernel, Operator::Transfer(_))`. -/
def Kernel.isTransfer (k : Kernel) : Bool :=
  match k.body with
  | .opaqueOp (.transfer _) => true
  | _ => false

structure Schedule where
  inputs : List ValueId
  outputs : List ValueId
  initializers : List ValueId
  sessionStates : List ValueId
  kernels : List Kernel
  valueType : ValueId → ResolvedTensorType

namespace Schedule

/-- `self.kernels[kid]`. -/
def kernel (S : Schedule) (kid : KernelId) : Kernel :=
  S.kernels.getD kid default

/-- `self.kernels.iter().map(|(kid, _)| kid)`. -/
def kernelIds (S : Schedule) : List Nat :=
  List.range S.kernels.length

/-- `Schedule::value_byte_size`. -/
def valueByteSize (S : Schedule) (v : ValueId) : Nat :=
  (S.valueType v).byteSize

/-- `Schedule::must_in_place_input`. -/
def mustInPlaceInput (S : Schedule) (kid : KernelId) : Option Nat :=
  match (S.kernel kid).body with
  | .opaqueOp .kvCacheUpdate => some args.KVCACHE_UPDATE_CACHE
  | .opaqueOp .quantizingKVCacheUpdate => some args.QKVCACHE_UPDATE_CACHE
  | _ => none

/-- The map `passthrough_input` of `output_aliases`: the input of the `Identity` or `Reinterpret`
kernel that produces `v`.  Insertion in kernel order, so a later kernel wins. -/
def passthroughInput (S : Schedule) (v : ValueId) : Option ValueId :=
  S.kernels.foldl (fun m k =>
    if k.isForward && k.outputs.head? == some v then
      match k.inputs.head?.bind id with
      | some in0 => some in0
      | none => m
    else m) none

/-- The worklist loop of `output_aliases`: pop a value, point its passthrough input at the same
target, and push that input if it had no target yet.  The stack's top is the list's head. -/
def outputAliasesLoop (S : Schedule) :
    Nat → List ValueId → (ValueId → Option ValueId) → (ValueId → Option ValueId)
  | 0, _, aliases => aliases
  | _ + 1, [], aliases => aliases
  | fuel + 1, v :: queue, aliases =>
      match S.passthroughInput v with
      | none => outputAliasesLoop S fuel queue aliases
      | some pred =>
          let queue := if (aliases pred).isNone then pred :: queue else queue
          outputAliasesLoop S fuel queue (Function.update aliases pred (aliases v))

/-- `Schedule::output_aliases`.  A value enters the queue once as a graph output and at most once
as the passthrough input of a kernel, which bounds the number of pops. -/
def outputAliases (S : Schedule) : ValueId → Option ValueId :=
  S.outputAliasesLoop (S.outputs.length + S.kernels.length + 1) S.outputs.reverse
    (fun v => if v ∈ S.outputs then some v else none)

end Schedule

end NnEngine
