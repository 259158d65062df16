import NnEngine.Result
import NnEngine.Schedule.Basic

/-!
# The host code of a plan

`HostCodeGenerator` of `src/codegen/cuda.rs`: how the steps of a plan become the step functions of
the generated host code.  `launch` stands for the match on the kernel's body in `call_kernel`.
-/

namespace NnEngine

inductive BuildError
  | unresolvedType (v : ValueId)
  | unresolvedAllocateInfo (kid : KernelId)
  | unexpectedMemAlloc (v : ValueId)
  | chunkNotFound (v : ValueId)
  | noHostVariable (v : ValueId)
  | noDeviceVariable (c : ChunkId)
  | eventNotFound (v : ValueId)
  | activationNotFound (kid : KernelId)
  | unsupportedTensorDim (v : ValueId) (ndim : Nat)
  | nonContiguousTensor (v : ValueId)
  deriving DecidableEq, Repr

inductive HostCodeError
  | panic (message : String)
  | build (e : BuildError)
  deriving DecidableEq, Repr

inductive CudaMemcpyKind
  | hostToDevice
  | deviceToHost
  deriving DecidableEq, Repr

/-- The statements of a step function.  `launch` holds what `call_kernel` emits for the kernel's
body. -/
inductive Statement (β : Type)
  | waitEvent (stream : StreamId) (event : EventId)
  | memcpy (dst src : AllocPlace) (memSize : Nat) (kind : CudaMemcpyKind) (stream : StreamId)
  | launch (op : β)
  | recordEvent (event : EventId) (stream : StreamId)
  deriving DecidableEq, Repr

structure KernelStreamView where
  streamId : StreamId
  eventId : EventId
  toWait : List EventId
  deriving DecidableEq, Repr

inductive StepKey
  | kernel (kid : KernelId)
  | transfer (idx : Nat)
  deriving DecidableEq, Repr

structure HostCodeGenerator where
  streams : KernelId → Option KernelStreamView
  transferStreams : Nat → Option KernelStreamView
  toRecordEvents : List EventId

namespace HostCodeGenerator

/-- The generator with the local `pending_waits` of `new`. -/
structure Collecting extends HostCodeGenerator where
  pendingWaits : List EventId

def Collecting.init : Collecting where
  streams := fun _ => none
  transferStreams := fun _ => none
  toRecordEvents := []
  pendingWaits := []

/-- One turn of the loop of `new`. -/
def collect (st : Collecting) : Step × Nat → Except HostCodeError Collecting
  | (.syncWait w, _) => .ok
      { st with
        toRecordEvents := st.toRecordEvents.insert w.event
        pendingWaits := st.pendingWaits ++ [w.event] }
  | (.kernel k, _) =>
      match k.recordsEvent with
      | none => .error (.panic "CUDA kernel step must have records_event")
      | some event => .ok
          { st with
            streams := Function.update st.streams k.kernel
              (some ⟨k.context.stream, event, st.pendingWaits⟩)
            pendingWaits := [] }
  | (.transfer t, idx) =>
      match t.recordsEvent with
      | none => .error (.panic "CUDA transfer step must have records_event")
      | some event => .ok
          { st with
            transferStreams := Function.update st.transferStreams idx
              (some ⟨t.context.stream, event, st.pendingWaits⟩)
            pendingWaits := [] }

/-- `HostCodeGenerator::new`. -/
def new (plan : ExecutionPlan) : Except HostCodeError HostCodeGenerator :=
  (plan.steps.zipIdx.foldlM collect Collecting.init).map Collecting.toHostCodeGenerator

/-- `place_identifier`: every place but an unknown chunk has a name. -/
def placeIdentifier (plan : ExecutionPlan) (p : AllocPlace) : Except HostCodeError AllocPlace :=
  match p with
  | .chunk c =>
      if plan.chunks.any (fun info => info.id == c) then .ok (.chunk c)
      else .error (.build (.noDeviceVariable c))
  | _ => .ok p

/-- The direction of the copy, where the wrapper can emit it. -/
def memcpyKind : AllocPlace → AllocPlace → Option CudaMemcpyKind
  | .input _, _ => some .hostToDevice
  | _, .output _ => some .deviceToHost
  | .initializer _, _ => some .hostToDevice
  | _, _ => none

variable {β : Type}

/-- The waits of a step, its own statements, and its record. -/
def bracket (g : HostCodeGenerator) (view : KernelStreamView) (body : List (Statement β)) :
    List (Statement β) :=
  view.toWait.map (.waitEvent view.streamId) ++ body ++
    if view.eventId ∈ g.toRecordEvents then [.recordEvent view.eventId view.streamId] else []

/-- The copy of a transfer step. -/
def transferBody (S : Schedule) (plan : ExecutionPlan) (t : TransferStep) :
    Except HostCodeError (List (Statement β)) :=
  match memcpyKind t.src.place t.dst.place with
  | none => .ok []
  | some kind => do
      let src ← placeIdentifier plan t.src.place
      let dst ← placeIdentifier plan t.dst.place
      .ok [.memcpy dst src (S.valueByteSize t.dst.value) kind t.context.stream]

/-- `emit_transfer`. -/
def emitTransfer (S : Schedule) (plan : ExecutionPlan) (g : HostCodeGenerator) (idx : Nat) :
    Except HostCodeError (List (Statement β)) :=
  match plan.steps[idx]?, g.transferStreams idx with
  | some (.transfer t), some view => (transferBody S plan t).map (g.bracket view)
  | _, _ => .error (.panic "unreachable")

/-- `call_kernel`. -/
def callKernel (launch : KernelId → Except HostCodeError (List β)) (g : HostCodeGenerator)
    (kid : KernelId) : Except HostCodeError (List (Statement β)) :=
  match g.streams kid with
  | some view => (launch kid).map fun ops => g.bracket view (ops.map .launch)
  | none => .error (.panic "no entry found for key")

/-- The operation that `gen_computes` finds in a step: a kernel on the GPU, or a transfer. -/
def op? : Step × Nat → Option StepKey
  | (.kernel k, _) => if k.context.device = .CUDA then some (.kernel k.kernel) else none
  | (.transfer _, idx) => some (.transfer idx)
  | (.syncWait _, _) => none

def emitOp (S : Schedule) (plan : ExecutionPlan)
    (launch : KernelId → Except HostCodeError (List β)) (g : HostCodeGenerator) :
    StepKey → Except HostCodeError (List (Statement β))
  | .kernel kid => g.callKernel launch kid
  | .transfer idx => g.emitTransfer S plan idx

/-- `gen_computes`: the step functions, in plan order. -/
def genComputes (S : Schedule) (plan : ExecutionPlan)
    (launch : KernelId → Except HostCodeError (List β)) (g : HostCodeGenerator) :
    Except HostCodeError (List (StepKey × List (Statement β))) :=
  (plan.steps.zipIdx.filterMap op?).mapM fun key =>
    (g.emitOp S plan launch key).map fun stmts => (key, stmts)

end HostCodeGenerator

open HostCodeGenerator

/-- The statements of all step functions in the order in which the steps run, each with the step
function it is in. -/
def hostCode {β : Type} (S : Schedule) (plan : ExecutionPlan)
    (launch : KernelId → Except HostCodeError (List β)) :
    Except HostCodeError (List (StepKey × Statement β)) := do
  let g ← HostCodeGenerator.new plan
  let perStep ← g.genComputes S plan launch
  .ok (perStep.flatMap fun (key, stmts) => stmts.map fun s => (key, s))

end NnEngine
