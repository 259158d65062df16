import NnEngine.Schedule.Exec
import NnEngine.Session.Initializers

/-!
# The hybrid session

`SessionHybrid::run` of `src/session/hybrid.rs`: the steps of a plan are executed one after another,
CPU kernels through the compiled functions that `src/codegen/cpu.rs` generates, CUDA kernels through
the step functions of the shared library, and transfers by `cudaMemcpy`.

A pointer is modelled by the buffer that it points to, and a compiled kernel by what it computes from
its pointer arguments.  `cudaMemcpy` succeeds, and it orders after earlier and before later work.
-/

namespace NnEngine

/-- What the pointers of the runtime point to: the chunks of the arenas, the callers' tensors by
their index, and the initializers and session states by theirs.  An initializer has a host tensor
and a device buffer. -/
inductive Buffer
  | chunk (c : ChunkId) (tier : MemoryTier)
  | sessionState (i : Nat)
  | initializer (i : Nat) (tier : MemoryTier)
  | input (i : Nat)
  | output (i : Nat)
  deriving DecidableEq, Repr

inductive RunError
  | err (e : SessionError)
  | panic (message : String)
  deriving DecidableEq

/-- The device code reads through a host pointer, which the program does not notice. -/
def RunError.fault : RunError := .panic "illegal memory access"

/-! ### Code generation for the CPU -/

namespace CodeGenContext

/-- `value2place` of `CodeGenContext::new`: the place of the last kernel step that binds the value. -/
def value2place (plan : ExecutionPlan) : ValueId → Option AllocPlace :=
  plan.steps.foldl (fun m step => match step with
    | .kernel k => k.bindings.foldl (fun m b => Function.update m b.value (some b.place)) m
    | _ => m) fun _ => none

def kernelDevice (plan : ExecutionPlan) : KernelId → Option Device :=
  plan.steps.foldl (fun m step => match step with
    | .kernel k => Function.update m k.kernel (some k.context.device)
    | _ => m) fun _ => none

/-- `need_to_generate`. -/
def needToGenerate (S : Schedule) (plan : ExecutionPlan) (kid : KernelId) : Bool :=
  if kernelDevice plan kid ≠ some .CPU then false
  else if (S.kernel kid).isForward then
    match ((S.kernel kid).inputs.head?.join).bind (value2place plan),
        (S.kernel kid).outputs.head?.bind (value2place plan) with
    | some (.chunk a), some (.chunk b) => a != b
    | _, _ => false
  else true

/-- `all_necessary_kernels`. -/
def allNecessaryKernels (S : Schedule) (plan : ExecutionPlan) : List KernelId :=
  S.kernelIds.filter (needToGenerate S plan)

end CodeGenContext

/-! ### The session -/

/-- `stateIsHost` is `is_host` of the session state buffers. -/
structure SessionHybrid where
  schedule : Schedule
  plan : ExecutionPlan
  stateIsHost : Nat → Bool

namespace SessionHybrid

/-- `plan.arenas[chunk.arena].tier`, with the last entry for a chunk. -/
def chunkTier (plan : ExecutionPlan) (c : ChunkId) : Option MemoryTier :=
  (plan.chunks.reverse.find? fun info => info.id == c).bind fun info =>
    plan.arenas[info.arena]?.map ArenaInfo.tier

/-- `chunk2ptrs` of `HostArenas::new` has the chunk: one of the host arenas owns it. -/
def isHostChunk (plan : ExecutionPlan) (c : ChunkId) : Bool :=
  plan.chunks.any fun info => info.id == c &&
    plan.arenas.any fun a => a.tier == .hostArena && a.id == info.arena

/-- A kernel step on the GPU names only what the generated host code declares: the chunks of the GPU
arenas and the buffers of the caller, of the initializers and of the session states. -/
def declares (plan : ExecutionPlan) (p : AllocPlace) : Bool :=
  match p with
  | .chunk c => chunkTier plan c == some .gpuArena
  | _ => true

/-- `SessionHybrid::new`: the shared library of the CUDA kernels compiles. -/
def new (S : Schedule) (plan : ExecutionPlan) (stateIsHost : Nat → Bool) :
    Except SessionError SessionHybrid :=
  if plan.steps.all fun step => match step with
      | .kernel k => k.context.device == .CPU || k.bindings.all fun b => declares plan b.place
      | _ => true
  then .ok ⟨S, plan, stateIsHost⟩
  else .error (.otherError "compile error")

/-- `kernel_fns`, `transfer_fns` and the rest of the CUDA state are there. -/
def hasCuda (s : SessionHybrid) : Bool :=
  s.plan.steps.any fun step => match step with
    | .kernel k => k.context.device == .CUDA
    | .transfer _ => true
    | .syncWait _ => false

/-- `iter().position(..)` on one of the schedule's lists. -/
def position (l : List ValueId) (v : ValueId) (msg : String) : Except RunError Nat :=
  if v ∈ l then .ok (l.idxOf v) else .error (.err (.otherError msg))

/-- `input_ptrs[idx]`: the caller may pass fewer tensors than the schedule has inputs. -/
def inputPtr (numInputs i : Nat) : Except RunError Buffer :=
  if i < numInputs then .ok (.input i) else .error (.panic "index out of bounds")

/-- The closure `resolve` of `run`. -/
def resolve (s : SessionHybrid) (numInputs : Nat) : AllocPlace → Except RunError Buffer
  | .chunk c =>
      if isHostChunk s.plan c then .ok (.chunk c .hostArena)
      else .error (.err (.otherError s!"missing chunk {c}"))
  | .input v => do
      let idx ← position s.schedule.inputs v s!"input Id({v}) not found"
      inputPtr numInputs idx
  | .output v => do
      let idx ← position s.schedule.outputs v s!"output Id({v}) not found"
      .ok (.output idx)
  | .initializer v => do
      let idx ← position s.schedule.initializers v s!"initializer Id({v}) not found"
      .ok (.initializer idx .hostArena)
  | .sessionState v => do
      let idx ← position s.schedule.sessionStates v s!"session_state Id({v}) not found"
      if s.stateIsHost idx then .ok (.sessionState idx)
      else .error (.err (.otherError
        s!"CPU kernel touches GPU-resident session_state Id({v}) (mixed-device session state is not supported)"))

/-- The closure `resolve_with_tier` of `run`. -/
def resolveWithTier (s : SessionHybrid) (numInputs : Nat) :
    AllocPlace → Except RunError (Buffer × MemoryTier)
  | .chunk c =>
      match chunkTier s.plan c with
      | none => .error (.err (.otherError s!"unknown chunk {c}"))
      | some .hostArena =>
          if isHostChunk s.plan c then .ok (.chunk c .hostArena, .hostArena)
          else .error (.err (.otherError s!"missing host chunk {c}"))
      | some .gpuArena => .ok (.chunk c .gpuArena, .gpuArena)
  | .input v => do
      let i ← position s.schedule.inputs v s!"input Id({v})"
      let ptr ← inputPtr numInputs i
      .ok (ptr, .hostArena)
  | .output v => do
      let i ← position s.schedule.outputs v s!"output Id({v})"
      .ok (.output i, .hostArena)
  | .sessionState v => do
      let i ← position s.schedule.sessionStates v s!"session_state Id({v}) not found"
      .ok (.sessionState i, if s.stateIsHost i then .hostArena else .gpuArena)
  | .initializer v => do
      let i ← position s.schedule.initializers v s!"initializer Id({v}) not found"
      .ok (.initializer i .hostArena, .hostArena)

/-- The pointer that a CUDA kernel's step function has for a place: its variable in the generated
host code, where a session state has to be on the GPU. -/
def deviceBuffer (s : SessionHybrid) (numInputs : Nat) : AllocPlace → Except RunError Buffer
  | .chunk c => .ok (.chunk c .gpuArena)
  | .input v => do
      let i ← position s.schedule.inputs v s!"h_input_{v}"
      if i < numInputs then .ok (.input i) else .error .fault
  | .output v => do
      let i ← position s.schedule.outputs v s!"h_output_{v}"
      .ok (.output i)
  | .initializer v => do
      let i ← position s.schedule.initializers v s!"d_init_{v}"
      .ok (.initializer i .gpuArena)
  | .sessionState v => do
      let i ← position s.schedule.sessionStates v s!"d_session_state_{v}"
      if s.stateIsHost i then .error .fault else .ok (.sessionState i)

/-- The contents of the buffers. -/
abbrev Contents (α : Type) := Buffer → α

variable {α : Type}

/-- What a compiled kernel does with its pointers, `outs` for its outputs and `ins` for its present
inputs: it reads the inputs, leaves anything in its workspaces and writes the outputs. -/
def compiledKernel {A : Type} [DecidableEq A] {S : Schedule} (I : Interp S α) (kid : KernelId)
    (outs ins : List A) (m : A → α) : A → α :=
  let operands := (S.kernel kid).presentInputs.zip ins
  let xs := (operands.filter fun o => !S.isScratch o.1).map fun o => m o.2
  let m := (operands.filter fun o => S.isScratch o.1).foldl
    (fun m o => Function.update m o.2 (I.scratch kid xs o.1)) m
  outs.zipIdx.foldl (fun m bj => Function.update m bj.1 (I.out kid xs bj.2)) m

/-- `call_kernel`: the calls are dispatched by the number of arguments. -/
def callKernel {S : Schedule} (I : Interp S α) (kid : KernelId) (outs ins : List Buffer)
    (m : Contents α) : Except RunError (Contents α) :=
  if outs.length + ins.length ≤ 8 then .ok (compiledKernel I kid outs ins m)
  else .error (.panic s!"CPU kernel arity {outs.length + ins.length} not supported")

/-- `bindings_by_value`: the last binding of the value. -/
def bindingsByValue (k : KernelStep) (v : ValueId) : Option AllocPlace :=
  (k.bindings.reverse.find? fun b => b.value == v).map ValueBinding.place

/-- The pointer argument for an operand. -/
def argument (place : ValueId → Option AllocPlace) (resolve : AllocPlace → Except RunError Buffer)
    (missing : ValueId → String) (v : ValueId) : Except RunError Buffer :=
  match place v with
  | none => .error (.err (.otherError (missing v)))
  | some p => resolve p

/-- A kernel step on the CPU. -/
def runCpuKernel (s : SessionHybrid) (I : Interp s.schedule α) (numInputs : Nat) (k : KernelStep)
    (m : Contents α) : Except RunError (Contents α) := do
  let kernel := s.schedule.kernel k.kernel
  let outs ← kernel.outputs.mapM
    (argument (bindingsByValue k) (s.resolve numInputs) fun v => s!"output binding for Id({v}) missing")
  let ins ← kernel.presentInputs.mapM
    (argument (bindingsByValue k) (s.resolve numInputs) fun v => s!"input binding for Id({v}) missing")
  -- without a generated function the step is skipped
  if k.kernel ∈ CodeGenContext.allNecessaryKernels s.schedule s.plan then
    callKernel I k.kernel outs ins m
  else .ok m

/-- A kernel step on the GPU: its step function from the shared library. -/
def runCudaKernel (s : SessionHybrid) (I : Interp s.schedule α) (numInputs : Nat) (k : KernelStep)
    (m : Contents α) : Except RunError (Contents α) := do
  if s.hasCuda then
    let kernel := s.schedule.kernel k.kernel
    let outs ← kernel.outputs.mapM
      (argument (bindingsByValue k) (s.deviceBuffer numInputs) fun v => s!"value2place {v}")
    let ins ← kernel.presentInputs.mapM
      (argument (bindingsByValue k) (s.deviceBuffer numInputs) fun v => s!"value2place {v}")
    .ok (compiledKernel I k.kernel outs ins m)
  else
    .error (.err (.otherError "CUDA kernel encountered but CudaState was not built"))

/-- A transfer step. -/
def runTransfer (s : SessionHybrid) (numInputs : Nat) (t : TransferStep) (m : Contents α) :
    Except RunError (Contents α) := do
  if s.hasCuda then
    let (src, _) ← s.resolveWithTier numInputs t.src.place
    let (dst, _) ← s.resolveWithTier numInputs t.dst.place
    .ok (Function.update m dst (m src))
  else
    .error (.err (.otherError "Transfer step encountered but CudaState was not built"))

/-- One turn of the loop of `run`. -/
def runStep (s : SessionHybrid) (I : Interp s.schedule α) (numInputs : Nat) (m : Contents α) :
    Step → Except RunError (Contents α)
  | .kernel k =>
      if k.context.device = .CPU then s.runCpuKernel I numInputs k m
      else s.runCudaKernel I numInputs k m
  | .transfer t => s.runTransfer numInputs t m
  | .syncWait _ => .ok m

/-- The buffers before the steps: the caller's tensors, the initializers with their copies on the
device, and the session states. -/
def start (inputs : List α) (initializer sessionState : Nat → α) (rest : Contents α) : Contents α
  | .input i => inputs.getD i (rest (.input i))
  | .initializer i _ => initializer i
  | .sessionState i => sessionState i
  | b => rest b

/-- `SessionHybrid::run`: the contents of the output buffers. -/
def run (s : SessionHybrid) (I : Interp s.schedule α) (inputs : List α)
    (initializer sessionState : Nat → α) (rest : Contents α) : Except RunError (List α) :=
  (s.plan.steps.foldlM (s.runStep I inputs.length) (start inputs initializer sessionState rest)).map
    fun m => (List.range s.schedule.outputs.length).map fun i => m (.output i)

end SessionHybrid
end NnEngine
