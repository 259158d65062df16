import NnEngine.Schedule.Scheduler.Common

/-!
# The memory-aware list scheduler

`src/schedule/scheduler/memory_aware.rs`: every weight stays resident, and the ready kernel that
adds least to the arenas goes first.  `Run` is the scheduler's transition system, one step for each
pass through the loop of `run`; `build` is the whole run.
-/

namespace NnEngine
namespace MemoryAware

/-- The fields of the memory-aware `Scheduler` that the prefetch scheduler does not have, over the
shared ones.  `ready` is an ordered set; only its elements matter, not their order. -/
structure Scheduler extends SchedState where
  kernelPending : KernelId → Nat
  ready : List KernelId

/-- `needs_cuda`. -/
def needsCuda (S : Schedule) (placement : KernelId → Device) : Bool :=
  S.kernelIds.any fun kid => placement kid == .CUDA

/-- The number of streams the scheduler works with. -/
def streamsFor (S : Schedule) (numStreams : Nat) (placement : KernelId → Device) : Nat :=
  if needsCuda S placement then max numStreams 1 else 1

/-- The entry of `session_state_tier`: GPU if any CUDA kernel touches the state, else host. -/
def sessionStateTier (S : Schedule) (placement : KernelId → Device) (sv : ValueId) : MemoryTier :=
  if S.kernelIds.any fun kid => placement kid == .CUDA &&
      ((S.kernel kid).presentInputs ++ (S.kernel kid).outputs).contains sv
  then .gpuArena else .hostArena

def env (S : Schedule) (numStreams : Nat) (placement : KernelId → Device) : SchedEnv where
  schedule := S
  placement := placement
  numStreams := streamsFor S numStreams placement
  sessionStateTier := sessionStateTier S placement

/-- `Scheduler::new`. -/
def Scheduler.new (S : Schedule) (numStreams : Nat) (placement : KernelId → Device) :
    Scheduler where
  toSchedState := SchedState.new S (streamsFor S numStreams placement)
  kernelPending := fun kid => (S.kernelPreds kid).length
  ready := S.kernelIds.filter fun kid => (S.kernelPreds kid).length == 0

/-- The closure `score` of `pick_best`: the estimated change in arena occupancy. -/
def score (S : Schedule) (s : Scheduler) (kid : KernelId) : Int :=
  ((S.kernel kid).outputs.map fun o => (S.valueByteSize o : Int)).sum -
    (((S.kernel kid).presentInputs.filter fun v => s.valueRemainingUses v = 1).map
      fun v => (S.valueByteSize v : Int)).sum

/-- The order of the keys `(score(kid), kid)`. -/
def keyLt (S : Schedule) (s : Scheduler) (a b : KernelId) : Bool :=
  score S s a < score S s b || (score S s a == score S s b && a < b)

/-- `pick_best`. -/
def pickBest (S : Schedule) (s : Scheduler) : Option KernelId :=
  minBy? (keyLt S s) s.ready

/-- `pick_stream`: the stream of the predecessor scheduled last, else the least loaded stream.
`none` where `kernel_info[p]` or `unwrap` panics. -/
def pickStream (env : SchedEnv) (s : SchedState) (kid : KernelId) : Option StreamId :=
  if env.numStreams = 1 then some 0
  else
    match (env.schedule.kernelPreds kid).mapM s.info? with
    | none => none
    | some infos =>
        match maxBy? (fun a b : KernelInfo => a.order < b.order) infos with
        | some info => some info.stream
        | none =>
            (minBy? (fun a b : Nat × Nat => a.1 < b.1) s.streamLoad.zipIdx).map Prod.snd

/-- The loop that advances the ready set past a scheduled kernel. -/
def advanceReady (s : Scheduler) (cons : KernelId) : Scheduler :=
  let count := s.kernelPending cons - 1
  { s with
    kernelPending := Function.update s.kernelPending cons count
    ready := if count = 0 then s.ready.insert cons else s.ready }

/-- The head of `schedule_kernel`: the kernel is registered, and it waits for the predecessors on
other streams. -/
def enterKernel (env : SchedEnv) (st : SchedState) (kid : KernelId) (context : ExecutionContext) :
    SchedState × EventId :=
  let (st, event) := st.registerKernel env kid context.stream
  ({ st with
      steps := st.steps ++ (env.schedule.kernelPreds kid).flatMap (st.predWait context) }, event)

/-- `schedule_kernel` up to the ready set: waits, bindings, the kernel's step, its post
transfers, and the uses of its inputs. -/
def emitKernel (env : SchedEnv) (st : SchedState) (kid : KernelId) : Option SchedState := do
  let stream ← pickStream env st kid
  let context : ExecutionContext := ⟨env.placement kid, stream⟩
  let (st, event) := enterKernel env st kid context
  let (st, bindings) ← (env.schedule.kernel kid).presentInputs.foldlM
    (SchedState.bindInput env (env.placement kid).tier stream) (st, [])
  let (st, bindings, posts) ← st.bindOutputs env kid (env.placement kid).tier stream bindings
  let step ← SchedState.bodyStep env.schedule kid context event bindings
  let st := st.pushStep step
  let st := posts.foldl (SchedState.pushPostTransfer context) st
  return (env.schedule.kernel kid).presentInputs.foldl (SchedState.consumeInput stream) st

/-- `schedule_kernel`. -/
def scheduleKernel (env : SchedEnv) (s : Scheduler) (kid : KernelId) : Option Scheduler :=
  (emitKernel env s.toSchedState kid).map fun st =>
    (env.schedule.kernelConsumers kid).foldl advanceReady { s with toSchedState := st }

/-- `self.ready.remove(&kid)`. -/
def Scheduler.removeReady (s : Scheduler) (kid : KernelId) : Scheduler :=
  { s with ready := s.ready.filter (· != kid) }

/-- The loop of `run`, with fuel for its number of turns. -/
def runLoop (env : SchedEnv) : Nat → Scheduler → Option Scheduler
  | 0, _ => none
  | fuel + 1, s =>
      match pickBest env.schedule s with
      | none => some s
      | some kid =>
          match scheduleKernel env (s.removeReady kid) kid with
          | none => none
          | some s => runLoop env fuel s

/-- The run up to `finalize_outputs`; each turn takes one kernel out of the ready set. -/
def runKernels (S : Schedule) (numStreams : Nat) (placement : KernelId → Device) :
    Option Scheduler :=
  runLoop (env S numStreams placement) (S.kernels.length + 1) (Scheduler.new S numStreams placement)

/-- `build`: `Scheduler::new(...).run()`.  `none` is a panic. -/
def build (S : Schedule) (numStreams : Nat) (placement : KernelId → Device) :
    Option ExecutionPlan := do
  let s ← runKernels S numStreams placement
  let st ← SchedState.finalizeOutputs S s.toSchedState
  return st.intoPlan (streamsFor S numStreams placement)

end MemoryAware
end NnEngine
