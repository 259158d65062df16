import NnEngine.Graph.Operator

/-!
# Execution plans

The plan language of `src/schedule/ir.rs`: places, value bindings, and the three kinds of step a
scheduler emits.
-/

namespace NnEngine

/-- `Id<Kernel>`: the index of a kernel in the schedule's kernel arena. -/
abbrev KernelId := Nat

abbrev ChunkId := Nat
abbrev ArenaId := Nat

/-- `StreamId(usize)`. -/
abbrev StreamId := Nat

/-- `EventId(usize)`. -/
abbrev EventId := Nat

inductive Device
  | CPU
  | CUDA
  deriving DecidableEq, Repr

inductive MemoryTier
  | gpuArena
  | hostArena
  deriving DecidableEq, Repr

/-- `Device::tier`. -/
def Device.tier : Device → MemoryTier
  | CPU => .hostArena
  | CUDA => .gpuArena

structure ExecutionContext where
  device : Device
  stream : StreamId
  deriving DecidableEq, Repr

structure ArenaInfo where
  id : ArenaId
  tier : MemoryTier
  size : Nat
  deriving DecidableEq, Repr

structure ChunkInfo where
  id : ChunkId
  arena : ArenaId
  size : Nat
  offset : Nat
  deriving DecidableEq, Repr

structure EventInfo where
  id : EventId
  stream : StreamId
  deriving DecidableEq, Repr

inductive AllocPlace
  | chunk (c : ChunkId)
  | sessionState (v : ValueId)
  | initializer (v : ValueId)
  | input (v : ValueId)
  | output (v : ValueId)
  deriving DecidableEq, Repr

inductive BindingRole
  | input
  | output
  | workspace
  deriving DecidableEq, Repr

structure ValueBinding where
  value : ValueId
  role : BindingRole
  place : AllocPlace
  isFirstUse : Bool
  deriving DecidableEq, Repr

structure KernelStep where
  kernel : KernelId
  context : ExecutionContext
  bindings : List ValueBinding
  recordsEvent : Option EventId
  deriving DecidableEq, Repr

structure SyncWaitStep where
  context : ExecutionContext
  event : EventId
  deriving DecidableEq, Repr

structure TransferStep where
  src : ValueBinding
  dst : ValueBinding
  context : ExecutionContext
  recordsEvent : Option EventId
  deriving DecidableEq, Repr

inductive Step
  | kernel (k : KernelStep)
  | syncWait (w : SyncWaitStep)
  | transfer (t : TransferStep)
  deriving DecidableEq, Repr

structure ExecutionPlan where
  steps : List Step
  chunks : List ChunkInfo
  arenas : List ArenaInfo
  events : List EventInfo
  streamCount : Nat
  deriving DecidableEq, Repr

end NnEngine
