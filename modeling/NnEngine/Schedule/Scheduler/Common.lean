import NnEngine.Schedule.Basic

/-!
# Planning infrastructure shared by the schedulers

The dependency tables and the chunk allocator of `src/schedule/scheduler/common.rs`, and the part
of the schedulers' state and methods that the memory-aware and the prefetch scheduler write the
same way.  A Rust `panic!`, `unwrap` or `expect` that a caller could reach is `none`.
-/

namespace NnEngine

/-- `ALIGNMENT`. -/
def ALIGNMENT : Nat := 256

/-- `align_up`: the next multiple of `ALIGNMENT`. -/
def alignUp (size : Nat) : Nat :=
  (size + (ALIGNMENT - 1)) / ALIGNMENT * ALIGNMENT

/-! ### `min_by_key` and `max_by_key` -/

/-- `Iterator::min_by_key`: the first element that no other one is below. -/
def minBy? {α : Type*} (lt : α → α → Bool) : List α → Option α
  | [] => none
  | a :: l => some (l.foldl (fun m b => if lt b m then b else m) a)

/-- `Iterator::max_by_key`: the last element that is below no other one. -/
def maxBy? {α : Type*} (lt : α → α → Bool) : List α → Option α
  | [] => none
  | a :: l => some (l.foldl (fun m b => if lt b m then m else b) a)

theorem foldl_pick_mem {α : Type*} (pick : α → α → α) (hpick : ∀ m b, pick m b = m ∨ pick m b = b)
    (a : α) (l : List α) : l.foldl pick a ∈ a :: l := by
  induction l generalizing a with
  | nil => simp
  | cons b l ih =>
      rw [List.foldl_cons]
      have hstep := ih (pick a b)
      rcases hpick a b with h | h
      · rw [h] at hstep ⊢
        rcases List.mem_cons.mp hstep with h | h
        · rw [h]
          exact List.mem_cons_self
        · exact List.mem_cons_of_mem _ (List.mem_cons_of_mem _ h)
      · rw [h] at hstep ⊢
        exact List.mem_cons_of_mem _ hstep

theorem minBy?_mem {α : Type*} {lt : α → α → Bool} {l : List α} {a : α}
    (h : minBy? lt l = some a) : a ∈ l := by
  cases l with
  | nil => cases h
  | cons b l =>
      obtain rfl := Option.some.inj h
      exact foldl_pick_mem _ (fun m b => by split <;> simp) b l

theorem minBy?_eq_none {α : Type*} {lt : α → α → Bool} {l : List α} (h : minBy? lt l = none) :
    l = [] := by
  cases l with
  | nil => rfl
  | cons b l => cases h

theorem maxBy?_mem {α : Type*} {lt : α → α → Bool} {l : List α} {a : α}
    (h : maxBy? lt l = some a) : a ∈ l := by
  cases l with
  | nil => cases h
  | cons b l =>
      obtain rfl := Option.some.inj h
      exact foldl_pick_mem _ (fun m b => by split <;> simp) b l

/-! ### Dependency tables -/

namespace Schedule

/-- `Deps::value2producer`: kernels are inserted in order, so the last producer wins. -/
def value2producer (S : Schedule) (v : ValueId) : Option KernelId :=
  S.kernelIds.reverse.find? (fun kid => (S.kernel kid).outputs.contains v)

/-- `Deps::value_uses_count`: one use for each input slot that holds `v`. -/
def valueUsesCount (S : Schedule) (v : ValueId) : Nat :=
  (S.kernels.map fun k => k.presentInputs.count v).sum

/-- `Deps::kernel_preds`: the set of producers of a kernel's inputs, without the kernel itself.
The hash set's iteration order is unspecified; the list has the order of insertion. -/
def kernelPreds (S : Schedule) (kid : KernelId) : List KernelId :=
  ((S.kernel kid).presentInputs.filterMap S.value2producer).filter (· != kid) |>.dedup

/-- `Deps::kernel_consumers`. -/
def kernelConsumers (S : Schedule) (kid : KernelId) : List KernelId :=
  S.kernelIds.filter fun c => (S.kernelPreds c).contains kid

end Schedule

/-! ### The chunk allocator -/

structure ChunkState where
  arenaId : ArenaId
  size : Nat
  liveUses : Nat
  firstUse : Bool
  deriving DecidableEq, Repr

instance : Inhabited ChunkState := ⟨⟨0, 0, 0, false⟩⟩

/-- `ArenaChunks`.  Each free list is a stack; its top is the head of the list. -/
structure ArenaChunks where
  tier : MemoryTier
  owned : List ChunkId
  freePerStream : List (List ChunkId)
  deriving DecidableEq, Repr

instance : Inhabited ArenaChunks := ⟨⟨.hostArena, [], []⟩⟩

/-- `ArenaChunks::new`. -/
def ArenaChunks.new (tier : MemoryTier) (numStreams : Nat) : ArenaChunks :=
  { tier, owned := [], freePerStream := List.replicate numStreams [] }

structure ChunkAllocator where
  arena2chunks : List ArenaChunks := []
  allChunks : List ChunkState := []
  deriving DecidableEq, Repr

namespace ChunkAllocator

/-- `self.all_chunks[id]`. -/
def chunk (a : ChunkAllocator) (id : ChunkId) : ChunkState := a.allChunks.getD id default

/-- `self.arena2chunks[id]`. -/
def arena (a : ChunkAllocator) (id : ArenaId) : ArenaChunks := a.arena2chunks.getD id default

/-- `self.all_chunks[id].live_uses`. -/
def liveUses (a : ChunkAllocator) (id : ChunkId) : Nat := (a.chunk id).liveUses

/-- `new_arena`. -/
def newArena (a : ChunkAllocator) (tier : MemoryTier) (numStreams : Nat) :
    ChunkAllocator × ArenaId :=
  ({ a with arena2chunks := a.arena2chunks ++ [ArenaChunks.new tier numStreams] },
    a.arena2chunks.length)

/-- `chunk_tier`. -/
def chunkTier (a : ChunkAllocator) (id : ChunkId) : MemoryTier :=
  (a.arena (a.chunk id).arenaId).tier

/-- The first half of `alloc`: pop the stream's free list, or own a new empty chunk. -/
def takeChunk (a : ChunkAllocator) (arenaId : ArenaId) (stream : StreamId) :
    ChunkAllocator × ChunkId :=
  match (a.arena arenaId).freePerStream.getD stream [] with
  | id :: rest =>
      ({ a with
          arena2chunks := a.arena2chunks.modify arenaId fun ar =>
            { ar with freePerStream := ar.freePerStream.set stream rest } }, id)
  | [] =>
      let id := a.allChunks.length
      ({ arena2chunks := a.arena2chunks.modify arenaId fun ar =>
            { ar with owned := ar.owned ++ [id] }
         allChunks := a.allChunks ++ [⟨arenaId, 0, 0, false⟩] }, id)

/-- `alloc`: the chunk grows to the request and gains its uses. -/
def alloc (a : ChunkAllocator) (size : Nat) (arenaId : ArenaId) (stream : StreamId) (uses : Nat) :
    ChunkAllocator × ChunkId :=
  let (a, id) := a.takeChunk arenaId stream
  ({ a with
      allChunks := a.allChunks.modify id fun e =>
        { e with size := max e.size size, liveUses := e.liveUses + uses } }, id)

/-- `add_uses`. -/
def addUses (a : ChunkAllocator) (id : ChunkId) (uses : Nat) : ChunkAllocator :=
  { a with allChunks := a.allChunks.modify id fun e => { e with liveUses := e.liveUses + uses } }

/-- `mark_as_first_use`. -/
def markAsFirstUse (a : ChunkAllocator) (id : ChunkId) : ChunkAllocator × Bool :=
  ({ a with allChunks := a.allChunks.modify id fun e => { e with firstUse := true } },
    !(a.chunk id).firstUse)

/-- `free`. -/
def free (a : ChunkAllocator) (id : ChunkId) (stream : StreamId) : ChunkAllocator :=
  { a with
      arena2chunks := a.arena2chunks.modify (a.chunk id).arenaId fun ar =>
        { ar with freePerStream := ar.freePerStream.modify stream (id :: ·) } }

/-- `release_if_dead`. -/
def releaseIfDead (a : ChunkAllocator) (id : ChunkId) (stream : StreamId) : ChunkAllocator :=
  if a.liveUses id = 0 then a.free id stream else a

/-- `consume`: `saturating_sub(1)`, and free at zero. -/
def consume (a : ChunkAllocator) (id : ChunkId) (stream : StreamId) : ChunkAllocator :=
  let a := { a with
    allChunks := a.allChunks.modify id fun e => { e with liveUses := e.liveUses - 1 } }
  a.releaseIfDead id stream

end ChunkAllocator

/-! ### The state shared by the two schedulers -/

structure KernelInfo where
  order : Nat
  stream : StreamId
  event : EventId
  device : Device
  deriving DecidableEq, Repr

structure TransferRecord where
  place : AllocPlace
  event : EventId
  stream : StreamId
  deriving DecidableEq, Repr

structure PostTransfer where
  src : ValueBinding
  dst : ValueBinding
  deriving DecidableEq, Repr

/-- What a scheduler fixes before its run.  `sessionStateTier` is a map in the memory-aware
scheduler and a constant in the prefetch scheduler. -/
structure SchedEnv where
  schedule : Schedule
  placement : KernelId → Device
  numStreams : Nat
  sessionStateTier : ValueId → MemoryTier

/-- The mutable fields the two schedulers share.  A map whose absent keys read as zero is a
function to `Nat`; `kernelInfo` lists its keys in the order of insertion. -/
structure SchedState where
  allocator : ChunkAllocator
  valueOnTier : ValueId → MemoryTier → Option TransferRecord
  nextEventId : Nat
  value2place : ValueId → Option AllocPlace
  valueRemainingUses : ValueId → Nat
  kernelInfo : List (KernelId × KernelInfo)
  streamLoad : List Nat
  steps : List Step

/-- The place of a value that exists before the plan runs: `initializers`, `session_states` and
`inputs` are inserted in this order, a later insertion overwriting an earlier one. -/
def Schedule.sourcePlace (S : Schedule) (v : ValueId) : Option AllocPlace :=
  if S.inputs.contains v then some (.input v)
  else if S.sessionStates.contains v then some (.sessionState v)
  else if S.initializers.contains v then some (.initializer v)
  else none

/-- `is_workspace`: neither produced, nor an input, nor a session state.  `bind_kernel` reaches the
test for a value that is not an initializer. -/
def Schedule.isWorkspace (S : Schedule) (v : ValueId) : Bool :=
  (S.value2producer v).isNone && !S.inputs.contains v && !S.sessionStates.contains v

namespace SchedState

/-- The shared part of `Scheduler::new`. -/
def new (S : Schedule) (numStreams : Nat) : SchedState where
  allocator := {}
  valueOnTier := fun _ _ => none
  nextEventId := 0
  value2place := S.sourcePlace
  valueRemainingUses := S.valueUsesCount
  kernelInfo := []
  streamLoad := List.replicate numStreams 0
  steps := []

/-- `self.kernel_info[&kid]`. -/
def info? (st : SchedState) (kid : KernelId) : Option KernelInfo :=
  st.kernelInfo.lookup kid

/-- `self.steps.push(step)`. -/
def pushStep (st : SchedState) (step : Step) : SchedState :=
  { st with steps := st.steps ++ [step] }

/-- `fresh_event`. -/
def freshEvent (st : SchedState) : SchedState × EventId :=
  ({ st with nextEventId := st.nextEventId + 1 }, st.nextEventId)

/-- `alloc_chunk`: the first arena of the tier, created on demand. -/
def allocChunk (env : SchedEnv) (st : SchedState) (tier : MemoryTier) (size : Nat)
    (stream : StreamId) (uses : Nat) : SchedState × ChunkId :=
  let (allocator, arenaId) :=
    match st.allocator.arena2chunks.findIdx? (fun a => a.tier == tier) with
    | some i => (st.allocator, i)
    | none => st.allocator.newArena tier env.numStreams
  let (allocator, id) := allocator.alloc size arenaId stream uses
  ({ st with allocator }, id)

/-- `matches!(place, AllocPlace::Chunk(cid) if self.allocator.mark_as_first_use(cid))`. -/
def markPlace (st : SchedState) (place : AllocPlace) : SchedState × Bool :=
  match place with
  | .chunk cid =>
      let (allocator, first) := st.allocator.markAsFirstUse cid
      ({ st with allocator }, first)
  | _ => (st, false)

/-- The device a tier belongs to, as `ensure_value_on_tier` picks it. -/
def tierDevice : MemoryTier → Device
  | .hostArena => .CPU
  | .gpuArena => .CUDA

/-- `needs_transfer`. -/
def needsTransfer (env : SchedEnv) (st : SchedState) (original : AllocPlace)
    (dstTier : MemoryTier) : Bool :=
  match original with
  | .chunk cid => st.allocator.chunkTier cid != dstTier
  | .input _ | .output _ => dstTier != .hostArena
  | .sessionState v => env.sessionStateTier v != dstTier
  | .initializer _ => false

/-- A 0-d `i64` is passed to kernels as a host-dereferenced launch argument. -/
def isHostScalar (S : Schedule) (v : ValueId) : Bool :=
  (S.valueType v).dims.isEmpty && (S.valueType v).elemType == .sInt .I64

/-- `ensure_value_on_tier`. -/
def ensureValueOnTier (env : SchedEnv) (st : SchedState) (value : ValueId) (original : AllocPlace)
    (dstTier : MemoryTier) (stream : StreamId) : SchedState × AllocPlace :=
  if !needsTransfer env st original dstTier then (st, original)
  else if isHostScalar env.schedule value then (st, original)
  else
    match st.valueOnTier value dstTier with
    | some cached =>
        let st :=
          match cached.place with
          | .chunk cid => { st with allocator := st.allocator.addUses cid 1 }
          | _ => st
        let st :=
          if cached.stream ≠ stream then
            st.pushStep (.syncWait ⟨⟨tierDevice dstTier, stream⟩, cached.event⟩)
          else st
        (st, cached.place)
    | none =>
        let size := env.schedule.valueByteSize value
        let (st, dstCid) := st.allocChunk env dstTier size stream 1
        let (st, event) := st.freshEvent
        let (st, srcFirstUse) := st.markPlace original
        let (st, dstFirstUse) := st.markPlace (.chunk dstCid)
        let st := st.pushStep (.transfer
          { src := ⟨value, .input, original, srcFirstUse⟩
            dst := ⟨value, .output, .chunk dstCid, dstFirstUse⟩
            context := ⟨tierDevice dstTier, stream⟩
            recordsEvent := some event })
        ({ st with
            valueOnTier := Function.update st.valueOnTier value
              (Function.update (st.valueOnTier value) dstTier (some ⟨.chunk dstCid, event, stream⟩)) },
          .chunk dstCid)

/-- One turn of the input loop of `bind_kernel`. -/
def bindInput (env : SchedEnv) (tier : MemoryTier) (stream : StreamId)
    (acc : SchedState × List ValueBinding) (input : ValueId) :
    Option (SchedState × List ValueBinding) :=
  let (st, bindings) := acc
  if env.schedule.initializers.contains input then
    some (st, bindings ++ [⟨input, .input, .initializer input, false⟩])
  else if env.schedule.isWorkspace input then
    let size := env.schedule.valueByteSize input
    let (st, cid) := st.allocChunk env tier size stream (st.valueRemainingUses input)
    let st := { st with value2place := Function.update st.value2place input (some (.chunk cid)) }
    let (st, first) := st.markPlace (.chunk cid)
    some (st, bindings ++ [⟨input, .workspace, .chunk cid, first⟩])
  else
    match st.value2place input with
    | none => none
    | some original =>
        let (st, place) := st.ensureValueOnTier env input original tier stream
        let (st, first) := st.markPlace place
        some (st, bindings ++ [⟨input, .input, place, first⟩])

/-- `bindings.iter().find(|b| b.value == v).map(|b| b.place)`. -/
def boundPlace (bindings : List ValueBinding) (v : ValueId) : Option AllocPlace :=
  (bindings.find? fun b => b.value == v).map ValueBinding.place

/-- `try_in_place_identity`.  The outer `none` is the panic of `inputs[0]` on an empty list. -/
def tryInPlaceIdentity (k : Kernel) (st : SchedState) (bindings : List ValueBinding) :
    Option (Option AllocPlace) :=
  if k.isForward then
    match k.inputs with
    | [] => none
    | none :: _ => some none
    | some in0 :: _ =>
        match boundPlace bindings in0 with
        | none => some none
        | some (.chunk cid) =>
            some (if st.valueRemainingUses in0 = 1 then some (.chunk cid) else none)
        | some p => some (some p)
  else some none

/-- `must_in_place_place`.  The outer `none` is one of the two `expect`s. -/
def mustInPlacePlace (S : Schedule) (kid : KernelId) (bindings : List ValueBinding) :
    Option (Option AllocPlace) :=
  match S.mustInPlaceInput kid with
  | none => some none
  | some idx =>
      match (S.kernel kid).inputs.getD idx none with
      | none => none
      | some v =>
          match boundPlace bindings v with
          | none => none
          | some p => some (some p)

/-- The place of one output, and whether it was freshly allocated. -/
def outputPlace (env : SchedEnv) (tier : MemoryTier) (stream : StreamId)
    (inPlace : Option AllocPlace) (st : SchedState) (output : ValueId) :
    SchedState × AllocPlace × Bool :=
  let fresh : SchedState × AllocPlace × Bool :=
    let (st, cid) := st.allocChunk env tier (env.schedule.valueByteSize output) stream
      (st.valueRemainingUses output)
    (st, .chunk cid, true)
  match inPlace with
  | some p => (st, p, false)
  | none =>
      match env.schedule.outputAliases output with
      | some target => if tier = .hostArena then (st, .output target, false) else fresh
      | none => fresh

/-- The accumulator of the output loop of `bind_kernel`. -/
abbrev BindAcc := SchedState × List ValueBinding × List PostTransfer

/-- `add_uses` on a place that is a chunk. -/
def addUsesAt (st : SchedState) (place : AllocPlace) (uses : Nat) : SchedState :=
  match place with
  | .chunk cid => { st with allocator := st.allocator.addUses cid uses }
  | _ => st

/-- `consume` on a place that is a chunk. -/
def consumeAt (st : SchedState) (place : AllocPlace) (stream : StreamId) : SchedState :=
  match place with
  | .chunk cid => { st with allocator := st.allocator.consume cid stream }
  | _ => st

/-- `release_if_dead` on a place that is a chunk. -/
def releaseAt (st : SchedState) (place : AllocPlace) (stream : StreamId) : SchedState :=
  match place with
  | .chunk cid => { st with allocator := st.allocator.releaseIfDead cid stream }
  | _ => st

/-- A place in a caller's output buffer. -/
def isOutputPlace : AllocPlace → Bool
  | .output _ => true
  | _ => false

/-- The transfer scheduled after the kernel for a graph output that was not written to a host
output buffer. -/
def postTransferOf (S : Schedule) (output : ValueId) (place : AllocPlace) : List PostTransfer :=
  match S.outputAliases output with
  | some target =>
      if isOutputPlace place then []
      else [⟨⟨output, .input, place, false⟩, ⟨output, .output, .output target, false⟩⟩]
  | none => []

/-- One turn of the output loop of `bind_kernel`. -/
def bindOutput (env : SchedEnv) (tier : MemoryTier) (stream : StreamId)
    (inPlace : Option AllocPlace) (acc : BindAcc) (output : ValueId) : BindAcc :=
  let (st, bindings, posts) := acc
  let uses := st.valueRemainingUses output
  let (st, place, allocated) := outputPlace env tier stream inPlace st output
  let st := { st with value2place := Function.update st.value2place output (some place) }
  let st := if allocated then st else st.addUsesAt place uses
  let post := postTransferOf env.schedule output place
  let st := if post.isEmpty then st else st.addUsesAt place 1
  let (st, first) := st.markPlace place
  let st := st.releaseAt place stream
  (st, bindings ++ [⟨output, .output, place, first⟩], posts ++ post)

/-- The output half of `bind_kernel`, after the inputs are bound. -/
def bindOutputs (env : SchedEnv) (kid : KernelId) (tier : MemoryTier) (stream : StreamId)
    (st : SchedState) (bindings : List ValueBinding) : Option BindAcc :=
  let k := env.schedule.kernel kid
  match tryInPlaceIdentity k st bindings with
  | none => none
  | some tryIdentity =>
      match mustInPlacePlace env.schedule kid bindings with
      | none => none
      | some mustPlace =>
          some (k.outputs.foldl (bindOutput env tier stream (tryIdentity.or mustPlace))
            (st, bindings, []))

/-- `self.kernel_info.insert(kid, ...)`, the fresh kernel event and the stream's load. -/
def registerKernel (env : SchedEnv) (st : SchedState) (kid : KernelId) (stream : StreamId) :
    SchedState × EventId :=
  let order := st.kernelInfo.length
  let (st, event) := st.freshEvent
  ({ st with
      kernelInfo := st.kernelInfo ++ [(kid, ⟨order, stream, event, env.placement kid⟩)]
      streamLoad := st.streamLoad.modify stream (· + 1) }, event)

/-- The `SyncWait` for one predecessor, when it ran on another stream. -/
def predWait (st : SchedState) (context : ExecutionContext) (pred : KernelId) : List Step :=
  match st.info? pred with
  | some i => if i.stream ≠ context.stream then [.syncWait ⟨context, i.event⟩] else []
  | none => []

/-- The step of the kernel itself: a `Transfer` operator is lowered to a transfer step. -/
def bodyStep (S : Schedule) (kid : KernelId) (context : ExecutionContext) (event : EventId)
    (bindings : List ValueBinding) : Option Step :=
  if (S.kernel kid).isTransfer then
    match bindings.find? (fun b => b.role == .input), bindings.find? (fun b => b.role == .output) with
    | some src, some dst => some (.transfer ⟨src, dst, context, some event⟩)
    | _, _ => none
  else some (.kernel ⟨kid, context, bindings, some event⟩)

/-- One turn of the `post_transfers` loop. -/
def pushPostTransfer (context : ExecutionContext) (st : SchedState) (pt : PostTransfer) :
    SchedState :=
  let (st, event) := st.freshEvent
  let st := st.pushStep (.transfer ⟨pt.src, pt.dst, context, some event⟩)
  st.consumeAt pt.src.place context.stream

/-- One turn of the loop that takes the uses of the kernel's inputs. -/
def consumeInput (stream : StreamId) (st : SchedState) (input : ValueId) : SchedState :=
  let st := { st with
    valueRemainingUses :=
      Function.update st.valueRemainingUses input (st.valueRemainingUses input - 1) }
  match st.value2place input with
  | some place => st.consumeAt place stream
  | none => st

/-- The values that a transfer step already brings to an output buffer. -/
def deliveredValues (steps : List Step) : List ValueId :=
  steps.filterMap fun s =>
    match s with
    | .transfer t => if isOutputPlace t.dst.place then some t.dst.value else none
    | _ => none

/-- One turn of the loop of `finalize_outputs`; `already` was collected before the loop.  The
outer `none` is the panic of `self.kernel_info[&kid]`. -/
def finalizeOutput (S : Schedule) (already : List ValueId) (st : SchedState) (v : ValueId) :
    Option SchedState :=
  if already.contains v then some st
  else
    match st.value2place v with
    | none => some st
    | some place =>
        if isOutputPlace place then some st
        else
          let context? : Option ExecutionContext :=
            match S.value2producer v with
            | some kid => (st.info? kid).map fun i => ⟨i.device, i.stream⟩
            | none => some ⟨.CPU, 0⟩
          context?.map fun context =>
            let (st, event) := st.freshEvent
            st.pushStep (.transfer
              { src := ⟨v, .input, place, false⟩
                dst := ⟨v, .output, .output v, false⟩
                context := context
                recordsEvent := some event })

/-- `finalize_outputs`. -/
def finalizeOutputs (S : Schedule) (st : SchedState) : Option SchedState :=
  S.outputs.foldlM (finalizeOutput S (deliveredValues st.steps)) st

/-- The chunks of one arena, laid out from `offset` on, and the arena's final size. -/
def layoutArena (a : ChunkAllocator) (arenaId : ArenaId) :
    List ChunkId → Nat → List ChunkInfo × Nat
  | [], offset => ([], offset)
  | cid :: owned, offset =>
      let size := (a.chunk cid).size
      let (rest, total) := layoutArena a arenaId owned (offset + alignUp size)
      (⟨cid, arenaId, size, offset⟩ :: rest, total)

/-- `into_plan`. -/
def intoPlan (numStreams : Nat) (st : SchedState) : ExecutionPlan where
  steps := st.steps
  chunks := (st.allocator.arena2chunks.zipIdx.map fun (ar, i) =>
    (layoutArena st.allocator i ar.owned 0).1).flatten
  arenas := st.allocator.arena2chunks.zipIdx.map fun (ar, i) =>
    ⟨i, ar.tier, (layoutArena st.allocator i ar.owned 0).2⟩
  events := (st.kernelInfo.map fun (_, i) => ⟨i.event, i.stream⟩).mergeSort
    fun a b => a.id ≤ b.id
  streamCount := numStreams

end SchedState

end NnEngine
