import NnEngine.Result
import NnEngine.Schedule.Scheduler.Bindings
import NnEngine.Schedule.Scheduler.Blocks
import NnEngine.Schedule.Scheduler.Places
import NnEngine.Session.Hybrid

/-!
# The hybrid session executes the plan

`Stands` ties the buffers to the places of the plan, and `Agree` the contents of the one to those of
the other.  A step of the run keeps the agreement with the plan's own step (`runStep_agree`), so the
run of the whole plan ends with the plan's outputs.
-/

namespace NnEngine

/-- The chunks' arenas are at their own indices. -/
structure ExecutionPlan.Indexed (plan : ExecutionPlan) : Prop where
  ids : ∀ (i : Nat) (a : ArenaInfo), plan.arenas[i]? = some a → a.id = i
  owner : ∀ c ∈ plan.chunks, ∃ a, plan.arenas[c.arena]? = some a
  chunks : (plan.chunks.map ChunkInfo.id).Nodup

/-- What a step is executed on. -/
def Step.device : Step → Device
  | .kernel k => k.context.device
  | _ => .CPU

/-- All bindings of the step are at one place. -/
def KernelStep.InPlace (k : KernelStep) : Prop := ∀ b ∈ k.bindings, ∀ b' ∈ k.bindings, b.place = b'.place

/-- The step passes its input on where it is. -/
def Step.Skips (S : Schedule) : Step → Prop
  | .kernel k => (S.kernel k.kernel).isForward = true ∧ k.InPlace
  | _ => False

namespace SessionHybrid

/-- The steps that access the initializer on a tier. -/
def UsesInitializer (s : SessionHybrid) (v : ValueId) (t : MemoryTier) : Prop :=
  ∃ step ∈ s.plan.steps, ∃ b ∈ step.bindings, b.place = .initializer v ∧ step.device.tier = t

/-- The buffer that a step on the tier has for the place. -/
def buffer (s : SessionHybrid) (t : MemoryTier) : AllocPlace → Buffer
  | .chunk c => .chunk c t
  | .sessionState v => .sessionState (s.schedule.sessionStates.idxOf v)
  | .initializer v => .initializer (s.schedule.initializers.idxOf v) t
  | .input v => .input (s.schedule.inputs.idxOf v)
  | .output v => .output (s.schedule.outputs.idxOf v)

/-- The place has a buffer on the tier that some step uses. -/
def OnTier (s : SessionHybrid) (t : MemoryTier) : AllocPlace → Prop
  | .chunk c => chunkTier s.plan c = some t
  | .initializer v => s.UsesInitializer v t
  | _ => True

/-- The buffer holds what is at the place. -/
def Stands (s : SessionHybrid) (b : Buffer) (p : AllocPlace) : Prop :=
  s.plan.HasPlace s.schedule p ∧ ∃ t, s.OnTier t p ∧ b = s.buffer t p

/-- One buffer at most holds what is at the place. -/
def Exclusive (s : SessionHybrid) (p : AllocPlace) : Prop :=
  ∀ b b', s.Stands b p → s.Stands b' p → b = b'

/-- The buffers hold the contents of their places. -/
def Agree {α : Type} (s : SessionHybrid) (m : Contents α) (mem : Mem α) : Prop :=
  ∀ b p, s.Stands b p → m b = mem p

/-- A CPU kernel step can be given a pointer for the place. -/
def HostVisible (s : SessionHybrid) (numInputs : Nat) : AllocPlace → Prop
  | .chunk c => chunkTier s.plan c = some .hostArena
  | .sessionState v => s.stateIsHost (s.schedule.sessionStates.idxOf v) = true
  | .input v => s.schedule.inputs.idxOf v < numInputs
  | _ => True

/-- A CUDA kernel step can use the place. -/
def DeviceVisible (s : SessionHybrid) (numInputs : Nat) : AllocPlace → Prop
  | .sessionState v => s.stateIsHost (s.schedule.sessionStates.idxOf v) = false
  | .input v => s.schedule.inputs.idxOf v < numInputs
  | _ => True

/-- A transfer step can use the place. -/
def TransferVisible (s : SessionHybrid) (numInputs : Nat) : AllocPlace → Prop
  | .input v => s.schedule.inputs.idxOf v < numInputs
  | _ => True

/-- What the run asks of the plan to come to its end: the calls of generated CPU functions have at
most eight operands, and every step can use the places it binds. -/
structure Supported (s : SessionHybrid) (numInputs : Nat) : Prop where
  arity : ∀ k, .kernel k ∈ s.plan.steps → k.context.device = .CPU →
    k.kernel ∈ CodeGenContext.allNecessaryKernels s.schedule s.plan →
    (s.schedule.kernel k.kernel).outputs.length + (s.schedule.kernel k.kernel).presentInputs.length ≤ 8
  host : ∀ k, .kernel k ∈ s.plan.steps → k.context.device = .CPU →
    ∀ b ∈ k.bindings, s.HostVisible numInputs b.place
  device : ∀ k, .kernel k ∈ s.plan.steps → k.context.device = .CUDA →
    ∀ b ∈ k.bindings, s.DeviceVisible numInputs b.place
  transfer : ∀ t, .transfer t ∈ s.plan.steps → ∀ b ∈ [t.src, t.dst], s.TransferVisible numInputs b.place

/-- What the run asks of the plan to end with its outputs: a CPU kernel without a generated function
passes its input on where it is, an initializer that is updated is used on one tier, and no output is
listed twice. -/
structure Faithful (s : SessionHybrid) : Prop where
  skipped : ∀ k, .kernel k ∈ s.plan.steps → k.context.device = .CPU →
    k.kernel ∉ CodeGenContext.allNecessaryKernels s.schedule s.plan → k.InPlace
  updates : ∀ step ∈ s.plan.steps, ¬ step.Skips s.schedule → ∀ b ∈ step.writes, ∀ v,
    b.place = .initializer v → ∀ t t', s.UsesInitializer v t → s.UsesInitializer v t' → t = t'
  distinct : s.schedule.outputs.Nodup

variable {α : Type} {s : SessionHybrid} {m m' : Contents α} {mem : Mem α} {b b' : Buffer}
  {p p' : AllocPlace} {numInputs : Nat} {v w : ValueId}

/-! ### Buffers and places -/

/-- Places of one buffer are one place. -/
theorem buffer_inj {t t' : MemoryTier} (hp : s.plan.HasPlace s.schedule p)
    (hp' : s.plan.HasPlace s.schedule p') (h : s.buffer t p = s.buffer t' p') : p = p' := by
  cases p with
  | chunk c =>
      cases p' <;> simp only [buffer, Buffer.chunk.injEq, reduceCtorEq] at h
      rw [h.1]
  | sessionState v =>
      cases p' <;> simp only [buffer, Buffer.sessionState.injEq, reduceCtorEq] at h
      rw [(List.idxOf_inj hp).mp h]
  | initializer v =>
      cases p' <;> simp only [buffer, Buffer.initializer.injEq, reduceCtorEq] at h
      rw [(List.idxOf_inj hp).mp h.1]
  | input v =>
      cases p' <;> simp only [buffer, Buffer.input.injEq, reduceCtorEq] at h
      rw [(List.idxOf_inj hp).mp h]
  | output v =>
      cases p' <;> simp only [buffer, Buffer.output.injEq, reduceCtorEq] at h
      rw [(List.idxOf_inj hp).mp h]

theorem Stands.unique (h : s.Stands b p) (h' : s.Stands b p') : p = p' := by
  obtain ⟨hp, t, -, rfl⟩ := h
  obtain ⟨hp', t', -, heq⟩ := h'
  exact buffer_inj hp hp' heq

/-- Only an initializer can have two buffers. -/
theorem exclusive_of_ne (h : ∀ v, p ≠ .initializer v) : s.Exclusive p := by
  rintro b b' ⟨-, t, ht, rfl⟩ ⟨-, t', ht', rfl⟩
  cases p with
  | initializer v => exact absurd rfl (h v)
  | chunk c =>
      have heq : some t = some t' := ht.symm.trans ht'
      rw [Option.some.inj heq]
  | sessionState v => rfl
  | input v => rfl
  | output v => rfl

/-- Writing a buffer writes its place. -/
theorem Agree.update (h : s.Agree m mem) (hb : s.Stands b p) (hex : s.Exclusive p) (x : α) :
    s.Agree (Function.update m b x) (Function.update mem p x) := by
  intro b' p' hb'
  by_cases hbb : b' = b
  · subst hbb
    rw [hb'.unique hb, Function.update_self, Function.update_self]
  · have hpp : p' ≠ p := by
      rintro rfl
      exact hbb (hex b' b hb' hb)
    rw [Function.update_of_ne hbb, Function.update_of_ne hpp]
    exact h b' p' hb'

/-! ### Pointers -/

theorem position_ok {l : List ValueId} (hv : v ∈ l) (msg : String) :
    position l v msg = .ok (l.idxOf v) := if_pos hv

theorem inputPtr_eq_ok {i : Nat} : (∃ b, inputPtr numInputs i = .ok b) ↔ i < numInputs := by
  unfold inputPtr
  split
  · rename_i h
    simp [h]
  · rename_i h
    simp [h]

section Tiers

variable {plan : ExecutionPlan} (hplan : plan.Indexed) {c : ChunkId} {t : MemoryTier}
include hplan

/-- The chunk is in an arena of the tier. -/
theorem chunkTier_eq_some : chunkTier plan c = some t ↔
    ∃ info ∈ plan.chunks, info.id = c ∧ ∃ a, plan.arenas[info.arena]? = some a ∧ a.tier = t := by
  unfold chunkTier
  constructor
  · intro h
    obtain ⟨info, hinfo, htier⟩ := Option.bind_eq_some_iff.mp h
    obtain ⟨a, ha, ht⟩ := Option.map_eq_some_iff.mp htier
    have hmem := List.mem_of_find?_eq_some hinfo
    have hid := List.find?_some hinfo
    exact ⟨info, List.mem_reverse.mp hmem, by simpa using hid, a, ha, ht⟩
  · rintro ⟨info, hinfo, rfl, a, ha, rfl⟩
    have hfind : plan.chunks.reverse.find? (fun x => x.id == info.id) = some info := by
      cases hf : plan.chunks.reverse.find? (fun x => x.id == info.id) with
      | none =>
          rw [List.find?_eq_none] at hf
          exact absurd (by simp) (hf info (List.mem_reverse.mpr hinfo))
      | some x =>
          have hx := List.mem_reverse.mp (List.mem_of_find?_eq_some hf)
          have hid : x.id = info.id := by simpa using List.find?_some hf
          rw [List.inj_on_of_nodup_map hplan.chunks hx hinfo hid]
    rw [hfind, Option.bind_some, ha]
    rfl

theorem chunkTier_isSome (h : ∃ info ∈ plan.chunks, info.id = c) : ∃ t, chunkTier plan c = some t := by
  obtain ⟨info, hinfo, rfl⟩ := h
  obtain ⟨a, ha⟩ := hplan.owner info hinfo
  exact ⟨a.tier, (chunkTier_eq_some hplan).mpr ⟨info, hinfo, rfl, a, ha, rfl⟩⟩

/-- Both tables find the same chunks on the host. -/
theorem isHostChunk_iff : isHostChunk plan c = true ↔ chunkTier plan c = some .hostArena := by
  rw [chunkTier_eq_some hplan]
  simp only [isHostChunk, List.any_eq_true, Bool.and_eq_true, beq_iff_eq]
  constructor
  · rintro ⟨info, hinfo, hid, a, ha, ht, hai⟩
    obtain ⟨i, hi⟩ := List.getElem?_of_mem ha
    refine ⟨info, hinfo, hid, a, ?_, ht⟩
    rw [← hai, hplan.ids i a hi]
    exact hi
  · rintro ⟨info, hinfo, hid, a, ha, ht⟩
    exact ⟨info, hinfo, hid, a, List.mem_of_getElem? ha, ht, hplan.ids _ a ha⟩

end Tiers

/-- `resolve` finds the host's buffer of a place that the host can see, and no other. -/
theorem resolve_ok (hplan : s.plan.Indexed) (hp : s.plan.HasPlace s.schedule p) :
    (s.HostVisible numInputs p → s.resolve numInputs p = .ok (s.buffer .hostArena p)) ∧
      ((∃ b, s.resolve numInputs p = .ok b) → s.HostVisible numInputs p) := by
  cases p with
  | chunk c =>
      simp only [resolve, isHostChunk_iff hplan, HostVisible]
      constructor
      · intro h
        rw [if_pos h]
        rfl
      · rintro ⟨b, hb⟩
        split at hb
        · assumption
        · cases hb
  | sessionState v =>
      simp only [resolve, position_ok hp, HostVisible]
      constructor
      · intro h
        simp [h, buffer, bind, Except.bind]
      · rintro ⟨b, hb⟩
        by_contra h
        simp [h, bind, Except.bind] at hb
  | initializer v => simp [resolve, position_ok hp, HostVisible, buffer, bind, Except.bind]
  | input v =>
      simp only [resolve, position_ok hp, HostVisible]
      constructor
      · intro h
        simp [inputPtr, h, buffer, bind, Except.bind]
      · rintro ⟨b, hb⟩
        exact inputPtr_eq_ok.mp ⟨b, hb⟩
  | output v => simp [resolve, position_ok hp, HostVisible, buffer, bind, Except.bind]

theorem deviceBuffer_ok (hp : s.plan.HasPlace s.schedule p) :
    (s.DeviceVisible numInputs p → s.deviceBuffer numInputs p = .ok (s.buffer .gpuArena p)) ∧
      ((∃ b, s.deviceBuffer numInputs p = .ok b) → s.DeviceVisible numInputs p) := by
  cases p with
  | chunk c => simp [deviceBuffer, DeviceVisible, buffer]
  | sessionState v =>
      simp only [deviceBuffer, position_ok hp, DeviceVisible]
      cases h : s.stateIsHost (s.schedule.sessionStates.idxOf v) <;>
        simp [h, buffer, bind, Except.bind]
  | initializer v => simp [deviceBuffer, position_ok hp, DeviceVisible, buffer, bind, Except.bind]
  | input v =>
      simp only [deviceBuffer, position_ok hp, DeviceVisible]
      constructor
      · intro h
        simp [h, buffer, bind, Except.bind]
      · rintro ⟨b, hb⟩
        by_contra h
        simp [h, bind, Except.bind] at hb
  | output v => simp [deviceBuffer, position_ok hp, DeviceVisible, buffer, bind, Except.bind]

/-- The tier on which a transfer finds the place. -/
def transferTier (s : SessionHybrid) : AllocPlace → MemoryTier
  | .chunk c => (chunkTier s.plan c).getD .hostArena
  | _ => .hostArena

theorem resolveWithTier_ok (numInputs : Nat) (hplan : s.plan.Indexed) (hp : s.plan.HasPlace s.schedule p) :
    (s.TransferVisible numInputs p →
      ∃ t, s.resolveWithTier numInputs p = .ok (s.buffer (s.transferTier p) p, t)) ∧
    ((∃ b, s.resolveWithTier numInputs p = .ok b) → s.TransferVisible numInputs p) := by
  cases p with
  | chunk c =>
      obtain ⟨t, ht⟩ := chunkTier_isSome hplan hp
      have hhost := isHostChunk_iff hplan (c := c)
      cases t with
      | hostArena =>
          rw [ht] at hhost
          simp [resolveWithTier, TransferVisible, transferTier, buffer, ht, hhost.mpr rfl]
      | gpuArena => simp [resolveWithTier, TransferVisible, transferTier, buffer, ht]
  | sessionState v =>
      simp [resolveWithTier, position_ok hp, TransferVisible, buffer, bind, Except.bind]
  | initializer v =>
      simp [resolveWithTier, position_ok hp, TransferVisible, transferTier, buffer, bind, Except.bind]
  | input v =>
      simp only [resolveWithTier, position_ok hp, TransferVisible]
      constructor
      · intro h
        simp [inputPtr, h, buffer, bind, Except.bind]
      · rintro ⟨b, hb⟩
        by_contra h
        simp [inputPtr, h, bind, Except.bind] at hb
  | output v =>
      simp [resolveWithTier, position_ok hp, TransferVisible, buffer, bind, Except.bind]

/-! ### Kernels -/

/-- A compiled kernel along the bindings of its operands, each with its pointer. -/
theorem compiledKernel_map {A : Type} [DecidableEq A] {S : Schedule} (I : Interp S α) {kid : KernelId}
    {ins : List ValueBinding} (outs : List ValueBinding) (ptr : ValueBinding → A) (m : A → α)
    (hvalues : ins.map ValueBinding.value = (S.kernel kid).presentInputs) :
    compiledKernel I kid (outs.map ptr) (ins.map ptr) m =
      (let xs := (ins.filter fun b => !S.isScratch b.value).map fun b => m (ptr b)
      outs.zipIdx.foldl (fun m bj => Function.update m (ptr bj.1) (I.out kid xs bj.2))
        ((ins.filter fun b => S.isScratch b.value).foldl
          (fun m b => Function.update m (ptr b) (I.scratch kid xs b.value)) m)) := by
  have hzip : (S.kernel kid).presentInputs.zip (ins.map ptr) = ins.map fun b => (b.value, ptr b) := by
    rw [← hvalues, List.zip_map']
  unfold compiledKernel
  rw [hzip, List.zipIdx_map, List.foldl_map]
  simp only [List.filter_map, List.map_map, List.foldl_map]
  rfl

/-- The plan's step is the compiled kernel at the places. -/
theorem execStep_kernel {S : Schedule} (I : Interp S α) {k : KernelStep} {ins outs : List ValueBinding}
    (hbs : k.bindings = ins ++ outs)
    (hvalues : ins.map ValueBinding.value = (S.kernel k.kernel).presentInputs)
    (hin : ∀ b ∈ ins, b.role = if S.isScratch b.value then .workspace else .input)
    (hout : ∀ b ∈ outs, b.role = .output) (mem : Mem α) :
    execStep I mem (.kernel k) = compiledKernel I k.kernel (outs.map ValueBinding.place)
      (ins.map ValueBinding.place) mem := by
  have hrole : ∀ role, k.bindingsOf role =
      (ins.filter fun b => b.role == role) ++ outs.filter fun b => b.role == role := by
    intro role
    rw [KernelStep.bindingsOf, hbs, List.filter_append]
  have hnone : ∀ role, role ≠ .output → (outs.filter fun b => b.role == role) = [] := by
    intro role hne
    rw [List.filter_eq_nil_iff]
    intro b hb
    simp [hout b hb, Ne.symm hne]
  have hinput : k.bindingsOf .input = ins.filter fun b => !S.isScratch b.value := by
    rw [hrole, hnone _ (by simp), List.append_nil]
    apply List.filter_congr
    intro b hb
    rw [hin b hb]
    cases S.isScratch b.value <;> rfl
  have hworkspace : k.bindingsOf .workspace = ins.filter fun b => S.isScratch b.value := by
    rw [hrole, hnone _ (by simp), List.append_nil]
    apply List.filter_congr
    intro b hb
    rw [hin b hb]
    cases S.isScratch b.value <;> rfl
  have houtput : k.bindingsOf .output = outs := by
    rw [hrole, List.filter_eq_nil_iff.mpr, List.nil_append, List.filter_eq_self]
    · intro b hb
      simp [hout b hb]
    · intro b hb
      rw [hin b hb]
      cases S.isScratch b.value <;> simp
  rw [compiledKernel_map I outs ValueBinding.place mem hvalues]
  simp only [execStep, writeOutputs, writeScratch, hinput, hworkspace, houtput]

/-- Updates along a list of bindings keep the agreement. -/
theorem Agree.foldl_update {B : Type} {ptr : B → Buffer} {place : B → AllocPlace} {x : B → α}
    {l : List B} (hl : ∀ b ∈ l, s.Stands (ptr b) (place b) ∧ s.Exclusive (place b))
    (h : s.Agree m mem) :
    s.Agree (l.foldl (fun m b => Function.update m (ptr b) (x b)) m)
      (l.foldl (fun mem b => Function.update mem (place b) (x b)) mem) := by
  induction l generalizing m mem with
  | nil => exact h
  | cons b l ih =>
      obtain ⟨hstands, hex⟩ := hl b List.mem_cons_self
      exact ih (fun b' hb' => hl b' (List.mem_cons_of_mem _ hb')) (h.update hstands hex _)

/-- A compiled kernel does to the buffers what the plan's step does to the places. -/
theorem Agree.compiledKernel {I : Interp s.schedule α} {kid : KernelId}
    {ins outs : List ValueBinding} {t : MemoryTier} (h : s.Agree m mem)
    (hvalues : ins.map ValueBinding.value = (s.schedule.kernel kid).presentInputs)
    (hin : ∀ b ∈ ins ++ outs, s.Stands (s.buffer t b.place) b.place)
    (hscratch : ∀ b ∈ ins, s.schedule.isScratch b.value = true → s.Exclusive b.place)
    (hout : ∀ b ∈ outs, s.Exclusive b.place) :
    s.Agree
      (compiledKernel I kid (outs.map fun b => s.buffer t b.place)
        (ins.map fun b => s.buffer t b.place) m)
      (compiledKernel I kid (outs.map ValueBinding.place) (ins.map ValueBinding.place) mem) := by
  rw [compiledKernel_map I outs (fun b => s.buffer t b.place) m hvalues,
    compiledKernel_map I outs ValueBinding.place mem hvalues]
  have hargs : ((ins.filter fun b => !s.schedule.isScratch b.value).map
      fun b => m (s.buffer t b.place)) =
      (ins.filter fun b => !s.schedule.isScratch b.value).map fun b => mem b.place := by
    apply List.map_congr_left
    intro b hb
    exact h _ _ (hin b (List.mem_append_left _ (List.mem_filter.mp hb).1))
  rw [hargs]
  apply Agree.foldl_update
  · intro bj hbj
    have hb := List.fst_mem_of_mem_zipIdx hbj
    exact ⟨hin _ (List.mem_append_right _ hb), hout _ hb⟩
  · refine Agree.foldl_update (fun b hb => ?_) h
    obtain ⟨hb, hs⟩ := List.mem_filter.mp hb
    exact ⟨hin b (List.mem_append_left _ hb), hscratch b hb hs⟩

/-! ### Kernel steps -/

/-- What the plans of the scheduler and the session built on one have. -/
structure Wired (s : SessionHybrid) : Prop where
  wellFormed : s.schedule.WellFormed
  indexed : s.plan.Indexed
  places : ∀ step ∈ s.plan.steps, ∀ b ∈ step.bindings, s.plan.HasPlace s.schedule b.place
  bound : ∀ k, .kernel k ∈ s.plan.steps → WellBound s.schedule k
  device : ∀ k k', .kernel k ∈ s.plan.steps → .kernel k' ∈ s.plan.steps → k.kernel = k'.kernel →
    k.context.device = k'.context.device
  declared : ∀ k, .kernel k ∈ s.plan.steps → k.context.device = .CUDA →
    ∀ b ∈ k.bindings, declares s.plan b.place = true

variable {k : KernelStep} {l ins outs : List ValueBinding}

/-- `bindings_by_value` finds the place of every binding. -/
theorem bindingsByValue_eq {S : Schedule} (h : WellBound S k) {b : ValueBinding}
    (hb : b ∈ k.bindings) : bindingsByValue k b.value = some b.place := by
  unfold bindingsByValue
  cases hf : k.bindings.reverse.find? (fun x => x.value == b.value) with
  | none =>
      rw [List.find?_eq_none] at hf
      exact absurd (by simp) (hf b (List.mem_reverse.mpr hb))
  | some x =>
      have hx := List.mem_reverse.mp (List.mem_of_find?_eq_some hf)
      have hv : x.value = b.value := by simpa using List.find?_some hf
      rw [Option.map_some, h.consistent x hx b hb hv]

/-- The pointer arguments of operands that are bound. -/
theorem arguments_ok {S : Schedule} {res : AllocPlace → Except RunError Buffer}
    {missing : ValueId → String} {ptr : AllocPlace → Buffer} (h : WellBound S k)
    (hl : ∀ b ∈ l, b ∈ k.bindings) (hres : ∀ b ∈ l, res b.place = .ok (ptr b.place)) :
    (l.map ValueBinding.value).mapM (argument (bindingsByValue k) res missing) =
      .ok (l.map fun b => ptr b.place) := by
  rw [List.mapM_map]
  apply mapM_ok
  intro b hb
  simp only [Function.comp_apply, argument, bindingsByValue_eq h (hl b hb)]
  exact hres b hb

/-- Operands whose pointers are found. -/
theorem arguments_eq_ok {S : Schedule} {res : AllocPlace → Except RunError Buffer}
    {missing : ValueId → String} {bufs : List Buffer} (h : WellBound S k)
    (hl : ∀ b ∈ l, b ∈ k.bindings)
    (hok : (l.map ValueBinding.value).mapM (argument (bindingsByValue k) res missing) = .ok bufs) :
    ∀ b ∈ l, ∃ buf, res b.place = .ok buf := by
  intro b hb
  obtain ⟨buf, -, hbuf⟩ := mapM_eq_ok_of_mem hok b.value (List.mem_map_of_mem hb)
  simp only [argument, bindingsByValue_eq h (hl b hb)] at hbuf
  exact ⟨buf, hbuf⟩

variable {I : Interp s.schedule α}

/-- A CPU kernel step comes to its end when the host can see its places and the call has a type. -/
theorem runCpuKernel_eq_ok (hw : s.Wired) (hk : .kernel k ∈ s.plan.steps)
    (hbs : k.bindings = ins ++ outs)
    (hvalues : ins.map ValueBinding.value = (s.schedule.kernel k.kernel).presentInputs)
    (houtputs : outs.map ValueBinding.value = (s.schedule.kernel k.kernel).outputs) :
    s.runCpuKernel I numInputs k m = .ok m' ↔
      (∀ b ∈ k.bindings, s.HostVisible numInputs b.place) ∧
      if k.kernel ∈ CodeGenContext.allNecessaryKernels s.schedule s.plan then
        (s.schedule.kernel k.kernel).outputs.length +
            (s.schedule.kernel k.kernel).presentInputs.length ≤ 8 ∧
          m' = compiledKernel I k.kernel (outs.map fun b => s.buffer .hostArena b.place)
            (ins.map fun b => s.buffer .hostArena b.place) m
      else m' = m := by
  have hwb := hw.bound k hk
  have hins : ∀ b ∈ ins, b ∈ k.bindings := fun b hb => hbs ▸ List.mem_append_left _ hb
  have houts : ∀ b ∈ outs, b ∈ k.bindings := fun b hb => hbs ▸ List.mem_append_right _ hb
  have hplace : ∀ b ∈ k.bindings, s.plan.HasPlace s.schedule b.place := hw.places _ hk
  by_cases hvis : ∀ b ∈ k.bindings, s.HostVisible numInputs b.place
  · have hres : ∀ b ∈ k.bindings,
        s.resolve numInputs b.place = .ok (s.buffer .hostArena b.place) := fun b hb =>
      (resolve_ok hw.indexed (hplace b hb)).1 (hvis b hb)
    rw [and_iff_right hvis]
    unfold runCpuKernel
    dsimp only
    rw [← hvalues, ← houtputs, arguments_ok hwb houts fun b hb => hres b (houts b hb)]
    simp only [bind, Except.bind]
    rw [arguments_ok hwb hins fun b hb => hres b (hins b hb)]
    simp only [callKernel, List.length_map]
    split
    · split
      · rename_i harity
        simp [harity, eq_comm]
      · rename_i harity
        simp [harity]
    · simp [eq_comm]
  · refine ⟨fun hok => absurd ?_ hvis, fun h => absurd h.1 hvis⟩
    unfold runCpuKernel at hok
    dsimp only at hok
    rw [← hvalues, ← houtputs] at hok
    obtain ⟨bufs, hbufs, hok⟩ := do_eq_ok.mp hok
    obtain ⟨bufs', hbufs', -⟩ := do_eq_ok.mp hok
    intro b hb
    rw [hbs] at hb
    apply (resolve_ok hw.indexed (hplace b (hbs ▸ hb))).2
    rcases List.mem_append.mp hb with hb | hb
    · exact arguments_eq_ok hwb hins hbufs' b hb
    · exact arguments_eq_ok hwb houts hbufs b hb

theorem hasCuda_of_kernel (hk : .kernel k ∈ s.plan.steps) (hdev : k.context.device = .CUDA) :
    s.hasCuda = true :=
  List.any_eq_true.mpr ⟨_, hk, by simp [hdev]⟩

/-- A CUDA kernel step comes to its end when the device can use its places. -/
theorem runCudaKernel_eq_ok (hw : s.Wired) (hk : .kernel k ∈ s.plan.steps)
    (hdev : k.context.device = .CUDA) (hbs : k.bindings = ins ++ outs)
    (hvalues : ins.map ValueBinding.value = (s.schedule.kernel k.kernel).presentInputs)
    (houtputs : outs.map ValueBinding.value = (s.schedule.kernel k.kernel).outputs) :
    s.runCudaKernel I numInputs k m = .ok m' ↔
      (∀ b ∈ k.bindings, s.DeviceVisible numInputs b.place) ∧
        m' = compiledKernel I k.kernel (outs.map fun b => s.buffer .gpuArena b.place)
          (ins.map fun b => s.buffer .gpuArena b.place) m := by
  have hwb := hw.bound k hk
  have hins : ∀ b ∈ ins, b ∈ k.bindings := fun b hb => hbs ▸ List.mem_append_left _ hb
  have houts : ∀ b ∈ outs, b ∈ k.bindings := fun b hb => hbs ▸ List.mem_append_right _ hb
  have hplace : ∀ b ∈ k.bindings, s.plan.HasPlace s.schedule b.place := hw.places _ hk
  by_cases hvis : ∀ b ∈ k.bindings, s.DeviceVisible numInputs b.place
  · have hres : ∀ b ∈ k.bindings,
        s.deviceBuffer numInputs b.place = .ok (s.buffer .gpuArena b.place) := fun b hb =>
      (deviceBuffer_ok (hplace b hb)).1 (hvis b hb)
    rw [and_iff_right hvis]
    unfold runCudaKernel
    dsimp only
    rw [if_pos (hasCuda_of_kernel hk hdev), ← hvalues, ← houtputs,
      arguments_ok hwb houts fun b hb => hres b (houts b hb)]
    simp only [bind, Except.bind]
    rw [arguments_ok hwb hins fun b hb => hres b (hins b hb)]
    simp [eq_comm]
  · refine ⟨fun hok => absurd ?_ hvis, fun h => absurd h.1 hvis⟩
    unfold runCudaKernel at hok
    dsimp only at hok
    rw [if_pos (hasCuda_of_kernel hk hdev), ← hvalues, ← houtputs] at hok
    obtain ⟨bufs, hbufs, hok⟩ := do_eq_ok.mp hok
    obtain ⟨bufs', hbufs', -⟩ := do_eq_ok.mp hok
    intro b hb
    rw [hbs] at hb
    apply (deviceBuffer_ok (hplace b (hbs ▸ hb))).2
    rcases List.mem_append.mp hb with hb | hb
    · exact arguments_eq_ok hwb hins hbufs' b hb
    · exact arguments_eq_ok hwb houts hbufs b hb

/-- A transfer step comes to its end when the caller has passed the tensors that it copies. -/
theorem runTransfer_eq_ok (hw : s.Wired) {t : TransferStep} (ht : .transfer t ∈ s.plan.steps) :
    s.runTransfer numInputs t m = .ok m' ↔
      (∀ b ∈ [t.src, t.dst], s.TransferVisible numInputs b.place) ∧
        m' = Function.update m (s.buffer (s.transferTier t.dst.place) t.dst.place)
          (m (s.buffer (s.transferTier t.src.place) t.src.place)) := by
  have hcuda : s.hasCuda = true := List.any_eq_true.mpr ⟨_, ht, rfl⟩
  have hsrc := resolveWithTier_ok numInputs hw.indexed
    (hw.places _ ht t.src (by simp [Step.bindings]))
  have hdst := resolveWithTier_ok numInputs hw.indexed
    (hw.places _ ht t.dst (by simp [Step.bindings]))
  unfold runTransfer
  rw [if_pos hcuda]
  simp only [List.forall_mem_cons, List.not_mem_nil, false_implies, implies_true, and_true]
  constructor
  · intro hok
    obtain ⟨x, hx, hok⟩ := do_eq_ok.mp hok
    obtain ⟨y, hy, hok⟩ := do_eq_ok.mp hok
    have hvs := hsrc.2 ⟨x, hx⟩
    have hvd := hdst.2 ⟨y, hy⟩
    obtain ⟨tx, htx⟩ := hsrc.1 hvs
    obtain ⟨ty, hty⟩ := hdst.1 hvd
    obtain rfl := Except.ok.inj (hx.symm.trans htx)
    obtain rfl := Except.ok.inj (hy.symm.trans hty)
    exact ⟨⟨hvs, hvd⟩, (Except.ok.inj hok).symm⟩
  · rintro ⟨⟨hvs, hvd⟩, rfl⟩
    obtain ⟨tx, htx⟩ := hsrc.1 hvs
    obtain ⟨ty, hty⟩ := hdst.1 hvd
    rw [htx, do_eq_ok]
    refine ⟨_, rfl, ?_⟩
    rw [hty]
    rfl

/-! ### The simulation -/

/-- A place that a step binds stands on the step's tier when it is there. -/
theorem stands_of_mem (hw : s.Wired) {step : Step} (hstep : step ∈ s.plan.steps) {b : ValueBinding}
    (hb : b ∈ step.bindings) {t : MemoryTier} (ht : step.device.tier = t)
    (hchunk : ∀ c, b.place = .chunk c → chunkTier s.plan c = some t) :
    s.Stands (s.buffer t b.place) b.place := by
  refine ⟨hw.places step hstep b hb, t, ?_, rfl⟩
  cases hp : b.place with
  | chunk c => exact hchunk c hp
  | initializer v => exact ⟨step, hstep, b, hb, hp, ht⟩
  | sessionState v => trivial
  | input v => trivial
  | output v => trivial

/-- What a step writes has one buffer, unless the step skips. -/
theorem Faithful.exclusive (hf : s.Faithful) {step : Step} (hstep : step ∈ s.plan.steps)
    (hskip : ¬ step.Skips s.schedule) {b : ValueBinding} (hb : b ∈ step.writes) :
    s.Exclusive b.place := by
  by_cases hinit : ∃ v, b.place = .initializer v
  · obtain ⟨v, hv⟩ := hinit
    rw [hv]
    rintro x x' ⟨-, t, ht, rfl⟩ ⟨-, t', ht', rfl⟩
    rw [hf.updates step hstep hskip b hb v hv t t' ht ht']
  · exact exclusive_of_ne fun v hv => hinit ⟨v, hv⟩

/-- A kernel that passes its input on where it is changes nothing. -/
theorem compiledKernel_skip {A : Type} [DecidableEq A] {S : Schedule} (hS : S.WellFormed)
    (I : Interp S α) {kid : KernelId} (hk : kid ∈ S.kernelIds)
    (hfwd : (S.kernel kid).isForward = true) {ins outs : List ValueBinding}
    (hvalues : ins.map ValueBinding.value = (S.kernel kid).presentInputs)
    (houtputs : outs.map ValueBinding.value = (S.kernel kid).outputs) {ptr : ValueBinding → A}
    (hsame : ∀ b ∈ ins, ∀ d ∈ outs, ptr b = ptr d) (m : A → α) :
    compiledKernel I kid (outs.map ptr) (ins.map ptr) m = m := by
  obtain ⟨x, y, hx, hy⟩ := (Kernel.isUnary_iff _).mp (hS.forward_unary kid hk hfwd)
  have hpresent : (S.kernel kid).presentInputs = [x] := by simp [Kernel.presentInputs, hx]
  rw [hpresent] at hvalues
  rw [hy] at houtputs
  obtain ⟨b, rfl, hbx⟩ := List.map_eq_singleton_iff.mp hvalues
  obtain ⟨d, rfl, -⟩ := List.map_eq_singleton_iff.mp houtputs
  have hdef : S.isScratch b.value = false := by
    rw [hbx]
    exact hS.copied_defined kid hk (Or.inl hfwd) x (by simp [hpresent])
  have hbd : ptr b = ptr d := hsame b (by simp) d (by simp)
  rw [compiledKernel_map I [d] ptr m (by rw [hvalues, hpresent])]
  simp [hdef, I.copies kid _ (Or.inl hfwd), hbd]

theorem kernelDevice_eq (hw : s.Wired) (hk : .kernel k ∈ s.plan.steps) :
    CodeGenContext.kernelDevice s.plan k.kernel = some k.context.device := by
  have key : ∀ (steps : List Step) (f : KernelId → Option Device),
      (∀ k', .kernel k' ∈ steps → k'.kernel = k.kernel → k'.context.device = k.context.device) →
      (.kernel k ∈ steps ∨ f k.kernel = some k.context.device) →
      steps.foldl (fun m step => match step with
        | .kernel k => Function.update m k.kernel (some k.context.device)
        | _ => m) f k.kernel = some k.context.device := by
    intro steps
    induction steps with
    | nil =>
        intro f _ h
        exact h.resolve_left (by simp)
    | cons step steps ih =>
        intro f hsame h
        rw [List.foldl_cons]
        refine ih _ (fun k' hk' => hsame k' (List.mem_cons_of_mem _ hk')) ?_
        cases step with
        | kernel k' =>
            by_cases heq : k'.kernel = k.kernel
            · right
              rw [← heq]
              exact (Function.update_self _ _ _).trans
                (congrArg some (hsame k' List.mem_cons_self heq))
            · rcases h with h | h
              · left
                rcases List.mem_cons.mp h with h | h
                · cases h
                  exact absurd rfl heq
                · exact h
              · right
                exact (Function.update_of_ne (Ne.symm heq) _ _).trans h
        | transfer t => exact h.imp_left fun h => (List.mem_cons.mp h).resolve_left (by simp)
        | syncWait w => exact h.imp_left fun h => (List.mem_cons.mp h).resolve_left (by simp)
  exact key s.plan.steps _ (fun k' hk' heq => hw.device k' k hk' hk heq) (Or.inl hk)

/-- Only forwarding kernels are not generated. -/
theorem isForward_of_not_necessary (hw : s.Wired) (hk : .kernel k ∈ s.plan.steps)
    (hdev : k.context.device = .CPU)
    (hgen : k.kernel ∉ CodeGenContext.allNecessaryKernels s.schedule s.plan) :
    (s.schedule.kernel k.kernel).isForward = true := by
  by_contra hfwd
  apply hgen
  refine List.mem_filter.mpr ⟨(hw.bound k hk).mem, ?_⟩
  simp [CodeGenContext.needToGenerate, kernelDevice_eq hw hk, hdev, hfwd]

/-- A step of the run does to the buffers what the plan's step does to the places. -/
theorem runStep_agree (hw : s.Wired) (hf : s.Faithful) {step : Step} (hstep : step ∈ s.plan.steps)
    (h : s.Agree m mem) (hrun : s.runStep I numInputs m step = .ok m') :
    s.Agree m' (execStep I mem step) := by
  cases step with
  | syncWait w =>
      obtain rfl := Except.ok.inj hrun
      exact h
  | transfer t =>
      obtain ⟨-, rfl⟩ := (runTransfer_eq_ok hw hstep).mp hrun
      have hstands : ∀ b ∈ [t.src, t.dst],
          s.Stands (s.buffer (s.transferTier b.place) b.place) b.place := by
        intro b hb
        have hplace := hw.places _ hstep b hb
        refine ⟨hplace, _, ?_, rfl⟩
        cases hp : b.place with
        | chunk c =>
            rw [hp] at hplace
            obtain ⟨tier, htier⟩ := chunkTier_isSome hw.indexed hplace
            simp [OnTier, transferTier, htier]
        | initializer v => exact ⟨_, hstep, b, hb, hp, rfl⟩
        | sessionState v => trivial
        | input v => trivial
        | output v => trivial
      show s.Agree _ (Function.update mem t.dst.place (mem t.src.place))
      rw [h _ _ (hstands t.src (by simp))]
      exact h.update (hstands t.dst (by simp))
        (hf.exclusive hstep (fun hskip => hskip) (b := t.dst) (by simp [Step.writes])) _
  | kernel k =>
      obtain ⟨ins, outs, hbs, hvalues, houtputs, hin, hout⟩ := (hw.bound k hstep).bindings
      rw [execStep_kernel I hbs hvalues hin hout mem]
      -- what the step does on its tier, once its places are there
      have hexec : ∀ t, k.context.device.tier = t →
          (∀ b ∈ k.bindings, ∀ c, b.place = .chunk c → chunkTier s.plan c = some t) →
          s.Agree (compiledKernel I k.kernel (outs.map fun b => s.buffer t b.place)
            (ins.map fun b => s.buffer t b.place) m)
          (compiledKernel I k.kernel (outs.map ValueBinding.place) (ins.map ValueBinding.place)
            mem) := by
        intro t ht hchunk
        by_cases hskip : (Step.kernel k).Skips s.schedule
        · obtain ⟨hfwd, hsame⟩ := hskip
          have hmem : ∀ b ∈ ins, ∀ d ∈ outs, b.place = d.place := fun b hb d hd =>
            hsame b (hbs ▸ List.mem_append_left _ hb) d (hbs ▸ List.mem_append_right _ hd)
          rw [compiledKernel_skip hw.wellFormed I (hw.bound k hstep).mem hfwd hvalues houtputs
              (fun b hb d hd => by rw [hmem b hb d hd]) m,
            compiledKernel_skip hw.wellFormed I (hw.bound k hstep).mem hfwd hvalues houtputs hmem mem]
          exact h
        · refine h.compiledKernel hvalues (fun b hb => ?_) (fun b hb hscr => ?_) fun b hb => ?_
          · have hb : b ∈ k.bindings := hbs ▸ hb
            exact stands_of_mem hw hstep hb ht (hchunk b hb)
          · apply hf.exclusive hstep hskip
            refine List.mem_append_left _ (List.mem_filter.mpr ⟨hbs ▸ List.mem_append_left _ hb, ?_⟩)
            simp [hin b hb, hscr]
          · apply hf.exclusive hstep hskip
            refine List.mem_append_right _ (List.mem_filter.mpr ⟨hbs ▸ List.mem_append_right _ hb, ?_⟩)
            simp [hout b hb]
      cases hdev : k.context.device with
      | CPU =>
          have hrun : s.runCpuKernel I numInputs k m = .ok m' := by
            simpa only [runStep, hdev, if_true] using hrun
          obtain ⟨hvis, hres⟩ := (runCpuKernel_eq_ok hw hstep hbs hvalues houtputs).mp hrun
          have hhost := hexec .hostArena (by rw [hdev]; rfl) fun b hb c hc => by
            have := hvis b hb
            rwa [hc] at this
          split at hres
          · obtain ⟨-, rfl⟩ := hres
            exact hhost
          · rename_i hgen
            obtain rfl := hres
            -- the step is skipped, and the kernel passes its input on where it is
            have hfwd := isForward_of_not_necessary hw hstep hdev hgen
            have hsame := hf.skipped k hstep hdev hgen
            rw [compiledKernel_skip hw.wellFormed I (hw.bound k hstep).mem hfwd hvalues houtputs
              (fun b hb d hd => hsame b (hbs ▸ List.mem_append_left _ hb) d
                (hbs ▸ List.mem_append_right _ hd)) mem]
            exact h
      | CUDA =>
          have hrun : s.runCudaKernel I numInputs k m = .ok m' := by
            have hne : k.context.device ≠ .CPU := by simp [hdev]
            simpa only [runStep, if_neg hne] using hrun
          obtain ⟨-, rfl⟩ := (runCudaKernel_eq_ok hw hstep hdev hbs hvalues houtputs).mp hrun
          refine hexec .gpuArena (by rw [hdev]; rfl) fun b hb c hc => ?_
          have := hw.declared k hstep hdev b hb
          simpa [hc, declares] using this

/-- A step comes to its end exactly when it is supported. -/
theorem runStep_ok (hw : s.Wired) {step : Step} (hstep : step ∈ s.plan.steps)
    (hsup : s.Supported numInputs) (m : Contents α) : ∃ m', s.runStep I numInputs m step = .ok m' := by
  cases step with
  | syncWait w => exact ⟨m, rfl⟩
  | transfer t => exact ⟨_, (runTransfer_eq_ok hw hstep).mpr ⟨hsup.transfer t hstep, rfl⟩⟩
  | kernel k =>
      obtain ⟨ins, outs, hbs, hvalues, houtputs, -, -⟩ := (hw.bound k hstep).bindings
      cases hdev : k.context.device with
      | CPU =>
          simp only [runStep, hdev, if_true]
          by_cases hgen : k.kernel ∈ CodeGenContext.allNecessaryKernels s.schedule s.plan
          · refine ⟨compiledKernel I k.kernel (outs.map fun b => s.buffer .hostArena b.place)
              (ins.map fun b => s.buffer .hostArena b.place) m,
              (runCpuKernel_eq_ok hw hstep hbs hvalues houtputs).mpr
                ⟨hsup.host k hstep hdev, ?_⟩⟩
            rw [if_pos hgen]
            exact ⟨hsup.arity k hstep hdev hgen, rfl⟩
          · refine ⟨m, (runCpuKernel_eq_ok hw hstep hbs hvalues houtputs).mpr
              ⟨hsup.host k hstep hdev, ?_⟩⟩
            rw [if_neg hgen]
      | CUDA =>
          have hne : k.context.device ≠ .CPU := by simp [hdev]
          simp only [runStep, if_neg hne]
          exact ⟨_, (runCudaKernel_eq_ok hw hstep hdev hbs hvalues houtputs).mpr
            ⟨hsup.device k hstep hdev, rfl⟩⟩

/-- A run that comes to its end is supported. -/
theorem supported_of_steps (hw : s.Wired)
    (hok : ∀ step ∈ s.plan.steps, ∃ m m', s.runStep I numInputs m step = .ok m') :
    s.Supported numInputs := by
  have hcpu : ∀ k, .kernel k ∈ s.plan.steps → k.context.device = .CPU →
      (∀ b ∈ k.bindings, s.HostVisible numInputs b.place) ∧
      (k.kernel ∈ CodeGenContext.allNecessaryKernels s.schedule s.plan →
        (s.schedule.kernel k.kernel).outputs.length +
          (s.schedule.kernel k.kernel).presentInputs.length ≤ 8) := by
    intro k hk hdev
    obtain ⟨ins, outs, hbs, hvalues, houtputs, -, -⟩ := (hw.bound k hk).bindings
    obtain ⟨m, m', hrun⟩ := hok _ hk
    simp only [runStep, hdev, if_true] at hrun
    obtain ⟨hvis, hres⟩ := (runCpuKernel_eq_ok hw hk hbs hvalues houtputs).mp hrun
    refine ⟨hvis, fun hgen => ?_⟩
    rw [if_pos hgen] at hres
    exact hres.1
  refine ⟨fun k hk hdev => (hcpu k hk hdev).2, fun k hk hdev => (hcpu k hk hdev).1, ?_, ?_⟩
  · intro k hk hdev
    obtain ⟨ins, outs, hbs, hvalues, houtputs, -, -⟩ := (hw.bound k hk).bindings
    obtain ⟨m, m', hrun⟩ := hok _ hk
    have hne : k.context.device ≠ .CPU := by simp [hdev]
    simp only [runStep, if_neg hne] at hrun
    exact ((runCudaKernel_eq_ok hw hk hdev hbs hvalues houtputs).mp hrun).1
  · intro t ht
    obtain ⟨m, m', hrun⟩ := hok _ ht
    exact ((runTransfer_eq_ok hw ht).mp hrun).1

end SessionHybrid
end NnEngine
