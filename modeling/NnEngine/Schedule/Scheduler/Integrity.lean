import NnEngine.Schedule.Scheduler.Finalize
import NnEngine.Schedule.Scheduler.Memory

/-!
# Value integrity of the memory plan

Run in list order, the plan reads every value where it is.  The planner goes wrong in two ways.  It
frees the chunk of an output that nobody reads while the kernel's later outputs are still to be
placed.  And an in-place update takes over a caller's buffer without a look at the other values that
an `Identity` or a `Reinterpret` has left there.  `plan_integrity` shows that nothing else does.
-/

namespace NnEngine

/-! ### Values up to aliasing -/

namespace Schedule

variable {S : Schedule} {v w : ValueId} {α : Type*}

/-- The value at the other end of a chain of `Identity` and `Reinterpret` kernels. -/
def originFrom (S : Schedule) : Nat → ValueId → ValueId
  | 0, v => v
  | n + 1, v =>
      match S.passthroughInput v with
      | none => v
      | some x => S.originFrom n x

def origin (S : Schedule) (v : ValueId) : ValueId :=
  S.originFrom S.kernels.length v

theorem WellFormed.denote_origin (hS : S.WellFormed) (I : Interp S α) (v : ValueId) :
    S.denote I (S.origin v) = S.denote I v := by
  have key : ∀ n v, S.denote I (S.originFrom n v) = S.denote I v := by
    intro n
    induction n with
    | zero => intro v; rfl
    | succ n ih =>
        intro v
        rw [originFrom]
        cases h : S.passthroughInput v with
        | none => rfl
        | some x => exact (ih x).trans (hS.denote_passthrough I h).symm
  exact key _ v

/-- Nothing reads the value, and no caller's buffer takes it. -/
def Dead (S : Schedule) (o : ValueId) : Prop :=
  S.valueUsesCount o = 0 ∧ S.outputAliases o = none

instance (S : Schedule) (o : ValueId) : Decidable (S.Dead o) :=
  inferInstanceAs (Decidable (_ ∧ _))

/-- A dead output of a kernel comes after every output that takes a chunk. -/
def DeadOutputsLast (S : Schedule) (placement : KernelId → Device) : Prop :=
  ∀ kid ∈ S.kernelIds, (S.kernel kid).outputs.Pairwise fun o o' => S.Dead o →
    placement kid = .CPU ∧ (S.outputAliases o').isSome = true

instance (S : Schedule) (placement : KernelId → Device) :
    Decidable (S.DeadOutputsLast placement) :=
  inferInstanceAs (Decidable (∀ kid ∈ S.kernelIds, _))

/-- A cache that a kernel updates in place has no other reader. -/
def CachesReadOnce (S : Schedule) : Prop :=
  ∀ kid ∈ S.kernelIds, ∀ idx ∈ S.mustInPlaceInput kid,
    ∀ x ∈ (S.kernel kid).inputs.getD idx none, S.valueUsesCount x = 1

instance (S : Schedule) : Decidable S.CachesReadOnce :=
  inferInstanceAs (Decidable (∀ kid ∈ S.kernelIds, _))

end Schedule

namespace MemoryAware

open SchedState

variable {S : Schedule} {numStreams : Nat} {placement : KernelId → Device} {s : Scheduler}
  {env : SchedEnv} {st : SchedState} {kid stream : Nat} {leak : Nat → Nat} {v o : ValueId}
  {p : AllocPlace}

/-! ### The outputs of one kernel -/

/-- No two outputs are bound to one chunk. -/
def DistinctChunks (bs : List ValueBinding) : Prop :=
  ∀ b ∈ bs, ∀ d ∈ bs, b.role = .output → d.role = .output → ∀ c, b.place = .chunk c →
    d.place = .chunk c → b.value = d.value

/-- An output that no slot is left for, and no post transfer is pending for, is dead. -/
theorem dead_of_free {inPlace : Option AllocPlace} {st₁ st₂ : SchedState}
    {ins bs : List ValueBinding} {posts : List PostTransfer} {done : List Nat} {c ns : Nat}
    (hS : env.schedule.WellFormed) (hp : Planned env st) (hready : Ready env st kid)
    (hbound : OutputsBound env (env.placement kid).tier stream inPlace st₁ ins done st₂ bs posts)
    (hl₂ : Ledger ns ((env.schedule.kernel kid).presentInputs ++ laterSlots env st kid stream)
      (pendOf posts) leak none st₂) (ho : o ∈ done)
    (hout : o ∈ (env.schedule.kernel kid).outputs)
    (hplace : st₂.value2place o = some (.chunk c)) (hzero : st₂.allocator.liveUses c = 0) :
    env.schedule.Dead o := by
  constructor
  · rw [Schedule.valueUsesCount_eq, List.count_eq_zero]
    intro hslot
    obtain ⟨j, hj, hoj⟩ := List.mem_flatMap.mp hslot
    have hpred := hS.ordered j hj o hoj kid hready.mem hout
    have hmem : kid ∈ env.schedule.kernelPreds j :=
      Schedule.mem_kernelPreds.mpr
        ⟨Nat.ne_of_lt hpred, o, hoj, hS.value2producer_eq hready.mem hout⟩
    have hun : ¬ st.Scheduled j := fun hsched =>
      hready.unscheduled (hp.closed j hsched kid hmem)
    have hlater : o ∈ laterSlots env st kid stream :=
      mem_laterSlots.mpr ⟨j, hj, hun, Nat.ne_of_gt hpred, hoj⟩
    exact hl₂.not_placed hzero (List.mem_append_right _ hlater) hplace
  · cases halias : env.schedule.outputAliases o with
    | none => rfl
    | some t =>
        rcases hbound.delivered o ho _ t hplace halias with hp | hpost
        · cases hp
        · have hpend := (hl₂.zero hzero).2.1
          rw [pendOf, List.countP_eq_zero] at hpend
          exact absurd (hpend _ hpost) (by simp)

/-- A kernel whose dead outputs come last binds its outputs to distinct chunks. -/
theorem emission_distinct (hS : env.schedule.WellFormed) (hp : Planned env st)
    (hl : Ledger env.numStreams (st.slots env.schedule) (pendOf []) leak none st)
    (hready : Ready env st kid) (hpick : pickStream env st kid = some stream)
    (hs : stream < env.numStreams)
    (hdead : (env.schedule.kernel kid).outputs.Pairwise fun o o' => env.schedule.Dead o →
      env.placement kid = .CPU ∧ (env.schedule.outputAliases o').isSome = true) :
    ∃ e : Emission, e.Of env st kid stream leak ∧ DistinctChunks e.bindings := by
  obtain ⟨e, he, -, hdistinct⟩ := emitKernel_induct hS hp hl hready hpick hs
    (P := fun _ _ _ _ => True)
    (Q := fun _ _ done st₂ _ _ => ∀ o ∈ done, ∀ o' ∈ done, ∀ c,
      st₂.value2place o = some (.chunk c) → st₂.value2place o' = some (.chunk c) → o = o')
    trivial (by intros; trivial) (by simp)
    (by
      intro leak' inPlace st₁ ins done st₂ bs posts o p a first hpre hodone hled hnone hcase hb
        hsource hbound hQ
      -- an earlier output in the chunk of the new one would be dead
      have hnew : ∀ w ∈ done, ∀ c, p = .chunk c → st₂.value2place w ≠ some (.chunk c) := by
        rintro w hw c rfl hplace
        cases hcase with
        | fresh _ _ hin hno hzero =>
            have hw' : w ∈ (env.schedule.kernel kid).outputs :=
              hpre.subset (List.mem_append_left _ hw)
            have hwdead := dead_of_free hS hp hready hbound hled hw hw' hplace hzero
            have hpair := (List.pairwise_append.mp (hdead.sublist hpre.sublist)).2.2 w hw o
              (List.mem_singleton_self o) hwdead
            obtain ⟨hcpu, halias⟩ := hpair
            rcases hno with hno | hno
            · rw [hno] at halias
              cases halias
            · rw [hcpu] at hno
              exact hno rfl
        | inPlace _ _ hin =>
            subst hin
            have hlen := hpre.length_le
            rw [(hsource.binding hS hready.mem hb).1, List.length_append,
              List.length_singleton] at hlen
            obtain rfl : done = [] := List.eq_nil_of_length_eq_zero (by omega)
            cases hw
      intro x hx y hy c hxc hyc
      by_cases hxo : x = o
      · by_cases hyo : y = o
        · exact hxo.trans hyo.symm
        · have hydone : y ∈ done := by simpa [hyo] using hy
          simp only [hxo, Function.update_self, Option.some.injEq] at hxc
          simp only [Function.update_of_ne hyo] at hyc
          exact absurd hyc (hnew y hydone c hxc)
      · have hxdone : x ∈ done := by simpa [hxo] using hx
        simp only [Function.update_of_ne hxo] at hxc
        by_cases hyo : y = o
        · simp only [hyo, Function.update_self, Option.some.injEq] at hyc
          exact absurd hxc (hnew x hxdone c hyc)
        · have hydone : y ∈ done := by simpa [hyo] using hy
          simp only [Function.update_of_ne hyo] at hyc
          exact hQ x hxdone y hydone c hxc hyc)
  refine ⟨e, he, ?_⟩
  intro b hb d hd hbrole hdrole c hbc hdc
  obtain ⟨-, houts, -⟩ := filter_role_eq he.inputsBound he.outputsBound
  obtain ⟨outs, hbs, hvalues, hplaces⟩ := he.outputsBound.bindings
  have hmem : ∀ x ∈ e.bindings, x.role = .output → x ∈ outs := by
    intro x hx hrole
    rw [hbs] at hx
    refine (List.mem_append.mp hx).resolve_left fun hin => ?_
    have := he.inputsBound.role x hin
    rw [hrole] at this
    split at this <;> cases this
  have hb' := hmem b hb hbrole
  have hd' := hmem d hd hdrole
  refine hdistinct b.value (hvalues ▸ List.mem_map_of_mem hb') d.value
    (hvalues ▸ List.mem_map_of_mem hd') c ?_ ?_
  · rw [(hplaces b hb').2, hbc]
  · rw [(hplaces d hd').2, hdc]

/-- The kernel steps of a run bind their outputs to distinct chunks. -/
theorem Reachable.distinct (hS : S.WellFormed) (hdead : S.DeadOutputsLast placement)
    (h : Reachable S numStreams placement s) :
    ∀ k, Step.kernel k ∈ s.steps → DistinctChunks k.bindings := by
  obtain ⟨-, -, -, -, hd⟩ := h.induct hS (C := fun _ _ => True) (fun _ _ _ _ => trivial)
    (I := fun st _ => ∀ k, Step.kernel k ∈ st.steps → DistinctChunks k.bindings)
    (fun _ hk => by cases hk)
    (by
      intro st kid stream leak hp hl hready hpick hs _ hd
      obtain ⟨e, he, hdistinct⟩ :=
        emission_distinct hS hp hl hready hpick hs (hdead kid hready.mem)
      refine ⟨e, he, fun k hk => ?_⟩
      rcases he.mem_steps hk with hold | ⟨w, hw⟩ | ⟨v, c, t, ht, -⟩ | hbody | ⟨pt, -, event, hpt⟩
      · exact hd k hold
      · cases hw
      · cases ht
      · have hcases := bodyStep_cases hS hready.mem he.inputsBound he.outputsBound he.body
        rcases hcases with ⟨-, hkernel⟩ | ⟨-, b, d, -, -, -, -, htransfer⟩
        · obtain rfl := Step.kernel.inj (hbody.trans hkernel)
          exact hdistinct
        · rw [htransfer] at hbody
          cases hbody
      · cases hpt)
  exact hd

/-! ### The plan -/

/-- A delivery to a caller's buffer overwrites nothing that another kernel has still to read: what
sits in the buffer is the buffer's value, up to aliasing. -/
def DeliverySpares (env : SchedEnv) (st : SchedState) (kid : KernelId) : Prop :=
  ∀ t, Delivers env st kid t → ∀ j ∈ env.schedule.kernelIds, ¬ st.Scheduled j → j ≠ kid →
    ∀ w ∈ (env.schedule.kernel j).presentInputs, st.value2place w = some (.output t) →
    env.schedule.origin w = env.schedule.origin t

/-- Memory before the run holds the sources. -/
def Starts {α : Type*} (I : Interp S α) (m₀ : Mem α) : Prop :=
  ∀ v p, S.sourcePlace v = some p → m₀ p = I.source p

theorem sound_new {α : Type*} {I : Interp S α} {m₀ : Mem α} (hS : S.WellFormed)
    (hm : Starts I m₀) : Sound (MemoryAware.env S numStreams placement) I m₀
      (Scheduler.new S numStreams placement).toSchedState where
  exclusive := by
    rintro v - w - c (hv | ⟨t, r, hr, -⟩) -
    · exact absurd rfl (Schedule.sourcePlace_not_chunk hv c)
    · cases hr
  reads := readsOk_nil m₀
  holds :=
    { place := fun w _ _ p hp => (hm w p hp).trans (hS.denote_source I hp).symm
      copy := fun w _ _ t r hr => by cases hr
      source := fun w _ p hp => (hm w p hp).trans (hS.denote_source I hp).symm }

/-- A cache with one reader is read for the last time when that reader is scheduled. -/
theorem lastUse_of_readOnce {ns : Nat} (hcache : env.schedule.CachesReadOnce)
    (hl : Ledger ns (st.slots env.schedule) (pendOf []) leak none st) (hready : Ready env st kid) :
    LastUse env st kid := by
  intro idx x hidx hx
  have hone := hcache kid hready.mem idx hidx x hx
  rw [Schedule.valueUsesCount_eq] at hone
  have hmem : x ∈ (env.schedule.kernel kid).presentInputs := by
    rw [List.getD_eq_getElem?_getD] at hx
    cases hget : (env.schedule.kernel kid).inputs[idx]? with
    | none => simp [hget] at hx
    | some y =>
        rw [hget, Option.getD_some] at hx
        simpa [Kernel.presentInputs] using hx ▸ List.mem_of_getElem? hget
  have hslot : x ∈ st.slots env.schedule := mem_slots.mpr ⟨kid, hready.mem, hready.unscheduled, hmem⟩
  have hle : (st.slots env.schedule).count x ≤ env.schedule.allSlots.count x :=
    (List.filter_sublist.flatMap _).count_le x
  have hpos : 0 < (st.slots env.schedule).count x := List.count_pos_iff.mpr hslot
  rw [hl.uses x]
  omega

/-- In a run whose updates and deliveries spare what is still to be read, memory stays sound. -/
theorem Reachable.sound {α : Type*} {I : Interp S α} {m₀ : Mem α} (hS : S.WellFormed)
    (hm : Starts I m₀) {C : SchedState → Nat → Prop}
    (hC : RunMeets S numStreams placement C)
    (hlast : ∀ st kid leak, Ledger (MemoryAware.env S numStreams placement).numStreams (st.slots S)
      (pendOf []) leak none st → Ready (MemoryAware.env S numStreams placement) st kid → C st kid →
      LastUse (MemoryAware.env S numStreams placement) st kid)
    (hspare : ∀ st kid, C st kid → UpdateSpares (MemoryAware.env S numStreams placement) st kid)
    (hdel : ∀ st kid, C st kid → ∀ t, Delivers (MemoryAware.env S numStreams placement) st kid t →
      ∀ j ∈ S.kernelIds, ¬ st.Scheduled j → j ≠ kid → ∀ w ∈ (S.kernel j).presentInputs,
      st.value2place w = some (.output t) → S.denote I w = S.denote I t)
    (h : Reachable S numStreams placement s) :
    Sound (MemoryAware.env S numStreams placement) I m₀ s.toSchedState := by
  obtain ⟨-, -, -, -, hsound⟩ := h.induct hS hC
    (I := fun st _ => Sound (MemoryAware.env S numStreams placement) I m₀ st) (sound_new hS hm)
    (by
      intro st kid stream leak hp hl hready hpick hs hc hsound
      refine emission_sound hS hp hl hready hpick hs (hlast st kid leak hl hready hc)
        (hspare st kid hc) ?_ hsound
      intro w hw t ht hplace
      obtain ⟨j, hj, hun, hjk, hwj⟩ := mem_laterSlots.mp hw
      exact hdel st kid hc t ht j hj hun hjk w hwj hplace)
  exact hsound

/-- The trailing transfers read sources, and do not touch them. -/
theorem finals_hold {α : Type*} {I : Interp S α} {m₀ : Mem α} (already : List ValueId)
    (st : SchedState) : ∀ (outputs : List ValueId) (steps : List Step) (n : Nat),
      (∀ v ∈ outputs, ∀ p, undelivered already st v = some p →
        v ∈ S.outputs ∧ S.sourcePlace v = some p) →
      (∀ w ∈ S.outputs, ∀ p, S.sourcePlace w = some p →
        execSteps I steps m₀ p = S.denote I w) → ReadsOk I steps m₀ →
      ReadsOk I (steps ++ finalSteps S already st n outputs) m₀ := by
  intro outputs
  induction outputs with
  | nil =>
      intro steps n _ _ hreads
      rw [finalSteps, List.append_nil]
      exact hreads
  | cons v outputs ih =>
      intro steps n hsrc hm hreads
      have hrest := fun w hw => hsrc w (List.mem_cons_of_mem v hw)
      cases hund : undelivered already st v with
      | none =>
          simp only [finalSteps, hund]
          exact ih steps n hrest hm hreads
      | some p =>
          obtain ⟨hv, hp⟩ := hsrc v List.mem_cons_self p hund
          simp only [finalSteps, hund]
          rw [List.append_cons]
          refine ih _ (n + 1) hrest ?_ (hreads.concat ?_)
          · intro w hw q hq
            rw [execSteps_append, execSteps_singleton]
            show Function.update _ (.output v) _ q = _
            rw [Function.update_of_ne (Schedule.sourcePlace_not_output hq v)]
            exact hm w hw q hq
          · intro b hb
            obtain rfl := List.mem_singleton.mp hb
            exact hm v hv p hp

/-- The integrity of a plan: a binding that a step reads holds its value, whatever the kernels
compute; two values that are still to be read never occupy one chunk, and neither do two outputs of
one kernel. -/
structure Integrity (S : Schedule) (numStreams : Nat) (placement : KernelId → Device)
    (plan : ExecutionPlan) : Prop where
  reads : ∀ (α : Type) (I : Interp S α) (m₀ : Mem α), Starts I m₀ → ReadsOk I plan.steps m₀
  chunks : ∀ s, Reachable S numStreams placement s → ∀ v w, 0 < s.valueRemainingUses v →
    0 < s.valueRemainingUses w → ∀ c, s.Occupies v c → s.Occupies w c → v = w
  outputs : ∀ k, Step.kernel k ∈ plan.steps → DistinctChunks k.bindings

/-- What the planner leaves to chance outside the chunks. -/
def SparesBuffers (env : SchedEnv) (st : SchedState) (kid : KernelId) : Prop :=
  UpdateSpares env st kid ∧ DeliverySpares env st kid

/-- The plan has integrity when dead outputs come last, and the updates and the deliveries outside
the chunks spare what is still to be read. -/
theorem plan_integrity (hS : S.WellFormed) (hcache : S.CachesReadOnce) (numStreams : Nat)
    (placement : KernelId → Device) (hdead : S.DeadOutputsLast placement)
    (hrun : RunMeets S numStreams placement
      (SparesBuffers (MemoryAware.env S numStreams placement))) :
    ∃ plan, build S numStreams placement = some plan ∧ Integrity S numStreams placement plan := by
  obtain ⟨s, hs, hall, hbuild⟩ := build_spec hS numStreams placement
  have hsound : ∀ s, Reachable S numStreams placement s → ∀ (α : Type) (I : Interp S α)
      (m₀ : Mem α), Starts I m₀ →
      Sound (MemoryAware.env S numStreams placement) I m₀ s.toSchedState :=
    fun s hs α I m₀ hm => hs.sound hS hm hrun
      (fun _ _ _ hl hready _ => lastUse_of_readOnce hcache hl hready)
      (fun _ _ hc => hc.1)
      (fun st kid hc t ht j hj hun hjk w hw hplace => by
        have horigin : S.origin w = S.origin t := hc.2 t ht j hj hun hjk w hw hplace
        rw [← hS.denote_origin I w, horigin, hS.denote_origin I t])
  refine ⟨_, hbuild, ?_, ?_, ?_⟩
  · intro α I m₀ hm
    have hstate := hsound s hs α I m₀ hm
    exact finals_hold _ _ S.outputs s.steps s.nextEventId
      (fun v hv p hund => ⟨hv, hs.undelivered_source hS hall hv hund⟩)
      hstate.holds.source hstate.reads
  · intro s' hs' v w hv hw c hvc hwc
    obtain ⟨-, -, leak, hl⟩ := hs'.good hS
    let I : Interp S Unit :=
      { source := fun _ => (), out := fun _ _ _ => (), scratch := fun _ _ _ => (),
        copies := fun _ _ _ => rfl }
    have hstate := hsound s' hs' Unit I (fun _ => ()) fun _ _ _ => rfl
    rw [hl.uses] at hv hw
    exact hstate.exclusive v (List.count_pos_iff.mp hv) w (List.count_pos_iff.mp hw) c hvc hwc
  · intro k hk
    rcases List.mem_append.mp hk with hk | hk
    · exact hs.distinct hS hdead k hk
    · obtain ⟨v, -, p, event, -, -, -, hstep⟩ := mem_finalSteps hk
      cases hstep

/-- A split whose first half is dead, and a reader of the second half. -/
def splitThenReLU : Schedule where
  inputs := [0]
  outputs := [3]
  initializers := []
  sessionStates := []
  kernels := [{ Kernel.unary (.split { axis := ⟨0⟩, outputs := none }) 0 1 with outputs := [1, 2] },
    .unary .reLU 2 3]
  valueType := fun _ => .new (.float .F32) [4]

/-- Both halves of the split are put in one chunk. -/
theorem splitThenReLU_not_integrity : splitThenReLU.WellFormed ∧ splitThenReLU.CachesReadOnce ∧
    ∃ plan, build splitThenReLU 1 (fun _ => .CPU) = some plan ∧
      ¬ Integrity splitThenReLU 1 (fun _ => .CPU) plan := by
  refine ⟨by decide, by decide, _, rfl, fun h => ?_⟩
  have hk := h.outputs ⟨0, ⟨.CPU, 0⟩, [⟨0, .input, .input 0, false⟩, ⟨1, .output, .chunk 0, true⟩,
    ⟨2, .output, .chunk 0, false⟩], some 0⟩ (by decide)
  have := hk ⟨1, .output, .chunk 0, true⟩ (by decide) ⟨2, .output, .chunk 0, false⟩ (by decide)
    rfl rfl 0 rfl rfl
  cases this

/-- An update of a cache in the session's state, and a reader of the result. -/
def updateThenReLU : Schedule where
  inputs := [1, 2]
  outputs := [4]
  initializers := []
  sessionStates := [0]
  kernels := [{ inputs := [some 0, some 1, some 2], outputs := [3], body := .opaqueOp .kvCacheUpdate },
    .unary .reLU 3 4]
  valueType := fun _ => .new (.float .F32) [4]

/-- When the update runs, its result has no place yet, and nothing else is in the cache's. -/
theorem updateThenReLU_spares : RunMeets updateThenReLU 1 (fun _ => .CPU)
    (SparesBuffers (MemoryAware.env updateThenReLU 1 fun _ => .CPU)) := by
  intro s (kid : Nat) hs hpick
  obtain ⟨hp, hq, -⟩ := hs.good (by decide)
  have hready := (hq.ready kid).mp (minBy?_mem hpick)
  have hlt : kid < 2 := Schedule.mem_kernelIds.mp hready.mem
  have hkid : kid = 0 ∨ kid = 1 := by omega
  have hother : ∀ j ∈ updateThenReLU.kernelIds, j ≠ kid → j = 1 - kid := by
    intro j hj hne
    have hlt : j < 2 := Schedule.mem_kernelIds.mp hj
    omega
  refine ⟨?_, ?_⟩
  · intro idx x p hidx hx hplace hno hchunk
    obtain rfl : kid = 0 := by
      rcases hkid with rfl | rfl
      · rfl
      · cases hidx
    obtain rfl : args.KVCACHE_UPDATE_CACHE = idx := Option.some.inj hidx
    obtain rfl : 0 = x := Option.some.inj hx
    obtain rfl : .sessionState 0 = p := by
      have := hp.source 0 (.sessionState 0) (by decide)
      rw [this] at hplace
      simpa using hplace
    refine ⟨?_, by decide⟩
    rintro j hj - hne w hw hwp
    obtain rfl : j = 1 := hother j hj hne
    obtain rfl : w = 3 := List.mem_singleton.mp hw
    have hsched := (hp.produced 0 (by decide) 3 (by decide)).mp (by rw [hwp]; rfl)
    exact hready.unscheduled hsched
  · rintro t ⟨o, ho, halias, -⟩ j hj hun hne w hw hplace
    obtain rfl := hother j hj hne
    rcases hkid with rfl | rfl
    · obtain rfl : o = 3 := List.mem_singleton.mp ho
      have hnone : updateThenReLU.outputAliases 3 = none := by decide
      cases hnone.symm.trans halias
    · -- the update comes first
      exact absurd (hready.preds 0 (by decide)) hun

/-- The plan of the update has integrity. -/
theorem updateThenReLU_integrity : ∃ plan, build updateThenReLU 1 (fun _ => .CPU) = some plan ∧
    Integrity updateThenReLU 1 (fun _ => .CPU) plan :=
  plan_integrity (by decide) (by decide) 1 (fun _ => .CPU) (by decide) updateThenReLU_spares

end MemoryAware
end NnEngine
