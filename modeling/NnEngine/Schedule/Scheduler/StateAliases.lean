import NnEngine.Schedule.Scheduler.Bindings
import NnEngine.Schedule.Scheduler.Blocks
import NnEngine.Schedule.Scheduler.Memory

/-!
# What is in the memory of a session state

A session state stays where it is, and the values that kernels take over from it in place are there
as well.  `Resides` says which these are, from the schedule and the devices of its kernels alone; the
places of every run agree with it, and so do the bindings of the kernel steps.
-/

namespace NnEngine
namespace SchedState

section Aliases

variable (S : Schedule) (placement : KernelId → Device) (stateTier : ValueId → MemoryTier)

/-- The kernel binds a value in the memory of the state where it is, without a copy. -/
def BindsDirectly (v : ValueId) (kid : KernelId) (x : ValueId) : Prop :=
  stateTier v = (placement kid).tier ∨ isHostScalar S x = true

/-- The value is in the memory of the session state: it is the state, or a kernel takes it over in
place from a value that is. -/
inductive Resides (v : ValueId) : ValueId → Prop
  | state (hv : S.sourcePlace v = some (.sessionState v)) : Resides v v
  | inPlace {kid : KernelId} {x w : ValueId} (hk : kid ∈ S.kernelIds) (hx : Resides v x)
      (hdirect : BindsDirectly S placement stateTier v kid x) (hin : InPlaceInput S kid x)
      (hw : w ∈ (S.kernel kid).outputs) : Resides v w

/-- The kernel reads a value in the memory of the session state there. -/
def ReadsState (v : ValueId) (kid : KernelId) : Prop :=
  ∃ x ∈ (S.kernel kid).presentInputs, Resides S placement stateTier v x ∧
    BindsDirectly S placement stateTier v kid x

end Aliases

section Resides

variable {S : Schedule} {placement : KernelId → Device} {stateTier : ValueId → MemoryTier}
  {kid : KernelId} {v w : ValueId}

theorem eq_of_sourcePlace (h : S.sourcePlace w = some (.sessionState v)) : v = w := by
  unfold Schedule.sourcePlace at h
  split at h
  · cases h
  · split at h
    · simpa using h.symm
    · split at h <;> cases h

/-- A kernel's output is in the memory of a state when the kernel takes it over. -/
theorem resides_output_iff (hS : S.WellFormed) (hk : kid ∈ S.kernelIds)
    (hw : w ∈ (S.kernel kid).outputs) : Resides S placement stateTier v w ↔
    ∃ x, InPlaceInput S kid x ∧ Resides S placement stateTier v x ∧
      BindsDirectly S placement stateTier v kid x := by
  constructor
  · intro h
    cases h with
    | state hv =>
        rw [hS.source_unproduced kid hk _ hw] at hv
        cases hv
    | inPlace hk' hx hdirect hin hw' =>
        obtain rfl := hS.produced_once _ hk' kid hk w hw' hw
        exact ⟨_, hin, hx, hdirect⟩
  · rintro ⟨x, hin, hx, hdirect⟩
    exact .inPlace hk hx hdirect hin hw

/-- A source is in the memory of a state when it is the state. -/
theorem resides_source_iff (hS : S.WellFormed) {p : AllocPlace} (hw : S.sourcePlace w = some p) :
    Resides S placement stateTier v w ↔ p = .sessionState v := by
  constructor
  · intro h
    cases h with
    | state hv => exact Option.some.inj (hw.symm.trans hv)
    | inPlace hk hx hdirect hin hout =>
        rw [hS.source_unproduced _ hk w hout] at hw
        cases hw
  · rintro rfl
    obtain rfl := eq_of_sourcePlace hw
    exact .state hw

/-- A value in the memory of a state carries data, and it is no initializer. -/
theorem Resides.carries (h : Resides S placement stateTier v w) (hS : S.WellFormed) :
    S.isScratch w = false ∧ w ∉ S.initializers := by
  have hinit : w ∉ S.initializers := by
    intro hw
    have := (resides_source_iff hS (hS.sourcePlace_initializer hw)).mp h
    cases this
  refine ⟨?_, hinit⟩
  cases h with
  | state hv =>
      rcases Schedule.sourcePlace_isSome.mp (by rw [hv]; rfl) with hw | hw | hw
      · simp [Schedule.isScratch, Schedule.isWorkspace, hw]
      · simp [Schedule.isScratch, Schedule.isWorkspace, hw]
      · exact absurd hw hinit
  | inPlace hk hx hdirect hin hw =>
      have hprod := hS.value2producer_eq hk hw
      simp [Schedule.isScratch, Schedule.isWorkspace, hprod]

/-- An in-place input is an input. -/
theorem InPlaceInput.mem {x : ValueId} (h : InPlaceInput S kid x) : x ∈ (S.kernel kid).presentInputs := by
  have hmem : some x ∈ (S.kernel kid).inputs := by
    rcases h with ⟨-, hx⟩ | ⟨idx, -, hx⟩
    · exact List.mem_of_head? hx
    · rw [List.getD_eq_getElem?_getD] at hx
      cases hget : (S.kernel kid).inputs[idx]? with
      | none => simp [hget] at hx
      | some y =>
          rw [hget, Option.getD_some] at hx
          exact hx ▸ List.mem_of_getElem? hget
  simpa [Kernel.presentInputs] using hmem

theorem InPlaceInput.not_transfer {x : ValueId} (h : InPlaceInput S kid x) :
    (S.kernel kid).isTransfer = false := by
  unfold InPlaceInput Kernel.isForward Schedule.mustInPlaceInput at h
  unfold Kernel.isTransfer
  split
  · rename_i hbody
    simp [hbody] at h
  · rfl

/-- What is in the memory of a state is taken over from a kernel that names the state, if it is not
the state itself. -/
theorem Resides.user {x : ValueId} (h : Resides S placement stateTier v x) : v = x ∨
    ∃ kid ∈ S.kernelIds, (S.kernel kid).isTransfer = false ∧ v ∈ (S.kernel kid).presentInputs := by
  induction h with
  | state hv => exact Or.inl rfl
  | inPlace hk hx hdirect hin hw ih =>
      right
      rcases ih with rfl | huser
      · exact ⟨_, hk, hin.not_transfer, hin.mem⟩
      · exact huser

end Resides

variable {env : SchedEnv} {st st₀ st₁ : SchedState} {tier : MemoryTier} {v w x : ValueId}
  {p : AllocPlace} {kid stream : Nat}

theorem not_needsCopy_state : ¬ NeedsCopy env st (env.placement kid).tier x (.sessionState v) ↔
    BindsDirectly env.schedule env.placement env.sessionStateTier v kid x := by
  unfold NeedsCopy needsTransfer BindsDirectly
  by_cases htier : env.sessionStateTier v = (env.placement kid).tier <;>
    cases isHostScalar env.schedule x <;> simp [htier]

/-- The values are in the memory of a session state as `Resides` says. -/
def StatePlaces (env : SchedEnv) (st : SchedState) : Prop :=
  ∀ w, env.schedule.isScratch w = false → ∀ p, st.value2place w = some p → ∀ v,
    (p = .sessionState v ↔ Resides env.schedule env.placement env.sessionStateTier v w)

end SchedState

namespace MemoryAware

open SchedState

variable {S : Schedule} {numStreams : Nat} {placement : KernelId → Device} {s : Scheduler}
  {env : SchedEnv} {st : SchedState} {kid stream : Nat} {leak : Nat → Nat} {v : ValueId}

/-- The bindings of a kernel step are in the memory of a session state when the kernel reads it
there. -/
def StateBound (S : Schedule) (placement : KernelId → Device) (stateTier : ValueId → MemoryTier)
    (k : KernelStep) : Prop :=
  ∀ v, (∃ b ∈ k.bindings, b.place = .sessionState v) ↔ ReadsState S placement stateTier v k.kernel

/-- The outputs of a kernel are placed as `Resides` says, and so are its bindings. -/
theorem emission_states (hS : env.schedule.WellFormed) (hp : Planned env st)
    (hl : Ledger env.numStreams (st.slots env.schedule) (pendOf []) leak none st)
    (hready : Ready env st kid) (hpick : pickStream env st kid = some stream)
    (hs : stream < env.numStreams) (hst : StatePlaces env st) :
    ∃ e : Emission, e.Of env st kid stream leak ∧
      StatePlaces env (e.final ⟨env.placement kid, stream⟩) ∧
      ∀ k, e.step = .kernel k → StateBound env.schedule env.placement env.sessionStateTier k := by
  -- outputs that are not taken over are placed elsewhere
  obtain ⟨e, he, -, helse⟩ := emitKernel_induct hS hp hl hready hpick hs (P := fun _ _ _ _ => True)
    (Q := fun _ inPlace done st₂ _ _ => inPlace = none → ∀ o ∈ done, ∀ v,
      st₂.value2place o ≠ some (.sessionState v)) trivial
    (by intros; trivial) (by intro _ _ _ _ _ _ _ _ _ o ho; cases ho)
    (by
      intro leak' inPlace st₁ ins done st₂ bs posts o p a first hpre hodone hled hnone hcase hb hsource
        hout hQ hin w hw v hplace
      rcases List.mem_append.mp hw with hw | hw
      · have hwo : w ≠ o := fun h => hodone (h ▸ hw)
        refine hQ hin w hw v ?_
        simpa [Function.update_of_ne hwo] using hplace
      · obtain rfl := List.mem_singleton.mp hw
        have hp : p = .sessionState v := by simpa using hplace
        cases hcase with
        | inPlace _ _ hsome _ =>
            rw [hin] at hsome
            cases hsome
        | aliased => cases hp
        | fresh => cases hp)
  have hin := he.inputsBound
  have hout := he.outputsBound
  -- an input is bound in the memory of a state when the kernel reads it there
  have hbind : ∀ b ∈ e.inputs, ∀ v, b.place = .sessionState v ↔
      Resides env.schedule env.placement env.sessionStateTier v b.value ∧
        BindsDirectly env.schedule env.placement env.sessionStateTier v kid b.value := by
    intro b hb v
    have hmem : b.value ∈ (env.schedule.kernel kid).presentInputs :=
      hin.values ▸ List.mem_map_of_mem hb
    cases hscr : env.schedule.isScratch b.value with
    | true =>
        obtain ⟨c, hc⟩ := hin.workspace b hb (by rw [hin.role b hb, hscr]; rfl)
        rw [hc]
        constructor
        · intro h
          cases h
        · rintro ⟨hres, -⟩
          rw [(hres.carries hS).1] at hscr
          cases hscr
    | false =>
        rw [hin.direct b hb (by rw [hin.role b hb, hscr]; rfl) (.sessionState v) (by simp),
          not_needsCopy_state, entered_value2place]
        refine and_congr_left fun _ => ?_
        constructor
        · intro hplace
          exact (hst b.value hscr _ hplace v).mp rfl
        · intro hres
          rcases hready.inputs_placed hS hp b.value hmem with hinit | hscr' | hsome
          · exact absurd hinit (hres.carries hS).2
          · rw [hscr] at hscr'
            cases hscr'
          · obtain ⟨p, hplace⟩ := Option.isSome_iff_exists.mp hsome
            rw [hplace, (hst b.value hscr p hplace v).mpr hres]
  -- so is an output when it is taken over from such an input
  have houtput : ∀ o ∈ (env.schedule.kernel kid).outputs, ∀ v,
      e.placed.value2place o = some (.sessionState v) ↔
        Resides env.schedule env.placement env.sessionStateTier v o := by
    intro o ho v
    rw [resides_output_iff hS hready.mem ho]
    have hsource := he.source
    cases hplace : e.inPlace with
    | some q =>
        rw [hplace] at hsource
        obtain ⟨b, hb, hinput, hrole, rfl, -, -⟩ := hsource.input hin hS hready.mem
        rw [hout.inherits _ hplace o ho, Option.some.injEq, hbind b hb v]
        constructor
        · rintro ⟨hres, hdirect⟩
          exact ⟨b.value, hinput, hres, hdirect⟩
        · rintro ⟨x, hx, hres, hdirect⟩
          obtain rfl := inPlaceInput_unique hinput hx
          exact ⟨hres, hdirect⟩
    | none =>
        refine iff_of_false (helse hplace o ho v) ?_
        rintro ⟨x, hx, hres, hdirect⟩
        have hxv : x ∈ e.inputs.map ValueBinding.value := hin.values.symm ▸ hx.mem
        obtain ⟨b, hb, rfl⟩ := List.mem_map.mp hxv
        have hscr := (hres.carries hS).1
        have hbp := (hbind b hb v).mpr ⟨hres, hdirect⟩
        obtain ⟨hplace₀, hno⟩ := (hin.direct b hb (by rw [hin.role b hb, hscr]; rfl)
          (.sessionState v) (by simp)).mp hbp
        have := hsource.inPlace_eq hS hready.mem hin hx (by simp) hplace₀ hno
        rw [hplace] at this
        cases this
  refine ⟨e, he, ?_, ?_⟩
  · intro w hscr p hplace v
    by_cases hw : w ∈ (env.schedule.kernel kid).outputs
    · rw [← houtput w hw v]
      have hplace : e.placed.value2place w = some p := hplace
      rw [hplace, Option.some.injEq]
    · have hold : st.value2place w = some p := by
        rw [← hplace]
        show _ = e.placed.value2place w
        rw [hout.frame w hw, hin.frame w (Or.inl hscr), entered_value2place]
      exact hst w hscr p hold v
  · intro k hk
    rcases bodyStep_cases hS hready.mem hin hout he.body with ⟨-, hstep⟩ | ⟨-, b, d, -, -, -, -, hstep⟩
    swap
    · rw [hk] at hstep
      cases hstep
    obtain rfl : k = ⟨kid, ⟨env.placement kid, stream⟩, e.bindings, some st.nextEventId⟩ := by
      simpa using hk.symm.trans hstep
    obtain ⟨outs, hbs, hvalues, houts⟩ := hout.bindings
    intro v
    constructor
    · rintro ⟨b, hb, hplace⟩
      have hb : b ∈ e.bindings := hb
      rw [hbs] at hb
      rcases List.mem_append.mp hb with hb | hb
      · obtain ⟨hres, hdirect⟩ := (hbind b hb v).mp hplace
        exact ⟨b.value, hin.values ▸ List.mem_map_of_mem hb, hres, hdirect⟩
      · have hval : b.value ∈ (env.schedule.kernel kid).outputs :=
          hvalues ▸ List.mem_map_of_mem hb
        have hres := (houtput b.value hval v).mp (hplace ▸ (houts b hb).2)
        obtain ⟨x, hx, hres, hdirect⟩ := (resides_output_iff hS hready.mem hval).mp hres
        exact ⟨x, hx.mem, hres, hdirect⟩
    · rintro ⟨x, hx, hres, hdirect⟩
      have hxv : x ∈ e.inputs.map ValueBinding.value := hin.values.symm ▸ hx
      obtain ⟨b, hb, rfl⟩ := List.mem_map.mp hxv
      refine ⟨b, ?_, (hbind b hb v).mpr ⟨hres, hdirect⟩⟩
      show b ∈ e.bindings
      rw [hbs]
      exact List.mem_append_left _ hb

theorem Reachable.stateBound (hS : S.WellFormed) (h : Reachable S numStreams placement s) :
    ∀ k, .kernel k ∈ s.steps → StateBound S placement (sessionStateTier S placement) k := by
  obtain ⟨-, -, -, -, -, hb⟩ := h.induct hS (C := fun _ _ => True) (fun _ _ _ _ => trivial)
    (I := fun st _ => StatePlaces (MemoryAware.env S numStreams placement) st ∧
      ∀ k, .kernel k ∈ st.steps → StateBound S placement (sessionStateTier S placement) k)
    ⟨fun w _ p hp v => (resides_source_iff hS hp).symm, fun k hk => by cases hk⟩
    (fun st kid stream leak hp hl hready hpick hs _ hst => by
      obtain ⟨e, he, hplaces, hbody⟩ := emission_states hS hp hl hready hpick hs hst.1
      refine ⟨e, he, hplaces, fun k hk => ?_⟩
      rcases he.mem_steps hk with hold | ⟨w, hw⟩ | ⟨v, c, t, ht, -⟩ | hstep | ⟨pt, -, event, hpost⟩
      · exact hst.2 k hold
      · cases hw
      · cases ht
      · exact hbody k hstep.symm
      · cases hpost)
  exact hb

/-- The kernel steps of a plan run each kernel that is no transfer, on its device, and bind the
memory of the session states that it reads. -/
structure KernelSteps (S : Schedule) (placement : KernelId → Device) (steps : List Step) : Prop where
  kernel : ∀ k, .kernel k ∈ steps → k.kernel ∈ S.kernelIds ∧
    (S.kernel k.kernel).isTransfer = false ∧ k.context.device = placement k.kernel
  bound : ∀ k, .kernel k ∈ steps → StateBound S placement (sessionStateTier S placement) k
  exists_step : ∀ kid ∈ S.kernelIds, (S.kernel kid).isTransfer = false →
    ∃ k, .kernel k ∈ steps ∧ k.kernel = kid

theorem plan_kernelSteps (hS : S.WellFormed) (numStreams : Nat) (placement : KernelId → Device) :
    ∃ plan, build S numStreams placement = some plan ∧ KernelSteps S placement plan.steps := by
  obtain ⟨s, hs, hall, hbuild⟩ := build_spec hS numStreams placement
  have hblocks := Blocks.finals (deliveredValues s.steps) s.toSchedState S.outputs s.steps
    s.nextEventId (hs.blocks hS)
  have hcomplete : Complete S (s.steps ++
      finalSteps S (deliveredValues s.steps) s.toSchedState s.nextEventId S.outputs) :=
    (Trace.finals hS _ _ S.outputs _ _ (hs.trace hS)).complete hS hall
  -- the trailing steps are transfers
  have hloop : ∀ k, .kernel k ∈ s.steps ++
      finalSteps S (deliveredValues s.steps) s.toSchedState s.nextEventId S.outputs →
      .kernel k ∈ s.steps := by
    intro k hk
    rcases List.mem_append.mp hk with hk | hk
    · exact hk
    · obtain ⟨v, -, p, event, -, -, -, hfin⟩ := mem_finalSteps hk
      cases hfin
  refine ⟨_, hbuild, ⟨fun k hk => ?_, fun k hk => hs.stateBound hS k (hloop k hk), fun kid hkid ht => ?_⟩⟩
  · exact ⟨(hblocks.kernels k hk).1, (hs.wellBound hS k (hloop k hk)).notTransfer,
      (hblocks.kernels k hk).2⟩
  · have hone := hcomplete.once kid hkid
    obtain ⟨step, hstep, hruns⟩ := List.countP_pos_iff.mp (hone ▸ Nat.one_pos)
    cases step with
    | kernel k => exact ⟨k, hstep, by simpa [Step.runs] using hruns⟩
    | transfer t => simp [Step.runs, ht] at hruns
    | syncWait w => cases hruns

end MemoryAware
end NnEngine
