import NnEngine.Schedule.Scheduler.Finalize
import NnEngine.Schedule.Scheduler.Trace

/-!
# The blocks of a plan

The scheduler adds the steps of a kernel as one block on one stream, which ends in the kernel's own
step or in a transfer after it.  So the step after a wait is on the wait's stream.
-/

namespace NnEngine

/-- The step waits for an event. -/
def Step.isWait : Step → Bool
  | .syncWait _ => true
  | _ => false

theorem Step.isWait_iff {step : Step} : step.isWait = true ↔ ∃ w, step = .syncWait w := by
  cases step <;> simp [Step.isWait]

/-- What comes after a wait is on its stream. -/
def Step.Leads (a b : Step) : Prop := a.isWait = true → b.stream = a.stream

/-- The steps of whole blocks: waits lead on, every other step records an event, and the kernels
are the schedule's, on their devices. -/
structure Blocks (S : Schedule) (placement : KernelId → Device) (steps : List Step) : Prop where
  chain : steps.IsChain Step.Leads
  last : ∀ step ∈ steps.getLast?, step.isWait = false
  records : ∀ step ∈ steps, step.isWait = false → ∃ e, step.event? = some e
  kernels : ∀ k, .kernel k ∈ steps →
    k.kernel ∈ S.kernelIds ∧ k.context.device = placement k.kernel

variable {S : Schedule} {placement : KernelId → Device} {steps block : List Step} {stream : Nat}

theorem Blocks.nil : Blocks S placement [] where
  chain := .nil
  last := by simp
  records := by simp
  kernels := by simp

/-- One more block. -/
theorem Blocks.append (h : Blocks S placement steps) (hstream : ∀ s ∈ block, s.stream = stream)
    (hlast : ∀ step ∈ block.getLast?, step.isWait = false)
    (hrec : ∀ step ∈ block, step.isWait = false → ∃ e, step.event? = some e)
    (hker : ∀ k, .kernel k ∈ block → k.kernel ∈ S.kernelIds ∧ k.context.device = placement k.kernel) :
    Blocks S placement (steps ++ block) where
  chain := by
    refine h.chain.append ?_ ?_
    · apply List.IsChain.imp_of_mem_imp (R := fun _ _ => True) ?_ (by simp [List.isChain_iff_forall_rel_of_append_cons_cons])
      intro a b ha hb _ _
      rw [hstream a ha, hstream b hb]
    · intro a ha b _ hwait
      rw [h.last a ha] at hwait
      cases hwait
  last := by
    intro step hstep
    rw [List.getLast?_append] at hstep
    cases hb : block.getLast? with
    | none =>
        rw [hb, Option.none_or] at hstep
        exact h.last step hstep
    | some s =>
        rw [hb, Option.some_or] at hstep
        rw [hb] at hlast
        exact hlast step hstep
  records := by
    intro step hstep
    exact (List.mem_append.mp hstep).elim (h.records step) (hrec step)
  kernels := by
    intro k hk
    exact (List.mem_append.mp hk).elim (h.kernels k) (hker k)

namespace MemoryAware

open SchedState

variable {env : SchedEnv} {st : SchedState} {kid numStreams : Nat} {leak : Nat → Nat}
  {s : Scheduler}

/-- The steps of one kernel are a block. -/
theorem emission_blocks (hS : env.schedule.WellFormed) (hp : Planned env st)
    (hl : Ledger env.numStreams (st.slots env.schedule) (pendOf []) leak none st)
    (hready : Ready env st kid) (hpick : pickStream env st kid = some stream)
    (hs : stream < env.numStreams) (h : Blocks env.schedule env.placement st.steps) :
    ∃ e : Emission, e.Of env st kid stream leak ∧
      Blocks env.schedule env.placement (e.final ⟨env.placement kid, stream⟩).steps := by
  -- the copies of the inputs record their events
  obtain ⟨e, he, hrec, -⟩ := emitKernel_induct hS hp hl hready hpick hs
    (P := fun _ _ st₁ _ => ∀ step ∈ st₁.steps, step.isWait = false → ∃ e, step.event? = some e)
    (Q := fun _ _ _ _ _ _ => True)
    (by
      intro step hstep hwait
      rcases List.mem_append.mp hstep with hold | hnew
      · exact h.records step hold hwait
      · obtain ⟨event, rfl⟩ := eq_syncWait_of_mem_waits hnew
        cases hwait)
    (by
      intro leak leak' done st₁ st₁' bs v b hv hled hcase hled' hor hbound hP step hstep hwait
      cases hcase with
      | initializer => exact hP step hstep hwait
      | workspace => exact hP step hstep hwait
      | direct => exact hP step hstep hwait
      | cached p r =>
          rcases List.mem_append.mp hstep with hold | hnew
          · exact hP step hold hwait
          · unfold copyWait at hnew
            split at hnew
            · rw [List.mem_singleton.mp hnew] at hwait
              cases hwait
            · cases hnew
      | copied =>
          rcases List.mem_append.mp hstep with hold | hnew
          · exact hP step hold hwait
          · rw [List.mem_singleton.mp hnew]
            exact ⟨_, rfl⟩)
    (by intros; trivial) (by intros; trivial)
  refine ⟨e, he, ?_⟩
  obtain ⟨l, hsteps, hplaced, hl⟩ := he.steps
  obtain ⟨hruns, hevent, hstream⟩ := bodyStep_runs hS hready.mem he.inputsBound he.outputsBound he.body
  have hpost : ∀ step ∈ postSteps ⟨env.placement kid, stream⟩ e.placed.nextEventId e.posts,
      ∃ t e, step = .transfer t ∧ t.context = ⟨env.placement kid, stream⟩ ∧
        t.recordsEvent = some e := by
    intro step hstep
    obtain ⟨pt, -, event, rfl⟩ := mem_postSteps hstep
    exact ⟨_, event, rfl, rfl, rfl⟩
  have hbody : ∀ k, e.step = .kernel k → k.kernel = kid ∧ k.context.device = env.placement kid := by
    intro k hk
    rcases bodyStep_cases hS hready.mem he.inputsBound he.outputsBound he.body with
      ⟨-, hstep⟩ | ⟨-, b, d, -, -, -, -, hstep⟩
    · rw [hk] at hstep
      cases hstep
      exact ⟨rfl, rfl⟩
    · rw [hk] at hstep
      cases hstep
  have hbodyWait : e.step.isWait = false := by
    cases hstep : e.step with
    | syncWait w =>
        rw [hstep] at hevent
        cases hevent
    | kernel k => rfl
    | transfer t => rfl
  rw [hsteps]
  refine h.append (?_ : ∀ s ∈ _, Step.stream s = stream) ?_ ?_ ?_
  · intro step hstep
    simp only [List.mem_append, List.mem_cons] at hstep
    rcases hstep with hwait | hin | rfl | hafter
    · obtain ⟨event, rfl⟩ := eq_syncWait_of_mem_waits hwait
      rfl
    · exact (hl _ hin).1
    · exact hstream
    · obtain ⟨t, -, rfl, hctx, -⟩ := hpost _ hafter
      show t.context.stream = stream
      rw [hctx]
  · intro step hstep
    rw [← List.append_assoc, List.getLast?_append, List.getLast?_cons] at hstep
    cases hlast : (postSteps ⟨env.placement kid, stream⟩ e.placed.nextEventId e.posts).getLast? with
    | none =>
        rw [hlast] at hstep
        obtain rfl : e.step = step := by simpa using hstep
        exact hbodyWait
    | some s =>
        rw [hlast] at hstep
        obtain rfl : s = step := by simpa using hstep
        obtain ⟨t, -, rfl, -⟩ := hpost s (List.mem_of_getLast? hlast)
        rfl
  · intro step hstep hwait
    simp only [List.mem_append, List.mem_cons] at hstep
    rcases hstep with hw | hin | rfl | hafter
    · obtain ⟨event, rfl⟩ := eq_syncWait_of_mem_waits hw
      cases hwait
    · refine hrec step ?_ hwait
      rw [← he.outputsBound.steps, hplaced]
      simp [hin]
    · exact ⟨_, hevent⟩
    · obtain ⟨t, event, rfl, -, hev⟩ := hpost _ hafter
      exact ⟨event, hev⟩
  · intro k hk
    simp only [List.mem_append, List.mem_cons] at hk
    rcases hk with hw | hin | hbodyStep | hafter
    · obtain ⟨event, hev⟩ := eq_syncWait_of_mem_waits hw
      cases hev
    · obtain ⟨-, ⟨w, hw⟩ | ⟨v, c, t, ht, -⟩⟩ := hl _ hin
      · cases hw
      · cases ht
    · obtain ⟨hkid, hdev⟩ := hbody k hbodyStep.symm
      rw [hkid]
      exact ⟨hready.mem, hdev⟩
    · obtain ⟨t, -, ht, -⟩ := hpost _ hafter
      cases ht

/-- The steps of every reachable state are blocks. -/
theorem Reachable.blocks (hS : S.WellFormed) (h : Reachable S numStreams placement s) :
    Blocks S placement s.steps := by
  obtain ⟨-, -, -, -, hb⟩ := h.induct hS (C := fun _ _ => True) (fun _ _ _ _ => trivial)
    (I := fun st _ => Blocks S placement st.steps) .nil
    (fun st kid stream leak hp hl hready hpick hs _ hb => emission_blocks hS hp hl hready hpick hs hb)
  exact hb

/-- Each trailing transfer is a block of its own. -/
theorem Blocks.finals (already : List ValueId) (st : SchedState) :
    ∀ (outputs : List ValueId) (steps : List Step) (next : Nat), Blocks S placement steps →
      Blocks S placement (steps ++ finalSteps S already st next outputs) := by
  intro outputs
  induction outputs with
  | nil => intro steps next h; simpa [finalSteps] using h
  | cons v outputs ih =>
      intro steps next h
      cases hund : undelivered already st v with
      | none =>
          simp only [finalSteps, hund]
          exact ih steps next h
      | some p =>
          simp only [finalSteps, hund]
          have hone : Blocks S placement (steps ++ [Step.transfer
              { src := ⟨v, .input, p, false⟩
                dst := ⟨v, .output, .output v, false⟩
                context := finalContext S st v
                recordsEvent := some next }]) := by
            refine h.append (?_ : ∀ s ∈ _, Step.stream s = (finalContext S st v).stream) ?_ ?_ ?_
            · simp [Step.stream]
            · simp [Step.isWait]
            · simp [Step.event?]
            · simp
          have hrest := ih _ (next + 1) hone
          rw [List.append_assoc] at hrest
          exact hrest

end MemoryAware
end NnEngine
