import NnEngine.Schedule.Scheduler.Reachable

/-!
# The trace of a run

`Trace` is the invariant of the steps that the scheduler has emitted: every event is recorded once,
every wait comes after the record it waits for, and the kernels run once and in dependency order.
-/

namespace NnEngine

/-- The step is the one that runs the kernel: the `Kernel` step that names it or, for a `Transfer`
operator, the `Transfer` step from its input to its output. -/
def Step.runs (S : Schedule) (kid : KernelId) : Step → Bool
  | .kernel k => k.kernel == kid
  | .transfer t => (S.kernel kid).isTransfer && (S.kernel kid).inputs == [some t.src.value] &&
      (S.kernel kid).outputs == [t.dst.value]
  | .syncWait _ => false

/-- The step produces what the kernel waits for: it runs a predecessor, or copies an input. -/
def Step.Feeds (S : Schedule) (kid : KernelId) (step : Step) : Prop :=
  (∃ pred ∈ S.kernelPreds kid, step.runs S pred = true) ∨
    ∃ v ∈ (S.kernel kid).presentInputs, ∃ c, step.IsCopy v (.chunk c)

variable {S : Schedule} {steps : List Step} {step : Step} {kid : Nat}

/-- A transfer of one value from place to place runs no kernel. -/
theorem runs_transfer_self (hS : S.WellFormed) {t : TransferStep} (ht : t.src.value = t.dst.value)
    (hk : kid ∈ S.kernelIds) : (Step.transfer t).runs S kid = false := by
  cases h : (Step.transfer t).runs S kid with
  | false => rfl
  | true =>
      simp only [Step.runs, Bool.and_eq_true, beq_iff_eq] at h
      obtain ⟨⟨-, hin⟩, hout⟩ := h
      have hv : t.src.value ∈ (S.kernel kid).presentInputs := by simp [Kernel.presentInputs, hin]
      have hw : t.src.value ∈ (S.kernel kid).outputs := by simp [hout, ht]
      have := hS.ordered kid hk _ hv kid hk hw
      omega

/-- A step runs at most one kernel. -/
theorem runs_unique (hS : S.WellFormed) {i j : Nat} (hi : i ∈ S.kernelIds) (hj : j ∈ S.kernelIds)
    (hri : step.runs S i = true) (hrj : step.runs S j = true) : i = j := by
  cases step with
  | kernel k =>
      simp only [Step.runs, beq_iff_eq] at hri hrj
      exact hri.symm.trans hrj
  | transfer t =>
      simp only [Step.runs, Bool.and_eq_true, beq_iff_eq] at hri hrj
      exact hS.produced_once i hi j hj t.dst.value (by simp [hri.2]) (by simp [hrj.2])
  | syncWait w => cases hri

/-- The trace of the kernels `run`, with the next event and the copies on record. -/
structure Trace (S : Schedule) (run : List (Nat × KernelInfo)) (steps : List Step) (next : Nat)
    (copies : ValueId → MemoryTier → Option TransferRecord) : Prop where
  events_lt : ∀ step ∈ steps, ∀ e, step.event? = some e → e < next
  events_once : (steps.filterMap Step.event?).Nodup
  waits : ∀ pre w post, steps = pre ++ .syncWait w :: post →
    ∃ kid ∈ S.kernelIds, (∀ s ∈ pre, s.runs S kid = false) ∧
      ∃ step ∈ pre, step.event? = some w.event ∧ step.Feeds S kid
  ran : ∀ kid i, (kid, i) ∈ run →
    ∃ step ∈ steps, step.runs S kid = true ∧ step.event? = some i.event ∧ step.stream = i.stream
  once : ∀ kid ∈ S.kernelIds,
    steps.countP (Step.runs S kid) = if kid ∈ run.map Prod.fst then 1 else 0
  order : ∀ pre step post, steps = pre ++ step :: post → ∀ kid ∈ S.kernelIds,
    step.runs S kid = true → ∀ pred ∈ S.kernelPreds kid, ∃ step' ∈ pre, step'.runs S pred = true
  copied : ∀ v t r, copies v t = some r → ∃ step ∈ steps, step.event? = some r.event ∧
    step.stream = r.stream ∧ (∃ c, r.place = .chunk c) ∧ step.IsCopy v r.place

variable {run : List (Nat × KernelInfo)} {next next' : Nat}
  {copies : ValueId → MemoryTier → Option TransferRecord}

theorem Trace.nil : Trace S [] [] 0 fun _ _ => none where
  events_lt := by simp
  events_once := List.nodup_nil
  waits := by
    intro pre w post h
    simp at h
  ran := by simp
  once := by simp
  order := by
    intro pre step post h
    simp at h
  copied := by simp

/-- No step runs a kernel that is not on the list. -/
theorem Trace.runs_eq_false (h : Trace S run steps next copies) (hk : kid ∈ S.kernelIds)
    (hnew : kid ∉ run.map Prod.fst) : ∀ s ∈ steps, s.runs S kid = false := by
  intro s hs
  have hcount := h.once kid hk
  rw [if_neg hnew, List.countP_eq_zero] at hcount
  simpa using hcount s hs

/-- One more step that runs no kernel. -/
theorem Trace.push (h : Trace S run steps next copies) (step : Step) (hnext : next ≤ next')
    (hevent : ∀ e, step.event? = some e → e < next' ∧ ∀ s ∈ steps, s.event? ≠ some e)
    (hwait : ∀ w, step = .syncWait w → ∃ kid ∈ S.kernelIds, kid ∉ run.map Prod.fst ∧
      ∃ s ∈ steps, s.event? = some w.event ∧ s.Feeds S kid)
    (hrun : ∀ kid ∈ S.kernelIds, step.runs S kid = false) :
    Trace S run (steps ++ [step]) next' copies where
  events_lt := by
    intro s hs e he
    rcases List.mem_append.mp hs with hs | hs
    · exact Nat.lt_of_lt_of_le (h.events_lt s hs e he) hnext
    · rw [List.mem_singleton.mp hs] at he
      exact (hevent e he).1
  events_once := by
    rw [List.filterMap_append, List.nodup_append]
    refine ⟨h.events_once, ?_, ?_⟩
    · cases hs : step.event? <;> simp [hs]
    · intro a ha b hb
      obtain ⟨s, hs, hsa⟩ := List.mem_filterMap.mp ha
      have hsb : step.event? = some b := by simpa using hb
      rintro rfl
      exact (hevent a hsb).2 s hs hsa
  waits := by
    intro pre w post heq
    rcases append_singleton_eq_append_cons heq with ⟨-, rfl, hw⟩ | ⟨post', -, heq'⟩
    · obtain ⟨kid, hk, hnew, hs⟩ := hwait w hw.symm
      exact ⟨kid, hk, h.runs_eq_false hk hnew, hs⟩
    · exact h.waits pre w post' heq'
  ran := by
    intro kid i hi
    obtain ⟨s, hs, hrest⟩ := h.ran kid i hi
    exact ⟨s, List.mem_append_left _ hs, hrest⟩
  once := by
    intro kid hk
    rw [List.countP_append, h.once kid hk, List.countP_singleton, hrun kid hk]
    simp
  order := by
    intro pre s post heq kid hk hs
    rcases append_singleton_eq_append_cons heq with ⟨-, rfl, rfl⟩ | ⟨post', -, heq'⟩
    · rw [hrun kid hk] at hs
      cases hs
    · exact h.order pre s post' heq' kid hk hs
  copied := by
    intro v t r hr
    obtain ⟨s, hs, hrest⟩ := h.copied v t r hr
    exact ⟨s, List.mem_append_left _ hs, hrest⟩

/-- The next event may be a later one. -/
theorem Trace.mono (h : Trace S run steps next copies) (hle : next ≤ next') :
    Trace S run steps next' copies :=
  { h with events_lt := fun s hs e he => Nat.lt_of_lt_of_le (h.events_lt s hs e he) hle }

/-- The waits of a kernel that has not run, for events that are on record. -/
theorem Trace.pushWaits (h : Trace S run steps next copies) {ws : List Step}
    (hk : kid ∈ S.kernelIds) (hnew : kid ∉ run.map Prod.fst)
    (hws : ∀ s ∈ ws, ∃ w, s = .syncWait w ∧
      ∃ step ∈ steps, step.event? = some w.event ∧ step.Feeds S kid) :
    Trace S run (steps ++ ws) next copies := by
  induction ws using List.reverseRecOn with
  | nil => simpa using h
  | append_singleton ws s ih =>
      obtain ⟨w, rfl, step, hstep, hrest⟩ := hws s (by simp)
      rw [← List.append_assoc]
      refine (ih fun s hs => hws s (by simp [hs])).push _ (Nat.le_refl _) (by simp [Step.event?]) ?_
        (by simp [Step.runs])
      intro w' hw'
      obtain rfl : w = w' := by simpa using hw'
      exact ⟨kid, hk, hnew, step, List.mem_append_left _ hstep, hrest⟩

/-- One more step that runs a kernel whose predecessors ran. -/
theorem Trace.pushBody (h : Trace S run steps next copies) {i : KernelInfo}
    (hevent : step.event? = some i.event) (hlt : i.event < next)
    (hfresh : ∀ s ∈ steps, s.event? ≠ some i.event) (hstream : step.stream = i.stream)
    (hruns : step.runs S kid = true)
    (hother : ∀ j ∈ S.kernelIds, j ≠ kid → step.runs S j = false)
    (hnew : kid ∉ run.map Prod.fst)
    (hpreds : ∀ pred ∈ S.kernelPreds kid, pred ∈ run.map Prod.fst) :
    Trace S (run ++ [(kid, i)]) (steps ++ [step]) next copies where
  events_lt := by
    intro s hs e he
    rcases List.mem_append.mp hs with hs | hs
    · exact h.events_lt s hs e he
    · rw [List.mem_singleton.mp hs, hevent] at he
      obtain rfl : i.event = e := by simpa using he
      exact hlt
  events_once := by
    rw [List.filterMap_append, List.nodup_append]
    refine ⟨h.events_once, by simp [hevent], ?_⟩
    intro a ha b hb
    obtain ⟨s, hs, hsa⟩ := List.mem_filterMap.mp ha
    have hb' : b = i.event := by simpa [hevent] using hb
    rintro rfl
    exact hfresh s hs (hb' ▸ hsa)
  waits := by
    intro pre w post heq
    rcases append_singleton_eq_append_cons heq with ⟨-, -, hw⟩ | ⟨post', -, heq'⟩
    · rw [← hw] at hevent
      cases hevent
    · exact h.waits pre w post' heq'
  ran := by
    intro j k hj
    rcases List.mem_append.mp hj with hj | hj
    · obtain ⟨s, hs, hrest⟩ := h.ran j k hj
      exact ⟨s, List.mem_append_left _ hs, hrest⟩
    · obtain ⟨rfl, rfl⟩ : j = kid ∧ k = i := by simpa using hj
      exact ⟨step, by simp, hruns, hevent, hstream⟩
  once := by
    intro j hj
    rw [List.countP_append, h.once j hj, List.countP_singleton, List.map_append, List.map_cons,
      List.map_nil]
    by_cases hjk : j = kid
    · subst hjk
      simp [hnew, hruns]
    · have hmem : j ∈ run.map Prod.fst ++ [kid] ↔ j ∈ run.map Prod.fst := by
        rw [List.mem_append, List.mem_singleton]
        tauto
      rw [hother j hj hjk, if_congr hmem rfl rfl]
      simp
  order := by
    intro pre s post heq j hj hs pred hp
    rcases append_singleton_eq_append_cons heq with ⟨-, rfl, rfl⟩ | ⟨post', -, heq'⟩
    · have hjk : j = kid := by
        by_contra hne
        rw [hother j hj hne] at hs
        cases hs
      subst hjk
      obtain ⟨q, hq, rfl⟩ := List.mem_map.mp (hpreds pred hp)
      obtain ⟨s', hs', hr, -⟩ := h.ran q.1 q.2 hq
      exact ⟨s', hs', hr⟩
    · exact h.order pre s post' heq' j hj hs pred hp
  copied := by
    intro v t r hr
    obtain ⟨s, hs, hrest⟩ := h.copied v t r hr
    exact ⟨s, List.mem_append_left _ hs, hrest⟩

/-! ### Complete plans -/

/-- What a complete and ordered plan is. -/
structure Complete (S : Schedule) (steps : List Step) : Prop where
  /-- One step runs each kernel. -/
  once : ∀ kid ∈ S.kernelIds, steps.countP (Step.runs S kid) = 1
  /-- The producers of a kernel's inputs run before it. -/
  order : ∀ pre step post, steps = pre ++ step :: post → ∀ kid ∈ S.kernelIds,
    step.runs S kid = true → ∀ v ∈ (S.kernel kid).presentInputs, ∀ j ∈ S.kernelIds,
    v ∈ (S.kernel j).outputs → ∃ s ∈ pre, s.runs S j = true
  /-- A wait stands for a producer of what a later kernel reads, whose step is before the wait and
  alone records the event. -/
  waits : ∀ pre w post, steps = pre ++ .syncWait w :: post → ∃ kid ∈ S.kernelIds,
    (∃ s ∈ post, s.runs S kid = true) ∧
    (∃ s ∈ pre, s.event? = some w.event ∧ s.Feeds S kid) ∧
    steps.countP (fun s => s.event? == some w.event) = 1

/-- A list of events without duplicates has at most one record of each. -/
theorem countP_event_le_one {e : EventId} (h : (steps.filterMap Step.event?).Nodup) :
    steps.countP (fun s => s.event? == some e) ≤ 1 := by
  have hcount : (steps.filterMap Step.event?).count e =
      steps.countP fun s => s.event? == some e := by
    rw [List.count_filterMap]
  rw [← hcount]
  exact List.nodup_iff_count_le_one.mp h e

/-- A trace in which every kernel ran is complete. -/
theorem Trace.complete (hS : S.WellFormed) (h : Trace S run steps next copies)
    (hall : ∀ kid ∈ S.kernelIds, kid ∈ run.map Prod.fst) : Complete S steps where
  once := by
    intro kid hk
    rw [h.once kid hk, if_pos (hall kid hk)]
  order := by
    intro pre step post heq kid hk hs v hv j hj hjv
    have hlt := hS.ordered kid hk v hv j hj hjv
    have hprod : S.value2producer v = some j := hS.value2producer_eq hj hjv
    have hpred : j ∈ S.kernelPreds kid :=
      Schedule.mem_kernelPreds.mpr ⟨Nat.ne_of_lt hlt, v, hv, hprod⟩
    exact h.order pre step post heq kid hk hs j hpred
  waits := by
    intro pre w post heq
    obtain ⟨kid, hk, hpre, s, hs, hevent, hfeeds⟩ := h.waits pre w post heq
    refine ⟨kid, hk, ?_, ⟨s, hs, hevent, hfeeds⟩, ?_⟩
    · -- the kernel's step is not before the wait, so it is after it
      have hcount := h.once kid hk
      rw [if_pos (hall kid hk), heq, List.countP_append, List.countP_cons,
        List.countP_eq_zero.mpr fun s hs => by simp [hpre s hs]] at hcount
      have hpos : 0 < post.countP (Step.runs S kid) := by
        simp only [Step.runs, Bool.false_eq_true, if_false] at hcount ⊢
        omega
      obtain ⟨s, hs, hr⟩ := List.countP_pos_iff.mp hpos
      exact ⟨s, hs, hr⟩
    · apply Nat.le_antisymm (countP_event_le_one h.events_once)
      apply List.countP_pos_iff.mpr
      exact ⟨s, by simp [heq, hs], by simp [hevent]⟩

/-! ### What the scheduler's steps do to the trace -/

namespace SchedState

variable {env : SchedEnv} {st₀ st₁ st₂ : SchedState} {stream event : Nat} {tier : MemoryTier}
  {inPlace : Option AllocPlace} {ins bs : List ValueBinding} {posts : List PostTransfer}
  {context : ExecutionContext}

/-- The body step runs the kernel and records its event. -/
theorem bodyStep_runs (hS : env.schedule.WellFormed) (hk : kid ∈ env.schedule.kernelIds)
    (hin : InputsBound env tier stream st₀ (env.schedule.kernel kid).presentInputs st₁ ins)
    (hout : OutputsBound env tier stream inPlace st₁ ins (env.schedule.kernel kid).outputs st₂ bs
      posts) (h : bodyStep env.schedule kid context event bs = some step) :
    step.runs env.schedule kid = true ∧ step.event? = some event ∧
      step.stream = context.stream := by
  rcases bodyStep_cases hS hk hin hout h with ⟨-, rfl⟩ | ⟨ht, b, d, hinputs, houtputs, -, -, rfl⟩
  · simp [Step.runs, Step.event?, Step.stream]
  · simp [Step.runs, Step.event?, Step.stream, ht, hinputs, houtputs]

/-- One turn of the input loop extends the trace, away from the event set aside for the kernel. -/
theorem Trace.input (hS : env.schedule.WellFormed) {st st' : SchedState} {v : ValueId}
    {b : ValueBinding} (hk : kid ∈ env.schedule.kernelIds) (hnew : kid ∉ run.map Prod.fst)
    (hv : v ∈ (env.schedule.kernel kid).presentInputs)
    (h : InputCase env tier stream st v st' b)
    (ht : Trace env.schedule run st.steps st.nextEventId st.valueOnTier)
    (hfresh : ∀ s ∈ st.steps, s.event? ≠ some event) (hlt : event < st.nextEventId) :
    Trace env.schedule run st'.steps st'.nextEventId st'.valueOnTier ∧
      (∀ s ∈ st'.steps, s.event? ≠ some event) ∧ event < st'.nextEventId := by
  cases h with
  | initializer => exact ⟨ht, hfresh, hlt⟩
  | workspace => exact ⟨ht, hfresh, hlt⟩
  | direct => exact ⟨ht, hfresh, hlt⟩
  | cached p r a first hinit hdef hplace hcopy hr =>
      refine ⟨?_, ?_, hlt⟩
      · show Trace _ _ (st.steps ++ copyWait tier stream r) _ _
        unfold copyWait
        split
        · refine ht.push _ (Nat.le_refl _) (by simp [Step.event?]) ?_ (by simp [Step.runs])
          rintro w hw
          obtain ⟨s, hs, hev, -, ⟨c, hc⟩, hcp⟩ := ht.copied v tier r hr
          rw [hc] at hcp
          obtain rfl : (⟨⟨tierDevice tier, stream⟩, r.event⟩ : SyncWaitStep) = w := by
            simpa using hw
          exact ⟨kid, hk, hnew, s, hs, hev, Or.inr ⟨v, hv, c, hcp⟩⟩
        · rw [List.append_nil]
          exact ht
      · intro s hs
        rcases List.mem_append.mp hs with hs | hs
        · exact hfresh s hs
        · unfold copyWait at hs
          split at hs
          · rw [List.mem_singleton.mp hs]
            simp [Step.event?]
          · cases hs
  | copied p c a first srcFirst dstFirst hinit hdef hplace hcopy hr =>
      have hpush := ht.push (.transfer
          { src := ⟨v, .input, p, srcFirst⟩
            dst := ⟨v, .output, .chunk c, dstFirst⟩
            context := ⟨tierDevice tier, stream⟩
            recordsEvent := some st.nextEventId }) (Nat.le_succ _)
        (by
          intro e he
          obtain rfl : st.nextEventId = e := by simpa [Step.event?] using he
          refine ⟨Nat.lt_succ_self _, fun s hs hse => ?_⟩
          exact absurd (ht.events_lt s hs _ hse) (Nat.lt_irrefl _))
        (by simp) (fun kid hk => runs_transfer_self hS rfl hk)
      refine ⟨{ hpush with copied := ?_ }, ?_, Nat.lt_succ_of_lt hlt⟩
      · intro w t r hr'
        show ∃ s ∈ st.steps ++ [_], _
        by_cases hwt : w = v ∧ t = tier
        · obtain ⟨rfl, rfl⟩ := hwt
          simp only [Function.update_self, Option.some.injEq] at hr'
          subst hr'
          refine ⟨_, List.mem_append_right _ (List.mem_singleton_self _), rfl, rfl, ⟨c, rfl⟩,
            _, rfl, rfl, rfl, rfl⟩
        · have hold : st.valueOnTier w t = some r := by
            by_cases hw : w = v
            · subst hw
              have htt : t ≠ tier := fun htt => hwt ⟨rfl, htt⟩
              simpa [Function.update_of_ne htt] using hr'
            · simpa [Function.update_of_ne hw] using hr'
          obtain ⟨s, hs, hrest⟩ := ht.copied w t r hold
          exact ⟨s, List.mem_append_left _ hs, hrest⟩
      · intro s hs
        rcases List.mem_append.mp hs with hs | hs
        · exact hfresh s hs
        · rw [List.mem_singleton.mp hs]
          simp only [Step.event?, ne_eq, Option.some.injEq]
          exact Nat.ne_of_gt hlt

/-- The post transfers extend the trace. -/
theorem Trace.postTransfers (hS : env.schedule.WellFormed) (context : ExecutionContext) :
    ∀ (posts : List PostTransfer) (steps : List Step) (next : Nat),
      (∀ pt ∈ posts, pt.src.value = pt.dst.value) →
      Trace env.schedule run steps next copies →
      Trace env.schedule run (steps ++ postSteps context next posts) (next + posts.length)
        copies := by
  intro posts
  induction posts with
  | nil =>
      intro steps next _ h
      simpa [postSteps] using h
  | cons pt posts ih =>
      intro steps next hself h
      have hpush := h.push (.transfer ⟨pt.src, pt.dst, context, some next⟩) (Nat.le_add_right next 1)
        (by
          intro e he
          obtain rfl : next = e := by simpa [Step.event?] using he
          exact ⟨Nat.lt_succ_self _, fun s hs hse =>
            absurd (h.events_lt s hs _ hse) (Nat.lt_irrefl _)⟩)
        (by simp) (fun kid hk => runs_transfer_self hS (hself pt List.mem_cons_self) hk)
      have hrest := ih _ _ (fun q hq => hself q (List.mem_cons_of_mem _ hq)) hpush
      rw [List.append_assoc, Nat.add_assoc, Nat.add_comm 1] at hrest
      exact hrest

/-- The trailing transfers extend the trace. -/
theorem Trace.finals (hS : S.WellFormed) (already : List ValueId) (st : SchedState) :
    ∀ (outputs : List ValueId) (steps : List Step) (next : Nat),
      Trace S run steps next copies →
      Trace S run (steps ++ finalSteps S already st next outputs)
        (next + (finalSteps S already st next outputs).length) copies := by
  intro outputs
  induction outputs with
  | nil =>
      intro steps next h
      simpa [finalSteps] using h
  | cons v outputs ih =>
      intro steps next h
      cases hund : undelivered already st v with
      | none =>
          simp only [finalSteps, hund]
          exact ih steps next h
      | some p =>
          simp only [finalSteps, hund]
          have hpush := h.push (.transfer
              { src := ⟨v, .input, p, false⟩
                dst := ⟨v, .output, .output v, false⟩
                context := finalContext S st v
                recordsEvent := some next }) (Nat.le_add_right next 1)
            (by
              intro e he
              obtain rfl : next = e := by simpa [Step.event?] using he
              exact ⟨Nat.lt_succ_self _, fun s hs hse =>
                absurd (h.events_lt s hs _ hse) (Nat.lt_irrefl _)⟩)
            (by simp) (fun kid hk => runs_transfer_self hS rfl hk)
          have hrest := ih _ _ hpush
          rw [List.append_assoc, Nat.add_assoc, Nat.add_comm 1] at hrest
          exact hrest

end SchedState

namespace MemoryAware

open SchedState

variable {env : SchedEnv} {st : SchedState} {stream : Nat} {leak : Nat → Nat}
  {numStreams : Nat} {placement : KernelId → Device} {s : Scheduler}

/-- The waits of a kernel name the events of its predecessors on other streams. -/
theorem mem_waits (hp : Planned env st)
    (hready : Ready env st kid) : step ∈ waits env st kid stream ↔
      ∃ pred ∈ env.schedule.kernelPreds kid, ∃ i, (pred, i) ∈ st.kernelInfo ∧ i.stream ≠ stream ∧
        step = .syncWait ⟨⟨env.placement kid, stream⟩, i.event⟩ := by
  have hinfo : ∀ pred, st.Scheduled pred →
      (entered env st kid stream).info? pred = st.info? pred := by
    intro pred hsched
    obtain ⟨i, hi⟩ := hsched.info?
    rw [hi]
    simp only [SchedState.info?, entered_kernelInfo, List.lookup_append]
    rw [show st.kernelInfo.lookup pred = some i from hi]
    rfl
  simp only [waits, List.mem_flatMap]
  constructor
  · rintro ⟨pred, hpred, hmem⟩
    obtain ⟨i, hi⟩ := (hready.preds pred hpred).info?
    simp only [predWait, hinfo pred (hready.preds pred hpred), hi] at hmem
    split at hmem
    · rename_i hne
      exact ⟨pred, hpred, i, info?_mem hi, hne, List.mem_singleton.mp hmem⟩
    · cases hmem
  · rintro ⟨pred, hpred, i, hi, hne, rfl⟩
    refine ⟨pred, hpred, ?_⟩
    have hi' : st.info? pred = some i := by
      obtain ⟨j, hj⟩ := (hready.preds pred hpred).info?
      have hmem := info?_mem hj
      have hnd := hp.nodup
      have : j = i := by
        have := List.inj_on_of_nodup_map hnd hmem hi rfl
        simpa using this
      rw [hj, this]
    simp [predWait, hinfo pred (hready.preds pred hpred), hi', hne]

/-- One kernel extends the trace by its own run. -/
theorem emission_trace (hS : env.schedule.WellFormed) (hp : Planned env st)
    (hl : Ledger env.numStreams (st.slots env.schedule) (pendOf []) leak none st)
    (hready : Ready env st kid) (hpick : pickStream env st kid = some stream)
    (hs : stream < env.numStreams)
    (ht : Trace env.schedule st.kernelInfo st.steps st.nextEventId st.valueOnTier) :
    ∃ e : Emission, e.Of env st kid stream leak ∧
      Trace env.schedule (e.final ⟨env.placement kid, stream⟩).kernelInfo
        (e.final ⟨env.placement kid, stream⟩).steps
        (e.final ⟨env.placement kid, stream⟩).nextEventId
        (e.final ⟨env.placement kid, stream⟩).valueOnTier := by
  -- the waits name events of steps that ran
  have hwaits : ∀ s ∈ waits env st kid stream, ∃ w, s = .syncWait w ∧
      ∃ step ∈ st.steps, step.event? = some w.event ∧ step.Feeds env.schedule kid := by
    intro s hs
    obtain ⟨pred, hpred, i, hi, -, rfl⟩ := (mem_waits hp hready).mp hs
    obtain ⟨step, hstep, hruns, hevent, -⟩ := ht.ran pred i hi
    exact ⟨_, rfl, step, hstep, hevent, Or.inl ⟨pred, hpred, hruns⟩⟩
  have hfresh : ∀ s ∈ (entered env st kid stream).steps, s.event? ≠ some st.nextEventId := by
    intro s hs he
    rcases List.mem_append.mp hs with hs | hs
    · exact Nat.lt_irrefl _ (ht.events_lt s hs _ he)
    · obtain ⟨w, rfl, -⟩ := hwaits s hs
      cases he
  have ht₀ : Trace env.schedule st.kernelInfo (entered env st kid stream).steps
      (entered env st kid stream).nextEventId (entered env st kid stream).valueOnTier :=
    (ht.pushWaits hready.mem hready.unscheduled hwaits).mono (Nat.le_add_right _ 1)
  obtain ⟨e, he, ⟨htrace, hunused, hlt⟩, -⟩ := emitKernel_induct hS hp hl hready hpick hs
    (P := fun _ _ st₁ _ =>
      Trace env.schedule st.kernelInfo st₁.steps st₁.nextEventId st₁.valueOnTier ∧
        (∀ s ∈ st₁.steps, s.event? ≠ some st.nextEventId) ∧ st.nextEventId < st₁.nextEventId)
    (Q := fun _ _ _ _ _ _ => True)
    ⟨ht₀, hfresh, Nat.lt_succ_self _⟩
    (fun _ _ _ _ _ _ _ _ hv _ hcase _ _ _ hP =>
      Trace.input hS hready.mem hready.unscheduled hv hcase hP.1 hP.2.1 hP.2.2)
    (by intros; trivial) (by intros; trivial)
  refine ⟨e, he, ?_⟩
  obtain ⟨hruns, hevent, hstream⟩ :=
    bodyStep_runs hS hready.mem he.inputsBound he.outputsBound he.body
  have hbody := htrace.pushBody
    (i := ⟨st.kernelInfo.length, stream, st.nextEventId, env.placement kid⟩) hevent hlt hunused
    hstream hruns
    (by
      intro j hj hne
      cases h : e.step.runs env.schedule j with
      | false => rfl
      | true => exact absurd (runs_unique hS hj hready.mem h hruns) hne)
    hready.unscheduled hready.preds
  have hself : ∀ pt ∈ e.posts, pt.src.value = pt.dst.value := by
    intro pt hpt
    obtain ⟨o, -, p, t, -, -, -, rfl⟩ := he.outputsBound.pending pt hpt
    rfl
  have hall := Trace.postTransfers hS ⟨env.placement kid, stream⟩ e.posts _ _ hself hbody
  rw [he.kernelInfo]
  show Trace _ _ (e.placed.steps ++ e.step :: postSteps _ e.placed.nextEventId e.posts)
    (e.placed.nextEventId + e.posts.length) e.placed.valueOnTier
  rw [he.outputsBound.steps, he.outputsBound.events, he.outputsBound.copies]
  rw [List.append_assoc] at hall
  exact hall

/-! ### The whole plan -/

/-- The trace holds in every reachable state. -/
theorem Reachable.trace {S : Schedule} (hS : S.WellFormed) (h : Reachable S numStreams placement s) :
    Trace S s.kernelInfo s.steps s.nextEventId s.valueOnTier := by
  obtain ⟨-, -, -, -, ht⟩ := h.induct hS (C := fun _ _ => True) (fun _ _ _ _ => trivial)
    (I := fun st _ => Trace S st.kernelInfo st.steps st.nextEventId st.valueOnTier) Trace.nil
    (fun st kid stream leak hp hl hready hpick hs _ ht =>
      emission_trace hS hp hl hready hpick hs ht)
  exact ht

/-- Every kernel runs in one step, after its producers, and every wait is for an earlier step that
alone records the event; the run always ends with a plan. -/
theorem plan_complete {S : Schedule} (hS : S.WellFormed) (numStreams : Nat)
    (placement : KernelId → Device) :
    ∃ plan, build S numStreams placement = some plan ∧ Complete S plan.steps := by
  obtain ⟨s, hs, hall, hbuild⟩ := build_spec hS numStreams placement
  exact ⟨_, hbuild, (Trace.finals hS _ _ S.outputs _ _ (hs.trace hS)).complete hS hall⟩

/-- An input that a `Transfer` kernel moves to the device. -/
def transferOfInput : Schedule where
  inputs := [0]
  outputs := [1]
  initializers := []
  sessionStates := []
  kernels := [.unary (.transfer .hostToDevice) 0 1]
  valueType := fun _ => .new (.float .F32) [4]

theorem transferOfInput_wellFormed : transferOfInput.WellFormed := by decide

/-- The run of a `Transfer` kernel has no `Kernel` step: its step is a transfer. -/
theorem transferOfInput_no_kernel_step : transferOfInput.WellFormed ∧ ∃ plan,
    build transferOfInput 1 (fun _ => .CUDA) = some plan ∧
      plan.steps.countP (fun s => match s with
        | .kernel k => k.kernel == 0
        | _ => false) = 0 :=
  ⟨transferOfInput_wellFormed, _, rfl, by decide⟩

theorem transferOfInput_complete : ∃ plan,
    build transferOfInput 1 (fun _ => .CUDA) = some plan ∧ Complete transferOfInput plan.steps :=
  plan_complete transferOfInput_wellFormed 1 _

end MemoryAware

end NnEngine
