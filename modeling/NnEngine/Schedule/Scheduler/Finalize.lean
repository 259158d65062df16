import NnEngine.Schedule.Scheduler.Reachable

/-!
# What is left to `finalize_outputs`

A graph output that a kernel produces is in some output buffer, or a post transfer has carried it to
one, by the end of its kernel.  So `finalize_outputs` copies exactly the outputs that are sources.
-/

namespace NnEngine

open SchedState

variable {S : Schedule} {numStreams : Nat} {placement : KernelId → Device} {s : Scheduler}
  {env : SchedEnv} {st : SchedState} {kid stream : Nat} {leak : Nat → Nat} {v : ValueId}
  {p : AllocPlace}

theorem mem_deliveredValues {steps : List Step} : v ∈ deliveredValues steps ↔
    ∃ t, Step.transfer t ∈ steps ∧ isOutputPlace t.dst.place = true ∧ t.dst.value = v := by
  unfold deliveredValues
  rw [List.mem_filterMap]
  constructor
  · rintro ⟨step, hmem, hstep⟩
    cases step with
    | kernel k => cases hstep
    | syncWait w => cases hstep
    | transfer t =>
        dsimp only at hstep
        split at hstep
        · rename_i hout
          exact ⟨t, hmem, hout, by simpa using hstep⟩
        · cases hstep
  · rintro ⟨t, hmem, hout, rfl⟩
    exact ⟨_, hmem, by simp [hout]⟩

/-- Each post transfer has its step. -/
theorem mem_postSteps {context : ExecutionContext} {posts : List PostTransfer} {step : Step} :
    ∀ {n : Nat}, step ∈ postSteps context n posts →
      ∃ pt ∈ posts, ∃ event, step = .transfer ⟨pt.src, pt.dst, context, some event⟩ := by
  induction posts with
  | nil => intro n h; cases h
  | cons pt posts ih =>
      intro n h
      rcases List.mem_cons.mp h with rfl | h
      · exact ⟨pt, List.mem_cons_self, n, rfl⟩
      · obtain ⟨q, hq, event, rfl⟩ := ih h
        exact ⟨q, List.mem_cons_of_mem _ hq, event, rfl⟩

theorem postSteps_mem (context : ExecutionContext) {posts : List PostTransfer} {pt : PostTransfer}
    (h : pt ∈ posts) : ∀ n, ∃ event,
      Step.transfer ⟨pt.src, pt.dst, context, some event⟩ ∈ postSteps context n posts := by
  induction posts with
  | nil => cases h
  | cons q posts ih =>
      intro n
      rcases List.mem_cons.mp h with rfl | h
      · exact ⟨n, List.mem_cons_self⟩
      · obtain ⟨event, hmem⟩ := ih h (n + 1)
        exact ⟨event, List.mem_cons_of_mem _ hmem⟩

namespace MemoryAware

/-- The steps of a kernel come after the steps before it. -/
theorem Emission.Of.steps {e : Emission} (h : e.Of env st kid stream leak) : ∃ l,
    (e.final ⟨env.placement kid, stream⟩).steps = st.steps ++ (waits env st kid stream ++
      (l ++ e.step :: postSteps ⟨env.placement kid, stream⟩ e.placed.nextEventId e.posts)) ∧
    e.placed.steps = st.steps ++ (waits env st kid stream ++ l) ∧
    ∀ s ∈ l, s.stream = stream ∧ ((∃ w, s = .syncWait w) ∨ ∃ v c, s.IsCopy v (.chunk c)) := by
  obtain ⟨l, hl, hmem⟩ := h.inputsBound.steps
  have hplaced : e.placed.steps = st.steps ++ (waits env st kid stream ++ l) := by
    rw [h.outputsBound.steps, hl, entered_steps, List.append_assoc]
  refine ⟨l, ?_, hplaced, hmem⟩
  show e.placed.steps ++ _ = _
  rw [hplaced]
  simp

/-- The steps that a kernel adds: waits, copies of its inputs, its own step and its post
transfers. -/
theorem Emission.Of.mem_steps {e : Emission} (h : e.Of env st kid stream leak) {step : Step}
    (hstep : step ∈ (e.final ⟨env.placement kid, stream⟩).steps) : step ∈ st.steps ∨
      (∃ w, step = .syncWait w) ∨ (∃ v c, step.IsCopy v (.chunk c)) ∨ step = e.step ∨
      ∃ pt ∈ e.posts, ∃ event,
        step = .transfer ⟨pt.src, pt.dst, ⟨env.placement kid, stream⟩, some event⟩ := by
  obtain ⟨l, hsteps, -, hl⟩ := h.steps
  rw [hsteps] at hstep
  simp only [List.mem_append, List.mem_cons] at hstep
  rcases hstep with hold | hwait | hin | rfl | hpost
  · exact Or.inl hold
  · obtain ⟨event, rfl⟩ := eq_syncWait_of_mem_waits hwait
    exact Or.inr (Or.inl ⟨_, rfl⟩)
  · exact Or.inr ((hl _ hin).2.imp_right Or.inl)
  · exact Or.inr (Or.inr (Or.inr (Or.inl rfl)))
  · exact Or.inr (Or.inr (Or.inr (Or.inr (mem_postSteps hpost))))

/-- Two passes from one state end in one state. -/
theorem Emission.Of.final_eq {e e' : Emission} {leak' : Nat → Nat}
    (h : e.Of env st kid stream leak) (h' : e'.Of env st kid stream leak') :
    e.final ⟨env.placement kid, stream⟩ = e'.final ⟨env.placement kid, stream⟩ := by
  have := h.eq.symm.trans h'.eq
  simpa using this

/-- The steps of a run are the first steps of its end. -/
theorem Reachable.steps_subset_end (hS : S.WellFormed) {s' : Scheduler}
    (h : Reachable S numStreams placement s) (h' : Reachable S numStreams placement s')
    (hall : ∀ kid ∈ S.kernelIds, s'.Scheduled kid) : ∀ step ∈ s.steps, step ∈ s'.steps := by
  obtain ⟨s₂, -, hs₂, hall₂, hsub⟩ := runLoop_complete hS
    (R := fun a b => ∀ step ∈ a.steps, step ∈ b.steps) (fun _ _ h => h)
    (fun _ _ _ hab hbc step h => hbc step (hab step h))
    (fun st kid stream leak e he step hstep => by
      obtain ⟨l, hsteps, -⟩ := he.steps
      have hmem : step ∈ (e.final ⟨(MemoryAware.env S numStreams placement).placement kid,
          stream⟩).steps := by
        rw [hsteps]
        exact List.mem_append_left _ hstep
      exact hmem)
    ((s.toSchedState.unscheduled S).length + 1) s h (Nat.lt_succ_self _)
  rw [h'.end_unique hS hs₂ hall hall₂]
  exact hsub

/-- Every produced alias of a caller's buffer is in a buffer, or has been copied to one. -/
def Delivered (S : Schedule) (st : SchedState) : Prop :=
  ∀ kid ∈ S.kernelIds, st.Scheduled kid → ∀ o ∈ (S.kernel kid).outputs,
    (S.outputAliases o).isSome = true → ∀ p, st.value2place o = some p →
    isOutputPlace p = true ∨ o ∈ deliveredValues st.steps

theorem Emission.Of.delivered {e : Emission} (h : e.Of env st kid stream leak)
    (hS : env.schedule.WellFormed) (hready : Ready env st kid)
    (hd : Delivered env.schedule st) :
    Delivered env.schedule (e.final ⟨env.placement kid, stream⟩) := by
  intro j hj hsched o ho halias p hplace
  obtain ⟨l, hsteps, -, -⟩ := h.steps
  by_cases hjk : j = kid
  · subst hjk
    obtain ⟨t, ht⟩ := Option.isSome_iff_exists.mp halias
    rcases h.outputsBound.delivered o ho p t hplace ht with hp | hpost
    · exact Or.inl hp
    · obtain ⟨event, hmem⟩ := postSteps_mem ⟨env.placement j, stream⟩ hpost e.placed.nextEventId
      have hstep : Step.transfer ⟨⟨o, .input, p, false⟩, ⟨o, .output, .output t, false⟩,
          ⟨env.placement j, stream⟩, some event⟩ ∈ (e.final ⟨env.placement j, stream⟩).steps :=
        List.mem_append_right _ (List.mem_cons_of_mem _ hmem)
      exact Or.inr (mem_deliveredValues.mpr ⟨_, hstep, rfl, rfl⟩)
  · have hold : st.Scheduled j := (h.scheduled.mp hsched).resolve_right hjk
    have hnot : o ∉ (env.schedule.kernel kid).outputs := fun hout =>
      hjk (hS.produced_once j hj kid hready.mem o ho hout)
    rw [h.value2place (Or.inl (isScratch_output hj ho)) hnot] at hplace
    refine (hd j hj hold o ho halias p hplace).imp_right fun hmem => ?_
    obtain ⟨t, ht, hrest⟩ := mem_deliveredValues.mp hmem
    refine mem_deliveredValues.mpr ⟨t, ?_, hrest⟩
    rw [hsteps]
    exact List.mem_append_left _ ht

theorem Reachable.delivered (hS : S.WellFormed) (h : Reachable S numStreams placement s) :
    Delivered S s.toSchedState := by
  obtain ⟨-, -, -, -, hd⟩ := h.induct hS (C := fun _ _ => True) (fun _ _ _ _ => trivial)
    (I := fun st _ => Delivered S st) (fun _ _ hsched => by cases hsched)
    (fun st kid stream leak hp hl hready hpick hs _ hd =>
      (emission_exists hS hp hl hready hpick hs).imp fun e he =>
        ⟨he, he.delivered hS hready hd⟩)
  exact hd

/-- What `finalize_outputs` copies is a source, from the source's own place. -/
theorem Reachable.undelivered_source (hS : S.WellFormed) (h : Reachable S numStreams placement s)
    (hall : ∀ kid ∈ S.kernelIds, s.Scheduled kid) (hv : v ∈ S.outputs)
    (hund : undelivered (deliveredValues s.steps) s.toSchedState v = some p) :
    S.sourcePlace v = some p := by
  obtain ⟨hp, -, -⟩ := h.good hS
  unfold undelivered at hund
  split at hund
  · cases hund
  · rename_i hnot
    obtain ⟨hplace, hout⟩ := Option.filter_eq_some_iff.mp hund
    rcases Schedule.defined_cases (hS.outputs_defined v hv) with hsource | ⟨i, hi⟩
    · obtain ⟨q, hq⟩ := Option.isSome_iff_exists.mp hsource
      rw [hp.source v q hq] at hplace
      rw [hq, hplace]
    · obtain ⟨hi, hvi⟩ := Schedule.value2producer_some hi
      have halias : (S.outputAliases v).isSome = true := by
        let I : Interp S Unit :=
          { source := fun _ => (), out := fun _ _ _ => (), scratch := fun _ _ _ => (),
            copies := fun _ _ _ => rfl }
        exact (hS.outputAliases_spec I).2 v hv
      rcases h.delivered hS i hi (hall i hi) v hvi halias p hplace with hp | hmem
      · simp [hp] at hout
      · exact absurd (by simpa using hmem) hnot

/-- A source that the caller gets back is left to `finalize_outputs`. -/
theorem Reachable.source_undelivered (hS : S.WellFormed) (h : Reachable S numStreams placement s)
    (hsource : S.sourcePlace v = some p) (hdel : v ∉ deliveredValues s.steps) :
    undelivered (deliveredValues s.steps) s.toSchedState v = some p := by
  obtain ⟨hp, -, -⟩ := h.good hS
  have hout : isOutputPlace p = false := by
    cases p with
    | output w => exact absurd rfl (Schedule.sourcePlace_not_output hsource w)
    | _ => rfl
  simp [undelivered, hdel, hp.source v p hsource, hout]

end MemoryAware
end NnEngine
