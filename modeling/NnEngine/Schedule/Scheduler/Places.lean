import NnEngine.Schedule.Scheduler.Arena

/-!
# The places of a plan

Every place that a step binds exists: a chunk that the plan lists, or a buffer of the schedule.
-/

namespace NnEngine

/-- The plan has the place. -/
def ExecutionPlan.HasPlace (S : Schedule) (plan : ExecutionPlan) : AllocPlace → Prop
  | .chunk c => ∃ info ∈ plan.chunks, info.id = c
  | .sessionState v => v ∈ S.sessionStates
  | .initializer v => v ∈ S.initializers
  | .input v => v ∈ S.inputs
  | .output v => v ∈ S.outputs

namespace SchedState

/-- The allocator's chunks and the schedule's buffers. -/
def Known (S : Schedule) (a : ChunkAllocator) : AllocPlace → Prop
  | .chunk c => c < a.allChunks.length
  | .sessionState v => v ∈ S.sessionStates
  | .initializer v => v ∈ S.initializers
  | .input v => v ∈ S.inputs
  | .output v => v ∈ S.outputs

variable {S : Schedule} {env : SchedEnv} {st st' : SchedState} {a a' : ChunkAllocator}
  {tier : MemoryTier} {v : ValueId} {p : AllocPlace} {stream : Nat} {freed : Nat → Prop}

theorem Known.mono (h : Known S a p) (hev : a.Evolves stream freed a') : Known S a' p := by
  cases p with
  | chunk c => exact Nat.lt_of_lt_of_le h hev.length
  | sessionState w => exact h
  | initializer w => exact h
  | input w => exact h
  | output w => exact h

theorem known_sourcePlace (h : S.sourcePlace v = some p) : Known S a p := by
  unfold Schedule.sourcePlace at h
  split at h
  · rename_i hmem
    rw [← Option.some.inj h]
    simpa [Known] using hmem
  · split at h
    · rename_i hmem
      rw [← Option.some.inj h]
      simpa [Known] using hmem
    · split at h
      · rename_i hmem
        rw [← Option.some.inj h]
        simpa [Known] using hmem
      · cases h

def BindingsKnown (S : Schedule) (a : ChunkAllocator) (bs : List ValueBinding) : Prop :=
  ∀ b ∈ bs, Known S a b.place

theorem BindingsKnown.mono {bs : List ValueBinding} (h : BindingsKnown S a bs)
    (hev : a.Evolves stream freed a') : BindingsKnown S a' bs :=
  fun b hb => (h b hb).mono hev

theorem BindingsKnown.concat {bs : List ValueBinding} {b : ValueBinding} (h : BindingsKnown S a bs)
    (hb : Known S a b.place) : BindingsKnown S a (bs ++ [b]) := by
  intro x hx
  rcases List.mem_append.mp hx with hx | hx
  · exact h x hx
  · rw [List.mem_singleton.mp hx]
    exact hb

/-- The places of the values, of their copies and of the steps' bindings. -/
structure Placed (S : Schedule) (st : SchedState) : Prop where
  places : ∀ v p, st.value2place v = some p → Known S st.allocator p
  copies : ∀ v t r, st.valueOnTier v t = some r → Known S st.allocator r.place
  steps : ∀ step ∈ st.steps, BindingsKnown S st.allocator step.bindings

/-- The places stay known when the allocator only grows and the new entries are known. -/
theorem Placed.grow (h : Placed S st) (hev : st.allocator.Evolves stream freed st'.allocator)
    (hplaces : ∀ v p, st'.value2place v = some p →
      st.value2place v = some p ∨ Known S st'.allocator p)
    (hcopies : ∀ v t r, st'.valueOnTier v t = some r →
      st.valueOnTier v t = some r ∨ Known S st'.allocator r.place)
    (hsteps : ∀ step ∈ st'.steps, step ∈ st.steps ∨
      BindingsKnown S st'.allocator step.bindings) : Placed S st' where
  places := fun v p hp => (hplaces v p hp).elim (fun h' => (h.places v p h').mono hev) id
  copies := fun v t r hr => (hcopies v t r hr).elim (fun h' => (h.copies v t r h').mono hev) id
  steps := fun step hs => (hsteps step hs).elim (fun h' => (h.steps step h').mono hev) id

/-- Placing a value at a known place. -/
theorem known_update {w : ValueId} {q : AllocPlace} (hp : Known S a p)
    (h : Function.update st.value2place v (some p) w = some q) :
    st.value2place w = some q ∨ Known S a q := by
  by_cases hw : w = v
  · subst hw
    obtain rfl : p = q := by simpa using h
    exact Or.inr hp
  · exact Or.inl (by simpa [Function.update_of_ne hw] using h)

/-- One turn of the input loop. -/
theorem InputCase.placed {b : ValueBinding} {bs : List ValueBinding}
    (h : InputCase env tier stream st v st' b) (hst : Placed env.schedule st)
    (hbs : BindingsKnown env.schedule st.allocator bs) :
    Placed env.schedule st' ∧ BindingsKnown env.schedule st'.allocator (bs ++ [b]) := by
  cases h with
  | initializer hinit => exact ⟨hst, hbs.concat hinit⟩
  | workspace c a first hscratch hzero hsource hev hsize hlt =>
      exact ⟨hst.grow hev (fun w q hq => known_update (p := .chunk c) hlt hq)
        (fun _ _ _ hr => Or.inl hr) fun _ hs => Or.inl hs, (hbs.mono hev).concat hlt⟩
  | direct p a first hinit hdef hplace hno hev =>
      exact ⟨hst.grow hev (fun _ _ hq => Or.inl hq) (fun _ _ _ hr => Or.inl hr)
        fun _ hs => Or.inl hs, (hbs.mono hev).concat ((hst.places v p hplace).mono hev)⟩
  | cached p r a first hinit hdef hplace hneeds hr hchunk hev =>
      refine ⟨hst.grow hev (fun _ _ hq => Or.inl hq) (fun _ _ _ hr => Or.inl hr) ?_,
        (hbs.mono hev).concat ((hst.copies v tier r hr).mono hev)⟩
      intro s hs
      refine (List.mem_append.mp hs).imp_right fun hs => ?_
      unfold copyWait at hs
      split at hs
      · rw [List.mem_singleton.mp hs]
        simp [BindingsKnown, Step.bindings]
      · cases hs
  | copied p c a first srcFirst dstFirst hinit hdef hplace hneeds hr hzero hsource hev hsize hlt =>
      refine ⟨hst.grow hev (fun _ _ hq => Or.inl hq) ?_ ?_, (hbs.mono hev).concat hlt⟩
      · intro w t r' hr'
        by_cases hw : w = v
        · subst hw
          by_cases ht : t = tier
          · subst ht
            simp only [Function.update_self, Option.some.injEq] at hr'
            rw [← hr']
            exact Or.inr hlt
          · simp only [Function.update_self, Function.update_of_ne ht] at hr'
            exact Or.inl hr'
        · simp only [Function.update_of_ne hw] at hr'
          exact Or.inl hr'
      · intro s hs
        refine (List.mem_append.mp hs).imp_right fun hs => ?_
        rw [List.mem_singleton.mp hs]
        intro x hx
        simp only [Step.bindings, List.mem_cons, List.not_mem_nil, or_false] at hx
        rcases hx with rfl | rfl
        · exact (hst.places v p hplace).mono hev
        · exact hlt

/-- One turn of the output loop. -/
theorem OutputCase.known {inPlace : Option AllocPlace} {o : ValueId}
    (h : OutputCase env tier stream inPlace st o p a) (hS : env.schedule.WellFormed)
    (hin : ∀ q, inPlace = some q → Known env.schedule st.allocator q) :
    (∃ freed, st.allocator.Evolves stream freed a) ∧ Known env.schedule a p := by
  cases h with
  | inPlace _ _ hsome hev => exact ⟨⟨_, hev⟩, (hin p hsome).mono hev⟩
  | aliased t hnone halias hhost =>
      let I : Interp env.schedule Unit :=
        { source := fun _ => (), out := fun _ _ _ => (), scratch := fun _ _ _ => (),
          copies := fun _ _ _ => rfl }
      exact ⟨⟨_, .refl stream _⟩, ((hS.outputAliases_spec I).1 o t halias).1⟩
  | fresh c _ hnone hno hzero hsource hev hsize hlt => exact ⟨⟨_, hev⟩, hlt⟩

end SchedState

namespace MemoryAware

open SchedState

variable {S : Schedule} {numStreams : Nat} {placement : KernelId → Device} {s : Scheduler}
  {env : SchedEnv} {st : SchedState} {kid stream : Nat} {leak : Nat → Nat}

/-- What the output loop keeps. -/
structure OutputsKnown (S : Schedule) (inPlace : Option AllocPlace) (st : SchedState)
    (bs : List ValueBinding) : Prop where
  placed : Placed S st
  bound : BindingsKnown S st.allocator bs
  taken : ∀ q, inPlace = some q → Known S st.allocator q

/-- One kernel binds known places. -/
theorem emission_placed (hS : env.schedule.WellFormed) (hp : Planned env st)
    (hl : Ledger env.numStreams (st.slots env.schedule) (pendOf []) leak none st)
    (hready : Ready env st kid) (hpick : pickStream env st kid = some stream)
    (hs : stream < env.numStreams) (hplaced : Placed env.schedule st) :
    ∃ e : Emission, e.Of env st kid stream leak ∧
      Placed env.schedule (e.final ⟨env.placement kid, stream⟩) ∧
      BindingsKnown env.schedule e.allocator e.bindings := by
  have hstart : Placed env.schedule (entered env st kid stream) :=
    hplaced.grow (.refl stream _) (fun _ _ h => Or.inl h)
      (fun _ _ _ h => Or.inl h)
      (fun step hstep => (List.mem_append.mp hstep).imp_right fun hwait => by
        obtain ⟨event, rfl⟩ := eq_syncWait_of_mem_waits hwait
        simp [BindingsKnown, Step.bindings])
  obtain ⟨e, he, -, hout⟩ := emitKernel_induct hS hp hl hready hpick hs
    (P := fun _ _ st₁ bs => Placed env.schedule st₁ ∧ BindingsKnown env.schedule st₁.allocator bs)
    (Q := fun _ inPlace _ st₂ bs _ => OutputsKnown env.schedule inPlace st₂ bs)
    ⟨hstart, by simp [BindingsKnown]⟩
    (fun leak₁ leak₂ done st₁ st₁' bs v b hv hled hcase hled' hor hbound hfit =>
      hcase.placed hfit.1 hfit.2)
    (fun leak' inPlace st₁ bs hled hbound hsource hfit =>
      { placed := hfit.1, bound := hfit.2, taken := by
          rintro q rfl
          obtain ⟨-, b, hb, rfl, -⟩ := hsource.binding hS hready.mem hbound
          exact hfit.2 b hb })
    (fun leak' inPlace st₁ ins done st₂ bs posts o p a first hpre hodone hled hnone hcase hb
        hsource hbound hfit => by
      obtain ⟨⟨freed, hev⟩, hknown⟩ := hcase.known hS hfit.taken
      exact
        { placed := hfit.placed.grow hev (fun w q hq => known_update hknown hq)
            (fun _ _ _ hr => Or.inl hr) fun _ hs => Or.inl hs,
          bound := (hfit.bound.mono hev).concat hknown,
          taken := fun q hq => (hfit.taken q hq).mono hev })
  have hbound : BindingsKnown env.schedule e.allocator e.bindings := hout.bound.mono he.evolves
  refine ⟨e, he, hout.placed.grow he.evolves (fun _ _ h => Or.inl h) (fun _ _ _ h => Or.inl h)
    fun step hstep => ?_, hbound⟩
  have hmem : step ∈ e.placed.steps ++
      e.step :: postSteps ⟨env.placement kid, stream⟩ e.placed.nextEventId e.posts := hstep
  simp only [List.mem_append, List.mem_cons] at hmem
  rcases hmem with hold | rfl | hpost
  · exact Or.inl hold
  · right
    rcases bodyStep_cases hS hready.mem he.inputsBound he.outputsBound he.body with
      ⟨-, hstep⟩ | ⟨-, b, d, -, -, -, hbs, hstep⟩
    · rw [hstep]
      exact hbound
    · rw [hstep]
      rw [hbs] at hbound
      exact hbound
  · right
    obtain ⟨pt, hpt, event, rfl⟩ := mem_postSteps hpost
    obtain ⟨o, -, p, t, hplace, -, halias, rfl⟩ := he.outputsBound.pending pt hpt
    intro b hb
    simp only [Step.bindings, List.mem_cons, List.not_mem_nil, or_false] at hb
    rcases hb with rfl | rfl
    · exact (hout.placed.places o p hplace).mono he.evolves
    · let I : Interp env.schedule Unit :=
        { source := fun _ => (), out := fun _ _ _ => (), scratch := fun _ _ _ => (),
          copies := fun _ _ _ => rfl }
      exact ((hS.outputAliases_spec I).1 o t halias).1

theorem Reachable.placed (hS : S.WellFormed) (h : Reachable S numStreams placement s) :
    Placed S s.toSchedState := by
  obtain ⟨-, -, -, -, hplaced⟩ := h.induct hS (C := fun _ _ => True) (fun _ _ _ _ => trivial)
    (I := fun st _ => Placed S st)
    { places := fun v p hp => known_sourcePlace hp, copies := fun v t r hr => (by cases hr),
      steps := fun step hstep => (by cases hstep) }
    (fun st kid stream leak hp hl hready hpick hs _ hplaced =>
      (emission_placed hS hp hl hready hpick hs hplaced).imp fun e he => ⟨he.1, he.2.1⟩)
  exact hplaced

/-- Every place that a step of the plan binds is in the plan. -/
theorem Reachable.hasPlace (hS : S.WellFormed) (h : Reachable S numStreams placement s)
    {already : List ValueId} {n next ns : Nat} {step : Step}
    (hstep : step ∈ s.steps ++ finalSteps S already s.toSchedState n S.outputs) {b : ValueBinding}
    (hb : b ∈ step.bindings) :
    (intoPlan ns { s.toSchedState with
      nextEventId := next
      steps := s.steps ++ finalSteps S already s.toSchedState n S.outputs }).HasPlace S b.place := by
  have hplaced := h.placed hS
  have hknown : Known S s.allocator b.place := by
    rcases List.mem_append.mp hstep with hold | hfin
    · exact hplaced.steps step hold b hb
    · obtain ⟨v, hv, p, event, hund, -, -, rfl⟩ := mem_finalSteps hfin
      simp only [Step.bindings, List.mem_cons, List.not_mem_nil, or_false] at hb
      rcases hb with rfl | rfl
      · unfold undelivered at hund
        split at hund
        · cases hund
        · exact hplaced.places v p (Option.filter_eq_some_iff.mp hund).1
      · exact hv
  cases hp : b.place with
  | chunk c =>
      rw [hp] at hknown
      obtain ⟨-, -, leak, hl⟩ := h.good hS
      obtain ⟨info, hinfo, hid, -⟩ := intoPlan_mem ns hl.inv (c := c) hknown
      exact ⟨info, hinfo, hid⟩
  | sessionState w => rw [hp] at hknown; exact hknown
  | initializer w => rw [hp] at hknown; exact hknown
  | input w => rw [hp] at hknown; exact hknown
  | output w => rw [hp] at hknown; exact hknown

end MemoryAware
end NnEngine
