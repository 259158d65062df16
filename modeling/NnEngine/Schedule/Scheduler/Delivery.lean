import NnEngine.Schedule.Scheduler.Integrity

/-!
# Delivery of the graph outputs

`outputAliases` binds a produced output, and the values it is an alias of, to the caller's buffer,
and `finalize_outputs` skips what is in a buffer.  With two outputs at the ends of one value's
`Identity` and `Reinterpret` kernels, both ends can sit in the buffer of one of them, and then the
buffer of the other is never written.  `outputs_delivered_iff` says when every buffer is.
-/

namespace NnEngine
namespace MemoryAware

open SchedState

variable {S : Schedule} {numStreams : Nat} {placement : KernelId → Device} {s : Scheduler}
  {env : SchedEnv} {st : SchedState} {kid stream : Nat} {leak : Nat → Nat} {v w t : ValueId}
  {p : AllocPlace} {α : Type*}

/-! ### The values in a caller's buffer -/

/-- The values that the kernel leaves in a caller's buffer were there, or are delivered to it, or
take it over. -/
theorem emission_buffers (hS : env.schedule.WellFormed) (hp : Planned env st)
    (hl : Ledger env.numStreams (st.slots env.schedule) (pendOf []) leak none st)
    (hready : Ready env st kid) (hpick : pickStream env st kid = some stream)
    (hs : stream < env.numStreams) : ∃ e : Emission, e.Of env st kid stream leak ∧
      ∀ w t, e.placed.value2place w = some (.output t) →
        st.value2place w = some (.output t) ∨
        w ∈ (env.schedule.kernel kid).outputs ∧ (TakesBuffer env st kid t ∨
          env.schedule.outputAliases w = some t ∧ ∀ t', TakesBuffer env st kid t' → t' = t) := by
  obtain ⟨e, he, -, hout⟩ := emitKernel_induct hS hp hl hready hpick hs
    (P := fun _ _ st₁ _ => ∀ w t, st₁.value2place w = some (.output t) →
      st.value2place w = some (.output t))
    (Q := fun _ _ _ st₂ _ _ => ∀ w t, st₂.value2place w = some (.output t) →
      st.value2place w = some (.output t) ∨
      w ∈ (env.schedule.kernel kid).outputs ∧ (TakesBuffer env st kid t ∨
        env.schedule.outputAliases w = some t ∧ ∀ t', TakesBuffer env st kid t' → t' = t))
    (fun _ _ h => h)
    (by
      intro leak₁ leak₂ done st₁ st₁' bs v b _ _ hcase _ _ _ hP w t hplace
      apply hP w t
      by_cases hwv : w = v
      · subst hwv
        cases hcase with
        | workspace c => simp at hplace
        | initializer => exact hplace
        | direct => exact hplace
        | cached => exact hplace
        | copied => exact hplace
      · rw [← hplace]
        exact (hcase.value2place (Or.inl hwv)).symm)
    (fun _ _ _ _ _ _ _ hP w t hplace => Or.inl (hP w t hplace))
    (by
      intro leak' inPlace st₁ ins done st₂ bs posts o p a first hpre _ _ _ hcase hb hsource _ hQ w t
        hplace
      by_cases hwo : w = o
      · subst hwo
        have hw : w ∈ (env.schedule.kernel kid).outputs := hpre.subset (by simp)
        obtain rfl : p = .output t := by simpa using hplace
        refine Or.inr ⟨hw, ?_⟩
        cases hcase with
        | aliased _ hin halias =>
            refine Or.inr ⟨halias, fun t' ht' => ?_⟩
            have ht₁ : TakesBuffer env (entered env st kid stream) kid t' := ht'
            cases hin.symm.trans (ht₁.inPlace_eq hS hready.mem hb hsource)
        | inPlace _ _ hin =>
            subst hin
            obtain ⟨b, hmem, hinput, hrole, hbp, -, -⟩ := hsource.input hb hS hready.mem
            obtain ⟨hx, hno⟩ := (hb.direct b hmem hrole (.output t) (by simp)).mp hbp
            exact Or.inl ⟨b.value, hinput, hx, hno⟩
      · exact hQ w t (by simpa [Function.update_of_ne hwo] using hplace))
  exact ⟨e, he, hout⟩

/-- What the data of a pass leaves in the caller's buffers. -/
theorem Emission.Of.buffers {e : Emission} (h : e.Of env st kid stream leak)
    (hS : env.schedule.WellFormed) (hp : Planned env st)
    (hl : Ledger env.numStreams (st.slots env.schedule) (pendOf []) leak none st)
    (hready : Ready env st kid) (hpick : pickStream env st kid = some stream)
    (hs : stream < env.numStreams) (hplace : e.placed.value2place w = some (.output t)) :
    st.value2place w = some (.output t) ∨
      w ∈ (env.schedule.kernel kid).outputs ∧ (TakesBuffer env st kid t ∨
        env.schedule.outputAliases w = some t ∧ ∀ t', TakesBuffer env st kid t' → t' = t) := by
  obtain ⟨e', he', hbuffers⟩ := emission_buffers hS hp hl hready hpick hs
  have hfinal := congrArg SchedState.value2place (h.final_eq he')
  have hsame : e.placed.value2place = e'.placed.value2place := hfinal
  exact hbuffers w t (hsame ▸ hplace)

/-- An update that takes over a place takes over no caller's output buffer. -/
def UpdatesOffBuffers (env : SchedEnv) (st : SchedState) (kid : KernelId) : Prop :=
  ∀ idx x t, env.schedule.mustInPlaceInput kid = some idx →
    (env.schedule.kernel kid).inputs.getD idx none = some x →
    st.value2place x = some (.output t) → NeedsCopy env st (env.placement kid).tier x (.output t)

/-- An update in place is the last reader of its cache, and overwrites no other value that is still
to be read and no caller's output buffer. -/
structure CleanUpdate (env : SchedEnv) (st : SchedState) (kid : KernelId) : Prop where
  last : LastUse env st kid
  spares : UpdateSpares env st kid
  off : UpdatesOffBuffers env st kid

/-- The values in a caller's buffer are the buffer's. -/
def BuffersOwn (I : Interp S α) (st : SchedState) : Prop :=
  ∀ w t, st.value2place w = some (.output t) → S.denote I w = S.denote I t

theorem Emission.Of.buffersOwn {e : Emission} {I : Interp env.schedule α}
    (h : e.Of env st kid stream leak)
    (hS : env.schedule.WellFormed) (hp : Planned env st)
    (hl : Ledger env.numStreams (st.slots env.schedule) (pendOf []) leak none st)
    (hready : Ready env st kid) (hpick : pickStream env st kid = some stream)
    (hs : stream < env.numStreams) (hoff : UpdatesOffBuffers env st kid) (hown : BuffersOwn I st) :
    BuffersOwn I (e.final ⟨env.placement kid, stream⟩) := by
  intro w t hplace
  rcases h.buffers hS hp hl hready hpick hs hplace with hold | ⟨hw, htakes | ⟨halias, -⟩⟩
  · exact hown w t hold
  · obtain ⟨x, hinput, hx, hno⟩ := htakes
    rcases hinput with ⟨hf, hin⟩ | ⟨idx, hidx, hin⟩
    · exact (hS.denote_forward I hready.mem hf hin hw).trans (hown x t hx)
    · exact absurd (hoff idx x t hidx hin hx) hno
  · exact denote_alias hS halias

theorem Reachable.buffersOwn {I : Interp S α} (hS : S.WellFormed)
    (hrun : RunMeets S numStreams placement (CleanUpdate (MemoryAware.env S numStreams placement)))
    (h : Reachable S numStreams placement s) : BuffersOwn I s.toSchedState := by
  obtain ⟨-, -, -, -, hown⟩ := h.induct hS hrun (I := fun st _ => BuffersOwn I st)
    (fun w t hplace => absurd rfl (Schedule.sourcePlace_not_output hplace t))
    (by
      intro st kid stream leak hp hl hready hpick hs hc hown
      obtain ⟨e, he⟩ := emission_exists hS hp hl hready hpick hs
      exact ⟨e, he, he.buffersOwn hS hp hl hready hpick hs hc.off hown⟩)
  exact hown

/-! ### What the steps write to a caller's buffer -/

/-- With right inputs, the step leaves the buffer's own value in every buffer that it writes. -/
def WritesOwn (I : Interp S α) (step : Step) : Prop :=
  ∀ t, step.Writes (.output t) → ∀ m : Mem α,
    (∀ b ∈ step.reads, m b.place = S.denote I b.value) →
    execStep I m step (.output t) = S.denote I t

/-- A transfer of a value to a buffer of which it is an alias. -/
theorem writesOwn_transfer {I : Interp S α} {src dst : ValueBinding} {context : ExecutionContext}
    {event : Option EventId}
    (h : ∀ t, dst.place = .output t → S.denote I src.value = S.denote I t) :
    WritesOwn I (.transfer ⟨src, dst, context, event⟩) := by
  rintro t ⟨b, hb, hp⟩ m hreads
  rw [List.mem_singleton.mp hb] at hp
  have hp : dst.place = .output t := hp
  have hsrc := hreads src (List.mem_singleton_self src)
  show Function.update m dst.place (m src.place) (.output t) = _
  rw [hp, Function.update_self, hsrc]
  exact h t hp

/-- A place outside the workspaces holds the value that is bound to it last. -/
theorem bodyMem_output {I : Interp env.schedule α} {bs : List ValueBinding} {m : Mem α}
    {x : α} (hex : ∃ b ∈ bs, b.role = .output ∧ b.place = p)
    (hx : ∀ b ∈ bs, b.role = .output → b.place = p → env.schedule.denote I b.value = x) :
    bodyMem I kid bs m p = x := by
  obtain ⟨b, hb, hrole, hp⟩ := hex
  refine foldl_update_of_mem _ ValueBinding.place (fun b => env.schedule.denote I b.value) _
    ⟨b, List.mem_filter.mpr ⟨hb, by simp [hrole]⟩, hp⟩ fun d hd hdp => ?_
  obtain ⟨hd, hdrole⟩ := List.mem_filter.mp hd
  exact hx d hd (by simpa using hdrole) hdp

/-- The outputs that the kernel's own step writes are bound where the planner put them. -/
theorem Emission.Of.body_writes {e : Emission} (h : e.Of env st kid stream leak)
    (hS : env.schedule.WellFormed) (hready : Ready env st kid) (hp : ∀ c, p ≠ .chunk c) :
    e.step.Writes p ↔ ∃ b ∈ e.bindings, b.role = .output ∧ b.place = p := by
  have hins : ∀ b ∈ e.bindings, b.role = .workspace → ∃ c, b.place = .chunk c := by
    obtain ⟨outs, hbs, -, houts⟩ := h.outputsBound.bindings
    intro b hb hrole
    rw [hbs] at hb
    rcases List.mem_append.mp hb with hb | hb
    · exact h.inputsBound.workspace b hb hrole
    · rw [(houts b hb).1] at hrole
      cases hrole
  rcases bodyStep_cases hS hready.mem h.inputsBound h.outputsBound h.body with
    ⟨-, heq⟩ | ⟨ht, b, d, hinputs, -, hin, hbs, heq⟩
  · rw [heq]
    constructor
    · rintro ⟨b, hb, hbp⟩
      rcases List.mem_append.mp hb with hb | hb
      · obtain ⟨hb, hrole⟩ := List.mem_filter.mp hb
        obtain ⟨c, hc⟩ := hins b hb (by simpa using hrole)
        exact absurd (hbp.symm.trans hc) (hp c)
      · obtain ⟨hb, hrole⟩ := List.mem_filter.mp hb
        exact ⟨b, hb, by simpa using hrole, hbp⟩
    · rintro ⟨b, hb, hrole, hbp⟩
      exact ⟨b, List.mem_append_right _ (List.mem_filter.mpr ⟨hb, by simp [hrole]⟩), hbp⟩
  · have hb : b.role = .input := by
      rw [h.inputsBound.role b (by simp [hin]), hS.copied_defined kid hready.mem (Or.inr ht) b.value
        (by simp [Kernel.presentInputs, hinputs])]
      rfl
    have hd : d.role = .output := by
      obtain ⟨outs, hbs', -, houts⟩ := h.outputsBound.bindings
      rw [hbs, hin] at hbs'
      obtain rfl : outs = [d] := by simpa using hbs'.symm
      exact (houts d (List.mem_singleton_self d)).1
    rw [heq, hbs]
    constructor
    · rintro ⟨x, hx, hxp⟩
      rw [List.mem_singleton.mp hx] at hxp
      exact ⟨d, by simp, hd, hxp⟩
    · rintro ⟨x, hx, hrole, hxp⟩
      rcases List.mem_cons.mp hx with rfl | hx
      · rw [hb] at hrole
        cases hrole
      · exact ⟨x, hx, hxp⟩

theorem Emission.Of.body_place {e : Emission} (h : e.Of env st kid stream leak)
    {b : ValueBinding} (hb : b ∈ e.bindings) (hrole : b.role = .output) :
    b.value ∈ (env.schedule.kernel kid).outputs ∧ e.placed.value2place b.value = some b.place := by
  obtain ⟨outs, hbs, hvalues, houts⟩ := h.outputsBound.bindings
  rw [hbs] at hb
  rcases List.mem_append.mp hb with hb | hb
  · have := h.inputsBound.role b hb
    rw [hrole] at this
    split at this <;> cases this
  · exact ⟨hvalues ▸ List.mem_map_of_mem hb, (houts b hb).2⟩

theorem Emission.Of.writesOwn {e : Emission} {I : Interp env.schedule α}
    (h : e.Of env st kid stream leak) (hS : env.schedule.WellFormed) (hready : Ready env st kid)
    (hown : BuffersOwn I (e.final ⟨env.placement kid, stream⟩)) : WritesOwn I e.step := by
  intro t hwrites m hreads
  have hm : ∀ b ∈ e.inputs, b.role = .input → m b.place = env.schedule.denote I b.value := by
    intro b hb hrole
    apply hreads b
    rcases bodyStep_cases hS hready.mem h.inputsBound h.outputsBound h.body with
      ⟨-, heq⟩ | ⟨-, b', d, -, -, hin, -, heq⟩
    · rw [heq]
      obtain ⟨outs, hbs, -, -⟩ := h.outputsBound.bindings
      exact List.mem_filter.mpr ⟨hbs ▸ List.mem_append_left _ hb, by simp [hrole]⟩
    · rw [heq]
      rw [hin] at hb
      exact hb
  rw [(exec_bodyStep hS hready.mem h.inputsBound h.outputsBound h.body hm).2]
  refine bodyMem_output ((h.body_writes hS hready (by simp)).mp hwrites) ?_
  intro b hb hrole hbp
  obtain ⟨-, hplace⟩ := h.body_place hb hrole
  rw [hbp] at hplace
  exact hown b.value t hplace

/-- In a run with clean updates, every step writes the buffers' own values. -/
theorem Reachable.writesOwn {I : Interp S α} (hS : S.WellFormed)
    (hrun : RunMeets S numStreams placement (CleanUpdate (MemoryAware.env S numStreams placement)))
    (h : Reachable S numStreams placement s) : ∀ step ∈ s.steps, WritesOwn I step := by
  obtain ⟨-, -, -, -, -, hw⟩ := h.induct hS hrun
    (I := fun st _ => BuffersOwn I st ∧ ∀ step ∈ st.steps, WritesOwn I step)
    ⟨fun w t hplace => absurd rfl (Schedule.sourcePlace_not_output hplace t),
      fun step hstep => by cases hstep⟩
    (by
      rintro st kid stream leak hp hl hready hpick hs hc ⟨hown, hw⟩
      obtain ⟨e, he⟩ := emission_exists hS hp hl hready hpick hs
      have hown' := he.buffersOwn hS hp hl hready hpick hs hc.off hown
      refine ⟨e, he, hown', fun step hstep => ?_⟩
      rcases he.mem_steps hstep with hold | ⟨w, rfl⟩ | ⟨v, c, t, rfl, -, -, hdst⟩ | rfl |
        ⟨pt, hpt, event, rfl⟩
      · exact hw step hold
      · rintro t ⟨b, hb, -⟩
        cases hb
      · rintro t' ⟨b, hb, hbp⟩
        rw [List.mem_singleton.mp hb, hdst] at hbp
        cases hbp
      · exact he.writesOwn hS hready hown'
      · obtain ⟨o, -, q, t, -, -, halias, rfl⟩ := he.outputsBound.pending pt hpt
        apply writesOwn_transfer
        rintro t' ht'
        obtain rfl : t = t' := by simpa using ht'
        exact denote_alias hS halias)
  exact hw

/-! ### Which buffers are written -/

/-- Some turn of the run delivers to the caller's buffer. -/
def RunDelivers (S : Schedule) (numStreams : Nat) (placement : KernelId → Device) (t : ValueId) :
    Prop :=
  ∃ s kid, Reachable S numStreams placement s ∧ pickBest S s = some kid ∧
    Delivers (MemoryAware.env S numStreams placement) s.toSchedState kid t

/-- A buffer that something is placed in, or that a step writes, is delivered to. -/
theorem Reachable.delivers (hS : S.WellFormed) (h : Reachable S numStreams placement s) :
    (∀ w t, s.value2place w = some (.output t) → RunDelivers S numStreams placement t) ∧
      ∀ step ∈ s.steps, ∀ t, step.Writes (.output t) → RunDelivers S numStreams placement t := by
  obtain ⟨-, -, -, -, hd⟩ := h.induct hS
    (C := fun st kid => ∃ s, Reachable S numStreams placement s ∧ pickBest S s = some kid ∧
      s.toSchedState = st)
    (fun s kid hs hpick => ⟨s, hs, hpick, rfl⟩)
    (I := fun st _ =>
      (∀ w t, st.value2place w = some (.output t) → RunDelivers S numStreams placement t) ∧
      ∀ step ∈ st.steps, ∀ t, step.Writes (.output t) → RunDelivers S numStreams placement t)
    ⟨fun w t hplace => absurd rfl (Schedule.sourcePlace_not_output hplace t),
      fun step hstep => by cases hstep⟩
    (by
      rintro st kid stream leak hp hl hready hpick hs ⟨s, hsr, hsp, rfl⟩ ⟨hplaces, hwrites⟩
      obtain ⟨e, he⟩ := emission_exists hS hp hl hready hpick hs
      have hplaces' : ∀ w t, e.placed.value2place w = some (.output t) →
          RunDelivers S numStreams placement t := by
        intro w t hplace
        rcases he.buffers hS hp hl hready hpick hs hplace with hold | ⟨hw, ⟨x, -, hx, -⟩ | hdel⟩
        · exact hplaces w t hold
        · exact hplaces x t hx
        · exact ⟨s, kid, hsr, hsp, w, hw, hdel.1, hdel.2⟩
      refine ⟨e, he, hplaces', fun step hstep t hw => ?_⟩
      rcases he.mem_steps hstep with hold | ⟨w, rfl⟩ | ⟨v, c, t, rfl, -, -, hdst⟩ | rfl |
        ⟨pt, hpt, event, rfl⟩
      · exact hwrites step hold t hw
      · obtain ⟨b, hb, -⟩ := hw
        cases hb
      · obtain ⟨b, hb, hbp⟩ := hw
        rw [List.mem_singleton.mp hb, hdst] at hbp
        cases hbp
      · obtain ⟨b, hb, hrole, hbp⟩ := (he.body_writes hS hready (by simp)).mp hw
        have hplace := (he.body_place hb hrole).2
        rw [hbp] at hplace
        exact hplaces' b.value t hplace
      · obtain ⟨o, ho, q, t', hplace, hq, halias, rfl⟩ := he.outputsBound.pending pt hpt
        obtain ⟨b, hb, hbp⟩ := hw
        rw [List.mem_singleton.mp hb] at hbp
        obtain rfl : t' = t := by simpa using hbp
        exact ⟨s, kid, hsr, hsp, delivers_of_post hS hready.mem he.inputsBound he.source
          he.outputsBound ho hplace hq halias⟩)
  exact hd

/-- A kernel that delivers to a buffer writes it. -/
theorem Emission.Of.writes_of_delivers {e : Emission} (h : e.Of env st kid stream leak)
    (hS : env.schedule.WellFormed) (hp : Planned env st)
    (hl : Ledger env.numStreams (st.slots env.schedule) (pendOf []) leak none st)
    (hready : Ready env st kid) (hpick : pickStream env st kid = some stream)
    (hs : stream < env.numStreams) (hdel : Delivers env st kid t) :
    ∃ step ∈ (e.final ⟨env.placement kid, stream⟩).steps, step.Writes (.output t) := by
  obtain ⟨o, ho, halias, hown⟩ := hdel
  obtain ⟨b, hb, hrole, rfl, hplace⟩ := h.outputPlaced ho
  obtain ⟨l, hsteps, -, -⟩ := h.steps
  rcases h.outputsBound.delivered b.value ho b.place t hplace halias with hout | hpost
  · obtain ⟨t', hbt⟩ : ∃ t', b.place = .output t' := by
      cases hb : b.place with
      | output t' => exact ⟨t', rfl⟩
      | _ => simp [hb, isOutputPlace] at hout
    obtain rfl : t' = t := by
      rw [hbt] at hplace
      rcases h.buffers hS hp hl hready hpick hs hplace with hold | ⟨-, htakes | ⟨halias', -⟩⟩
      · rw [hready.outputs_unplaced hp b.value ho] at hold
        cases hold
      · exact hown t' htakes
      · simpa using halias'.symm.trans halias
    refine ⟨e.step, ?_, (h.body_writes hS hready (by simp)).mpr ⟨b, hb, hrole, hbt⟩⟩
    rw [hsteps]
    simp
  · obtain ⟨event, hmem⟩ := postSteps_mem ⟨env.placement kid, stream⟩ hpost e.placed.nextEventId
    refine ⟨.transfer ⟨⟨b.value, .input, b.place, false⟩, ⟨b.value, .output, .output t, false⟩,
      ⟨env.placement kid, stream⟩, some event⟩, ?_, _, List.mem_singleton_self _, rfl⟩
    rw [hsteps]
    exact List.mem_append_right _ (List.mem_append_right _ (List.mem_append_right _
      (List.mem_cons_of_mem _ hmem)))

/-- Only produced values are copied to a caller's buffer before the end of the run. -/
theorem Reachable.deliveredValues_produced (hS : S.WellFormed)
    (h : Reachable S numStreams placement s) :
    ∀ v ∈ deliveredValues s.steps, S.sourcePlace v = none := by
  obtain ⟨-, -, -, -, hd⟩ := h.induct hS (C := fun _ _ => True) (fun _ _ _ _ => trivial)
    (I := fun st _ => ∀ v ∈ deliveredValues st.steps, S.sourcePlace v = none)
    (fun v hv => by cases hv)
    (by
      intro st kid stream leak hp hl hready hpick hs _ hd
      obtain ⟨e, he⟩ := emission_exists hS hp hl hready hpick hs
      refine ⟨e, he, fun v hv => ?_⟩
      obtain ⟨t, ht, hout, rfl⟩ := mem_deliveredValues.mp hv
      rcases he.mem_steps ht with hold | ⟨w, hw⟩ | ⟨v, c, t', ht', -, -, hdst⟩ | hbody |
        ⟨pt, hpt, event, hpost⟩
      · exact hd _ (mem_deliveredValues.mpr ⟨t, hold, hout, rfl⟩)
      · cases hw
      · obtain rfl := Step.transfer.inj ht'
        rw [hdst] at hout
        cases hout
      · rcases bodyStep_cases hS hready.mem he.inputsBound he.outputsBound he.body with
          ⟨-, hstep⟩ | ⟨-, b, d, -, houts, -, -, hstep⟩
        · cases hbody.trans hstep
        · obtain rfl := Step.transfer.inj (hbody.trans hstep)
          exact hS.source_unproduced kid hready.mem d.value (houts ▸ List.mem_singleton_self _)
      · obtain ⟨o, ho, q, t', -, -, -, rfl⟩ := he.outputsBound.pending pt hpt
        obtain rfl := Step.transfer.inj hpost
        exact hS.source_unproduced kid hready.mem o ho)
  exact hd

/-- Every output that is left has its trailing transfer. -/
theorem finalSteps_mem {already : List ValueId} {outputs : List ValueId} (hv : v ∈ outputs)
    (hund : undelivered already st v = some p) : ∀ n, ∃ step ∈ finalSteps S already st n outputs,
      step.Writes (.output v) := by
  induction outputs with
  | nil => cases hv
  | cons w outputs ih =>
      intro n
      rcases List.mem_cons.mp hv with rfl | hv
      · simp only [finalSteps, hund]
        exact ⟨_, List.mem_cons_self, _, List.mem_singleton_self _, rfl⟩
      · cases hw : undelivered already st w with
        | none =>
            simp only [finalSteps, hw]
            exact ih hv n
        | some q =>
            simp only [finalSteps, hw]
            obtain ⟨step, hstep, hwrites⟩ := ih hv (n + 1)
            exact ⟨step, List.mem_cons_of_mem _ hstep, hwrites⟩

/-- The plan writes a buffer exactly when the output is a source, or a turn delivers to it. -/
theorem build_writes_iff (hS : S.WellFormed) {plan : ExecutionPlan}
    (hbuild : build S numStreams placement = some plan) (hv : v ∈ S.outputs) :
    (∃ step ∈ plan.steps, step.Writes (.output v)) ↔
      (S.sourcePlace v = none → RunDelivers S numStreams placement v) := by
  obtain ⟨s, hs, hall, hbuild'⟩ := build_spec hS numStreams placement
  obtain rfl := Option.some.inj (hbuild.symm.trans hbuild')
  constructor
  · rintro ⟨step, hstep, hw⟩ hnone
    rcases List.mem_append.mp hstep with hstep | hstep
    · exact (hs.delivers hS).2 step hstep v hw
    · obtain ⟨w, hwout, p, event, hund, -, -, rfl⟩ := mem_finalSteps hstep
      obtain ⟨b, hb, hbp⟩ := hw
      rw [List.mem_singleton.mp hb] at hbp
      obtain rfl : w = v := by simpa using hbp
      rw [hs.undelivered_source hS hall hwout hund] at hnone
      cases hnone
  · intro hdel
    cases hsource : S.sourcePlace v with
    | some p =>
        have hnot : v ∉ deliveredValues s.steps := fun hmem => by
          rw [hs.deliveredValues_produced hS v hmem] at hsource
          cases hsource
        obtain ⟨step, hstep, hw⟩ :=
          finalSteps_mem hv (hs.source_undelivered hS hsource hnot) s.nextEventId
        exact ⟨step, List.mem_append_right _ hstep, hw⟩
    | none =>
        obtain ⟨s₁, kid, hs₁, hpick, hd⟩ := hdel hsource
        obtain ⟨hp, hq, leak, hl⟩ := hs₁.good hS
        have hready := (hq.ready kid).mp (minBy?_mem hpick)
        obtain ⟨stream, hstream, hlt⟩ := pickStream_total numStreams_pos hp hready.preds
        obtain ⟨s₂, -, -, e', hs₂, -, -, -⟩ := turn_exists hS hs₁ hpick
        obtain ⟨e, he⟩ := emission_exists hS hp hl hready hstream hlt
        obtain ⟨step, hstep, hw⟩ := he.writes_of_delivers hS hp hl hready hstream hlt hd
        have hfinal : s₂.toSchedState = e.final ⟨placement kid, stream⟩ := by
          have h₁ := scheduleKernel_eq_some hs₂
          rw [he.eq] at h₁
          exact (Option.some.inj h₁).symm
        have hreach : Reachable S numStreams placement s₂ := .turn s₁ s₂ kid hs₁ hpick hs₂
        have hmem : step ∈ s₂.steps := by
          rw [hfinal]
          exact hstep
        exact ⟨step, List.mem_append_left _ (hreach.steps_subset_end hS hs hall step hmem), hw⟩

/-! ### The delivery of every output -/

/-- After the plan has run in list order, every caller's buffer holds its output. -/
def OutputsDelivered (S : Schedule) (plan : ExecutionPlan) : Prop :=
  ∀ (α : Type) (I : Interp S α) (m₀ : Mem α), Starts I m₀ →
    ∀ v ∈ S.outputs, execSteps I plan.steps m₀ (.output v) = S.denote I v

/-- A buffer that no step writes keeps what the caller left in it. -/
theorem not_delivered_of_unwritten {plan : ExecutionPlan} (hv : v ∈ S.outputs)
    (hno : ∀ step ∈ plan.steps, ¬ step.Writes (.output v)) : ¬ OutputsDelivered S plan := by
  intro h
  let I : Interp S Bool :=
    { source := fun _ => true, out := fun _ xs _ => xs.headD true, scratch := fun _ _ _ => true,
      copies := fun _ _ _ => rfl }
  let m₀ : Mem Bool := fun p => if p = .output v then !S.denote I v else true
  have hstarts : Starts I m₀ := by
    intro w p hp
    exact if_neg (Schedule.sourcePlace_not_output hp v)
  have hdel := h Bool I m₀ hstarts v hv
  rw [execSteps_of_not_writes hno] at hdel
  simp [m₀] at hdel

/-- In a run with clean updates, every buffer holds its output after the plan if and only if each
produced output is delivered to by some turn. -/
theorem outputs_delivered_iff (hS : S.WellFormed) (numStreams : Nat)
    (placement : KernelId → Device)
    (hrun : RunMeets S numStreams placement (CleanUpdate (MemoryAware.env S numStreams placement))) :
    (∃ plan, build S numStreams placement = some plan ∧ OutputsDelivered S plan) ↔
      ∀ v ∈ S.outputs, S.sourcePlace v = none → RunDelivers S numStreams placement v := by
  obtain ⟨s, hs, hall, hbuild⟩ := build_spec hS numStreams placement
  constructor
  · rintro ⟨plan, hplan, hdel⟩ v hv
    rw [← build_writes_iff hS hplan hv]
    by_contra hno
    exact not_delivered_of_unwritten hv (fun step hstep hw => hno ⟨step, hstep, hw⟩) hdel
  · intro hdel
    refine ⟨_, hbuild, fun α I m₀ hm v hv => ?_⟩
    have hsound : Sound (MemoryAware.env S numStreams placement) I m₀ s.toSchedState :=
      hs.sound hS hm (C := fun st kid =>
          CleanUpdate (MemoryAware.env S numStreams placement) st kid ∧ BuffersOwn I st)
        (fun s kid hs hpick => ⟨hrun s kid hs hpick, hs.buffersOwn hS hrun⟩)
        (fun _ _ _ _ _ hc => hc.1.last) (fun _ _ hc => hc.1.spares)
        (fun _ _ hc t _ _ _ _ _ w _ hplace => hc.2 w t hplace)
    have hreads := finals_hold _ _ S.outputs s.steps s.nextEventId
      (fun v hv p hund => ⟨hv, hs.undelivered_source hS hall hv hund⟩)
      hsound.holds.source hsound.reads
    refine execSteps_of_writes hreads ((build_writes_iff hS hbuild hv).mpr (hdel v hv)) ?_
    intro step hstep hw m hm'
    rcases List.mem_append.mp hstep with hstep | hstep
    · exact hs.writesOwn hS hrun step hstep v hw m hm'
    · obtain ⟨w, -, p, event, -, -, -, rfl⟩ := mem_finalSteps hstep
      refine writesOwn_transfer (fun t ht => ?_) v hw m hm'
      obtain rfl : w = t := by simpa using ht
      rfl

/-- Two reinterpretations of one value, both given back to the caller. -/
def reinterpretTwice : Schedule where
  inputs := [0]
  outputs := [2, 3]
  initializers := []
  sessionStates := []
  kernels := [.unary .reLU 0 1, .unary (.reinterpret [.reshape [4] [4]]) 1 2,
    .unary (.reinterpret [.reshape [4] [4]]) 1 3]
  valueType := fun _ => .new (.float .F32) [4]

/-- Both values end in the buffer of one of them. -/
theorem reinterpretTwice_not_delivered : reinterpretTwice.WellFormed ∧
    ∃ plan, build reinterpretTwice 1 (fun _ => .CPU) = some plan ∧
      ¬ OutputsDelivered reinterpretTwice plan :=
  ⟨by decide, _, rfl, not_delivered_of_unwritten (v := 3) (by decide) (by decide)⟩

/-- The equivalence at a run without updates. -/
theorem reinterpretTwice_delivered_iff :
    (∃ plan, build reinterpretTwice 1 (fun _ => .CPU) = some plan ∧
      OutputsDelivered reinterpretTwice plan) ↔
    ∀ v ∈ reinterpretTwice.outputs, reinterpretTwice.sourcePlace v = none →
      RunDelivers reinterpretTwice 1 (fun _ => .CPU) v := by
  refine outputs_delivered_iff (by decide) 1 (fun _ => .CPU) fun s kid hs hpick => ?_
  obtain ⟨-, hq, -⟩ := hs.good (by decide)
  have hnone : ∀ kid ∈ reinterpretTwice.kernelIds, reinterpretTwice.mustInPlaceInput kid = none := by
    decide
  have hno := hnone kid ((hq.ready kid).mp (minBy?_mem hpick)).mem
  exact
    { last := fun idx x hidx => by cases hno.symm.trans hidx
      spares := fun idx x p hidx => by cases hno.symm.trans hidx
      off := fun idx x t hidx => by cases hno.symm.trans hidx }

end MemoryAware
end NnEngine
