import NnEngine.Schedule.Scheduler.Finalize
import NnEngine.Schedule.Scheduler.Sharing

/-!
# The bindings of a kernel step

A kernel step binds the kernel's present inputs, then its outputs, in order, and every value at one
place.
-/

namespace NnEngine

/-- The bindings of a kernel step fit its kernel. -/
structure WellBound (S : Schedule) (k : KernelStep) : Prop where
  mem : k.kernel ∈ S.kernelIds
  notTransfer : (S.kernel k.kernel).isTransfer = false
  bindings : ∃ ins outs, k.bindings = ins ++ outs ∧
    ins.map ValueBinding.value = (S.kernel k.kernel).presentInputs ∧
    outs.map ValueBinding.value = (S.kernel k.kernel).outputs ∧
    (∀ b ∈ ins, b.role = if S.isScratch b.value then .workspace else .input) ∧
    ∀ b ∈ outs, b.role = .output
  consistent : ∀ b ∈ k.bindings, ∀ b' ∈ k.bindings, b.value = b'.value → b.place = b'.place

/-- An element whose image is counted once is the only one with that image. -/
theorem eq_of_count_map_eq_one {α β : Type} [DecidableEq β] {f : α → β} {l : List α} {a b : α}
    (ha : a ∈ l) (hb : b ∈ l) (h : f a = f b) (hone : (l.map f).count (f a) = 1) : a = b := by
  have hcount : l.countP (fun x => f x == f a) = 1 := by
    rw [List.count, List.countP_map] at hone
    exact hone
  rw [List.countP_eq_length_filter, List.length_eq_one_iff] at hcount
  obtain ⟨c, hc⟩ := hcount
  have hmem : ∀ x ∈ l, f x = f a → x = c := by
    intro x hx hfx
    have hin : x ∈ l.filter fun x => f x == f a := List.mem_filter.mpr ⟨hx, by simp [hfx]⟩
    rw [hc] at hin
    exact List.mem_singleton.mp hin
  rw [hmem a ha rfl, hmem b hb h.symm]

namespace SchedState

variable {env : SchedEnv} {tier : MemoryTier} {stream : Nat} {st₀ st st' : SchedState}
  {v : ValueId} {b b' : ValueBinding}

/-- Where the input loop, started from `st₀`, finds an input: at the initializer, at its own place,
or at its copy. -/
def SettledAt (env : SchedEnv) (tier : MemoryTier) (st₀ st : SchedState) (b : ValueBinding) : Prop :=
  b.value ∈ env.schedule.initializers ∧ b.place = .initializer b.value ∨
  b.value ∉ env.schedule.initializers ∧ ∃ p, st₀.value2place b.value = some p ∧
    (¬ NeedsCopy env st₀ tier b.value p ∧ b.place = p ∨
      NeedsCopy env st₀ tier b.value p ∧
        ∃ r, st.valueOnTier b.value tier = some r ∧ b.place = r.place)

theorem SettledAt.unique (h : SettledAt env tier st₀ st b) (h' : SettledAt env tier st₀ st b')
    (hv : b.value = b'.value) : b.place = b'.place := by
  unfold SettledAt at h'
  rw [← hv] at h'
  rcases h with ⟨hi, hp⟩ | ⟨hi, p, hplace, hp⟩
  · rcases h' with ⟨-, hp'⟩ | ⟨hi', -⟩
    · rw [hp, hp']
    · exact absurd hi hi'
  · rcases h' with ⟨hi', -⟩ | ⟨-, p', hplace', hp'⟩
    · exact absurd hi' hi
    · obtain rfl : p = p' := by simpa using hplace.symm.trans hplace'
      rcases hp with ⟨hno, rfl⟩ | ⟨hneeds, r, hr, hp⟩
      · rcases hp' with ⟨-, hp'⟩ | ⟨hneeds', -⟩
        · exact hp'.symm
        · exact absurd hneeds' hno
      · rcases hp' with ⟨hno', -⟩ | ⟨-, r', hr', hp'⟩
        · exact absurd hneeds hno'
        · obtain rfl : r = r' := by simpa using hr.symm.trans hr'
          rw [hp, hp']

/-- Copies are kept, so inputs stay where they were found. -/
theorem SettledAt.step (h : SettledAt env tier st₀ st b)
    (hcase : InputCase env tier stream st v st' b') : SettledAt env tier st₀ st' b := by
  refine h.imp_right fun ⟨hi, p, hplace, hp⟩ => ⟨hi, p, hplace, hp.imp_right ?_⟩
  rintro ⟨hneeds, r, hr, hp⟩
  exact ⟨hneeds, r, hcase.valueOnTier hr, hp⟩

/-- A turn of the input loop settles its input. -/
theorem InputCase.settled {done : List Nat} {bs : List ValueBinding}
    (h : InputCase env tier stream st v st' b) (hb : InputsBound env tier stream st₀ done st bs)
    (hneeds : ∀ p, st₀.value2place v = some p →
      (NeedsCopy env st tier v p ↔ NeedsCopy env st₀ tier v p))
    (hrole : b.role = .input) : SettledAt env tier st₀ st' b := by
  have hframe : env.schedule.isScratch v = false → st.value2place v = st₀.value2place v :=
    fun hdef => hb.frame v (Or.inl hdef)
  cases h with
  | initializer hinit => exact Or.inl ⟨hinit, rfl⟩
  | workspace => cases hrole
  | direct p a first hinit hdef hplace hno hev =>
      have hplace₀ := (hframe hdef).symm.trans hplace
      exact Or.inr ⟨hinit, p, hplace₀, Or.inl ⟨mt (hneeds p hplace₀).mpr hno, rfl⟩⟩
  | cached p r a first hinit hdef hplace hcopy hr hchunk hev =>
      have hplace₀ := (hframe hdef).symm.trans hplace
      exact Or.inr ⟨hinit, p, hplace₀, Or.inr ⟨(hneeds p hplace₀).mp hcopy, r, hr, rfl⟩⟩
  | copied p c a first srcFirst dstFirst hinit hdef hplace hcopy hr hzero hsource hev hsize hlt =>
      have hplace₀ := (hframe hdef).symm.trans hplace
      refine Or.inr ⟨hinit, p, hplace₀, Or.inr ⟨(hneeds p hplace₀).mp hcopy,
        ⟨.chunk c, st.nextEventId, stream⟩, ?_, rfl⟩⟩
      exact (congrFun (Function.update_self v _ _) tier).trans (Function.update_self tier _ _)

end SchedState

namespace MemoryAware

open SchedState

variable {S : Schedule} {numStreams : Nat} {placement : KernelId → Device} {s : Scheduler}
  {env : SchedEnv} {st : SchedState} {kid stream : Nat} {leak : Nat → Nat}

/-- A kernel's own step is well bound. -/
theorem emission_wellBound (hS : env.schedule.WellFormed) (hp : Planned env st)
    (hl : Ledger env.numStreams (st.slots env.schedule) (pendOf []) leak none st)
    (hready : Ready env st kid) (hpick : pickStream env st kid = some stream)
    (hs : stream < env.numStreams) :
    ∃ e : Emission, e.Of env st kid stream leak ∧
      ∀ k, e.step = .kernel k → WellBound env.schedule k := by
  -- the inputs are settled where they are bound
  obtain ⟨e, he, hsettled, -⟩ := emitKernel_induct hS hp hl hready hpick hs
    (P := fun _ _ st₁ bs => ∀ b ∈ bs, b.role = .input →
      SettledAt env (env.placement kid).tier (entered env st kid stream) st₁ b)
    (Q := fun _ _ _ _ _ _ => True) (by simp)
    (by
      intro leak leak' done st₁ st₁' bs v b hv hled hcase hled' hor hbound hP x hx hrole
      rcases List.mem_append.mp hx with hx | hx
      · exact (hP x hx hrole).step hcase
      · obtain rfl := List.mem_singleton.mp hx
        refine hcase.settled hbound (fun p hplace => ?_) hrole
        refine hbound.needsCopy_iff hl.inv fun c hc => ?_
        have hslot : v ∈ st.slots env.schedule :=
          mem_slots.mpr ⟨kid, hready.mem, hready.unscheduled, hv⟩
        exact lt_of_liveUses_pos (hl.live_of_slot hslot (hc ▸ hplace)))
    (by intros; trivial) (by intros; trivial)
  refine ⟨e, he, fun k hk => ?_⟩
  rcases bodyStep_cases hS hready.mem he.inputsBound he.outputsBound he.body with
    ⟨htransfer, hstep⟩ | ⟨-, b, d, -, -, -, -, hstep⟩
  swap
  · rw [hk] at hstep
    cases hstep
  obtain rfl : k = ⟨kid, ⟨env.placement kid, stream⟩, e.bindings, some st.nextEventId⟩ := by
    simpa using hk.symm.trans hstep
  obtain ⟨outs, hbs, hvalues, houts⟩ := he.outputsBound.bindings
  have hin := he.inputsBound
  have hinValue : ∀ b ∈ e.inputs, b.value ∈ (env.schedule.kernel kid).presentInputs :=
    fun b hb => hin.values ▸ List.mem_map_of_mem hb
  have houtValue : ∀ b ∈ outs, b.value ∈ (env.schedule.kernel kid).outputs :=
    fun b hb => hvalues ▸ List.mem_map_of_mem hb
  refine
    { mem := hready.mem, notTransfer := htransfer,
      bindings := ⟨e.inputs, outs, hbs, hin.values, hvalues, hin.role, fun b hb => (houts b hb).1⟩,
      consistent := ?_ }
  intro b hb b' hb' heq
  have hb : b ∈ e.bindings := hb
  have hb' : b' ∈ e.bindings := hb'
  rw [hbs] at hb hb'
  rcases List.mem_append.mp hb with hb | hb <;> rcases List.mem_append.mp hb' with hb' | hb'
  · -- two inputs
    cases hscr : env.schedule.isScratch b.value with
    | true =>
        have hone := (hS.scratch_count hready.mem (hinValue b hb) hscr).1
        rw [← hin.values] at hone
        rw [eq_of_count_map_eq_one hb hb' heq hone]
    | false =>
        have hrole : b.role = .input := by rw [hin.role b hb, hscr]; rfl
        have hrole' : b'.role = .input := by rw [hin.role b' hb', ← heq, hscr]; rfl
        exact (hsettled b hb hrole).unique (hsettled b' hb' hrole') heq
  · exact absurd (hinValue b hb) (heq ▸ not_mem_presentInputs hS hready.mem (houtValue b' hb'))
  · exact absurd (hinValue b' hb') (heq ▸ not_mem_presentInputs hS hready.mem (houtValue b hb))
  · -- two outputs
    have hnd : (outs.map ValueBinding.value).Nodup := hvalues ▸ hS.outputs_nodup kid hready.mem
    rw [List.inj_on_of_nodup_map hnd hb hb' heq]

theorem Reachable.wellBound (hS : S.WellFormed) (h : Reachable S numStreams placement s) :
    ∀ k, .kernel k ∈ s.steps → WellBound S k := by
  obtain ⟨-, -, -, -, hb⟩ := h.induct hS (C := fun _ _ => True) (fun _ _ _ _ => trivial)
    (I := fun st _ => ∀ k, .kernel k ∈ st.steps → WellBound S k) (fun k hk => by cases hk)
    (fun st kid stream leak hp hl hready hpick hs _ hb => by
      obtain ⟨e, he, hbody⟩ := emission_wellBound hS hp hl hready hpick hs
      refine ⟨e, he, fun k hk => ?_⟩
      rcases he.mem_steps hk with hold | ⟨w, hw⟩ | ⟨v, c, t, ht, -⟩ | hstep | ⟨pt, -, event, hpost⟩
      · exact hb k hold
      · cases hw
      · cases ht
      · exact hbody k hstep.symm
      · cases hpost)
  exact hb

end MemoryAware
end NnEngine
