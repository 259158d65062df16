import NnEngine.Schedule.Scheduler.Reachable

/-!
# Accounting of chunk uses

In a run that never copies a value to another tier, the live uses of every chunk are exactly the
reads of it that are still to be scheduled, and in the end every chunk is free.  A cross-tier copy
breaks the account for good: its chunk is looked up through `value_on_tier`, while `consume` goes
through `value2place`, so that its uses are never taken back.
-/

namespace NnEngine
namespace MemoryAware

open SchedState

variable {S : Schedule} {numStreams : Nat} {placement : KernelId → Device}

/-- The reads of a chunk that are still to be scheduled: one for each input slot, of a kernel that
is left, that holds a value placed in the chunk. -/
def readsLeft (S : Schedule) (st : SchedState) (c : ChunkId) : Nat :=
  (st.slots S).countP fun v => st.value2place v = some (.chunk c)

/-- The account of a state between two kernels. -/
structure Balanced (S : Schedule) (st : SchedState) : Prop where
  live : ∀ c, st.allocator.liveUses c = readsLeft S st c
  nodup : ∀ i s, (st.allocator.freeList i s).Nodup
  unique : ∀ i j s t c, c ∈ st.allocator.freeList i s → c ∈ st.allocator.freeList j t →
    i = j ∧ s = t
  unread : ∀ c, st.allocator.IsFree c → readsLeft S st c = 0

/-- Every state of the run is balanced, and the run ends with every chunk free. -/
structure Accounted (S : Schedule) (numStreams : Nat) (placement : KernelId → Device) : Prop where
  balanced : ∀ s, Reachable S numStreams placement s → Balanced S s.toSchedState
  freed : ∀ s, Reachable S numStreams placement s → (∀ kid ∈ S.kernelIds, s.Scheduled kid) →
    ∀ c : Nat, c < s.allocator.allChunks.length → s.allocator.IsFree c

/-- No input of the kernel has to be copied to the kernel's tier. -/
def NoCopy (env : SchedEnv) (st : SchedState) (kid : Nat) : Prop :=
  ∀ v ∈ (env.schedule.kernel kid).presentInputs, ¬ Copies env st (env.placement kid).tier v

/-- The scheduler's ledger is the account once no use leaks. -/
theorem balanced_of_ledger {ns : Nat} {leak : Nat → Nat} {st : SchedState}
    (h : Ledger ns (st.slots S) (pendOf []) leak none st) (hleak : ∀ c, leak c = 0) :
    Balanced S st where
  live := by
    intro c
    have hbal := h.balance c
    rw [hleak c] at hbal
    exact hbal
  nodup := h.inv.free_nodup
  unique := fun _ _ _ _ _ hc hc' => h.inv.free_unique hc hc'
  unread := fun c hfree => (h.zero ((h.inv.isFree_iff c).mp hfree).2.1).1

/-- In a run without copies no use leaks. -/
theorem Reachable.no_leak (hS : S.WellFormed)
    (hC : RunMeets S numStreams placement (NoCopy (MemoryAware.env S numStreams placement)))
    {s : Scheduler} (h : Reachable S numStreams placement s) :
    ∃ leak, Ledger (MemoryAware.env S numStreams placement).numStreams (s.toSchedState.slots S)
      (pendOf []) leak none s.toSchedState ∧ ∀ c, leak c = 0 := by
  obtain ⟨-, -, leak, hl, hzero⟩ := h.induct hS hC (I := fun _ leak => ∀ c, leak c = 0)
    (fun _ => rfl) (by
      intro st kid stream leak hp hl hready hpick hs hno hzero
      obtain ⟨e, he, hleak, -⟩ := emitKernel_induct hS hp hl hready hpick hs
        (P := fun leak' _ _ _ => leak' = leak) (Q := fun _ _ _ _ _ _ => True) rfl
        (by
          intro leak₁ leak₂ done st₁ st₁' bs v b hv hled hcase _ hor hbound hP
          rcases hor with heq | hcopies
          · exact heq.trans hP
          · have hl₀ : Ledger _ (st.slots S) (pendOf []) leak none
                (entered (MemoryAware.env S numStreams placement) st kid stream) :=
              hl.congr rfl rfl rfl rfl
            have hmem := (hready.slots_perm stream).mem_iff.mpr (List.mem_append_left _ hv)
            rw [hbound.copies_iff hl₀ hmem] at hcopies
            exact absurd hcopies (hno v hv))
        (by intros; trivial) (by intros; trivial)
      exact ⟨e, he, by rw [hleak]; exact hzero⟩)
  exact ⟨leak, hl, hzero⟩

/-- Nothing is left to be read once every kernel is scheduled. -/
theorem slots_eq_nil {st : SchedState} (hall : ∀ kid ∈ S.kernelIds, st.Scheduled kid) :
    st.slots S = [] := by
  rw [List.eq_nil_iff_forall_not_mem]
  intro v hv
  obtain ⟨kid, hk, hun, -⟩ := mem_slots.mp hv
  exact hun (hall kid hk)

/-- Without copies the account is right. -/
theorem accounted_of_noCopy (hS : S.WellFormed)
    (hC : RunMeets S numStreams placement (NoCopy (MemoryAware.env S numStreams placement))) :
    Accounted S numStreams placement where
  balanced := by
    intro s hs
    obtain ⟨leak, hl, hzero⟩ := hs.no_leak hS hC
    exact balanced_of_ledger hl hzero
  freed := by
    intro s hs hall c hc
    obtain ⟨leak, hl, hzero⟩ := hs.no_leak hS hC
    have hlive := (balanced_of_ledger hl hzero).live c
    rw [readsLeft, slots_eq_nil hall] at hlive
    exact (hl.inv.isFree_iff c).mpr ⟨hc, hlive, by simp⟩

/-! ### What a copy does to the account -/

/-- A value that is bound through a copy has the copy on record. -/
theorem InputCase.recorded {env : SchedEnv} {tier : MemoryTier} {stream : Nat}
    {st st' : SchedState} {v : ValueId} {b : ValueBinding}
    (h : InputCase env tier stream st v st' b) (hc : Copies env st tier v) :
    ∃ r, st'.valueOnTier v tier = some r := by
  obtain ⟨hinit, hdef, p, hplace, hneeds⟩ := hc
  cases h with
  | initializer hmem => exact absurd hmem hinit
  | workspace c a first hscr =>
      rw [hdef] at hscr
      cases hscr
  | direct q a first _ _ hq hno =>
      obtain rfl : p = q := by simpa using hplace.symm.trans hq
      exact absurd hneeds hno
  | cached q r _ _ _ _ _ _ hr => exact ⟨r, hr⟩
  | copied q c => exact ⟨⟨.chunk c, st.nextEventId, stream⟩, by simp⟩

/-- Records of copies are kept from one kernel to the next. -/
theorem Emission.Of.copies_kept {env : SchedEnv} {st : SchedState} {kid stream : Nat}
    {leak : Nat → Nat} {e : Emission} (h : e.Of env st kid stream leak) {v : ValueId}
    {t : MemoryTier} {r : TransferRecord} (hr : st.valueOnTier v t = some r) :
    (e.final ⟨env.placement kid, stream⟩).valueOnTier v t = some r := by
  show e.placed.valueOnTier v t = some r
  rw [h.outputsBound.copies]
  exact h.inputsBound.copies v t r hr

/-- A kernel that needs a copy leaves one on record. -/
theorem emission_records (hS : S.WellFormed) {st : SchedState} {kid stream : Nat}
    {leak : Nat → Nat} (hp : Planned (MemoryAware.env S numStreams placement) st)
    (hl : Ledger (MemoryAware.env S numStreams placement).numStreams (st.slots S) (pendOf []) leak
      none st)
    (hready : Ready (MemoryAware.env S numStreams placement) st kid)
    (hpick : pickStream (MemoryAware.env S numStreams placement) st kid = some stream)
    (hs : stream < (MemoryAware.env S numStreams placement).numStreams)
    (hcopy : ¬ NoCopy (MemoryAware.env S numStreams placement) st kid) :
    ∃ e : Emission, e.Of (MemoryAware.env S numStreams placement) st kid stream leak ∧
      ∃ v t r, (e.final ⟨placement kid, stream⟩).valueOnTier v t = some r := by
  have hl₀ : Ledger _ (st.slots S) (pendOf []) leak none
      (entered (MemoryAware.env S numStreams placement) st kid stream) :=
    hl.congr rfl rfl rfl rfl
  obtain ⟨e, he, hrec, -⟩ := emitKernel_induct hS hp hl hready hpick hs
    (P := fun _ done st₁ _ => ∀ v ∈ done,
      Copies (MemoryAware.env S numStreams placement) st (placement kid).tier v →
        ∃ r, st₁.valueOnTier v (placement kid).tier = some r)
    (Q := fun _ _ _ _ _ _ => True) (by simp)
    (by
      intro leak₁ leak₂ done st₁ st₁' bs v b hv _ hcase _ _ hbound hP w hw hc
      rcases List.mem_append.mp hw with hw | hw
      · obtain ⟨r, hr⟩ := hP w hw hc
        exact ⟨r, hcase.valueOnTier hr⟩
      · obtain rfl := List.mem_singleton.mp hw
        have hmem := (hready.slots_perm stream).mem_iff.mpr (List.mem_append_left _ hv)
        exact InputCase.recorded hcase ((hbound.copies_iff hl₀ hmem).mpr hc))
    (by intros; trivial) (by intros; trivial)
  simp only [NoCopy, not_forall, not_not] at hcopy
  obtain ⟨v, hv, hc⟩ := hcopy
  obtain ⟨r, hr⟩ := hrec v hv hc
  refine ⟨e, he, v, (placement kid).tier, r, ?_⟩
  show e.placed.valueOnTier v _ = some r
  rw [he.outputsBound.copies]
  exact hr

/-- A copy is never freed, so a run with a copy does not end with every chunk free. -/
theorem noCopy_of_accounted (hS : S.WellFormed) (hacc : Accounted S numStreams placement) :
    RunMeets S numStreams placement (NoCopy (MemoryAware.env S numStreams placement)) := by
  intro s kid hs hpick
  by_contra hcopy
  obtain ⟨hp, hq, leak, hl⟩ := hs.good hS
  have hready := (hq.ready kid).mp (minBy?_mem hpick)
  obtain ⟨stream, hstream, hlt⟩ := pickStream_total numStreams_pos hp hready.preds
  obtain ⟨e, he, v, t, r, hr⟩ := emission_records hS hp hl hready hstream hlt hcopy
  obtain ⟨s', -, -, e', hs', -, -, hfinal⟩ := turn_exists hS hs hpick
  have hsame : s'.toSchedState = e.final ⟨placement kid, stream⟩ := by
    have h₁ := scheduleKernel_eq_some hs'
    rw [he.eq] at h₁
    exact (Option.some.inj h₁).symm
  have hs'' : Reachable S numStreams placement s' := .turn s s' kid hs hpick hs'
  -- run on to the end: the copy's record stays, and with it a use of its chunk
  obtain ⟨s₂, -, hs₂, hall, hkept⟩ := runLoop_complete hS
    (R := fun a b => ∀ v t r, a.valueOnTier v t = some r → b.valueOnTier v t = some r)
    (fun _ _ _ _ h => h) (fun _ _ _ hab hbc v t r h => hbc v t r (hab v t r h))
    (fun _ _ _ _ _ he _ _ _ h => he.copies_kept h)
    ((s'.toSchedState.unscheduled S).length + 1) s' hs'' (Nat.lt_succ_self _)
  have hr₂ := hkept v t r (by rw [hsame]; exact hr)
  obtain ⟨-, -, leak₂, hl₂⟩ := hs₂.good hS
  obtain ⟨c, hrc, hpos⟩ := hl₂.copied v t r hr₂
  have hlive := hl₂.live_of_copy hr₂ hrc
  have hfree := hacc.freed s₂ hs₂ hall c (lt_of_liveUses_pos hlive)
  exact hl₂.inv.not_isFree_of_live hlive hfree

/-- The account of live uses is right exactly when the run makes no cross-tier copy. -/
theorem accounted_iff_noCopy (hS : S.WellFormed) : Accounted S numStreams placement ↔
    RunMeets S numStreams placement (NoCopy (MemoryAware.env S numStreams placement)) :=
  ⟨noCopy_of_accounted hS, accounted_of_noCopy hS⟩

/-- One kernel that reads a caller's input. -/
def softmaxOfInput : Schedule where
  inputs := [0]
  outputs := [1]
  initializers := []
  sessionStates := []
  kernels := [.unary (.softmax ⟨-1⟩) 0 1]
  valueType := fun _ => .new (.float .F32) [4]

/-- On the GPU the input is copied, and its chunk stays in use after the run. -/
theorem softmaxOfInput_not_accounted : softmaxOfInput.WellFormed ∧
    ¬ Accounted softmaxOfInput 1 fun _ => .CUDA := by
  refine ⟨by decide, fun hacc => ?_⟩
  have hmeets := noCopy_of_accounted (by decide) hacc
  have hno := hmeets _ 0 .init (by decide)
  exact hno 0 (by decide) ⟨by decide, by decide, .input 0, by decide, by decide, by decide⟩

/-- The equivalence at a concrete schedule and placement. -/
theorem softmaxOfInput_accounted_iff : Accounted softmaxOfInput 1 (fun _ => .CUDA) ↔
    RunMeets softmaxOfInput 1 (fun _ => .CUDA)
      (NoCopy (MemoryAware.env softmaxOfInput 1 fun _ => .CUDA)) :=
  accounted_iff_noCopy (by decide)

end MemoryAware
end NnEngine
