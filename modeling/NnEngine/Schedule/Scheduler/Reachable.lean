import NnEngine.Schedule.Scheduler.Run

/-!
# Reachable states of the memory-aware scheduler

`Queue` ties the ready set and the pending counts to the kernels that are scheduled.  `Reachable`
collects the states of the scheduler's loop, and `Reachable.induct` is the induction rule for runs
all of whose turns meet a condition.  `run_complete` shows that the loop never panics, ends within
its fuel, and schedules every kernel.
-/

namespace NnEngine
namespace MemoryAware

open SchedState

variable {S : Schedule} {numStreams : Nat} {placement : KernelId → Device} {s s' : Scheduler}
  {env : SchedEnv} {kid : Nat}

/-- The ready set and the pending counts. -/
structure Queue (env : SchedEnv) (s : Scheduler) : Prop where
  pending : ∀ kid ∈ env.schedule.kernelIds, ¬ s.Scheduled kid → s.kernelPending kid =
    ((env.schedule.kernelPreds kid).filter fun pred => ¬ s.Scheduled pred).length
  ready : ∀ kid, kid ∈ s.ready ↔ Ready env s.toSchedState kid

/-- The states of the loop of `run`. -/
inductive Reachable (S : Schedule) (numStreams : Nat) (placement : KernelId → Device) :
    Scheduler → Prop
  | init : Reachable S numStreams placement (Scheduler.new S numStreams placement)
  | turn (s s' : Scheduler) (kid : Nat) (hs : Reachable S numStreams placement s)
      (hpick : pickBest S s = some kid)
      (hstep : scheduleKernel (MemoryAware.env S numStreams placement) (s.removeReady kid) kid = some s') :
      Reachable S numStreams placement s'

/-- Every turn of the run meets the condition on the state before it. -/
def RunMeets (S : Schedule) (numStreams : Nat) (placement : KernelId → Device)
    (C : SchedState → Nat → Prop) : Prop :=
  ∀ s kid, Reachable S numStreams placement s → pickBest S s = some kid → C s.toSchedState kid

/-! ### The ready set -/

theorem foldl_advanceReady (l : List Nat) (hnd : l.Nodup) (s : Scheduler) :
    (l.foldl advanceReady s).toSchedState = s.toSchedState ∧
      (∀ k, (l.foldl advanceReady s).kernelPending k =
        if k ∈ l then s.kernelPending k - 1 else s.kernelPending k) ∧
      ∀ k, k ∈ (l.foldl advanceReady s).ready ↔
        k ∈ s.ready ∨ k ∈ l ∧ s.kernelPending k - 1 = 0 := by
  induction l generalizing s with
  | nil => simp
  | cons c l ih =>
      obtain ⟨hc, hl⟩ := List.nodup_cons.mp hnd
      obtain ⟨hst, hpend, hready⟩ := ih hl (advanceReady s c)
      rw [List.foldl_cons]
      refine ⟨hst, ?_, ?_⟩
      · intro k
        rw [hpend k]
        by_cases hkc : k = c
        · subst hkc
          simp [hc, advanceReady]
        · simp [hkc, advanceReady]
      · intro k
        rw [hready k]
        have hmem : k ∈ (advanceReady s c).ready ↔
            k ∈ s.ready ∨ k = c ∧ s.kernelPending c - 1 = 0 := by
          unfold advanceReady
          by_cases hzero : s.kernelPending c - 1 = 0
          · simp [hzero, or_comm]
          · simp [hzero]
        rw [hmem]
        by_cases hkc : k = c
        · subst hkc
          simp [hc]
        · simp [hkc, advanceReady]

theorem toSchedState_removeReady : (s.removeReady kid).toSchedState = s.toSchedState := rfl

/-- The kernel's own part of `schedule_kernel` decides the shared state. -/
theorem scheduleKernel_eq_some (h : scheduleKernel env (s.removeReady kid) kid = some s') :
    emitKernel env s.toSchedState kid = some s'.toSchedState := by
  unfold scheduleKernel at h
  rw [toSchedState_removeReady] at h
  obtain ⟨st, hst, hfold⟩ := Option.map_eq_some_iff.mp h
  have hnd : (env.schedule.kernelConsumers kid).Nodup := List.Nodup.filter _ List.nodup_range
  have := (foldl_advanceReady _ hnd { s.removeReady kid with toSchedState := st }).1
  rw [hst, ← hfold, this]

theorem nodup_kernelPreds : (env.schedule.kernelPreds kid).Nodup := List.nodup_dedup _

/-- A filter loses one element when one element stops to pass. -/
theorem length_filter_remove {l : List Nat} (hnd : l.Nodup) {p q : Nat → Prop} [DecidablePred p]
    [DecidablePred q] {a : Nat} (ha : a ∈ l) (hpa : p a) (hqa : ¬ q a)
    (hpq : ∀ b ∈ l, b ≠ a → (q b ↔ p b)) :
    (l.filter fun b => q b).length = (l.filter fun b => p b).length - 1 := by
  have hmem : a ∈ l.filter fun b => p b := by simp [ha, hpa]
  have hnd' : (l.filter fun b => p b).Nodup := hnd.filter _
  have heq : (l.filter fun b => q b) = (l.filter fun b => p b).erase a := by
    rw [hnd'.erase_eq_filter, List.filter_filter]
    apply List.filter_congr
    intro b hb
    by_cases hba : b = a
    · subst hba
      simp [hqa]
    · simp [hba, hpq b hb hba]
  rw [heq, List.length_erase_of_mem hmem]

theorem Queue.step (hq : Queue env s) (hready : Ready env s.toSchedState kid)
    (hclosed : ∀ j, s.Scheduled j → ∀ pred ∈ env.schedule.kernelPreds j, s.Scheduled pred)
    (hsched : ∀ j, s'.Scheduled j ↔ s.Scheduled j ∨ j = kid)
    (h : scheduleKernel env (s.removeReady kid) kid = some s') : Queue env s' := by
  unfold scheduleKernel at h
  rw [toSchedState_removeReady] at h
  obtain ⟨st, hst, hfold⟩ := Option.map_eq_some_iff.mp h
  have hnd : (env.schedule.kernelConsumers kid).Nodup := List.Nodup.filter _ List.nodup_range
  obtain ⟨-, hpend, hrdy⟩ :=
    foldl_advanceReady _ hnd { s.removeReady kid with toSchedState := st }
  rw [hfold] at hpend hrdy
  have hpending : ∀ j ∈ env.schedule.kernelIds, ¬ s'.Scheduled j → s'.kernelPending j =
      ((env.schedule.kernelPreds j).filter fun pred => ¬ s'.Scheduled pred).length := by
    intro j hj hun
    have hunOld : ¬ s.Scheduled j := fun hs => hun ((hsched j).mpr (Or.inl hs))
    rw [hpend j]
    show (if j ∈ env.schedule.kernelConsumers kid then s.kernelPending j - 1
      else s.kernelPending j) = _
    rw [hq.pending j hj hunOld]
    by_cases hcons : kid ∈ env.schedule.kernelPreds j
    · rw [if_pos (Schedule.mem_kernelConsumers.mpr ⟨hj, hcons⟩)]
      symm
      apply length_filter_remove nodup_kernelPreds hcons hready.unscheduled
      · exact fun hnot => hnot ((hsched kid).mpr (Or.inr rfl))
      · intro b _ hb
        rw [hsched b]
        simp [hb]
    · rw [if_neg fun hmem => hcons (Schedule.mem_kernelConsumers.mp hmem).2]
      congr 1
      apply List.filter_congr
      intro b hb
      have hbk : b ≠ kid := fun hbk => hcons (hbk ▸ hb)
      simp [hsched b, hbk]
  refine { pending := hpending, ready := ?_ }
  intro j
  rw [hrdy j]
  show (j ∈ s.ready.filter (· != kid) ∨ j ∈ env.schedule.kernelConsumers kid ∧
    s.kernelPending j - 1 = 0) ↔ _
  constructor
  · rintro (hmem | ⟨hcons, hzero⟩)
    · obtain ⟨hmem, hne⟩ := List.mem_filter.mp hmem
      have hj := (hq.ready j).mp hmem
      exact ⟨hj.mem, fun hs => ((hsched j).mp hs).elim hj.unscheduled (by simpa using hne),
        fun pred hp => (hsched pred).mpr (Or.inl (hj.preds pred hp))⟩
    · obtain ⟨hj, hpred⟩ := Schedule.mem_kernelConsumers.mp hcons
      have hunOld : ¬ s.Scheduled j := fun hs => hready.unscheduled (hclosed j hs kid hpred)
      have hjk : j ≠ kid := fun hjk => (Schedule.mem_kernelPreds.mp hpred).1 hjk.symm
      have hun : ¬ s'.Scheduled j := fun hs => ((hsched j).mp hs).elim hunOld hjk
      refine ⟨hj, hun, ?_⟩
      have hcount := hpending j hj hun
      rw [hpend j] at hcount
      have hval : (if j ∈ env.schedule.kernelConsumers kid then s.kernelPending j - 1
        else s.kernelPending j) = _ := hcount
      rw [if_pos hcons, hzero] at hval
      have hnil := List.eq_nil_of_length_eq_zero hval.symm
      intro pred hp
      by_contra hnot
      have : pred ∈ (env.schedule.kernelPreds j).filter fun pred => ¬ s'.Scheduled pred := by
        simp [hp, hnot]
      rw [hnil] at this
      cases this
  · intro hj
    have hunOld : ¬ s.Scheduled j := fun hs => hj.unscheduled ((hsched j).mpr (Or.inl hs))
    have hjk : j ≠ kid := fun hjk => hj.unscheduled ((hsched j).mpr (Or.inr hjk))
    by_cases hcons : kid ∈ env.schedule.kernelPreds j
    · right
      have hmem := Schedule.mem_kernelConsumers.mpr ⟨hj.mem, hcons⟩
      refine ⟨hmem, ?_⟩
      have hcount := hpending j hj.mem hj.unscheduled
      rw [hpend j] at hcount
      have hval : (if j ∈ env.schedule.kernelConsumers kid then s.kernelPending j - 1
        else s.kernelPending j) = _ := hcount
      rw [if_pos hmem] at hval
      rw [hval, List.length_eq_zero_iff, List.filter_eq_nil_iff]
      intro pred hp
      simpa using hj.preds pred hp
    · left
      refine List.mem_filter.mpr ⟨(hq.ready j).mpr ⟨hj.mem, hunOld, ?_⟩, by simpa using hjk⟩
      intro pred hp
      rcases (hsched pred).mp (hj.preds pred hp) with hs | rfl
      · exact hs
      · exact absurd hp hcons

/-! ### Runs -/

theorem numStreams_pos : 0 < (MemoryAware.env S numStreams placement).numStreams := by
  show 0 < streamsFor S numStreams placement
  unfold streamsFor
  split <;> omega

theorem planned_new (hS : S.WellFormed) : Planned (MemoryAware.env S numStreams placement)
    (Scheduler.new S numStreams placement).toSchedState where
  known := by intro kid i h; cases h
  nodup := List.nodup_nil
  closed := by intro kid h; cases h
  source := fun _ _ h => h
  produced := by
    intro kid hk v hv
    show (S.sourcePlace v).isSome = true ↔ _
    rw [hS.source_unproduced kid hk v hv]
    simp [Scheduled, Scheduler.new, SchedState.new]
  scratch := by
    intro v hscr hplace
    exfalso
    apply hplace
    show S.sourcePlace v = none
    by_contra hne
    have hsome := Option.isSome_iff_ne_none.mpr hne
    rw [Schedule.sourcePlace_isSome] at hsome
    have hdef : S.isScratch v = true := hscr
    simp only [Schedule.isScratch, Schedule.isWorkspace] at hdef
    rcases hsome with h | h | h <;> simp [h] at hdef
  load := List.length_replicate

theorem slots_new : (Scheduler.new S numStreams placement).toSchedState.slots S = S.allSlots := by
  have hun : (Scheduler.new S numStreams placement).toSchedState.unscheduled S = S.kernelIds := by
    apply List.filter_eq_self.mpr
    intro kid _
    simp [Scheduled, Scheduler.new, SchedState.new]
  rw [SchedState.slots, hun, Schedule.allSlots]

theorem ledger_new : Ledger (MemoryAware.env S numStreams placement).numStreams
    ((Scheduler.new S numStreams placement).toSchedState.slots S) (pendOf []) (fun _ => 0) none
    (Scheduler.new S numStreams placement).toSchedState where
  inv := ChunkAllocator.Inv.empty _
  uses := by
    intro v
    rw [slots_new]
    exact Schedule.valueUsesCount_eq
  balance := by
    intro c
    have hreads : (Scheduler.new S numStreams placement).toSchedState.readsAt
        ((Scheduler.new S numStreams placement).toSchedState.slots S) c = 0 := by
      rw [readsAt, List.countP_eq_zero]
      intro v _
      simp only [decide_eq_true_eq]
      intro hplace
      exact Schedule.sourcePlace_not_chunk hplace c rfl
    rw [hreads]
    simp [Scheduler.new, SchedState.new, ChunkAllocator.liveUses, ChunkAllocator.chunk, pendOf,
      default]
  copied := by intro v t r h; cases h

theorem queue_new : Queue (MemoryAware.env S numStreams placement)
    (Scheduler.new S numStreams placement) := by
  have hnone : ∀ kid, ¬ (Scheduler.new S numStreams placement).Scheduled kid := by
    intro kid h
    cases h
  refine { pending := ?_, ready := ?_ }
  · intro kid _ _
    show (S.kernelPreds kid).length = _
    congr 1
    symm
    apply List.filter_eq_self.mpr
    intro pred _
    simp [hnone pred]
  · intro kid
    show kid ∈ S.kernelIds.filter (fun kid => (S.kernelPreds kid).length == 0) ↔ _
    rw [List.mem_filter]
    constructor
    · rintro ⟨hk, hzero⟩
      refine ⟨hk, hnone kid, ?_⟩
      have hnil : S.kernelPreds kid = [] := by simpa using hzero
      intro pred hp
      have hp' : pred ∈ S.kernelPreds kid := hp
      rw [hnil] at hp'
      cases hp'
    · intro h
      refine ⟨h.mem, ?_⟩
      have hnil : S.kernelPreds kid = [] := by
        apply List.eq_nil_iff_forall_not_mem.mpr
        intro pred hp
        exact hnone pred (h.preds pred hp)
      simp [hnil]

/-- An invariant that every emission keeps holds in every state of a run whose turns meet the
condition, together with the scheduler's own invariants. -/
theorem Reachable.induct (hS : S.WellFormed) {C : SchedState → Nat → Prop}
    (hC : RunMeets S numStreams placement C) {I : SchedState → (Nat → Nat) → Prop}
    (hinit : I (Scheduler.new S numStreams placement).toSchedState fun _ => 0)
    (hstep : ∀ st kid stream leak, Planned (MemoryAware.env S numStreams placement) st →
      Ledger (MemoryAware.env S numStreams placement).numStreams (st.slots S) (pendOf []) leak none
        st →
      Ready (MemoryAware.env S numStreams placement) st kid →
      pickStream (MemoryAware.env S numStreams placement) st kid = some stream →
      stream < (MemoryAware.env S numStreams placement).numStreams → C st kid → I st leak →
      ∃ e : Emission, e.Of (MemoryAware.env S numStreams placement) st kid stream leak ∧
        I (e.final ⟨placement kid, stream⟩) e.leak)
    (h : Reachable S numStreams placement s) :
    Planned (MemoryAware.env S numStreams placement) s.toSchedState ∧
      Queue (MemoryAware.env S numStreams placement) s ∧
      ∃ leak, Ledger (MemoryAware.env S numStreams placement).numStreams
        (s.toSchedState.slots S) (pendOf []) leak none s.toSchedState ∧ I s.toSchedState leak := by
  induction h with
  | init => exact ⟨planned_new hS, queue_new, _, ledger_new, hinit⟩
  | turn s s' kid hs hpick hturn ih =>
      obtain ⟨hp, hq, leak, hl, hI⟩ := ih
      have hready := (hq.ready kid).mp (minBy?_mem hpick)
      obtain ⟨stream, hstream, hlt⟩ := pickStream_total numStreams_pos hp hready.preds
      obtain ⟨e, he, hI'⟩ :=
        hstep s.toSchedState kid stream leak hp hl hready hstream hlt (hC s kid hs hpick) hI
      have hfinal : s'.toSchedState = e.final ⟨placement kid, stream⟩ := by
        have h₁ := scheduleKernel_eq_some hturn
        rw [he.eq] at h₁
        exact (Option.some.inj h₁).symm
      refine ⟨?_, ?_, e.leak, ?_, ?_⟩
      · rw [hfinal]
        exact he.planned hS hp hready hlt
      · apply hq.step hready hp.closed _ hturn
        intro j
        rw [hfinal]
        exact he.scheduled
      · rw [hfinal]
        have hslots : (e.final ⟨placement kid, stream⟩).slots S =
          laterSlots (MemoryAware.env S numStreams placement) s.toSchedState kid stream := he.slots
        rw [hslots]
        exact he.ledger
      · rw [hfinal]
        exact hI'

/-- The emission of a ready kernel, without an invariant of its own. -/
theorem emission_exists (hS : env.schedule.WellFormed) {st : SchedState} {leak : Nat → Nat}
    {stream : Nat} (hp : Planned env st)
    (hl : Ledger env.numStreams (st.slots env.schedule) (pendOf []) leak none st)
    (hready : Ready env st kid) (hpick : pickStream env st kid = some stream)
    (hs : stream < env.numStreams) : ∃ e : Emission, e.Of env st kid stream leak := by
  obtain ⟨e, he, -, -⟩ := emitKernel_induct hS hp hl hready hpick hs
    (P := fun _ _ _ _ => True) (Q := fun _ _ _ _ _ _ => True) trivial
    (by intros; trivial) (by intros; trivial) (by intros; trivial)
  exact ⟨e, he⟩

/-- The scheduler's own invariants hold in every reachable state. -/
theorem Reachable.good (hS : S.WellFormed) (h : Reachable S numStreams placement s) :
    Planned (MemoryAware.env S numStreams placement) s.toSchedState ∧
      Queue (MemoryAware.env S numStreams placement) s ∧
      ∃ leak, Ledger (MemoryAware.env S numStreams placement).numStreams
        (s.toSchedState.slots S) (pendOf []) leak none s.toSchedState := by
  obtain ⟨hp, hq, leak, hl, -⟩ := h.induct hS (C := fun _ _ => True) (I := fun _ _ => True)
    (fun _ _ _ _ => trivial) trivial
    (fun st kid stream leak hp hl hready hpick hs _ _ =>
      (emission_exists hS hp hl hready hpick hs).imp fun e he => ⟨he, trivial⟩)
  exact ⟨hp, hq, leak, hl⟩

/-! ### The whole run -/

/-- While a kernel is left, one is ready: the first one in arena order. -/
theorem Queue.exists_ready (hS : env.schedule.WellFormed) (hq : Queue env s) {kid : Nat}
    (hk : kid ∈ env.schedule.kernelIds) (hun : ¬ s.Scheduled kid) : s.ready ≠ [] := by
  induction kid using Nat.strongRecOn with
  | ind kid ih =>
      by_cases hpreds : ∀ pred ∈ env.schedule.kernelPreds kid, s.Scheduled pred
      · have hmem := (hq.ready kid).mpr ⟨hk, hun, hpreds⟩
        intro hnil
        rw [hnil] at hmem
        cases hmem
      · simp only [not_forall] at hpreds
        obtain ⟨pred, hp, hpun⟩ := hpreds
        obtain ⟨hpk, hlt⟩ := hS.pred_lt hk hp
        exact ih pred hlt hpk hpun

/-- One turn: the best ready kernel is scheduled. -/
theorem turn_exists (hS : S.WellFormed) (h : Reachable S numStreams placement s)
    (hpick : pickBest S s = some kid) :
    ∃ s' stream leak, ∃ e : Emission,
      scheduleKernel (MemoryAware.env S numStreams placement) (s.removeReady kid) kid = some s' ∧
      Ready (MemoryAware.env S numStreams placement) s.toSchedState kid ∧
      e.Of (MemoryAware.env S numStreams placement) s.toSchedState kid stream leak ∧
      s'.toSchedState = e.final ⟨placement kid, stream⟩ := by
  obtain ⟨hp, hq, leak, hl⟩ := h.good hS
  have hready := (hq.ready kid).mp (minBy?_mem hpick)
  obtain ⟨stream, hstream, hlt⟩ := pickStream_total numStreams_pos hp hready.preds
  obtain ⟨e, he⟩ := emission_exists hS hp hl hready hstream hlt
  have hemit : emitKernel (MemoryAware.env S numStreams placement) (s.removeReady kid).toSchedState
      kid = some (e.final ⟨placement kid, stream⟩) := he.eq
  obtain ⟨s', hs'⟩ : ∃ s', scheduleKernel (MemoryAware.env S numStreams placement)
      (s.removeReady kid) kid = some s' := by
    unfold scheduleKernel
    rw [hemit]
    exact ⟨_, rfl⟩
  refine ⟨s', stream, leak, e, hs', hready, he, ?_⟩
  have h₁ := scheduleKernel_eq_some hs'
  rw [he.eq] at h₁
  exact (Option.some.inj h₁).symm

/-- The kernels that are left get fewer. -/
theorem length_unscheduled_lt {st st' : SchedState} (hk : kid ∈ S.kernelIds)
    (hun : ¬ st.Scheduled kid) (hsched : ∀ j, st'.Scheduled j ↔ st.Scheduled j ∨ j = kid) :
    (st'.unscheduled S).length < (st.unscheduled S).length := by
  have hlen := length_filter_remove (List.nodup_range (n := S.kernels.length))
    (p := fun j => ¬ st.Scheduled j) (q := fun j => ¬ st'.Scheduled j) (a := kid) hk hun
    (by simp [hsched kid]) (fun j _ hj => by simp [hsched j, hj])
  have hpos : 0 < (st.unscheduled S).length :=
    List.length_pos_of_mem (mem_unscheduled.mpr ⟨hk, hun⟩)
  rw [SchedState.unscheduled] at hpos ⊢
  rw [SchedState.unscheduled]
  unfold Schedule.kernelIds at hpos ⊢
  omega

/-- From any reachable state the loop ends with every kernel scheduled, and a relation that every
turn keeps holds between the two states. -/
theorem runLoop_complete (hS : S.WellFormed) {R : SchedState → SchedState → Prop}
    (hrefl : ∀ st, R st st) (htrans : ∀ a b c, R a b → R b c → R a c)
    (hturn : ∀ st kid stream leak, ∀ e : Emission,
      e.Of (MemoryAware.env S numStreams placement) st kid stream leak →
      R st (e.final ⟨placement kid, stream⟩)) : ∀ (fuel : Nat) (s : Scheduler),
    Reachable S numStreams placement s → (s.toSchedState.unscheduled S).length < fuel →
    ∃ s', runLoop (MemoryAware.env S numStreams placement) fuel s = some s' ∧
      Reachable S numStreams placement s' ∧ (∀ kid ∈ S.kernelIds, s'.Scheduled kid) ∧
      R s.toSchedState s'.toSchedState := by
  intro fuel
  induction fuel with
  | zero => intro s _ hlt; omega
  | succ fuel ih =>
      intro s hs hlt
      rw [runLoop]
      cases hpick : pickBest (MemoryAware.env S numStreams placement).schedule s with
      | none =>
          refine ⟨s, rfl, hs, fun kid hk => ?_, hrefl _⟩
          by_contra hun
          obtain ⟨-, hq, -⟩ := hs.good hS
          exact hq.exists_ready hS hk hun (minBy?_eq_none hpick)
      | some kid =>
          obtain ⟨s', stream, leak, e, hs', hready, he, hfinal⟩ := turn_exists hS hs hpick
          dsimp only
          rw [hs']
          have hk : kid ∈ S.kernelIds := hready.mem
          have hsched : ∀ j, s'.Scheduled j ↔ s.Scheduled j ∨ j = kid := by
            intro j
            rw [hfinal]
            exact he.scheduled
          have hless := length_unscheduled_lt hk hready.unscheduled hsched
          obtain ⟨s₂, hrun, hs₂, hall, hR⟩ :=
            ih s' (.turn s s' kid hs hpick hs') (by omega)
          refine ⟨s₂, hrun, hs₂, hall, htrans _ _ _ ?_ hR⟩
          rw [hfinal]
          exact hturn _ kid stream leak e he

/-- The run schedules every kernel. -/
theorem runKernels_complete (hS : S.WellFormed) (numStreams : Nat)
    (placement : KernelId → Device) :
    ∃ s, runKernels S numStreams placement = some s ∧ Reachable S numStreams placement s ∧
      ∀ kid ∈ S.kernelIds, s.Scheduled kid := by
  have hle : ((Scheduler.new S numStreams placement).toSchedState.unscheduled S).length ≤
      S.kernelIds.length := List.length_filter_le _ _
  have hlen : S.kernelIds.length = S.kernels.length := List.length_range
  obtain ⟨s, hrun, hs, hall, -⟩ := runLoop_complete hS (R := fun _ _ => True) (fun _ => trivial)
    (fun _ _ _ _ _ => trivial) (fun _ _ _ _ _ _ => trivial) (S.kernels.length + 1)
    (Scheduler.new S numStreams placement) .init (by omega)
  exact ⟨s, hrun, hs, hall⟩

theorem runLoop_mono {fuel : Nat} (n : Nat) (h : runLoop env fuel s = some s') :
    runLoop env (fuel + n) s = some s' := by
  induction fuel generalizing s with
  | zero => cases h
  | succ fuel ih =>
      rw [Nat.add_right_comm, runLoop]
      rw [runLoop] at h
      cases hpick : pickBest env.schedule s with
      | none =>
          rw [hpick] at h
          exact h
      | some kid =>
          rw [hpick] at h
          dsimp only at h ⊢
          cases hturn : scheduleKernel env (s.removeReady kid) kid with
          | none =>
              rw [hturn] at h
              cases h
          | some s₁ =>
              rw [hturn] at h
              exact ih h

/-- The loop passes through every reachable state. -/
theorem Reachable.runLoop_eq (h : Reachable S numStreams placement s) : ∃ n, ∀ fuel,
    runLoop (MemoryAware.env S numStreams placement) (fuel + n) (Scheduler.new S numStreams placement) =
      runLoop (MemoryAware.env S numStreams placement) fuel s := by
  induction h with
  | init => exact ⟨0, fun _ => rfl⟩
  | turn s s' kid hs hpick hturn ih =>
      obtain ⟨n, hn⟩ := ih
      refine ⟨n + 1, fun fuel => ?_⟩
      have hstep : runLoop (MemoryAware.env S numStreams placement) (fuel + 1) s =
          runLoop (MemoryAware.env S numStreams placement) fuel s' := by
        have hpick' : pickBest (MemoryAware.env S numStreams placement).schedule s = some kid := hpick
        rw [runLoop, hpick']
        dsimp only
        rw [hturn]
      rw [← hstep, ← hn, Nat.add_right_comm, Nat.add_assoc]

/-- The run has one end. -/
theorem Reachable.end_unique (hS : S.WellFormed) (h : Reachable S numStreams placement s)
    (h' : Reachable S numStreams placement s') (hall : ∀ kid ∈ S.kernelIds, s.Scheduled kid)
    (hall' : ∀ kid ∈ S.kernelIds, s'.Scheduled kid) : s = s' := by
  have hend : ∀ s₁, Reachable S numStreams placement s₁ → (∀ kid ∈ S.kernelIds, s₁.Scheduled kid) →
      ∃ n, runLoop (MemoryAware.env S numStreams placement) n (Scheduler.new S numStreams placement) =
        some s₁ := by
    intro s₁ hs₁ hall₁
    obtain ⟨n, hn⟩ := hs₁.runLoop_eq
    obtain ⟨-, hq, -⟩ := hs₁.good hS
    have hnil : s₁.ready = [] := by
      rw [List.eq_nil_iff_forall_not_mem]
      intro j hj
      have hready := (hq.ready j).mp hj
      exact hready.unscheduled (hall₁ j hready.mem)
    refine ⟨1 + n, ?_⟩
    rw [hn, runLoop]
    have hpick : pickBest (MemoryAware.env S numStreams placement).schedule s₁ = none := by
      rw [pickBest, hnil]
      rfl
    rw [hpick]
  obtain ⟨n, hn⟩ := hend s h hall
  obtain ⟨n', hn'⟩ := hend s' h' hall'
  have h₁ := runLoop_mono n' hn
  have h₂ := runLoop_mono n hn'
  rw [Nat.add_comm, h₂] at h₁
  exact (Option.some.inj h₁).symm

end MemoryAware

/-! ### `finalize_outputs` -/

namespace SchedState

variable {env : SchedEnv} {st : SchedState}

/-- The context of a trailing transfer: the producer's, or the host. -/
def finalContext (S : Schedule) (st : SchedState) (v : ValueId) : ExecutionContext :=
  match (S.value2producer v).bind st.info? with
  | some i => ⟨i.device, i.stream⟩
  | none => ⟨.CPU, 0⟩

/-- The place that an output still has to be copied from. -/
def undelivered (already : List ValueId) (st : SchedState) (v : ValueId) : Option AllocPlace :=
  if already.contains v then none
  else (st.value2place v).filter fun p => !isOutputPlace p

/-- The trailing transfers, with their events. -/
def finalSteps (S : Schedule) (already : List ValueId) (st : SchedState) :
    Nat → List ValueId → List Step
  | _, [] => []
  | n, v :: outputs =>
      match undelivered already st v with
      | none => finalSteps S already st n outputs
      | some p =>
          .transfer
            { src := ⟨v, .input, p, false⟩
              dst := ⟨v, .output, .output v, false⟩
              context := finalContext S st v
              recordsEvent := some n } :: finalSteps S already st (n + 1) outputs

/-- The trailing transfers depend on the places and on the kernels' streams. -/
theorem finalSteps_congr (st' : SchedState) {S : Schedule} {already : List ValueId}
    (hplace : st.value2place = st'.value2place) (hinfo : st.kernelInfo = st'.kernelInfo) :
    ∀ (outputs : List ValueId) (n : Nat),
      finalSteps S already st n outputs = finalSteps S already st' n outputs := by
  have hund : ∀ v, undelivered already st v = undelivered already st' v := by
    intro v
    rw [undelivered, undelivered, hplace]
  have hctx : ∀ v, finalContext S st v = finalContext S st' v := by
    intro v
    have hi : st.info? = st'.info? := by
      funext kid
      rw [SchedState.info?, SchedState.info?, hinfo]
    rw [finalContext, finalContext, hi]
  intro outputs
  induction outputs with
  | nil => intro n; rfl
  | cons v outputs ih =>
      intro n
      simp only [finalSteps, hund v, hctx v, ih]

/-- `finalize_outputs` does not panic once every kernel is scheduled, and only appends its
transfers. -/
theorem finalizeOutputs_spec (S : Schedule) (already : List ValueId) :
    ∀ (outputs : List ValueId) (st : SchedState), (∀ kid ∈ S.kernelIds, st.Scheduled kid) →
      outputs.foldlM (finalizeOutput S already) st = some
        { st with
          nextEventId := st.nextEventId + (finalSteps S already st st.nextEventId outputs).length
          steps := st.steps ++ finalSteps S already st st.nextEventId outputs } := by
  intro outputs
  induction outputs with
  | nil => intro st _; simp [finalSteps]
  | cons v outputs ih =>
      intro st hall
      rw [List.foldlM_cons, Option.bind_eq_bind]
      cases hund : undelivered already st v with
      | none =>
          have hskip : finalizeOutput S already st v = some st := by
            unfold undelivered at hund
            unfold finalizeOutput
            split at hund
            · rename_i hmem
              rw [if_pos hmem]
            · rename_i hmem
              rw [if_neg hmem]
              cases hplace : st.value2place v with
              | none => rfl
              | some p =>
                  simp only [hplace, Option.filter_some] at hund
                  cases hout : isOutputPlace p with
                  | true => simp [hout]
                  | false => simp [hout] at hund
          rw [hskip, Option.bind_some, ih st hall]
          simp [finalSteps, hund]
      | some p =>
          have hpush : finalizeOutput S already st v = some
              { st with
                nextEventId := st.nextEventId + 1
                steps := st.steps ++ [.transfer
                  { src := ⟨v, .input, p, false⟩
                    dst := ⟨v, .output, .output v, false⟩
                    context := finalContext S st v
                    recordsEvent := some st.nextEventId }] } := by
            unfold undelivered at hund
            unfold finalizeOutput
            split at hund
            · cases hund
            · rename_i hmem
              rw [if_neg hmem]
              cases hplace : st.value2place v with
              | none => simp [hplace] at hund
              | some q =>
                  simp only [hplace, Option.filter_some] at hund
                  cases hout : isOutputPlace q with
                  | true => simp [hout] at hund
                  | false =>
                      obtain rfl : q = p := by simpa [hout] using hund
                      unfold finalContext
                      cases hprod : S.value2producer v with
                      | none => simp [hout, freshEvent, pushStep]
                      | some kid =>
                          obtain ⟨hk, -⟩ := Schedule.value2producer_some hprod
                          obtain ⟨i, hi⟩ := (hall kid hk).info?
                          simp [hout, hi, freshEvent, pushStep]
          rw [hpush, Option.bind_some]
          generalize hnew : ({ st with
                nextEventId := st.nextEventId + 1
                steps := st.steps ++ [.transfer
                  { src := ⟨v, .input, p, false⟩
                    dst := ⟨v, .output, .output v, false⟩
                    context := finalContext S st v
                    recordsEvent := some st.nextEventId }] } : SchedState) = st₁
          have hplace : st₁.value2place = st.value2place := by rw [← hnew]
          have hinfo : st₁.kernelInfo = st.kernelInfo := by rw [← hnew]
          have hall₁ : ∀ kid ∈ S.kernelIds, st₁.Scheduled kid := by
            rw [← hnew]
            exact hall
          rw [ih st₁ hall₁, finalSteps_congr st hplace hinfo, ← hnew]
          simp [finalSteps, hund, Nat.add_assoc, Nat.add_comm 1]

/-- A trailing transfer reads an output at a place outside the caller's buffers and writes that
output's buffer. -/
theorem mem_finalSteps {S : Schedule} {already : List ValueId} {outputs : List ValueId}
    {step : Step} : ∀ {n : Nat}, step ∈ finalSteps S already st n outputs →
      ∃ v ∈ outputs, ∃ p event, undelivered already st v = some p ∧ n ≤ event ∧
        event < n + (finalSteps S already st n outputs).length ∧ step = .transfer
          { src := ⟨v, .input, p, false⟩
            dst := ⟨v, .output, .output v, false⟩
            context := finalContext S st v
            recordsEvent := some event } := by
  induction outputs with
  | nil => intro n h; cases h
  | cons v outputs ih =>
      intro n h
      cases hund : undelivered already st v with
      | none =>
          simp only [finalSteps, hund] at h ⊢
          obtain ⟨w, hw, rest⟩ := ih h
          exact ⟨w, List.mem_cons_of_mem _ hw, rest⟩
      | some p =>
          simp only [finalSteps, hund] at h ⊢
          rcases List.mem_cons.mp h with rfl | h
          · exact ⟨v, List.mem_cons_self, p, n, hund, Nat.le_refl _, by simp, rfl⟩
          · obtain ⟨w, hw, q, event, hq, hle, hlt, rest⟩ := ih h
            refine ⟨w, List.mem_cons_of_mem _ hw, q, event, hq, by omega, ?_, rest⟩
            rw [List.length_cons]
            omega

end SchedState

namespace MemoryAware

open SchedState

variable {S : Schedule} {numStreams : Nat} {placement : KernelId → Device}

/-- The plan is the last state of the loop with the trailing transfers. -/
theorem build_spec (hS : S.WellFormed) (numStreams : Nat) (placement : KernelId → Device) :
    ∃ s, Reachable S numStreams placement s ∧ (∀ kid ∈ S.kernelIds, s.Scheduled kid) ∧
      build S numStreams placement = some (intoPlan (streamsFor S numStreams placement)
        { s.toSchedState with
          nextEventId := s.nextEventId +
            (finalSteps S (deliveredValues s.steps) s.toSchedState s.nextEventId S.outputs).length
          steps := s.steps ++
            finalSteps S (deliveredValues s.steps) s.toSchedState s.nextEventId S.outputs }) := by
  obtain ⟨s, hrun, hs, hall⟩ := runKernels_complete hS numStreams placement
  refine ⟨s, hs, hall, ?_⟩
  have hfin := finalizeOutputs_spec S (deliveredValues s.steps) S.outputs s.toSchedState hall
  unfold build
  rw [hrun]
  simp only [Option.bind_eq_bind, Option.bind_some]
  unfold SchedState.finalizeOutputs
  rw [hfin]
  rfl

end MemoryAware
end NnEngine
