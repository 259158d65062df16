import NnEngine.KeyedCache
import NnEngine.Schedule.Placement
import NnEngine.Schedule.Scheduler.StateAliases
import NnEngine.Session.Initializers

/-!
# Session states on one device

`build_session_state_buffers` of `src/session.rs`: the buffers of the session states of a hybrid
session, which several sessions share by name.  The first session that asks for a name decides on
which device its buffer is, from the kernels of its own plan.  The devices have room.
-/

namespace NnEngine

open KeyedCache SchedState MemoryAware

structure SessionStateSpec where
  name : String
  bytes : Nat

/-- A shared device buffer.  `owner` is the session and the state that it was allocated for, which
tells it from other buffers. -/
structure StateBuffer where
  isHost : Bool
  size : Nat
  owner : Nat × ValueId
  deriving DecidableEq

/-- A session on a schedule whose kernels are placed by `resident_budget`. -/
structure BudgetSession where
  schedule : Schedule
  wellFormed : schedule.WellFormed
  name : ValueId → String
  numStreams : Nat
  minBytes : Nat
  residentBytes : Nat

namespace BudgetSession

def placement (s : BudgetSession) : KernelId → Device :=
  s.schedule.residentBudget s.minBytes s.residentBytes

def executionPlan (s : BudgetSession) : Option ExecutionPlan :=
  build s.schedule s.numStreams s.placement

/-- `on_cuda`. -/
def onCuda (s : BudgetSession) (plan : ExecutionPlan) (sv : ValueId) : Bool :=
  plan.steps.any fun step => match step with
    | .kernel k => k.context.device == .CUDA &&
        ((s.schedule.kernel k.kernel).presentInputs ++ (s.schedule.kernel k.kernel).outputs).contains sv
    | _ => false

/-- `match &config.kv_buffers`. -/
def requestBuffer (cache : Option (String → Option StateBuffer)) (name : String)
    (alloc : Except SessionError StateBuffer) :
    Except SessionError (StateBuffer × Option (String → Option StateBuffer)) :=
  match cache with
  | some cache => (getOrInsertWith cache name alloc).map fun x => (x.1, some x.2)
  | none => alloc.map fun b => (b, none)

/-- The closure of `build_session_state_buffers` for one session state. -/
def stateBuffer (s : BudgetSession) (specs : List SessionStateSpec) (session : Nat)
    (plan : ExecutionPlan) (cache : Option (String → Option StateBuffer)) (sv : ValueId) :
    Except SessionError (StateBuffer × Option (String → Option StateBuffer)) :=
  match specs.find? fun spec => spec.name = s.name sv with
  | none => .error (.otherError s!"no spec for session state \"{s.name sv}\"")
  | some spec =>
      requestBuffer cache (s.name sv) (.ok ⟨!s.onCuda plan sv, max spec.bytes 1, (session, sv)⟩)

/-- The loop over the session states. -/
def stateBuffers (s : BudgetSession) (specs : List SessionStateSpec) (session : Nat)
    (plan : ExecutionPlan) : List ValueId → Option (String → Option StateBuffer) →
    Except SessionError (List (ValueId × StateBuffer) × Option (String → Option StateBuffer))
  | [], cache => .ok ([], cache)
  | sv :: svs, cache => do
      let (buf, cache) ← s.stateBuffer specs session plan cache sv
      let (bufs, cache) ← stateBuffers s specs session plan svs cache
      pure ((sv, buf) :: bufs, cache)

/-- `build_session_state_buffers`. -/
def buildSessionStateBuffers (s : BudgetSession) (specs : List SessionStateSpec) (session : Nat)
    (cache : Option (String → Option StateBuffer)) :
    Except SessionError (List (ValueId × StateBuffer) × Option (String → Option StateBuffer)) :=
  match s.executionPlan with
  | none => .error (.otherError "execution_plan missing")
  | some plan => s.stateBuffers specs session plan s.schedule.sessionStates cache

/-- Numbered sessions that are built one after the other on one cache. -/
def buildSessions (specs : List SessionStateSpec) :
    List (BudgetSession × Nat) → Option (String → Option StateBuffer) →
    Except SessionError (List (List (ValueId × StateBuffer)))
  | [], _ => .ok []
  | (s, session) :: rest, cache => do
      let (bufs, cache) ← s.buildSessionStateBuffers specs session cache
      let all ← buildSessions specs rest cache
      pure (bufs :: all)

/-! ### The requests -/

variable {s : BudgetSession} {specs : List SessionStateSpec} {plan : ExecutionPlan} {v : ValueId}
  {kid : KernelId} {cache : String → Option StateBuffer}
  {log : List (String × Except SessionError StateBuffer)}

/-- A kernel of the session that is no transfer and reads the state by its own name. -/
def Uses (s : BudgetSession) (kid : KernelId) (v : ValueId) : Prop :=
  kid ∈ s.schedule.kernelIds ∧ (s.schedule.kernel kid).isTransfer = false ∧
    v ∈ (s.schedule.kernel kid).presentInputs

instance (s : BudgetSession) (kid : KernelId) (v : ValueId) : Decidable (s.Uses kid v) :=
  inferInstanceAs (Decidable (_ ∧ _))

/-- Some kernel that uses the state runs on the GPU. -/
def usedOnGpu (s : BudgetSession) (v : ValueId) : Bool :=
  s.schedule.kernelIds.any fun kid => decide (s.Uses kid v) && s.placement kid == .CUDA

theorem usedOnGpu_iff : s.usedOnGpu v = true ↔ ∃ kid, s.Uses kid v ∧ s.placement kid = .CUDA := by
  simp only [usedOnGpu, List.any_eq_true, Bool.and_eq_true, decide_eq_true_eq, beq_iff_eq]
  constructor
  · rintro ⟨kid, -, h⟩
    exact ⟨kid, h⟩
  · rintro ⟨kid, huse, hdev⟩
    exact ⟨kid, huse.1, huse, hdev⟩

/-- No kernel produces a session state. -/
theorem not_mem_outputs (hv : v ∈ s.schedule.sessionStates) (hk : kid ∈ s.schedule.kernelIds) :
    v ∉ (s.schedule.kernel kid).outputs := by
  intro hout
  have hsome := Schedule.sourcePlace_isSome.mpr (Or.inr (Or.inl hv))
  rw [s.wellFormed.source_unproduced kid hk v hout] at hsome
  cases hsome

theorem onCuda_eq (hsteps : KernelSteps s.schedule s.placement plan.steps)
    (hv : v ∈ s.schedule.sessionStates) : s.onCuda plan v = s.usedOnGpu v := by
  rw [Bool.eq_iff_iff, usedOnGpu_iff]
  unfold onCuda
  rw [List.any_eq_true]
  constructor
  · rintro ⟨step, hstep, h⟩
    cases step with
    | kernel k =>
        simp only [Bool.and_eq_true, beq_iff_eq, List.contains_eq_mem, decide_eq_true_eq,
          List.mem_append] at h
        obtain ⟨hk, ht, hdev⟩ := hsteps.kernel k hstep
        refine ⟨k.kernel, ⟨hk, ht, ?_⟩, hdev ▸ h.1⟩
        exact h.2.resolve_right (not_mem_outputs hv hk)
    | transfer t => cases h
    | syncWait w => cases h
  · rintro ⟨kid, ⟨hk, ht, hin⟩, hdev⟩
    obtain ⟨k, hstep, rfl⟩ := hsteps.exists_step kid hk ht
    refine ⟨.kernel k, hstep, ?_⟩
    simp [(hsteps.kernel k hstep).2.2, hdev, hin]

/-- What a session asks for under a state's name. -/
def allocation (specs : List SessionStateSpec) (x : (BudgetSession × Nat) × ValueId) : StateBuffer :=
  ⟨!x.1.1.usedOnGpu x.2,
    max (((specs.find? fun spec => spec.name = x.1.1.name x.2).map SessionStateSpec.bytes).getD 0) 1,
    (x.1.2, x.2)⟩

/-- The session states of the sessions, in the order in which they are asked for. -/
def states (sessions : List (BudgetSession × Nat)) : List ((BudgetSession × Nat) × ValueId) :=
  sessions.flatMap fun s => s.1.schedule.sessionStates.map fun v => (s, v)

/-- The requests for these states. -/
def requests (specs : List SessionStateSpec) (l : List ((BudgetSession × Nat) × ValueId)) :
    List (String × Except SessionError StateBuffer) :=
  l.map fun x => (x.1.1.name x.2, .ok (allocation specs x))

theorem first_requests {l : List ((BudgetSession × Nat) × ValueId)} {name : String} :
    first (requests specs l) name =
      (l.find? fun x => x.1.1.name x.2 = name).map fun x => .ok (allocation specs x) := by
  rw [first, requests, List.find?_map, Option.map_map]
  rfl

/-- Every state has a spec. -/
def Specified (specs : List SessionStateSpec) (s : BudgetSession) : Prop :=
  ∀ v ∈ s.schedule.sessionStates, ∃ spec ∈ specs, spec.name = s.name v

/-- The loop answers its requests from the cache. -/
theorem stateBuffers_spec (hsteps : KernelSteps s.schedule s.placement plan.steps)
    (hspecs : Specified specs s) (session : Nat) (svs : List ValueId)
    (hsvs : ∀ v ∈ svs, v ∈ s.schedule.sessionStates) (h : Holds cache log) :
    ∃ bufs cache', s.stateBuffers specs session plan svs (some cache) = .ok (bufs, some cache') ∧
      Holds cache' (log ++ requests specs (svs.map fun v => ((s, session), v))) ∧
      bufs.map Prod.fst = svs ∧ ∀ x ∈ bufs,
        first (log ++ requests specs (svs.map fun v => ((s, session), v))) (s.name x.1) =
          some (.ok x.2) := by
  induction svs generalizing cache log with
  | nil => exact ⟨[], cache, rfl, by simpa [requests] using h, rfl, by simp⟩
  | cons sv svs ih =>
      have hsv := hsvs sv List.mem_cons_self
      obtain ⟨spec, hfind⟩ : ∃ spec, specs.find? (fun spec => spec.name = s.name sv) = some spec := by
        obtain ⟨spec, hmem, hname⟩ := hspecs sv hsv
        refine Option.isSome_iff_exists.mp (List.find?_isSome.mpr ⟨spec, hmem, ?_⟩)
        simpa using hname
      have halloc : (⟨!s.onCuda plan sv, max spec.bytes 1, (session, sv)⟩ : StateBuffer) =
          allocation specs ((s, session), sv) := by
        simp only [allocation, onCuda_eq hsteps hsv, hfind]
        rfl
      obtain ⟨x, hx⟩ := getOrInsertWith_ok (ε := SessionError) cache (s.name sv)
        (allocation specs ((s, session), sv))
      obtain ⟨hholds, hfirst⟩ := h.getOrInsertWith hx
      obtain ⟨bufs, cache', hok, hholds', hfst, hbufs⟩ :=
        ih (fun v hv => hsvs v (List.mem_cons_of_mem _ hv)) hholds
      have hreq : log ++ requests specs ((sv :: svs).map fun v => ((s, session), v)) =
          (log ++ [(s.name sv, .ok (allocation specs ((s, session), sv)))]) ++
            requests specs (svs.map fun v => ((s, session), v)) := by
        simp [requests]
      rw [hreq]
      refine ⟨(sv, x.1) :: bufs, cache', ?_, hholds', by rw [List.map_cons, hfst], ?_⟩
      · have hbuf : s.stateBuffer specs session plan (some cache) sv = .ok (x.1, some x.2) := by
          unfold stateBuffer requestBuffer
          rw [hfind]
          dsimp only
          rw [halloc, hx]
          rfl
        rw [stateBuffers, hbuf]
        simp only [bind, Except.bind, hok]
        rfl
      · intro y hy
        rcases List.mem_cons.mp hy with rfl | hy
        · exact first_append_of_some hfirst _
        · exact hbufs y hy

/-- The sessions answer the requests of all their states from the cache. -/
theorem buildSessions_spec (sessions : List (BudgetSession × Nat))
    (hspecs : ∀ x ∈ sessions, Specified specs x.1) (h : Holds cache log) :
    ∃ all, buildSessions specs sessions (some cache) = .ok all ∧
      all.map (fun bufs => bufs.map Prod.fst) = sessions.map (fun x => x.1.schedule.sessionStates) ∧
      ∀ x ∈ sessions.zip all, ∀ a ∈ x.2,
        first (log ++ requests specs (states sessions)) (x.1.1.name a.1) = some (.ok a.2) := by
  induction sessions generalizing cache log with
  | nil => exact ⟨[], rfl, rfl, by simp⟩
  | cons x sessions ih =>
      obtain ⟨s, session⟩ := x
      obtain ⟨plan, hplan, hsteps⟩ := plan_kernelSteps s.wellFormed s.numStreams s.placement
      obtain ⟨bufs, cache', hok, hholds, hfst, hbufs⟩ := stateBuffers_spec hsteps
        (hspecs _ List.mem_cons_self) session s.schedule.sessionStates (fun _ hv => hv) h
      obtain ⟨all, hall, hfsts, hrest⟩ := ih (fun y hy => hspecs y (List.mem_cons_of_mem _ hy)) hholds
      have hreq : log ++ requests specs (states ((s, session) :: sessions)) =
          (log ++ requests specs (s.schedule.sessionStates.map fun v => ((s, session), v))) ++
            requests specs (states sessions) := by
        simp [requests, states]
      rw [hreq]
      refine ⟨bufs :: all, ?_, by rw [List.map_cons, List.map_cons, hfst, hfsts], ?_⟩
      · have hbuild : s.buildSessionStateBuffers specs session (some cache) = .ok (bufs, some cache') := by
          have hplan : s.executionPlan = some plan := hplan
          rw [buildSessionStateBuffers, hplan]
          exact hok
        rw [buildSessions, hbuild]
        simp only [bind, Except.bind, hall]
        rfl
      · intro y hy a ha
        rw [List.zip_cons_cons, List.mem_cons] at hy
        rcases hy with rfl | hy
        · exact first_append_of_some (hbufs a ha) _
        · exact hrest y hy a ha

/-! ### The devices of the buffers -/

/-- Each name is one buffer, large enough, and the kernel steps that bind a state's memory run where
its buffer is. -/
structure OnOneDevice (specs : List SessionStateSpec) (sessions : List (BudgetSession × Nat))
    (all : List (List (ValueId × StateBuffer))) : Prop where
  shared : ∀ x ∈ sessions.zip all, ∀ y ∈ sessions.zip all, ∀ a ∈ x.2, ∀ b ∈ y.2,
    x.1.1.name a.1 = y.1.1.name b.1 → a.2 = b.2
  size : ∀ x ∈ sessions.zip all, ∀ a ∈ x.2, ∀ spec,
    specs.find? (fun spec => spec.name = x.1.1.name a.1) = some spec → spec.bytes ≤ a.2.size
  device : ∀ x ∈ sessions.zip all, ∀ plan, x.1.1.executionPlan = some plan →
    ∀ k, .kernel k ∈ plan.steps → ∀ b ∈ k.bindings, ∀ a ∈ x.2, b.place = .sessionState a.1 →
      (k.context.device = .CPU ↔ a.2.isHost = true)

/-- A prefix of the kernels with this one is within the budget and splits no session state. -/
def OnGpu (s : BudgetSession) (kid : KernelId) : Prop :=
  ∃ cut ≤ s.schedule.kernels.length, kid < cut ∧
    s.schedule.residentWeight s.minBytes cut ≤ s.residentBytes ∧ ¬ s.schedule.Splits cut

theorem placement_eq_cuda : s.placement kid = .CUDA ↔ s.OnGpu kid := Schedule.residentBudget_eq_cuda

/-- The value is in the memory of the state in the plan of the session. -/
def InMemory (s : BudgetSession) (v x : ValueId) : Prop :=
  Resides s.schedule s.placement (sessionStateTier s.schedule s.placement) v x

/-- The kernels that use a state run on the GPU when the kernels of the first session with its name
do, and no kernel on the other side reads a scalar in the memory of a state. -/
structure OneSide (sessions : List (BudgetSession × Nat)) : Prop where
  users : ∀ s ∈ sessions, ∀ v ∈ s.1.schedule.sessionStates, v ∉ s.1.schedule.inputs →
    ∀ kid, s.1.Uses kid v → ∀ x,
      (states sessions).find? (fun x => x.1.1.name x.2 = s.1.name v) = some x →
        (s.1.OnGpu kid ↔ ∃ kid', x.1.1.Uses kid' x.2 ∧ x.1.1.OnGpu kid')
  scalars : ∀ s ∈ sessions, ∀ v x kid, s.1.InMemory v x → isHostScalar s.1.schedule x = true →
    s.1.Uses kid x → (s.1.placement kid).tier = sessionStateTier s.1.schedule s.1.placement v

/-- The users of a state run on its tier. -/
theorem Uses.tier (h : s.Uses kid v) (hv : v ∈ s.schedule.sessionStates) :
    sessionStateTier s.schedule s.placement v = (s.placement kid).tier := by
  have hname : s.schedule.Names kid v := List.mem_append_left _ h.2.2
  unfold sessionStateTier
  cases hdev : s.placement kid with
  | CUDA =>
      refine if_pos (List.any_eq_true.mpr ⟨kid, h.1, ?_⟩)
      simp [hdev, h.2.2]
  | CPU =>
      refine if_neg fun hany => ?_
      obtain ⟨kid', hk', hcuda⟩ := List.any_eq_true.mp hany
      simp only [Bool.and_eq_true, beq_iff_eq, List.contains_eq_mem, decide_eq_true_eq] at hcuda
      have hsame : s.placement kid = s.placement kid' :=
        Schedule.residentBudget_eq_of_names hv h.1 hk' hname hcuda.2
      cases hdev.symm.trans (hsame.trans hcuda.1)

theorem tier_inj {d d' : Device} (h : d.tier = d'.tier) : d = d' := by
  cases d <;> cases d' <;> first | rfl | cases h

/-- A state that some value is in the memory of is no input. -/
theorem InMemory.state {x : ValueId} (h : s.InMemory v x) :
    v ∈ s.schedule.sessionStates ∧ v ∉ s.schedule.inputs := by
  unfold InMemory at h
  induction h with
  | state hv =>
      unfold Schedule.sourcePlace at hv
      split at hv
      · cases hv
      · rename_i hin
        split at hv
        · rename_i hst
          exact ⟨by simpa using hst, by simpa using hin⟩
        · split at hv <;> cases hv
  | inPlace _ _ _ _ _ ih => exact ih

theorem inMemory_self (hv : v ∈ s.schedule.sessionStates) (hin : v ∉ s.schedule.inputs) :
    s.InMemory v v := by
  apply Resides.state
  simp [Schedule.sourcePlace, hv, hin]

/-- A state in whose memory a kernel reads has a kernel that uses it. -/
theorem InMemory.user {x : ValueId} (h : s.InMemory v x) (huse : s.Uses kid x) :
    ∃ kid', s.Uses kid' v := by
  rcases Resides.user h with rfl | ⟨kid', hk, ht, hin⟩
  · exact ⟨kid, huse⟩
  · exact ⟨kid', hk, ht, hin⟩

/-- Every kernel that reads in the memory of a state runs where the first session with the state's
name uses it. -/
def Agreeing (sessions : List (BudgetSession × Nat)) : Prop :=
  ∀ s ∈ sessions, ∀ v ∈ s.1.schedule.sessionStates, ∀ kid ∈ s.1.schedule.kernelIds,
    (s.1.schedule.kernel kid).isTransfer = false →
    ReadsState s.1.schedule s.1.placement (sessionStateTier s.1.schedule s.1.placement) v kid →
    ∀ x, (states sessions).find? (fun x => x.1.1.name x.2 = s.1.name v) = some x →
      (s.1.placement kid = .CUDA ↔ x.1.1.usedOnGpu x.2 = true)

/-- A kernel that reads in the memory of a state runs with the kernels that use the state, unless it
is on the other side and reads a scalar. -/
theorem agreeing_iff {sessions : List (BudgetSession × Nat)} :
    Agreeing sessions ↔ OneSide sessions := by
  have hgpu : ∀ x : (BudgetSession × Nat) × ValueId, x.1.1.usedOnGpu x.2 = true ↔
      ∃ kid', x.1.1.Uses kid' x.2 ∧ x.1.1.OnGpu kid' := fun x => by
    simp only [usedOnGpu_iff, placement_eq_cuda]
  constructor
  · intro h
    -- the kernels that use a state by its own name read it in its memory
    have huser : ∀ s ∈ sessions, ∀ v ∈ s.1.schedule.sessionStates, v ∉ s.1.schedule.inputs →
        ∀ kid, s.1.Uses kid v → ∀ x,
          (states sessions).find? (fun x => x.1.1.name x.2 = s.1.name v) = some x →
            (s.1.placement kid = .CUDA ↔ x.1.1.usedOnGpu x.2 = true) := by
      intro s hs v hv hin kid huse x hx
      exact h s hs v hv kid huse.1 huse.2.1
        ⟨v, huse.2.2, inMemory_self hv hin, Or.inl (huse.tier hv)⟩ x hx
    refine ⟨fun s hs v hv hin kid huse x hx => ?_, fun s hs v x kid hmem hscalar huse => ?_⟩
    · rw [← placement_eq_cuda, ← hgpu]
      exact huser s hs v hv hin kid huse x hx
    · obtain ⟨hv, hin⟩ := hmem.state
      obtain ⟨kid', huse'⟩ := hmem.user huse
      have hin' : (s, v) ∈ states sessions :=
        List.mem_flatMap.mpr ⟨s, hs, List.mem_map_of_mem hv⟩
      obtain ⟨y, hy⟩ := Option.isSome_iff_exists.mp
        (List.find?_isSome (p := fun x => decide (x.1.1.name x.2 = s.1.name v)).mpr
          ⟨(s, v), hin', by simp⟩)
      have hkid := h s hs v hv kid huse.1 huse.2.1 ⟨x, huse.2.2, hmem, Or.inr hscalar⟩ y hy
      have hkid' := huser s hs v hv hin kid' huse' y hy
      have hiff := hkid.trans hkid'.symm
      rw [huse'.tier hv]
      cases hd : s.1.placement kid <;> cases hd' : s.1.placement kid' <;> simp [hd, hd'] at hiff ⊢
  · rintro h s hs v hv kid hk ht ⟨x, hx, hmem, hdirect⟩ y hy
    have huse : s.1.Uses kid x := ⟨hk, ht, hx⟩
    have hmem : s.1.InMemory v x := hmem
    obtain ⟨-, hin⟩ := hmem.state
    obtain ⟨kid', huse'⟩ := hmem.user huse
    have htier : (s.1.placement kid).tier = (s.1.placement kid').tier := by
      rw [← huse'.tier hv]
      rcases hdirect with hdirect | hscalar
      · exact hdirect.symm
      · exact h.scalars s hs v x kid hmem hscalar huse
    rw [tier_inj htier, placement_eq_cuda, hgpu]
    exact h.users s hs v hv hin kid' huse' y hy

/-- A state of a session has a buffer. -/
theorem exists_buffer {sessions : List (BudgetSession × Nat)}
    {all : List (List (ValueId × StateBuffer))}
    (h : all.map (fun bufs => bufs.map Prod.fst) = sessions.map fun x => x.1.schedule.sessionStates)
    {s : BudgetSession × Nat} (hs : s ∈ sessions) (hv : v ∈ s.1.schedule.sessionStates) :
    ∃ bufs, (s, bufs) ∈ sessions.zip all ∧ ∃ b, (v, b) ∈ bufs := by
  obtain ⟨i, hi⟩ := List.getElem?_of_mem hs
  have hget := congrArg (fun l => l[i]?) h
  simp only [List.getElem?_map, hi, Option.map_some, Option.map_eq_some_iff] at hget
  obtain ⟨bufs, hbufs, hfst⟩ := hget
  refine ⟨bufs, List.mem_of_getElem? (List.getElem?_zip_eq_some.mpr ⟨hi, hbufs⟩), ?_⟩
  rw [← hfst] at hv
  obtain ⟨⟨w, b⟩, hmem, rfl⟩ := List.mem_map.mp hv
  exact ⟨b, hmem⟩

/-- On one cache, the session states of all sessions are on one device each exactly when the budgets
put their users on one side. -/
theorem onOneDevice_iff (specs : List SessionStateSpec) (sessions : List BudgetSession)
    (hspecs : ∀ s ∈ sessions, Specified specs s) :
    ∃ all, buildSessions specs sessions.zipIdx (some fun _ => none) = .ok all ∧
      all.map (fun bufs => bufs.map Prod.fst) = sessions.map (fun s => s.schedule.sessionStates) ∧
      (OnOneDevice specs sessions.zipIdx all ↔ OneSide sessions.zipIdx) := by
  obtain ⟨all, hok, hfst, hfirst⟩ := buildSessions_spec sessions.zipIdx
    (fun x hx => hspecs x.1 (List.fst_mem_of_mem_zipIdx hx)) (holds_empty (ε := SessionError))
  have hstates : sessions.zipIdx.map (fun x => x.1.schedule.sessionStates) =
      sessions.map fun s => s.schedule.sessionStates := by
    conv_rhs => rw [← List.zipIdx_map_fst 0 sessions, List.map_map]
    rfl
  refine ⟨all, hok, hfst.trans hstates, ?_⟩
  -- a buffer is the allocation for the first state of its name
  have halloc : ∀ x ∈ sessions.zipIdx.zip all, ∀ a ∈ x.2, ∃ y,
      (states sessions.zipIdx).find? (fun y => y.1.1.name y.2 = x.1.1.name a.1) = some y ∧
        allocation specs y = a.2 := by
    intro x hx a ha
    have hreq := hfirst x hx a ha
    rw [List.nil_append, first_requests, Option.map_eq_some_iff] at hreq
    obtain ⟨y, hy, hya⟩ := hreq
    exact ⟨y, hy, Except.ok.inj hya⟩
  have hmem : ∀ x ∈ sessions.zipIdx.zip all, ∀ a ∈ x.2,
      x.1 ∈ sessions.zipIdx ∧ a.1 ∈ x.1.1.schedule.sessionStates := by
    rintro ⟨s, bufs⟩ hx a ha
    obtain ⟨i, hi⟩ := List.getElem?_of_mem hx
    obtain ⟨hs, hb⟩ := List.getElem?_zip_eq_some.mp hi
    have hget := congrArg (fun l => l[i]?) hfst
    simp only [List.getElem?_map, hs, hb, Option.map_some, Option.some.injEq] at hget
    exact ⟨List.mem_of_getElem? hs, hget ▸ List.mem_map_of_mem ha⟩
  rw [← agreeing_iff]
  constructor
  · rintro ⟨-, -, hdevice⟩ s hs v hv kid hk ht hreads y hy
    obtain ⟨bufs, hx, b, hb⟩ := exists_buffer hfst hs hv
    obtain ⟨plan, hplan, hsteps⟩ := plan_kernelSteps s.1.wellFormed s.1.numStreams s.1.placement
    obtain ⟨k, hstep, rfl⟩ := hsteps.exists_step kid hk ht
    obtain ⟨bd, hbd, hplace⟩ := (hsteps.bound k hstep v).mpr hreads
    have hdev := hdevice _ hx plan hplan k hstep bd hbd _ hb hplace
    obtain ⟨z, hz, hzb⟩ := halloc _ hx _ hb
    obtain rfl := Option.some.inj (hz.symm.trans hy)
    rw [← hzb, (hsteps.kernel k hstep).2.2] at hdev
    simp only [allocation, Bool.not_eq_true'] at hdev
    rw [← Bool.not_eq_false, ← hdev]
    cases s.1.placement k.kernel <;> simp
  · intro h
    refine ⟨fun x hx y hy a ha b hb hname => ?_, fun x hx a ha spec hspec => ?_,
      fun x hx plan hplan k hstep b hb a ha hplace => ?_⟩
    · have ha' := hfirst x hx a ha
      have hb' := hfirst y hy b hb
      rw [hname] at ha'
      exact Except.ok.inj (Option.some.inj (ha'.symm.trans hb'))
    · obtain ⟨y, hy, hya⟩ := halloc x hx a ha
      have hname : y.1.1.name y.2 = x.1.1.name a.1 := by simpa using List.find?_some hy
      rw [← hya]
      simp [allocation, hname, hspec]
    · obtain ⟨hs, hv⟩ := hmem x hx a ha
      obtain ⟨y, hy, hya⟩ := halloc x hx a ha
      obtain ⟨plan', hplan', hsteps⟩ :=
        plan_kernelSteps x.1.1.wellFormed x.1.1.numStreams x.1.1.placement
      obtain rfl := Option.some.inj (hplan.symm.trans hplan')
      obtain ⟨hk, ht, hdev⟩ := hsteps.kernel k hstep
      have hagree := h x.1 hs a.1 hv k.kernel hk ht ((hsteps.bound k hstep a.1).mp ⟨b, hb, hplace⟩) y hy
      rw [← hya, hdev]
      simp only [allocation, Bool.not_eq_true']
      rw [← Bool.not_eq_true, ← hagree]
      cases x.1.1.placement k.kernel <;> simp

/-- A layer that multiplies its cache with a weight of this many elements. -/
def layer (elements : Nat) : Schedule where
  inputs := []
  outputs := [2]
  initializers := [1]
  sessionStates := [0]
  kernels := [{ inputs := [some 0, some 1], outputs := [2], body := .opaqueOp .matMul }]
  valueType := fun v => .new (.float .F32) [if v = 1 then elements else 4]

def decode : BudgetSession where
  schedule := layer 4
  wellFormed := by decide
  name := fun v => if v = 0 then "cache" else ""
  numStreams := 1
  minBytes := 0
  residentBytes := 16

/-- The weight of the prefill graph is past the budget. -/
def prefill : BudgetSession := { decode with schedule := layer 8, wellFormed := by decide }

theorem layers_onOneDevice_iff : ∃ all,
    buildSessions [⟨"cache", 16⟩] [decode, prefill].zipIdx (some fun _ => none) = .ok all ∧
      all.map (fun bufs => bufs.map Prod.fst) =
        [decode, prefill].map (fun s => s.schedule.sessionStates) ∧
      (OnOneDevice [⟨"cache", 16⟩] [decode, prefill].zipIdx all ↔ OneSide [decode, prefill].zipIdx) :=
  onOneDevice_iff _ _ (by
    intro s hs v hv
    simp only [List.mem_cons, List.not_mem_nil, or_false] at hs
    rcases hs with rfl | rfl <;>
      · obtain rfl : v = 0 := List.mem_singleton.mp hv
        exact ⟨_, List.mem_singleton_self _, rfl⟩)

/-- The cache that decoding puts on the GPU is read on the CPU by prefilling. -/
theorem layers_not_onOneDevice : ∃ all,
    buildSessions [⟨"cache", 16⟩] [decode, prefill].zipIdx (some fun _ => none) = .ok all ∧
      all = [[(0, ⟨false, 16, (0, 0)⟩)], [(0, ⟨false, 16, (0, 0)⟩)]] ∧
      (∃ plan k b, prefill.executionPlan = some plan ∧ .kernel k ∈ plan.steps ∧ b ∈ k.bindings ∧
        b.place = .sessionState 0 ∧ k.context.device = .CPU) ∧
      ¬ OnOneDevice [⟨"cache", 16⟩] [decode, prefill].zipIdx all := by
  have hread : ∃ plan k b, prefill.executionPlan = some plan ∧ .kernel k ∈ plan.steps ∧
      b ∈ k.bindings ∧ b.place = .sessionState 0 ∧ k.context.device = .CPU :=
    ⟨_, _, _, rfl, List.mem_cons_self, List.mem_cons_self, rfl, rfl⟩
  refine ⟨_, rfl, rfl, hread, fun h => ?_⟩
  obtain ⟨plan, k, b, hplan, hstep, hb, hplace, hdev⟩ := hread
  have hhost := (h.device ((prefill, 1), [(0, ⟨false, 16, (0, 0)⟩)])
    (List.mem_cons_of_mem _ List.mem_cons_self) plan hplan k hstep b hb (0, ⟨false, 16, (0, 0)⟩)
    List.mem_cons_self hplace).mp hdev
  cases hhost

end BudgetSession
end NnEngine
