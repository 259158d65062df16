import NnEngine.Session.HybridRun

/-!
# The hybrid session of a scheduled plan

The plans that the scheduler builds are wired as a session needs them, so a session on such a plan
runs to its end exactly when the plan is supported, and a faithful plan leaves its own outputs in the
caller's buffers.
-/

namespace NnEngine

/-- The arenas and the chunks of a plan are listed under their own numbers. -/
theorem SchedState.intoPlan_indexed {ns ns' : Nat} {st : SchedState} (hinv : st.allocator.Inv ns none) :
    (intoPlan ns' st).Indexed := by
  have hlayout : ArenaLayout (intoPlan ns' st) := intoPlan_layout hinv
  have hids : ∀ (i : Nat) (a : ArenaInfo), (intoPlan ns' st).arenas[i]? = some a → a.id = i := by
    intro i a ha
    rw [intoPlan_arenas, List.getElem?_map, Option.map_eq_some_iff] at ha
    obtain ⟨j, hj, rfl⟩ := ha
    obtain ⟨-, rfl⟩ := List.getElem?_eq_some_iff.mp hj
    simp
  refine ⟨hids, fun c hc => ?_, hlayout.chunks⟩
  obtain ⟨a, ha, hid, -⟩ := hlayout.within c hc
  obtain ⟨i, hi⟩ := List.getElem?_of_mem ha
  refine ⟨a, ?_⟩
  rw [← hid, hids i a hi]
  exact hi

namespace SessionHybrid

open SchedState MemoryAware

variable {S : Schedule} {α : Type} {s : SessionHybrid}

/-! ### The session of a plan -/

/-- A session that is built on a scheduled plan is wired. -/
theorem wired_of_new (hS : S.WellFormed) (numStreams : Nat) (placement : KernelId → Device) :
    ∃ plan, build S numStreams placement = some plan ∧
      ∀ stateIsHost s, SessionHybrid.new S plan stateIsHost = .ok s → s.Wired := by
  obtain ⟨st, hs, hall, hbuild⟩ := MemoryAware.build_spec hS numStreams placement
  have hblocks := Blocks.finals (deliveredValues st.steps) st.toSchedState S.outputs st.steps
    st.nextEventId (hs.blocks hS)
  obtain ⟨-, -, leak, hl⟩ := hs.good hS
  refine ⟨_, hbuild, fun stateIsHost s hnew => ?_⟩
  unfold SessionHybrid.new at hnew
  split at hnew
  · rename_i hdeclared
    obtain rfl := Except.ok.inj hnew
    refine
      { wellFormed := hS
        indexed := intoPlan_indexed hl.inv
        places := fun step hstep b hb => hs.hasPlace hS hstep hb
        bound := fun k hk => ?_
        device := fun k k' hk hk' heq => ?_
        declared := fun k hk hdev b hb => ?_ }
    · -- the trailing steps are transfers
      rcases List.mem_append.mp hk with hk | hk
      · exact hs.wellBound hS k hk
      · obtain ⟨v, -, p, event, -, -, -, hfin⟩ := mem_finalSteps hk
        cases hfin
    · rw [(hblocks.kernels k hk).2, (hblocks.kernels k' hk').2, heq]
    · have hall := List.all_eq_true.mp hdeclared _ hk
      simp only [hdev, Bool.or_eq_true, List.all_eq_true] at hall
      exact hall.resolve_left (by simp) b hb
  · cases hnew

/-! ### Whole runs -/

/-- What the buffers hold, at the places of the plan. -/
def places (s : SessionHybrid) (m : Contents α) : Mem α := fun p => m (s.buffer (s.transferTier p) p)

/-- The two buffers of an initializer start with the same contents. -/
theorem agree_start (s : SessionHybrid) (inputs : List α) (initializer sessionState : Nat → α)
    (rest : Contents α) :
    s.Agree (start inputs initializer sessionState rest)
      (s.places (start inputs initializer sessionState rest)) := by
  rintro b p ⟨-, t, ht, rfl⟩
  cases p with
  | chunk c =>
      have ht : chunkTier s.plan c = some t := ht
      simp [places, transferTier, ht]
  | initializer v => rfl
  | sessionState v => rfl
  | input v => rfl
  | output v => rfl

/-- The output buffers hold what is at the output places. -/
theorem Agree.outputs {m : Contents α} {mem : Mem α} (h : s.Agree m mem)
    (hnd : s.schedule.outputs.Nodup) :
    ((List.range s.schedule.outputs.length).map fun i => m (.output i)) =
      s.schedule.outputs.map fun v => mem (.output v) := by
  apply List.ext_getElem
  · simp
  · intro i hi _
    have hlt : i < s.schedule.outputs.length := by simpa using hi
    simp only [List.getElem_map, List.getElem_range]
    refine h _ _ ⟨List.getElem_mem hlt, .hostArena, trivial, ?_⟩
    simp [buffer, hnd.idxOf_getElem i hlt]

variable {I : Interp s.schedule α} {inputs : List α} {initializer sessionState : Nat → α}
  {rest : Contents α}

/-- A run comes to its end exactly when the plan is supported. -/
theorem run_ok_iff (hw : s.Wired) :
    (∃ outs, s.run I inputs initializer sessionState rest = .ok outs) ↔ s.Supported inputs.length := by
  constructor
  · rintro ⟨outs, hrun⟩
    obtain ⟨m, hm, -⟩ := map_eq_ok.mp hrun
    exact supported_of_steps hw (foldlM_eq_ok_mem hm)
  · intro hsup
    obtain ⟨m, hm⟩ := foldlM_ok (fun step hstep m => runStep_ok hw hstep hsup m)
      (start inputs initializer sessionState rest)
    exact ⟨_, map_eq_ok.mpr ⟨m, hm, rfl⟩⟩

/-- A faithful run leaves the plan's outputs. -/
theorem run_outputs (hw : s.Wired) (hf : s.Faithful) {outs : List α}
    (hrun : s.run I inputs initializer sessionState rest = .ok outs) :
    outs = s.schedule.outputs.map fun v => execSteps I s.plan.steps
      (s.places (start inputs initializer sessionState rest)) (.output v) := by
  obtain ⟨m, hm, rfl⟩ := map_eq_ok.mp hrun
  have hagree : s.Agree m (execSteps I s.plan.steps
      (s.places (start inputs initializer sessionState rest))) :=
    foldlM_rel (R := s.Agree) (fun step hstep m m' mem h hstep' => runStep_agree hw hf hstep h hstep')
      (agree_start s inputs initializer sessionState rest) hm
  exact hagree.outputs hf.distinct

/-- Sessions on scheduled plans: a run comes to its end exactly when the plan is supported, and it
then leaves in the output buffers what the steps of the plan give when the plan is faithful. -/
theorem run_executes (hS : S.WellFormed) (numStreams : Nat) (placement : KernelId → Device) :
    ∃ plan, build S numStreams placement = some plan ∧
      ∀ stateIsHost s, SessionHybrid.new S plan stateIsHost = .ok s →
        ∀ (α : Type) (I : Interp s.schedule α) (inputs : List α) (initializer sessionState : Nat → α)
          (rest : Contents α),
          ((∃ outs, s.run I inputs initializer sessionState rest = .ok outs) ↔
            s.Supported inputs.length) ∧
          (s.Faithful → ∀ outs, s.run I inputs initializer sessionState rest = .ok outs →
            outs = s.schedule.outputs.map fun v => execSteps I s.plan.steps
              (s.places (start inputs initializer sessionState rest)) (.output v)) := by
  obtain ⟨plan, hbuild, hwired⟩ := wired_of_new hS numStreams placement
  refine ⟨plan, hbuild, fun stateIsHost s hnew α I inputs initializer sessionState rest => ?_⟩
  have hw := hwired stateIsHost s hnew
  exact ⟨run_ok_iff hw, fun hf outs hrun => run_outputs hw hf hrun⟩

/-- An interpretation where every kernel passes its first operand on. -/
def passFirst (S : Schedule) : Interp S Nat where
  source := fun _ => 0
  out := fun _ xs _ => xs.headD 0
  scratch := fun _ _ _ => 0
  copies := fun _ _ _ => rfl

/-- A `ReLU` of the input, with its output listed as often as given. -/
def oneReLU (times : Nat) : Schedule where
  inputs := [0]
  outputs := List.replicate times 1
  initializers := []
  sessionStates := []
  kernels := [.unary .reLU 0 1]
  valueType := fun _ => .new (.float .F32) [4]

theorem oneReLU_wellFormed : (oneReLU 1).WellFormed := by decide

theorem oneReLU_plan : ∃ plan, build (oneReLU 1) 1 (fun _ => .CPU) = some plan ∧ plan.steps =
    [.kernel ⟨0, ⟨.CPU, 0⟩, [⟨0, .input, .input 0, false⟩, ⟨1, .output, .output 1, false⟩], some 0⟩] :=
  ⟨_, rfl, rfl⟩

/-- The session of `oneReLU` runs to its end, with the plan's output. -/
theorem oneReLU_executes : ∃ plan s, build (oneReLU 1) 1 (fun _ => .CPU) = some plan ∧
    SessionHybrid.new (oneReLU 1) plan (fun _ => true) = .ok s ∧
      ∀ rest, s.run (passFirst s.schedule) [5] (fun _ => 0) (fun _ => 0) rest =
        .ok (s.schedule.outputs.map fun v => execSteps (passFirst s.schedule) s.plan.steps
          (s.places (start [5] (fun _ => 0) (fun _ => 0) rest)) (.output v)) := by
  obtain ⟨plan, hbuild, h⟩ := run_executes oneReLU_wellFormed 1 fun _ => .CPU
  obtain ⟨plan', hbuild', hsteps⟩ := oneReLU_plan
  obtain rfl := Option.some.inj (hbuild'.symm.trans hbuild)
  have hnew : SessionHybrid.new (oneReLU 1) plan' (fun _ => true) = .ok ⟨oneReLU 1, plan', fun _ => true⟩ := by
    simp [SessionHybrid.new, hsteps]
  refine ⟨plan', _, hbuild, hnew, fun rest => ?_⟩
  obtain ⟨hok, hout⟩ := h _ _ hnew Nat (passFirst _) [5] (fun _ => 0) (fun _ => 0) rest
  have hsup : (SessionHybrid.mk (oneReLU 1) plan' fun _ => true).Supported 1 := by
    constructor <;> simp [hsteps, oneReLU, Schedule.kernel, HostVisible, Kernel.unary, Kernel.presentInputs]
  have hgen : CodeGenContext.allNecessaryKernels (oneReLU 1) plan' = [0] := by
    simp [CodeGenContext.allNecessaryKernels, Schedule.kernelIds, oneReLU, CodeGenContext.needToGenerate,
      CodeGenContext.kernelDevice, hsteps, Schedule.kernel, Kernel.unary, Kernel.isForward]
  have hfaithful : (SessionHybrid.mk (oneReLU 1) plan' fun _ => true).Faithful := by
    refine ⟨fun k hk _ hskip => ?_, ?_, ?_⟩
    · obtain rfl : k = _ := Step.kernel.inj (List.mem_singleton.mp (hsteps ▸ hk))
      exact absurd (by rw [hgen]; exact List.mem_singleton_self 0) hskip
    · simp [hsteps, Step.writes, KernelStep.bindingsOf]
    · simp [oneReLU]
  obtain ⟨outs, houts⟩ := hok.mpr hsup
  rw [houts, hout hfaithful outs houts]

/-- A kernel of nine operands. -/
def nineOperands : Schedule where
  inputs := List.range 8
  outputs := [8]
  initializers := []
  sessionStates := []
  kernels := [{ inputs := (List.range 8).map some, outputs := [8], body := .opaqueOp (.concat ⟨0⟩) }]
  valueType := fun _ => .new (.float .F32) [4]

/-- A `ReLU` of a session state. -/
def stateReLU : Schedule where
  inputs := []
  outputs := [1]
  initializers := []
  sessionStates := [0]
  kernels := [.unary .reLU 0 1]
  valueType := fun _ => .new (.float .F32) [4]

/-- A `ReLU` whose value is copied to both outputs. -/
def copiedTwice : Schedule where
  inputs := [0]
  outputs := [2, 3]
  initializers := []
  sessionStates := []
  kernels := [.unary .reLU 0 1, .unary .identity 1 3, .unary .identity 1 2]
  valueType := fun _ => .new (.float .F32) [4]

/-- Whether the session of the plan runs, and what it leaves next to the plan's own outputs. -/
def runAndPlan (S : Schedule) (placement : KernelId → Device) (stateIsHost : Bool) (inputs : List Nat) :
    Option (Except RunError (List Nat) × List Nat) := do
  let plan ← build S 1 placement
  match SessionHybrid.new S plan fun _ => stateIsHost with
  | .error _ => none
  | .ok s =>
      let contents := start inputs (fun _ => 0) (fun _ => 0) fun _ => 0
      return (s.run (passFirst s.schedule) inputs (fun _ => 0) (fun _ => 0) fun _ => 0,
        s.schedule.outputs.map fun v =>
          execSteps (passFirst s.schedule) s.plan.steps (s.places contents) (.output v))

/-- Runs that do not execute their plans: a host call of nine operands, a session state on the other
device, a missing input, an output that is listed twice, and a copy on the host that is not
generated. -/
theorem run_not_executes :
    (nineOperands.WellFormed ∧ runAndPlan nineOperands (fun _ => .CPU) true (List.replicate 8 5) =
      some (.error (.panic "CPU kernel arity 9 not supported"), [5])) ∧
    (stateReLU.WellFormed ∧ runAndPlan stateReLU (fun _ => .CPU) false [] =
      some (.error (.err (.otherError
        "CPU kernel touches GPU-resident session_state Id(0) (mixed-device session state is not supported)")),
        [0])) ∧
    ((oneReLU 1).WellFormed ∧ runAndPlan (oneReLU 1) (fun _ => .CPU) true [] =
      some (.error (.panic "index out of bounds"), [0])) ∧
    ((oneReLU 2).WellFormed ∧ runAndPlan (oneReLU 2) (fun _ => .CPU) true [5] =
      some (.ok [5, 0], [5, 5])) ∧
    (copiedTwice.WellFormed ∧ runAndPlan copiedTwice (fun kid => if kid < 1 then .CUDA else .CPU) true [5] =
      some (.ok [5, 0], [5, 5])) := by
  refine ⟨⟨by decide, ?_⟩, ⟨by decide, ?_⟩, ⟨by decide, ?_⟩, ⟨by decide, ?_⟩, ⟨by decide, ?_⟩⟩ <;>
    decide +kernel

end SessionHybrid
end NnEngine
