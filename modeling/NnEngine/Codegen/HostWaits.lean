import NnEngine.Codegen.HostCode
import NnEngine.Schedule.Scheduler.Blocks
import NnEngine.Schedule.Scheduler.Places
import NnEngine.Segments

/-!
# The waits in the host code

`codeFrom` is the host code as one pass over the steps that carries the pending waits.  The pass
drops the waits that come directly before a kernel on the host, and a kernel on the host records no
event; the host code keeps every wait of the plan exactly when neither matters (`survives_iff`).
-/

namespace NnEngine

open HostCodeGenerator Segments

variable {β : Type}

/-! ### The views -/

/-- The key under which the generator files a step. -/
def Step.slot? : Step → Nat → Option StepKey
  | .kernel k, _ => some (.kernel k.kernel)
  | .transfer _, idx => some (.transfer idx)
  | .syncWait _, _ => none

def HostCodeGenerator.view (g : HostCodeGenerator) : StepKey → Option KernelStreamView
  | .kernel kid => g.streams kid
  | .transfer idx => g.transferStreams idx

/-- The waits that are pending after the steps. -/
def pendingAfter (pending : List EventId) (steps : List Step) : List EventId :=
  steps.foldl (fun p step => match step with
    | .syncWait w => p ++ [w.event]
    | _ => []) pending

theorem pendingAfter_append {pending : List EventId} (l l' : List Step) :
    pendingAfter pending (l ++ l') = pendingAfter (pendingAfter pending l) l' := by
  simp [pendingAfter]

theorem pendingAfter_wait {pending : List EventId} (w : SyncWaitStep) (l : List Step) :
    pendingAfter pending (.syncWait w :: l) = pendingAfter (pending ++ [w.event]) l := rfl

/-- Every step that is filed resets the pending waits. -/
theorem pendingAfter_cons {pending : List EventId} {step : Step} (h : step.isWait = false)
    (l : List Step) : pendingAfter pending (step :: l) = pendingAfter [] l := by
  cases step with
  | syncWait w => cases h
  | kernel k => rfl
  | transfer t => rfl

/-- No two steps are filed under one key. -/
def DistinctSlots (steps : List Step) : Prop :=
  ∀ (i j : Nat) (a b : Step) (key : StepKey), steps[i]? = some a → steps[j]? = some b →
    a.slot? i = some key → b.slot? j = some key → i = j

theorem collect_kernel (st : Collecting) {k : KernelStep} {e : EventId} (idx : Nat)
    (h : k.recordsEvent = some e) : collect st (.kernel k, idx) = .ok
      { st with
        streams := Function.update st.streams k.kernel (some ⟨k.context.stream, e, st.pendingWaits⟩)
        pendingWaits := [] } := by
  simp only [collect, h]

theorem collect_transfer (st : Collecting) {t : TransferStep} {e : EventId} (idx : Nat)
    (h : t.recordsEvent = some e) : collect st (.transfer t, idx) = .ok
      { st with
        transferStreams := Function.update st.transferStreams idx
          (some ⟨t.context.stream, e, st.pendingWaits⟩)
        pendingWaits := [] } := by
  simp only [collect, h]

/-- One turn of the loop of `new` for a step that records its event. -/
theorem collect_ok (st : Collecting) {step : Step} (idx : Nat)
    (hrec : step.isWait = false → ∃ e, step.event? = some e) : ∃ st',
      collect st (step, idx) = .ok st' ∧
      st'.pendingWaits = pendingAfter st.pendingWaits [step] ∧
      (∀ e, e ∈ st'.toRecordEvents ↔
        e ∈ st.toRecordEvents ∨ ∃ w, step = .syncWait w ∧ w.event = e) ∧
      (∀ key, step.slot? idx ≠ some key → st'.view key = st.view key) ∧
      ∀ key, step.slot? idx = some key → ∃ e, step.event? = some e ∧
        st'.view key = some ⟨step.stream, e, st.pendingWaits⟩ := by
  cases step with
  | syncWait w =>
      refine ⟨_, rfl, rfl, fun e => ?_, fun key _ => ?_, by simp [Step.slot?]⟩
      · simp [eq_comm, or_comm]
      · cases key <;> rfl
  | kernel k =>
      obtain ⟨e, he⟩ := hrec rfl
      refine ⟨_, collect_kernel st idx he, rfl, by simp, ?_, ?_⟩
      · intro key hne
        cases key with
        | kernel kid =>
            have hkid : kid ≠ k.kernel := by
              rintro rfl
              exact hne rfl
            exact Function.update_of_ne hkid _ _
        | transfer idx => rfl
      · rintro key hkey
        obtain rfl : StepKey.kernel k.kernel = key := by simpa [Step.slot?] using hkey
        exact ⟨e, he, Function.update_self _ _ _⟩
  | transfer t =>
      obtain ⟨e, he⟩ := hrec rfl
      refine ⟨_, collect_transfer st idx he, rfl, by simp, ?_, ?_⟩
      · intro key hne
        cases key with
        | kernel kid => rfl
        | transfer j =>
            have hj : j ≠ idx := by
              rintro rfl
              exact hne rfl
            exact Function.update_of_ne hj _ _
      · rintro key hkey
        obtain rfl : StepKey.transfer idx = key := by simpa [Step.slot?] using hkey
        exact ⟨e, he, Function.update_self _ _ _⟩

/-- The generator files every step with its stream, its event and the waits directly before it. -/
theorem collect_steps {steps : List Step} (hslots : DistinctSlots steps)
    (hrec : ∀ step ∈ steps, step.isWait = false → ∃ e, step.event? = some e) : ∃ st,
      steps.zipIdx.foldlM collect Collecting.init = .ok st ∧
      st.pendingWaits = pendingAfter [] steps ∧
      (∀ e, e ∈ st.toRecordEvents ↔ ∃ w, .syncWait w ∈ steps ∧ w.event = e) ∧
      ∀ i step key, steps[i]? = some step → step.slot? i = some key →
        ∃ e, step.event? = some e ∧
          st.view key = some ⟨step.stream, e, pendingAfter [] (steps.take i)⟩ := by
  induction steps using List.reverseRecOn with
  | nil => exact ⟨_, rfl, rfl, by simp [Collecting.init], by simp⟩
  | append_singleton steps step ih =>
      have hold : ∀ {i a}, steps[i]? = some a → (steps ++ [step])[i]? = some a := fun h => by
        rw [List.getElem?_append_left (List.getElem?_eq_some_iff.mp h).1]
        exact h
      have hlast : (steps ++ [step])[steps.length]? = some step := by simp
      obtain ⟨st, hst, hpend, hevents, hviews⟩ := ih
        (fun i j a b key hi hj => hslots i j a b key (hold hi) (hold hj))
        (fun s hs => hrec s (List.mem_append_left _ hs))
      obtain ⟨st', hst', hpend', hevents', hframe, hview⟩ :=
        collect_ok st steps.length (hrec step (by simp))
      refine ⟨st', ?_, ?_, ?_, ?_⟩
      · rw [List.zipIdx_append, List.foldlM_append, do_eq_ok]
        refine ⟨st, hst, ?_⟩
        rw [Nat.zero_add, List.zipIdx_singleton, List.foldlM_cons, do_eq_ok]
        exact ⟨st', hst', rfl⟩
      · rw [hpend', hpend, pendingAfter_append]
      · intro e
        rw [hevents', hevents]
        simp only [List.mem_append, List.mem_singleton]
        constructor
        · rintro (⟨w, hw, he⟩ | ⟨w, hw, he⟩)
          · exact ⟨w, Or.inl hw, he⟩
          · exact ⟨w, Or.inr hw.symm, he⟩
        · rintro ⟨w, hw | hw, he⟩
          · exact Or.inl ⟨w, hw, he⟩
          · exact Or.inr ⟨w, hw.symm, he⟩
      · intro i a key hi hkey
        by_cases hlt : i < steps.length
        · rw [List.getElem?_append_left hlt] at hi
          obtain ⟨e, he, hv⟩ := hviews i a key hi hkey
          have hne : step.slot? steps.length ≠ some key := by
            intro h
            have heq := hslots _ _ _ _ key (hold hi) hlast hkey h
            omega
          rw [List.take_append_of_le_length (Nat.le_of_lt hlt), hframe key hne]
          exact ⟨e, he, hv⟩
        · have hi' := (List.getElem?_eq_some_iff.mp hi).1
          rw [List.length_append, List.length_singleton] at hi'
          obtain rfl : i = steps.length := by omega
          rw [hlast] at hi
          obtain rfl : step = a := by simpa using hi
          obtain ⟨e, he, hv⟩ := hview key hkey
          refine ⟨e, he, ?_⟩
          rw [List.take_left', hv, hpend]
          rfl

/-! ### The code as one pass -/

/-- The statements of a step function: `body` holds what it does besides waiting and recording. -/
def stepCode (events : List EventId) (body : StepKey → List (Statement β))
    (pending : List EventId) (step : Step) (idx : Nat) : List (StepKey × Statement β) :=
  match op? (step, idx), step.event? with
  | some key, some e =>
      (pending.map (Statement.waitEvent step.stream) ++ body key ++
        if e ∈ events then [Statement.recordEvent e step.stream] else []).map fun s => (key, s)
  | _, _ => []

/-- The host code of the steps from the index on. -/
def codeFrom (events : List EventId) (body : StepKey → List (Statement β)) :
    List EventId → Nat → List Step → List (StepKey × Statement β)
  | _, _, [] => []
  | pending, idx, step :: steps =>
      stepCode events body pending step idx ++
        codeFrom events body (pendingAfter pending [step]) (idx + 1) steps

variable {events : List EventId} {body : StepKey → List (Statement β)} {S : Schedule}
  {plan : ExecutionPlan} {launch : KernelId → Except HostCodeError (List β)}

theorem codeFrom_append (pending : List EventId) (idx : Nat) (l l' : List Step) :
    codeFrom events body pending idx (l ++ l') = codeFrom events body pending idx l ++
      codeFrom events body (pendingAfter pending l) (idx + l.length) l' := by
  induction l generalizing pending idx with
  | nil => rfl
  | cons step l ih =>
      rw [List.cons_append, codeFrom, codeFrom, ih, List.append_assoc, List.length_cons,
        Nat.add_right_comm, ← Nat.add_assoc]
      rfl

/-- Only the steps with a step function leave statements. -/
theorem flatMap_filterMap {α γ δ : Type} (l : List α) (f : α → Option γ) (g : γ → List δ) :
    (l.filterMap f).flatMap g = l.flatMap fun a => ((f a).map g).getD [] := by
  induction l with
  | nil => rfl
  | cons a l ih =>
      rw [List.flatMap_cons, ← ih]
      cases h : f a <;> simp [h]

theorem op?_kernel {k : KernelStep} {idx : Nat} {key : StepKey} :
    op? (.kernel k, idx) = some key ↔ k.context.device = .CUDA ∧ key = .kernel k.kernel := by
  unfold op?
  split <;> simp_all [eq_comm]

theorem slot?_of_op? {step : Step} {idx : Nat} {key : StepKey} (h : op? (step, idx) = some key) :
    step.slot? idx = some key := by
  cases step with
  | kernel k => rw [(op?_kernel.mp h).2, Step.slot?]
  | transfer t => exact h
  | syncWait w => cases h

/-- What a step function does besides waiting and recording. -/
def opBody (S : Schedule) (plan : ExecutionPlan) (launch : KernelId → Except HostCodeError (List β)) :
    StepKey → Except HostCodeError (List (Statement β))
  | .kernel kid => (launch kid).map fun ops => ops.map .launch
  | .transfer idx =>
      match plan.steps[idx]? with
      | some (.transfer t) => transferBody S plan t
      | _ => .error (.panic "unreachable")

theorem emitOp_eq (g : HostCodeGenerator) {i : Nat} {step : Step} {key : StepKey}
    {view : KernelStreamView} (hi : plan.steps[i]? = some step) (hkey : op? (step, i) = some key)
    (hview : g.view key = some view) :
    g.emitOp S plan launch key = (opBody S plan launch key).map (g.bracket view) := by
  cases key with
  | kernel kid =>
      have hstream : g.streams kid = some view := hview
      simp only [emitOp, callKernel, hstream, opBody]
      cases launch kid <;> rfl
  | transfer idx =>
      have hstream : g.transferStreams idx = some view := hview
      cases step with
      | kernel k => cases (op?_kernel.mp hkey).2
      | syncWait w => cases hkey
      | transfer t =>
          obtain rfl : i = idx := by simpa [op?] using hkey
          simp only [emitOp, emitTransfer, hi, hstream, opBody]

/-- The keys of the step functions. -/
def opKeys (plan : ExecutionPlan) : List StepKey := plan.steps.zipIdx.filterMap op?

theorem mem_opKeys {key : StepKey} :
    key ∈ opKeys plan ↔ ∃ i step, plan.steps[i]? = some step ∧ op? (step, i) = some key := by
  simp only [opKeys, List.mem_filterMap, Prod.exists, List.mem_zipIdx_iff_getElem?]
  exact exists_comm

/-- The statements that a list of step functions puts behind one another, as one pass. -/
theorem flatMap_op?_eq {g : HostCodeGenerator} (steps : List Step)
    (hviews : ∀ i step key, steps[i]? = some step → step.slot? i = some key →
      ∃ e, step.event? = some e ∧
        g.view key = some ⟨step.stream, e, pendingAfter [] (steps.take i)⟩) (l pre : List Step)
    (hl : steps = pre ++ l) :
    (l.zipIdx pre.length).flatMap (fun p => ((op? p).map fun key =>
      (((g.view key).map fun view => g.bracket view (body key)).getD []).map fun s => (key, s)).getD
        []) = codeFrom g.toRecordEvents body (pendingAfter [] pre) pre.length l := by
  induction l generalizing pre with
  | nil => rfl
  | cons step l ih =>
      have hi : steps[pre.length]? = some step := by simp [hl]
      have hrest := ih (pre ++ [step]) (by simp [hl])
      rw [List.length_append, List.length_singleton, pendingAfter_append] at hrest
      rw [List.zipIdx_cons, List.flatMap_cons, hrest, codeFrom]
      congr 1
      unfold stepCode
      cases hkey : op? (step, pre.length) with
      | none => rfl
      | some key =>
          obtain ⟨e, he, hview⟩ := hviews _ _ _ hi (slot?_of_op? hkey)
          simp only [Option.map_some, Option.getD_some, he, hview]
          rw [hl, List.take_left' rfl]
          rfl

/-- The host code is one pass over the steps, and it exists when every step function does. -/
theorem hostCode_eq (S : Schedule) (plan : ExecutionPlan)
    (launch : KernelId → Except HostCodeError (List β)) (hslots : DistinctSlots plan.steps)
    (hrec : ∀ step ∈ plan.steps, step.isWait = false → ∃ e, step.event? = some e) :
    (∀ code, hostCode S plan launch = .ok code →
      ∃ (events : List EventId) (body : StepKey → List (Statement β)),
        (∀ e, e ∈ events ↔ ∃ w, .syncWait w ∈ plan.steps ∧ w.event = e) ∧
        (∀ key, ∀ s ∈ body key, ∃ b, opBody S plan launch key = .ok b ∧ s ∈ b) ∧
        code = codeFrom events body [] 0 plan.steps) ∧
    ((∀ key ∈ opKeys plan, ∃ b, opBody S plan launch key = .ok b) →
      ∃ code, hostCode S plan launch = .ok code) := by
  obtain ⟨st, hst, -, hevents, hviews⟩ := collect_steps hslots hrec
  have hnew : HostCodeGenerator.new plan = .ok st.toHostCodeGenerator := by
    rw [HostCodeGenerator.new, hst]
    rfl
  have hemit : ∀ key ∈ opKeys plan, ∃ view, st.view key = some view ∧
      st.emitOp S plan launch key = (opBody S plan launch key).map (st.bracket view) := by
    intro key hkey
    obtain ⟨i, step, hi, hop⟩ := mem_opKeys.mp hkey
    obtain ⟨e, -, hview⟩ := hviews i step key hi (slot?_of_op? hop)
    exact ⟨_, hview, emitOp_eq _ hi hop hview⟩
  constructor
  · intro code hcode
    rw [hostCode, hnew, do_eq_ok] at hcode
    obtain ⟨g, hg, hcode⟩ := hcode
    obtain rfl : st.toHostCodeGenerator = g := by simpa using hg
    obtain ⟨perStep, hper, hcode⟩ := do_eq_ok.mp hcode
    obtain rfl : _ = code := by simpa using hcode
    let body : StepKey → List (Statement β) := fun key =>
      match opBody S plan launch key with
      | .ok b => b
      | .error _ => []
    have hok : ∀ key ∈ opKeys plan, opBody S plan launch key = .ok (body key) := by
      intro key hkey
      obtain ⟨y, -, hy⟩ := mapM_eq_ok_of_mem hper key hkey
      obtain ⟨stmts, hstmts, -⟩ := map_eq_ok.mp hy
      obtain ⟨view, -, heq⟩ := hemit key hkey
      rw [heq] at hstmts
      obtain ⟨b, hb, -⟩ := map_eq_ok.mp hstmts
      simp only [body, hb]
    have hmem : ∀ key, ∀ s ∈ body key, ∃ b, opBody S plan launch key = .ok b ∧ s ∈ b := by
      intro key s hs
      cases hb : opBody S plan launch key with
      | ok b => exact ⟨b, rfl, by simpa only [body, hb] using hs⟩
      | error e =>
          simp only [body, hb] at hs
          cases hs
    refine ⟨st.toRecordEvents, body, hevents, hmem, ?_⟩
    have hmap := mapM_ok (ε := HostCodeError) (l := opKeys plan)
      (f := fun key => (st.emitOp S plan launch key).map fun stmts => (key, stmts))
      (g := fun key => (key, ((st.view key).map fun view => st.bracket view (body key)).getD []))
      (by
        intro key hkey
        obtain ⟨view, hview, heq⟩ := hemit key hkey
        rw [heq, hok key hkey, hview]
        rfl)
    obtain rfl := Except.ok.inj (hmap.symm.trans hper)
    rw [List.flatMap_map, opKeys, flatMap_filterMap]
    exact flatMap_op?_eq plan.steps hviews plan.steps [] rfl
  · intro hbodies
    choose! b hb using hbodies
    have hmap := mapM_ok (ε := HostCodeError) (l := opKeys plan)
      (f := fun key => (st.emitOp S plan launch key).map fun stmts => (key, stmts))
      (g := fun key => (key, ((st.view key).map fun view => st.bracket view (b key)).getD []))
      (by
        intro key hkey
        obtain ⟨view, hview, heq⟩ := hemit key hkey
        rw [heq, hb key hkey, hview]
        rfl)
    exact ⟨_, do_eq_ok.mpr ⟨_, hnew, do_eq_ok.mpr ⟨_, hmap, rfl⟩⟩⟩

/-! ### Keeping the waits -/

/-- The statement works on the GPU. -/
def Statement.isOperation : Statement β → Bool
  | .memcpy .. => true
  | .launch _ => true
  | _ => false

def Statement.isWait : Statement β → Bool
  | .waitEvent .. => true
  | _ => false

/-- The kernel runs on the host: it has no step function. -/
def Step.isHostKernel : Step → Bool
  | .kernel k => k.context.device == .CPU
  | _ => false

/-- Position `p` of the code is the wait at position `i` of the plan: on its stream, after the
record of its event, and before what the later steps on its stream do. -/
structure KeepsWait (steps : List Step) (code : List (StepKey × Statement β)) (i : Nat)
    (w : SyncWaitStep) (p : Nat) : Prop where
  waits : ∃ key, code[p]? = some (key, .waitEvent w.context.stream w.event)
  recorded : ∃ r < p, ∃ key stream, code[r]? = some (key, .recordEvent w.event stream)
  before : ∀ j step key q stmt, i < j → steps[j]? = some step → op? (step, j) = some key →
    step.stream = w.context.stream → code[q]? = some (key, stmt) → stmt.isOperation = true → p < q

/-- The waits of the code are the waits of the plan, one for one. -/
def WaitsSurvive (steps : List Step) (code : List (StepKey × Statement β)) : Prop :=
  ∃ pos : Nat → Nat,
    Set.BijOn pos (positions steps Step.isWait) (positions code fun x => x.2.isWait) ∧
    ∀ i w, steps[i]? = some (.syncWait w) → KeepsWait steps code i w (pos i)

/-- No host kernel comes directly after a wait, and none records an event that is waited for. -/
structure HostQuiet (steps : List Step) : Prop where
  led : ∀ i w k, steps[i]? = some (.syncWait w) → steps[i + 1]? = some (.kernel k) →
    k.context.device = .CUDA
  records : ∀ k w, .kernel k ∈ steps → .syncWait w ∈ steps → k.recordsEvent = some w.event →
    k.context.device = .CUDA

/-- The statement with its step function, where it is an operation. -/
def untag (x : StepKey × Statement β) : Option StepKey × Statement β :=
  (if x.2.isOperation then some x.1 else none, x.2)

/-- What a step leaves in the code when the waits stand where the plan has them. -/
def ownCode (events : List EventId) (body : StepKey → List (Statement β)) (step : Step)
    (idx : Nat) : List (Option StepKey × Statement β) :=
  match step with
  | .syncWait w => [(none, .waitEvent w.context.stream w.event)]
  | step => (stepCode events body [] step idx).map untag

theorem isHostKernel_iff {step : Step} (idx : Nat) (hwait : step.isWait = false) :
    step.isHostKernel = true ↔ op? (step, idx) = none := by
  cases step with
  | syncWait w => cases hwait
  | transfer t => simp [Step.isHostKernel, op?]
  | kernel k => cases hd : k.context.device <;> simp [Step.isHostKernel, op?, hd]

theorem stepCode_eq {pending : List EventId} {step : Step} {idx : Nat} {key : StepKey} {e : EventId}
    (hkey : op? (step, idx) = some key) (he : step.event? = some e) :
    stepCode events body pending step idx =
      (pending.map (Statement.waitEvent step.stream) ++ body key ++
        if e ∈ events then [Statement.recordEvent e step.stream] else []).map fun s => (key, s) := by
  simp only [stepCode, hkey, he]

theorem stepCode_none {pending : List EventId} {step : Step} {idx : Nat}
    (h : op? (step, idx) = none) : stepCode events body pending step idx = [] := by
  simp only [stepCode, h]

theorem ownCode_of_not_wait {step : Step} (hwait : step.isWait = false) (idx : Nat) :
    ownCode events body step idx = (stepCode events body [] step idx).map untag := by
  cases step with
  | syncWait w => cases hwait
  | kernel k => rfl
  | transfer t => rfl

/-- A step function starts with its waits. -/
theorem stepCode_pending {step : Step} {idx : Nat} {key : StepKey} {e : EventId}
    (hkey : op? (step, idx) = some key) (he : step.event? = some e) (pending : List EventId) :
    (stepCode events body pending step idx).map untag =
      pending.map (fun e => (none, Statement.waitEvent step.stream e)) ++
        (stepCode events body [] step idx).map untag := by
  rw [stepCode_eq hkey he, stepCode_eq hkey he]
  simp [untag, Statement.isOperation, Function.comp_def]

/-- Where every wait leads on to a step function on its own stream, regrouping the waits changes
nothing.  The induction carries waits that are pending for the next step. -/
theorem codeFrom_untag (events : List EventId) (body : StepKey → List (Statement β)) (l : List Step)
    (pending : List EventId) (idx stream : Nat)
    (hchain : l.IsChain Step.Leads) (hlast : ∀ step ∈ l.getLast?, step.isWait = false)
    (hrec : ∀ step ∈ l, step.isWait = false → ∃ e, step.event? = some e)
    (hquiet : l.IsChain fun a b => a.isWait = true → b.isHostKernel = false)
    (hpend : pending ≠ [] →
      ∃ step ∈ l.head?, step.stream = stream ∧ step.isHostKernel = false) :
    (codeFrom events body pending idx l).map untag =
      pending.map (fun e => (none, Statement.waitEvent stream e)) ++
        ((l.zipIdx idx).map fun x => ownCode events body x.1 x.2).flatten := by
  induction l generalizing pending idx stream with
  | nil =>
      have hnil : pending = [] := by
        by_contra hne
        obtain ⟨step, hstep, -⟩ := hpend hne
        cases hstep
      simp [hnil, codeFrom]
  | cons step l ih =>
      have hlast' : ∀ s ∈ l.getLast?, s.isWait = false := by
        intro s hs
        apply hlast s
        rw [List.getLast?_cons]
        simp [Option.mem_def.mp hs]
      rw [codeFrom, List.map_append, List.zipIdx_cons, List.map_cons, List.flatten_cons]
      cases hwait : step.isWait with
      | true =>
          obtain ⟨w, rfl⟩ := Step.isWait_iff.mp hwait
          -- the next step is on the wait's stream and has a step function
          obtain ⟨next, l, rfl⟩ : ∃ next l', l = next :: l' := by
            cases l with
            | nil => exact absurd (hlast (.syncWait w) rfl) (by simp [Step.isWait])
            | cons next l => exact ⟨next, l, rfl⟩
          have hlead := (List.isChain_cons_cons.mp hchain).1 hwait
          have hhost := (List.isChain_cons_cons.mp hquiet).1 hwait
          have hsame : ∀ e ∈ pending, Statement.waitEvent (β := β) stream e =
              .waitEvent w.context.stream e := by
            intro e he
            obtain ⟨s, hs, rfl, -⟩ := hpend (List.ne_nil_of_mem he)
            obtain rfl : Step.syncWait w = s := by simpa using hs
            rfl
          have hpush : pendingAfter pending [.syncWait w] = pending ++ [w.event] := rfl
          rw [hpush, ih (pending ++ [w.event]) (idx + 1) w.context.stream
            (List.isChain_cons_cons.mp hchain).2 hlast'
            (fun s hs => hrec s (List.mem_cons_of_mem _ hs)) (List.isChain_cons_cons.mp hquiet).2
            (fun _ => ⟨next, rfl, hlead, hhost⟩), stepCode_none rfl]
          have hmap : pending.map (fun e => ((none : Option StepKey), Statement.waitEvent (β := β)
              stream e)) = pending.map fun e => (none, .waitEvent w.context.stream e) :=
            List.map_congr_left fun e he => by rw [hsame e he]
          rw [hmap]
          simp [ownCode]
      | false =>
          have hreset : pendingAfter pending [step] = [] := pendingAfter_cons hwait []
          have hrest := ih [] (idx + 1) stream hchain.tail hlast'
            (fun s hs => hrec s (List.mem_cons_of_mem _ hs)) hquiet.tail (fun h => absurd rfl h)
          rw [hreset, hrest, ownCode_of_not_wait hwait]
          cases hkey : op? (step, idx) with
          | none =>
              have hnil : pending = [] := by
                by_contra hne
                obtain ⟨s, hs, -, hhost⟩ := hpend hne
                obtain rfl : step = s := by simpa using hs
                rw [(isHostKernel_iff idx hwait).mpr hkey] at hhost
                cases hhost
              simp [hnil, stepCode_none hkey]
          | some key =>
              obtain ⟨e, he⟩ := hrec step List.mem_cons_self hwait
              have hmap : pending.map (fun e => ((none : Option StepKey), Statement.waitEvent
                  (β := β) step.stream e)) = pending.map fun e => (none, .waitEvent stream e) := by
                apply List.map_congr_left
                intro e he
                obtain ⟨s, hs, rfl, -⟩ := hpend (List.ne_nil_of_mem he)
                obtain rfl : step = s := by simpa using hs
                rfl
              rw [stepCode_pending hkey he pending, hmap]
              simp

/-! ### The exact condition -/

variable {steps : List Step} {code : List (StepKey × Statement β)} {i j k q : Nat}

theorem getElem?_untag {o : Option StepKey} {s : Statement β} :
    (code.map untag)[q]? = some (o, s) ↔
      ∃ key, code[q]? = some (key, s) ∧ o = if s.isOperation then some key else none := by
  rw [List.getElem?_map, Option.map_eq_some_iff]
  constructor
  · rintro ⟨⟨key, s'⟩, hq, heq⟩
    obtain ⟨rfl, rfl⟩ : (if s'.isOperation then some key else none) = o ∧ s' = s := by
      simpa [untag] using heq
    exact ⟨key, hq, rfl⟩
  · rintro ⟨key, hq, rfl⟩
    exact ⟨_, hq, rfl⟩

/-- The operations of a step function are those of its body, and it has one record, its own. -/
theorem mem_stepCode {pending : List EventId} {step : Step} {idx : Nat} {key : StepKey}
    {s : Statement β} (h : (key, s) ∈ stepCode events body pending step idx) :
    op? (step, idx) = some key ∧ ((∃ e ∈ pending, s = .waitEvent step.stream e) ∨ s ∈ body key ∨
      ∃ e, step.event? = some e ∧ s = .recordEvent e step.stream) := by
  cases hkey : op? (step, idx) with
  | none =>
      rw [stepCode_none hkey] at h
      cases h
  | some key' =>
      cases he : step.event? with
      | none =>
          simp only [stepCode, hkey, he] at h
          cases h
      | some e =>
          rw [stepCode_eq hkey he] at h
          obtain ⟨s', hs', heq⟩ := List.mem_map.mp h
          obtain ⟨rfl, rfl⟩ : key' = key ∧ s' = s := by simpa using heq
          refine ⟨rfl, ?_⟩
          rcases List.mem_append.mp hs' with hs' | hs'
          · rcases List.mem_append.mp hs' with hs' | hs'
            · obtain ⟨e', he', rfl⟩ := List.mem_map.mp hs'
              exact Or.inl ⟨e', he', rfl⟩
            · exact Or.inr (Or.inl hs')
          · split at hs'
            · exact Or.inr (Or.inr ⟨e, rfl, List.mem_singleton.mp hs'⟩)
            · cases hs'

/-- Every statement of the code is in the step function of some step. -/
theorem mem_codeFrom {pending : List EventId} {idx : Nat} {x : StepKey × Statement β}
    (h : x ∈ codeFrom events body pending idx steps) : ∃ i step pending',
      steps[i]? = some step ∧ x ∈ stepCode events body pending' step (idx + i) := by
  induction steps generalizing pending idx with
  | nil => cases h
  | cons step steps ih =>
      rcases List.mem_append.mp h with h | h
      · exact ⟨0, step, pending, rfl, h⟩
      · obtain ⟨i, s, pending', hi, hx⟩ := ih h
        exact ⟨i + 1, s, pending', hi, by rwa [Nat.add_right_comm, Nat.add_assoc] at hx⟩

/-- The pass emits no more waits than it has met. -/
theorem countP_codeFrom (events : List EventId)
    (hbody : ∀ key, ∀ s ∈ body key, s.isOperation = true) (l : List Step)
    (pending : List EventId) (idx : Nat) :
    (codeFrom events body pending idx l).countP (fun x => x.2.isWait) +
      (pendingAfter pending l).length ≤ pending.length + l.countP Step.isWait := by
  induction l generalizing pending idx with
  | nil => simp [codeFrom, pendingAfter]
  | cons step l ih =>
      rw [codeFrom, List.countP_append]
      cases hwait : step.isWait with
      | true =>
          obtain ⟨w, rfl⟩ := Step.isWait_iff.mp hwait
          have hrest := ih (pending ++ [w.event]) (idx + 1)
          rw [List.length_append, List.length_singleton] at hrest
          have hpush : pendingAfter pending [.syncWait w] = pending ++ [w.event] := rfl
          rw [hpush, stepCode_none rfl, pendingAfter_wait, List.countP_cons_of_pos hwait,
            List.countP_nil]
          omega
      | false =>
          have hrest := ih [] (idx + 1)
          have hreset : pendingAfter pending [step] = [] := pendingAfter_cons hwait []
          rw [hreset, pendingAfter_cons hwait, List.countP_cons_of_neg (by simp [hwait])]
          have hown : (stepCode events body pending step idx).countP (fun x => x.2.isWait) ≤
              pending.length := by
            cases hkey : op? (step, idx) with
            | none => simp [stepCode_none hkey]
            | some key =>
                cases he : step.event? with
                | none => simp [stepCode, hkey, he]
                | some e =>
                    have hzero : (body key).countP Statement.isWait = 0 := by
                      rw [List.countP_eq_zero]
                      intro s hs
                      have hop := hbody key s hs
                      cases s <;> simp_all [Statement.isOperation, Statement.isWait]
                    have hrecord : (if e ∈ events then [Statement.recordEvent (β := β) e step.stream]
                        else []).countP Statement.isWait = 0 := by
                      split <;> simp [Statement.isWait]
                    rw [stepCode_eq hkey he, List.countP_map]
                    show List.countP Statement.isWait _ ≤ _
                    rw [List.countP_append, List.countP_append, hzero, hrecord]
                    exact List.countP_le_length.trans (by simp)
          simp only [List.length_nil] at hrest
          omega

/-- A step with a step function is not a host kernel. -/
theorem exists_op? {step : Step} (idx : Nat) (hwait : step.isWait = false)
    (hhost : step.isHostKernel = false) : ∃ key, op? (step, idx) = some key := by
  cases hkey : op? (step, idx) with
  | some key => exact ⟨key, rfl⟩
  | none =>
      rw [(isHostKernel_iff idx hwait).mpr hkey] at hhost
      cases hhost

theorem HostQuiet.chain (h : HostQuiet steps) :
    steps.IsChain fun a b => a.isWait = true → b.isHostKernel = false := by
  rw [List.isChain_iff_forall_rel_of_append_cons_cons]
  rintro a b l₁ l₂ rfl hwait
  obtain ⟨w, rfl⟩ := Step.isWait_iff.mp hwait
  cases b with
  | syncWait w' => rfl
  | transfer t => rfl
  | kernel k =>
      have hcuda := h.led l₁.length w k (by simp) (by simp)
      simp [Step.isHostKernel, hcuda]

/-- The segments of the steps. -/
theorem getElem?_segments {seg : List (Option StepKey × Statement β)} :
    ((steps.zipIdx 0).map fun x => ownCode events body x.1 x.2)[i]? = some seg ↔
      ∃ step, steps[i]? = some step ∧ ownCode events body step i = seg := by
  rw [List.getElem?_map, List.getElem?_zipIdx, Option.map_map, Option.map_eq_some_iff]
  simp

/-- Quiet plans keep their waits. -/
theorem survives_of_quiet {placement : KernelId → Device} (hslots : DistinctSlots steps)
    (hblocks : Blocks S placement steps)
    (hwaits : ∀ (i : Nat) (w : SyncWaitStep), steps[i]? = some (.syncWait w) →
      ∃ j < i, ∃ step : Step, steps[j]? = some step ∧ step.event? = some w.event)
    (hevents : ∀ e, e ∈ events ↔ ∃ w, .syncWait w ∈ steps ∧ w.event = e)
    (hbody : ∀ key, ∀ s ∈ body key, s.isOperation = true) (hquiet : HostQuiet steps) :
    WaitsSurvive steps (codeFrom events body [] 0 steps) := by
  have hcode := codeFrom_untag events body steps [] 0 0 hblocks.chain hblocks.last hblocks.records
    hquiet.chain (fun h => absurd rfl h)
  rw [List.map_nil, List.nil_append] at hcode
  generalize hsegs : (steps.zipIdx 0).map (fun x => ownCode events body x.1 x.2) = segs at hcode
  have hseg : ∀ {i step}, steps[i]? = some step → segs[i]? = some (ownCode events body step i) := by
    intro i step hi
    rw [← hsegs]
    exact getElem?_segments.mpr ⟨step, hi, rfl⟩
  have hwaitSeg : ∀ {i : Nat} {w : SyncWaitStep}, steps[i]? = some (.syncWait w) →
      segs[i]? = some [(none, Statement.waitEvent w.context.stream w.event)] := fun hi => hseg hi
  -- every position of the code is in the segment of a step
  have hfind : ∀ {q key s}, (codeFrom events body [] 0 steps)[q]? = some (key, s) →
      ∃ i step k, steps[i]? = some step ∧ q = start segs i + k ∧
        (ownCode events body step i)[k]? = some (if s.isOperation then some key else none, s) := by
    intro q key s hq
    have huntag := getElem?_untag.mpr ⟨key, hq, rfl⟩
    rw [hcode] at huntag
    obtain ⟨i, seg, k, hi, hk, heq⟩ := exists_segment huntag
    rw [← hsegs] at hi
    obtain ⟨step, hstep, rfl⟩ := getElem?_segments.mp hi
    exact ⟨i, step, k, hstep, heq, hk⟩
  have hplace : ∀ {i : Nat} {w : SyncWaitStep}, steps[i]? = some (.syncWait w) → ∃ key,
      (codeFrom events body [] 0 steps)[start segs i]? =
        some (key, .waitEvent w.context.stream w.event) := by
    intro i w hi
    have hget := getElem?_start_add (hwaitSeg hi) (k := 0) (by simp)
    rw [← hcode, Nat.add_zero] at hget
    obtain ⟨key, hkey, -⟩ := getElem?_untag.mp hget
    exact ⟨key, hkey⟩
  refine ⟨start segs, ⟨?_, ?_, ?_⟩, ?_⟩
  · rintro i ⟨step, hi, hwait⟩
    obtain ⟨w, rfl⟩ := Step.isWait_iff.mp hwait
    obtain ⟨key, hkey⟩ := hplace hi
    exact ⟨_, hkey, rfl⟩
  · rintro i ⟨a, hi, ha⟩ j ⟨b, hj, hb⟩ heq
    obtain ⟨w, rfl⟩ := Step.isWait_iff.mp ha
    obtain ⟨w', rfl⟩ := Step.isWait_iff.mp hb
    rcases Nat.lt_trichotomy i j with hlt | rfl | hlt
    · have := start_lt (hwaitSeg hi) (k := 0) (by simp) hlt
      omega
    · rfl
    · have := start_lt (hwaitSeg hj) (k := 0) (by simp) hlt
      omega
  · rintro q ⟨⟨key, s⟩, hq, hwait⟩
    obtain ⟨i, step, k, hi, rfl, hk⟩ := hfind hq
    cases hstep : step.isWait with
    | true =>
        obtain ⟨w, rfl⟩ := Step.isWait_iff.mp hstep
        have hzero : k = 0 := by
          have hlt := (List.getElem?_eq_some_iff.mp hk).1
          simpa [ownCode] using hlt
        exact ⟨i, ⟨_, hi, rfl⟩, by rw [hzero, Nat.add_zero]⟩
    | false =>
        -- a step that is no wait has none of its own
        rw [ownCode_of_not_wait hstep, getElem?_untag] at hk
        obtain ⟨key', hk, -⟩ := hk
        obtain ⟨-, ⟨e, he, -⟩ | hmem | ⟨e, -, rfl⟩⟩ := mem_stepCode (List.mem_of_getElem? hk)
        · cases he
        · have hop := hbody key' s hmem
          cases s <;> simp_all [Statement.isOperation, Statement.isWait]
        · cases hwait
  · intro i w hi
    refine ⟨hplace hi, ?_, ?_⟩
    · obtain ⟨j, hji, step, hj, he⟩ := hwaits i w hi
      have hwait : step.isWait = false := by
        cases step with
        | syncWait w' => cases he
        | kernel k => rfl
        | transfer t => rfl
      have hhost : step.isHostKernel = false := by
        cases step with
        | kernel k =>
            have hcuda := hquiet.records k w (List.mem_of_getElem? hj) (List.mem_of_getElem? hi) he
            simp [Step.isHostKernel, hcuda]
        | syncWait w' => rfl
        | transfer t => rfl
      obtain ⟨key, hkey⟩ := exists_op? j hwait hhost
      have hmem : (key, Statement.recordEvent w.event step.stream) ∈
          stepCode events body [] step j := by
        rw [stepCode_eq hkey he]
        have hin := (hevents w.event).mpr ⟨w, List.mem_of_getElem? hi, rfl⟩
        simp [hin]
      obtain ⟨k, hk⟩ := List.getElem?_of_mem hmem
      have hown := getElem?_untag.mpr ⟨key, hk, rfl⟩
      rw [← ownCode_of_not_wait hwait] at hown
      have hlt := (List.getElem?_eq_some_iff.mp hown).1
      have hget := getElem?_start_add (hseg hj) hlt
      rw [hown, ← hcode] at hget
      obtain ⟨key', hkey', -⟩ := getElem?_untag.mp hget
      exact ⟨_, start_lt (hseg hj) hlt hji, key', step.stream, hkey'⟩
    · intro j step key q stmt hij hj hkey hstream hq hop
      obtain ⟨j', step', k, hj', rfl, hk⟩ := hfind hq
      rw [if_pos hop] at hk
      have hslot' : step'.slot? j' = some key := by
        cases hstep : step'.isWait with
        | true =>
            obtain ⟨w', rfl⟩ := Step.isWait_iff.mp hstep
            have := List.mem_of_getElem? hk
            simp [ownCode] at this
        | false =>
            rw [ownCode_of_not_wait hstep, getElem?_untag] at hk
            obtain ⟨key', hk, heq⟩ := hk
            obtain rfl : key = key' := by simpa [hop] using heq
            exact slot?_of_op? (mem_stepCode (List.mem_of_getElem? hk)).1
      obtain rfl := hslots j j' step step' key hj hj' (slot?_of_op? hkey) hslot'
      have := start_lt (hwaitSeg hi) (k := 0) (by simp) hij
      omega

/-- A plan that keeps its waits is quiet: a dropped wait is missing from the count, and nothing else
records the event of a host kernel. -/
theorem quiet_of_survives (honce : ∀ w, .syncWait w ∈ steps →
      steps.countP (fun s => s.event? == some w.event) = 1)
    (hbody : ∀ key, ∀ s ∈ body key, s.isOperation = true)
    (h : WaitsSurvive steps (codeFrom events body [] 0 steps)) : HostQuiet steps := by
  obtain ⟨pos, hbij, hkeeps⟩ := h
  constructor
  · intro i w k hi hnext
    by_contra hdev
    have hcount := countP_eq_of_bijOn hbij
    obtain ⟨pre, post, hsteps, rfl⟩ : ∃ pre post, steps = (pre ++ [.syncWait w]) ++ .kernel k :: post ∧
        pre.length = i := by
      have hlt := (List.getElem?_eq_some_iff.mp hnext).1
      refine ⟨steps.take i, steps.drop (i + 2), ?_, by simp; omega⟩
      have hw := (List.getElem?_eq_some_iff.mp hi).2
      have hk := (List.getElem?_eq_some_iff.mp hnext).2
      calc steps = steps.take (i + 1) ++ steps.drop (i + 1) := (List.take_append_drop _ _).symm
        _ = _ := by
          rw [List.take_succ_eq_append_getElem (by omega), hw, List.drop_eq_getElem_cons hlt, hk]
    have hpre := countP_codeFrom events hbody (pre ++ [.syncWait w]) [] 0
    have hdrop : ∀ pending idx, codeFrom events body pending idx (.kernel k :: post) =
        codeFrom events body [] (idx + 1) post := by
      intro pending idx
      rw [codeFrom, stepCode_none (by simp [op?, hdev])]
      rfl
    have hpost := countP_codeFrom events hbody post []
      (0 + (pre ++ [Step.syncWait w]).length + 1)
    have hpend : 0 < (pendingAfter [] (pre ++ [.syncWait w])).length := by
      rw [pendingAfter_append, pendingAfter_wait]
      simp [pendingAfter]
    have hkernel : (Step.kernel k :: post).countP Step.isWait = post.countP Step.isWait := by
      simp [Step.isWait]
    rw [hsteps, codeFrom_append, hdrop] at hcount
    simp only [List.countP_append, hkernel] at hcount hpre
    simp only [List.length_nil] at hpre hpost
    omega
  · intro k w hk hw he
    by_contra hdev
    obtain ⟨i, hi⟩ := List.getElem?_of_mem hw
    obtain ⟨j, hj⟩ := List.getElem?_of_mem hk
    obtain ⟨r, -, key, stream, hr⟩ := (hkeeps i w hi).recorded
    obtain ⟨j', step, pending, hj', hmem⟩ := mem_codeFrom (List.mem_of_getElem? hr)
    obtain ⟨hkey, ⟨e, -, hs⟩ | hs | ⟨e, hev, hs⟩⟩ := mem_stepCode hmem
    · cases hs
    · have hop := hbody key _ hs
      cases hop
    · obtain rfl : w.event = e := by
        injection hs
      have huniq := position_unique (Nat.le_of_eq (honce w hw)) (i := j) (j := j')
        ⟨_, hj, by simp [Step.event?, he]⟩ ⟨_, hj', by simp [hev]⟩
      subst huniq
      obtain rfl : Step.kernel k = step := by simpa using hj.symm.trans hj'
      exact hdev (op?_kernel.mp hkey).1

/-! ### Plans of the scheduler -/

/-- The body of a step function neither waits nor records. -/
theorem opBody_isOperation {key : StepKey} {b : List (Statement β)}
    (h : opBody S plan launch key = .ok b) : ∀ s ∈ b, s.isOperation = true := by
  cases key with
  | kernel kid =>
      obtain ⟨ops, -, rfl⟩ := map_eq_ok.mp h
      intro s hs
      obtain ⟨op, -, rfl⟩ := List.mem_map.mp hs
      rfl
  | transfer idx =>
      simp only [opBody] at h
      split at h
      · rename_i t _
        unfold transferBody at h
        split at h
        · obtain rfl := Except.ok.inj h
          simp
        · obtain ⟨src, -, h⟩ := do_eq_ok.mp h
          obtain ⟨dst, -, h⟩ := do_eq_ok.mp h
          obtain rfl := Except.ok.inj h
          intro s hs
          rw [List.mem_singleton.mp hs]
          rfl
      · cases h

theorem placeIdentifier_ok {p : AllocPlace} (h : plan.HasPlace S p) :
    placeIdentifier plan p = .ok p := by
  cases p with
  | chunk c =>
      obtain ⟨info, hinfo, rfl⟩ := h
      have hany : plan.chunks.any (fun x => x.id == info.id) = true :=
        List.any_eq_true.mpr ⟨info, hinfo, by simp⟩
      simp [placeIdentifier, hany]
  | sessionState v => rfl
  | initializer v => rfl
  | input v => rfl
  | output v => rfl

theorem transferBody_ok {t : TransferStep} (hsrc : plan.HasPlace S t.src.place)
    (hdst : plan.HasPlace S t.dst.place) :
    ∃ b, transferBody (β := β) S plan t = .ok b := by
  unfold transferBody
  split
  · exact ⟨_, rfl⟩
  · rw [placeIdentifier_ok hsrc, placeIdentifier_ok hdst]
    exact ⟨_, rfl⟩

/-- Each kernel has one step, so its key is filed once. -/
theorem Complete.distinctSlots {placement : KernelId → Device} (h : Complete S steps)
    (hblocks : Blocks S placement steps) : DistinctSlots steps := by
  intro i j a b key hi hj ha hb
  cases a with
  | syncWait w => cases ha
  | transfer t =>
      obtain rfl := Option.some.inj ha
      cases b with
      | transfer t' => simpa [Step.slot?] using hb.symm
      | kernel k => simp [Step.slot?] at hb
      | syncWait w => cases hb
  | kernel k =>
      obtain rfl := Option.some.inj ha
      cases b with
      | transfer t' => simp [Step.slot?] at hb
      | syncWait w => cases hb
      | kernel k' =>
          have hkid : k'.kernel = k.kernel := by simpa [Step.slot?] using hb
          have honce := h.once k.kernel (hblocks.kernels k (List.mem_of_getElem? hi)).1
          exact position_unique (Nat.le_of_eq honce) ⟨_, hi, by simp [Step.runs]⟩
            ⟨_, hj, by simp [Step.runs, hkid]⟩

/-- What the waits of a complete plan wait for, by positions. -/
theorem Complete.recorded (h : Complete S steps) {w : SyncWaitStep}
    (hi : steps[i]? = some (.syncWait w)) :
    (∃ j < i, ∃ step : Step, steps[j]? = some step ∧ step.event? = some w.event) ∧
      steps.countP (fun s => s.event? == some w.event) = 1 := by
  have hlt := (List.getElem?_eq_some_iff.mp hi).1
  have hsplit : steps = steps.take i ++ .syncWait w :: steps.drop (i + 1) := by
    rw [← (List.getElem?_eq_some_iff.mp hi).2, List.getElem_cons_drop, List.take_append_drop]
  obtain ⟨kid, -, -, ⟨s, hs, hevent, -⟩, honce⟩ := h.waits _ w _ hsplit
  obtain ⟨j, hj⟩ := List.getElem?_of_mem hs
  have hji : j < i := by
    have := (List.getElem?_eq_some_iff.mp hj).1
    rw [List.length_take] at this
    omega
  refine ⟨⟨j, hji, s, ?_, hevent⟩, honce⟩
  rw [List.getElem?_take_of_lt hji] at hj
  exact hj

namespace MemoryAware

open SchedState

/-- The host code of a plan keeps every wait exactly when the plan is quiet about its host kernels.
The code exists when the body of every kernel can be emitted. -/
theorem survives_iff (hS : S.WellFormed) (numStreams : Nat) (placement : KernelId → Device) :
    ∃ plan, build S numStreams placement = some plan ∧
      ∀ launch : KernelId → Except HostCodeError (List β),
        ((∀ kid ∈ S.kernelIds, ∃ ops, launch kid = .ok ops) →
          ∃ code, hostCode S plan launch = .ok code) ∧
        ∀ code, hostCode S plan launch = .ok code →
          (WaitsSurvive plan.steps code ↔ HostQuiet plan.steps) := by
  obtain ⟨s, hs, hall, hbuild⟩ := build_spec hS numStreams placement
  have hblocks := Blocks.finals (deliveredValues s.steps) s.toSchedState S.outputs s.steps
    s.nextEventId (hs.blocks hS)
  have hcomplete : Complete S (s.steps ++
      finalSteps S (deliveredValues s.steps) s.toSchedState s.nextEventId S.outputs) :=
    (Trace.finals hS (deliveredValues s.steps) s.toSchedState S.outputs _ _
    (hs.trace hS)).complete hS hall
  have hslots := hcomplete.distinctSlots hblocks
  refine ⟨_, hbuild, fun launch => ?_⟩
  generalize hplan : intoPlan (streamsFor S numStreams placement) _ = plan
  have hsteps : plan.steps = s.steps ++
      finalSteps S (deliveredValues s.steps) s.toSchedState s.nextEventId S.outputs := by
    rw [← hplan]
    rfl
  rw [← hsteps] at hblocks hcomplete hslots
  obtain ⟨hcode, hexists⟩ := hostCode_eq S plan launch hslots hblocks.records
  constructor
  · intro hlaunch
    refine hexists fun key hkey => ?_
    obtain ⟨i, step, hi, hop⟩ := mem_opKeys.mp hkey
    have hmem := List.mem_of_getElem? hi
    cases step with
    | syncWait w => cases hop
    | kernel k =>
        obtain ⟨-, rfl⟩ := op?_kernel.mp hop
        obtain ⟨ops, hops⟩ := hlaunch k.kernel (hblocks.kernels k hmem).1
        exact ⟨_, by rw [opBody, hops]; rfl⟩
    | transfer t =>
        obtain rfl := Option.some.inj hop
        have hplace : ∀ b ∈ (Step.transfer t).bindings, plan.HasPlace S b.place := by
          intro b hb
          rw [← hplan]
          exact hs.hasPlace hS (hsteps ▸ hmem) hb
        simp only [opBody, hi]
        exact transferBody_ok (hplace t.src (by simp [Step.bindings]))
          (hplace t.dst (by simp [Step.bindings]))
  · intro code hok
    obtain ⟨events, body, hevents, hbody, rfl⟩ := hcode code hok
    have hops : ∀ key, ∀ s ∈ body key, s.isOperation = true := by
      intro key s hs
      obtain ⟨b, hb, hmem⟩ := hbody key s hs
      exact opBody_isOperation hb s hmem
    constructor
    · apply quiet_of_survives (fun w hw => ?_) hops
      obtain ⟨i, hi⟩ := List.getElem?_of_mem hw
      exact (hcomplete.recorded hi).2
    · exact survives_of_quiet hslots hblocks (fun i w hi => (hcomplete.recorded hi).1) hevents hops

/-- A host kernel that joins two host kernels of different streams, next to a kernel on the GPU. -/
def joinOnHost : Schedule where
  inputs := [0]
  outputs := [3, 4]
  initializers := []
  sessionStates := []
  kernels := [.unary .reLU 0 1, .unary .reLU 0 2,
    { inputs := [some 1, some 2], outputs := [3], body := .opaqueOp .matMul }, .unary .reLU 0 4]
  valueType := fun _ => .new (.float .F32) [4]

theorem joinOnHost_wellFormed : joinOnHost.WellFormed := by decide

theorem joinOnHost_survives_iff : ∃ plan,
    build joinOnHost 2 (fun kid => if kid = 3 then .CUDA else .CPU) = some plan ∧
      ∀ launch : KernelId → Except HostCodeError (List KernelId),
        ((∀ kid ∈ joinOnHost.kernelIds, ∃ ops, launch kid = .ok ops) →
          ∃ code, hostCode joinOnHost plan launch = .ok code) ∧
        ∀ code, hostCode joinOnHost plan launch = .ok code →
          (WaitsSurvive plan.steps code ↔ HostQuiet plan.steps) :=
  survives_iff joinOnHost_wellFormed 2 _

/-- The wait before the joining kernel is not in the host code. -/
theorem joinOnHost_not_survives : joinOnHost.WellFormed ∧ ∃ plan code,
    build joinOnHost 2 (fun kid => if kid = 3 then .CUDA else .CPU) = some plan ∧
      hostCode joinOnHost plan (fun kid => .ok [kid]) = .ok code ∧
      plan.steps.countP Step.isWait = 1 ∧ code.countP (fun x => x.2.isWait) = 0 ∧
      ¬ WaitsSurvive plan.steps code := by
  refine ⟨joinOnHost_wellFormed, _, _, rfl, rfl, by decide, by decide, ?_⟩
  rintro ⟨pos, hbij, -⟩
  exact absurd (countP_eq_of_bijOn hbij) (by decide)

end MemoryAware
end NnEngine
