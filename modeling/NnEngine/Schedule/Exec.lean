import NnEngine.Schedule.WellFormed

/-!
# Running a plan

The meaning of a plan's steps over the places they name: a kernel reads all its input places, leaves
anything in its workspaces and then writes all its output places; a transfer copies its source place;
a wait changes nothing.  `ReadsOk` says that every read of a list of steps finds the value it is
bound to.
-/

namespace NnEngine

/-- The contents of every place. -/
abbrev Mem (α : Type*) := AllocPlace → α

/-- The bindings of one role, in order. -/
def KernelStep.bindingsOf (k : KernelStep) (role : BindingRole) : List ValueBinding :=
  k.bindings.filter fun b => b.role == role

/-- The bindings that a step reads. -/
def Step.reads : Step → List ValueBinding
  | .kernel k => k.bindingsOf .input
  | .transfer t => [t.src]
  | .syncWait _ => []

/-- The bindings that a step writes, workspaces included. -/
def Step.writes : Step → List ValueBinding
  | .kernel k => k.bindingsOf .workspace ++ k.bindingsOf .output
  | .transfer t => [t.dst]
  | .syncWait _ => []

/-- The step writes the place. -/
def Step.Writes (step : Step) (p : AllocPlace) : Prop :=
  ∃ b ∈ step.writes, b.place = p

instance (step : Step) (p : AllocPlace) : Decidable (step.Writes p) :=
  inferInstanceAs (Decidable (∃ b ∈ step.writes, b.place = p))

/-- The stream whose queue the step is put on. -/
def Step.stream : Step → StreamId
  | .kernel k => k.context.stream
  | .syncWait w => w.context.stream
  | .transfer t => t.context.stream

/-- The event that the step records. -/
def Step.event? : Step → Option EventId
  | .kernel k => k.recordsEvent
  | .syncWait _ => none
  | .transfer t => t.recordsEvent

/-- The step is a transfer of one value to the place. -/
def Step.IsCopy (v : ValueId) (p : AllocPlace) (step : Step) : Prop :=
  ∃ t, step = .transfer t ∧ t.src.value = v ∧ t.dst.value = v ∧ t.dst.place = p

/-- A list that ends in `a` splits at `a` or before it. -/
theorem append_singleton_eq_append_cons {α : Type*} {l pre post : List α} {a x : α}
    (h : l ++ [a] = pre ++ x :: post) :
    post = [] ∧ pre = l ∧ x = a ∨ ∃ post', post = post' ++ [a] ∧ l = pre ++ x :: post' := by
  rcases List.eq_nil_or_concat post with rfl | ⟨post, last, rfl⟩
  · obtain ⟨rfl, hlast⟩ := List.append_inj' h rfl
    exact Or.inl ⟨rfl, rfl, by simpa using hlast.symm⟩
  · have h' : l ++ [a] = (pre ++ x :: post) ++ [last] := by simpa using h
    obtain ⟨hl, hlast⟩ := List.append_inj' h' rfl
    obtain rfl : a = last := by simpa using hlast
    exact Or.inr ⟨post, by simp, hl⟩

section Run

variable {S : Schedule} {α : Type*} (I : Interp S α)

/-- The writes of a kernel whose arguments are `xs`: the scratch contents, then the outputs. -/
def writeScratch (k : KernelStep) (xs : List α) (mem : Mem α) : Mem α :=
  (k.bindingsOf .workspace).foldl
    (fun m b => Function.update m b.place (I.scratch k.kernel xs b.value)) mem

def writeOutputs (k : KernelStep) (xs : List α) (mem : Mem α) : Mem α :=
  (k.bindingsOf .output).zipIdx.foldl
    (fun m bj => Function.update m bj.1.place (I.out k.kernel xs bj.2)) mem

/-- One step. -/
def execStep (mem : Mem α) : Step → Mem α
  | .kernel k =>
      let xs := (k.bindingsOf .input).map fun b => mem b.place
      writeOutputs I k xs (writeScratch I k xs mem)
  | .transfer t => Function.update mem t.dst.place (mem t.src.place)
  | .syncWait _ => mem

/-- The steps in list order. -/
def execSteps (steps : List Step) (mem : Mem α) : Mem α :=
  steps.foldl (execStep I) mem

/-- Every binding that a step of the list reads holds its value at that moment. -/
def ReadsOk (steps : List Step) (mem : Mem α) : Prop :=
  ∀ pre step post, steps = pre ++ step :: post →
    ∀ b ∈ step.reads, execSteps I pre mem b.place = S.denote I b.value

variable {I}

@[simp] theorem execSteps_append (l l' : List Step) (mem : Mem α) :
    execSteps I (l ++ l') mem = execSteps I l' (execSteps I l mem) := by
  simp [execSteps]

@[simp] theorem execSteps_singleton (step : Step) (mem : Mem α) :
    execSteps I [step] mem = execStep I mem step := rfl

theorem readsOk_nil (mem : Mem α) : ReadsOk I [] mem := by
  intro pre step post h
  simp at h

/-- One more step of a run in which every read was right. -/
theorem ReadsOk.concat {l : List Step} {mem : Mem α} (h : ReadsOk I l mem) {step : Step}
    (hstep : ∀ b ∈ step.reads, execSteps I l mem b.place = S.denote I b.value) :
    ReadsOk I (l ++ [step]) mem := by
  intro pre step' post heq b hb
  rcases append_singleton_eq_append_cons heq with ⟨-, rfl, rfl⟩ | ⟨post', -, heq'⟩
  · exact hstep b hb
  · exact h pre step' post' heq' b hb

/-- Waits read and write nothing. -/
theorem ReadsOk.append_waits {l waits : List Step} {mem : Mem α} (h : ReadsOk I l mem)
    (hw : ∀ s ∈ waits, ∃ w, s = .syncWait w) : ReadsOk I (l ++ waits) mem := by
  induction waits using List.reverseRecOn with
  | nil => simpa using h
  | append_singleton waits s ih =>
      obtain ⟨w, rfl⟩ := hw s (by simp)
      rw [← List.append_assoc]
      refine (ih fun s hs => hw s (by simp [hs])).concat ?_
      simp [Step.reads]

theorem execSteps_waits {waits : List Step} (mem : Mem α)
    (hw : ∀ s ∈ waits, ∃ w, s = .syncWait w) : execSteps I waits mem = mem := by
  induction waits with
  | nil => rfl
  | cons s waits ih =>
      obtain ⟨w, rfl⟩ := hw s List.mem_cons_self
      exact ih fun s hs => hw s (List.mem_cons_of_mem _ hs)

/-! ### What a kernel's writes leave alone -/

theorem foldl_update_of_not_mem {β : Type*} (l : List β) (place : β → AllocPlace) (f : β → α)
    (mem : Mem α) {p : AllocPlace} (hp : ∀ b ∈ l, place b ≠ p) :
    l.foldl (fun m b => Function.update m (place b) (f b)) mem p = mem p := by
  induction l generalizing mem with
  | nil => rfl
  | cons b l ih =>
      rw [List.foldl_cons, ih _ fun b hb => hp b (List.mem_cons_of_mem _ hb)]
      exact Function.update_of_ne (hp b List.mem_cons_self).symm _ _

/-- A place that is written several times with one value ends with it. -/
theorem foldl_update_of_mem {β : Type*} (l : List β) (place : β → AllocPlace) (f : β → α)
    (mem : Mem α) {p : AllocPlace} {x : α} (hex : ∃ b ∈ l, place b = p)
    (hx : ∀ b ∈ l, place b = p → f b = x) :
    l.foldl (fun m b => Function.update m (place b) (f b)) mem p = x := by
  induction l using List.reverseRecOn with
  | nil => obtain ⟨b, hb, -⟩ := hex; cases hb
  | append_singleton l a ih =>
      rw [List.foldl_append, List.foldl_cons, List.foldl_nil]
      by_cases ha : place a = p
      · rw [ha, Function.update_self]
        exact hx a (by simp) ha
      · rw [Function.update_of_ne (Ne.symm ha)]
        apply ih
        · obtain ⟨b, hb, hp⟩ := hex
          rcases List.mem_append.mp hb with hb | hb
          · exact ⟨b, hb, hp⟩
          · rw [List.mem_singleton.mp hb] at hp
            exact absurd hp ha
        · exact fun b hb => hx b (List.mem_append_left _ hb)

/-- A step leaves the places alone that it does not write. -/
theorem execStep_of_not_writes {step : Step} {mem : Mem α} {p : AllocPlace}
    (hp : ¬ step.Writes p) : execStep I mem step p = mem p := by
  have hne : ∀ b ∈ step.writes, b.place ≠ p := fun b hb h => hp ⟨b, hb, h⟩
  cases step with
  | kernel k =>
      have hscratch : ∀ b ∈ k.bindingsOf .workspace, b.place ≠ p :=
        fun b hb => hne b (List.mem_append_left _ hb)
      have houts : ∀ bj ∈ (k.bindingsOf .output).zipIdx, bj.1.place ≠ p := fun bj hbj =>
        hne bj.1 (List.mem_append_right _ (List.fst_mem_of_mem_zipIdx hbj))
      let xs := (k.bindingsOf .input).map fun b => mem b.place
      calc writeOutputs I k xs (writeScratch I k xs mem) p
          = writeScratch I k xs mem p :=
            foldl_update_of_not_mem _ (fun bj : ValueBinding × Nat => bj.1.place)
              (fun bj => I.out k.kernel xs bj.2) _ houts
        _ = mem p := foldl_update_of_not_mem _ ValueBinding.place
            (fun b => I.scratch k.kernel xs b.value) _ hscratch
  | transfer t =>
      have ht : t.dst.place ≠ p := hne t.dst (List.mem_singleton_self _)
      exact Function.update_of_ne ht.symm _ _
  | syncWait w => rfl

theorem execSteps_of_not_writes {steps : List Step} {mem : Mem α} {p : AllocPlace}
    (hp : ∀ step ∈ steps, ¬ step.Writes p) : execSteps I steps mem p = mem p := by
  induction steps generalizing mem with
  | nil => rfl
  | cons step steps ih =>
      show execSteps I steps (execStep I mem step) p = _
      rw [ih fun s hs => hp s (List.mem_cons_of_mem _ hs)]
      exact execStep_of_not_writes (hp step List.mem_cons_self)

/-- A place that only ever gets one value has it once it is written. -/
theorem execSteps_of_writes {steps : List Step} {mem : Mem α} {p : AllocPlace} {x : α}
    (hreads : ReadsOk I steps mem) (hex : ∃ step ∈ steps, step.Writes p)
    (hx : ∀ step ∈ steps, step.Writes p → ∀ m : Mem α,
      (∀ b ∈ step.reads, m b.place = S.denote I b.value) → execStep I m step p = x) :
    execSteps I steps mem p = x := by
  induction steps using List.reverseRecOn with
  | nil => obtain ⟨s, hs, -⟩ := hex; cases hs
  | append_singleton steps step ih =>
      rw [execSteps_append, execSteps_singleton]
      by_cases hw : step.Writes p
      · exact hx step (by simp) hw _ (hreads steps step [] rfl)
      · rw [execStep_of_not_writes hw]
        apply ih
        · intro pre s post heq b hb
          exact hreads pre s (post ++ [step]) (by simp [heq]) b hb
        · obtain ⟨s, hs, hsw⟩ := hex
          rcases List.mem_append.mp hs with hs | hs
          · exact ⟨s, hs, hsw⟩
          · rw [List.mem_singleton.mp hs] at hsw
            exact absurd hsw hw
        · exact fun s hs => hx s (List.mem_append_left _ hs)

end Run

end NnEngine
