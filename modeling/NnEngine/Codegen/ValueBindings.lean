import NnEngine.Schedule.Basic
import NnEngine.Schedule.Ir
import NnEngine.UndoLog

/-!
# The places of values while a kernel is emitted

`ValueBindingResolver` knows one place for each value.  For the time a kernel is emitted, `enter_kernel` puts
the kernel's own bindings over them, and `exit_kernel` replays what it logged.
-/

namespace NnEngine

open UndoLog

structure ValueBindingResolver where
  value2place : ValueId → Option AllocPlace
  rollback : Option (List (ValueId × Option AllocPlace))

namespace ValueBindingResolver

/-- The values of a kernel step and their places, in the order of its bindings. -/
def entries (bindings : List ValueBinding) : List (ValueId × AllocPlace) := bindings.map fun b => (b.value, b.place)

/-- The insertions of `new`: of two places for one value the later one stays. -/
def globalPlaces (S : Schedule) (plan : ExecutionPlan) : List (ValueId × AllocPlace) :=
  S.inputs.map (fun v => (v, .input v)) ++ S.outputs.map (fun v => (v, .output v)) ++
    S.initializers.map (fun v => (v, .initializer v)) ++ S.sessionStates.map (fun v => (v, .sessionState v)) ++
    plan.steps.flatMap fun
      | .kernel k => entries k.bindings
      | .transfer _ | .syncWait _ => []

def new (S : Schedule) (plan : ExecutionPlan) : ValueBindingResolver where
  value2place := (insertAll (fun _ => none) (globalPlaces S plan)).1
  rollback := none

/-- The bindings of the first step with this kernel. -/
def stepBindings (plan : ExecutionPlan) (kernelId : KernelId) : List ValueBinding :=
  (plan.steps.findSome? fun
    | .kernel k => if k.kernel = kernelId then some k.bindings else none
    | _ => none).getD []

/-- It panics inside another kernel. -/
def enterKernel (plan : ExecutionPlan) (r : ValueBindingResolver) (kernelId : KernelId) :
    Option ValueBindingResolver :=
  if r.rollback.isSome then none
  else
    let (value2place, rollback) := insertAll r.value2place (entries (stepBindings plan kernelId))
    some { value2place, rollback := some rollback }

/-- It panics outside of kernels. -/
def exitKernel (r : ValueBindingResolver) : Option ValueBindingResolver :=
  r.rollback.map fun savedPlaces => { value2place := replay r.value2place savedPlaces, rollback := none }

/-- What `call_kernel` does with the resolver. -/
def callKernel (plan : ExecutionPlan) (r : ValueBindingResolver) (kernelId : KernelId) :
    Option ValueBindingResolver :=
  (r.enterKernel plan kernelId).bind exitKernel

/-- Each of the kernels, called one after the other, leaves the places as they were before it. -/
def RestoresAll (plan : ExecutionPlan) : ValueBindingResolver → List KernelId → Prop
  | _, [] => True
  | r, kernelId :: kernels => ∃ r', r.callKernel plan kernelId = some r' ∧ r'.value2place = r.value2place ∧
      RestoresAll plan r' kernels

/-- A value that is bound more than once has its last but one binding where the value is outside the kernel. -/
def KeepsPlaces (value2place : ValueId → Option AllocPlace) (bindings : List ValueBinding) : Prop :=
  ∀ v place, beforeLast v (entries bindings) = some place → value2place v = some place

theorem callKernel_eq (plan : ExecutionPlan) (value2place : ValueId → Option AllocPlace) (kernelId : KernelId) :
    ∃ places, callKernel plan ⟨value2place, none⟩ kernelId = some ⟨places, none⟩ ∧
      (places = value2place ↔ KeepsPlaces value2place (stepBindings plan kernelId)) :=
  ⟨_, rfl, replay_insertAll_eq_iff⟩

/-- The places survive a sequence of kernels exactly when none of them binds a value a second time from
another place. -/
theorem restoresAll_iff (plan : ExecutionPlan) (value2place : ValueId → Option AllocPlace) (kernels : List KernelId) :
    RestoresAll plan ⟨value2place, none⟩ kernels ↔
      ∀ kernelId ∈ kernels, KeepsPlaces value2place (stepBindings plan kernelId) := by
  induction kernels with
  | nil => simp [RestoresAll]
  | cons kernelId kernels ih =>
      obtain ⟨places, hcall, hplaces⟩ := callKernel_eq plan value2place kernelId
      rw [RestoresAll, List.forall_mem_cons, ← hplaces, ← ih]
      constructor
      · rintro ⟨r', hr', hsame, hrest⟩
        obtain rfl := Option.some.inj (hcall.symm.trans hr')
        obtain rfl : places = value2place := hsame
        exact ⟨rfl, hrest⟩
      · rintro ⟨rfl, hrest⟩
        exact ⟨_, hcall, rfl, hrest⟩

/-- A weight on the host is both operands of a multiplication, and each operand has a staging chunk. -/
def stagedTwice : Schedule × ExecutionPlan :=
  let binding (value : ValueId) (role : BindingRole) (place : AllocPlace) : ValueBinding :=
    { value, role, place, isFirstUse := false }
  let step : KernelStep :=
    { kernel := 0
      context := { device := .CUDA, stream := 0 }
      bindings := [binding 0 .input (.chunk 0), binding 0 .input (.chunk 1), binding 1 .output (.output 1)]
      recordsEvent := none }
  ({ inputs := [], outputs := [1], initializers := [0], sessionStates := [],
     kernels := [{ inputs := [some 0, some 0], outputs := [1], body := .opaqueOp .matMul }],
     valueType := fun _ => .new (.float .F32) [2, 2] },
   { steps := [.kernel step], chunks := [], arenas := [], events := [], streamCount := 1 })

/-- After the kernel the weight is at the first of its chunks, before it was at the second. -/
theorem stagedTwice_not_restored :
    ¬RestoresAll stagedTwice.2 (new stagedTwice.1 stagedTwice.2) [0] := by
  rintro ⟨r', hr', hsame, -⟩
  have hbefore : (new stagedTwice.1 stagedTwice.2).value2place 0 = some (.chunk 1) := by decide
  have hafter : (callKernel stagedTwice.2 (new stagedTwice.1 stagedTwice.2) 0).map (fun r => r.value2place 0) =
      some (some (.chunk 0)) := by decide
  rw [hr', Option.map_some, hsame, hbefore] at hafter
  cases hafter

end ValueBindingResolver
end NnEngine
