import NnEngine.Schedule.Scheduler.Common

/-!
# Well-formed schedules and the values they compute

`Schedule.WellFormed` collects what `build_kernels` guarantees of the schedule of an acyclic graph:
every value has one producer, the kernel arena is in dependency order, a scratch workspace is read
once, and the operators that forward or update a buffer have the arity of their definition.

`Interp` interprets the kernels as functions of their argument list; `Schedule.denote` evaluates the
graph, kernel by kernel, and is the reference the execution plans are compared with.
-/

namespace NnEngine

/-- A kernel with one present input and one output. -/
def Kernel.isUnary (k : Kernel) : Bool :=
  match k.inputs, k.outputs with
  | [some _], [_] => true
  | _, _ => false

theorem Kernel.isUnary_iff (k : Kernel) :
    k.isUnary = true ↔ ∃ x y, k.inputs = [some x] ∧ k.outputs = [y] := by
  unfold Kernel.isUnary
  split
  · rename_i x y hin hout
    simp [hin, hout]
  · rename_i hne
    constructor
    · intro h
      exact absurd h (by simp)
    · rintro ⟨x, y, hin, hout⟩
      exact absurd hout (hne x y hin)

namespace Schedule

variable {S : Schedule} {v : ValueId} {kid : Nat}

/-- A value that the scheduler treats as a workspace: nothing defines it. -/
def isScratch (S : Schedule) (v : ValueId) : Bool :=
  !S.initializers.contains v && S.isWorkspace v

/-- The kernel's present inputs that carry a value, in order. -/
def args (S : Schedule) (kid : KernelId) : List ValueId :=
  (S.kernel kid).presentInputs.filter fun v => !S.isScratch v

/-- What holds of a schedule built from an acyclic graph. -/
structure WellFormed (S : Schedule) : Prop where
  produced_once : ∀ i ∈ S.kernelIds, ∀ j ∈ S.kernelIds, ∀ v ∈ (S.kernel i).outputs,
    v ∈ (S.kernel j).outputs → i = j
  outputs_nodup : ∀ i ∈ S.kernelIds, (S.kernel i).outputs.Nodup
  source_unproduced : ∀ i ∈ S.kernelIds, ∀ v ∈ (S.kernel i).outputs, S.sourcePlace v = none
  initializer_only : ∀ v ∈ S.initializers, v ∉ S.inputs ∧ v ∉ S.sessionStates
  ordered : ∀ i ∈ S.kernelIds, ∀ v ∈ (S.kernel i).presentInputs, ∀ j ∈ S.kernelIds,
    v ∈ (S.kernel j).outputs → j < i
  scratch_once : ∀ i ∈ S.kernelIds, ∀ v ∈ (S.kernel i).presentInputs,
    S.isScratch v = true → S.valueUsesCount v = 1
  forward_unary : ∀ i ∈ S.kernelIds, (S.kernel i).isForward = true → (S.kernel i).isUnary = true
  transfer_unary : ∀ i ∈ S.kernelIds, (S.kernel i).isTransfer = true → (S.kernel i).isUnary = true
  inPlace_unary : ∀ i ∈ S.kernelIds, ∀ idx ∈ S.mustInPlaceInput i,
    ((S.kernel i).inputs.getD idx none).isSome = true ∧ (S.kernel i).outputs.length = 1
  copied_defined : ∀ i ∈ S.kernelIds, (S.kernel i).isForward = true ∨ (S.kernel i).isTransfer = true →
    ∀ v ∈ (S.kernel i).presentInputs, S.isScratch v = false
  cache_defined : ∀ i ∈ S.kernelIds, ∀ idx ∈ S.mustInPlaceInput i,
    ∀ v ∈ (S.kernel i).inputs.getD idx none, S.isScratch v = false
  outputs_defined : ∀ v ∈ S.outputs, S.isScratch v = false

/-- Whether a schedule is well formed can be computed. -/
instance (S : Schedule) : Decidable S.WellFormed :=
  decidable_of_iff
    ((∀ i ∈ S.kernelIds, ∀ j ∈ S.kernelIds, ∀ v ∈ (S.kernel i).outputs,
        v ∈ (S.kernel j).outputs → i = j) ∧
      (∀ i ∈ S.kernelIds, (S.kernel i).outputs.Nodup) ∧
      (∀ i ∈ S.kernelIds, ∀ v ∈ (S.kernel i).outputs, S.sourcePlace v = none) ∧
      (∀ v ∈ S.initializers, v ∉ S.inputs ∧ v ∉ S.sessionStates) ∧
      (∀ i ∈ S.kernelIds, ∀ v ∈ (S.kernel i).presentInputs, ∀ j ∈ S.kernelIds,
        v ∈ (S.kernel j).outputs → j < i) ∧
      (∀ i ∈ S.kernelIds, ∀ v ∈ (S.kernel i).presentInputs,
        S.isScratch v = true → S.valueUsesCount v = 1) ∧
      (∀ i ∈ S.kernelIds, (S.kernel i).isForward = true → (S.kernel i).isUnary = true) ∧
      (∀ i ∈ S.kernelIds, (S.kernel i).isTransfer = true → (S.kernel i).isUnary = true) ∧
      (∀ i ∈ S.kernelIds, ∀ idx ∈ S.mustInPlaceInput i,
        ((S.kernel i).inputs.getD idx none).isSome = true ∧ (S.kernel i).outputs.length = 1) ∧
      (∀ i ∈ S.kernelIds, (S.kernel i).isForward = true ∨ (S.kernel i).isTransfer = true →
        ∀ v ∈ (S.kernel i).presentInputs, S.isScratch v = false) ∧
      (∀ i ∈ S.kernelIds, ∀ idx ∈ S.mustInPlaceInput i,
        ∀ v ∈ (S.kernel i).inputs.getD idx none, S.isScratch v = false) ∧
      ∀ v ∈ S.outputs, S.isScratch v = false)
    ⟨fun ⟨h₀, h₁, h₂, h₃, h₄, h₅, h₆, h₇, h₈, h₉, h₁₀, h₁₁⟩ =>
        ⟨h₀, h₁, h₂, h₃, h₄, h₅, h₆, h₇, h₈, h₉, h₁₀, h₁₁⟩,
      fun ⟨h₀, h₁, h₂, h₃, h₄, h₅, h₆, h₇, h₈, h₉, h₁₀, h₁₁⟩ =>
        ⟨h₀, h₁, h₂, h₃, h₄, h₅, h₆, h₇, h₈, h₉, h₁₀, h₁₁⟩⟩

theorem mem_kernelIds : kid ∈ S.kernelIds ↔ kid < S.kernels.length := by
  simp [kernelIds]

theorem value2producer_eq_none_iff :
    S.value2producer v = none ↔ ∀ i ∈ S.kernelIds, v ∉ (S.kernel i).outputs := by
  simp [value2producer, List.find?_eq_none]

theorem value2producer_some (h : S.value2producer v = some kid) :
    kid ∈ S.kernelIds ∧ v ∈ (S.kernel kid).outputs := by
  have hmem := List.mem_of_find?_eq_some h
  have hout := List.find?_some h
  exact ⟨by simpa using hmem, by simpa using hout⟩

/-- Under single production, the producer map names the producer. -/
theorem WellFormed.value2producer_eq (hS : S.WellFormed) (hk : kid ∈ S.kernelIds)
    (hv : v ∈ (S.kernel kid).outputs) : S.value2producer v = some kid := by
  cases h : S.value2producer v with
  | none => exact absurd hv (value2producer_eq_none_iff.mp h kid hk)
  | some j =>
      obtain ⟨hj, hvj⟩ := value2producer_some h
      rw [hS.produced_once j hj kid hk v hvj hv]

theorem mem_kernelPreds {pred : Nat} : pred ∈ S.kernelPreds kid ↔
    pred ≠ kid ∧ ∃ v ∈ (S.kernel kid).presentInputs, S.value2producer v = some pred := by
  simp only [kernelPreds, List.mem_dedup, List.mem_filter, List.mem_filterMap, bne_iff_ne, ne_eq]
  exact and_comm

theorem mem_kernelConsumers {cons : Nat} : cons ∈ S.kernelConsumers kid ↔
    cons ∈ S.kernelIds ∧ kid ∈ S.kernelPreds cons := by
  simp [kernelConsumers]

/-- A predecessor of a kernel comes before it in the arena. -/
theorem WellFormed.pred_lt (hS : S.WellFormed) {pred : Nat} (hk : kid ∈ S.kernelIds)
    (h : pred ∈ S.kernelPreds kid) : pred ∈ S.kernelIds ∧ pred < kid := by
  obtain ⟨-, v, hv, hprod⟩ := mem_kernelPreds.mp h
  obtain ⟨hpred, hout⟩ := value2producer_some hprod
  exact ⟨hpred, hS.ordered kid hk v hv pred hpred hout⟩

/-- A value is a source exactly when one of the three source lists has it. -/
theorem sourcePlace_isSome : (S.sourcePlace v).isSome = true ↔
    v ∈ S.inputs ∨ v ∈ S.sessionStates ∨ v ∈ S.initializers := by
  unfold sourcePlace
  by_cases h₁ : v ∈ S.inputs <;> by_cases h₂ : v ∈ S.sessionStates <;>
    by_cases h₃ : v ∈ S.initializers <;> simp [h₁, h₂, h₃]

theorem sourcePlace_not_chunk (h : S.sourcePlace v = some p) (c : ChunkId) : p ≠ .chunk c := by
  unfold sourcePlace at h
  rintro rfl
  split at h
  · simp at h
  · split at h
    · simp at h
    · split at h <;> simp at h

theorem sourcePlace_not_output (h : S.sourcePlace v = some p) (w : ValueId) : p ≠ .output w := by
  unfold sourcePlace at h
  rintro rfl
  split at h
  · simp at h
  · split at h
    · simp at h
    · split at h <;> simp at h

/-- A value that carries data is a source or is produced. -/
theorem defined_cases (h : S.isScratch v = false) :
    (S.sourcePlace v).isSome = true ∨ ∃ i, S.value2producer v = some i := by
  rw [sourcePlace_isSome]
  unfold isScratch isWorkspace at h
  cases hprod : S.value2producer v with
  | some i => exact Or.inr ⟨i, rfl⟩
  | none =>
      left
      simp only [hprod, Option.isNone_none, Bool.true_and, Bool.and_eq_false_iff,
        Bool.not_eq_false', List.contains_eq_mem, decide_eq_true_eq] at h
      tauto

theorem WellFormed.sourcePlace_initializer (hS : S.WellFormed) (hv : v ∈ S.initializers) :
    S.sourcePlace v = some (.initializer v) := by
  obtain ⟨hin, hst⟩ := hS.initializer_only v hv
  simp [sourcePlace, hin, hst, hv]

theorem mem_args : v ∈ S.args kid ↔ v ∈ (S.kernel kid).presentInputs ∧ S.isScratch v = false := by
  simp [args]

/-! ### Input slots -/

/-- Every input slot of the schedule. -/
def allSlots (S : Schedule) : List Nat :=
  S.kernelIds.flatMap fun kid => (S.kernel kid).presentInputs

theorem map_kernel_kernelIds : S.kernelIds.map S.kernel = S.kernels := by
  apply List.ext_getElem
  · simp [kernelIds]
  · intro i h₁ h₂
    simp [kernelIds, kernel, List.getD_eq_getElem?_getD, h₂]

theorem valueUsesCount_eq : S.valueUsesCount v = S.allSlots.count v := by
  have hmap := congrArg (List.map fun k => k.presentInputs.count v) (@map_kernel_kernelIds S)
  rw [List.map_map] at hmap
  rw [valueUsesCount, allSlots, List.count_flatMap, ← hmap]
  rfl

/-- A workspace has one slot, in one kernel. -/
theorem WellFormed.scratch_count (hS : S.WellFormed) (hk : kid ∈ S.kernelIds)
    (hv : v ∈ (S.kernel kid).presentInputs) (hscratch : S.isScratch v = true) :
    (S.kernel kid).presentInputs.count v = 1 ∧
      ∀ j ∈ S.kernelIds, v ∈ (S.kernel j).presentInputs → j = kid := by
  have hone := hS.scratch_once kid hk v hv hscratch
  rw [valueUsesCount_eq, allSlots] at hone
  have hperm := (List.perm_cons_erase hk).flatMap_right fun j => (S.kernel j).presentInputs
  rw [hperm.count_eq, List.flatMap_cons, List.count_append] at hone
  have hpos : 0 < (S.kernel kid).presentInputs.count v := List.count_pos_iff.mpr hv
  refine ⟨by omega, fun j hj hvj => ?_⟩
  by_contra hne
  have hmem : v ∈ (S.kernelIds.erase kid).flatMap fun j => (S.kernel j).presentInputs :=
    List.mem_flatMap.mpr ⟨j, (List.mem_erase_of_ne hne).mpr hj, hvj⟩
  have := List.count_pos_iff.mpr hmem
  omega

end Schedule

/-! ### Interpretations -/

/-- An interpretation of a schedule's kernels over values of type `α`: what memory holds before the
run, the `n`-th output of a kernel as a function of its arguments, and what a kernel leaves behind
in a workspace.  `Identity`, `Reinterpret` and `Transfer` kernels pass their argument on. -/
structure Interp (S : Schedule) (α : Type*) where
  source : AllocPlace → α
  out : KernelId → List α → Nat → α
  scratch : KernelId → List α → ValueId → α
  copies : ∀ kid x, (S.kernel kid).isForward = true ∨ (S.kernel kid).isTransfer = true →
    out kid [x] 0 = x

namespace Schedule

variable {S : Schedule} {α : Type*}

/-- The values once the first `m` kernels of the arena are evaluated. -/
def denoteUpTo (S : Schedule) (I : Interp S α) : Nat → ValueId → α
  | 0, v => I.source ((S.sourcePlace v).getD (.output v))
  | m + 1, v =>
      if v ∈ (S.kernel m).outputs then
        I.out m ((S.args m).map (denoteUpTo S I m)) ((S.kernel m).outputs.idxOf v)
      else denoteUpTo S I m v

/-- The value of `v` in the graph. -/
def denote (S : Schedule) (I : Interp S α) (v : ValueId) : α :=
  S.denoteUpTo I S.kernels.length v

theorem denoteUpTo_stable (I : Interp S α) {m m' : Nat} (hle : m ≤ m') {v : ValueId}
    (h : ∀ i, m ≤ i → i < m' → v ∉ (S.kernel i).outputs) :
    S.denoteUpTo I m' v = S.denoteUpTo I m v := by
  induction m', hle using Nat.le_induction with
  | base => rfl
  | succ m' hle ih =>
      rw [denoteUpTo, if_neg (h m' hle (Nat.lt_succ_self m'))]
      exact ih fun i hi hlt => h i hi (Nat.lt_succ_of_lt hlt)

/-- A source keeps the contents its place had before the run. -/
theorem WellFormed.denote_source (hS : S.WellFormed) (I : Interp S α) {v : ValueId}
    {p : AllocPlace} (h : S.sourcePlace v = some p) : S.denote I v = I.source p := by
  have hstable : S.denoteUpTo I S.kernels.length v = S.denoteUpTo I 0 v := by
    apply denoteUpTo_stable I (Nat.zero_le _)
    intro i _ hlt hmem
    have hnone := hS.source_unproduced i (mem_kernelIds.mpr hlt) v hmem
    rw [h] at hnone
    cases hnone
  rw [denote, hstable, denoteUpTo, h]
  rfl

/-- A produced value is its producer's function of the argument values. -/
theorem WellFormed.denote_output (hS : S.WellFormed) (I : Interp S α) {kid : Nat}
    (hk : kid ∈ S.kernelIds) {v : ValueId} (hv : v ∈ (S.kernel kid).outputs) :
    S.denote I v =
      I.out kid ((S.args kid).map (S.denote I)) ((S.kernel kid).outputs.idxOf v) := by
  have hlt := mem_kernelIds.mp hk
  have hself : S.denote I v = S.denoteUpTo I (kid + 1) v := by
    apply denoteUpTo_stable I (Nat.succ_le_of_lt hlt)
    intro i hle hi hmem
    have := hS.produced_once kid hk i (mem_kernelIds.mpr hi) v hv hmem
    omega
  have hargs : (S.args kid).map (S.denoteUpTo I kid) = (S.args kid).map (S.denote I) := by
    apply List.map_congr_left
    intro x hx
    symm
    apply denoteUpTo_stable I (Nat.le_of_lt hlt)
    intro i hle hi hmem
    have := hS.ordered kid hk x (mem_args.mp hx).1 i (mem_kernelIds.mpr hi) hmem
    omega
  rw [hself, denoteUpTo, if_pos hv, hargs]

/-! ### Output aliases -/

theorem passthroughInput_some {v x : ValueId} (h : S.passthroughInput v = some x) :
    ∃ k ∈ S.kernels, k.isForward = true ∧ k.outputs.head? = some v ∧
      k.inputs.head? = some (some x) := by
  unfold passthroughInput at h
  refine List.foldlRecOn (motive := fun m => ∀ y, m = some y → ∃ k ∈ S.kernels, k.isForward = true ∧
    k.outputs.head? = some v ∧ k.inputs.head? = some (some y)) S.kernels _ (by simp) ?_ x h
  intro m hm k hk y hy
  split at hy
  · rename_i hcond
    simp only [Bool.and_eq_true, beq_iff_eq] at hcond
    split at hy
    · rename_i in0 hin
      obtain ⟨rfl⟩ := hy
      refine ⟨k, hk, hcond.1, hcond.2, ?_⟩
      cases hhead : k.inputs.head? with
      | none => simp [hhead] at hin
      | some w => simpa [hhead] using hin
    · exact hm y hy
  · exact hm y hy

/-- The output of an `Identity` or `Reinterpret` kernel is its input. -/
theorem WellFormed.denote_forward (hS : S.WellFormed) (I : Interp S α) {kid : Nat}
    (hk : kid ∈ S.kernelIds) (hfwd : (S.kernel kid).isForward = true) {v x : ValueId}
    (hin : (S.kernel kid).inputs.head? = some (some x)) (hv : v ∈ (S.kernel kid).outputs) :
    S.denote I v = S.denote I x := by
  obtain ⟨x', y', hinputs, houtputs⟩ := (Kernel.isUnary_iff _).mp (hS.forward_unary kid hk hfwd)
  obtain rfl : x' = x := by simpa [hinputs] using hin
  have hpresent : (S.kernel kid).presentInputs = [x'] := by simp [Kernel.presentInputs, hinputs]
  have hdef := hS.copied_defined kid hk (Or.inl hfwd) x' (by simp [hpresent])
  have hargs : S.args kid = [x'] := by simp [args, hpresent, hdef]
  have hidx : (S.kernel kid).outputs.idxOf v = 0 := by
    rw [houtputs, List.mem_singleton] at hv
    simp [houtputs, hv]
  rw [hS.denote_output I hk hv, hargs, hidx]
  exact I.copies kid (S.denote I x') (Or.inl hfwd)

/-- Passing a value through an `Identity` or `Reinterpret` kernel does not change it. -/
theorem WellFormed.denote_passthrough (hS : S.WellFormed) (I : Interp S α) {v x : ValueId}
    (h : S.passthroughInput v = some x) : S.denote I v = S.denote I x := by
  obtain ⟨k, hk, hfwd, hout, hin⟩ := passthroughInput_some h
  obtain ⟨kid, hlt, rfl⟩ := List.mem_iff_getElem.mp hk
  have hkernel : S.kernel kid = S.kernels[kid] := by
    simp [kernel, List.getD_eq_getElem?_getD, hlt]
  rw [← hkernel] at hfwd hout hin
  exact hS.denote_forward I (mem_kernelIds.mpr hlt) hfwd hin (List.mem_of_head? hout)

/-- Every alias of an output buffer has the output's value, and every output has an alias. -/
theorem WellFormed.outputAliases_spec (hS : S.WellFormed) (I : Interp S α) :
    (∀ v t, S.outputAliases v = some t → t ∈ S.outputs ∧ S.denote I v = S.denote I t) ∧
      ∀ v ∈ S.outputs, (S.outputAliases v).isSome = true := by
  have key : ∀ (fuel : Nat) (queue : List ValueId) (aliases : ValueId → Option ValueId),
      (∀ v t, aliases v = some t → t ∈ S.outputs ∧ S.denote I v = S.denote I t) →
      (∀ v ∈ S.outputs, (aliases v).isSome = true) →
      (∀ v ∈ queue, (aliases v).isSome = true) →
      (∀ v t, S.outputAliasesLoop fuel queue aliases v = some t →
        t ∈ S.outputs ∧ S.denote I v = S.denote I t) ∧
      ∀ v ∈ S.outputs, (S.outputAliasesLoop fuel queue aliases v).isSome = true := by
    intro fuel
    induction fuel with
    | zero => intro queue aliases hval hout _; exact ⟨hval, hout⟩
    | succ fuel ih =>
        intro queue aliases hval hout hqueue
        cases queue with
        | nil => exact ⟨hval, hout⟩
        | cons v queue =>
            rw [outputAliasesLoop]
            cases hpass : S.passthroughInput v with
            | none =>
                exact ih queue aliases hval hout fun w hw =>
                  hqueue w (List.mem_cons_of_mem _ hw)
            | some pred =>
                obtain ⟨t, ht⟩ := Option.isSome_iff_exists.mp (hqueue v List.mem_cons_self)
                have hupd : ∀ w, (aliases w).isSome = true →
                    (Function.update aliases pred (aliases v) w).isSome = true := by
                  intro w hw
                  by_cases hwp : w = pred
                  · subst hwp; simp [ht]
                  · simpa [hwp] using hw
                refine ih _ _ ?_ (fun w hw => hupd w (hout w hw)) ?_
                · intro w u hwu
                  by_cases hwp : w = pred
                  · subst hwp
                    rw [Function.update_self] at hwu
                    obtain ⟨hu, hden⟩ := hval v u hwu
                    exact ⟨hu, (hS.denote_passthrough I hpass).symm.trans hden⟩
                  · rw [Function.update_of_ne hwp] at hwu
                    exact hval w u hwu
                · intro w hw
                  by_cases hwp : w = pred
                  · subst hwp; simp [ht]
                  · refine hupd w (hqueue w (List.mem_cons_of_mem _ ?_))
                    split at hw
                    · exact (List.mem_cons.mp hw).resolve_left hwp
                    · exact hw
  refine key _ _ _ ?_ ?_ ?_
  · intro v t hvt
    split at hvt
    · rename_i hv
      obtain ⟨rfl⟩ := hvt
      exact ⟨hv, rfl⟩
    · cases hvt
  · intro v hv
    simp [hv]
  · intro v hv
    have : v ∈ S.outputs := by simpa using hv
    simp [this]

end Schedule

end NnEngine
