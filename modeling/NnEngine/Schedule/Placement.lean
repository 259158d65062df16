import NnEngine.Schedule.Basic

/-!
# Placing kernels within a budget

`Placement::resident_budget` of `src/schedule/placement.rs`: a prefix of the kernels runs on the GPU,
as long as its weights fit, and the cut is moved down until it splits no session state.
-/

namespace NnEngine
namespace Schedule

variable {S : Schedule} {minBytes residentBytes cut kid kid' n : Nat} {v : ValueId}

/-- `weight_of`. -/
def weightOf (S : Schedule) (minBytes : Nat) (kid : KernelId) : Nat :=
  ((((S.kernel kid).presentInputs.filter fun v => S.initializers.contains v).map
    S.valueByteSize).filter fun size => minBytes ≤ size).sum

/-- One kernel in the loop over `kv_span`. -/
def touchSpan (S : Schedule) (span : ValueId → Option (Nat × Nat)) (i : Nat) :
    ValueId → Option (Nat × Nat) :=
  ((S.kernel i).presentInputs ++ (S.kernel i).outputs).foldl (fun m v =>
    if S.sessionStates.contains v then
      Function.update m v (match m v with
        | some s => some (s.1, i)
        | none => some (i, i))
    else m) span

/-- `kv_span`: the first and the last kernel at which a session state is touched. -/
def kvSpan (S : Schedule) : ValueId → Option (Nat × Nat) :=
  S.kernelIds.foldl S.touchSpan fun _ => none

/-- `kv_span.values().any(..)`. -/
def straddles (S : Schedule) (cut : Nat) : Bool :=
  S.sessionStates.any fun v => match S.kvSpan v with
    | some (f, l) => f < cut && cut ≤ l
    | none => false

/-- The loop for the largest prefix whose weight stays within the budget. -/
def budgetCut (residentBytes : Nat) : Nat → List Nat → Nat
  | _, [] => 0
  | resident, w :: ws =>
      if residentBytes < resident + w then 0 else budgetCut residentBytes (resident + w) ws + 1

/-- The loop that snaps the cut off the spans. -/
def snapCut (S : Schedule) : Nat → Nat
  | 0 => 0
  | cut + 1 => if S.straddles (cut + 1) then S.snapCut cut else cut + 1

/-- `Placement::resident_budget`. -/
def residentBudget (S : Schedule) (minBytes residentBytes : Nat) (kid : KernelId) : Device :=
  if kid < S.snapCut (budgetCut residentBytes 0 (S.kernelIds.map (S.weightOf minBytes))) then .CUDA
  else .CPU

/-! ### The spans -/

/-- The kernel names the value as an operand. -/
def Names (S : Schedule) (kid : KernelId) (v : ValueId) : Prop :=
  v ∈ (S.kernel kid).presentInputs ++ (S.kernel kid).outputs

instance (S : Schedule) (kid : KernelId) (v : ValueId) : Decidable (S.Names kid v) :=
  inferInstanceAs (Decidable (v ∈ (S.kernel kid).presentInputs ++ (S.kernel kid).outputs))

/-- What a session state's entry becomes at a kernel. -/
theorem touchSpan_eq (hv : v ∈ S.sessionStates) (span : ValueId → Option (Nat × Nat)) (i : Nat) :
    S.touchSpan span i v =
      if S.Names i v then some (((span v).map Prod.fst).getD i, i) else span v := by
  have key : ∀ operands : List ValueId, operands.foldl (fun m v =>
      if S.sessionStates.contains v then
        Function.update m v (match m v with
          | some s => some (s.1, i)
          | none => some (i, i))
      else m) span v =
      if v ∈ operands then some (((span v).map Prod.fst).getD i, i) else span v := by
    intro operands
    induction operands using List.reverseRecOn with
    | nil => simp
    | append_singleton ws w ih =>
        rw [List.foldl_append, List.foldl_cons, List.foldl_nil]
        by_cases hw : w = v
        · subst hw
          rw [if_pos (by simpa using hv), Function.update_self, ih]
          by_cases hmem : w ∈ ws
          · simp [hmem]
          · cases span w <;> simp [hmem]
        · have hmem : v ∈ ws ++ [w] ↔ v ∈ ws := by simp [Ne.symm hw]
          simp only [hmem]
          split
          · rw [Function.update_of_ne (Ne.symm hw), ih]
          · exact ih
  exact key _

/-- The span of the first `n` kernels runs from the first one that names the state to the last one. -/
theorem foldl_touchSpan (hv : v ∈ S.sessionStates) (n : Nat) :
    match (List.range n).foldl S.touchSpan (fun _ => none) v with
    | none => ∀ i < n, ¬ S.Names i v
    | some (f, l) => (f < n ∧ S.Names f v) ∧ (l < n ∧ S.Names l v) ∧
        ∀ i < n, S.Names i v → f ≤ i ∧ i ≤ l := by
  induction n with
  | zero => simp
  | succ n ih =>
      rw [List.range_succ, List.foldl_append, List.foldl_cons, List.foldl_nil, touchSpan_eq hv]
      generalize (List.range n).foldl S.touchSpan (fun _ => none) v = entry at ih ⊢
      by_cases hn : S.Names n v
      · rw [if_pos hn]
        cases entry with
        | none =>
            refine ⟨⟨n.lt_succ_self, hn⟩, ⟨n.lt_succ_self, hn⟩, fun i hi hname => ?_⟩
            rcases Nat.lt_succ_iff_lt_or_eq.mp hi with hlt | rfl
            · exact absurd hname (ih i hlt)
            · exact ⟨Nat.le_refl _, Nat.le_refl _⟩
        | some fl =>
            obtain ⟨⟨hf, hfn⟩, -, hall⟩ := ih
            refine ⟨⟨Nat.lt_succ_of_lt hf, hfn⟩, ⟨n.lt_succ_self, hn⟩, fun i hi hname => ?_⟩
            rcases Nat.lt_succ_iff_lt_or_eq.mp hi with hlt | rfl
            · exact ⟨(hall i hlt hname).1, Nat.le_of_lt hlt⟩
            · exact ⟨Nat.le_of_lt hf, Nat.le_refl _⟩
      · rw [if_neg hn]
        cases entry with
        | none =>
            intro i hi
            rcases Nat.lt_succ_iff_lt_or_eq.mp hi with hlt | rfl
            · exact ih i hlt
            · exact hn
        | some fl =>
            obtain ⟨⟨hf, hfn⟩, ⟨hl, hln⟩, hall⟩ := ih
            refine ⟨⟨Nat.lt_succ_of_lt hf, hfn⟩, ⟨Nat.lt_succ_of_lt hl, hln⟩, fun i hi hname => ?_⟩
            rcases Nat.lt_succ_iff_lt_or_eq.mp hi with hlt | rfl
            · exact hall i hlt hname
            · exact absurd hname hn

/-- The cut has a kernel that names some session state on either side. -/
def Splits (S : Schedule) (cut : Nat) : Prop :=
  ∃ v ∈ S.sessionStates, ∃ i ∈ S.kernelIds, ∃ j ∈ S.kernelIds,
    S.Names i v ∧ S.Names j v ∧ i < cut ∧ cut ≤ j

theorem straddles_iff : S.straddles cut = true ↔ S.Splits cut := by
  unfold straddles Splits
  rw [List.any_eq_true]
  refine exists_congr fun v => and_congr_right fun hv => ?_
  have hspan := foldl_touchSpan hv S.kernels.length
  change match S.kvSpan v with
    | none => _
    | some (f, l) => _ at hspan
  cases hentry : S.kvSpan v with
  | none =>
      rw [hentry] at hspan
      simp only [Bool.false_eq_true, false_iff]
      rintro ⟨i, hi, -, -, hname, -⟩
      exact hspan i (List.mem_range.mp hi) hname
  | some fl =>
      obtain ⟨f, l⟩ := fl
      rw [hentry] at hspan
      obtain ⟨⟨hf, hfn⟩, ⟨hl, hln⟩, hall⟩ := hspan
      simp only [Bool.and_eq_true, decide_eq_true_eq]
      constructor
      · rintro ⟨hlt, hle⟩
        exact ⟨f, List.mem_range.mpr hf, l, List.mem_range.mpr hl, hfn, hln, hlt, hle⟩
      · rintro ⟨i, hi, j, hj, hin, hjn, hlt, hle⟩
        exact ⟨Nat.lt_of_le_of_lt (hall i (List.mem_range.mp hi) hin).1 hlt,
          Nat.le_trans hle (hall j (List.mem_range.mp hj) hjn).2⟩

/-! ### The cut -/

/-- The weight of the first kernels. -/
def residentWeight (S : Schedule) (minBytes cut : Nat) : Nat :=
  ((S.kernelIds.take cut).map (S.weightOf minBytes)).sum

/-- The loop stops at the last prefix within the budget. -/
theorem le_budgetCut (ws : List Nat) {resident : Nat} (hr : resident ≤ residentBytes) :
    budgetCut residentBytes resident ws ≤ ws.length ∧ ∀ c ≤ ws.length,
      (c ≤ budgetCut residentBytes resident ws ↔ resident + (ws.take c).sum ≤ residentBytes) := by
  induction ws generalizing resident with
  | nil => simp [budgetCut, hr]
  | cons w ws ih =>
      rw [budgetCut]
      split
      · rename_i hover
        refine ⟨Nat.zero_le _, fun c hc => ?_⟩
        cases c with
        | zero => simp [hr]
        | succ c =>
            rw [List.take_succ_cons, List.sum_cons]
            omega
      · rename_i hfits
        obtain ⟨hlen, hle⟩ := ih (Nat.le_of_not_lt hfits)
        refine ⟨by simpa using hlen, fun c hc => ?_⟩
        cases c with
        | zero => simp [hr]
        | succ c =>
            rw [List.take_succ_cons, List.sum_cons, Nat.succ_le_succ_iff,
              hle c (by simpa using hc), Nat.add_assoc]

/-- The snapped cut is the largest one that splits no session state. -/
theorem snapCut_spec (n : Nat) : S.snapCut n ≤ n ∧ ¬ S.Splits (S.snapCut n) ∧
    ∀ c ≤ n, ¬ S.Splits c → c ≤ S.snapCut n := by
  induction n with
  | zero =>
      refine ⟨Nat.le_refl _, ?_, fun c hc _ => hc⟩
      rintro ⟨v, -, i, -, j, -, -, -, hlt, -⟩
      exact absurd hlt (Nat.not_lt_zero i)
  | succ n ih =>
      rw [snapCut]
      split
      · rename_i hsplit
        refine ⟨Nat.le_succ_of_le ih.1, ih.2.1, fun c hc hno => ?_⟩
        rcases Nat.le_succ_iff.mp hc with hle | rfl
        · exact ih.2.2 c hle hno
        · exact absurd (straddles_iff.mp hsplit) hno
      · rename_i hsplit
        exact ⟨Nat.le_refl _, mt straddles_iff.mpr hsplit, fun c hc _ => hc⟩

/-- A kernel runs on the GPU when some prefix with it is within the budget and splits no session
state. -/
theorem residentBudget_eq_cuda : S.residentBudget minBytes residentBytes kid = .CUDA ↔
    ∃ cut ≤ S.kernels.length, kid < cut ∧ S.residentWeight minBytes cut ≤ residentBytes ∧
      ¬ S.Splits cut := by
  obtain ⟨hlen, hbudget⟩ := le_budgetCut (S.kernelIds.map (S.weightOf minBytes))
    (Nat.zero_le residentBytes)
  rw [List.length_map, kernelIds, List.length_range] at hlen hbudget
  obtain ⟨hle, hno, hmax⟩ :=
    S.snapCut_spec (budgetCut residentBytes 0 (S.kernelIds.map (S.weightOf minBytes)))
  have hweight : ∀ c, ((S.kernelIds.map (S.weightOf minBytes)).take c).sum =
      S.residentWeight minBytes c := fun c => by rw [residentWeight, List.map_take]
  unfold residentBudget
  constructor
  · intro h
    split at h
    · rename_i hlt
      refine ⟨_, Nat.le_trans hle hlen, hlt, ?_, hno⟩
      have := (hbudget _ (Nat.le_trans hle hlen)).mp hle
      rwa [Nat.zero_add, ← kernelIds, hweight] at this
    · cases h
  · rintro ⟨cut, hcut, hlt, hfits, hsplit⟩
    refine if_pos (Nat.lt_of_lt_of_le hlt (hmax cut ?_ hsplit))
    rw [← hweight] at hfits
    exact (hbudget cut hcut).mpr (by rwa [Nat.zero_add])

/-- The kernels that name one session state run on one device. -/
theorem residentBudget_eq_of_names (hv : v ∈ S.sessionStates) (hk : kid ∈ S.kernelIds)
    (hk' : kid' ∈ S.kernelIds) (hn : S.Names kid v) (hn' : S.Names kid' v) :
    S.residentBudget minBytes residentBytes kid = S.residentBudget minBytes residentBytes kid' := by
  obtain ⟨-, hno, -⟩ :=
    S.snapCut_spec (budgetCut residentBytes 0 (S.kernelIds.map (S.weightOf minBytes)))
  unfold residentBudget
  refine if_congr ⟨fun hlt => ?_, fun hlt => ?_⟩ rfl rfl <;> by_contra hge
  · exact hno ⟨v, hv, kid, hk, kid', hk', hn, hn', hlt, Nat.le_of_not_lt hge⟩
  · exact hno ⟨v, hv, kid', hk', kid, hk, hn', hn, hlt, Nat.le_of_not_lt hge⟩

end Schedule
end NnEngine
