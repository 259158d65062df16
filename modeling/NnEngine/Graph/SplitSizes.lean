import NnEngine.DepthFirst
import NnEngine.Graph.Operator
import NnEngine.Result

/-!
# The sizes of a split

`Split::split` of `src/graph/operator.rs`.  The loop for a number of outputs advances by a rounded-down
quotient: it makes no progress if that is zero, and too many parts if the number does not divide the axis.
-/

namespace NnEngine

open DepthFirst

namespace Split

/-- `while cur < bound`.  The loop may not end, so it has fuel. -/
def splitLoop (step bound : Nat) : Nat → Nat → List Nat → Except Stop (List Nat)
  | 0, _, _ => .error .fuel
  | fuel + 1, cur, res =>
      if cur < bound then
        let finish := min (cur + step) bound
        splitLoop step bound fuel finish (res ++ [finish - cur])
      else .ok res

/-- `split`; an index out of range and a division by zero panic. -/
def split (s : Split) (fuel : Nat) (dims : ResolvedTensorDims) : Except Stop (Option (List Nat)) :=
  match dims[s.axis.index dims.length]? with
  | none => .error .panic
  | some dim =>
      match s.outputs with
      | some (.numOutputs n) =>
          if n = 0 then .error .panic else (splitLoop (dim / n) dim fuel 0 []).map some
      | some (.split sizes) => .ok (if sizes.sum ≠ dim then none else some sizes)
      | none => .ok (some [dim / 2, dim - dim / 2])

/-- As many sizes as outputs, equal except that the last one may be smaller. -/
def Shares (n : Nat) (sizes : List Nat) : Prop :=
  sizes.length = n ∧ ∃ first last, sizes = List.replicate (n - 1) first ++ [last] ∧ last ≤ first

/-- The code ends, and its sizes are shares of the axis. -/
structure SplitsAxis (s : Split) (dims : ResolvedTensorDims) (dim : Nat) : Prop where
  ends : ∃ fuel sizes, s.split fuel dims = .ok sizes
  sum : ∀ fuel sizes, s.split fuel dims = .ok (some sizes) → sizes.sum = dim
  shares : ∀ fuel sizes n, s.split fuel dims = .ok (some sizes) → s.outputs = some (.numOutputs n) → Shares n sizes

variable {step bound fuel cur n dim : Nat} {res sizes : List Nat}

/-- Without a step the loop stays where it is. -/
theorem splitLoop_zero (hlt : cur < bound) : splitLoop 0 bound fuel cur res = .error .fuel := by
  induction fuel generalizing res with
  | zero => rfl
  | succ fuel ih =>
      unfold splitLoop
      rw [if_pos hlt, Nat.add_zero, Nat.min_eq_left hlt.le]
      exact ih

/-- The parts of `k` steps and a rest. -/
def parts (step k rest : Nat) : List Nat := List.replicate k step ++ if rest = 0 then [] else [rest]

theorem parts_succ (step k rest : Nat) : parts step (k + 1) rest = step :: parts step k rest := by
  simp [parts, List.replicate_succ]

theorem parts_sum (step k rest : Nat) : (parts step k rest).sum = k * step + rest := by
  unfold parts
  split <;> simp [*]

theorem parts_length (step k rest : Nat) : (parts step k rest).length = k + if rest = 0 then 0 else 1 := by
  unfold parts
  split <;> simp

/-- The loop makes all whole steps, and one more for the rest. -/
theorem splitLoop_eq {k rest : Nat} (hrest : rest < step) (hbound : bound = cur + (k * step + rest)) :
    splitLoop step bound fuel cur res =
      if (parts step k rest).length < fuel then .ok (res ++ parts step k rest) else .error .fuel := by
  induction fuel generalizing cur res k rest with
  | zero => rfl
  | succ fuel ih =>
      unfold splitLoop
      cases k with
      | zero =>
          by_cases hzero : rest = 0
          · rw [if_neg (by omega)]
            simp [parts, hzero]
          · -- the rest is one part, and the loop is at its bound
            have hnext := @ih bound (res ++ [rest]) 0 0 (Nat.zero_lt_of_lt hrest) (by omega)
            have hmin : min (cur + step) bound = bound := by omega
            have hpart : bound - cur = rest := by omega
            rw [if_pos (by omega)]
            simp only [hmin, hpart, hnext]
            simp [parts, hzero]
      | succ k =>
          have hsucc : (k + 1) * step = step + k * step := by rw [Nat.succ_mul, Nat.add_comm]
          have hmin : min (cur + step) bound = cur + step := by omega
          have hpart : cur + step - cur = step := by omega
          have hnext := @ih (cur + step) (res ++ [step]) k rest hrest (by omega)
          rw [if_pos (by omega)]
          simp only [hmin, hpart, hnext, parts_succ, List.length_cons, Nat.succ_lt_succ_iff, List.append_assoc,
            List.singleton_append]

theorem loop_eq_ok (hstep : 0 < step) (h : splitLoop step bound fuel 0 [] = .ok sizes) :
    sizes = parts step (bound / step) (bound % step) := by
  rw [splitLoop_eq (Nat.mod_lt bound hstep) (by rw [Nat.zero_add, Nat.mul_comm, Nat.div_add_mod])] at h
  split at h
  · exact (Except.ok.inj h).symm
  · cases h

/-- The rounded-down quotient makes `n` parts of the axis only if it is exact. -/
theorem shares_parts_iff (hn : 0 < n) (hle : n ≤ dim) :
    Shares n (parts (dim / n) (dim / (dim / n)) (dim % (dim / n))) ↔ n ∣ dim := by
  have hstep : 0 < dim / n := Nat.div_pos hle hn
  constructor
  · rintro ⟨hlen, -⟩
    rw [parts_length] at hlen
    have hsplit := Nat.div_add_mod dim (dim / n)
    have hmod := Nat.mod_lt dim hstep
    split at hlen
    · rename_i hzero
      rw [Nat.add_zero] at hlen
      rw [hlen, hzero, Nat.add_zero] at hsplit
      exact ⟨dim / n, by rw [Nat.mul_comm, hsplit]⟩
    · -- one part less than `n` would leave a whole step
      have hfloor := Nat.div_mul_le_self dim n
      have hlast : dim / n * n = dim / n * (dim / (dim / n)) + dim / n :=
        (congrArg (dim / n * ·) hlen.symm).trans (Nat.mul_succ _ _)
      omega
  · rintro ⟨q, rfl⟩
    have hq : 0 < q := Nat.pos_of_mul_pos_left (Nat.lt_of_lt_of_le hn hle)
    have hdiv : n * q / n = q := Nat.mul_div_cancel_left q hn
    rw [hdiv, Nat.mul_div_cancel n hq, Nat.mul_mod_left]
    obtain ⟨m, rfl⟩ : ∃ m, n = m + 1 := ⟨n - 1, by omega⟩
    refine ⟨by simp [parts], q, q, ?_, le_rfl⟩
    rw [parts, if_pos rfl, List.append_nil, List.replicate_succ', Nat.add_sub_cancel]

/-- The code splits an axis into a number of parts if the number divides the axis, which is not empty. -/
theorem splitsAxis_iff (s : Split) (dims : ResolvedTensorDims) (dim : Nat)
    (hdim : dims[s.axis.index dims.length]? = some dim) (hpos : s.outputs ≠ some (.numOutputs 0)) :
    s.SplitsAxis dims dim ↔ ∀ n, s.outputs = some (.numOutputs n) → dim ≠ 0 ∧ n ∣ dim := by
  cases houtputs : s.outputs with
  | none =>
      have hsplit : ∀ fuel, s.split fuel dims = .ok (some [dim / 2, dim - dim / 2]) := by
        intro fuel
        unfold split
        rw [hdim, houtputs]
      refine iff_of_true ⟨⟨0, _, hsplit 0⟩, fun fuel sizes h => ?_, fun _ _ n _ h => ?_⟩ nofun
      · rw [hsplit] at h
        cases h
        simp only [List.sum_cons, List.sum_nil]
        omega
      · rw [houtputs] at h
        cases h
  | some outputs =>
      cases outputs with
      | split sizes =>
          have hsplit : ∀ fuel, s.split fuel dims = .ok (if sizes.sum ≠ dim then none else some sizes) := by
            intro fuel
            unfold split
            rw [hdim, houtputs]
          refine iff_of_true ⟨⟨0, _, hsplit 0⟩, fun fuel sizes' h => ?_, fun _ _ n _ h => ?_⟩ nofun
          · rw [hsplit] at h
            split at h
            · cases h
            · rename_i hsum
              cases h
              exact not_not.mp hsum
          · rw [houtputs] at h
            cases h
      | numOutputs n =>
          have hn : 0 < n := Nat.pos_of_ne_zero fun hzero => hpos (by rw [houtputs, hzero])
          have hsplit : ∀ fuel, s.split fuel dims = (splitLoop (dim / n) dim fuel 0 []).map some := by
            intro fuel
            unfold split
            rw [hdim, houtputs]
            exact if_neg (Nat.ne_of_gt hn)
          have hcond : (∀ m, some (SplitOutputs.numOutputs n) = some (.numOutputs m) → dim ≠ 0 ∧ m ∣ dim) ↔
              dim ≠ 0 ∧ n ∣ dim := ⟨fun h => h n rfl, by rintro h m ⟨⟩; exact h⟩
          rw [hcond]
          rcases Nat.eq_zero_or_pos dim with hzero | hdimPos
          · -- an empty axis has no parts
            have hnone : s.split 1 dims = .ok (some []) := by
              rw [hsplit, hzero, Nat.zero_div]
              rfl
            refine iff_of_false (fun h => ?_) fun h => h.1 hzero
            have hlen := (h.shares 1 [] n hnone houtputs).1
            exact Nat.ne_of_lt hn hlen
          rcases Nat.lt_or_ge dim n with hlt | hle
          · have hstuck : ∀ fuel, s.split fuel dims = .error .fuel := by
              intro fuel
              rw [hsplit, Nat.div_eq_of_lt hlt, splitLoop_zero hdimPos]
              rfl
            refine iff_of_false (fun h => ?_) fun h => absurd (Nat.le_of_dvd hdimPos h.2) (Nat.not_le.mpr hlt)
            obtain ⟨fuel, sizes, hsizes⟩ := h.ends
            rw [hstuck] at hsizes
            cases hsizes
          · have hstep : 0 < dim / n := Nat.div_pos hle hn
            have hmod := Nat.mod_lt dim hstep
            have hsplit' : dim = 0 + (dim / (dim / n) * (dim / n) + dim % (dim / n)) := by
              rw [Nat.zero_add, Nat.mul_comm, Nat.div_add_mod]
            have hresult : ∀ {fuel sizes}, s.split fuel dims = .ok (some sizes) →
                sizes = parts (dim / n) (dim / (dim / n)) (dim % (dim / n)) := by
              intro fuel sizes h
              rw [hsplit] at h
              obtain ⟨sizes', hsizes', heq⟩ := map_eq_ok.mp h
              cases heq
              exact loop_eq_ok hstep hsizes'
            have hends : ∃ fuel, s.split fuel dims =
                .ok (some (parts (dim / n) (dim / (dim / n)) (dim % (dim / n)))) := by
              refine ⟨(parts (dim / n) (dim / (dim / n)) (dim % (dim / n))).length + 1, ?_⟩
              rw [hsplit, splitLoop_eq hmod hsplit', if_pos (Nat.lt_succ_self _)]
              rfl
            rw [and_iff_right (Nat.ne_of_gt hdimPos), ← shares_parts_iff hn hle]
            constructor
            · intro h
              obtain ⟨fuel, hfuel⟩ := hends
              exact h.shares fuel _ n hfuel houtputs
            · intro hshares
              obtain ⟨fuel, hfuel⟩ := hends
              refine ⟨⟨fuel, _, hfuel⟩, fun fuel sizes h => ?_, fun fuel sizes m h hm => ?_⟩
              · rw [hresult h, parts_sum, Nat.mul_comm, Nat.div_add_mod]
              · rw [houtputs] at hm
                cases hm
                rw [hresult h]
                exact hshares

/-- Six elements in three parts. -/
theorem three_parts_of_six :
    SplitsAxis { axis := ⟨0⟩, outputs := some (.numOutputs 3) } [6] 6 :=
  (splitsAxis_iff { axis := ⟨0⟩, outputs := some (.numOutputs 3) } [6] 6 rfl (by decide)).mpr (by
    rintro n ⟨⟩
    decide)

/-- Three parts of five elements are five, and three parts of two are never found. -/
theorem three_parts_of_five :
    split { axis := ⟨0⟩, outputs := some (.numOutputs 3) } 6 [5] = .ok (some [1, 1, 1, 1, 1]) ∧
      ¬SplitsAxis { axis := ⟨0⟩, outputs := some (.numOutputs 3) } [5] 5 ∧
      (∀ fuel, split { axis := ⟨0⟩, outputs := some (.numOutputs 3) } fuel [2] = .error .fuel) ∧
      ¬SplitsAxis { axis := ⟨0⟩, outputs := some (.numOutputs 3) } [2] 2 := by
  have hstuck : ∀ fuel, split { axis := ⟨0⟩, outputs := some (.numOutputs 3) } fuel [2] = .error .fuel := by
    intro fuel
    exact congrArg (Except.map some) (splitLoop_zero (show 0 < 2 by decide))
  refine ⟨rfl, fun h => ?_, hstuck, fun h => ?_⟩
  · exact absurd (h.shares 6 _ 3 rfl rfl).1 (by decide)
  · obtain ⟨fuel, sizes, hsizes⟩ := h.ends
    rw [hstuck] at hsizes
    cases hsizes

end Split
end NnEngine
