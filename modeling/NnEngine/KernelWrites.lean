import Mathlib.Tactic

/-!
# What kernels write

A kernel is told by what it writes, addresses and values.  `Computes` says that it fills a range of addresses.
-/

namespace NnEngine
namespace KernelWrites

variable {β : Type} {n : ℕ} {value : ℕ → β}

/-- What a launch or a loop writes. -/
abbrev Writes (β : Type) := List (ℕ × β)

/-- Every one of `n` addresses is written once, with its value, and nothing else is. -/
def Computes (n : ℕ) (value : ℕ → β) (written : Option (Writes β)) : Prop :=
  ∃ w, written = some w ∧ w.Perm ((List.range n).map fun p => (p, value p))

/-- Addresses that are each written with a value of their own. -/
theorem computes_map {f : ℕ → β} :
    Computes n value (some ((List.range n).map fun p => (p, f p))) ↔ ∀ p < n, f p = value p := by
  constructor
  · rintro ⟨w, hw, hperm⟩ p hp
    obtain rfl := Option.some.inj hw
    have hmem : (p, f p) ∈ (List.range n).map fun p => (p, f p) := List.mem_map.mpr ⟨p, List.mem_range.mpr hp, rfl⟩
    obtain ⟨q, -, hq⟩ := List.mem_map.mp (hperm.mem_iff.mp hmem)
    simp only [Prod.mk.injEq] at hq
    rw [← hq.2, hq.1]
  · intro h
    refine ⟨_, rfl, .of_eq (List.map_congr_left fun p hp => ?_)⟩
    rw [h p (List.mem_range.mp hp)]

theorem not_computes_none : ¬Computes n value none := by
  rintro ⟨_, h, -⟩
  cases h

theorem Computes.eq_of_mem {w : Writes β} (h : Computes n value (some w)) {q : ℕ} {v : β} (hmem : (q, v) ∈ w) :
    v = value q := by
  obtain ⟨_, hw, hperm⟩ := h
  obtain rfl := Option.some.inj hw
  obtain ⟨q', -, heq⟩ := List.mem_map.mp (hperm.mem_iff.mp hmem)
  simp only [Prod.mk.injEq] at heq
  rw [← heq.2, heq.1]

theorem row_of_address {k r j : ℕ} (hj : j < k) : (r * k + j) / k = r ∧ (r * k + j) % k = j := by
  constructor
  · rw [Nat.mul_comm, Nat.mul_add_div (by omega), Nat.div_eq_of_lt hj, Nat.add_zero]
  · rw [Nat.mul_comm, Nat.mul_add_mod, Nat.mod_eq_of_lt hj]

/-- The addresses of `m` rows of `k` each. -/
theorem forall_rows_iff {m k : ℕ} (P : ℕ → ℕ → Prop) :
    (∀ p < m * k, P (p / k) (p % k)) ↔ ∀ r < m, ∀ j < k, P r j := by
  constructor
  · intro h r hr j hj
    have hlt : r * k + j < m * k := by
      have hle : (r + 1) * k ≤ m * k := Nat.mul_le_mul_right _ hr
      rw [Nat.succ_mul] at hle
      omega
    obtain ⟨hdiv, hmod⟩ := @row_of_address k r j hj
    have hP := h _ hlt
    rwa [hdiv, hmod] at hP
  · intro h p hp
    have hk : 0 < k := Nat.pos_of_mul_pos_left (by omega : 0 < m * k)
    exact h _ (Nat.div_lt_of_lt_mul (by rwa [Nat.mul_comm])) _ (Nat.mod_lt p hk)

/-- Rows of `k` addresses each. -/
theorem rows_eq {m k : ℕ} (f : ℕ → ℕ → β) :
    ((List.range m).flatMap fun r => (List.range k).map fun j => (r * k + j, f r j)) =
      (List.range (m * k)).map fun p => (p, f (p / k) (p % k)) := by
  induction m with
  | zero => simp
  | succ m ih =>
      rw [List.range_succ, List.flatMap_append, ih, Nat.succ_mul, List.range_add, List.map_append, List.map_map,
        List.flatMap_singleton]
      congr 1
      refine List.map_congr_left fun j hj => ?_
      obtain ⟨hdiv, hmod⟩ := @row_of_address k m j (List.mem_range.mp hj)
      simp only [Function.comp_apply, hdiv, hmod]

/-- Two loops over the same addresses write the same if they compute the same. -/
theorem perm_map_iff {f g : ℕ → β} (address : ℕ → ℕ) (hinj : ∀ i j, address i = address j → i = j) :
    ((List.range n).map fun p => (address p, f p)).Perm ((List.range n).map fun p => (address p, g p)) ↔
      ∀ p < n, f p = g p := by
  constructor
  · intro hperm p hp
    have hmem : (address p, f p) ∈ (List.range n).map fun p => (address p, f p) :=
      List.mem_map.mpr ⟨p, List.mem_range.mpr hp, rfl⟩
    obtain ⟨q, -, hq⟩ := List.mem_map.mp (hperm.mem_iff.mp hmem)
    simp only [Prod.mk.injEq] at hq
    rw [← hq.2, hinj _ _ hq.1]
  · intro h
    refine .of_eq (List.map_congr_left fun p hp => ?_)
    rw [h p (List.mem_range.mp hp)]

/-- A buffer after the writes. -/
def store (buffer : ℕ → β) (w : Writes β) : ℕ → β := w.foldl (fun b pv => Function.update b pv.1 pv.2) buffer

theorem store_map (buffer f : ℕ → β) (n : ℕ) :
    store buffer ((List.range n).map fun p => (p, f p)) = fun p => if p < n then f p else buffer p := by
  induction n with
  | zero => rfl
  | succ n ih =>
      unfold store at ih ⊢
      rw [List.range_succ, List.map_append, List.foldl_append, ih]
      funext p
      simp only [List.map_cons, List.map_nil, List.foldl_cons, List.foldl_nil]
      rcases lt_trichotomy p n with hp | rfl | hp
      · rw [Function.update_of_ne hp.ne, if_pos hp, if_pos (by omega)]
      · rw [Function.update_self, if_pos (by omega)]
      · rw [Function.update_of_ne hp.ne', if_neg (by omega), if_neg (by omega)]

end KernelWrites
end NnEngine
