import Mathlib.Tactic

/-!
# A buffer with a sink and a ring

A stream of tokens in a buffer of `sink + window` slots: the first `sink` tokens keep their slots, and
the later ones take turns in the last `window` slots.  `slot` is where a token goes, `Stored` says
which tokens are left once token `p` is written, and `rank` is a token's place among them.
-/

namespace NnEngine
namespace SinkRing

variable {sink window p t t' s : Nat}

/-- The slot of token `t`. -/
def slot (sink window t : Nat) : Nat :=
  if t < sink then t else sink + (t - sink) % window

/-- Token `t` is stored once token `p` is written: it is a sink token or one of the last `window`. -/
def Stored (sink window p t : Nat) : Prop :=
  t ≤ p ∧ (t < sink ∨ p < t + window)

instance (sink window p t : Nat) : Decidable (Stored sink window p t) :=
  inferInstanceAs (Decidable (_ ∧ _))

/-- The oldest ring token that is stored once token `p` is written. -/
def oldest (sink window p : Nat) : Nat := max sink (p + 1 - window)

/-- The stored tokens, the sink tokens first and then the ring tokens from the oldest on. -/
def stored (sink window p : Nat) : List Nat :=
  (List.range (p + 1)).filter fun t => Stored sink window p t

/-- The number of stored tokens that come before token `t`. -/
def rank (sink window p t : Nat) : Nat :=
  Nat.count (Stored sink window p) t

/-- Before the ring wraps, a token's slot is its number. -/
theorem slot_of_lt (h : t < sink + window) : slot sink window t = t := by
  unfold slot
  split
  · rfl
  · rw [Nat.mod_eq_of_lt (by omega)]
    omega

theorem slot_of_sink_le (h : sink ≤ t) : slot sink window t = sink + (t - sink) % window := by
  rw [slot, if_neg (by omega)]

theorem slot_lt (sink : Nat) (hw : 0 < window) (t : Nat) : slot sink window t < sink + window := by
  unfold slot
  split
  · omega
  · have := Nat.mod_lt (t - sink) hw
    omega

/-- Two tokens less than a window apart are in different ring slots. -/
theorem eq_of_mod_eq {a b : Nat} (hmod : a % window = b % window) (hab : a ≤ b)
    (hlt : b < a + window) : a = b := by
  have hdvd : window ∣ b - a := Nat.dvd_of_mod_eq_zero (Nat.sub_mod_eq_zero_of_mod_eq hmod.symm)
  have hzero : b - a = 0 := Nat.eq_zero_of_dvd_of_lt hdvd (by omega)
  omega

/-- Stored tokens have different slots. -/
theorem slot_inj (h : Stored sink window p t) (h' : Stored sink window p t')
    (heq : slot sink window t = slot sink window t') : t = t' := by
  obtain ⟨hle, hlive⟩ := h
  obtain ⟨hle', hlive'⟩ := h'
  unfold slot at heq
  split at heq
  · split at heq
    · exact heq
    · omega
  · split at heq
    · omega
    · have hmod : (t - sink) % window = (t' - sink) % window := by omega
      rcases Nat.le_total t t' with htt | htt
      · have := eq_of_mod_eq hmod (by omega) (by omega)
        omega
      · have := eq_of_mod_eq hmod.symm (by omega) (by omega)
        omega

/-- Every slot that has been written holds a stored token. -/
theorem exists_stored (hs : s < sink + window) (hp : s ≤ p) :
    ∃ t, Stored sink window p t ∧ slot sink window t = s := by
  by_cases hsink : s < sink
  · exact ⟨s, ⟨hp, Or.inl hsink⟩, slot_of_lt (by omega)⟩
  · have hlt := Nat.mod_lt (p - s) (show 0 < window by omega)
    have hle := Nat.mod_le (p - s) window
    have hdiv := Nat.div_add_mod (p - s) window
    refine ⟨p - (p - s) % window, ⟨by omega, Or.inr (by omega)⟩, ?_⟩
    rw [slot_of_sink_le (by omega)]
    have hsplit : p - (p - s) % window - sink = (s - sink) + window * ((p - s) / window) := by omega
    rw [hsplit, Nat.add_mul_mod_self_left, Nat.mod_eq_of_lt (by omega)]
    omega

/-- The number of stored tokens below `t`: those in the sink, and the ring tokens from the oldest
on. -/
theorem count_stored (ht : t ≤ p + 1) :
    rank sink window p t = min t sink + (t - oldest sink window p) := by
  unfold rank oldest
  induction t with
  | zero => simp
  | succ t ih =>
      rw [Nat.count_succ, ih (by omega)]
      by_cases h : Stored sink window p t
      · rw [if_pos h]
        unfold Stored at h
        omega
      · rw [if_neg h]
        unfold Stored at h
        omega

theorem rank_of_lt (hp : p < sink + window) (ht : t ≤ p) : rank sink window p t = t := by
  rw [count_stored (by omega)]
  unfold oldest
  omega

/-- As long as the ring has not wrapped, everything is stored. -/
theorem stored_of_lt (hp : p < sink + window) : stored sink window p = List.range (p + 1) := by
  apply List.filter_eq_self.mpr
  intro t ht
  have hlt := List.mem_range.mp ht
  have hst : Stored sink window p t := ⟨by omega, by omega⟩
  simpa using hst

theorem mem_stored : t ∈ stored sink window p ↔ Stored sink window p t := by
  unfold stored
  rw [List.mem_filter, List.mem_range]
  constructor
  · rintro ⟨-, h⟩
    simpa using h
  · intro h
    exact ⟨by have := h.1; omega, by simpa using h⟩

theorem filter_lt_range (n m : Nat) : (List.range n).filter (· < m) = List.range (min n m) := by
  induction n with
  | zero => simp
  | succ n ih =>
      rw [List.range_succ, List.filter_append, ih]
      by_cases hn : n < m
      · have hmin : min n m = n := by omega
        simp [hn, hmin, List.range_succ]
      · have hmin : min (n + 1) m = min n m := by omega
        simp [hn, hmin]

/-- A ring of one slot holds the newest token. -/
theorem stored_window_one (hp : sink ≤ p) : stored sink 1 p = List.range sink ++ [p] := by
  unfold stored
  rw [List.range_succ, List.filter_append]
  have hold : (List.range p).filter (fun t => Stored sink 1 p t) = List.range sink := by
    rw [show List.range sink = (List.range p).filter (· < sink) by
      rw [filter_lt_range, Nat.min_eq_right hp]]
    apply List.filter_congr
    intro t ht
    have hlt := List.mem_range.mp ht
    have hiff : Stored sink 1 p t ↔ t < sink := by
      unfold Stored
      omega
    simp [hiff]
  have hnew : Stored sink 1 p p := ⟨Nat.le_refl p, Or.inr (Nat.lt_succ_self p)⟩
  simp [hold, hnew]

/-- The two newest tokens end the list of those stored. -/
theorem stored_eq_append (hw : 1 < window) (p : Nat) :
    stored sink window (p + 1) =
      ((List.range p).filter fun t => Stored sink window (p + 1) t) ++ [p, p + 1] := by
  have hnew : Stored sink window (p + 1) (p + 1) := ⟨Nat.le_refl _, Or.inr (by omega)⟩
  have hprev : Stored sink window (p + 1) p := ⟨Nat.le_succ p, Or.inr (by omega)⟩
  unfold stored
  rw [List.range_succ, List.range_succ]
  simp [hnew, hprev]

end SinkRing
end NnEngine
