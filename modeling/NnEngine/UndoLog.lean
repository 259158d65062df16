import Mathlib.Tactic

/-!
# Undo logs of a map

Entries are inserted one after the other, and the log keeps what each key had right before.  Replaying the
log from its front leaves, at each key, the last of what it says there; that is what the key had first
exactly when the key was inserted at most once, or its last but one entry was no change.
-/

namespace NnEngine
namespace UndoLog

variable {K V : Type} [DecidableEq K]

/-- Every entry inserted, and the log of what was there. -/
def insertAll : (K → Option V) → List (K × V) → (K → Option V) × List (K × Option V)
  | m, [] => (m, [])
  | m, (k, v) :: entries =>
      let (m', log) := insertAll (Function.update m k (some v)) entries
      (m', (k, m k) :: log)

/-- What the log says is inserted again, or removed, in the order of the log. -/
def replay (m : K → Option V) (log : List (K × Option V)) : K → Option V :=
  log.foldl (fun m (k, prior) => Function.update m k prior) m

/-- The last but one entry of a key. -/
def beforeLast (k : K) (entries : List (K × V)) : Option V :=
  ((entries.filter (·.1 = k)).map Prod.snd).dropLast.getLast?

variable {m m' : K → Option V} {k : K} {v : V} {entries : List (K × V)} {log : List (K × Option V)}

@[simp]
theorem insertAll_keys (m : K → Option V) (entries : List (K × V)) :
    (insertAll m entries).2.map Prod.fst = entries.map Prod.fst := by
  induction entries generalizing m with
  | nil => rfl
  | cons e entries ih => simp [insertAll, ih]

/-- A replay says the same at a key that the log has, whatever was there. -/
theorem replay_congr (hk : k ∈ log.map Prod.fst ∨ m k = m' k) : replay m log k = replay m' log k := by
  induction log generalizing m m' with
  | nil => simpa [replay] using hk
  | cons e log ih =>
      obtain ⟨k', prior⟩ := e
      apply ih
      by_cases hkk : k = k'
      · simp [hkk]
      · simpa [hkk] using hk

theorem replay_of_notMem (hk : k ∉ log.map Prod.fst) : replay m log k = m k := by
  induction log generalizing m with
  | nil => rfl
  | cons e log ih =>
      obtain ⟨hne, hk⟩ : k ≠ e.1 ∧ k ∉ log.map Prod.fst := by simpa using hk
      exact (ih hk).trans (Function.update_of_ne hne _ _)

/-- What a replay from the front leaves at a key. -/
theorem replay_insertAll (m : K → Option V) (entries : List (K × V)) (k : K) :
    replay (insertAll m entries).1 (insertAll m entries).2 k = (beforeLast k entries).or (m k) := by
  induction entries generalizing m with
  | nil => rfl
  | cons e entries ih =>
      obtain ⟨k', v⟩ := e
      have hrest := ih (Function.update m k' (some v))
      simp only [insertAll, replay, List.foldl_cons]
      change replay (Function.update _ k' (m k')) _ k = _
      by_cases hk : k' = k
      · subst hk
        by_cases hmem : k' ∈ entries.map Prod.fst
        · -- a later insertion of the key has logged this one
          have hne : (entries.filter (·.1 = k')).map Prod.snd ≠ [] := by
            obtain ⟨e, he, rfl⟩ := List.mem_map.mp hmem
            simpa using ⟨e.2, he⟩
          rw [replay_congr (.inl (by rwa [insertAll_keys])), hrest]
          simp [beforeLast, List.dropLast_cons_of_ne_nil hne, List.getLast?_cons]
        · have hnil : (entries.filter (·.1 = k')).map Prod.snd = [] := by
            rw [List.map_eq_nil_iff, List.filter_eq_nil_iff]
            intro e he hek
            exact hmem (List.mem_map.mpr ⟨e, he, of_decide_eq_true hek⟩)
          rw [replay_of_notMem (by rwa [insertAll_keys])]
          simp [beforeLast, hnil]
      · rw [replay_congr (.inr (Function.update_of_ne (Ne.symm hk) _ _)), hrest]
        simp [beforeLast, hk, Ne.symm hk]

/-- The replay undoes the insertions exactly if no key's last but one entry differs from what it had. -/
theorem replay_insertAll_eq_iff : replay (insertAll m entries).1 (insertAll m entries).2 = m ↔
    ∀ k v, beforeLast k entries = some v → m k = some v := by
  rw [funext_iff]
  refine forall_congr' fun k => ?_
  rw [replay_insertAll]
  cases beforeLast k entries with
  | none => simp
  | some v => simp [eq_comm]

end UndoLog
end NnEngine
