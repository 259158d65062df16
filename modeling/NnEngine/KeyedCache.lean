import NnEngine.Result

/-!
# A cache that is filled on demand

A cache from names to values: a name that is there is looked up, and for another one a value is made
and kept.  Whatever is asked for later, a name stands for the value that was made first under it.
-/

namespace NnEngine
namespace KeyedCache

variable {κ β ε : Type} [DecidableEq κ] {cache cache' : κ → Option β} {log log' : List (κ × Except ε β)}
  {name : κ} {f : Except ε β} {b : β}

/-- The value under a name, which is made if there is none. -/
def getOrInsertWith (cache : κ → Option β) (name : κ) (f : Except ε β) : Except ε (β × (κ → Option β)) :=
  match cache name with
  | some b => .ok (b, cache)
  | none => f.map fun b => (b, Function.update cache name (some b))

/-- A request whose value can be made succeeds. -/
theorem getOrInsertWith_ok (cache : κ → Option β) (name : κ) (b : β) :
    ∃ x, getOrInsertWith cache name (.ok b : Except ε β) = .ok x := by
  unfold getOrInsertWith
  split
  · exact ⟨_, rfl⟩
  · exact ⟨_, rfl⟩

/-- What the first request under a name makes. -/
def first (log : List (κ × Except ε β)) (name : κ) : Option (Except ε β) :=
  (log.find? fun x => x.1 = name).map Prod.snd

/-- The cache holds what the first requests made. -/
def Holds (cache : κ → Option β) (log : List (κ × Except ε β)) : Prop :=
  ∀ name, first log name = (cache name).map .ok

theorem holds_empty : Holds (fun _ => none : κ → Option β) ([] : List (κ × Except ε β)) := fun _ => rfl

theorem first_append (log log' : List (κ × Except ε β)) (name : κ) :
    first (log ++ log') name = (first log name).or (first log' name) := by
  rw [first, List.find?_append, Option.map_or]
  rfl

theorem first_append_of_some {x : Except ε β} (h : first log name = some x) (log' : List (κ × Except ε β)) :
    first (log ++ log') name = some x := by
  rw [first_append, h, Option.some_or]

/-- One request. -/
theorem Holds.getOrInsertWith (h : Holds cache log) (hok : getOrInsertWith cache name f = .ok (b, cache')) :
    Holds cache' (log ++ [(name, f)]) ∧ first (log ++ [(name, f)]) name = some (.ok b) := by
  have hname := h name
  unfold KeyedCache.getOrInsertWith at hok
  cases hcache : cache name with
  | some b' =>
      rw [hcache] at hok hname
      cases hok
      refine ⟨fun other => ?_, first_append_of_some hname _⟩
      rw [first_append, h other]
      cases hother : cache other with
      | some b => rfl
      | none =>
          have hne : name ≠ other := by
            rintro rfl
            rw [hcache] at hother
            cases hother
          simp [first, hne]
  | none =>
      rw [hcache] at hok hname
      obtain ⟨b', rfl, hpair⟩ := map_eq_ok.mp hok
      cases hpair
      refine ⟨fun other => ?_, ?_⟩
      · rw [first_append, h other]
        by_cases hne : other = name
        · subst hne
          rw [hcache, Function.update_self]
          simp [first]
        · rw [Function.update_of_ne hne]
          cases cache other with
          | some b => rfl
          | none => simp [first, Ne.symm hne]
      · rw [first_append, hname]
        simp [first]

end KeyedCache
end NnEngine
