import Mathlib.Tactic

/-!
# Inverse indices

A map from keys to ordered sets of places, kept up to date by insertions and removals and without
empty sets.  `IsIndex` says which pairs it holds; two indices of the same pairs are equal up to the
order of their sets (`IsIndex.same`).

`lastOf` is the other kind of index, one place for each key, in which a later entry overwrites an
earlier one.
-/

namespace NnEngine
namespace InverseIndex

variable {K X : Type}

/-- A hash map whose values are index sets. -/
abbrev Index (K X : Type) := K → Option (List X)

/-- The places of a key. -/
def places (m : Index K X) (k : K) : List X := (m k).getD []

/-- The index holds these pairs, each once, and no empty set. -/
structure IsIndex (m : Index K X) (pairs : Set (K × X)) : Prop where
  mem : ∀ k x, x ∈ places m k ↔ (k, x) ∈ pairs
  nodup : ∀ k, (places m k).Nodup
  nonempty : ∀ k, m k ≠ some []

/-- Equality of hash maps of index sets, which does not look at the order in a set. -/
def Same (m m' : Index K X) : Prop := ∀ k, Option.Rel List.Perm (m k) (m' k)

variable {m m' : Index K X} {pairs : Set (K × X)} {k : K} {x : X} {xs : List X}

theorem isIndex_empty : IsIndex (fun _ => none : Index K X) ∅ where
  mem k x := by simp [places]
  nodup k := List.nodup_nil
  nonempty k := by simp

theorem IsIndex.same (h : IsIndex m pairs) (h' : IsIndex m' pairs) : Same m m' := by
  intro k
  have hmem : ∀ x, x ∈ places m k ↔ x ∈ places m' k := fun x => (h.mem k x).trans (h'.mem k x).symm
  have hperm := (List.perm_ext_iff_of_nodup (h.nodup k) (h'.nodup k)).mpr hmem
  have hne := h.nonempty k
  have hne' := h'.nonempty k
  unfold places at hperm
  cases hm : m k with
  | none =>
      cases hm' : m' k with
      | none => exact .none
      | some xs' =>
          rw [hm, hm', Option.getD_none, Option.getD_some] at hperm
          rw [hm', List.nil_perm.mp hperm] at hne'
          exact absurd rfl hne'
  | some xs =>
      cases hm' : m' k with
      | none =>
          rw [hm, hm', Option.getD_none, Option.getD_some] at hperm
          rw [hm, List.perm_nil.mp hperm] at hne
          exact absurd rfl hne
      | some xs' =>
          rw [hm, hm'] at hperm
          exact .some hperm

theorem IsIndex.of_same (h : IsIndex m' pairs) (hsame : Same m m') : IsIndex m pairs := by
  have hplaces : ∀ k, (places m k).Perm (places m' k) := by
    intro k
    have hk := hsame k
    unfold places
    generalize m k = y at hk
    generalize m' k = y' at hk
    cases hk with
    | none => exact .refl _
    | some hperm => exact hperm
  constructor
  · intro k x
    rw [(hplaces k).mem_iff]
    exact h.mem k x
  · exact fun k => (hplaces k).nodup_iff.mpr (h.nodup k)
  · intro k hk
    have hrel := hsame k
    rw [hk] at hrel
    generalize hm' : m' k = y at hrel
    cases hrel with
    | some hperm =>
        rw [List.nil_perm.mp hperm] at hm'
        exact h.nonempty k hm'

variable [DecidableEq K] [DecidableEq X]

/-- `entry(k).or_default().insert(x)`. -/
def insert (m : Index K X) (k : K) (x : X) : Index K X :=
  Function.update m k (some (if x ∈ places m k then places m k else places m k ++ [x]))

/-- `shift_remove` of some places from an occupied entry, which is removed when it is empty then.  A
vacant entry is `none`. -/
def remove (m : Index K X) (k : K) (xs : List X) : Option (Index K X) :=
  (m k).map fun ys =>
    let rest := ys.filter (· ∉ xs)
    Function.update m k (if rest.isEmpty then none else some rest)

theorem places_insert (m : Index K X) (k : K) (x : X) (k' : K) : places (insert m k x) k' =
    if k' = k then (if x ∈ places m k then places m k else places m k ++ [x]) else places m k' := by
  by_cases hk : k' = k
  · subst hk
    rw [if_pos rfl, places, insert, Function.update_self, Option.getD_some]
  · rw [if_neg hk, places, insert, Function.update_of_ne hk, places]

theorem IsIndex.insert (h : IsIndex m pairs) (k : K) (x : X) :
    IsIndex (insert m k x) (pairs ∪ {(k, x)}) := by
  constructor
  · intro k' x'
    rw [places_insert, Set.mem_union, Set.mem_singleton_iff, Prod.mk.injEq, ← h.mem]
    by_cases hk : k' = k
    · subst hk
      rw [if_pos rfl]
      split
      · rename_i hx
        constructor
        · exact .inl
        · rintro (hx' | ⟨-, rfl⟩)
          · exact hx'
          · exact hx
      · simp
    · simp [hk]
  · intro k'
    rw [places_insert]
    split
    · split
      · exact h.nodup k
      · rename_i hx
        exact (h.nodup k).append (List.nodup_singleton x) (by simpa using hx)
    · exact h.nodup k'
  · intro k'
    by_cases hk : k' = k
    · subst hk
      rw [InverseIndex.insert, Function.update_self]
      split
      · rename_i hx
        intro hnil
        rw [Option.some.inj hnil] at hx
        cases hx
      · simp
    · rw [InverseIndex.insert, Function.update_of_ne hk]
      exact h.nonempty k'

theorem places_remove {ys : List X} (hm : m k = some ys) (h : remove m k xs = some m') (k' : K) :
    places m' k' = if k' = k then ys.filter (· ∉ xs) else places m k' := by
  rw [remove, hm, Option.map_some] at h
  rw [← Option.some.inj h]
  by_cases hk : k' = k
  · subst hk
    rw [if_pos rfl, places, Function.update_self]
    split
    · rename_i hnil
      rw [List.isEmpty_iff.mp hnil]
      rfl
    · rfl
  · rw [if_neg hk, places, Function.update_of_ne hk, places]

theorem IsIndex.remove (h : IsIndex m pairs) (hrem : remove m k xs = some m') :
    IsIndex m' (pairs \ {p | p.1 = k ∧ p.2 ∈ xs}) := by
  obtain ⟨ys, hys, hm'⟩ := Option.map_eq_some_iff.mp hrem
  have hplaces := places_remove hys hrem
  have hysk : places m k = ys := by rw [places, hys, Option.getD_some]
  constructor
  · intro k' x'
    rw [hplaces, Set.mem_sdiff, Set.mem_ofPred_eq, ← h.mem]
    by_cases hk : k' = k
    · subst hk
      rw [if_pos rfl, hysk]
      simp
    · rw [if_neg hk]
      simp [hk]
  · intro k'
    rw [hplaces]
    split
    · exact (hysk ▸ h.nodup k).filter _
    · exact h.nodup k'
  · intro k'
    rw [← hm']
    by_cases hk : k' = k
    · subst hk
      rw [Function.update_self]
      split
      · simp
      · rename_i hne
        intro hnil
        exact hne (by rw [Option.some.inj hnil]; rfl)
    · rw [Function.update_of_ne hk]
      exact h.nonempty k'

/-- The entry of a pair of the index is occupied. -/
theorem IsIndex.exists_remove (h : IsIndex m pairs) (hx : (k, x) ∈ pairs) (xs : List X) :
    ∃ m', InverseIndex.remove m k xs = some m' := by
  have hmem := (h.mem k x).mpr hx
  unfold places at hmem
  cases hm : m k with
  | none =>
      rw [hm] at hmem
      cases hmem
  | some ys => exact ⟨_, by rw [InverseIndex.remove, hm, Option.map_some]⟩

/-! ### One place for each key -/

/-- The map that a list of entries leaves, each overwriting the ones before it. -/
def lastOf (entries : List (K × X)) : K → Option X :=
  entries.foldl (fun m e => Function.update m e.1 (some e.2)) fun _ => none

omit [DecidableEq X] in
theorem lastOf_concat (entries : List (K × X)) (e : K × X) :
    lastOf (entries ++ [e]) = Function.update (lastOf entries) e.1 (some e.2) := by
  simp [lastOf]

omit [DecidableEq X] in
theorem lastOf_mem {entries : List (K × X)} (h : lastOf entries k = some x) : (k, x) ∈ entries := by
  induction entries using List.reverseRecOn with
  | nil => cases h
  | append_singleton entries e ih =>
      rw [lastOf_concat] at h
      by_cases hk : k = e.1
      · subst hk
        rw [Function.update_self] at h
        rw [← Option.some.inj h]
        simp
      · rw [Function.update_of_ne hk] at h
        exact List.mem_append_left _ (ih h)

omit [DecidableEq X] in
/-- An entry that is there after some were written over others is one of those or was there before. -/
theorem updates_mem {entries : List (K × X)} {m : K → Option X}
    (h : entries.foldl (fun (m : K → Option X) e => Function.update m e.1 (some e.2)) m k = some x) :
    (k, x) ∈ entries ∨ m k = some x := by
  induction entries generalizing m with
  | nil => exact .inr h
  | cons e entries ih =>
      rcases ih h with hmem | hm
      · exact .inl (List.mem_cons_of_mem e hmem)
      · dsimp only at hm
        by_cases he : k = e.1
        · rw [he, Function.update_self] at hm
          rw [he, ← Option.some.inj hm]
          exact .inl List.mem_cons_self
        · rw [Function.update_of_ne he] at hm
          exact .inr hm

omit [DecidableEq X] in
theorem lastOf_isSome {entries : List (K × X)} (h : (k, x) ∈ entries) : (lastOf entries k).isSome := by
  induction entries using List.reverseRecOn with
  | nil => cases h
  | append_singleton entries e ih =>
      rw [lastOf_concat]
      by_cases hk : k = e.1
      · subst hk
        rw [Function.update_self]
        rfl
      · rw [Function.update_of_ne hk]
        rcases List.mem_append.mp h with h | h
        · exact ih h
        · rw [← List.mem_singleton.mp h] at hk
          exact absurd rfl hk

omit [DecidableEq X] in
/-- Taking entries away does not matter for a key whose place is kept. -/
theorem lastOf_filter {entries : List (K × X)} {keep : K × X → Bool}
    (h : ∀ x, lastOf entries k = some x → keep (k, x)) :
    lastOf (entries.filter keep) k = lastOf entries k := by
  induction entries using List.reverseRecOn with
  | nil => rfl
  | append_singleton entries e ih =>
      rw [List.filter_append, lastOf_concat]
      rw [lastOf_concat] at h
      by_cases hk : k = e.1
      · subst hk
        rw [Function.update_self] at h ⊢
        have hkeep : keep e = true := h e.2 rfl
        rw [List.filter_singleton, hkeep, cond_true, lastOf_concat, Function.update_self]
      · rw [Function.update_of_ne hk] at h ⊢
        rw [List.filter_singleton]
        cases keep e with
        | true =>
            rw [cond_true, lastOf_concat, Function.update_of_ne hk]
            exact ih h
        | false =>
            rw [cond_false, List.append_nil]
            exact ih h

end InverseIndex
end NnEngine
