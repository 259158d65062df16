import Mathlib.Tactic

/-!
# Interning

A table that gives each key an index at its first use, with the value that came with it.  Later values
of the same key are dropped, and no index changes.
-/

namespace NnEngine

/-- Values in the order of their first use, and the index of each key. -/
structure Interner (κ α : Type) where
  entries : κ → Option Nat
  values : List α

namespace Interner

variable {κ α : Type}

/-- The table without values. -/
def empty : Interner κ α := { entries := fun _ => none, values := [] }

/-- The index of a key that is there. -/
def index (t : Interner κ α) (k : κ) : Nat := (t.entries k).getD 0

/-- The value of a key. -/
def lookup (t : Interner κ α) (k : κ) : Option α := (t.entries k).bind fun i => t.values[i]?

/-- The entries are the keys of the values. -/
def Indexed (key : α → κ) (t : Interner κ α) : Prop :=
  ∀ k i, t.entries k = some i ↔ ∃ a, t.values[i]? = some a ∧ key a = k

/-- No index changes. -/
structure Extends (t t' : Interner κ α) : Prop where
  entries : ∀ {k i}, t.entries k = some i → t'.entries k = some i
  values : ∀ {i : Nat} {a}, t.values[i]? = some a → t'.values[i]? = some a

theorem Extends.refl (t : Interner κ α) : t.Extends t := ⟨fun h => h, fun h => h⟩

theorem Extends.trans {t t' t'' : Interner κ α} (h : t.Extends t') (h' : t'.Extends t'') : t.Extends t'' :=
  ⟨fun hk => h'.entries (h.entries hk), fun ha => h'.values (h.values ha)⟩

/-- The index of a key stays. -/
theorem Extends.index {t t' : Interner κ α} (h : t.Extends t') {k : κ} (hk : (t.entries k).isSome) :
    t'.index k = t.index k := by
  obtain ⟨i, hi⟩ := Option.isSome_iff_exists.mp hk
  rw [Interner.index, Interner.index, hi, h.entries hi]

theorem indexed_empty (key : α → κ) : Indexed key (empty : Interner κ α) := by
  intro k i
  simp [empty]

variable [DecidableEq κ] (key : α → κ)

/-- The index of a value's key (`entry(k).or_insert_with(..)`). -/
def intern (t : Interner κ α) (a : α) : Nat × Interner κ α :=
  match t.entries (key a) with
  | some i => (i, t)
  | none =>
      (t.values.length,
        { entries := Function.update t.entries (key a) (some t.values.length)
          values := t.values ++ [a] })

/-- Interning values one after the other. -/
def internAll (t : Interner κ α) (items : List α) : Interner κ α :=
  items.foldl (fun t a => (t.intern key a).2) t

variable {key}

theorem intern_extends (t : Interner κ α) (a : α) : t.Extends (t.intern key a).2 := by
  unfold intern
  split
  · exact .refl t
  · rename_i hnone
    refine ⟨fun {k i} hk => ?_, fun hb => ?_⟩
    · have hne : k ≠ key a := fun h => by rw [h, hnone] at hk; cases hk
      exact (Function.update_of_ne hne _ _).trans hk
    · exact (List.getElem?_append_left (List.getElem?_eq_some_iff.mp hb).1).trans hb

theorem intern_entries (t : Interner κ α) (a : α) :
    (t.intern key a).2.entries (key a) = some (t.intern key a).1 := by
  unfold intern
  split
  · rename_i i hi
    exact hi
  · exact Function.update_self _ _ _

theorem Indexed.intern {t : Interner κ α} (h : Indexed key t) (a : α) :
    Indexed key (t.intern key a).2 := by
  unfold Interner.intern
  split
  · exact h
  · rename_i hnone
    intro k i
    dsimp only
    have hold : ∀ b, t.values[i]? = some b → key b ≠ key a := by
      intro b hb hkey
      have hi := (h (key a) i).mpr ⟨b, hb, hkey⟩
      rw [hnone] at hi
      cases hi
    have hnew : ∀ b, (t.values ++ [a])[i]? = some b ↔
        t.values[i]? = some b ∨ i = t.values.length ∧ b = a := by
      intro b
      grind
    by_cases hk : k = key a
    · subst hk
      rw [Function.update_self, Option.some.injEq]
      constructor
      · rintro rfl
        exact ⟨a, (hnew a).mpr (.inr ⟨rfl, rfl⟩), rfl⟩
      · rintro ⟨b, hb, hkey⟩
        obtain hb | ⟨rfl, -⟩ := (hnew b).mp hb
        · exact absurd hkey (hold b hb)
        · rfl
    · rw [Function.update_of_ne hk, h k i]
      constructor
      · rintro ⟨b, hb, hkey⟩
        exact ⟨b, (hnew b).mpr (.inl hb), hkey⟩
      · rintro ⟨b, hb, hkey⟩
        obtain hb | ⟨-, rfl⟩ := (hnew b).mp hb
        · exact ⟨b, hb, hkey⟩
        · exact absurd hkey.symm hk

/-- The first value of a key stays. -/
theorem lookup_intern {t : Interner κ α} (h : Indexed key t) (a : α) (k : κ) :
    (t.intern key a).2.lookup k = (t.lookup k).or (if k = key a then some a else none) := by
  unfold Interner.intern lookup
  split
  · rename_i i hi
    by_cases hk : k = key a
    · obtain ⟨b, hb, -⟩ := (h (key a) i).mp hi
      rw [hk, hi, Option.bind_some, hb]
      rfl
    · rw [if_neg hk, Option.or_none]
  · rename_i hnone
    dsimp only
    by_cases hk : k = key a
    · rw [hk, Function.update_self, hnone, if_pos rfl]
      simp
    · rw [Function.update_of_ne hk, if_neg hk, Option.or_none]
      cases hi : t.entries k with
      | none => rfl
      | some i =>
          obtain ⟨b, hb, -⟩ := (h k i).mp hi
          exact List.getElem?_append_left (List.getElem?_eq_some_iff.mp hb).1

/-! ### Many values -/

theorem internAll_extends (t : Interner κ α) (items : List α) : t.Extends (t.internAll key items) := by
  induction items generalizing t with
  | nil => exact .refl t
  | cons a items ih => exact (t.intern_extends a).trans (ih (t.intern key a).2)

theorem Indexed.internAll {t : Interner κ α} (h : Indexed key t) (items : List α) :
    Indexed key (t.internAll key items) := by
  induction items generalizing t with
  | nil => exact h
  | cons a items ih => exact ih (h.intern a)

/-- Every key is there in the end. -/
theorem internAll_entries (t : Interner κ α) {items : List α} {a : α} (ha : a ∈ items) :
    ((t.internAll key items).entries (key a)).isSome := by
  induction items generalizing t with
  | nil => cases ha
  | cons b items ih =>
      cases ha with
      | head =>
          have hfirst := @intern_entries κ α _ key t a
          exact Option.isSome_iff_exists.mpr
            ⟨_, (internAll_extends (t.intern key a).2 items).entries hfirst⟩
      | tail _ ha => exact ih (t.intern key b).2 ha

theorem internAll_append (t : Interner κ α) (items items' : List α) :
    t.internAll key (items ++ items') = (t.internAll key items).internAll key items' :=
  List.foldl_append

/-- The value of a key is the first one. -/
theorem lookup_internAll {t : Interner κ α} (h : Indexed key t) (items : List α) (k : κ) :
    (t.internAll key items).lookup k = (t.lookup k).or (items.find? fun a => key a = k) := by
  induction items generalizing t with
  | nil => exact Option.or_none.symm
  | cons a items ih =>
      rw [internAll, List.foldl_cons]
      refine (ih (h.intern a)).trans ?_
      rw [lookup_intern h, Option.or_assoc, List.find?_cons]
      congr 1
      by_cases hk : k = key a
      · rw [if_pos hk, decide_eq_true hk.symm]
        rfl
      · rw [if_neg hk, decide_eq_false fun h => hk h.symm]
        rfl

end Interner
end NnEngine
