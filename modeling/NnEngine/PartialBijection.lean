import Mathlib.Data.PEquiv
import Mathlib.Order.Bounds.Basic
import Mathlib.Tactic

/-!
# Partial bijections, grown pair by pair

Pairs are added to a partial bijection as long as neither side is taken.  `LeastOf` is what a computation
finds that adds only what it has to: the least state with some property, or that there is none.
-/

namespace NnEngine
namespace PartialBijection

section Pairs

variable {α β : Type} [DecidableEq α] [DecidableEq β] {f g : α ≃. β} {a x : α} {b y : β}

/-- The partial bijection with a pair of which neither side is taken. -/
def extend (f : α ≃. β) (a : α) (b : β) (ha : f a = none) (hb : f.symm b = none) : α ≃. β where
  toFun := Function.update f a (some b)
  invFun := Function.update f.symm b (some a)
  inv x y := by
    by_cases hx : x = a
    · subst hx
      by_cases hy : y = b
      · simp [hy]
      · rw [Function.update_of_ne hy, Function.update_self, f.eq_some_iff, ha]
        simp [Ne.symm hy]
    · by_cases hy : y = b
      · subst hy
        rw [Function.update_self, Function.update_of_ne hx, ← f.eq_some_iff, hb]
        simp [Ne.symm hx]
      · rw [Function.update_of_ne hy, Function.update_of_ne hx, f.eq_some_iff]

/-- The pair is there, or neither of its sides is taken and it is added. -/
def add (f : α ≃. β) (a : α) (b : β) : Option (α ≃. β) :=
  if ha : f a = none then
    if hb : f.symm b = none then some (extend f a b ha hb) else none
  else if f a = some b then some f
  else none

theorem mem_extend {ha : f a = none} {hb : f.symm b = none} :
    y ∈ extend f a b ha hb x ↔ y ∈ f x ∨ x = a ∧ y = b := by
  change Function.update f a (some b) x = some y ↔ _
  by_cases hx : x = a
  · subst hx
    rw [Function.update_self, ha]
    simp [eq_comm]
  · simp [hx]

/-- What is added: the least partial bijection above the one before that has the pair. -/
theorem add_eq_some (h : add f a b = some g) :
    f ≤ g ∧ b ∈ g a ∧ ∀ x y, y ∈ g x → y ∈ f x ∨ x = a ∧ y = b := by
  unfold add at h
  split at h
  · split at h
    · obtain rfl := Option.some.inj h
      refine ⟨PEquiv.le_def.mpr fun x y hy => ?_, ?_, fun x y => ?_⟩
      · exact mem_extend.mpr (.inl hy)
      · exact mem_extend.mpr (.inr ⟨rfl, rfl⟩)
      · exact mem_extend.mp
    · cases h
  · split at h
    · rename_i hab
      obtain rfl := Option.some.inj h
      exact ⟨le_refl f, hab, fun x y hy => .inl hy⟩
    · cases h

theorem add_eq_none (h : add f a b = none) (hle : f ≤ g) : b ∉ g a := by
  intro hab
  unfold add at h
  split at h
  · rename_i ha
    split at h
    · cases h
    · rename_i hb
      -- the right side is taken by another left side
      obtain ⟨a', ha'⟩ := Option.ne_none_iff_exists'.mp hb
      have hab' : b ∈ g a' := PEquiv.le_def.mp hle a' b ((f.eq_some_iff).mp ha')
      rw [g.inj hab' hab, f.eq_some_iff, ha] at ha'
      cases ha'
  · rename_i ha
    split at h
    · cases h
    · rename_i hne
      obtain ⟨b', hb'⟩ := Option.ne_none_iff_exists'.mp ha
      have hgb' : b' ∈ g a := PEquiv.le_def.mp hle a b' hb'
      rw [Option.mem_unique hgb' hab] at hb'
      exact hne hb'

end Pairs

section LeastOf

variable {σ ε ι : Type} [Preorder σ] {fails : ε → Prop} {S T : Set σ}

/-- The least state of a set, or a failure because the set is empty. -/
def LeastOf (fails : ε → Prop) (S : Set σ) : Except ε σ → Prop
  | .ok s => IsLeast S s
  | .error e => fails e ∧ S = ∅

theorem leastOf_ok {s : σ} : LeastOf fails S (.ok s) ↔ IsLeast S s := Iff.rfl

theorem leastOf_error {e : ε} : LeastOf fails S (.error e) ↔ fails e ∧ ∀ s, s ∉ S :=
  and_congr_right fun _ => Set.eq_empty_iff_forall_notMem

/-- A computation goes on above the least state found so far. -/
theorem LeastOf.bind {x : Except ε σ} {f : σ → Except ε σ} (hx : LeastOf fails S x) (hsub : T ⊆ S)
    (hf : ∀ s, IsLeast S s → LeastOf fails {t ∈ T | s ≤ t} (f s)) : LeastOf fails T (x.bind f) := by
  cases x with
  | error e =>
      obtain ⟨he, hS⟩ := hx
      exact ⟨he, Set.subset_empty_iff.mp (hS ▸ hsub)⟩
  | ok s =>
      have hT : {t ∈ T | s ≤ t} = T := Set.sep_eq_self_iff_mem_true.mpr fun t ht => hx.2 (hsub ht)
      have hs := hf s hx
      rw [hT] at hs
      exact hs

/-- A loop whose steps each look for the least state with one more property, which stays with larger states. -/
theorem LeastOf.foldlM {P : Set σ} {R : ι → Set σ} {step : σ → ι → Except ε σ} (xs : List ι)
    (hup : ∀ x ∈ xs, ∀ s t, s ≤ t → s ∈ R x → t ∈ R x)
    (hstep : ∀ x ∈ xs, ∀ s ∈ P, LeastOf fails {t ∈ P | s ≤ t ∧ t ∈ R x} (step s x)) (s : σ) (hs : s ∈ P) :
    LeastOf fails {t ∈ P | s ≤ t ∧ ∀ x ∈ xs, t ∈ R x} (xs.foldlM step s) := by
  induction xs generalizing s with
  | nil => exact ⟨⟨hs, le_refl s, by simp⟩, fun t ht => ht.2.1⟩
  | cons x xs ih =>
      rw [List.foldlM_cons]
      refine (hstep x List.mem_cons_self s hs).bind ?_ ?_
      · rintro t ⟨ht, hle, hR⟩
        exact ⟨ht, hle, hR x List.mem_cons_self⟩
      · rintro s₁ ⟨⟨hs₁, hle₁, hR₁⟩, -⟩
        have hrest := ih (fun y hy => hup y (List.mem_cons_of_mem x hy))
          (fun y hy => hstep y (List.mem_cons_of_mem x hy)) s₁ hs₁
        have hsets : {t ∈ {t ∈ P | s ≤ t ∧ ∀ y ∈ x :: xs, t ∈ R y} | s₁ ≤ t} =
            {t ∈ P | s₁ ≤ t ∧ ∀ y ∈ xs, t ∈ R y} := by
          ext t
          constructor
          · rintro ⟨⟨ht, -, hR⟩, hle⟩
            exact ⟨ht, hle, fun y hy => hR y (List.mem_cons_of_mem x hy)⟩
          · rintro ⟨ht, hle, hR⟩
            refine ⟨⟨ht, hle₁.trans hle, fun y hy => ?_⟩, hle⟩
            rcases List.mem_cons.mp hy with rfl | hy
            · exact hup _ List.mem_cons_self s₁ t hle hR₁
            · exact hR y hy
        rw [hsets]
        exact hrest

end LeastOf

end PartialBijection
end NnEngine
