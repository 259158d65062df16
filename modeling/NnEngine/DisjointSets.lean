import Mathlib.Data.Finset.Card
import Mathlib.Logic.Relation
import Mathlib.Order.Interval.Finset.Nat
import Mathlib.Tactic

/-!
# Disjoint sets as a ranked forest

The classes of the equivalence that a list of pairs generates, and a forest whose trees are such classes.
An element moves up to its root (`compress`) or a root moves below another one (`link`); the root of every
element says what either does to the classes.
-/

namespace NnEngine
namespace DisjointSets

section Joined

variable {α : Type} {pairs : List (α × α)} {a b x y : α}

/-- The pairs connect two elements. -/
def Joined (pairs : List (α × α)) : α → α → Prop := Relation.EqvGen fun x y => (x, y) ∈ pairs

theorem joined_equivalence (pairs : List (α × α)) : Equivalence (Joined pairs) := Relation.EqvGen.is_equivalence _

@[simp]
theorem joined_nil : Joined [] x y ↔ x = y := by
  have hempty : Joined ([] : List (α × α)) = Relation.EqvGen Eq := by
    apply le_antisymm
    · exact Relation.EqvGen.mono fun x y h => nomatch h
    · rintro x y h
      rw [eq_equivalence.eqvGen_iff] at h
      exact h ▸ .refl x
  rw [hempty, eq_equivalence.eqvGen_iff]

/-- A new pair joins the two classes of its elements. -/
theorem joined_cons : Joined ((a, b) :: pairs) x y ↔
    Joined pairs x y ∨ Joined pairs x a ∧ Joined pairs b y ∨ Joined pairs x b ∧ Joined pairs a y := by
  have hmono : ∀ {x y}, Joined pairs x y → Joined ((a, b) :: pairs) x y := fun {x y} h =>
    Relation.EqvGen.mono (fun x y h => List.mem_cons_of_mem _ h) x y h
  have hab : Joined ((a, b) :: pairs) a b := .rel a b List.mem_cons_self
  obtain ⟨hrefl, hsymm, htrans⟩ := joined_equivalence pairs
  constructor
  · intro h
    induction h with
    | rel x y h =>
        obtain ⟨rfl, rfl⟩ | h := by simpa using h
        · exact .inr (.inl ⟨hrefl _, hrefl _⟩)
        · exact .inl (.rel x y h)
    | refl x => exact .inl (hrefl x)
    | symm x y _ ih =>
        obtain h | ⟨hxa, hby⟩ | ⟨hxb, hay⟩ := ih
        · exact .inl (hsymm h)
        · exact .inr (.inr ⟨hsymm hby, hsymm hxa⟩)
        · exact .inr (.inl ⟨hsymm hay, hsymm hxb⟩)
    | trans x y z _ _ ihxy ihyz =>
        -- a walk through the new pair and back does not need it
        obtain h | ⟨hxa, hby⟩ | ⟨hxb, hay⟩ := ihxy
        · obtain h' | ⟨hya, hbz⟩ | ⟨hyb, haz⟩ := ihyz
          · exact .inl (htrans h h')
          · exact .inr (.inl ⟨htrans h hya, hbz⟩)
          · exact .inr (.inr ⟨htrans h hyb, haz⟩)
        · obtain h' | ⟨hya, hbz⟩ | ⟨hyb, haz⟩ := ihyz
          · exact .inr (.inl ⟨hxa, htrans hby h'⟩)
          · exact .inr (.inl ⟨hxa, hbz⟩)
          · exact .inl (htrans hxa haz)
        · obtain h' | ⟨hya, hbz⟩ | ⟨hyb, haz⟩ := ihyz
          · exact .inr (.inr ⟨hxb, htrans hay h'⟩)
          · exact .inl (htrans hxb hbz)
          · exact .inr (.inr ⟨hxb, haz⟩)
  · rintro (h | ⟨hxa, hby⟩ | ⟨hxb, hay⟩)
    · exact hmono h
    · exact (hmono hxa).trans _ _ _ (hab.trans _ _ _ (hmono hby))
    · exact (hmono hxb).trans _ _ _ ((hab.symm _ _).trans _ _ _ (hmono hay))

end Joined

section Ranked

variable {α : Type} {parent root : α → α} {rank : α → ℕ} {a b x y : α}

/-- Every element has a root, and ranks grow on the way to it. -/
structure Ranked (parent root : α → α) (rank : α → ℕ) : Prop where
  root_parent : ∀ x, root (parent x) = root x
  parent_root : ∀ x, parent (root x) = root x
  root_eq : ∀ x, parent x = x → root x = x
  rank_lt : ∀ x, parent x ≠ x → rank x < rank (parent x)
  rank_le_root : ∀ x, rank x ≤ rank (root x)

namespace Ranked

theorem root_root (h : Ranked parent root rank) (x : α) : root (root x) = root x :=
  h.root_eq (root x) (h.parent_root x)

theorem parent_eq_iff (h : Ranked parent root rank) : parent x = x ↔ root x = x := by
  refine ⟨h.root_eq x, fun hx => ?_⟩
  have hroot := h.parent_root x
  rwa [hx] at hroot

theorem rank_lt_root (h : Ranked parent root rank) (hx : root x ≠ x) : rank x < rank (root x) := by
  have hparent := h.rank_lt x (mt h.parent_eq_iff.mp hx)
  have hroot := h.rank_le_root (parent x)
  rw [h.root_parent] at hroot
  omega

/-- Every element its own root. -/
theorem singletons (rank : α → ℕ) : Ranked id id rank where
  root_parent _ := rfl
  parent_root _ := rfl
  root_eq _ _ := rfl
  rank_lt _ h := absurd rfl h
  rank_le_root _ := le_refl _

variable [DecidableEq α]

/-- An element below its root directly: all roots stay. -/
theorem compress (h : Ranked parent root rank) (x : α) : Ranked (Function.update parent x (root x)) root rank where
  root_parent y := by
    by_cases hy : y = x
    · simp [hy, h.root_root]
    · simp [hy, h.root_parent]
  parent_root y := by
    by_cases hy : root y = x
    · subst hy
      simp [h.root_root]
    · simp [hy, h.parent_root]
  root_eq y := by
    by_cases hy : y = x
    · simp [hy]
    · simpa [hy] using h.root_eq y
  rank_lt y := by
    by_cases hy : y = x
    · simpa [hy] using h.rank_lt_root
    · simpa [hy] using h.rank_lt y
  rank_le_root := h.rank_le_root

/-- The roots after one of them, `b`, has moved below another one. -/
def linkRoot (root : α → α) (a b x : α) : α := if root x = b then a else root x

/-- The ranks after that. -/
def linkRank (rank : α → ℕ) (a b : α) : α → ℕ :=
  if rank a = rank b then Function.update rank a (rank a + 1) else rank

theorem linkRank_of_ne (hx : x ≠ a) : linkRank rank a b x = rank x := by
  unfold linkRank
  split <;> simp [hx]

theorem le_linkRank : rank x ≤ linkRank rank a b x := by
  unfold linkRank
  split
  · by_cases hx : x = a
    · simp [hx]
    · simp [hx]
  · exact le_refl _

theorem lt_linkRank (hle : rank b ≤ rank a) : rank b < linkRank rank a b a := by
  unfold linkRank
  split
  · simpa using hle
  · omega

/-- The root of lower or equal rank below the other one. -/
theorem link (h : Ranked parent root rank) (ha : root a = a) (hb : root b = b) (hab : a ≠ b)
    (hle : rank b ≤ rank a) :
    Ranked (Function.update parent b a) (linkRoot root a b) (linkRank rank a b) where
  root_parent y := by
    by_cases hy : y = b
    · simp [hy, linkRoot, ha, hb]
    · simp [hy, linkRoot, h.root_parent]
  parent_root y := by
    unfold linkRoot
    split
    · rw [Function.update_of_ne hab, h.parent_eq_iff.mpr ha]
    · rename_i hy
      rw [Function.update_of_ne hy, h.parent_root]
  root_eq y := by
    by_cases hy : y = b
    · simp [hy, hab]
    · intro hparent
      rw [Function.update_of_ne hy] at hparent
      simp [linkRoot, h.root_eq y hparent, hy]
  rank_lt y := by
    by_cases hy : y = b
    · intro _
      rw [hy, Function.update_self, linkRank_of_ne hab.symm]
      exact lt_linkRank hle
    · intro hparent
      rw [Function.update_of_ne hy] at hparent ⊢
      -- only a root has a new rank, and this element is none
      have hya : y ≠ a := by
        rintro rfl
        exact hparent (h.parent_eq_iff.mpr ha)
      rw [linkRank_of_ne hya]
      exact lt_of_lt_of_le (h.rank_lt y hparent) le_linkRank
  rank_le_root y := by
    unfold linkRoot
    split
    · rename_i hy
      have hya : y ≠ a := by
        rintro rfl
        exact hab (ha.symm.trans hy)
      rw [linkRank_of_ne hya]
      have hyb := h.rank_le_root y
      rw [hy] at hyb
      exact (hyb.trans hle).trans le_linkRank
    · by_cases hya : y = a
      · rw [hya, ha]
      · rw [linkRank_of_ne hya]
        exact (h.rank_le_root y).trans le_linkRank

/-- The link joins two classes. -/
theorem linkRoot_eq_iff : linkRoot root a b x = linkRoot root a b y ↔
    root x = root y ∨ root x = a ∧ root y = b ∨ root x = b ∧ root y = a := by
  unfold linkRoot
  split <;> split <;> grind

end Ranked

end Ranked

section Class

variable {α : Type} [DecidableEq α] {root : α → α} {elements : Finset α} {a b x : α}

/-- The elements below a root. -/
def below (elements : Finset α) (root : α → α) (r : α) : Finset α := elements.filter (root · = r)

theorem below_linkRoot_self (hab : a ≠ b) :
    (below elements (Ranked.linkRoot root a b) a).card =
      (below elements root a).card + (below elements root b).card := by
  rw [← Finset.card_union_of_disjoint]
  · congr 1
    ext x
    unfold below Ranked.linkRoot
    simp only [Finset.mem_filter, Finset.mem_union]
    grind
  · rw [Finset.disjoint_left]
    intro x hxa hxb
    simp only [below, Finset.mem_filter] at hxa hxb
    exact hab (hxa.2.symm.trans hxb.2)

theorem below_linkRoot_of_ne (hxa : x ≠ a) (hxb : x ≠ b) :
    below elements (Ranked.linkRoot root a b) x = below elements root x := by
  ext y
  unfold below Ranked.linkRoot
  simp only [Finset.mem_filter]
  grind

end Class

end DisjointSets
end NnEngine
