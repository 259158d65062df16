import Mathlib.Data.Set.Card
import NnEngine.DisjointSets

/-!
# The union-find structure

`UnionFind` keeps three vectors, and every operation that looks for a representative compresses the path to
it.  `append` grows the first two vectors only: a new element has no size, so it can be found and compared
but neither measured nor merged.
-/

namespace NnEngine

open DisjointSets

structure UnionFind where
  parents : List ℕ
  ranks : List ℕ
  sizes : List ℕ
deriving Repr, DecidableEq

namespace UnionFind

def new (n : ℕ) : UnionFind where
  parents := List.range n
  ranks := List.replicate n 0
  sizes := List.replicate n 1

/-- The recursion of `representative`, at most as deep as there is fuel. -/
def representativeFrom : ℕ → UnionFind → ℕ → Option (ℕ × UnionFind)
  | 0, _, _ => none
  | fuel + 1, s, x => do
    let parent ← s.parents[x]?
    if parent = x then
      return (x, s)
    let (p, s) ← representativeFrom fuel s parent
    return (p, { s with parents := s.parents.set x p })

def representative (s : UnionFind) (x : ℕ) : Option (ℕ × UnionFind) :=
  representativeFrom (s.parents.length + 1) s x

/-- The rest of `merge`, from the two representatives and their ranks. -/
def link (s : UnionFind) (x y rankX rankY : ℕ) : Option UnionFind := do
  let sizeX ← s.sizes[x]?
  let sizeY ← s.sizes[y]?
  return {
    parents := s.parents.set y x
    ranks := if rankX = rankY then s.ranks.set x (rankX + 1) else s.ranks
    sizes := s.sizes.set x (sizeX + sizeY) }

def merge (s : UnionFind) (x y : ℕ) : Option UnionFind := do
  let (x, s) ← s.representative x
  let (y, s) ← s.representative y
  if x = y then
    return s
  let rankX ← s.ranks[x]?
  let rankY ← s.ranks[y]?
  if rankX < rankY then s.link y x rankY rankX else s.link x y rankX rankY

def isSame (s : UnionFind) (x y : ℕ) : Option (Bool × UnionFind) := do
  let (x, s) ← s.representative x
  let (y, s) ← s.representative y
  return (x == y, s)

def size (s : UnionFind) (x : ℕ) : Option (ℕ × UnionFind) := do
  let (x, s) ← s.representative x
  let size ← s.sizes[x]?
  return (size, s)

def append (s : UnionFind) (n : ℕ) : UnionFind where
  parents := s.parents ++ List.range' s.parents.length n
  ranks := s.ranks ++ List.replicate n 0
  sizes := s.sizes

/-- `groups.entry(repr).or_insert_with(Vec::new).push(i)`, the map as a list of its entries. -/
def pushAt (repr i : ℕ) : List (ℕ × List ℕ) → List (ℕ × List ℕ)
  | [] => [(repr, [i])]
  | (r, group) :: rest => if r = repr then (r, group ++ [i]) :: rest else (r, group) :: pushAt repr i rest

/-- The order of the groups is the hash map's; here it is that of the first insertions. -/
def groups (s : UnionFind) : Option (List (List ℕ) × UnionFind) := do
  let (groups, s) ← (List.range s.parents.length).foldlM
    (fun (groups, s) i => do
      let (repr, s) ← s.representative i
      return (pushAt repr i groups, s))
    (([] : List (ℕ × List ℕ)), s)
  return (groups.map Prod.snd, s)

/-! ### Runs -/

inductive Op where
  | append (n : ℕ)
  | merge (x y : ℕ)
  | representative (x : ℕ)
  | isSame (x y : ℕ)
  | size (x : ℕ)
  | groups
deriving Repr, DecidableEq

def step (s : UnionFind) : Op → Option UnionFind
  | .append n => some (s.append n)
  | .merge x y => s.merge x y
  | .representative x => (s.representative x).map Prod.snd
  | .isSame x y => (s.isSame x y).map Prod.snd
  | .size x => (s.size x).map Prod.snd
  | .groups => s.groups.map Prod.snd

/-- What a run has done so far: the number of elements, and the pairs that were merged. -/
structure History where
  count : ℕ
  merges : List (ℕ × ℕ)

namespace History

def next (h : History) : Op → History
  | .append n => { h with count := h.count + n }
  | .merge x y => { h with merges := (x, y) :: h.merges }
  | _ => h

/-- The indices of an operation are in range. -/
def InRange (h : History) : Op → Prop
  | .append _ | .groups => True
  | .merge x y | .isSame x y => x < h.count ∧ y < h.count
  | .representative x | .size x => x < h.count

def Connected (h : History) (x y : ℕ) : Prop := Joined h.merges x y

/-- The elements connected to one of them. -/
def classOf (h : History) (x : ℕ) : Set ℕ := {y | y < h.count ∧ h.Connected x y}

/-- Every element in one group, and each group the class of all its members. -/
def IsPartition (h : History) (groups : List (List ℕ)) : Prop :=
  groups.flatten.Perm (List.range h.count) ∧
    ∀ group ∈ groups, group ≠ [] ∧ ∀ x ∈ group, {y | y ∈ group} = h.classOf x

/-- Every operation of a sequence has its indices in range when its turn comes. -/
def AllInRange : History → List Op → Prop
  | _, [] => True
  | h, op :: ops => h.InRange op ∧ AllInRange (h.next op) ops

end History

/-- An operation does not panic and answers what the merges so far say. -/
def Serves (s : UnionFind) (h : History) : Op → Prop
  | .append _ => True
  | .merge x y => (s.merge x y).isSome
  | .representative x => ∃ r ∈ h.classOf x, ∀ y ∈ h.classOf x, (s.representative y).map Prod.fst = some r
  | .isSame x y => ∃ b, (s.isSame x y).map Prod.fst = some b ∧ (b = true ↔ h.Connected x y)
  | .size x => (s.size x).map Prod.fst = some (h.classOf x).ncard
  | .groups => ∃ gs, s.groups.map Prod.fst = some gs ∧ h.IsPartition gs

/-- Every operation of a sequence is served, each in the state that the one before left. -/
def ServesAll : UnionFind → History → List Op → Prop
  | _, _, [] => True
  | s, h, op :: ops => s.Serves h op ∧ ∃ s', s.step op = some s' ∧ ServesAll s' (h.next op) ops

/-- The operation needs no size of an element beyond the first `n`. -/
def Op.Sized (n : ℕ) : Op → Prop
  | .merge x y => x = y ∨ x < n ∧ y < n
  | .size x => x < n
  | _ => True

/-! ### The invariant -/

/-- An index beyond the vector counts as its own parent. -/
def parentOf (s : UnionFind) (x : ℕ) : ℕ := s.parents.getD x x

def rankOf (s : UnionFind) (x : ℕ) : ℕ := s.ranks.getD x 0

/-- The vectors are a ranked forest of the classes, with the sizes of those among the first `n` elements. -/
structure Represents (n : ℕ) (h : History) (root : ℕ → ℕ) (s : UnionFind) : Prop where
  parents_length : s.parents.length = h.count
  ranks_length : s.ranks.length = h.count
  sizes_length : s.sizes.length = n
  le_count : n ≤ h.count
  ranked : Ranked s.parentOf root s.rankOf
  connected : ∀ x y, root x = root y ↔ h.Connected x y
  root_lt_count : ∀ x < h.count, root x < h.count
  root_lt : ∀ x < n, root x < n
  root_eq : ∀ x, n ≤ x → root x = x
  two_pow_rank : ∀ r < h.count, root r = r → 2 ^ s.rankOf r ≤ (below (Finset.range h.count) root r).card
  sizes_root : ∀ r < n, root r = r → s.sizes[r]? = some (below (Finset.range h.count) root r).card

theorem parentOf_set {s : UnionFind} {x p : ℕ} (hx : x < s.parents.length) :
    ({ s with parents := s.parents.set x p } : UnionFind).parentOf = Function.update s.parentOf x p := by
  funext y
  by_cases hy : y = x
  · simp [parentOf, hy, hx]
  · simp [parentOf, hy, Ne.symm hy]

theorem new_represents (n : ℕ) : Represents n ⟨n, []⟩ id (new n) := by
  have hparent : (new n).parentOf = id := by
    funext x
    by_cases hx : x < n
    · simp [parentOf, new, hx]
    · simp [parentOf, new, hx]
  have hrank : ∀ x, (new n).rankOf x = 0 := by
    intro x
    by_cases hx : x < n
    · simp [rankOf, new, hx]
    · simp [rankOf, new, hx]
  have hbelow : ∀ r < n, (below (Finset.range n) id r).card = 1 := by
    intro r hr
    rw [Finset.card_eq_one]
    refine ⟨r, ?_⟩
    ext x
    simp only [below, id, Finset.mem_filter, Finset.mem_range, Finset.mem_singleton]
    constructor
    · exact And.right
    · rintro rfl
      exact ⟨hr, rfl⟩
  refine ⟨?_, ?_, ?_, le_refl n, ?_, ?_, ?_, ?_, ?_, ?_, ?_⟩
  · simp [new]
  · simp [new]
  · simp [new]
  · rw [hparent]
    exact .singletons _
  · intro x y
    simp [History.Connected]
  · simp
  · simp
  · simp
  · intro r hr _
    rw [hrank, hbelow r hr, pow_zero]
  · intro r hr _
    rw [hbelow r hr]
    simp [new, hr]

/-- Pushing to a map whose entries are given by their keys. -/
theorem pushAt_eq {r i : ℕ} {keys : List ℕ} {f : ℕ → List ℕ} (hnodup : keys.Nodup) (hr : r ∉ keys → f r = []) :
    pushAt r i (keys.map fun k => (k, f k)) =
      (if r ∈ keys then keys else keys ++ [r]).map fun k => (k, if k = r then f k ++ [i] else f k) := by
  induction keys with
  | nil => simp [pushAt, hr]
  | cons k keys ih =>
      obtain ⟨hk, hnodup⟩ := List.nodup_cons.mp hnodup
      rw [List.map_cons, pushAt]
      by_cases hkr : k = r
      · subst hkr
        have hrest : ∀ k' ∈ keys, (k', f k') = (k', if k' = k then f k' ++ [i] else f k') := by
          intro k' hk'
          have hne : k' ≠ k := by
            rintro rfl
            exact hk hk'
          simp [hne]
        simp [List.map_congr_left hrest]
      · rw [if_neg hkr, ih hnodup fun h => hr (by simp [h, Ne.symm hkr])]
        by_cases hmem : r ∈ keys
        · simp [hmem, hkr]
        · simp [hmem, hkr, Ne.symm hkr]

namespace Represents

variable {n : ℕ} {h : History} {root : ℕ → ℕ} {s : UnionFind} {x y : ℕ}

/-- Only the parents matter that a state has. -/
theorem with_parents (hs : Represents n h root s) {parents : List ℕ} (hlength : parents.length = h.count)
    (hranked : Ranked ({ s with parents } : UnionFind).parentOf root s.rankOf) :
    Represents n h root { s with parents } :=
  { hs with parents_length := hlength, ranked := hranked }

theorem getElem?_parents (hs : Represents n h root s) (hx : x < h.count) : s.parents[x]? = some (s.parentOf x) := by
  rw [← hs.parents_length] at hx
  simp [parentOf, hx]

theorem getElem?_ranks (hs : Represents n h root s) (hx : x < h.count) : s.ranks[x]? = some (s.rankOf x) := by
  rw [← hs.ranks_length] at hx
  simp [rankOf, hx]

theorem parentOf_lt (hs : Represents n h root s) (hx : x < h.count) : s.parentOf x < h.count := by
  by_contra hge
  have hfix : s.parentOf (s.parentOf x) = s.parentOf x := by
    generalize s.parentOf x = p at hge
    simp [parentOf, hs.parents_length, Nat.not_lt.mp hge]
  have hroot := hs.ranked.root_eq _ hfix
  rw [hs.ranked.root_parent] at hroot
  have hlt := hs.root_lt_count x hx
  omega

/-- Union by rank keeps the ranks small: there is fuel for every path. -/
theorem rankOf_root_lt (hs : Represents n h root s) (hx : x < h.count) : s.rankOf (root x) < h.count := by
  have hpow := hs.two_pow_rank (root x) (hs.root_lt_count x hx) (hs.ranked.root_root x)
  have hcard : (below (Finset.range h.count) root (root x)).card ≤ h.count := by
    have hle := Finset.card_filter_le (Finset.range h.count) (root · = root x)
    rwa [Finset.card_range] at hle
  exact Nat.lt_two_pow_self.trans_le (hpow.trans hcard)

/-- An element lies below its root directly afterwards. -/
theorem compress (hs : Represents n h root s) (hx : x < h.count) :
    Represents n h root { s with parents := s.parents.set x (root x) } := by
  refine hs.with_parents ?_ ?_
  · rw [List.length_set, hs.parents_length]
  · rw [parentOf_set (by rw [hs.parents_length]; exact hx)]
    exact hs.ranked.compress x

/-- The recursion ends as the ranks grow, and all classes stay. -/
theorem representativeFrom_eq (hs : Represents n h root s) (fuel : ℕ) (hx : x < h.count)
    (hfuel : s.rankOf (root x) - s.rankOf x < fuel) :
    ∃ s', representativeFrom fuel s x = some (root x, s') ∧ Represents n h root s' := by
  induction fuel generalizing x with
  | zero => omega
  | succ fuel ih =>
      unfold representativeFrom
      rw [hs.getElem?_parents hx, Option.bind_eq_bind, Option.bind_some]
      by_cases hparent : s.parentOf x = x
      · refine ⟨s, ?_, hs⟩
        rw [if_pos hparent, hs.ranked.root_eq x hparent]
        rfl
      · have hlt := hs.ranked.rank_lt x hparent
        have hle := hs.ranked.rank_le_root (s.parentOf x)
        have hroot := hs.ranked.root_parent x
        rw [hroot] at hle
        obtain ⟨s', hs', hrep⟩ := ih (hs.parentOf_lt hx) (by rw [hroot]; omega)
        rw [hroot] at hs'
        refine ⟨_, ?_, hrep.compress hx⟩
        rw [if_neg hparent, hs']
        rfl

theorem representative_eq (hs : Represents n h root s) (hx : x < h.count) :
    ∃ s', s.representative x = some (root x, s') ∧ Represents n h root s' := by
  apply hs.representativeFrom_eq _ hx
  have hlt := hs.rankOf_root_lt hx
  rw [hs.parents_length]
  omega

theorem rankOf_link (hs : Represents n h root s) {a b : ℕ} (ha : a < h.count) (parents sizes : List ℕ) :
    rankOf ⟨parents, if s.rankOf a = s.rankOf b then s.ranks.set a (s.rankOf a + 1) else s.ranks, sizes⟩ =
      Ranked.linkRank s.rankOf a b := by
  funext x
  unfold Ranked.linkRank
  split
  · by_cases hx : x = a
    · simp [rankOf, hx, hs.ranks_length, ha]
    · simp [rankOf, hx, Ne.symm hx]
  · rfl

/-- The roots after a link are the roots before, less the linked one. -/
theorem root_of_linkRoot {a b r : ℕ} (hb : root b = b) (hab : a ≠ b) (hra : r ≠ a)
    (hroot : Ranked.linkRoot root a b r = r) : root r = r ∧ r ≠ b := by
  unfold Ranked.linkRoot at hroot
  split at hroot
  · exact absurd hroot.symm hra
  · rename_i hne
    refine ⟨hroot, ?_⟩
    rintro rfl
    exact hne hb

/-- The rest of a merge, from two roots of which the first has no smaller rank. -/
theorem link_eq (hs : Represents n h root s) {a b : ℕ} {pair : ℕ × ℕ} (ha : root a = a) (hb : root b = b) (hab : a ≠ b)
    (han : a < n) (hbn : b < n) (hle : s.rankOf b ≤ s.rankOf a)
    (hpair : ∀ x y, Joined (pair :: h.merges) x y ↔
      root x = root y ∨ root x = a ∧ root y = b ∨ root x = b ∧ root y = a) :
    ∃ s', s.link a b (s.rankOf a) (s.rankOf b) = some s' ∧
      Represents n { h with merges := pair :: h.merges } (Ranked.linkRoot root a b) s' := by
  have hac : a < h.count := han.trans_le hs.le_count
  have hbc : b < h.count := hbn.trans_le hs.le_count
  refine ⟨⟨s.parents.set b a, if s.rankOf a = s.rankOf b then s.ranks.set a (s.rankOf a + 1) else s.ranks,
    s.sizes.set a ((below (Finset.range h.count) root a).card + (below (Finset.range h.count) root b).card)⟩, ?_, ?_⟩
  · unfold link
    rw [hs.sizes_root a han ha, hs.sizes_root b hbn hb]
    rfl
  · refine ⟨?_, ?_, ?_, hs.le_count, ?_, ?_, ?_, ?_, ?_, ?_, ?_⟩
    · simp [hs.parents_length]
    · dsimp only
      split <;> simp [hs.ranks_length]
    · simp [hs.sizes_length]
    · rw [hs.rankOf_link hac]
      have hlink := hs.ranked.link ha hb hab hle
      rw [← parentOf_set (by rw [hs.parents_length]; exact hbc)] at hlink
      exact hlink
    · intro x y
      exact Ranked.linkRoot_eq_iff.trans (hpair x y).symm
    · intro x hx
      unfold Ranked.linkRoot
      split
      · exact hac
      · exact hs.root_lt_count x hx
    · intro x hx
      unfold Ranked.linkRoot
      split
      · exact han
      · exact hs.root_lt x hx
    · intro x hx
      have hroot := hs.root_eq x hx
      rw [Ranked.linkRoot, if_neg (by omega), hroot]
    · intro r hr hroot
      dsimp only at hr ⊢
      rw [hs.rankOf_link hac]
      by_cases hra : r = a
      · subst hra
        rw [below_linkRoot_self hab]
        have hpowa := hs.two_pow_rank r hac ha
        have hpowb := hs.two_pow_rank b hbc hb
        unfold Ranked.linkRank
        split
        · -- one rank more, and two classes of at least so many elements
          rename_i heq
          rw [Function.update_self, pow_succ]
          rw [← heq] at hpowb
          omega
        · omega
      · obtain ⟨hr', hrb⟩ := root_of_linkRoot hb hab hra hroot
        rw [Ranked.linkRank_of_ne hra, below_linkRoot_of_ne hra hrb]
        exact hs.two_pow_rank r hr hr'
    · intro r hr hroot
      by_cases hra : r = a
      · subst hra
        rw [below_linkRoot_self hab]
        simp [hs.sizes_length, han]
      · obtain ⟨hr', hrb⟩ := root_of_linkRoot hb hab hra hroot
        rw [below_linkRoot_of_ne hra hrb, List.getElem?_set_ne (Ne.symm hra)]
        exact hs.sizes_root r hr hr'

/-- A merge within a class. -/
theorem merge_self (hs : Represents n h root s) (hxy : root x = root y) :
    Represents n { h with merges := (x, y) :: h.merges } root s :=
  { hs with
    connected := fun x' y' => by
      rw [History.Connected, joined_cons]
      simp only [← History.Connected.eq_1, ← hs.connected]
      grind }

theorem merge_eq (hs : Represents n h root s) (hx : x < h.count) (hy : y < h.count) (hxy : x = y ∨ x < n ∧ y < n) :
    ∃ s' root', s.merge x y = some s' ∧ Represents n { h with merges := (x, y) :: h.merges } root' s' := by
  obtain ⟨s₁, hs₁, hrep₁⟩ := hs.representative_eq hx
  obtain ⟨s₂, hs₂, hrep₂⟩ := hrep₁.representative_eq hy
  unfold merge
  rw [hs₁, Option.bind_eq_bind, Option.bind_some]
  dsimp only
  rw [hs₂, Option.bind_eq_bind, Option.bind_some]
  dsimp only
  by_cases hroot : root x = root y
  · rw [if_pos hroot]
    exact ⟨s₂, root, rfl, hrep₂.merge_self hroot⟩
  · rw [if_neg hroot]
    obtain ⟨hxn, hyn⟩ : x < n ∧ y < n := hxy.resolve_left fun h => hroot (h ▸ rfl)
    have hrx := hrep₂.ranked.root_root x
    have hry := hrep₂.ranked.root_root y
    have hxn' := hrep₂.root_lt x hxn
    have hyn' := hrep₂.root_lt y hyn
    rw [hrep₂.getElem?_ranks (hrep₂.root_lt_count x hx), hrep₂.getElem?_ranks (hrep₂.root_lt_count y hy)]
    simp only [Option.bind_some]
    have hpair : ∀ x' y', Joined ((x, y) :: h.merges) x' y' ↔
        root x' = root y' ∨ root x' = root x ∧ root y' = root y ∨ root x' = root y ∧ root y' = root x := by
      intro x' y'
      rw [joined_cons]
      simp only [← History.Connected.eq_1, ← hs.connected]
      grind
    by_cases hrank : s₂.rankOf (root x) < s₂.rankOf (root y)
    · rw [if_pos hrank]
      obtain ⟨s', hs', hrep⟩ := hrep₂.link_eq hry hrx (Ne.symm hroot) hyn' hxn' hrank.le fun x' y' => by
        rw [hpair x' y']
        grind
      exact ⟨s', _, hs', hrep⟩
    · rw [if_neg hrank]
      obtain ⟨s', hs', hrep⟩ := hrep₂.link_eq hrx hry hroot hxn' hyn' (Nat.not_lt.mp hrank) hpair
      exact ⟨s', _, hs', hrep⟩

/-- Without a size for one of them, two elements cannot be merged. -/
theorem merge_eq_none (hs : Represents n h root s) (hx : x < h.count) (hy : y < h.count)
    (hxy : ¬(x = y ∨ x < n ∧ y < n)) : s.merge x y = none := by
  obtain ⟨hne, hn⟩ := not_or.mp hxy
  obtain ⟨s₁, hs₁, hrep₁⟩ := hs.representative_eq hx
  obtain ⟨s₂, hs₂, hrep₂⟩ := hrep₁.representative_eq hy
  have hout : root x ≠ root y ∧ (n ≤ root x ∨ n ≤ root y) := by
    rcases Nat.lt_or_ge x n with hxn | hxn
    · have hyn : n ≤ y := by omega
      have hlt := hs.root_lt x hxn
      rw [hs.root_eq y hyn]
      omega
    · rw [hs.root_eq x hxn]
      rcases Nat.lt_or_ge y n with hyn | hyn
      · have hlt := hs.root_lt y hyn
        omega
      · rw [hs.root_eq y hyn]
        omega
  have hnone : ∀ r, n ≤ r → s₂.sizes[r]? = none := by
    intro r hr
    rw [List.getElem?_eq_none_iff, hrep₂.sizes_length]
    exact hr
  have hlink : ∀ rankX rankY, s₂.link (root x) (root y) rankX rankY = none ∧
      s₂.link (root y) (root x) rankY rankX = none := by
    intro rankX rankY
    unfold link
    obtain hr | hr := hout.2
    · rw [hnone _ hr]
      exact ⟨rfl, by cases s₂.sizes[root y]? <;> rfl⟩
    · rw [hnone _ hr]
      exact ⟨by cases s₂.sizes[root x]? <;> rfl, rfl⟩
  unfold merge
  rw [hs₁, Option.bind_eq_bind, Option.bind_some]
  dsimp only
  rw [hs₂, Option.bind_eq_bind, Option.bind_some]
  dsimp only
  rw [if_neg hout.1, hrep₂.getElem?_ranks (hrep₂.root_lt_count x hx),
    hrep₂.getElem?_ranks (hrep₂.root_lt_count y hy)]
  simp only [Option.bind_some, hlink, ite_self]

theorem append_represents (hs : Represents n h root s) (k : ℕ) :
    Represents n { h with count := h.count + k } root (s.append k) := by
  have hparent : (s.append k).parentOf = s.parentOf := by
    funext x
    by_cases hx : x < h.count
    · simp [parentOf, append, List.getElem?_append, hs.parents_length, hx]
    · by_cases hxk : x - h.count < k
      · simp [parentOf, append, List.getElem?_append, hs.parents_length, hx, hxk]
        omega
      · simp [parentOf, append, List.getElem?_append, hs.parents_length, hx, hxk]
  have hrank : (s.append k).rankOf = s.rankOf := by
    funext x
    by_cases hx : x < h.count
    · simp [rankOf, append, List.getElem?_append, hs.ranks_length, hx]
    · by_cases hxk : x - h.count < k
      · simp [rankOf, append, List.getElem?_append, hs.ranks_length, hx, hxk]
      · simp [rankOf, append, List.getElem?_append, hs.ranks_length, hx, hxk]
  -- the new elements are roots of their own
  have hbelow : ∀ r < h.count, below (Finset.range (h.count + k)) root r = below (Finset.range h.count) root r := by
    intro r hr
    ext x
    simp only [below, Finset.mem_filter, Finset.mem_range]
    refine ⟨fun hx => ⟨?_, hx.2⟩, fun hx => ⟨by omega, hx.2⟩⟩
    by_contra hge
    have hroot := hs.root_eq x (by have := hs.le_count; omega)
    omega
  have hle := hs.le_count
  refine ⟨?_, ?_, hs.sizes_length, ?_, ?_, hs.connected, ?_, hs.root_lt, hs.root_eq, ?_, ?_⟩
  · simp [append, hs.parents_length]
  · simp [append, hs.ranks_length]
  · dsimp only
    omega
  · rw [hparent, hrank]
    exact hs.ranked
  · intro x hx
    dsimp only at hx ⊢
    by_cases hxc : x < h.count
    · have hlt := hs.root_lt_count x hxc
      omega
    · rw [hs.root_eq x (by omega)]
      exact hx
  · intro r hr hroot
    dsimp only at hr ⊢
    rw [hrank]
    by_cases hrc : r < h.count
    · rw [hbelow r hrc]
      exact hs.two_pow_rank r hrc hroot
    · have hzero : s.rankOf r = 0 := by
        simp [rankOf, hs.ranks_length, Nat.not_lt.mp hrc]
      rw [hzero, pow_zero, Nat.one_le_iff_ne_zero, Finset.card_ne_zero]
      exact ⟨r, Finset.mem_filter.mpr ⟨Finset.mem_range.mpr hr, hroot⟩⟩
  · intro r hr hroot
    rw [hbelow r (hr.trans_le hle)]
    exact hs.sizes_root r hr hroot

/-- Every group the elements so far with one root, in their order. -/
theorem foldlM_groups (hs : Represents n h root s) (is : List ℕ) (his : ∀ i ∈ is, i < h.count) :
    ∃ (keys : List ℕ) (s' : UnionFind), keys.Nodup ∧ (∀ k, k ∈ keys ↔ ∃ i ∈ is, root i = k) ∧ Represents n h root s' ∧
      is.foldlM (fun ((groups, s) : List (ℕ × List ℕ) × UnionFind) i => do
          let (repr, s) ← s.representative i
          return (pushAt repr i groups, s)) ([], s) =
        some (keys.map fun k => (k, is.filter (root · = k)), s') := by
  induction is using List.reverseRecOn with
  | nil => exact ⟨[], s, by simp, by simp, hs, by simp⟩
  | append_singleton is i ih =>
      obtain ⟨keys, s', hnodup, hmem, hrep, hfold⟩ := ih fun j hj => his j (List.mem_append_left _ hj)
      obtain ⟨s'', hs'', hrep'⟩ := hrep.representative_eq (his i (by simp))
      refine ⟨if root i ∈ keys then keys else keys ++ [root i], s'', ?_, ?_, hrep', ?_⟩
      · split
        · exact hnodup
        · rename_i hi
          rw [List.nodup_append]
          refine ⟨hnodup, List.nodup_singleton _, ?_⟩
          rintro a ha b hb rfl
          exact hi (List.mem_singleton.mp hb ▸ ha)
      · intro k
        split
        · rename_i hi
          rw [hmem]
          obtain ⟨j, hj, hji⟩ := (hmem _).mp hi
          constructor
          · rintro ⟨j, hj, rfl⟩
            exact ⟨j, List.mem_append_left _ hj, rfl⟩
          · rintro ⟨j', hj', rfl⟩
            obtain hj' | hj' := List.mem_append.mp hj'
            · exact ⟨j', hj', rfl⟩
            · rw [List.mem_singleton.mp hj']
              exact ⟨j, hj, hji⟩
        · simp [hmem, or_and_right, exists_or, eq_comm]
      · rw [List.foldlM_append, hfold]
        simp only [Option.bind_eq_bind, Option.bind_some, List.foldlM_cons, List.foldlM_nil, hs'']
        rw [pushAt_eq hnodup]
        · rw [Option.pure_def, Option.bind_some]
          congr 3
          funext k
          by_cases hk : k = root i
          · simp [hk]
          · simp [hk, Ne.symm hk]
        · intro hi
          rw [List.filter_eq_nil_iff]
          intro j hj hji
          exact hi ((hmem _).mpr ⟨j, hj, of_decide_eq_true hji⟩)

theorem classOf_eq (hs : Represents n h root s) (x : ℕ) :
    h.classOf x = ↑(below (Finset.range h.count) root (root x)) := by
  ext y
  simp [History.classOf, below, ← hs.connected, eq_comm]

theorem groups_eq (hs : Represents n h root s) :
    ∃ gs s', s.groups = some (gs, s') ∧ Represents n h root s' ∧ h.IsPartition gs := by
  obtain ⟨keys, s', hnodup, hmem, hrep, hfold⟩ := hs.foldlM_groups (List.range h.count) (by simp)
  refine ⟨keys.map fun k => (List.range h.count).filter (root · = k), s', ?_, hrep, ?_, ?_⟩
  · unfold groups
    rw [hs.parents_length, hfold]
    simp
  · rw [List.perm_ext_iff_of_nodup _ List.nodup_range]
    · intro x
      simp only [List.mem_flatten, List.mem_map, hmem]
      constructor
      · rintro ⟨_, ⟨k, -, rfl⟩, hx⟩
        exact (List.mem_filter.mp hx).1
      · intro hx
        exact ⟨_, ⟨root x, ⟨x, hx, rfl⟩, rfl⟩, List.mem_filter.mpr ⟨hx, decide_eq_true rfl⟩⟩
    · rw [List.nodup_flatten, List.forall_mem_map, List.pairwise_map]
      refine ⟨fun k _ => List.nodup_range.filter _, hnodup.imp fun {k k'} hne => ?_⟩
      rw [List.disjoint_left]
      intro x hx hx'
      exact hne ((of_decide_eq_true (List.mem_filter.mp hx).2).symm.trans (of_decide_eq_true (List.mem_filter.mp hx').2))
  · rw [List.forall_mem_map]
    intro k hk
    obtain ⟨i, hi, rfl⟩ := (hmem k).mp hk
    refine ⟨List.ne_nil_of_mem (List.mem_filter.mpr ⟨hi, decide_eq_true rfl⟩), fun x hx => ?_⟩
    have hroot := of_decide_eq_true (List.mem_filter.mp hx).2
    rw [hs.classOf_eq, hroot]
    ext y
    simp [below]

/-- One operation that needs no missing size: it is served, and what the vectors are stays. -/
theorem step_sized (hs : Represents n h root s) {op : Op} (hin : h.InRange op) (hop : op.Sized n) :
    s.Serves h op ∧ ∃ s' root', s.step op = some s' ∧ Represents n (h.next op) root' s' := by
  cases op with
  | append k => exact ⟨trivial, _, root, rfl, hs.append_represents k⟩
  | merge x y =>
      obtain ⟨s', root', hs', hrep⟩ := hs.merge_eq hin.1 hin.2 hop
      refine ⟨?_, s', root', hs', hrep⟩
      simp [Serves, hs']
  | representative x =>
      obtain ⟨s', hs', hrep⟩ := hs.representative_eq hin
      refine ⟨⟨root x, ?_, ?_⟩, s', root, by simp [step, hs'], hrep⟩
      · exact ⟨hs.root_lt_count x hin, (hs.connected _ _).mp (hs.ranked.root_root x).symm⟩
      · rintro y ⟨hy, hxy⟩
        obtain ⟨s'', hs'', -⟩ := hs.representative_eq hy
        simp [hs'', (hs.connected x y).mpr hxy]
  | isSame x y =>
      obtain ⟨s₁, hs₁, hrep₁⟩ := hs.representative_eq hin.1
      obtain ⟨s₂, hs₂, hrep₂⟩ := hrep₁.representative_eq hin.2
      have hsame : s.isSame x y = some (root x == root y, s₂) := by
        simp [isSame, hs₁, hs₂]
      refine ⟨⟨root x == root y, by simp [hsame], ?_⟩, s₂, root, by simp [step, hsame], hrep₂⟩
      rw [beq_iff_eq, hs.connected]
  | size x =>
      obtain ⟨s', hs', hrep⟩ := hs.representative_eq hin
      have hsize : s.size x = some ((below (Finset.range h.count) root (root x)).card, s') := by
        simp [size, hs', hrep.sizes_root (root x) (hs.root_lt x hop) (hs.ranked.root_root x)]
      refine ⟨?_, s', root, by simp [step, hsize], hrep⟩
      rw [Serves, hsize, hs.classOf_eq, Set.ncard_coe_finset]
      rfl
  | groups =>
      obtain ⟨gs, s', hgs, hrep, hpart⟩ := hs.groups_eq
      exact ⟨⟨gs, by simp [hgs], hpart⟩, s', root, by simp [step, hgs], hrep⟩

/-- One that needs a missing size panics. -/
theorem not_serves (hs : Represents n h root s) {op : Op} (hin : h.InRange op) (hop : ¬op.Sized n) :
    ¬s.Serves h op := by
  cases op with
  | merge x y => simp [Serves, hs.merge_eq_none hin.1 hin.2 hop]
  | size x =>
      obtain ⟨s', hs', hrep⟩ := hs.representative_eq hin
      have hnone : s'.sizes[root x]? = none := by
        rw [List.getElem?_eq_none_iff, hrep.sizes_length, hs.root_eq x (Nat.not_lt.mp hop)]
        exact Nat.not_lt.mp hop
      simp [Serves, size, hs', hnone]
  | append | representative | isSame | groups => exact absurd trivial hop

/-- A run of any operations, from any state that stands for its history. -/
theorem servesAll_iff (hs : Represents n h root s) {ops : List Op} (hin : h.AllInRange ops) :
    ServesAll s h ops ↔ ∀ op ∈ ops, op.Sized n := by
  induction ops generalizing h root s with
  | nil => simp [ServesAll]
  | cons op ops ih =>
      by_cases hop : op.Sized n
      · obtain ⟨hserves, s', root', hs', hrep⟩ := hs.step_sized hin.1 hop
        simp [ServesAll, hserves, hs', hop, ih hrep hin.2]
      · simp [ServesAll, hs.not_serves hin.1 hop, hop]

end Represents

/-- Every operation of a run is right exactly when none needs the size of an appended element. -/
theorem new_servesAll_iff (n : ℕ) (ops : List Op) (hin : History.AllInRange ⟨n, []⟩ ops) :
    ServesAll (new n) ⟨n, []⟩ ops ↔ ∀ op ∈ ops, op.Sized n :=
  (new_represents n).servesAll_iff hin

/-- The test of the source, with an element appended. -/
theorem new_servesAll_six :
    ServesAll (new 6) ⟨6, []⟩ [.merge 0 1, .merge 2 3, .merge 0 2, .append 1, .isSame 1 3, .size 3, .isSame 6 0, .groups] :=
  (new_servesAll_iff 6 _ (by simp [History.AllInRange, History.InRange, History.next])).mpr (by simp [Op.Sized])

/-- An appended element has no size, and the structure panics when it is asked for. -/
theorem append_size_panics :
    History.AllInRange ⟨1, []⟩ [.append 1, .size 1] ∧ ¬ServesAll (new 1) ⟨1, []⟩ [.append 1, .size 1] ∧
      History.AllInRange ⟨1, []⟩ [.append 1, .merge 0 1] ∧ ¬ServesAll (new 1) ⟨1, []⟩ [.append 1, .merge 0 1] := by
  refine ⟨by simp [History.AllInRange, History.InRange, History.next], ?_,
    by simp [History.AllInRange, History.InRange, History.next], ?_⟩
  · rintro ⟨-, s, hs, hsize, -⟩
    cases hs
    revert hsize
    simp [Serves, show ((new 1).append 1).size 1 = none from rfl]
  · rintro ⟨-, s, hs, hmerge, -⟩
    cases hs
    revert hmerge
    simp [Serves, show ((new 1).append 1).merge 0 1 = none from rfl]

end UnionFind
end NnEngine
