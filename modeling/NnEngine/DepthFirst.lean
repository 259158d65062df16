import Mathlib.Tactic

/-!
# Depth-first search

A search with a visited list over a successor function that can panic.  The recursion has fuel for its
depth.  `search_mem_iff` says that a search that returns has visited exactly what its roots reach, and
`search_ne_fuel` that one unit of fuel for each vertex, and one more, is enough.
-/

namespace NnEngine
namespace DepthFirst

/-- Why a computation returns nothing. -/
inductive Stop
  | panic
  | fuel
  deriving DecidableEq, Repr

variable {V : Type}

/-- An edge of the graph. -/
def Edge (succ : V → Option (List V)) (v u : V) : Prop := ∃ next, succ v = some next ∧ u ∈ next

/-- `u` can be reached from one of the roots. -/
def Reached (succ : V → Option (List V)) (roots : List V) (u : V) : Prop :=
  ∃ v ∈ roots, Relation.ReflTransGen (Edge succ) v u

variable {succ : V → Option (List V)} {v : V} {roots visited visited' : List V}

/-- What visiting some roots adds: the roots, and only what they reach, closed under successors. -/
structure Visits (succ : V → Option (List V)) (roots visited visited' : List V) : Prop where
  subset : ∀ x ∈ visited, x ∈ visited'
  visits : ∀ x ∈ roots, x ∈ visited'
  sound : ∀ x ∈ visited', x ∈ visited ∨ Reached succ roots x
  closed : ∀ x ∈ visited', x ∉ visited → ∃ next, succ x = some next ∧ ∀ y ∈ next, y ∈ visited'

theorem Visits.nil (visited : List V) : Visits succ [] visited visited where
  subset _ hx := hx
  visits _ hx := absurd hx List.not_mem_nil
  sound _ hx := .inl hx
  closed _ hx hnot := absurd hx hnot

theorem Visits.cons {visited₁ : List V} (h₁ : Visits succ [v] visited visited₁)
    (h₂ : Visits succ roots visited₁ visited') : Visits succ (v :: roots) visited visited' where
  subset x hx := h₂.subset x (h₁.subset x hx)
  visits x hx := by
    rcases List.mem_cons.mp hx with rfl | hx
    · exact h₂.subset x (h₁.visits x List.mem_cons_self)
    · exact h₂.visits x hx
  sound x hx := by
    rcases h₂.sound x hx with hx | ⟨r, hr, hpath⟩
    · rcases h₁.sound x hx with hx | ⟨r, hr, hpath⟩
      · exact .inl hx
      · rw [List.mem_singleton.mp hr] at hpath
        exact .inr ⟨v, List.mem_cons_self, hpath⟩
    · exact .inr ⟨r, List.mem_cons_of_mem _ hr, hpath⟩
  closed x hx hnot := by
    by_cases hx₁ : x ∈ visited₁
    · obtain ⟨next, hnext, hin⟩ := h₁.closed x hx₁ hnot
      exact ⟨next, hnext, fun y hy => h₂.subset y (hin y hy)⟩
    · exact h₂.closed x hx hx₁

/-- A fold visits its roots if each call visits its own. -/
theorem foldlM_visits {f : List V → V → Except Stop (List V)}
    (hf : ∀ v visited visited', f visited v = .ok visited' → Visits succ [v] visited visited') :
    ∀ (roots visited : List V), roots.foldlM f visited = .ok visited' →
    Visits succ roots visited visited' := by
  intro roots
  induction roots with
  | nil =>
      intro visited h
      obtain rfl := Except.ok.inj h
      exact .nil visited
  | cons v roots ih =>
      intro visited h
      rw [List.foldlM_cons] at h
      cases hv : f visited v with
      | error e => rw [hv] at h; cases h
      | ok visited₁ =>
          rw [hv] at h
          exact (hf v visited visited₁ hv).cons (ih visited₁ h)

variable [DecidableEq V]

/-- Visit `v` and what it leads to. -/
def visit (succ : V → Option (List V)) : Nat → V → List V → Except Stop (List V)
  | 0, _, _ => .error .fuel
  | fuel + 1, v, visited =>
      if v ∈ visited then .ok visited
      else
        match succ v with
        | none => .error .panic
        | some next => next.foldlM (fun visited u => visit succ fuel u visited) (v :: visited)

/-- Visit all roots. -/
def search (succ : V → Option (List V)) (fuel : Nat) (roots : List V) : Except Stop (List V) :=
  roots.foldlM (fun visited v => visit succ fuel v visited) []

variable {fuel : Nat}

theorem visit_visits (h : visit succ fuel v visited = .ok visited') :
    Visits succ [v] visited visited' := by
  induction fuel generalizing v visited visited' with
  | zero => cases h
  | succ fuel ih =>
      unfold visit at h
      split at h
      · rename_i hv
        obtain rfl := Except.ok.inj h
        exact
          { subset := fun x hx => hx
            visits := fun x hx => by rw [List.mem_singleton.mp hx]; exact hv
            sound := fun x hx => .inl hx
            closed := fun x hx hnot => absurd hx hnot }
      · split at h
        · cases h
        rename_i next hnext
        have hrest := foldlM_visits (fun u vis vis' hu => ih hu) next (v :: visited) h
        constructor
        · exact fun x hx => hrest.subset x (List.mem_cons_of_mem v hx)
        · intro x hx
          rw [List.mem_singleton.mp hx]
          exact hrest.subset v List.mem_cons_self
        · intro x hx
          rcases hrest.sound x hx with hx | ⟨u, hu, hpath⟩
          · rcases List.mem_cons.mp hx with rfl | hx
            · exact .inr ⟨x, List.mem_cons_self, .refl⟩
            · exact .inl hx
          · exact .inr ⟨v, List.mem_cons_self, .head ⟨next, hnext, hu⟩ hpath⟩
        · intro x hx hnot
          by_cases hxv : x = v
          · subst hxv
            exact ⟨next, hnext, hrest.visits⟩
          · exact hrest.closed x hx (by simp [hxv, hnot])

/-- A search that returns has visited exactly what its roots reach. -/
theorem search_mem_iff (h : search succ fuel roots = .ok visited) (u : V) :
    u ∈ visited ↔ Reached succ roots u := by
  have hvisits := foldlM_visits (fun v vis vis' hv => visit_visits hv) roots [] h
  constructor
  · intro hu
    exact (hvisits.sound u hu).resolve_left List.not_mem_nil
  · rintro ⟨v, hv, hpath⟩
    induction hpath with
    | refl => exact hvisits.visits v hv
    | tail _ hedge ih =>
        obtain ⟨next, hnext, hin⟩ := hedge
        obtain ⟨next', hnext', hclosed⟩ := hvisits.closed _ ih List.not_mem_nil
        obtain rfl := Option.some.inj (hnext.symm.trans hnext')
        exact hclosed _ hin

/-- The vertices that a search has still to visit. -/
def unvisited (vertices : Finset V) (visited : List V) : Finset V :=
  vertices.filter (· ∉ visited)

theorem unvisited_cons_lt {vertices : Finset V} (hv : v ∈ vertices) (hnot : v ∉ visited) :
    (unvisited vertices (v :: visited)).card < (unvisited vertices visited).card := by
  apply Finset.card_lt_card
  rw [Finset.ssubset_iff_of_subset]
  · exact ⟨v, Finset.mem_filter.mpr ⟨hv, hnot⟩, fun h => (Finset.mem_filter.mp h).2 List.mem_cons_self⟩
  · intro x hx
    obtain ⟨hx, hxv⟩ := Finset.mem_filter.mp hx
    exact Finset.mem_filter.mpr ⟨hx, fun h => hxv (List.mem_cons_of_mem v h)⟩

theorem unvisited_le {vertices : Finset V} (h : ∀ x ∈ visited, x ∈ visited') :
    (unvisited vertices visited').card ≤ (unvisited vertices visited).card := by
  apply Finset.card_le_card
  intro x hx
  obtain ⟨hx, hnot⟩ := Finset.mem_filter.mp hx
  exact Finset.mem_filter.mpr ⟨hx, fun h' => hnot (h x h')⟩

theorem foldlM_ne_fuel {vertices : Finset V} {f : List V → V → Except Stop (List V)} {k : Nat}
    (hf : ∀ v visited visited', f visited v = .ok visited' → Visits succ [v] visited visited')
    (hfuel : ∀ v visited, (unvisited vertices visited).card < k → f visited v ≠ .error .fuel) :
    ∀ (roots visited : List V), (unvisited vertices visited).card < k →
    roots.foldlM f visited ≠ .error .fuel := by
  intro roots
  induction roots with
  | nil =>
      intro visited _ h
      cases h
  | cons v roots ih =>
      intro visited hk h
      rw [List.foldlM_cons] at h
      cases hv : f visited v with
      | error e =>
          rw [hv] at h
          exact hfuel v visited hk (hv.trans h)
      | ok visited₁ =>
          rw [hv] at h
          exact ih visited₁ ((unvisited_le (hf v visited visited₁ hv).subset).trans_lt hk) h

theorem visit_ne_fuel {vertices : Finset V} (hsucc : ∀ v, succ v ≠ none → v ∈ vertices)
    (hfuel : (unvisited vertices visited).card < fuel) :
    visit succ fuel v visited ≠ .error .fuel := by
  induction fuel generalizing v visited with
  | zero => omega
  | succ fuel ih =>
      unfold visit
      split
      · simp
      · rename_i hnot
        split
        · simp
        · rename_i next hnext
          have hlt := unvisited_cons_lt (hsucc v (by simp [hnext])) hnot
          exact foldlM_ne_fuel (fun u vis vis' hu => visit_visits hu) (fun u vis hk => ih hk) next
            (v :: visited) (by omega)

/-- The recursion is no deeper than there are vertices. -/
theorem search_ne_fuel {vertices : Finset V} (hsucc : ∀ v, succ v ≠ none → v ∈ vertices)
    (hfuel : vertices.card < fuel) : search succ fuel roots ≠ .error .fuel := by
  refine foldlM_ne_fuel (fun u vis vis' hu => visit_visits hu)
    (fun u vis hk => visit_ne_fuel hsucc hk) roots [] ?_
  exact (Finset.card_filter_le _ _).trans_lt hfuel

/-- Every vertex that a search has visited has successors. -/
theorem search_succ (h : search succ fuel roots = .ok visited) {u : V} (hu : Reached succ roots u) :
    ∃ next, succ u = some next := by
  have hvisits := foldlM_visits (fun v vis vis' hv => visit_visits hv) roots [] h
  obtain ⟨next, hnext, -⟩ := hvisits.closed u ((search_mem_iff h u).mpr hu) List.not_mem_nil
  exact ⟨next, hnext⟩

omit [DecidableEq V] in
theorem foldlM_panic {f : List V → V → Except Stop (List V)} {P : V → Prop}
    (hf : ∀ v visited, f visited v = .error .panic → P v) (roots : List V) :
    ∀ visited, roots.foldlM f visited = .error .panic → ∃ v ∈ roots, P v := by
  induction roots with
  | nil => exact fun _ h => nomatch h
  | cons v roots ih =>
      intro visited h
      rw [List.foldlM_cons] at h
      cases hv : f visited v with
      | error e =>
          rw [hv] at h
          obtain rfl := Except.error.inj h
          exact ⟨v, List.mem_cons_self, hf v visited hv⟩
      | ok visited₁ =>
          rw [hv] at h
          obtain ⟨u, hu, hP⟩ := ih visited₁ h
          exact ⟨u, List.mem_cons_of_mem v hu, hP⟩

/-- A visit that panics has come to a vertex without successors. -/
theorem visit_panic (h : visit succ fuel v visited = .error .panic) :
    ∃ u, Relation.ReflTransGen (Edge succ) v u ∧ succ u = none := by
  induction fuel generalizing v visited with
  | zero => cases h
  | succ fuel ih =>
      unfold visit at h
      split at h
      · cases h
      · split at h
        · rename_i hnone
          exact ⟨v, .refl, hnone⟩
        · rename_i next hnext
          obtain ⟨u, hu, w, hpath, hnone⟩ := foldlM_panic (fun u vis hu => ih hu) next _ h
          exact ⟨w, .head ⟨next, hnext, hu⟩ hpath, hnone⟩

/-- A search that has the fuel returns if everything that it can reach has successors. -/
theorem search_ok (hfuel : search succ fuel roots ≠ .error .fuel) (h : ∀ u, Reached succ roots u → succ u ≠ none) :
    ∃ visited, search succ fuel roots = .ok visited := by
  cases hsearch : search succ fuel roots with
  | ok visited => exact ⟨visited, rfl⟩
  | error e =>
      cases e with
      | fuel => exact absurd hsearch hfuel
      | panic =>
          obtain ⟨v, hv, u, hpath, hnone⟩ := foldlM_panic (fun u vis hu => visit_panic hu) roots [] hsearch
          exact absurd hnone (h u ⟨v, hv, hpath⟩)

end DepthFirst
end NnEngine
