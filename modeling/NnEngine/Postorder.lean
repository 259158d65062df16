import NnEngine.DepthFirst

/-!
# Postorder

A depth-first search that lists its vertices when it leaves them; some vertices are passed through and not
listed.  The recursion has fuel for its depth, and a search that knows finitely many vertices has enough
(`search_eq_some`).  In a graph without cycles the successors of a vertex are left before it is
(`search_finished`): the invariant is that the vertices that are entered and not yet left lead to the current
one.
-/

namespace NnEngine
namespace Postorder

open DepthFirst

structure State (V : Type) where
  visited : List V
  res : List V

variable {V : Type} [DecidableEq V]

/-- Visit `v` and what it leads to, and list it afterwards. -/
def dfs (succ : V → List V) (listed : V → Bool) : Nat → V → State V → Option (State V)
  | 0, _, _ => none
  | fuel + 1, v, s =>
      if v ∈ s.visited then some s
      else
        ((succ v).foldlM (fun s u => dfs succ listed fuel u s) { s with visited := v :: s.visited }).map fun s =>
          if listed v then { s with res := s.res ++ [v] } else s

/-- Visit all roots. -/
def search (succ : V → List V) (listed : V → Bool) (fuel : Nat) (roots : List V) : Option (State V) :=
  roots.foldlM (fun s v => dfs succ listed fuel v s) { visited := [], res := [] }

variable {succ : V → List V} {listed : V → Bool} {fuel : Nat} {v : V} {s s' : State V} {fin fin' roots : List V}

/-! ### The search returns -/

section Fuel

variable {vertices : Finset V}

/-- What a visit adds. -/
structure Adds (vertices : Finset V) (s s' : State V) : Prop where
  subset : ∀ x ∈ s.visited, x ∈ s'.visited
  known : ∀ x ∈ s'.visited, x ∈ s.visited ∨ x ∈ vertices

omit [DecidableEq V] in
theorem Adds.trans {s₁ : State V} (h : Adds vertices s s₁) (h' : Adds vertices s₁ s') : Adds vertices s s' where
  subset x hx := h'.subset x (h.subset x hx)
  known x hx := (h'.known x hx).elim (h.known x) .inr

theorem foldlM_eq_some {f : State V → V → Option (State V)} {k : Nat}
    (hf : ∀ v ∈ vertices, ∀ s, (unvisited vertices s.visited).card < k → ∃ s', f s v = some s' ∧ Adds vertices s s')
    (roots : List V) (hroots : ∀ v ∈ roots, v ∈ vertices) (s : State V)
    (hk : (unvisited vertices s.visited).card < k) : ∃ s', roots.foldlM f s = some s' ∧ Adds vertices s s' := by
  induction roots generalizing s with
  | nil => exact ⟨s, rfl, fun _ hx => hx, fun _ hx => .inl hx⟩
  | cons v roots ih =>
      obtain ⟨s₁, hs₁, hadds⟩ := hf v (hroots v List.mem_cons_self) s hk
      obtain ⟨s', hs', hadds'⟩ := ih (fun u hu => hroots u (List.mem_cons_of_mem v hu)) s₁
        ((unvisited_le hadds.subset).trans_lt hk)
      refine ⟨s', ?_, hadds.trans hadds'⟩
      rw [List.foldlM_cons, hs₁]
      exact hs'

theorem dfs_eq_some (hclosed : ∀ x ∈ vertices, ∀ y ∈ succ x, y ∈ vertices) (hv : v ∈ vertices)
    (hfuel : (unvisited vertices s.visited).card < fuel) :
    ∃ s', dfs succ listed fuel v s = some s' ∧ Adds vertices s s' := by
  induction fuel generalizing v s with
  | zero => omega
  | succ fuel ih =>
      unfold dfs
      by_cases hvisited : v ∈ s.visited
      · rw [if_pos hvisited]
        exact ⟨s, rfl, fun _ hx => hx, fun _ hx => .inl hx⟩
      · rw [if_neg hvisited]
        have hlt := unvisited_cons_lt hv hvisited
        obtain ⟨s₁, hs₁, hadds⟩ := foldlM_eq_some (fun u hu s hs => ih hu hs) (succ v) (hclosed v hv)
          { s with visited := v :: s.visited } (by simp only; omega)
        rw [hs₁, Option.map_some]
        refine ⟨_, rfl, fun x hx => ?_, fun x hx => ?_⟩
        · have := hadds.subset x (List.mem_cons_of_mem v hx)
          split <;> exact this
        · have hx : x ∈ s₁.visited := by split at hx <;> exact hx
          rcases hadds.known x hx with hx | hx
          · rcases List.mem_cons.mp hx with rfl | hx
            · exact .inr hv
            · exact .inl hx
          · exact .inr hx

/-- The recursion is no deeper than there are vertices, and visits no others. -/
theorem search_eq_some (hclosed : ∀ x ∈ vertices, ∀ y ∈ succ x, y ∈ vertices) (hroots : ∀ v ∈ roots, v ∈ vertices)
    (hfuel : vertices.card < fuel) :
    ∃ s, search succ listed fuel roots = some s ∧ ∀ x ∈ s.visited, x ∈ vertices := by
  obtain ⟨s, hs, hadds⟩ := foldlM_eq_some (fun u hu s hs => dfs_eq_some hclosed hu hs) roots hroots
    { visited := [], res := [] } ((Finset.card_filter_le _ _).trans_lt hfuel)
  exact ⟨s, hs, fun x hx => (hadds.known x hx).resolve_left List.not_mem_nil⟩

end Fuel

/-! ### The order -/

/-- `x` leads to `y`. -/
def Leads (succ : V → List V) : V → V → Prop := Relation.TransGen fun x y => y ∈ succ x

def Acyclic (succ : V → List V) : Prop := ∀ x, ¬Leads succ x x

/-- `fin` are the vertices that were left, in order: each after its successors. -/
structure Finished (succ : V → List V) (listed : V → Bool) (s : State V) (fin : List V) : Prop where
  nodup : fin.Nodup
  visited : ∀ x ∈ fin, x ∈ s.visited
  res : s.res = fin.filter listed
  order : ∀ x ∈ fin, ∀ y ∈ succ x, [y, x].Sublist fin

/-- What a visit of some roots does: it leaves all that it enters. -/
structure Leaves (succ : V → List V) (listed : V → Bool) (roots : List V) (s s' : State V)
    (fin fin' : List V) : Prop where
  finished : Finished succ listed s' fin'
  extends_ : fin <+: fin'
  roots : ∀ x ∈ roots, x ∈ fin'
  entered : ∀ x ∈ s'.visited, x ∈ s.visited ∨ x ∈ fin'
  subset : ∀ x ∈ s.visited, x ∈ s'.visited
  fresh : ∀ x ∈ fin', x ∈ fin ∨ x ∉ s.visited

/-- The vertices that are entered and not left lead to `v`. -/
def OpenLead (succ : V → List V) (s : State V) (fin : List V) (v : V) : Prop :=
  ∀ x ∈ s.visited, x ∉ fin → Leads succ x v

omit [DecidableEq V] in
theorem Leaves.cons {s₁ : State V} {fin₁ : List V} (h : Leaves succ listed [v] s s₁ fin fin₁)
    (h' : Leaves succ listed roots s₁ s' fin₁ fin') : Leaves succ listed (v :: roots) s s' fin fin' where
  finished := h'.finished
  extends_ := h.extends_.trans h'.extends_
  roots x hx := by
    rcases List.mem_cons.mp hx with rfl | hx
    · exact h'.extends_.subset (h.roots x List.mem_cons_self)
    · exact h'.roots x hx
  entered x hx := by
    rcases h'.entered x hx with hx | hx
    · exact (h.entered x hx).imp_right fun hx => h'.extends_.subset hx
    · exact .inr hx
  subset x hx := h'.subset x (h.subset x hx)
  fresh x hx := by
    rcases h'.fresh x hx with hx | hx
    · exact h.fresh x hx
    · exact .inr fun hmem => hx (h.subset x hmem)

omit [DecidableEq V] in
/-- A visit opens nothing, so that the open vertices still lead on. -/
theorem Leaves.openLead {s₁ : State V} {fin₁ : List V} {u : V} (h : Leaves succ listed [v] s s₁ fin fin₁)
    (hopen : OpenLead succ s fin u) : OpenLead succ s₁ fin₁ u := by
  intro x hx hnot
  refine hopen x ((h.entered x hx).resolve_right hnot) fun hmem => hnot (h.extends_.subset hmem)

omit [DecidableEq V] in
theorem foldlM_leaves {f : State V → V → Option (State V)}
    (hf : ∀ v s s' fin, Finished succ listed s fin → OpenLead succ s fin v → f s v = some s' →
      ∃ fin', Leaves succ listed [v] s s' fin fin')
    (roots : List V) (hfin : Finished succ listed s fin) (hopen : ∀ v ∈ roots, OpenLead succ s fin v)
    (h : roots.foldlM f s = some s') : ∃ fin', Leaves succ listed roots s s' fin fin' := by
  induction roots generalizing s fin with
  | nil =>
      obtain rfl := Option.some.inj h
      exact ⟨fin, hfin, List.prefix_refl fin, nofun, fun _ hx => .inl hx, fun _ hx => hx, fun _ hx => .inl hx⟩
  | cons v roots ih =>
      rw [List.foldlM_cons] at h
      obtain ⟨s₁, hs₁, h⟩ := Option.bind_eq_some_iff.mp h
      obtain ⟨fin₁, hleaves⟩ := hf v s s₁ fin hfin (hopen v List.mem_cons_self) hs₁
      have hopen₁ : ∀ u ∈ roots, OpenLead succ s₁ fin₁ u :=
        fun u hu => hleaves.openLead (hopen u (List.mem_cons_of_mem v hu))
      obtain ⟨fin', hrest⟩ := ih hleaves.finished hopen₁ h
      exact ⟨fin', hleaves.cons hrest⟩

/-- Without cycles no successor is open, so that all of them are left before `v` is. -/
theorem dfs_leaves (hacyclic : Acyclic succ) (hfin : Finished succ listed s fin) (hopen : OpenLead succ s fin v)
    (h : dfs succ listed fuel v s = some s') : ∃ fin', Leaves succ listed [v] s s' fin fin' := by
  induction fuel generalizing v s s' fin with
  | zero => cases h
  | succ fuel ih =>
      unfold dfs at h
      split at h
      · rename_i hvisited
        obtain rfl := Option.some.inj h
        have hleft : v ∈ fin := by
          by_contra hnot
          exact hacyclic v (hopen v hvisited hnot)
        refine ⟨fin, hfin, List.prefix_refl fin, ?_, fun _ hx => .inl hx, fun _ hx => hx, fun _ hx => .inl hx⟩
        simpa using hleft
      · rename_i hnot
        obtain ⟨s₁, hs₁, h⟩ := Option.map_eq_some_iff.mp h
        have hnotFin : v ∉ fin := fun hmem => hnot (hfin.visited v hmem)
        have hfin₀ : Finished succ listed { s with visited := v :: s.visited } fin :=
          { hfin with visited := fun x hx => List.mem_cons_of_mem v (hfin.visited x hx) }
        have hopen₀ : ∀ u ∈ succ v, OpenLead succ { s with visited := v :: s.visited } fin u := by
          intro u hu x hx hxfin
          rcases List.mem_cons.mp hx with rfl | hx
          · exact .single hu
          · exact (hopen x hx hxfin).tail hu
        obtain ⟨fin₁, hleaves⟩ := foldlM_leaves (fun u s s' fin hfin hopen hu => ih hfin hopen hu) (succ v) hfin₀
          hopen₀ hs₁
        have hnotFin₁ : v ∉ fin₁ := by
          intro hmem
          exact (hleaves.fresh v hmem).elim hnotFin fun hmem => hmem List.mem_cons_self
        have hvisited : s'.visited = s₁.visited := by
          rw [← h]
          split <;> rfl
        have hres : s'.res = (fin₁ ++ [v]).filter listed := by
          rw [← h, List.filter_append, ← hleaves.finished.res]
          by_cases hlisted : listed v = true <;> simp [hlisted]
        refine ⟨fin₁ ++ [v], ⟨?_, ?_, hres, ?_⟩, ?_, ?_, ?_, ?_, ?_⟩
        · exact List.nodup_append.mpr ⟨hleaves.finished.nodup, List.nodup_singleton v,
            fun x hx y hy heq => hnotFin₁ (by rw [List.mem_singleton.mp hy] at heq; exact heq ▸ hx)⟩
        · intro x hx
          rw [hvisited]
          rcases List.mem_append.mp hx with hx | hx
          · exact hleaves.finished.visited x hx
          · rw [List.mem_singleton.mp hx]
            exact hleaves.subset v List.mem_cons_self
        · intro x hx y hy
          rcases List.mem_append.mp hx with hx | hx
          · exact (hleaves.finished.order x hx y hy).trans (List.sublist_append_left fin₁ [v])
          · rw [List.mem_singleton.mp hx] at hy ⊢
            exact (List.singleton_sublist.mpr (hleaves.roots y hy)).append (List.Sublist.refl [v])
        · exact hleaves.extends_.trans (List.prefix_append fin₁ [v])
        · simp
        · intro x hx
          rw [hvisited] at hx
          rcases hleaves.entered x hx with hx | hx
          · rcases List.mem_cons.mp hx with rfl | hx
            · simp
            · exact .inl hx
          · simp [hx]
        · intro x hx
          rw [hvisited]
          exact hleaves.subset x (List.mem_cons_of_mem v hx)
        · intro x hx
          rcases List.mem_append.mp hx with hx | hx
          · exact (hleaves.fresh x hx).imp_right fun hnot hmem => hnot (List.mem_cons_of_mem v hmem)
          · rw [List.mem_singleton.mp hx]
            exact .inr hnot

/-- A search leaves its roots and all that it enters, each vertex after its successors. -/
theorem search_finished (hacyclic : Acyclic succ) (h : search succ listed fuel roots = some s) :
    ∃ fin, Finished succ listed s fin ∧ (∀ x ∈ roots, x ∈ fin) ∧ ∀ x ∈ fin, x ∈ s.visited := by
  have hstart : Finished succ listed ({ visited := [], res := [] } : State V) [] :=
    ⟨List.nodup_nil, nofun, rfl, nofun⟩
  obtain ⟨fin, hleaves⟩ := foldlM_leaves (fun u s s' fin hfin hopen hu => dfs_leaves hacyclic hfin hopen hu) roots
    hstart (fun v _ x hx => nomatch hx) h
  exact ⟨fin, hleaves.finished, hleaves.roots, hleaves.finished.visited⟩

omit [DecidableEq V] in
/-- In the reversed list a vertex comes before its successors. -/
theorem Finished.before (h : Finished succ listed s fin) {x y : V} (hx : x ∈ fin) (hy : y ∈ succ x)
    (hlx : listed x = true) (hly : listed y = true) : [x, y].Sublist s.res.reverse := by
  have hsub := (h.order x hx y hy).filter listed
  rw [List.filter_cons_of_pos hly, List.filter_cons_of_pos hlx, List.filter_nil, ← h.res] at hsub
  exact List.reverse_sublist.mpr hsub

end Postorder
end NnEngine
