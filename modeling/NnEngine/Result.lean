import Mathlib.Tactic

/-!
# Results

What it means that a computation in `Except` returns a value, for its sequences and for a map over a
list.
-/

namespace NnEngine

variable {ε α β : Type} {x : Except ε α} {b : β}

theorem bind_eq_ok {f : α → Except ε β} : x.bind f = .ok b ↔ ∃ a, x = .ok a ∧ f a = .ok b := by
  cases x <;> simp [Except.bind]

/-- The same for `do` blocks. -/
theorem do_eq_ok {f : α → Except ε β} : (x >>= f) = .ok b ↔ ∃ a, x = .ok a ∧ f a = .ok b := bind_eq_ok

theorem pure_eq_ok {a b : α} : (pure a : Except ε α) = .ok b ↔ a = b := by
  simp [pure, Except.pure]

theorem map_eq_ok {f : α → β} : x.map f = .ok b ↔ ∃ a, x = .ok a ∧ f a = b := by
  cases x <;> simp [Except.map]

theorem mapM_eq_ok {f : α → Except ε β} {l : List α} {ys : List β} :
    l.mapM f = .ok ys ↔ List.Forall₂ (fun x y => f x = .ok y) l ys := by
  induction l generalizing ys with
  | nil => rw [List.mapM_nil, pure_eq_ok, List.forall₂_nil_left_iff, eq_comm]
  | cons x l ih =>
      simp only [List.mapM_cons, do_eq_ok, pure_eq_ok, ih]
      constructor
      · rintro ⟨y, hy, ys', hys', rfl⟩
        exact .cons hy hys'
      · intro h
        cases h with
        | cons hy hys' => exact ⟨_, hy, _, hys', rfl⟩

/-- Every result is the result of an element. -/
theorem mapM_eq_ok_mem {f : α → Except ε β} {l : List α} {ys : List β} (h : l.mapM f = .ok ys) :
    ∀ y ∈ ys, ∃ x ∈ l, f x = .ok y := by
  have hall := mapM_eq_ok.mp h
  clear h
  induction hall with
  | nil => exact fun y hy => nomatch hy
  | @cons x y l ys hxy _ ih =>
      intro z hz
      cases hz with
      | head => exact ⟨x, List.mem_cons_self, hxy⟩
      | tail _ hz =>
          obtain ⟨w, hw, hwz⟩ := ih z hz
          exact ⟨w, List.mem_cons_of_mem x hw, hwz⟩

/-- Every element has a result. -/
theorem mapM_eq_ok_of_mem {f : α → Except ε β} {l : List α} {ys : List β} (h : l.mapM f = .ok ys) :
    ∀ x ∈ l, ∃ y ∈ ys, f x = .ok y := by
  have hall := mapM_eq_ok.mp h
  clear h
  induction hall with
  | nil => nofun
  | @cons _ y _ _ hxy _ ih =>
      intro x hx
      cases hx with
      | head => exact ⟨y, List.mem_cons_self, hxy⟩
      | tail _ hx =>
          obtain ⟨z, hz, hxz⟩ := ih x hx
          exact ⟨z, List.mem_cons_of_mem y hz, hxz⟩

/-- Mapping a function that always returns. -/
theorem mapM_ok {f : α → Except ε β} {g : α → β} {l : List α} (h : ∀ x ∈ l, f x = .ok (g x)) :
    l.mapM f = .ok (l.map g) := by
  rw [mapM_eq_ok, List.forall₂_map_right_iff, List.forall₂_same]
  exact h

/-- The same for a partial function. -/
theorem mapM_eq_some {f : α → Option β} {l : List α} {ys : List β} :
    l.mapM f = some ys ↔ List.Forall₂ (fun x y => f x = some y) l ys := by
  induction l generalizing ys with
  | nil =>
      rw [List.mapM_nil, List.forall₂_nil_left_iff, Option.pure_def, Option.some_inj, eq_comm]
  | cons x l ih =>
      rw [List.mapM_cons, Option.bind_eq_bind, Option.bind_eq_some_iff]
      constructor
      · rintro ⟨y, hy, h⟩
        obtain ⟨zs, hzs, h⟩ := Option.bind_eq_some_iff.mp h
        rw [← Option.some.inj h]
        exact .cons hy (ih.mp hzs)
      · intro h
        cases h with
        | cons hxy hrest => exact ⟨_, hxy, Option.bind_eq_some_iff.mpr ⟨_, ih.mpr hrest, rfl⟩⟩

theorem mapM_some {f : α → Option β} {g : α → β} {l : List α} (h : ∀ x ∈ l, f x = some (g x)) :
    l.mapM f = some (l.map g) := by
  rw [mapM_eq_some, List.forall₂_map_right_iff, List.forall₂_same]
  exact h

theorem mapM_eq_none {f : α → Option β} {l : List α} {x : α} (hx : x ∈ l) (h : f x = none) : l.mapM f = none := by
  rw [Option.eq_none_iff_forall_ne_some]
  intro ys hys
  have hall := mapM_eq_some.mp hys
  clear hys
  induction hall with
  | nil => exact nomatch hx
  | cons hxy _ ih =>
      obtain rfl | hx := List.mem_cons.mp hx
      · rw [h] at hxy
        exact nomatch hxy
      · exact ih hx

theorem exists_mapM_eq_some {f : α → Option β} {l : List α} (h : ∀ x ∈ l, ∃ y, f x = some y) :
    ∃ ys, l.mapM f = some ys := by
  induction l with
  | nil => exact ⟨[], rfl⟩
  | cons x l ih =>
      obtain ⟨y, hy⟩ := h x List.mem_cons_self
      obtain ⟨ys, hys⟩ := ih fun x' hx' => h x' (List.mem_cons_of_mem x hx')
      exact ⟨y :: ys, by rw [List.mapM_cons, hy, hys]; rfl⟩

theorem mem_of_mapM_eq_some {f : α → Option β} {l : List α} {ys : List β} (h : l.mapM f = some ys) :
    b ∈ ys ↔ ∃ x ∈ l, f x = some b := by
  have hall := mapM_eq_some.mp h
  clear h
  induction hall with
  | nil => simp
  | cons hxy _ ih =>
      rw [List.mem_cons, List.exists_mem_cons_iff, hxy, Option.some_inj, eq_comm]
      exact or_congr_right ih

/-! ### A map with a state -/

/-- A map over a list by a function that changes a state. -/
def mapState {σ : Type} (f : σ → α → Except ε (β × σ)) : σ → List α → Except ε (List β × σ)
  | s, [] => .ok ([], s)
  | s, a :: l => do
      let (b, s) ← f s a
      let (bs, s) ← mapState f s l
      pure (b :: bs, s)

/-- The values along a pure run. -/
def outputsOf {σ γ : Type} (g : σ → γ → β) (next : σ → γ → σ) : σ → List γ → List β
  | _, [] => []
  | s, x :: xs => g s x :: outputsOf g next (next s x) xs

/-- Where only a part that does not see the state can fail, that part is first. -/
theorem mapState_eq_map {σ γ : Type} {f : σ → α → Except ε (β × σ)} {p : α → Except ε γ} {g : σ → γ → β}
    {next : σ → γ → σ} (h : ∀ s a, f s a = (p a).map fun x => (g s x, next s x)) (s : σ) (l : List α) :
    mapState f s l = (l.mapM p).map fun xs => (outputsOf g next s xs, xs.foldl next s) := by
  induction l generalizing s with
  | nil => rfl
  | cons a l ih =>
      rw [mapState, List.mapM_cons, h]
      cases p a with
      | error e => rfl
      | ok x =>
          change (mapState f (next s x) l >>= _) = _
          rw [ih]
          cases l.mapM p with
          | error e => rfl
          | ok xs => rfl

/-- Values that no later step of the run changes can be read off its end, or later. -/
theorem outputsOf_eq_map {σ γ : Type} {g : σ → γ → β} {next : σ → γ → σ} {R : σ → σ → Prop}
    {G : σ → γ → β} (htrans : ∀ {s t u}, R s t → R t u → R s u) (hrefl : ∀ s, R s s)
    (hnext : ∀ s x, R s (next s x)) (hg : ∀ {s x t}, R (next s x) t → g s x = G t x) {s t : σ}
    {xs : List γ} (h : R (xs.foldl next s) t) : outputsOf g next s xs = xs.map (G t) := by
  have hfoldl : ∀ (xs : List γ) s, R s (xs.foldl next s) := by
    intro xs
    induction xs with
    | nil => exact hrefl
    | cons x xs ih => exact fun s => htrans (hnext s x) (ih (next s x))
  induction xs generalizing s with
  | nil => rfl
  | cons x xs ih => rw [outputsOf, List.map_cons, hg (htrans (hfoldl xs (next s x)) h), ih h]

/-- The same without values along the run. -/
theorem foldlM_eq_map {σ γ : Type} {f : σ → α → Except ε σ} {p : α → Except ε γ} {next : σ → γ → σ}
    (h : ∀ s a, f s a = (p a).map (next s)) (s : σ) (l : List α) :
    l.foldlM f s = (l.mapM p).map fun xs => xs.foldl next s := by
  induction l generalizing s with
  | nil => rfl
  | cons a l ih =>
      rw [List.foldlM_cons, List.mapM_cons, h]
      cases p a with
      | error e => rfl
      | ok x =>
          change l.foldlM f (next s x) = _
          rw [ih]
          cases l.mapM p with
          | error e => rfl
          | ok xs => rfl

/-! ### Runs -/

section Runs

variable {σ τ : Type} {f : σ → α → Except ε σ} {l : List α} {s t : σ}

/-- A run that returns has executed every step. -/
theorem foldlM_eq_ok_mem (h : l.foldlM f s = .ok t) : ∀ a ∈ l, ∃ s₁ s₂, f s₁ a = .ok s₂ := by
  induction l generalizing s with
  | nil => nofun
  | cons a l ih =>
      rw [List.foldlM_cons, do_eq_ok] at h
      obtain ⟨s₁, hs₁, hrest⟩ := h
      intro b hb
      cases hb with
      | head => exact ⟨s, s₁, hs₁⟩
      | tail _ hb => exact ih hrest b hb

/-- A run returns when no step can fail. -/
theorem foldlM_ok (h : ∀ a ∈ l, ∀ s, ∃ s', f s a = .ok s') (s : σ) : ∃ t, l.foldlM f s = .ok t := by
  induction l generalizing s with
  | nil => exact ⟨s, rfl⟩
  | cons a l ih =>
      obtain ⟨s₁, hs₁⟩ := h a List.mem_cons_self s
      obtain ⟨t, ht⟩ := ih (fun b hb => h b (List.mem_cons_of_mem a hb)) s₁
      exact ⟨t, by rw [List.foldlM_cons, do_eq_ok]; exact ⟨s₁, hs₁, ht⟩⟩

/-- A relation that every step keeps holds at the end of the run. -/
theorem foldlM_rel {g : τ → α → τ} {R : σ → τ → Prop}
    (hstep : ∀ a ∈ l, ∀ s s' x, R s x → f s a = .ok s' → R s' (g x a)) {x : τ} (hR : R s x)
    (h : l.foldlM f s = .ok t) : R t (l.foldl g x) := by
  induction l generalizing s x with
  | nil =>
      obtain rfl := pure_eq_ok.mp h
      exact hR
  | cons a l ih =>
      rw [List.foldlM_cons, do_eq_ok] at h
      obtain ⟨s₁, hs₁, hrest⟩ := h
      rw [List.foldl_cons]
      exact ih (fun b hb => hstep b (List.mem_cons_of_mem a hb))
        (hstep a List.mem_cons_self s s₁ x hR hs₁) hrest

end Runs

end NnEngine
