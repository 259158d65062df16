import NnEngine.Schedule.Scheduler.Reachable

/-!
# Sharing of places

A value occupies the chunk it is placed in and the chunks of its copies.  `Exclusive` says that no
two values that are still to be read occupy one chunk.  The binding loops keep it as long as an
in-place update is the last reader of its cache, which `LastUse` says.
-/

namespace NnEngine
namespace SchedState

variable {env : SchedEnv} {st st' : SchedState} {ns stream : Nat} {slots : List Nat}
  {pend leak : Nat → Nat} {held : Option Nat} {tier : MemoryTier} {v w : ValueId} {c : Nat}

/-- The value or a copy of it is placed in the chunk. -/
def Occupies (st : SchedState) (v : ValueId) (c : ChunkId) : Prop :=
  st.value2place v = some (.chunk c) ∨ ∃ t r, st.valueOnTier v t = some r ∧ r.place = .chunk c

/-- No two values of the slots occupy one chunk. -/
def Exclusive (st : SchedState) (slots : List Nat) : Prop :=
  ∀ v ∈ slots, ∀ w ∈ slots, ∀ c, st.Occupies v c → st.Occupies w c → v = w

theorem Exclusive.mono {slots' : List Nat} (h : st.Exclusive slots)
    (hsub : ∀ v ∈ slots', v ∈ slots) : st.Exclusive slots' :=
  fun v hv w hw c hvc hwc => h v (hsub v hv) w (hsub w hw) c hvc hwc

/-- A chunk without live uses is occupied by nothing that is still to be read. -/
theorem Ledger.not_occupied (h : Ledger ns slots pend leak held st)
    (hzero : st.allocator.liveUses c = 0) (hv : v ∈ slots) : ¬ st.Occupies v c := by
  rintro (hplace | ⟨t, r, hr, hplace⟩)
  · exact h.not_placed hzero hv hplace
  · exact h.not_copied hzero hr hplace

/-- One value that moves into a chunk nobody occupies. -/
theorem Exclusive.enter (h : st.Exclusive slots)
    (hfree : ∀ u ∈ slots, u ≠ v → ¬ st.Occupies u c)
    (hocc : ∀ u d, st'.Occupies u d → st.Occupies u d ∨ u = v ∧ d = c) : st'.Exclusive slots := by
  intro x hx y hy d hxd hyd
  rcases hocc x d hxd with hx' | ⟨hxv, hdc⟩
  · rcases hocc y d hyd with hy' | ⟨hyv, hdc⟩
    · exact h x hx y hy d hx' hy'
    · subst hyv hdc
      by_contra hne
      exact hfree x hx hne hx'
  · rcases hocc y d hyd with hy' | ⟨hyv, -⟩
    · subst hxv hdc
      by_contra hne
      exact hfree y hy (Ne.symm hne) hy'
    · exact hxv.trans hyv.symm

/-- One value that is given a place: nobody else occupies it if it is a chunk. -/
theorem Exclusive.place (h : st.Exclusive slots) (p : AllocPlace) (a : ChunkAllocator)
    (hfree : ∀ c, p = .chunk c → ∀ u ∈ slots, u ≠ v → ¬ st.Occupies u c) :
    Exclusive
      { st with
        allocator := a
        value2place := Function.update st.value2place v (some p) } slots := by
  have hocc : ∀ u d, Occupies
      { st with
        allocator := a
        value2place := Function.update st.value2place v (some p) } u d →
      st.Occupies u d ∨ u = v ∧ p = .chunk d := by
    rintro u d (hplace | hcopy)
    · by_cases huv : u = v
      · subst huv
        have hp : some p = some (.chunk d) := by simpa using hplace
        exact Or.inr ⟨rfl, Option.some.inj hp⟩
      · have hold : st.value2place u = some (.chunk d) := by
          simpa [Function.update_of_ne huv] using hplace
        exact Or.inl (Or.inl hold)
    · exact Or.inl (Or.inr hcopy)
  intro x hx y hy d hxd hyd
  rcases hocc x d hxd with hx' | ⟨hxv, hd⟩
  · rcases hocc y d hyd with hy' | ⟨hyv, hd⟩
    · exact h x hx y hy d hx' hy'
    · by_contra hne
      exact hfree d hd x hx (fun hxv => hne (hxv.trans hyv.symm)) hx'
  · rcases hocc y d hyd with hy' | ⟨hyv, -⟩
    · by_contra hne
      exact hfree d hd y hy (fun hyv => hne (hxv.trans hyv.symm)) hy'
    · exact hxv.trans hyv.symm

/-- One turn of the input loop. -/
theorem InputCase.exclusive {b : ValueBinding} (hled : Ledger ns slots pend leak held st)
    (h : InputCase env tier stream st v st' b) (hex : st.Exclusive slots) :
    st'.Exclusive slots := by
  cases h with
  | initializer => exact hex
  | direct => exact hex
  | cached => exact hex
  | workspace c a first hscratch hzero =>
      refine hex.place (.chunk c) a ?_
      intro d hd u hu _
      obtain rfl : c = d := by simpa using hd
      exact hled.not_occupied hzero hu
  | copied p c a first srcFirst dstFirst hinit hdef hplace hcopy hr hzero =>
      refine hex.enter (v := v) (c := c) (fun u hu _ => hled.not_occupied hzero hu) ?_
      rintro u d (hud | ⟨t, r, hr', hrp⟩)
      · exact Or.inl (Or.inl hud)
      · by_cases hu : u = v
        · subst hu
          by_cases ht : t = tier
          · subst ht
            simp only [Function.update_self, Option.some.injEq] at hr'
            subst hr'
            exact Or.inr ⟨rfl, by simpa using hrp.symm⟩
          · simp only [Function.update_self, Function.update_of_ne ht] at hr'
            exact Or.inl (Or.inr ⟨t, r, hr', hrp⟩)
        · simp only [Function.update_of_ne hu] at hr'
          exact Or.inl (Or.inr ⟨t, r, hr', hrp⟩)

/-- A value located in a chunk occupies it. -/
theorem Located.occupies (h : st.Located tier v (.chunk c)) : st.Occupies v c :=
  h.imp id fun ⟨r, hr, hp⟩ => ⟨tier, r, hr, hp⟩

/-! ### The place that a kernel takes over -/

/-- The input whose buffer the kernel takes over for its output: that of an `Identity` or
`Reinterpret` kernel, or the cache of an update. -/
def InPlaceInput (S : Schedule) (kid : KernelId) (x : ValueId) : Prop :=
  ((S.kernel kid).isForward = true ∧ (S.kernel kid).inputs.head? = some (some x)) ∨
    ∃ idx, S.mustInPlaceInput kid = some idx ∧ (S.kernel kid).inputs.getD idx none = some x

/-- An update of a cache is the last reader of the cache. -/
def LastUse (env : SchedEnv) (st : SchedState) (kid : KernelId) : Prop :=
  ∀ idx x, env.schedule.mustInPlaceInput kid = some idx →
    (env.schedule.kernel kid).inputs.getD idx none = some x → st.valueRemainingUses x = 1

end SchedState

namespace MemoryAware

open SchedState

variable {env : SchedEnv} {st : SchedState} {kid stream : Nat} {v w : ValueId} {leak : Nat → Nat}

/-- The slots that are left are those of the other kernels that are left. -/
theorem mem_laterSlots : w ∈ laterSlots env st kid stream ↔
    ∃ j ∈ env.schedule.kernelIds, ¬ st.Scheduled j ∧ j ≠ kid ∧
      w ∈ (env.schedule.kernel j).presentInputs := by
  rw [laterSlots, mem_slots]
  refine exists_congr fun j => and_congr_right fun _ => ?_
  have hsched : (entered env st kid stream).Scheduled j ↔ st.Scheduled j ∨ j = kid :=
    scheduled_append entered_kernelInfo
  rw [hsched]
  tauto

/-- A kernel's own outputs are not read by kernels that are scheduled. -/
theorem not_mem_presentInputs (hS : env.schedule.WellFormed) (hk : kid ∈ env.schedule.kernelIds)
    {o : ValueId} (ho : o ∈ (env.schedule.kernel kid).outputs) :
    o ∉ (env.schedule.kernel kid).presentInputs :=
  fun hin => Nat.lt_irrefl _ (hS.ordered kid hk o hin kid hk ho)

/-- A value whose one remaining use is the kernel's has no later slot. -/
theorem not_mem_laterSlots (hv : v ∈ (env.schedule.kernel kid).presentInputs)
    (hone : ((env.schedule.kernel kid).presentInputs ++ laterSlots env st kid stream).count v = 1) :
    v ∉ laterSlots env st kid stream := by
  intro hlater
  rw [List.count_append] at hone
  have h₁ : 0 < (env.schedule.kernel kid).presentInputs.count v := List.count_pos_iff.mpr hv
  have h₂ : 0 < (laterSlots env st kid stream).count v := List.count_pos_iff.mpr hlater
  omega

/-- The input whose chunk is taken over is not read again. -/
theorem inPlace_last {st₁ : SchedState} {ins : List ValueBinding}
    (hS : env.schedule.WellFormed) (hk : kid ∈ env.schedule.kernelIds)
    (huses : ∀ v, st₁.valueRemainingUses v =
      ((env.schedule.kernel kid).presentInputs ++ laterSlots env st kid stream).count v)
    (hb : InputsBound env (env.placement kid).tier stream (entered env st kid stream)
      (env.schedule.kernel kid).presentInputs st₁ ins) (hlast : LastUse env st kid) {c : Nat}
    (h : InPlaceSource env kid st₁ ins (some (.chunk c))) :
    ∃ x ∈ (env.schedule.kernel kid).presentInputs, x ∉ laterSlots env st kid stream ∧
      st₁.Occupies x c := by
  obtain ⟨-, b, -, -, -, hmem, -, hloc⟩ := h.binding hS hk hb
  have hocc := hloc.occupies
  generalize hp : AllocPlace.chunk c = p at h hloc
  cases h with
  | forward x y b' hfwd hin hout hb' hx hone =>
      have hx' : x ∈ (env.schedule.kernel kid).presentInputs := by
        simp [Kernel.presentInputs, hin]
      have hloc' := hb.located b' hb' (by
        rw [hb.role b' hb', hx, hS.copied_defined kid hk (Or.inl hfwd) x hx']
        rfl)
      rw [← hp, hx] at hloc'
      exact ⟨x, hx', not_mem_laterSlots hx' ((huses x).symm.trans (hone c hp.symm)), hloc'.occupies⟩
  | update idx x b' hidx hin hb' hx =>
      have hx' : x ∈ (env.schedule.kernel kid).presentInputs := by
        rw [← hx, ← hb.values]
        exact List.mem_map_of_mem hb'
      have hloc' := hb.located b' hb' (by
        rw [hb.role b' hb', hx, hS.cache_defined kid hk idx hidx x hin]
        rfl)
      rw [← hp, hx] at hloc'
      have hone : st₁.valueRemainingUses x = 1 := by
        rw [hb.uses]
        exact hlast idx x hidx hin
      exact ⟨x, hx', not_mem_laterSlots hx' ((huses x).symm.trans hone), hloc'.occupies⟩

/-- Before the first output is bound, nothing has moved since the inputs were bound. -/
theorem output_inPlace_last {ns : Nat} {st₁ st₂ : SchedState} {ins bs : List ValueBinding}
    {posts : List PostTransfer} {inPlace : Option AllocPlace} {c : Nat}
    (hS : env.schedule.WellFormed) (hk : kid ∈ env.schedule.kernelIds)
    (hl₂ : Ledger ns ((env.schedule.kernel kid).presentInputs ++ laterSlots env st kid stream)
      (pendOf posts) leak none st₂)
    (hb : InputsBound env (env.placement kid).tier stream (entered env st kid stream)
      (env.schedule.kernel kid).presentInputs st₁ ins) (hlast : LastUse env st kid)
    (hbound : OutputsBound env (env.placement kid).tier stream inPlace st₁ ins [] st₂ bs posts)
    (hsource : InPlaceSource env kid st₁ ins (some (.chunk c))) :
    ∃ x ∈ (env.schedule.kernel kid).presentInputs, x ∉ laterSlots env st kid stream ∧
      st₂.Occupies x c := by
  obtain ⟨x, hx, hxlater, hxocc⟩ := inPlace_last hS hk
    (fun v => by rw [← hbound.uses]; exact hl₂.uses v) hb hlast hsource
  refine ⟨x, hx, hxlater, hxocc.imp (fun h => ?_) (fun ⟨t, r, hr, hp⟩ => ⟨t, r, ?_, hp⟩)⟩
  · rw [hbound.frame x (by simp)]
    exact h
  · rw [hbound.copies]
    exact hr

/-- One turn of the output loop. -/
theorem output_exclusive {ns : Nat} {st₁ st₂ : SchedState} {ins bs : List ValueBinding}
    {posts : List PostTransfer} {inPlace : Option AllocPlace} {done : List Nat} {o : ValueId}
    {p : AllocPlace} {a : ChunkAllocator}
    (hS : env.schedule.WellFormed) (hk : kid ∈ env.schedule.kernelIds)
    (hb : InputsBound env (env.placement kid).tier stream (entered env st kid stream)
      (env.schedule.kernel kid).presentInputs st₁ ins)
    (hsource : InPlaceSource env kid st₁ ins inPlace) (hlast : LastUse env st kid)
    (hpre : done ++ [o] <+: (env.schedule.kernel kid).outputs)
    (hbound : OutputsBound env (env.placement kid).tier stream inPlace st₁ ins done st₂ bs posts)
    (hl₂ : Ledger ns ((env.schedule.kernel kid).presentInputs ++ laterSlots env st kid stream)
      (pendOf posts) leak none st₂)
    (hcase : OutputCase env (env.placement kid).tier stream inPlace st₂ o p a)
    (hstart : done = [] →
      st₂.Exclusive ((env.schedule.kernel kid).presentInputs ++ laterSlots env st kid stream))
    (hex : st₂.Exclusive (laterSlots env st kid stream)) :
    Exclusive
      { st₂ with
        allocator := a
        value2place := Function.update st₂.value2place o (some p) }
      (laterSlots env st kid stream) := by
  cases hcase with
  | aliased t => exact hex.place (.output t) st₂.allocator (by simp)
  | fresh c _ hin hno hzero =>
      refine hex.place (.chunk c) a ?_
      intro d hd u hu _
      obtain rfl : c = d := by simpa using hd
      exact hl₂.not_occupied hzero (List.mem_append_right _ hu)
  | inPlace _ _ hin =>
      refine hex.place p a ?_
      rintro c rfl u hu - hocc
      subst hin
      -- the kernel has one output, so that nothing is bound yet
      have hlen := hpre.length_le
      rw [(hsource.binding hS hk hb).1, List.length_append, List.length_singleton] at hlen
      obtain rfl : done = [] := List.eq_nil_of_length_eq_zero (by omega)
      obtain ⟨x, hx, hxlater, hxocc⟩ := output_inPlace_last hS hk hl₂ hb hlast hbound hsource
      have hux := hstart rfl u (List.mem_append_right _ hu) x (List.mem_append_left _ hx) c hocc hxocc
      exact hxlater (hux ▸ hu)

end MemoryAware
end NnEngine
