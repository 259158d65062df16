import NnEngine.Schedule.Exec
import NnEngine.Schedule.Scheduler.Bind
import NnEngine.Schedule.Scheduler.MemoryAware

/-!
# Runs of the memory-aware scheduler

`Planned` is what holds of the scheduler's maps between two kernels, and `emitKernel_induct` takes
one kernel apart: it never panics, and an invariant of the two binding loops is carried from the
state before the kernel to the state after it.  `Reachable` is the set of states of the scheduler's
loop.
-/

namespace NnEngine

namespace SchedState

variable {env : SchedEnv} {st : SchedState} {kid : Nat} {v : ValueId}

/-- The kernel has been scheduled. -/
def Scheduled (st : SchedState) (kid : Nat) : Prop := kid ∈ st.kernelInfo.map Prod.fst

instance (st : SchedState) (kid : Nat) : Decidable (st.Scheduled kid) :=
  inferInstanceAs (Decidable (kid ∈ st.kernelInfo.map Prod.fst))

theorem info?_mem {i : KernelInfo} (h : st.info? kid = some i) : (kid, i) ∈ st.kernelInfo := by
  obtain ⟨l₁, l₂, heq, -⟩ := List.lookup_eq_some_iff.mp h
  rw [heq]
  simp

theorem info?_isSome : (st.info? kid).isSome = true ↔ st.Scheduled kid := by
  unfold SchedState.info? Scheduled
  rw [List.lookup_isSome_iff]
  constructor
  · rintro ⟨q, hq, hk⟩
    have hkid : kid = q.1 := by simpa using hk
    rw [hkid]
    exact List.mem_map_of_mem hq
  · intro h
    obtain ⟨q, hq, rfl⟩ := List.mem_map.mp h
    exact ⟨q, hq, by simp⟩

theorem Scheduled.info? (h : st.Scheduled kid) : ∃ i, st.info? kid = some i :=
  Option.isSome_iff_exists.mp (info?_isSome.mpr h)

/-- The kernels that are left. -/
def unscheduled (S : Schedule) (st : SchedState) : List Nat :=
  S.kernelIds.filter fun kid => ¬ st.Scheduled kid

/-- The input slots that are left. -/
def slots (S : Schedule) (st : SchedState) : List Nat :=
  (st.unscheduled S).flatMap fun kid => (S.kernel kid).presentInputs

theorem mem_unscheduled {S : Schedule} :
    kid ∈ st.unscheduled S ↔ kid ∈ S.kernelIds ∧ ¬ st.Scheduled kid := by
  simp [unscheduled]

theorem mem_slots {S : Schedule} : v ∈ st.slots S ↔
    ∃ kid ∈ S.kernelIds, ¬ st.Scheduled kid ∧ v ∈ (S.kernel kid).presentInputs := by
  simp [slots, mem_unscheduled, and_assoc]

/-- What holds of the scheduler's maps between two kernels. -/
structure Planned (env : SchedEnv) (st : SchedState) : Prop where
  known : ∀ kid i, (kid, i) ∈ st.kernelInfo → kid ∈ env.schedule.kernelIds ∧
    i.stream < env.numStreams ∧ i.device = env.placement kid
  nodup : (st.kernelInfo.map Prod.fst).Nodup
  closed : ∀ kid, st.Scheduled kid → ∀ pred ∈ env.schedule.kernelPreds kid, st.Scheduled pred
  source : ∀ v p, env.schedule.sourcePlace v = some p → st.value2place v = some p
  produced : ∀ kid ∈ env.schedule.kernelIds, ∀ v ∈ (env.schedule.kernel kid).outputs,
    ((st.value2place v).isSome = true ↔ st.Scheduled kid)
  scratch : ∀ v, env.schedule.isScratch v = true → st.value2place v ≠ none →
    ∃ kid, st.Scheduled kid ∧ v ∈ (env.schedule.kernel kid).presentInputs
  load : st.streamLoad.length = env.numStreams

theorem scheduled_append {st' : SchedState} {j : Nat} {i : KernelInfo}
    (hinfo : st'.kernelInfo = st.kernelInfo ++ [(j, i)]) :
    st'.Scheduled kid ↔ st.Scheduled kid ∨ kid = j := by
  simp [Scheduled, hinfo]

/-- Scheduling a kernel takes its input slots off the list. -/
theorem slots_perm {S : Schedule} {st' : SchedState} (hk : kid ∈ S.kernelIds)
    (hun : ¬ st.Scheduled kid) {i : KernelInfo}
    (hinfo : st'.kernelInfo = st.kernelInfo ++ [(kid, i)]) :
    (st.slots S).Perm ((S.kernel kid).presentInputs ++ st'.slots S) := by
  have hnd : (st.unscheduled S).Nodup := List.Nodup.filter _ List.nodup_range
  have hmem : kid ∈ st.unscheduled S := mem_unscheduled.mpr ⟨hk, hun⟩
  have hrest : (st.unscheduled S).erase kid = st'.unscheduled S := by
    rw [hnd.erase_eq_filter, unscheduled, unscheduled, List.filter_filter]
    apply List.filter_congr
    intro j _
    have hj := @scheduled_append st j st' kid i hinfo
    by_cases hjk : j = kid
    · subst hjk
      simp [hj]
    · simp [hj, hjk]
  have hperm := (List.perm_cons_erase hmem).flatMap_right fun j => (S.kernel j).presentInputs
  rw [hrest] at hperm
  simpa [slots] using hperm

/-! ### The binding loops of one kernel -/

/-- Where a value can be read on a tier: at its own place or at its copy. -/
def Located (st : SchedState) (tier : MemoryTier) (v : ValueId) (p : AllocPlace) : Prop :=
  st.value2place v = some p ∨ ∃ r, st.valueOnTier v tier = some r ∧ r.place = p

/-- What the input loop has done once it has bound `done`. -/
structure InputsBound (env : SchedEnv) (tier : MemoryTier) (stream : Nat) (st₀ : SchedState)
    (done : List Nat) (st : SchedState) (bs : List ValueBinding) : Prop where
  info : st.kernelInfo = st₀.kernelInfo
  load : st.streamLoad = st₀.streamLoad
  uses : st.valueRemainingUses = st₀.valueRemainingUses
  values : bs.map ValueBinding.value = done
  role : ∀ b ∈ bs, b.role = if env.schedule.isScratch b.value then .workspace else .input
  workspace : ∀ b ∈ bs, b.role = .workspace → ∃ c, b.place = .chunk c
  located : ∀ b ∈ bs, b.role = .input → st.Located tier b.value b.place
  direct : ∀ b ∈ bs, b.role = .input → ∀ p, (∀ c, p ≠ .chunk c) → (b.place = p ↔
    st₀.value2place b.value = some p ∧ ¬ NeedsCopy env st₀ tier b.value p)
  frame : ∀ w, env.schedule.isScratch w = false ∨ w ∉ done → st.value2place w = st₀.value2place w
  evolves : st₀.allocator.Evolves stream (fun _ => False) st.allocator
  copies : ∀ w t r, st₀.valueOnTier w t = some r → st.valueOnTier w t = some r
  steps : ∃ l, st.steps = st₀.steps ++ l ∧ ∀ s ∈ l, s.stream = stream ∧
    ((∃ w, s = .syncWait w) ∨ ∃ v c, s.IsCopy v (.chunk c))

variable {tier : MemoryTier} {stream : Nat} {slots : List Nat} {pend leak : Nat → Nat}

/-- A value with its own place or its copy in a chunk keeps the chunk alive. -/
theorem Located.live {ns : Nat} {held : Option Nat} {c : Nat}
    (h : st.Located tier v (.chunk c)) (hled : Ledger ns slots pend leak held st)
    (hv : v ∈ slots) : 0 < st.allocator.liveUses c := by
  rcases h with h | ⟨r, hr, hp⟩
  · exact hled.live_of_slot hv h
  · exact hled.live_of_copy hr hp

/-- Copies are kept. -/
theorem InputCase.valueOnTier {st' : SchedState} {b : ValueBinding} {w : ValueId}
    {t : MemoryTier} {r : TransferRecord} (h : InputCase env tier stream st v st' b)
    (hr : st.valueOnTier w t = some r) : st'.valueOnTier w t = some r := by
  cases h with
  | copied p c a first srcFirst dstFirst hinit hdef hplace hcopy hnone =>
      show Function.update st.valueOnTier v _ w t = some r
      by_cases hw : w = v
      · subst hw
        rw [Function.update_self]
        by_cases ht : t = tier
        · subst ht
          rw [hr] at hnone
          cases hnone
        · rw [Function.update_of_ne ht]
          exact hr
      · rw [Function.update_of_ne hw]
        exact hr
  | initializer => exact hr
  | workspace => exact hr
  | direct => exact hr
  | cached => exact hr

theorem InputCase.evolves {st' : SchedState} {b : ValueBinding}
    (h : InputCase env tier stream st v st' b) :
    st.allocator.Evolves stream (fun _ => False) st'.allocator := by
  cases h with
  | initializer => exact .refl _ _
  | workspace _ _ _ _ _ _ hev => exact hev
  | direct _ _ _ _ _ _ _ hev => exact hev
  | cached _ _ _ _ _ _ _ _ _ _ hev => exact hev
  | copied _ _ _ _ _ _ _ _ _ _ _ _ _ hev => exact hev

theorem InputCase.value {st' : SchedState} {b : ValueBinding}
    (h : InputCase env tier stream st v st' b) : b.value = v := by
  cases h <;> rfl

theorem InputCase.role {st' : SchedState} {b : ValueBinding}
    (h : InputCase env tier stream st v st' b) :
    b.role = if env.schedule.isScratch v then .workspace else .input := by
  cases h with
  | initializer hinit => simp [Schedule.isScratch, hinit]
  | workspace _ _ _ hscratch => simp [hscratch]
  | direct _ _ _ _ hdef => simp [hdef]
  | cached _ _ _ _ _ hdef => simp [hdef]
  | copied _ _ _ _ _ _ _ hdef => simp [hdef]

/-- The binding's place is where the value is located on the tier. -/
theorem InputCase.located {st' : SchedState} {b : ValueBinding}
    (h : InputCase env tier stream st v st' b)
    (hinit : v ∈ env.schedule.initializers → st.value2place v = some (.initializer v))
    (hrole : b.role = .input) : st'.Located tier v b.place := by
  cases h with
  | initializer hmem => exact Or.inl (hinit hmem)
  | workspace => cases hrole
  | direct p a first _ _ hplace => exact Or.inl hplace
  | cached p r _ _ _ _ _ _ hr => exact Or.inr ⟨r, hr, rfl⟩
  | copied p c => exact Or.inr ⟨⟨.chunk c, st.nextEventId, stream⟩, by simp, rfl⟩

/-- Outside the chunks, whether a value has to be copied does not depend on the allocator. -/
theorem needsCopy_congr {st' : SchedState} {t : MemoryTier} {p : AllocPlace}
    (hp : ∀ c, p ≠ .chunk c) : NeedsCopy env st t v p ↔ NeedsCopy env st' t v p := by
  cases p with
  | chunk c => exact absurd rfl (hp c)
  | sessionState _ => rfl
  | initializer _ => rfl
  | input _ => rfl
  | output _ => rfl

/-- A place outside the chunks is bound directly: it is the value's own, and needs no copy. -/
theorem InputCase.direct_iff {st' : SchedState} {b : ValueBinding} {p : AllocPlace}
    (h : InputCase env tier stream st v st' b)
    (hinit : v ∈ env.schedule.initializers → st.value2place v = some (.initializer v))
    (hrole : b.role = .input) (hp : ∀ c, p ≠ .chunk c) :
    b.place = p ↔ st.value2place v = some p ∧ ¬ NeedsCopy env st tier v p := by
  cases h with
  | initializer hmem =>
      rw [hinit hmem]
      constructor
      · rintro rfl
        exact ⟨rfl, by simp [NeedsCopy, needsTransfer]⟩
      · rintro ⟨hplace, -⟩
        simpa using hplace
  | workspace => cases hrole
  | direct q a first _ _ hplace hno =>
      rw [hplace]
      constructor
      · rintro rfl
        exact ⟨rfl, hno⟩
      · rintro ⟨hq, -⟩
        simpa using hq
  | cached q r a first _ _ hplace hcopy _ hchunk =>
      obtain ⟨c, hc⟩ := hchunk
      rw [hplace]
      constructor
      · intro hrp
        exact absurd (hrp.symm.trans hc) (hp c)
      · rintro ⟨hq, hno⟩
        obtain rfl : q = p := by simpa using hq
        exact absurd hcopy hno
  | copied q c a first srcFirst dstFirst _ _ hplace hcopy =>
      rw [hplace]
      constructor
      · intro hcp
        exact absurd hcp.symm (hp c)
      · rintro ⟨hq, hno⟩
        obtain rfl : q = p := by simpa using hq
        exact absurd hcopy hno

/-- A turn of the input loop emits a wait, or a copy, or nothing. -/
theorem InputCase.steps {st' : SchedState} {b : ValueBinding}
    (h : InputCase env tier stream st v st' b) : ∃ l, st'.steps = st.steps ++ l ∧
      ∀ s ∈ l, s.stream = stream ∧ ((∃ w, s = .syncWait w) ∨ ∃ v c, s.IsCopy v (.chunk c)) := by
  cases h with
  | initializer => exact ⟨[], by simp, by simp⟩
  | workspace => exact ⟨[], by simp, by simp⟩
  | direct => exact ⟨[], by simp, by simp⟩
  | cached p r =>
      refine ⟨copyWait tier stream r, rfl, fun s hs => ?_⟩
      unfold copyWait at hs
      split at hs
      · rw [List.mem_singleton.mp hs]
        exact ⟨rfl, Or.inl ⟨_, rfl⟩⟩
      · cases hs
  | copied p c =>
      refine ⟨_, rfl, fun s hs => ?_⟩
      rw [List.mem_singleton.mp hs]
      exact ⟨rfl, Or.inr ⟨v, c, _, rfl, rfl, rfl, rfl⟩⟩

theorem Located.step {st' : SchedState} {b : ValueBinding} {w : ValueId} {p : AllocPlace}
    (hl : st.Located tier w p) (h : InputCase env tier stream st v st' b)
    (hw : env.schedule.isScratch w = false) : st'.Located tier w p := by
  rcases hl with hl | ⟨r, hr, hp⟩
  · left
    rw [h.value2place ?_]
    · exact hl
    · by_cases hwv : w = v
      · exact Or.inr (hwv ▸ hw)
      · exact Or.inl hwv
  · exact Or.inr ⟨r, h.valueOnTier hr, hp⟩

theorem InputsBound.step {st₀ st' : SchedState} {done : List Nat} {bs : List ValueBinding}
    {b : ValueBinding} (hb : InputsBound env tier stream st₀ done st bs)
    (hinit : v ∈ env.schedule.initializers → st₀.value2place v = some (.initializer v))
    (h : InputCase env tier stream st v st' b) :
    InputsBound env tier stream st₀ (done ++ [v]) st' (bs ++ [b]) where
  info := by rw [← hb.info]; cases h <;> rfl
  load := by rw [← hb.load]; cases h <;> rfl
  uses := by rw [← hb.uses]; cases h <;> rfl
  values := by simp [hb.values, h.value]
  role := by
    intro x hx
    rcases List.mem_append.mp hx with hx | hx
    · exact hb.role x hx
    · rw [List.mem_singleton.mp hx, h.value]
      exact h.role
  workspace := by
    intro x hx hrole
    rcases List.mem_append.mp hx with hx | hx
    · exact hb.workspace x hx hrole
    · rw [List.mem_singleton.mp hx] at hrole ⊢
      cases h with
      | workspace c => exact ⟨c, rfl⟩
      | initializer => cases hrole
      | direct => cases hrole
      | cached => cases hrole
      | copied => cases hrole
  located := by
    intro x hx hrole
    rcases List.mem_append.mp hx with hx | hx
    · have hscr := hb.role x hx
      have hdef : env.schedule.isScratch x.value = false := by
        rw [hrole] at hscr
        cases hs : env.schedule.isScratch x.value with
        | false => rfl
        | true => simp [hs] at hscr
      exact (hb.located x hx hrole).step h hdef
    · rw [List.mem_singleton.mp hx] at hrole ⊢
      rw [h.value]
      refine h.located (fun hmem => ?_) hrole
      rw [hb.frame v (Or.inl (by simp [Schedule.isScratch, hmem]))]
      exact hinit hmem
  direct := by
    intro x hx hrole p hp
    rcases List.mem_append.mp hx with hx | hx
    · exact hb.direct x hx hrole p hp
    · rw [List.mem_singleton.mp hx] at hrole ⊢
      have hdef : env.schedule.isScratch v = false := by
        have hscr := h.role
        rw [hrole] at hscr
        cases hs : env.schedule.isScratch v with
        | false => rfl
        | true => simp [hs] at hscr
      have hframe := hb.frame v (Or.inl hdef)
      rw [h.value, h.direct_iff (fun hmem => hframe.trans (hinit hmem)) hrole hp, hframe]
      exact and_congr_right fun _ => not_congr (needsCopy_congr hp)
  frame := by
    intro w hw
    have hw' : env.schedule.isScratch w = false ∨ w ∉ done := by
      rcases hw with hw | hw
      · exact Or.inl hw
      · exact Or.inr fun hmem => hw (List.mem_append_left _ hmem)
    rw [← hb.frame w hw']
    apply h.value2place
    rcases hw with hw | hw
    · by_cases hwv : w = v
      · exact Or.inr (hwv ▸ hw)
      · exact Or.inl hwv
    · exact Or.inl fun hwv => hw (by simp [hwv])
  evolves := hb.evolves.trans h.evolves
  copies := fun w t r hr => h.valueOnTier (hb.copies w t r hr)
  steps := by
    obtain ⟨l, hl, hmem⟩ := hb.steps
    obtain ⟨l', hl', hmem'⟩ := h.steps
    refine ⟨l ++ l', by rw [hl', hl, List.append_assoc], fun s hs => ?_⟩
    exact (List.mem_append.mp hs).elim (hmem s) (hmem' s)

/-- While the inputs are bound, whether a value has to be copied does not change. -/
theorem InputsBound.needsCopy_iff {st₀ : SchedState} {done : List Nat} {bs : List ValueBinding}
    {ns : Nat} {held : Option Nat} {t : MemoryTier} {p : AllocPlace}
    (hb : InputsBound env tier stream st₀ done st bs) (hinv : st₀.allocator.Inv ns held)
    (hp : ∀ c, p = .chunk c → c < st₀.allocator.allChunks.length) :
    NeedsCopy env st t v p ↔ NeedsCopy env st₀ t v p := by
  cases p with
  | chunk c =>
      have htier := hb.evolves.chunkTier hinv (hp c rfl)
      simp only [NeedsCopy, needsTransfer, htier]
  | sessionState _ => rfl
  | initializer _ => rfl
  | input _ => rfl
  | output _ => rfl

/-- While the inputs are bound, whether a value is copied does not change. -/
theorem InputsBound.copies_iff {st₀ : SchedState} {done : List Nat} {bs : List ValueBinding}
    {held : Option Nat} {ns : Nat} {pend leak : Nat → Nat} {t : MemoryTier}
    (hb : InputsBound env tier stream st₀ done st bs) (hled : Ledger ns slots pend leak held st₀)
    (hv : v ∈ slots) : Copies env st t v ↔ Copies env st₀ t v := by
  unfold Copies
  refine and_congr_right fun _ => and_congr_right fun hdef => ?_
  rw [hb.frame v (Or.inl hdef)]
  refine exists_congr fun p => and_congr_right fun hplace => ?_
  apply hb.needsCopy_iff hled.inv
  rintro c rfl
  exact lt_of_liveUses_pos (hled.live_of_slot hv hplace)

/-- What the output loop has done once it has bound `done`. -/
structure OutputsBound (env : SchedEnv) (tier : MemoryTier) (stream : Nat)
    (inPlace : Option AllocPlace) (st₁ : SchedState) (bs₁ : List ValueBinding) (done : List Nat)
    (st : SchedState) (bs : List ValueBinding) (posts : List PostTransfer) : Prop where
  info : st.kernelInfo = st₁.kernelInfo
  load : st.streamLoad = st₁.streamLoad
  uses : st.valueRemainingUses = st₁.valueRemainingUses
  copies : st.valueOnTier = st₁.valueOnTier
  events : st.nextEventId = st₁.nextEventId
  steps : st.steps = st₁.steps
  bindings : ∃ outs, bs = bs₁ ++ outs ∧ outs.map ValueBinding.value = done ∧
    ∀ b ∈ outs, b.role = .output ∧ st.value2place b.value = some b.place
  pending : ∀ pt ∈ posts, ∃ o ∈ done, ∃ p t, st.value2place o = some p ∧ isOutputPlace p = false ∧
    env.schedule.outputAliases o = some t ∧
    pt = ⟨⟨o, .input, p, false⟩, ⟨o, .output, .output t, false⟩⟩
  delivered : ∀ o ∈ done, ∀ p t, st.value2place o = some p → env.schedule.outputAliases o = some t →
    isOutputPlace p = true ∨
      (⟨⟨o, .input, p, false⟩, ⟨o, .output, .output t, false⟩⟩ : PostTransfer) ∈ posts
  inherits : ∀ q, inPlace = some q → ∀ o ∈ done, st.value2place o = some q
  frame : ∀ w, w ∉ done → st.value2place w = st₁.value2place w

theorem OutputCase.place_eq {inPlace : Option AllocPlace} {o : ValueId} {p q : AllocPlace}
    {a : ChunkAllocator} (h : OutputCase env tier stream inPlace st o p a)
    (hq : inPlace = some q) : p = q := by
  cases h with
  | inPlace _ _ hin => simpa using hin.symm.trans hq
  | aliased _ hin => cases hin.symm.trans hq
  | fresh _ _ hin => cases hin.symm.trans hq

theorem OutputsBound.step {inPlace : Option AllocPlace} {st₁ : SchedState}
    {bs₁ bs : List ValueBinding} {done : List Nat} {posts : List PostTransfer} {o : ValueId}
    (hb : OutputsBound env tier stream inPlace st₁ bs₁ done st bs posts) (ho : o ∉ done)
    {p : AllocPlace} {a : ChunkAllocator} (hcase : OutputCase env tier stream inPlace st o p a)
    (first : Bool) :
    OutputsBound env tier stream inPlace st₁ bs₁ (done ++ [o])
      { st with
        allocator := a
        value2place := Function.update st.value2place o (some p) }
      (bs ++ [⟨o, .output, p, first⟩]) (posts ++ postTransferOf env.schedule o p) := by
  have hkeep : ∀ w ∈ done, Function.update st.value2place o (some p) w = st.value2place w := by
    intro w hw
    have hwo : w ≠ o := fun h => ho (h ▸ hw)
    exact Function.update_of_ne hwo _ _
  refine
    { info := hb.info, load := hb.load, uses := hb.uses, copies := hb.copies, events := hb.events,
      steps := hb.steps, bindings := ?_, pending := ?_, delivered := ?_, inherits := ?_, frame := ?_ }
  · obtain ⟨outs, rfl, hvalues, houts⟩ := hb.bindings
    refine ⟨outs ++ [⟨o, .output, p, first⟩], by simp, by simp [hvalues], ?_⟩
    intro b hmem
    rcases List.mem_append.mp hmem with hmem | hmem
    · obtain ⟨hrole, hplace⟩ := houts b hmem
      have hdone : b.value ∈ done := hvalues ▸ List.mem_map_of_mem hmem
      exact ⟨hrole, (hkeep b.value hdone).trans hplace⟩
    · rw [List.mem_singleton.mp hmem]
      exact ⟨rfl, Function.update_self _ _ _⟩
  · intro pt hpt
    rcases List.mem_append.mp hpt with hpt | hpt
    · obtain ⟨w, hw, q, t, hplace, hq⟩ := hb.pending pt hpt
      exact ⟨w, List.mem_append_left _ hw, q, t, (hkeep w hw).trans hplace, hq⟩
    · obtain ⟨t, ht, hp, rfl⟩ := mem_postTransferOf.mp hpt
      exact ⟨o, by simp, p, t, Function.update_self _ _ _, hp, ht, rfl⟩
  · intro w hw q t hplace ht
    dsimp only at hplace
    rcases List.mem_append.mp hw with hw | hw
    · rw [hkeep w hw] at hplace
      exact (hb.delivered w hw q t hplace ht).imp_right (List.mem_append_left _)
    · obtain rfl := List.mem_singleton.mp hw
      rw [Function.update_self] at hplace
      obtain rfl : p = q := by simpa using hplace
      cases hp : isOutputPlace p with
      | true => exact Or.inl rfl
      | false =>
          exact Or.inr (List.mem_append_right _ (mem_postTransferOf.mpr ⟨t, ht, hp, rfl⟩))
  · intro q hq w hw
    rcases List.mem_append.mp hw with hw | hw
    · exact (hkeep w hw).trans (hb.inherits q hq w hw)
    · rw [List.mem_singleton.mp hw, ← hcase.place_eq hq]
      exact Function.update_self _ _ _
  · intro w hw
    rw [← hb.frame w fun h => hw (List.mem_append_left _ h)]
    exact Function.update_of_ne (fun h => hw (by simp [h])) _ _

/-! ### Taking a buffer over -/

/-- Where the place comes from that `bind_kernel` reuses for a kernel's output. -/
inductive InPlaceSource (env : SchedEnv) (kid : Nat) (st : SchedState) (bs : List ValueBinding) :
    Option AllocPlace → Prop
  | forward (x y : ValueId) (b : ValueBinding) (hfwd : (env.schedule.kernel kid).isForward = true)
      (hin : (env.schedule.kernel kid).inputs = [some x])
      (hout : (env.schedule.kernel kid).outputs = [y]) (hb : b ∈ bs) (hx : b.value = x)
      (hlast : ∀ c, b.place = .chunk c → st.valueRemainingUses x = 1) :
      InPlaceSource env kid st bs (some b.place)
  | update (idx : Nat) (x : ValueId) (b : ValueBinding)
      (hidx : env.schedule.mustInPlaceInput kid = some idx)
      (hin : (env.schedule.kernel kid).inputs.getD idx none = some x)
      (hb : b ∈ bs) (hx : b.value = x) :
      InPlaceSource env kid st bs (some b.place)
  | none (hno : env.schedule.mustInPlaceInput kid = none)
      (hfwd : (env.schedule.kernel kid).isForward = true →
        ∃ b ∈ bs, (env.schedule.kernel kid).inputs = [some b.value] ∧ (∃ c, b.place = .chunk c) ∧
          st.valueRemainingUses b.value ≠ 1) :
      InPlaceSource env kid st bs none

theorem boundPlace_eq {bs : List ValueBinding} (hv : v ∈ bs.map ValueBinding.value) :
    ∃ b ∈ bs, b.value = v ∧ boundPlace bs v = some b.place := by
  obtain ⟨b₀, hb₀, hval⟩ := List.mem_map.mp hv
  cases hfind : bs.find? (fun b => b.value == v) with
  | none =>
      rw [List.find?_eq_none] at hfind
      exact absurd hval (by simpa using hfind b₀ hb₀)
  | some b =>
      refine ⟨b, List.mem_of_find?_eq_some hfind, ?_, ?_⟩
      · simpa using List.find?_some hfind
      · simp [boundPlace, hfind]

/-- An operator that updates its cache does not forward its input. -/
theorem mustInPlaceInput_of_isForward {S : Schedule} (h : (S.kernel kid).isForward = true) :
    S.mustInPlaceInput kid = none := by
  unfold Kernel.isForward at h
  unfold Schedule.mustInPlaceInput
  split at h <;> simp_all

/-- Neither `expect` of `bind_kernel` fails, and the reused place is one that an input is bound
to. -/
theorem inPlace_cases (st : SchedState) (hS : env.schedule.WellFormed) (hk : kid ∈ env.schedule.kernelIds)
    {bs : List ValueBinding}
    (hvalues : bs.map ValueBinding.value = (env.schedule.kernel kid).presentInputs) :
    ∃ tryIdentity mustPlace,
      tryInPlaceIdentity (env.schedule.kernel kid) st bs = some tryIdentity ∧
      mustInPlacePlace env.schedule kid bs = some mustPlace ∧
      InPlaceSource env kid st bs (tryIdentity.or mustPlace) := by
  by_cases hfwd : (env.schedule.kernel kid).isForward = true
  · have hmust := mustInPlaceInput_of_isForward hfwd
    obtain ⟨x, y, hin, hout⟩ := (Kernel.isUnary_iff _).mp (hS.forward_unary kid hk hfwd)
    have hx : x ∈ bs.map ValueBinding.value := by
      rw [hvalues]
      simp [Kernel.presentInputs, hin]
    obtain ⟨b, hb, hbx, hplace⟩ := boundPlace_eq hx
    have hmustPlace : mustInPlacePlace env.schedule kid bs = some none := by
      simp [mustInPlacePlace, hmust]
    by_cases hlast : ∀ c, b.place = .chunk c → st.valueRemainingUses x = 1
    · have htry : tryInPlaceIdentity (env.schedule.kernel kid) st bs = some (some b.place) := by
        simp only [tryInPlaceIdentity, hfwd, if_true, hin, hplace]
        cases hp : b.place with
        | chunk c => simp [hlast c hp]
        | sessionState w => rfl
        | initializer w => rfl
        | input w => rfl
        | output w => rfl
      exact ⟨_, none, htry, hmustPlace, .forward x y b hfwd hin hout hb hbx hlast⟩
    · simp only [not_forall] at hlast
      obtain ⟨c, hc, hone⟩ := hlast
      have htry : tryInPlaceIdentity (env.schedule.kernel kid) st bs = some none := by
        simp [tryInPlaceIdentity, hfwd, hin, hplace, hc, hone]
      exact ⟨none, none, htry, hmustPlace,
        .none hmust fun _ => ⟨b, hb, by rw [hin, hbx], ⟨c, hc⟩, by rw [hbx]; exact hone⟩⟩
  · have htry : tryInPlaceIdentity (env.schedule.kernel kid) st bs = some none := by
      simp [tryInPlaceIdentity, hfwd]
    cases hidx : env.schedule.mustInPlaceInput kid with
    | none => exact ⟨none, none, htry, by simp [mustInPlacePlace, hidx],
        .none hidx fun h => absurd h hfwd⟩
    | some idx =>
        obtain ⟨hsome, -⟩ := hS.inPlace_unary kid hk idx hidx
        obtain ⟨x, hx⟩ := Option.isSome_iff_exists.mp hsome
        have hmem : some x ∈ (env.schedule.kernel kid).inputs := by
          rw [List.getD_eq_getElem?_getD] at hx
          cases hget : (env.schedule.kernel kid).inputs[idx]? with
          | none => simp [hget] at hx
          | some y =>
              rw [hget, Option.getD_some] at hx
              exact hx ▸ List.mem_of_getElem? hget
        have hxv : x ∈ bs.map ValueBinding.value := by
          rw [hvalues]
          simpa [Kernel.presentInputs] using hmem
        obtain ⟨b, hb, hbx, hplace⟩ := boundPlace_eq hxv
        refine ⟨none, some b.place, htry, ?_, .update idx x b hidx hx hb hbx⟩
        simp only [mustInPlacePlace, hidx, hx, hplace]

/-- The reused place belongs to an input that carries a value. -/
theorem InPlaceSource.binding {st₀ : SchedState} {bs : List ValueBinding} {p : AllocPlace}
    {tier : MemoryTier} {stream : Nat}
    (hS : env.schedule.WellFormed) (hk : kid ∈ env.schedule.kernelIds)
    (hb : InputsBound env tier stream st₀ (env.schedule.kernel kid).presentInputs st bs)
    (h : InPlaceSource env kid st bs (some p)) :
    (env.schedule.kernel kid).outputs.length = 1 ∧ ∃ b ∈ bs, b.place = p ∧ b.role = .input ∧
      b.value ∈ (env.schedule.kernel kid).presentInputs ∧
      env.schedule.isScratch b.value = false ∧ st.Located tier b.value p := by
  have key : ∀ b ∈ bs, env.schedule.isScratch b.value = false →
      b.role = .input ∧ b.value ∈ (env.schedule.kernel kid).presentInputs ∧
        env.schedule.isScratch b.value = false ∧ st.Located tier b.value b.place := by
    intro b hmem hdef
    have hrole : b.role = .input := by
      rw [hb.role b hmem, hdef]
      rfl
    exact ⟨hrole, hb.values ▸ List.mem_map_of_mem hmem, hdef, hb.located b hmem hrole⟩
  cases h with
  | forward x y b hfwd hin hout hmem hx hlast =>
      refine ⟨by rw [hout]; rfl, b, hmem, rfl, key b hmem ?_⟩
      rw [hx]
      exact hS.copied_defined kid hk (Or.inl hfwd) x (by simp [Kernel.presentInputs, hin])
  | update idx x b hidx hin hmem hx =>
      refine ⟨(hS.inPlace_unary kid hk idx hidx).2, b, hmem, rfl, key b hmem ?_⟩
      rw [hx]
      exact hS.cache_defined kid hk idx hidx x hin

/-- The body step is the kernel with all its bindings or, for a `Transfer` operator, the transfer
from its one input binding to its one output binding. -/
theorem bodyStep_cases {st₀ st₁ st₂ : SchedState} {inPlace : Option AllocPlace}
    {ins bs : List ValueBinding} {posts : List PostTransfer} {context : ExecutionContext}
    {event : Nat} {step : Step} (hS : env.schedule.WellFormed) (hk : kid ∈ env.schedule.kernelIds)
    (hin : InputsBound env tier stream st₀ (env.schedule.kernel kid).presentInputs st₁ ins)
    (hout : OutputsBound env tier stream inPlace st₁ ins (env.schedule.kernel kid).outputs st₂ bs
      posts) (h : bodyStep env.schedule kid context event bs = some step) :
    (env.schedule.kernel kid).isTransfer = false ∧ step = .kernel ⟨kid, context, bs, some event⟩ ∨
    (env.schedule.kernel kid).isTransfer = true ∧ ∃ b d,
      (env.schedule.kernel kid).inputs = [some b.value] ∧
      (env.schedule.kernel kid).outputs = [d.value] ∧ ins = [b] ∧ bs = [b, d] ∧
      step = .transfer ⟨b, d, context, some event⟩ := by
  unfold bodyStep at h
  by_cases ht : (env.schedule.kernel kid).isTransfer = true
  · rw [if_pos ht] at h
    obtain ⟨x, y, hinputs, houtputs⟩ := (Kernel.isUnary_iff _).mp (hS.transfer_unary kid hk ht)
    have hpresent : (env.schedule.kernel kid).presentInputs = [x] := by
      simp [Kernel.presentInputs, hinputs]
    obtain ⟨outs, hbs, hvalues, houts⟩ := hout.bindings
    have hinsv := hin.values
    rw [hpresent] at hinsv
    rw [houtputs] at hvalues
    obtain ⟨b, rfl, rfl⟩ : ∃ b, ins = [b] ∧ b.value = x := by
      cases ins with
      | nil => cases hinsv
      | cons b ins =>
          cases ins with
          | nil => exact ⟨b, rfl, by simpa using hinsv⟩
          | cons b' ins => simp at hinsv
    obtain ⟨d, rfl, rfl⟩ : ∃ d, outs = [d] ∧ d.value = y := by
      cases outs with
      | nil => cases hvalues
      | cons d outs =>
          cases outs with
          | nil => exact ⟨d, rfl, by simpa using hvalues⟩
          | cons d' outs => simp at hvalues
    have hb : b.role = .input := by
      rw [hin.role b (by simp), hS.copied_defined kid hk (Or.inr ht) b.value (by simp [hpresent])]
      rfl
    have hd : d.role = .output := (houts d (by simp)).1
    have hbs' : bs = [b, d] := hbs
    rw [hbs'] at h
    simp [hb, hd] at h
    exact Or.inr ⟨ht, b, d, hinputs, houtputs, rfl, hbs', h.symm⟩
  · rw [if_neg ht] at h
    exact Or.inl ⟨by simpa using ht, (Option.some.inj h).symm⟩

end SchedState

namespace MemoryAware

open SchedState

variable {env : SchedEnv} {st : SchedState} {kid stream : Nat} {v : ValueId}
  {leak : Nat → Nat}

/-- `pick_stream` finds a stream, and one that exists. -/
theorem pickStream_total (hns : 0 < env.numStreams) (hp : Planned env st)
    (hpreds : ∀ pred ∈ env.schedule.kernelPreds kid, st.Scheduled pred) :
    ∃ stream, pickStream env st kid = some stream ∧ stream < env.numStreams := by
  unfold pickStream
  by_cases hone : env.numStreams = 1
  · exact ⟨0, by simp [hone], hns⟩
  rw [if_neg hone]
  obtain ⟨infos, hinfos, hmem⟩ : ∃ infos,
      (env.schedule.kernelPreds kid).mapM st.info? = some infos ∧
      ∀ i ∈ infos, i.stream < env.numStreams := by
    generalize env.schedule.kernelPreds kid = preds at hpreds
    induction preds with
    | nil => exact ⟨[], rfl, by simp⟩
    | cons pred preds ih =>
        obtain ⟨infos, hinfos, hmem⟩ := ih fun p hpm => hpreds p (List.mem_cons_of_mem _ hpm)
        obtain ⟨i, hi⟩ := (hpreds pred List.mem_cons_self).info?
        refine ⟨i :: infos, by simp [List.mapM_cons, hi, hinfos], ?_⟩
        intro j hj
        rcases List.mem_cons.mp hj with rfl | hj
        · exact (hp.known pred j (info?_mem hi)).2.1
        · exact hmem j hj
  rw [hinfos]
  dsimp only
  cases hmax : maxBy? (fun a b : KernelInfo => decide (a.order < b.order)) infos with
  | some i => exact ⟨i.stream, rfl, hmem i (maxBy?_mem hmax)⟩
  | none =>
      cases hmin : minBy? (fun a b : Nat × Nat => decide (a.1 < b.1)) st.streamLoad.zipIdx with
      | some l =>
          refine ⟨l.2, rfl, ?_⟩
          have hl := minBy?_mem hmin
          have hlt : l.2 < st.streamLoad.length := by simpa using List.snd_lt_of_mem_zipIdx hl
          rw [hp.load] at hlt
          exact hlt
      | none =>
          have hnil := minBy?_eq_none hmin
          have hload := hp.load
          simp only [List.zipIdx_eq_nil_iff] at hnil
          rw [hnil] at hload
          simp only [List.length_nil] at hload
          omega

/-- The data of one pass through `schedule_kernel`. -/
structure Emission where
  leak : Nat → Nat
  inPlace : Option AllocPlace
  bound : SchedState
  inputs : List ValueBinding
  placed : SchedState
  bindings : List ValueBinding
  posts : List PostTransfer
  step : Step
  allocator : ChunkAllocator
  uses : ValueId → Nat

/-- The state that the pass ends in. -/
def Emission.final (e : Emission) (context : ExecutionContext) : SchedState :=
  { e.placed with
    allocator := e.allocator
    nextEventId := e.placed.nextEventId + e.posts.length
    steps := e.placed.steps ++ e.step :: postSteps context e.placed.nextEventId e.posts
    valueRemainingUses := e.uses }

/-- The state in which the inputs are bound. -/
def entered (env : SchedEnv) (st : SchedState) (kid stream : Nat) : SchedState :=
  (enterKernel env st kid ⟨env.placement kid, stream⟩).1

theorem entered_eq (env : SchedEnv) (st : SchedState) (kid stream : Nat) :
    enterKernel env st kid ⟨env.placement kid, stream⟩ =
      (entered env st kid stream, st.nextEventId) := rfl

@[simp] theorem entered_allocator : (entered env st kid stream).allocator = st.allocator := rfl

@[simp] theorem entered_value2place :
    (entered env st kid stream).value2place = st.value2place := rfl

@[simp] theorem entered_valueOnTier :
    (entered env st kid stream).valueOnTier = st.valueOnTier := rfl

@[simp] theorem entered_valueRemainingUses :
    (entered env st kid stream).valueRemainingUses = st.valueRemainingUses := rfl

@[simp] theorem entered_nextEventId :
    (entered env st kid stream).nextEventId = st.nextEventId + 1 := rfl

theorem entered_kernelInfo : (entered env st kid stream).kernelInfo = st.kernelInfo ++
    [(kid, ⟨st.kernelInfo.length, stream, st.nextEventId, env.placement kid⟩)] := rfl

/-- The waits that the kernel starts with. -/
def waits (env : SchedEnv) (st : SchedState) (kid stream : Nat) : List Step :=
  (env.schedule.kernelPreds kid).flatMap
    (SchedState.predWait (entered env st kid stream) ⟨env.placement kid, stream⟩)

/-- The kernel starts with waits on its own stream. -/
theorem eq_syncWait_of_mem_waits {s : Step} (h : s ∈ waits env st kid stream) :
    ∃ event, s = .syncWait ⟨⟨env.placement kid, stream⟩, event⟩ := by
  obtain ⟨pred, -, hmem⟩ := List.mem_flatMap.mp h
  unfold predWait at hmem
  split at hmem
  · split at hmem
    · exact ⟨_, List.mem_singleton.mp hmem⟩
    · cases hmem
  · cases hmem

theorem entered_steps :
    (entered env st kid stream).steps = st.steps ++ waits env st kid stream := rfl

/-- The slots that are left once the kernel is scheduled. -/
def laterSlots (env : SchedEnv) (st : SchedState) (kid stream : Nat) : List Nat :=
  (entered env st kid stream).slots env.schedule

/-- What the data of a pass says about the states before and after it. -/
structure Emission.Of (e : Emission) (env : SchedEnv) (st : SchedState) (kid stream : Nat)
    (leak : Nat → Nat) : Prop where
  eq : emitKernel env st kid = some (e.final ⟨env.placement kid, stream⟩)
  leak_le : ∀ c, leak c ≤ e.leak c
  inputsBound : InputsBound env (env.placement kid).tier stream (entered env st kid stream)
    (env.schedule.kernel kid).presentInputs e.bound e.inputs
  boundLedger : Ledger env.numStreams
    ((env.schedule.kernel kid).presentInputs ++ laterSlots env st kid stream) (pendOf []) e.leak
    none e.bound
  source : InPlaceSource env kid e.bound e.inputs e.inPlace
  outputsBound : OutputsBound env (env.placement kid).tier stream e.inPlace e.bound e.inputs
    (env.schedule.kernel kid).outputs e.placed e.bindings e.posts
  placedLedger : Ledger env.numStreams
    ((env.schedule.kernel kid).presentInputs ++ laterSlots env st kid stream) (pendOf e.posts)
    e.leak none e.placed
  body : bodyStep env.schedule kid ⟨env.placement kid, stream⟩ st.nextEventId e.bindings =
    some e.step
  evolves : e.placed.allocator.Evolves stream (fun c =>
    ((∃ pt ∈ e.posts, pt.src.place = .chunk c) ∧
      ∀ w ∈ (env.schedule.kernel kid).presentInputs ++ laterSlots env st kid stream,
        e.placed.value2place w ≠ some (.chunk c)) ∨
    (∃ v ∈ (env.schedule.kernel kid).presentInputs, e.placed.value2place v = some (.chunk c)) ∧
      ∀ w ∈ laterSlots env st kid stream, e.placed.value2place w ≠ some (.chunk c)) e.allocator
  ledger : Ledger env.numStreams (laterSlots env st kid stream) (pendOf []) e.leak none
    (e.final ⟨env.placement kid, stream⟩)

/-- A kernel that is next to be scheduled. -/
structure Ready (env : SchedEnv) (st : SchedState) (kid : Nat) : Prop where
  mem : kid ∈ env.schedule.kernelIds
  unscheduled : ¬ st.Scheduled kid
  preds : ∀ pred ∈ env.schedule.kernelPreds kid, st.Scheduled pred

theorem Ready.slots_perm (h : Ready env st kid) (stream : Nat) : (st.slots env.schedule).Perm
    ((env.schedule.kernel kid).presentInputs ++ laterSlots env st kid stream) :=
  SchedState.slots_perm h.mem h.unscheduled entered_kernelInfo

/-- The inputs of a ready kernel have places, and its outputs have none. -/
theorem Ready.inputs_placed (hS : env.schedule.WellFormed) (hp : Planned env st)
    (h : Ready env st kid) : ∀ v ∈ (env.schedule.kernel kid).presentInputs,
    v ∈ env.schedule.initializers ∨ env.schedule.isScratch v = true ∨
      (st.value2place v).isSome = true := by
  intro v hv
  cases hscr : env.schedule.isScratch v with
  | true => exact Or.inr (Or.inl rfl)
  | false =>
      rcases Schedule.defined_cases hscr with hsource | ⟨i, hi⟩
      · obtain ⟨p, hsp⟩ := Option.isSome_iff_exists.mp hsource
        rw [hp.source v p hsp]
        exact Or.inr (Or.inr rfl)
      · obtain ⟨himem, hiout⟩ := Schedule.value2producer_some hi
        have hlt := hS.ordered kid h.mem v hv i himem hiout
        have hpred : i ∈ env.schedule.kernelPreds kid :=
          Schedule.mem_kernelPreds.mpr ⟨by omega, v, hv, hi⟩
        exact Or.inr (Or.inr ((hp.produced i himem v hiout).mpr (h.preds i hpred)))

theorem Ready.outputs_unplaced (hp : Planned env st) (h : Ready env st kid) :
    ∀ o ∈ (env.schedule.kernel kid).outputs, st.value2place o = none := by
  intro o ho
  cases hplace : st.value2place o with
  | none => rfl
  | some p => exact absurd ((hp.produced kid h.mem o ho).mp (by rw [hplace]; rfl)) h.unscheduled

theorem Ready.scratch_unplaced (hS : env.schedule.WellFormed) (hp : Planned env st)
    (h : Ready env st kid) : ∀ v ∈ (env.schedule.kernel kid).presentInputs,
    env.schedule.isScratch v = true →
      st.value2place v = none ∧ (env.schedule.kernel kid).presentInputs.count v = 1 := by
  intro v hv hscr
  obtain ⟨hcount, honly⟩ := hS.scratch_count h.mem hv hscr
  refine ⟨?_, hcount⟩
  by_contra hplace
  obtain ⟨j, hj, hvj⟩ := hp.scratch v hscr hplace
  obtain ⟨i, hi⟩ := hj.info?
  obtain rfl := honly j (hp.known j i (info?_mem hi)).1 hvj
  exact h.unscheduled hj

/-- A produced value is not a workspace. -/
theorem isScratch_output (hk : kid ∈ env.schedule.kernelIds)
    (hv : v ∈ (env.schedule.kernel kid).outputs) : env.schedule.isScratch v = false := by
  have hprod : env.schedule.value2producer v ≠ none := by
    intro hnone
    exact Schedule.value2producer_eq_none_iff.mp hnone kid hk hv
  cases h : env.schedule.value2producer v with
  | none => exact absurd h hprod
  | some i => simp [Schedule.isScratch, Schedule.isWorkspace, h]

/-- The body of a kernel is one step: a `Transfer` operator has an input and an output to
transfer. -/
theorem bodyStep_total (hS : env.schedule.WellFormed) (hk : kid ∈ env.schedule.kernelIds)
    {st₀ st₁ st₂ : SchedState} {ins bs : List ValueBinding} {posts : List PostTransfer}
    {inPlace : Option AllocPlace} {tier : MemoryTier}
    (hin : InputsBound env tier stream st₀ (env.schedule.kernel kid).presentInputs st₁ ins)
    (hout : OutputsBound env tier stream inPlace st₁ ins (env.schedule.kernel kid).outputs st₂ bs
      posts) (context : ExecutionContext) (event : EventId) :
    ∃ step, bodyStep env.schedule kid context event bs = some step := by
  unfold bodyStep
  by_cases ht : (env.schedule.kernel kid).isTransfer = true
  · rw [if_pos ht]
    obtain ⟨x, y, hinputs, houtputs⟩ := (Kernel.isUnary_iff _).mp (hS.transfer_unary kid hk ht)
    obtain ⟨outs, rfl, hvalues, houts⟩ := hout.bindings
    have hx : x ∈ (env.schedule.kernel kid).presentInputs := by
      simp [Kernel.presentInputs, hinputs]
    have hxb : x ∈ ins.map ValueBinding.value := hin.values ▸ hx
    have hyb : y ∈ outs.map ValueBinding.value := by
      rw [hvalues, houtputs]
      exact List.mem_singleton_self y
    obtain ⟨b, hb, hbx⟩ := List.mem_map.mp hxb
    obtain ⟨d, hd, -⟩ := List.mem_map.mp hyb
    have hrole : b.role = .input := by
      rw [hin.role b hb, hbx, hS.copied_defined kid hk (Or.inr ht) x hx]
      rfl
    cases hsrc : (ins ++ outs).find? (fun b => b.role == .input) with
    | none =>
        rw [List.find?_eq_none] at hsrc
        exact absurd hrole (by simpa using hsrc b (List.mem_append_left _ hb))
    | some src =>
        cases hdst : (ins ++ outs).find? (fun b => b.role == .output) with
        | none =>
            rw [List.find?_eq_none] at hdst
            exact absurd (houts d hd).1 (by simpa using hdst d (List.mem_append_right _ hd))
        | some dst => exact ⟨_, rfl⟩
  · rw [if_neg ht]
    exact ⟨_, rfl⟩

/-- One kernel: no branch of `schedule_kernel` panics, and an invariant of the two binding loops is
carried through. -/
theorem emitKernel_induct (hS : env.schedule.WellFormed)
    (hp : Planned env st) (hl : Ledger env.numStreams (st.slots env.schedule) (pendOf []) leak none st)
    (hready : Ready env st kid) (hpick : pickStream env st kid = some stream)
    (hs : stream < env.numStreams)
    {P : (Nat → Nat) → List Nat → SchedState → List ValueBinding → Prop}
    {Q : (Nat → Nat) → Option AllocPlace → List Nat → SchedState → List ValueBinding →
      List PostTransfer → Prop}
    (hin0 : P leak [] (entered env st kid stream) [])
    (hin : ∀ leak leak' done st₁ st₁' bs v b, v ∈ (env.schedule.kernel kid).presentInputs →
      Ledger env.numStreams
        ((env.schedule.kernel kid).presentInputs ++ laterSlots env st kid stream) (pendOf []) leak
        none st₁ →
      InputCase env (env.placement kid).tier stream st₁ v st₁' b →
      Ledger env.numStreams
        ((env.schedule.kernel kid).presentInputs ++ laterSlots env st kid stream) (pendOf []) leak'
        none st₁' →
      (leak' = leak ∨ Copies env st₁ (env.placement kid).tier v) →
      InputsBound env (env.placement kid).tier stream (entered env st kid stream) done st₁ bs →
      P leak done st₁ bs → P leak' (done ++ [v]) st₁' (bs ++ [b]))
    (hmid : ∀ leak' inPlace st₁ bs,
      Ledger env.numStreams
        ((env.schedule.kernel kid).presentInputs ++ laterSlots env st kid stream) (pendOf []) leak'
        none st₁ →
      InputsBound env (env.placement kid).tier stream (entered env st kid stream)
        (env.schedule.kernel kid).presentInputs st₁ bs →
      InPlaceSource env kid st₁ bs inPlace →
      P leak' (env.schedule.kernel kid).presentInputs st₁ bs → Q leak' inPlace [] st₁ bs [])
    (hout : ∀ leak' inPlace st₁ ins done st₂ bs posts o p a first,
      done ++ [o] <+: (env.schedule.kernel kid).outputs → o ∉ done →
      Ledger env.numStreams
        ((env.schedule.kernel kid).presentInputs ++ laterSlots env st kid stream) (pendOf posts)
        leak' none st₂ →
      st₂.value2place o = none →
      OutputCase env (env.placement kid).tier stream inPlace st₂ o p a →
      InputsBound env (env.placement kid).tier stream (entered env st kid stream)
        (env.schedule.kernel kid).presentInputs st₁ ins →
      InPlaceSource env kid st₁ ins inPlace →
      OutputsBound env (env.placement kid).tier stream inPlace st₁ ins done st₂ bs posts →
      Q leak' inPlace done st₂ bs posts →
      Q leak' inPlace (done ++ [o])
        { st₂ with
          allocator := a
          value2place := Function.update st₂.value2place o (some p) }
        (bs ++ [⟨o, .output, p, first⟩]) (posts ++ postTransferOf env.schedule o p)) :
    ∃ e : Emission, e.Of env st kid stream leak ∧
      P e.leak (env.schedule.kernel kid).presentInputs e.bound e.inputs ∧
      Q e.leak e.inPlace (env.schedule.kernel kid).outputs e.placed e.bindings e.posts := by
  have hperm := hready.slots_perm stream
  have hl₀ : Ledger env.numStreams
      ((env.schedule.kernel kid).presentInputs ++ laterSlots env st kid stream) (pendOf []) leak
      none (entered env st kid stream) :=
    (hl.perm hperm).congr rfl rfl rfl rfl
  have hinit : ∀ v, v ∈ env.schedule.initializers →
      (entered env st kid stream).value2place v = some (.initializer v) :=
    fun v hv => hp.source v _ (hS.sourcePlace_initializer hv)
  have hbound₀ : InputsBound env (env.placement kid).tier stream (entered env st kid stream) []
      (entered env st kid stream) [] :=
    { info := rfl, load := rfl, uses := rfl, values := rfl, role := by simp, workspace := by simp,
      located := by simp, direct := by simp, frame := fun _ _ => rfl, evolves := .refl _ _, copies := fun _ _ _ h => h,
      steps := ⟨[], by simp, by simp⟩ }
  have hscr := hready.scratch_unplaced hS hp
  have hplaced := hready.inputs_placed hS hp
  -- the input loop
  obtain ⟨st₁, ins, leak', hins, hl₁, hle, hbound, hPin⟩ := bindInputs_induct
    (P := fun leak done st₁ bs => InputsBound env (env.placement kid).tier stream
      (entered env st kid stream) done st₁ bs ∧ P leak done st₁ bs)
    (env.schedule.kernel kid).presentInputs hs
    (fun v hv => List.mem_append_left _ hv)
    (fun leak leak' done st₁ st₁' bs v b hv hled hcase hled' hleak hP =>
      ⟨hP.1.step (hinit v) hcase,
        hin leak leak' done st₁ st₁' bs v b hv hled hcase hled' hleak hP.1 hP.2⟩)
    _ [] leak (entered env st kid stream) [] (fun _ hv => hv) hscr hplaced hl₀ ⟨hbound₀, hin0⟩
  rw [List.nil_append] at hbound hPin
  -- the reused place
  obtain ⟨tryIdentity, mustPlace, htry, hmust, hsource⟩ := inPlace_cases st₁ hS hready.mem
    hbound.values
  generalize hinPlace : tryIdentity.or mustPlace = inPlace at hsource
  have hunplaced : ∀ o ∈ (env.schedule.kernel kid).outputs, st₁.value2place o = none := by
    intro o ho
    rw [hbound.frame o (Or.inl (isScratch_output hready.mem ho))]
    exact hready.outputs_unplaced hp o ho
  have hunary : inPlace ≠ none → (env.schedule.kernel kid).outputs.length ≤ 1 := by
    intro hne
    obtain ⟨p, rfl⟩ := Option.ne_none_iff_exists'.mp hne
    exact Nat.le_of_eq (hsource.binding hS hready.mem hbound).1
  have hlive : ∀ o ∈ (env.schedule.kernel kid).outputs, ∀ c, inPlace = some (.chunk c) →
      0 < st₁.allocator.liveUses c := by
    rintro o - c rfl
    obtain ⟨-, b, -, -, -, hmem, -, hloc⟩ := hsource.binding hS hready.mem hbound
    exact hloc.live hl₁ (List.mem_append_left _ hmem)
  have hout₀ : OutputsBound env (env.placement kid).tier stream inPlace st₁ ins [] st₁ ins [] :=
    { info := rfl, load := rfl, uses := rfl, copies := rfl, events := rfl, steps := rfl,
      bindings := ⟨[], by simp, rfl, by simp⟩, pending := by simp, delivered := by simp,
      inherits := by simp, frame := fun _ _ => rfl }
  -- the output loop
  obtain ⟨st₂, bs, posts, houts, hl₂, hbound₂, hQout⟩ := bindOutputs_induct
    (P := fun done st₂ bs posts => OutputsBound env (env.placement kid).tier stream inPlace st₁ ins
      done st₂ bs posts ∧ Q leak' inPlace done st₂ bs posts)
    (env.schedule.kernel kid).outputs inPlace hs
    (fun done st₂ bs posts o p a first ho hdone hled hnone hcase hP =>
      ⟨hP.1.step hdone hcase first,
        hout leak' inPlace st₁ ins done st₂ bs posts o p a first ho hdone hled hnone hcase hbound
          hsource hP.1 hP.2⟩)
    _ [] st₁ ins [] rfl (by simpa using hS.outputs_nodup kid hready.mem) hunplaced
    hunary hlive hl₁ ⟨hout₀, hmid leak' inPlace st₁ ins hl₁ hbound hsource hPin⟩
  rw [List.nil_append] at hbound₂ hQout
  -- the kernel's step, the post transfers and the uses of the inputs
  obtain ⟨step, hbody⟩ := bodyStep_total hS hready.mem hbound hbound₂
    ⟨env.placement kid, stream⟩ st.nextEventId
  obtain ⟨a₃, hposts, hev₃, hl₃⟩ := postTransfers_spec ⟨env.placement kid, stream⟩ hs posts
    (st₂.pushStep step) (hl₂.congr rfl rfl rfl rfl)
  obtain ⟨a₄, uses, hcons, hev₄, hl₄⟩ := consumeInputs_spec hs _ _ hl₃
  refine ⟨⟨leak', inPlace, st₁, ins, st₂, bs, posts, step, a₄, uses⟩, ?_, hPin, hQout⟩
  refine
    { eq := ?_, leak_le := hle, inputsBound := hbound, boundLedger := hl₁, source := hsource,
      outputsBound := hbound₂, placedLedger := hl₂, body := hbody, evolves := ?_, ledger := ?_ }
  · unfold emitKernel
    rw [hpick]
    simp only [Option.bind_eq_bind, Option.bind_some, entered_eq, hins]
    have hbind : st₁.bindOutputs env kid (env.placement kid).tier stream ins =
        some (st₂, bs, posts) := by
      unfold SchedState.bindOutputs
      simp only [htry, hmust, hinPlace, houts]
    rw [hbind]
    simp only [Option.bind_some, hbody, hposts, hcons]
    simp [Emission.final, pushStep]
  · refine (hev₃.mono fun c hc => Or.inl hc).trans (hev₄.mono ?_)
    rintro c ⟨v, hv, hc, hno⟩
    exact Or.inr ⟨⟨v, hv, hc⟩, hno⟩
  · exact hl₄.congr rfl rfl rfl rfl

/-! ### From one kernel to the next -/

theorem Emission.Of.kernelInfo {e : Emission} (h : e.Of env st kid stream leak) :
    (e.final ⟨env.placement kid, stream⟩).kernelInfo = st.kernelInfo ++
      [(kid, ⟨st.kernelInfo.length, stream, st.nextEventId, env.placement kid⟩)] := by
  show e.placed.kernelInfo = _
  rw [h.outputsBound.info, h.inputsBound.info, entered_kernelInfo]

/-- The places after the kernel: old values keep theirs, and the outputs have one. -/
theorem Emission.Of.value2place {e : Emission} (h : e.Of env st kid stream leak) {w : ValueId}
    (hscr : env.schedule.isScratch w = false ∨ w ∉ (env.schedule.kernel kid).presentInputs)
    (hw : w ∉ (env.schedule.kernel kid).outputs) :
    (e.final ⟨env.placement kid, stream⟩).value2place w = st.value2place w := by
  show e.placed.value2place w = _
  rw [h.outputsBound.frame w hw, h.inputsBound.frame w hscr, entered_value2place]

theorem Emission.Of.outputPlaced {e : Emission} (h : e.Of env st kid stream leak) {o : ValueId}
    (ho : o ∈ (env.schedule.kernel kid).outputs) :
    ∃ b ∈ e.bindings, b.role = .output ∧ b.value = o ∧ e.placed.value2place o = some b.place := by
  obtain ⟨outs, hbs, hvalues, houts⟩ := h.outputsBound.bindings
  rw [← hvalues] at ho
  obtain ⟨b, hb, rfl⟩ := List.mem_map.mp ho
  rw [hbs]
  exact ⟨b, List.mem_append_right _ hb, (houts b hb).1, rfl, (houts b hb).2⟩

/-- The kernels that are left after the kernel. -/
theorem Emission.Of.slots {e : Emission} (h : e.Of env st kid stream leak) :
    (e.final ⟨env.placement kid, stream⟩).slots env.schedule = laterSlots env st kid stream := by
  have hun : (e.final ⟨env.placement kid, stream⟩).unscheduled env.schedule =
      (entered env st kid stream).unscheduled env.schedule := by
    apply List.filter_congr
    intro j _
    have hsched : (e.final ⟨env.placement kid, stream⟩).Scheduled j ↔
        (entered env st kid stream).Scheduled j := by
      rw [Scheduled, Scheduled, h.kernelInfo, entered_kernelInfo]
    simp [hsched]
  rw [laterSlots, SchedState.slots, SchedState.slots, hun]

theorem Emission.Of.scheduled {e : Emission} (h : e.Of env st kid stream leak) {j : Nat} :
    (e.final ⟨env.placement kid, stream⟩).Scheduled j ↔ st.Scheduled j ∨ j = kid :=
  scheduled_append h.kernelInfo

/-- Scheduling a ready kernel keeps the scheduler's maps in order. -/
theorem Emission.Of.planned {e : Emission} (h : e.Of env st kid stream leak)
    (hS : env.schedule.WellFormed) (hp : Planned env st) (hready : Ready env st kid)
    (hs : stream < env.numStreams) : Planned env (e.final ⟨env.placement kid, stream⟩) where
  known := by
    intro j i hj
    rw [h.kernelInfo, List.mem_append, List.mem_singleton, Prod.mk.injEq] at hj
    rcases hj with hj | ⟨rfl, rfl⟩
    · exact hp.known j i hj
    · exact ⟨hready.mem, hs, rfl⟩
  nodup := by
    rw [h.kernelInfo, List.map_append, List.map_cons, List.map_nil, List.nodup_append]
    refine ⟨hp.nodup, List.nodup_singleton _, ?_⟩
    intro a ha b hb
    rw [List.mem_singleton.mp hb]
    rintro rfl
    exact hready.unscheduled ha
  closed := by
    intro j hj pred hpred
    rw [h.scheduled] at hj ⊢
    rcases hj with hj | rfl
    · exact Or.inl (hp.closed j hj pred hpred)
    · exact Or.inl (hready.preds pred hpred)
  source := by
    intro v p hv
    rw [h.value2place ?_ ?_]
    · exact hp.source v p hv
    · left
      have hsome : (env.schedule.sourcePlace v).isSome = true := by rw [hv]; rfl
      rw [Schedule.sourcePlace_isSome] at hsome
      simp only [Schedule.isScratch, Schedule.isWorkspace]
      rcases hsome with hmem | hmem | hmem <;> simp [hmem]
    · intro hout
      have hnone := hS.source_unproduced kid hready.mem v hout
      rw [hv] at hnone
      cases hnone
  produced := by
    intro j hj v hv
    rw [h.scheduled]
    by_cases hjk : j = kid
    · subst hjk
      obtain ⟨b, -, -, -, hplace⟩ := h.outputPlaced hv
      have hsome : (e.final ⟨env.placement j, stream⟩).value2place v = some b.place := hplace
      simp [hsome]
    · have hnot : v ∉ (env.schedule.kernel kid).outputs := fun hout =>
        hjk (hS.produced_once j hj kid hready.mem v hv hout)
      rw [h.value2place (Or.inl (isScratch_output hj hv)) hnot, hp.produced j hj v hv]
      simp [hjk]
  scratch := by
    intro v hscr hplace
    by_cases hv : v ∈ (env.schedule.kernel kid).presentInputs
    · exact ⟨kid, h.scheduled.mpr (Or.inr rfl), hv⟩
    · have hnot : v ∉ (env.schedule.kernel kid).outputs := fun hout => by
        rw [isScratch_output hready.mem hout] at hscr
        cases hscr
      rw [h.value2place (Or.inr hv) hnot] at hplace
      obtain ⟨j, hj, hvj⟩ := hp.scratch v hscr hplace
      exact ⟨j, h.scheduled.mpr (Or.inl hj), hvj⟩
  load := by
    show e.placed.streamLoad.length = _
    rw [h.outputsBound.load, h.inputsBound.load]
    show (st.streamLoad.modify stream (· + 1)).length = _
    rw [List.length_modify]
    exact hp.load

end MemoryAware
end NnEngine
