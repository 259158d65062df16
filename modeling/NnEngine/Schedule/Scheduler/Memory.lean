import NnEngine.Schedule.Exec
import NnEngine.Schedule.Scheduler.Sharing

/-!
# What memory holds during a run

`Holds` says that memory holds every value that is still to be read, at its own place and at its
copies, and every source that the caller gets back.  A kernel keeps it when a cache that is updated
in place is read for the last time, and no other value that is still to be read is overwritten
outside the chunks: `UpdateSpares` for the update, `Delivers` for the caller's output buffers.
-/

namespace NnEngine
namespace SchedState

variable {env : SchedEnv} {st st' : SchedState} {ns stream : Nat} {slots : List Nat}
  {pend leak : Nat → Nat} {held : Option Nat} {tier : MemoryTier} {v w : ValueId} {c : Nat}
  {α : Type*} {I : Interp env.schedule α} {m m₀ : Mem α} {p : AllocPlace} {x : α}

/-- Memory holds what is still to be read. -/
structure Holds (I : Interp env.schedule α) (m : Mem α) (st : SchedState) (slots : List Nat) :
    Prop where
  place : ∀ w ∈ slots, env.schedule.isScratch w = false → ∀ p, st.value2place w = some p →
    m p = env.schedule.denote I w
  copy : ∀ w ∈ slots, env.schedule.isScratch w = false → ∀ t r, st.valueOnTier w t = some r →
    m r.place = env.schedule.denote I w
  source : ∀ w ∈ env.schedule.outputs, ∀ p, env.schedule.sourcePlace w = some p →
    m p = env.schedule.denote I w

theorem Holds.mono {slots' : List Nat} (h : Holds I m st slots) (hsub : ∀ w ∈ slots', w ∈ slots) :
    Holds I m st slots' where
  place := fun w hw => h.place w (hsub w hw)
  copy := fun w hw => h.copy w (hsub w hw)
  source := h.source

theorem Holds.congr (h : Holds I m st slots) (hplace : st'.value2place = st.value2place)
    (hcopy : st'.valueOnTier = st.valueOnTier) : Holds I m st' slots where
  place := by rw [hplace]; exact h.place
  copy := by rw [hcopy]; exact h.copy
  source := h.source

/-- A value located on a tier can be read there. -/
theorem Holds.located (h : Holds I m st slots) (hv : v ∈ slots)
    (hdef : env.schedule.isScratch v = false) (hl : st.Located tier v p) :
    m p = env.schedule.denote I v := by
  rcases hl with hl | ⟨r, hr, rfl⟩
  · exact h.place v hv hdef p hl
  · exact h.copy v hv hdef tier r hr

/-- A write is harmless if every value at the place is the one that is written. -/
theorem Holds.write (h : Holds I m st slots)
    (hplace : ∀ w ∈ slots, env.schedule.isScratch w = false → st.value2place w = some p →
      env.schedule.denote I w = x)
    (hcopy : ∀ w ∈ slots, env.schedule.isScratch w = false → ∀ t r,
      st.valueOnTier w t = some r → r.place = p → env.schedule.denote I w = x)
    (hsource : ∀ w ∈ env.schedule.outputs, env.schedule.sourcePlace w = some p →
      env.schedule.denote I w = x) : Holds I (Function.update m p x) st slots where
  place := by
    intro w hw hdef q hq
    by_cases hqp : q = p
    · subst hqp
      rw [Function.update_self]
      exact (hplace w hw hdef hq).symm
    · rw [Function.update_of_ne hqp]
      exact h.place w hw hdef q hq
  copy := by
    intro w hw hdef t r hr
    by_cases hrp : r.place = p
    · rw [hrp, Function.update_self]
      exact (hcopy w hw hdef t r hr hrp).symm
    · rw [Function.update_of_ne hrp]
      exact h.copy w hw hdef t r hr
  source := by
    intro w hw q hq
    by_cases hqp : q = p
    · subst hqp
      rw [Function.update_self]
      exact (hsource w hw hq).symm
    · rw [Function.update_of_ne hqp]
      exact h.source w hw q hq

/-- A write to a chunk that nothing still to be read occupies. -/
theorem Holds.writeChunk (h : Holds I m st slots)
    (hfree : ∀ w ∈ slots, env.schedule.isScratch w = false → ¬ st.Occupies w c) :
    Holds I (Function.update m (.chunk c) x) st slots :=
  h.write (fun w hw hdef hp => absurd (Or.inl hp) (hfree w hw hdef))
    (fun w hw hdef t r hr hp => absurd (Or.inr ⟨t, r, hr, hp⟩) (hfree w hw hdef))
    (fun _ _ hp => absurd rfl (Schedule.sourcePlace_not_chunk hp c))

/-- A value is given a place that holds it. -/
theorem Holds.enter (h : Holds I m st slots) (a : ChunkAllocator)
    (hv : env.schedule.isScratch v = false → m p = env.schedule.denote I v) :
    Holds I m
      { st with
        allocator := a
        value2place := Function.update st.value2place v (some p) } slots where
  place := by
    intro w hw hdef q hq
    by_cases hwv : w = v
    · subst hwv
      obtain rfl : p = q := by simpa using hq
      exact hv hdef
    · exact h.place w hw hdef q (by simpa [Function.update_of_ne hwv] using hq)
  copy := h.copy
  source := h.source

/-- One turn of the input loop. -/
theorem InputCase.holds {b : ValueBinding} (hled : Ledger ns slots pend leak held st)
    (h : InputCase env tier stream st v st' b) (hv : v ∈ slots)
    (hreads : ReadsOk I st.steps m₀) (hm : Holds I (execSteps I st.steps m₀) st slots) :
    ReadsOk I st'.steps m₀ ∧ Holds I (execSteps I st'.steps m₀) st' slots := by
  cases h with
  | initializer => exact ⟨hreads, hm⟩
  | direct => exact ⟨hreads, hm.congr rfl rfl⟩
  | workspace c a first hscratch =>
      refine ⟨hreads, hm.enter a fun hdef => ?_⟩
      rw [hdef] at hscratch
      cases hscratch
  | cached p r a first =>
      have hwait : ∀ s ∈ copyWait tier stream r, ∃ w, s = .syncWait w := by
        intro s hs
        unfold copyWait at hs
        split at hs
        · exact ⟨_, List.mem_singleton.mp hs⟩
        · cases hs
      refine ⟨hreads.append_waits hwait, ?_⟩
      rw [execSteps_append, execSteps_waits _ hwait]
      exact hm.congr rfl rfl
  | copied p c a first srcFirst dstFirst hinit hdef hplace hcopy hr hzero =>
      have hp := hm.place v hv hdef p hplace
      refine ⟨hreads.concat ?_, ?_⟩
      · intro b hb
        obtain rfl := List.mem_singleton.mp hb
        exact hp
      · rw [execSteps_append, execSteps_singleton]
        show Holds I (Function.update _ (.chunk c) _) _ _
        rw [hp]
        have hw := hm.writeChunk (x := env.schedule.denote I v)
          (fun w hw _ => hled.not_occupied hzero hw)
        refine { place := hw.place, copy := ?_, source := hw.source }
        intro u hu hudef t r hr'
        by_cases hut : u = v ∧ t = tier
        · obtain ⟨rfl, rfl⟩ := hut
          simp only [Function.update_self, Option.some.injEq] at hr'
          subst hr'
          exact Function.update_self _ _ _
        · apply hw.copy u hu hudef t r
          by_cases huv : u = v
          · subst huv
            have htt : t ≠ tier := fun htt => hut ⟨rfl, htt⟩
            simpa [Function.update_of_ne htt] using hr'
          · simpa [Function.update_of_ne huv] using hr'

/-! ### The step of the kernel -/

/-- What the kernel leaves in its workspaces. -/
def scratchMem (I : Interp env.schedule α) (kid : KernelId) (bs : List ValueBinding) (m : Mem α) :
    Mem α :=
  (bs.filter fun b => b.role == .workspace).foldl (fun m b => Function.update m b.place
    (I.scratch kid ((env.schedule.args kid).map (env.schedule.denote I)) b.value)) m

/-- Memory after the kernel, if its inputs are right. -/
def bodyMem (I : Interp env.schedule α) (kid : KernelId) (bs : List ValueBinding) (m : Mem α) :
    Mem α :=
  (bs.filter fun b => b.role == .output).foldl
    (fun m b => Function.update m b.place (env.schedule.denote I b.value)) (scratchMem I kid bs m)

theorem bodyMem_append_output (kid : KernelId) (bs : List ValueBinding) (o : ValueId)
    (p : AllocPlace) (first : Bool) : bodyMem I kid (bs ++ [⟨o, .output, p, first⟩]) m =
      Function.update (bodyMem I kid bs m) p (env.schedule.denote I o) := by
  simp [bodyMem, scratchMem, List.filter_append]

/-- Folding over positions is folding over elements when the position does not matter. -/
theorem foldl_zipIdx_eq {β γ : Type*} (l : List β) (f : γ → β × Nat → γ) (g : γ → β → γ) (c : γ)
    (h : ∀ c b j, (b, j) ∈ l.zipIdx → f c (b, j) = g c b) : l.zipIdx.foldl f c = l.foldl g c := by
  have hmap : l.zipIdx.foldl f c = l.zipIdx.foldl (fun c bj => g c bj.1) c := by
    apply List.foldl_ext
    intro c bj hbj
    exact h c bj.1 bj.2 hbj
  rw [hmap, ← List.foldl_map (f := Prod.fst) (g := g)]
  simp

variable {kid : Nat} {st₀ st₁ st₂ : SchedState} {inPlace : Option AllocPlace}
  {ins bs : List ValueBinding} {posts : List PostTransfer} {context : ExecutionContext}
  {event : Nat} {step : Step}

/-- A kernel binds its inputs and its workspaces in the input loop, its outputs in the output
loop. -/
theorem filter_role_eq (hin : InputsBound env tier stream st₀
      (env.schedule.kernel kid).presentInputs st₁ ins)
    (hout : OutputsBound env tier stream inPlace st₁ ins (env.schedule.kernel kid).outputs st₂ bs
      posts) :
    (bs.filter fun b => b.role == .input).map ValueBinding.value = env.schedule.args kid ∧
      (bs.filter fun b => b.role == .output).map ValueBinding.value =
        (env.schedule.kernel kid).outputs ∧
      ∀ b ∈ bs, b.role = .input → b ∈ ins := by
  obtain ⟨outs, rfl, hvalues, houts⟩ := hout.bindings
  have hnone : ∀ b ∈ ins, ¬ b.role = .output := by
    intro b hb hrole
    have := hin.role b hb
    rw [hrole] at this
    split at this <;> cases this
  have hins : ins.filter (fun b => b.role == .output) = [] := by
    rw [List.filter_eq_nil_iff]
    intro b hb
    simpa using hnone b hb
  have houtsIn : outs.filter (fun b => b.role == .input) = [] := by
    rw [List.filter_eq_nil_iff]
    intro b hb
    simp [(houts b hb).1]
  have houtsOut : outs.filter (fun b => b.role == .output) = outs := by
    rw [List.filter_eq_self]
    intro b hb
    simp [(houts b hb).1]
  refine ⟨?_, ?_, ?_⟩
  · rw [List.filter_append, houtsIn, List.append_nil, Schedule.args, ← hin.values, List.filter_map]
    congr 1
    apply List.filter_congr
    intro b hb
    have hrole := hin.role b hb
    cases hscr : env.schedule.isScratch b.value with
    | true => simp [hscr, hrole]
    | false => simp [hscr, hrole]
  · rw [List.filter_append, hins, houtsOut, List.nil_append]
    exact hvalues
  · intro b hb hrole
    rcases List.mem_append.mp hb with hb | hb
    · exact hb
    · rw [(houts b hb).1] at hrole
      cases hrole

/-- A kernel whose inputs are right leaves its outputs' values where the outputs are bound. -/
theorem exec_bodyStep (hS : env.schedule.WellFormed) (hk : kid ∈ env.schedule.kernelIds)
    (hin : InputsBound env tier stream st₀ (env.schedule.kernel kid).presentInputs st₁ ins)
    (hout : OutputsBound env tier stream inPlace st₁ ins (env.schedule.kernel kid).outputs st₂ bs
      posts) (h : bodyStep env.schedule kid context event bs = some step)
    (hm : ∀ b ∈ ins, b.role = .input → m b.place = env.schedule.denote I b.value) :
    (∀ b ∈ step.reads, m b.place = env.schedule.denote I b.value) ∧
      execStep I m step = bodyMem I kid bs m := by
  obtain ⟨hargs, houts, hmem⟩ := filter_role_eq hin hout
  rcases bodyStep_cases hS hk hin hout h with ⟨-, rfl⟩ |
    ⟨ht, b, d, hinputs, houtputs, rfl, rfl, rfl⟩
  · have hreads : ∀ b ∈ bs.filter (fun b => b.role == .input),
        m b.place = env.schedule.denote I b.value := by
      intro b hb
      obtain ⟨hb, hrole⟩ := List.mem_filter.mp hb
      have hrole' : b.role = .input := by simpa using hrole
      exact hm b (hmem b hb hrole') hrole'
    refine ⟨hreads, ?_⟩
    have hxs : (bs.filter fun b => b.role == .input).map (fun b => m b.place) =
        (env.schedule.args kid).map (env.schedule.denote I) := by
      rw [← hargs, List.map_map]
      exact List.map_congr_left hreads
    show writeOutputs I _ _ (writeScratch I _ _ m) = _
    unfold writeOutputs writeScratch bodyMem scratchMem KernelStep.bindingsOf
    dsimp only
    rw [hxs]
    apply foldl_zipIdx_eq
    intro m' b j hbj
    have hget := List.mk_mem_zipIdx_iff_getElem?.mp hbj
    obtain ⟨hj, hbj'⟩ := List.getElem?_eq_some_iff.mp hget
    have hval : (env.schedule.kernel kid).outputs[j]? = some b.value := by
      rw [← houts, List.getElem?_map, hget]
      rfl
    obtain ⟨hj', hval'⟩ := List.getElem?_eq_some_iff.mp hval
    have hb : b.value ∈ (env.schedule.kernel kid).outputs := List.mem_of_getElem? hval
    have hidx : (env.schedule.kernel kid).outputs.idxOf b.value = j := by
      rw [← hval']
      exact (hS.outputs_nodup kid hk).idxOf_getElem j hj'
    rw [hS.denote_output I hk hb, hidx]
  · have hrole : b.role = .input := by
      rw [hin.role b (by simp), hS.copied_defined kid hk (Or.inr ht) b.value
        (by simp [Kernel.presentInputs, hinputs])]
      rfl
    have hb := hm b (by simp) hrole
    refine ⟨fun b' hb' => by rw [List.mem_singleton.mp hb']; exact hb, ?_⟩
    obtain ⟨outs, hbs, -, hdouts⟩ := hout.bindings
    have hd : d.role = .output := by
      have : outs = [d] := by simpa using hbs.symm
      exact (hdouts d (by simp [this])).1
    have hden : env.schedule.denote I d.value = env.schedule.denote I b.value := by
      have hscr := hS.copied_defined kid hk (Or.inr ht) b.value
        (by simp [Kernel.presentInputs, hinputs])
      have hargs' : env.schedule.args kid = [b.value] := by
        simp [Schedule.args, Kernel.presentInputs, hinputs, hscr]
      rw [hS.denote_output I hk (v := d.value) (by simp [houtputs]), hargs', houtputs]
      simpa using I.copies kid (env.schedule.denote I b.value) (Or.inr ht)
    show Function.update m d.place (m b.place) = _
    simp [bodyMem, scratchMem, hrole, hd, hden, hb]

/-! ### Writes outside the chunks -/

/-- The kernel takes over the caller's output buffer in which its input sits. -/
def TakesBuffer (env : SchedEnv) (st : SchedState) (kid : KernelId) (t : ValueId) : Prop :=
  ∃ x, InPlaceInput env.schedule kid x ∧ st.value2place x = some (.output t) ∧
    ¬ NeedsCopy env st (env.placement kid).tier x (.output t)

/-- The kernel writes an output to the caller's buffer of which the output is an alias, or has it
transferred there. -/
def Delivers (env : SchedEnv) (st : SchedState) (kid : KernelId) (t : ValueId) : Prop :=
  ∃ o ∈ (env.schedule.kernel kid).outputs, env.schedule.outputAliases o = some t ∧
    ∀ t', TakesBuffer env st kid t' → t' = t

/-- An update that takes over a place outside the chunks overwrites nothing that another kernel has
still to read, and nothing that the caller gets back at the end. -/
def UpdateSpares (env : SchedEnv) (st : SchedState) (kid : KernelId) : Prop :=
  ∀ idx x p, env.schedule.mustInPlaceInput kid = some idx →
    (env.schedule.kernel kid).inputs.getD idx none = some x → st.value2place x = some p →
    ¬ NeedsCopy env st (env.placement kid).tier x p → (∀ c, p ≠ .chunk c) →
    (∀ j ∈ env.schedule.kernelIds, ¬ st.Scheduled j → j ≠ kid →
      ∀ w ∈ (env.schedule.kernel j).presentInputs, st.value2place w ≠ some p) ∧
    ∀ w ∈ env.schedule.outputs, env.schedule.sourcePlace w ≠ some p

theorem inPlaceInput_unique {x y : ValueId} (hx : InPlaceInput env.schedule kid x)
    (hy : InPlaceInput env.schedule kid y) : x = y := by
  rcases hx with ⟨hfx, hx⟩ | ⟨idx, hidx, hx⟩
  · rcases hy with ⟨-, hy⟩ | ⟨idy, hidy, -⟩
    · have := hx.symm.trans hy
      simpa using this
    · rw [mustInPlaceInput_of_isForward hfx] at hidy
      cases hidy
  · rcases hy with ⟨hfy, -⟩ | ⟨idy, hidy, hy⟩
    · rw [mustInPlaceInput_of_isForward hfy] at hidx
      cases hidx
    · obtain rfl : idx = idy := by simpa using hidx.symm.trans hidy
      simpa using hx.symm.trans hy

/-- A reused place is that of the kernel's in-place input. -/
theorem InPlaceSource.input (hb : InputsBound env tier stream st₀
      (env.schedule.kernel kid).presentInputs st₁ ins) (hS : env.schedule.WellFormed)
    (hk : kid ∈ env.schedule.kernelIds) (h : InPlaceSource env kid st₁ ins (some p)) :
    ∃ b ∈ ins, InPlaceInput env.schedule kid b.value ∧ b.role = .input ∧ b.place = p ∧
      env.schedule.isScratch b.value = false ∧
      ((env.schedule.kernel kid).isForward = true → ∃ y,
        (env.schedule.kernel kid).inputs = [some b.value] ∧
        (env.schedule.kernel kid).outputs = [y]) := by
  cases h with
  | forward x y b hfwd hin hout hmem hx hlast =>
      have hdef : env.schedule.isScratch b.value = false := by
        rw [hx]
        exact hS.copied_defined kid hk (Or.inl hfwd) x (by simp [Kernel.presentInputs, hin])
      refine ⟨b, hmem, Or.inl ⟨hfwd, by simp [hin, hx]⟩, ?_, rfl, hdef, fun _ => ⟨y, ?_, hout⟩⟩
      · rw [hb.role b hmem, hdef]
        rfl
      · rw [hin, hx]
  | update idx x b hidx hin hmem hx =>
      have hdef : env.schedule.isScratch b.value = false := by
        rw [hx]
        exact hS.cache_defined kid hk idx hidx x hin
      refine ⟨b, hmem, Or.inr ⟨idx, hidx, by rw [hx]; exact hin⟩, ?_, rfl, hdef, fun hfwd => ?_⟩
      · rw [hb.role b hmem, hdef]
        rfl
      · rw [mustInPlaceInput_of_isForward hfwd] at hidx
        cases hidx

/-- An in-place input that is bound where it is, outside the chunks, gives the reused place. -/
theorem InPlaceSource.inPlace_eq {x : ValueId} (hsource : InPlaceSource env kid st₁ ins inPlace)
    (hS : env.schedule.WellFormed) (hk : kid ∈ env.schedule.kernelIds)
    (hb : InputsBound env (env.placement kid).tier stream st₀
      (env.schedule.kernel kid).presentInputs st₁ ins)
    (hx : InPlaceInput env.schedule kid x) (hchunk : ∀ c, p ≠ .chunk c)
    (hplace : st₀.value2place x = some p)
    (hno : ¬ NeedsCopy env st₀ (env.placement kid).tier x p) : inPlace = some p := by
  have hbind : ∀ b ∈ ins, b.role = .input → b.value = x → b.place = p := by
    rintro b hmem hrole rfl
    exact (hb.direct b hmem hrole p hchunk).mpr ⟨hplace, hno⟩
  cases hin : inPlace with
  | some q =>
      rw [hin] at hsource
      obtain ⟨b, hmem, hinput, hrole, rfl, -, -⟩ := hsource.input hb hS hk
      rw [hbind b hmem hrole (inPlaceInput_unique hinput hx)]
  | none =>
      rw [hin] at hsource
      cases hsource with
      | none hnoUpdate hfwd =>
          rcases hx with ⟨hf, hx⟩ | ⟨idx, hidx, -⟩
          · obtain ⟨b, hmem, hinputs, ⟨c, hc⟩, -⟩ := hfwd hf
            have hbx : b.value = x := by
              rw [hinputs] at hx
              simpa using hx
            have hrole : b.role = .input := by
              rw [hb.role b hmem, hS.copied_defined kid hk (Or.inl hf) b.value
                (by simp [Kernel.presentInputs, hinputs])]
              rfl
            exact absurd ((hbind b hmem hrole hbx).symm.trans hc) (hchunk c)
          · rw [hidx] at hnoUpdate
            cases hnoUpdate

/-- A kernel that takes over an output buffer has that buffer as its reused place. -/
theorem TakesBuffer.inPlace_eq {t : ValueId} (h : TakesBuffer env st₀ kid t)
    (hS : env.schedule.WellFormed) (hk : kid ∈ env.schedule.kernelIds)
    (hb : InputsBound env (env.placement kid).tier stream st₀
      (env.schedule.kernel kid).presentInputs st₁ ins)
    (hsource : InPlaceSource env kid st₁ ins inPlace) : inPlace = some (.output t) := by
  obtain ⟨x, hx, hplace, hno⟩ := h
  exact hsource.inPlace_eq hS hk hb hx (by simp) hplace hno

/-- What memory holds when the inputs `bs` are bound. -/
structure InputsHold (I : Interp env.schedule α) (m₀ : Mem α) (slots : List Nat) (st : SchedState)
    (bs : List ValueBinding) : Prop where
  exclusive : st.Exclusive slots
  reads : ReadsOk I st.steps m₀
  holds : Holds I (execSteps I st.steps m₀) st slots
  scratch : ∀ b ∈ bs, b.role = .workspace →
    st.value2place b.value = some b.place ∧ ∃ c, b.place = .chunk c

theorem InputsHold.next {b : ValueBinding} (h : InputsHold I m₀ slots st bs)
    (hled : Ledger ns slots pend leak held st) (hcase : InputCase env tier stream st v st' b)
    (hv : v ∈ slots) :
    InputsHold I m₀ slots st' (bs ++ [b]) := by
  obtain ⟨hreads, hholds⟩ := hcase.holds hled hv h.reads h.holds
  refine
    { exclusive := hcase.exclusive hled h.exclusive, reads := hreads, holds := hholds,
      scratch := ?_ }
  intro x hx hrole
  rcases List.mem_append.mp hx with hx | hx
  · obtain ⟨hplace, hc⟩ := h.scratch x hx hrole
    refine ⟨?_, hc⟩
    rw [hcase.value2place ?_]
    · exact hplace
    · by_cases hxv : x.value = v
      · right
        cases hscr : env.schedule.isScratch v with
        | false => rfl
        | true =>
            have hnone := hcase.unplaced hscr
            rw [← hxv, hplace] at hnone
            cases hnone
      · exact Or.inl hxv
  · obtain rfl := List.mem_singleton.mp hx
    cases hcase with
    | workspace c => exact ⟨Function.update_self _ _ _, c, rfl⟩
    | initializer => cases hrole
    | direct => cases hrole
    | cached => cases hrole
    | copied => cases hrole

/-- Filling the workspaces touches nothing that is still to be read. -/
theorem InputsHold.scratchMem (h : InputsHold I m₀ slots st bs) (kid : KernelId)
    (hslots : ∀ b ∈ bs, b.value ∈ slots)
    (hrole : ∀ b ∈ bs, b.role = .workspace → env.schedule.isScratch b.value = true) :
    Holds I (SchedState.scratchMem I kid bs (execSteps I st.steps m₀)) st slots := by
  unfold SchedState.scratchMem
  have key : ∀ (l : List ValueBinding) (m : Mem α), (∀ b ∈ l, b ∈ bs ∧ b.role = .workspace) →
      Holds I m st slots → Holds I (l.foldl (fun m b => Function.update m b.place
        (I.scratch kid ((env.schedule.args kid).map (env.schedule.denote I)) b.value)) m) st
        slots := by
    intro l
    induction l with
    | nil => exact fun m _ hm => hm
    | cons b l ih =>
        intro m hl hm
        obtain ⟨hb, hws⟩ := hl b List.mem_cons_self
        obtain ⟨hplace, c, hc⟩ := h.scratch b hb hws
        rw [List.foldl_cons, hc]
        refine ih _ (fun x hx => hl x (List.mem_cons_of_mem _ hx)) (hm.writeChunk ?_)
        intro w hw hdef hocc
        rw [hc] at hplace
        have hbw := h.exclusive b.value (hslots b hb) w hw c (Or.inl hplace) hocc
        rw [← hbw, hrole b hb hws] at hdef
        cases hdef
  refine key _ _ ?_ h.holds
  intro b hb
  obtain ⟨hb, hws⟩ := List.mem_filter.mp hb
  exact ⟨hb, by simpa using hws⟩

end SchedState

namespace MemoryAware

open SchedState

variable {env : SchedEnv} {st st₁ st₂ : SchedState} {kid stream : Nat} {leak : Nat → Nat}
  {α : Type*} {I : Interp env.schedule α} {m₀ : Mem α} {ins bs : List ValueBinding}
  {posts : List PostTransfer} {inPlace : Option AllocPlace} {done : List Nat} {o : ValueId}
  {p : AllocPlace} {a : ChunkAllocator} {first : Bool}

/-- What memory will hold after the kernel's step, when the outputs `done` are bound. -/
structure OutputsHold (I : Interp env.schedule α) (m₀ : Mem α) (st : SchedState) (kid stream : Nat)
    (done : List Nat) (st₂ : SchedState) (bs : List ValueBinding) (posts : List PostTransfer) :
    Prop where
  exclusive : st₂.Exclusive (laterSlots env st kid stream)
  start : done = [] →
    st₂.Exclusive ((env.schedule.kernel kid).presentInputs ++ laterSlots env st kid stream)
  reads : ReadsOk I st₂.steps m₀
  holds : Holds I (bodyMem I kid bs (execSteps I st₂.steps m₀)) st₂ (laterSlots env st kid stream)
  posts : ∀ pt ∈ posts, bodyMem I kid bs (execSteps I st₂.steps m₀) pt.src.place =
    env.schedule.denote I pt.src.value
  inputs : done = [] → ∀ b ∈ bs, b.role = .input →
    bodyMem I kid bs (execSteps I st₂.steps m₀) b.place = env.schedule.denote I b.value
  targets : ∀ w ∈ laterSlots env st kid stream, ∀ t, Delivers env st kid t →
    st₂.value2place w = some (.output t) → env.schedule.denote I w = env.schedule.denote I t

/-- What an output's buffer is worth when the output is an alias of it. -/
theorem denote_alias (hS : env.schedule.WellFormed) {t : ValueId}
    (h : env.schedule.outputAliases o = some t) :
    env.schedule.denote I o = env.schedule.denote I t :=
  ((hS.outputAliases_spec I).1 o t h).2

theorem OutputsHold.init (h : InputsHold I m₀
      ((env.schedule.kernel kid).presentInputs ++ laterSlots env st kid stream) st₁ ins)
    (hb : InputsBound env (env.placement kid).tier stream (entered env st kid stream)
      (env.schedule.kernel kid).presentInputs st₁ ins)
    (hdel : ∀ w ∈ laterSlots env st kid stream, ∀ t, Delivers env st kid t →
      st.value2place w = some (.output t) →
      env.schedule.denote I w = env.schedule.denote I t) :
    OutputsHold I m₀ st kid stream [] st₁ ins [] := by
  have hscratch : ∀ b ∈ ins, b.role = .workspace → env.schedule.isScratch b.value = true := by
    intro b hmem hrole
    have := hb.role b hmem
    rw [hrole] at this
    cases hscr : env.schedule.isScratch b.value with
    | true => rfl
    | false => simp [hscr] at this
  have hslots : ∀ b ∈ ins, b.value ∈
      (env.schedule.kernel kid).presentInputs ++ laterSlots env st kid stream := by
    intro b hmem
    rw [← hb.values]
    exact List.mem_append_left _ (List.mem_map_of_mem hmem)
  have hnone : ins.filter (fun b => b.role == .output) = [] := by
    rw [List.filter_eq_nil_iff]
    intro b hmem
    have := hb.role b hmem
    split at this <;> simp [this]
  have hbody : ∀ m : Mem α, bodyMem I kid ins m = scratchMem I kid ins m := by
    intro m
    simp [bodyMem, hnone]
  have hholds := h.scratchMem kid hslots hscratch
  refine
    { exclusive := h.exclusive.mono fun w hw => List.mem_append_right _ hw,
      start := fun _ => h.exclusive, reads := h.reads, holds := ?_, posts := by simp, inputs := ?_, targets := ?_ }
  · rw [hbody]
    exact hholds.mono fun w hw => List.mem_append_right _ hw
  · intro _ b hmem hrole
    rw [hbody]
    have hdef : env.schedule.isScratch b.value = false := by
      have := hb.role b hmem
      rw [hrole] at this
      cases hscr : env.schedule.isScratch b.value with
      | false => rfl
      | true => simp [hscr] at this
    exact hholds.located (hslots b hmem) hdef (hb.located b hmem hrole)
  · intro w hw t ht hplace
    cases hscr : env.schedule.isScratch w with
    | false =>
        rw [hb.frame w (Or.inl hscr)] at hplace
        exact hdel w hw t ht hplace
    | true =>
        by_cases hin : w ∈ (env.schedule.kernel kid).presentInputs
        · obtain ⟨b, hmem, rfl⟩ := List.mem_map.mp (hb.values ▸ hin)
          have hrole := hb.role b hmem
          rw [hscr] at hrole
          obtain ⟨hp, c, hc⟩ := h.scratch b hmem hrole
          rw [hp, hc] at hplace
          cases hplace
        · rw [hb.frame w (Or.inr hin)] at hplace
          exact hdel w hw t ht hplace

/-- A later value outside the chunks at the place that an update takes over. -/
theorem not_later_of_update (hspare : UpdateSpares env st kid)
    (hb : InputsBound env (env.placement kid).tier stream (entered env st kid stream)
      (env.schedule.kernel kid).presentInputs st₁ ins) {b : ValueBinding} (hmem : b ∈ ins)
    (hrole : b.role = .input) (hinput : InPlaceInput env.schedule kid b.value)
    (hfwd : (env.schedule.kernel kid).isForward = false) (hchunk : ∀ c, b.place ≠ .chunk c) :
    (∀ w ∈ laterSlots env st kid stream, st.value2place w ≠ some b.place) ∧
      ∀ w ∈ env.schedule.outputs, env.schedule.sourcePlace w ≠ some b.place := by
  obtain ⟨hplace, hno⟩ := (hb.direct b hmem hrole b.place hchunk).mp rfl
  rcases hinput with ⟨hf, -⟩ | ⟨idx, hidx, hin⟩
  · rw [hfwd] at hf
    cases hf
  · obtain ⟨hlater, hout⟩ := hspare idx b.value b.place hidx hin hplace hno hchunk
    refine ⟨fun w hw => ?_, hout⟩
    obtain ⟨j, hj, hun, hjk, hwj⟩ := mem_laterSlots.mp hw
    exact hlater j hj hun hjk w hwj

/-- One turn of the output loop. -/
theorem OutputsHold.next {ns : Nat} (hS : env.schedule.WellFormed)
    (hk : kid ∈ env.schedule.kernelIds)
    (hb : InputsBound env (env.placement kid).tier stream (entered env st kid stream)
      (env.schedule.kernel kid).presentInputs st₁ ins)
    (hsource : InPlaceSource env kid st₁ ins inPlace) (hlast : LastUse env st kid)
    (hspare : UpdateSpares env st kid) (hpre : done ++ [o] <+: (env.schedule.kernel kid).outputs)
    (hodone : o ∉ done)
    (hbound : OutputsBound env (env.placement kid).tier stream inPlace st₁ ins done st₂ bs posts)
    (hl₂ : Ledger ns ((env.schedule.kernel kid).presentInputs ++ laterSlots env st kid stream)
      (pendOf posts) leak none st₂)
    (hcase : OutputCase env (env.placement kid).tier stream inPlace st₂ o p a)
    (h : OutputsHold I m₀ st kid stream done st₂ bs posts) :
    OutputsHold I m₀ st kid stream (done ++ [o])
      { st₂ with
        allocator := a
        value2place := Function.update st₂.value2place o (some p) }
      (bs ++ [⟨o, .output, p, first⟩]) (posts ++ postTransferOf env.schedule o p) := by
  have ho : o ∈ (env.schedule.kernel kid).outputs := hpre.subset (by simp)
  -- in place, the kernel has one output, so that nothing is bound yet
  have hnil : ∀ q, inPlace = some q → done = [] ∧ (env.schedule.kernel kid).outputs = [o] := by
    rintro q rfl
    have hlen := hpre.length_le
    have hone := (hsource.binding hS hk hb).1
    rw [hone, List.length_append, List.length_singleton] at hlen
    obtain rfl : done = [] := List.eq_nil_of_length_eq_zero (by omega)
    have heq : [] ++ [o] = (env.schedule.kernel kid).outputs := hpre.eq_of_length (by simp [hone])
    exact ⟨rfl, heq.symm⟩
  -- the write of the output is harmless
  have hwrite : Holds I (Function.update (bodyMem I kid bs (execSteps I st₂.steps m₀)) p
      (env.schedule.denote I o)) st₂ (laterSlots env st kid stream) ∧
      ∀ pt ∈ posts, pt.src.place ≠ p := by
    cases hcase with
    | fresh c _ hin hno hzero =>
        refine ⟨h.holds.writeChunk fun w hw _ =>
          hl₂.not_occupied hzero (List.mem_append_right _ hw), ?_⟩
        intro pt hpt hsrc
        have hpend := (hl₂.zero hzero).2.1
        rw [pendOf, List.countP_eq_zero] at hpend
        simpa [hsrc] using hpend pt hpt
    | aliased t hin halias hhost =>
        refine ⟨h.holds.write ?_ ?_ ?_, ?_⟩
        · intro w hw _ hplace
          rw [denote_alias hS halias]
          refine h.targets w hw t ⟨o, ho, halias, fun t' ht' => ?_⟩ hplace
          have ht₁ : TakesBuffer env (entered env st kid stream) kid t' := ht'
          have hsome := ht₁.inPlace_eq hS hk hb hsource
          rw [hin] at hsome
          cases hsome
        · intro w hw _ s r hr hrp
          obtain ⟨c, hc, -⟩ := hl₂.copied w s r hr
          rw [hc] at hrp
          cases hrp
        · exact fun w _ hp => absurd rfl (Schedule.sourcePlace_not_output hp t)
        · intro pt hpt hsrc
          obtain ⟨_, _, q, _, _, hq, _, rfl⟩ := hbound.pending pt hpt
          obtain rfl : q = .output t := hsrc
          cases hq
    | inPlace _ _ hin =>
        obtain ⟨rfl, houts⟩ := hnil p hin
        have hposts : posts = [] := by
          rw [List.eq_nil_iff_forall_not_mem]
          intro pt hpt
          obtain ⟨w, hw, -⟩ := hbound.pending pt hpt
          cases hw
        refine ⟨?_, by simp [hposts]⟩
        rw [hin] at hsource
        obtain ⟨b, hmem, hinput, hrole, rfl, hdef, hfwd⟩ := hsource.input hb hS hk
        have hbs : b ∈ bs := by
          obtain ⟨outs, rfl, -, -⟩ := hbound.bindings
          exact List.mem_append_left _ hmem
        cases hf : (env.schedule.kernel kid).isForward with
        | true =>
            -- an alias: the output has the input's value, which is already there
            obtain ⟨y, hinputs, houtputs⟩ := hfwd hf
            have hden := hS.denote_forward I hk hf (x := b.value) (by simp [hinputs]) ho
            have hsame : Function.update (bodyMem I kid bs (execSteps I st₂.steps m₀)) b.place
                (env.schedule.denote I o) = bodyMem I kid bs (execSteps I st₂.steps m₀) := by
              rw [hden, ← h.inputs rfl b hbs hrole, Function.update_eq_self]
            rw [hsame]
            exact h.holds
        | false =>
            by_cases hchunk : ∃ c, b.place = .chunk c
            · obtain ⟨c, hc⟩ := hchunk
              rw [hc] at hsource ⊢
              obtain ⟨x, hx, hxlater, hxocc⟩ :=
                output_inPlace_last hS hk hl₂ hb hlast hbound hsource
              refine h.holds.writeChunk fun w hw _ hocc => ?_
              have hwx := h.start rfl w (List.mem_append_right _ hw) x (List.mem_append_left _ hx)
                c hocc hxocc
              exact hxlater (hwx ▸ hw)
            · simp only [not_exists] at hchunk
              obtain ⟨hlater, hout⟩ :=
                not_later_of_update hspare hb hmem hrole hinput hf hchunk
              refine h.holds.write ?_ ?_ ?_
              · intro w hw hwdef hplace
                rw [hbound.frame w (by simp), hb.frame w (Or.inl hwdef)] at hplace
                exact absurd hplace (hlater w hw)
              · intro w hw _ t r hr hrp
                obtain ⟨c, hc, -⟩ := hl₂.copied w t r hr
                exact absurd (hrp.symm.trans hc) (hchunk c)
              · exact fun w hw hp => absurd hp (hout w hw)
  obtain ⟨hholds, hposts⟩ := hwrite
  have hself : bodyMem I kid (bs ++ [⟨o, .output, p, first⟩]) (execSteps I st₂.steps m₀) p =
      env.schedule.denote I o := by
    rw [bodyMem_append_output, Function.update_self]
  refine
    { exclusive := output_exclusive hS hk hb hsource hlast hpre hbound hl₂ hcase h.start
        h.exclusive
      start := by simp
      reads := h.reads
      holds := ?_
      posts := ?_
      inputs := by simp
      targets := ?_ }
  · show Holds I (bodyMem I kid (bs ++ [⟨o, .output, p, first⟩]) (execSteps I st₂.steps m₀)) _ _
    refine Holds.enter ?_ a fun _ => hself
    rw [bodyMem_append_output]
    exact hholds
  · intro pt hpt
    rcases List.mem_append.mp hpt with hpt | hpt
    · show bodyMem I kid (bs ++ [⟨o, .output, p, first⟩]) (execSteps I st₂.steps m₀) _ = _
      rw [bodyMem_append_output, Function.update_of_ne (hposts pt hpt)]
      exact h.posts pt hpt
    · obtain ⟨t, -, -, rfl⟩ := mem_postTransferOf.mp hpt
      exact hself
  · intro w hw t ht hplace
    by_cases hwo : w = o
    · subst hwo
      have hp : p = .output t := by simpa using hplace
      subst hp
      -- the output sits in the buffer it is an alias of, or the kernel has no other output
      cases hcase with
      | aliased _ _ halias => exact denote_alias hS halias
      | inPlace _ _ hin =>
          obtain ⟨-, houts⟩ := hnil _ hin
          obtain ⟨o', ho', halias, -⟩ := ht
          rw [houts, List.mem_singleton] at ho'
          exact denote_alias hS (ho' ▸ halias)
    · exact h.targets w hw t ht (by simpa [Function.update_of_ne hwo] using hplace)

/-- The post transfers copy values from where they are to the buffers they are aliases of. -/
theorem posts_hold {slots : List Nat} (context : ExecutionContext)
    (hcopies : ∀ w t r, st₂.valueOnTier w t = some r → ∃ c, r.place = .chunk c) :
    ∀ (posts : List PostTransfer) (steps : List Step) (n : Nat),
      (∀ pt ∈ posts, (∀ t, pt.src.place ≠ .output t) ∧ ∃ t, pt.dst.place = .output t ∧
        env.schedule.denote I pt.src.value = env.schedule.denote I t ∧
        ∀ w ∈ slots, st₂.value2place w = some (.output t) →
          env.schedule.denote I w = env.schedule.denote I t) →
      (∀ pt ∈ posts, execSteps I steps m₀ pt.src.place = env.schedule.denote I pt.src.value) →
      ReadsOk I steps m₀ → Holds I (execSteps I steps m₀) st₂ slots →
      ReadsOk I (steps ++ postSteps context n posts) m₀ ∧
        Holds I (execSteps I (steps ++ postSteps context n posts) m₀) st₂ slots := by
  intro posts
  induction posts with
  | nil =>
      intro steps n _ _ hreads hm
      rw [postSteps, List.append_nil]
      exact ⟨hreads, hm⟩
  | cons pt posts ih =>
      intro steps n hposts hsrc hreads hm
      obtain ⟨-, t, hdst, hden, hlater⟩ := hposts pt List.mem_cons_self
      have hread := hsrc pt List.mem_cons_self
      have hmem : execSteps I (steps ++ [.transfer ⟨pt.src, pt.dst, context, some n⟩]) m₀ =
          Function.update (execSteps I steps m₀) (.output t) (env.schedule.denote I t) := by
        rw [execSteps_append, execSteps_singleton]
        simp only [execStep, hdst, hread, hden]
      rw [postSteps, List.append_cons]
      apply ih
      · exact fun q hq => hposts q (List.mem_cons_of_mem _ hq)
      · intro q hq
        rw [hmem, Function.update_of_ne ((hposts q (List.mem_cons_of_mem _ hq)).1 t)]
        exact hsrc q (List.mem_cons_of_mem _ hq)
      · refine hreads.concat fun b hb => ?_
        obtain rfl := List.mem_singleton.mp hb
        exact hread
      · rw [hmem]
        refine hm.write (fun w hw _ hp => hlater w hw hp) ?_
          (fun w _ hp => absurd rfl (Schedule.sourcePlace_not_output hp t))
        intro w _ _ s r hr hrp
        obtain ⟨c, hc⟩ := hcopies w s r hr
        rw [hc] at hrp
        cases hrp

/-- What holds of memory and of the places between two kernels. -/
structure Sound (env : SchedEnv) (I : Interp env.schedule α) (m₀ : Mem α) (st : SchedState) :
    Prop where
  exclusive : st.Exclusive (st.slots env.schedule)
  reads : ReadsOk I st.steps m₀
  holds : Holds I (execSteps I st.steps m₀) st (st.slots env.schedule)

/-- A post transfer's target is a buffer that the kernel delivers to. -/
theorem delivers_of_post (hS : env.schedule.WellFormed) (hk : kid ∈ env.schedule.kernelIds)
    (hb : InputsBound env (env.placement kid).tier stream (entered env st kid stream)
      (env.schedule.kernel kid).presentInputs st₁ ins)
    (hsource : InPlaceSource env kid st₁ ins inPlace)
    (hout : OutputsBound env (env.placement kid).tier stream inPlace st₁ ins
      (env.schedule.kernel kid).outputs st₂ bs posts)
    (ho : o ∈ (env.schedule.kernel kid).outputs) (hplace : st₂.value2place o = some p)
    (hp : isOutputPlace p = false) {t : ValueId}
    (halias : env.schedule.outputAliases o = some t) : Delivers env st kid t := by
  refine ⟨o, ho, halias, fun t' ht' => ?_⟩
  have ht₁ : TakesBuffer env (entered env st kid stream) kid t' := ht'
  have hq := hout.inherits _ (ht₁.inPlace_eq hS hk hb hsource) o ho
  rw [hplace] at hq
  obtain rfl : p = .output t' := by simpa using hq
  cases hp

/-- One kernel keeps memory sound. -/
theorem emission_sound (hS : env.schedule.WellFormed) (hp : Planned env st)
    (hl : Ledger env.numStreams (st.slots env.schedule) (pendOf []) leak none st)
    (hready : Ready env st kid) (hpick : pickStream env st kid = some stream)
    (hs : stream < env.numStreams) (hlast : LastUse env st kid) (hspare : UpdateSpares env st kid)
    (hdel : ∀ w ∈ laterSlots env st kid stream, ∀ t, Delivers env st kid t →
      st.value2place w = some (.output t) →
      env.schedule.denote I w = env.schedule.denote I t)
    (h : Sound env I m₀ st) :
    ∃ e : Emission, e.Of env st kid stream leak ∧
      Sound env I m₀ (e.final ⟨env.placement kid, stream⟩) := by
  have hslots : ∀ w ∈ (env.schedule.kernel kid).presentInputs ++ laterSlots env st kid stream,
      w ∈ st.slots env.schedule := fun w hw => (hready.slots_perm stream).mem_iff.mpr hw
  -- the waits change nothing
  have hwaits : ∀ s ∈ waits env st kid stream, ∃ w, s = .syncWait w :=
    fun s hs => (eq_syncWait_of_mem_waits hs).imp' _ fun _ h => h
  have hstart : InputsHold I m₀
      ((env.schedule.kernel kid).presentInputs ++ laterSlots env st kid stream)
      (entered env st kid stream) [] := by
    refine
      { exclusive := h.exclusive.mono hslots, reads := h.reads.append_waits hwaits, holds := ?_,
        scratch := by simp }
    rw [entered_steps, execSteps_append, execSteps_waits _ hwaits]
    exact (h.holds.mono hslots).congr rfl rfl
  obtain ⟨e, he, hin, hout⟩ := emitKernel_induct hS hp hl hready hpick hs
    (P := fun _ _ st₁ bs => InputsHold I m₀
      ((env.schedule.kernel kid).presentInputs ++ laterSlots env st kid stream) st₁ bs)
    (Q := fun _ _ done st₂ bs posts => OutputsHold I m₀ st kid stream done st₂ bs posts)
    hstart
    (fun _ _ _ _ _ _ _ _ hv hled hcase _ _ _ hP =>
      hP.next hled hcase (List.mem_append_left _ hv))
    (fun _ _ _ _ _ hb _ hP => OutputsHold.init hP hb hdel)
    (fun _ _ _ _ _ _ _ _ _ _ _ _ hpre hodone hled _ hcase hb hsource hbound hQ =>
      hQ.next hS hready.mem hb hsource hlast hspare hpre hodone hbound hled hcase)
  refine ⟨e, he, ?_⟩
  -- the kernel's step
  have hmem : ∀ b ∈ e.inputs, b.role = .input →
      execSteps I e.bound.steps m₀ b.place = env.schedule.denote I b.value := by
    intro b hb hrole
    have hdef : env.schedule.isScratch b.value = false := by
      have := he.inputsBound.role b hb
      rw [hrole] at this
      cases hscr : env.schedule.isScratch b.value with
      | false => rfl
      | true => simp [hscr] at this
    refine hin.holds.located (List.mem_append_left _ ?_) hdef (he.inputsBound.located b hb hrole)
    rw [← he.inputsBound.values]
    exact List.mem_map_of_mem hb
  obtain ⟨hreads, hexec⟩ :=
    exec_bodyStep hS hready.mem he.inputsBound he.outputsBound he.body hmem
  have hsteps := he.outputsBound.steps
  have hbody : execSteps I (e.placed.steps ++ [e.step]) m₀ =
      bodyMem I kid e.bindings (execSteps I e.placed.steps m₀) := by
    rw [execSteps_append, execSteps_singleton, hsteps, hexec]
  -- the post transfers
  obtain ⟨hreads', hholds'⟩ := @posts_hold env e.placed _ I m₀
    (laterSlots env st kid stream) ⟨env.placement kid, stream⟩
    (fun w t r hr => (he.placedLedger.copied w t r hr).imp fun _ hc => hc.1)
    e.posts (e.placed.steps ++ [e.step]) e.placed.nextEventId
    (by
      intro pt hpt
      obtain ⟨o, ho, p, t, hplace, hp, halias, rfl⟩ := he.outputsBound.pending pt hpt
      refine ⟨?_, t, rfl, denote_alias hS halias, fun w hw hwt => ?_⟩
      · intro t' ht'
        obtain rfl : p = .output t' := ht'
        cases hp
      · refine hout.targets w hw t ?_ hwt
        exact delivers_of_post hS hready.mem he.inputsBound he.source he.outputsBound ho hplace hp
          halias)
    (by rw [hbody]; exact hout.posts)
    (by
      refine hout.reads.concat fun b hb => ?_
      rw [hsteps]
      exact hreads b hb)
    (by rw [hbody]; exact hout.holds)
  rw [List.append_assoc] at hreads' hholds'
  have hfinal : Sound env I m₀ (e.final ⟨env.placement kid, stream⟩) := by
    constructor
    · rw [he.slots]
      exact hout.exclusive
    · exact hreads'
    · rw [he.slots]
      exact hholds'.congr rfl rfl
  exact hfinal

end MemoryAware
end NnEngine
