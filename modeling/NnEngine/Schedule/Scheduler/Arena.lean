import NnEngine.Tensor.Footprint
import NnEngine.Schedule.Scheduler.Finalize
import NnEngine.Schedule.Scheduler.Sharing

/-!
# Arenas

The chunks of an arena are laid out one after another, each from an aligned offset on, whatever the
run did.  That a value stays inside its chunk depends on its strides: a chunk is sized by
`storage_num_elements`, and an in-place kernel asks for no size at all.  `StridesFit` is what each
turn needs, and `Roomy` is what it then keeps.
-/

namespace NnEngine

/-! ### Layout -/

theorem le_alignUp (size : Nat) : size ≤ alignUp size := by
  unfold alignUp ALIGNMENT
  omega

theorem dvd_alignUp (size : Nat) : ALIGNMENT ∣ alignUp size :=
  Dvd.intro_left _ rfl

namespace SchedState

/-- Chunks laid out from an aligned offset on follow one another at aligned offsets. -/
theorem layoutArena_spec (a : ChunkAllocator) (i : Nat) :
    ∀ (owned : List Nat) (offset : Nat), ALIGNMENT ∣ offset →
      (layoutArena a i owned offset).1.map ChunkInfo.id = owned ∧
      offset ≤ (layoutArena a i owned offset).2 ∧
      (∀ info ∈ (layoutArena a i owned offset).1, info.arena = i ∧ info.size = a.size info.id ∧
        ALIGNMENT ∣ info.offset ∧ offset ≤ info.offset ∧
        info.offset + info.size ≤ (layoutArena a i owned offset).2) ∧
      (layoutArena a i owned offset).1.Pairwise fun c d => c.offset + c.size ≤ d.offset := by
  intro owned
  induction owned with
  | nil =>
      intro offset _
      exact ⟨rfl, Nat.le_refl _, by simp [layoutArena], List.Pairwise.nil⟩
  | cons c owned ih =>
      intro offset hoffset
      have hle := le_alignUp (a.chunk c).size
      obtain ⟨hids, htotal, hmem, hpair⟩ :=
        ih (offset + alignUp (a.chunk c).size) (dvd_add hoffset (dvd_alignUp _))
      simp only [layoutArena]
      refine ⟨by simp [hids], by omega, ?_, ?_⟩
      · intro info hinfo
        rcases List.mem_cons.mp hinfo with rfl | hinfo
        · exact ⟨rfl, rfl, hoffset, Nat.le_refl _, by dsimp only; omega⟩
        · obtain ⟨harena, hsize, hdvd, hoff, hend⟩ := hmem info hinfo
          exact ⟨harena, hsize, hdvd, by omega, hend⟩
      · refine List.pairwise_cons.mpr ⟨?_, hpair⟩
        intro info hinfo
        obtain ⟨-, -, -, hoff, -⟩ := hmem info hinfo
        dsimp only
        omega

/-- The chunks that `into_plan` lays out in arena `i`, and the arena's size. -/
def arenaLayout (a : ChunkAllocator) (i : Nat) : List ChunkInfo × Nat :=
  layoutArena a i (a.arena i).owned 0

theorem map_zipIdx_eq {β : Type*} (a : ChunkAllocator) (f : ArenaChunks → Nat → β) :
    (a.arena2chunks.zipIdx.map fun (ar, i) => f ar i) =
      (List.range a.arena2chunks.length).map fun i => f (a.arena i) i := by
  apply List.ext_getElem
  · simp
  · intro i h _
    have hi : i < a.arena2chunks.length := by simpa using h
    simp [ChunkAllocator.arena, hi]

theorem intoPlan_chunks (ns : Nat) (st : SchedState) : (intoPlan ns st).chunks =
    (List.range st.allocator.arena2chunks.length).flatMap fun i =>
      (arenaLayout st.allocator i).1 := by
  rw [List.flatMap_def]
  exact congrArg List.flatten
    (map_zipIdx_eq st.allocator fun ar i => (layoutArena st.allocator i ar.owned 0).1)

theorem intoPlan_arenas (ns : Nat) (st : SchedState) : (intoPlan ns st).arenas =
    (List.range st.allocator.arena2chunks.length).map fun i =>
      ⟨i, (st.allocator.arena i).tier, (arenaLayout st.allocator i).2⟩ :=
  map_zipIdx_eq st.allocator fun ar i =>
    (⟨i, ar.tier, (layoutArena st.allocator i ar.owned 0).2⟩ : ArenaInfo)

end SchedState

/-- The chunks of one arena occupy disjoint ranges of it, from aligned offsets on. -/
structure ArenaLayout (plan : ExecutionPlan) : Prop where
  arenas : (plan.arenas.map ArenaInfo.id).Nodup
  chunks : (plan.chunks.map ChunkInfo.id).Nodup
  aligned : ∀ c ∈ plan.chunks, c.offset % 256 = 0
  within : ∀ c ∈ plan.chunks, ∃ a ∈ plan.arenas, a.id = c.arena ∧ c.offset + c.size ≤ a.size
  disjoint : plan.chunks.Pairwise fun c d => c.arena = d.arena →
    c.offset + c.size ≤ d.offset ∨ d.offset + d.size ≤ c.offset

namespace SchedState

variable {ns ns' : Nat} {st : SchedState} {c : Nat}

/-- The plan lists every chunk of the allocator, with its final size. -/
theorem intoPlan_mem (ns' : Nat) (hinv : st.allocator.Inv ns none) (hc : c < st.allocator.allChunks.length) :
    ∃ info ∈ (intoPlan ns' st).chunks, info.id = c ∧ info.size = st.allocator.size c := by
  have harena := hinv.arena_lt c hc
  have howned : c ∈ (st.allocator.arena (st.allocator.arenaOf c)).owned := by
    rw [hinv.owned _ harena]
    exact List.mem_filter.mpr ⟨List.mem_range.mpr hc, by simp⟩
  obtain ⟨hids, -, hmem, -⟩ := layoutArena_spec st.allocator (st.allocator.arenaOf c)
    (st.allocator.arena (st.allocator.arenaOf c)).owned 0 (dvd_zero _)
  rw [← hids] at howned
  obtain ⟨info, hinfo, rfl⟩ := List.mem_map.mp howned
  refine ⟨info, ?_, rfl, (hmem info hinfo).2.1⟩
  rw [intoPlan_chunks, List.mem_flatMap]
  exact ⟨_, List.mem_range.mpr harena, hinfo⟩

theorem intoPlan_layout (hinv : st.allocator.Inv ns none) : ArenaLayout (intoPlan ns' st) := by
  have hspec : ∀ i, _ := fun i =>
    layoutArena_spec st.allocator i (st.allocator.arena i).owned 0 (dvd_zero _)
  have hof : ∀ info ∈ (intoPlan ns' st).chunks, ∃ i < st.allocator.arena2chunks.length,
      info ∈ (arenaLayout st.allocator i).1 := by
    intro info hinfo
    rw [intoPlan_chunks, List.mem_flatMap] at hinfo
    obtain ⟨i, hi, hinfo⟩ := hinfo
    exact ⟨i, List.mem_range.mp hi, hinfo⟩
  refine { arenas := ?_, chunks := ?_, aligned := ?_, within := ?_, disjoint := ?_ }
  · rw [intoPlan_arenas, List.map_map]
    exact (List.map_id _).symm ▸ List.nodup_range
  · rw [intoPlan_chunks, List.map_flatMap, List.nodup_flatMap]
    have howned : ∀ i < st.allocator.arena2chunks.length,
        (arenaLayout st.allocator i).1.map ChunkInfo.id =
          (List.range st.allocator.allChunks.length).filter
            fun c => st.allocator.arenaOf c = i := by
      intro i hi
      rw [← hinv.owned i hi]
      exact (hspec i).1
    constructor
    · intro i hi
      rw [howned i (List.mem_range.mp hi)]
      exact List.nodup_range.filter _
    · -- a chunk is owned by its own arena only
      apply List.nodup_range.imp_of_mem
      intro i j hi hj hij c hci hcj
      dsimp only at hci hcj
      rw [howned i (List.mem_range.mp hi)] at hci
      rw [howned j (List.mem_range.mp hj)] at hcj
      have hi' : st.allocator.arenaOf c = i := by simpa using (List.mem_filter.mp hci).2
      have hj' : st.allocator.arenaOf c = j := by simpa using (List.mem_filter.mp hcj).2
      exact hij (hi'.symm.trans hj')
  · intro info hinfo
    obtain ⟨i, -, hinfo⟩ := hof info hinfo
    exact Nat.mod_eq_zero_of_dvd ((hspec i).2.2.1 info hinfo).2.2.1
  · intro info hinfo
    obtain ⟨i, hi, hinfo⟩ := hof info hinfo
    obtain ⟨harena, -, -, -, hend⟩ := (hspec i).2.2.1 info hinfo
    rw [intoPlan_arenas]
    exact ⟨_, List.mem_map_of_mem (List.mem_range.mpr hi), harena.symm, hend⟩
  · rw [intoPlan_chunks, List.pairwise_flatMap]
    refine ⟨fun i _ => (hspec i).2.2.2.imp fun h _ => Or.inl h, ?_⟩
    refine List.nodup_range.imp ?_
    intro i j hij c hc d hd heq
    have hci := ((hspec i).2.2.1 c hc).1
    have hdj := ((hspec j).2.2.1 d hd).1
    exact absurd (hci.symm.trans (heq.trans hdj)) hij

end SchedState

/-! ### Capacity -/

/-- All bindings of a step. -/
def Step.bindings : Step → List ValueBinding
  | .kernel k => k.bindings
  | .transfer t => [t.src, t.dst]
  | .syncWait _ => []

/-- Every value bound to a chunk touches only bytes inside the chunk. -/
def Capacity (S : Schedule) (plan : ExecutionPlan) : Prop :=
  ∀ step ∈ plan.steps, ∀ b ∈ step.bindings, ∀ c, b.place = .chunk c →
    ∃ info ∈ plan.chunks, info.id = c ∧
      ∀ n, (S.valueType b.value).Touches n → n < info.size

namespace SchedState

variable {S : Schedule} {env : SchedEnv} {st st' : SchedState} {a a' : ChunkAllocator}
  {tier : MemoryTier} {v : ValueId} {c stream : Nat}

/-- The chunk exists and holds every byte that the value touches. -/
def Fits (S : Schedule) (a : ChunkAllocator) (v : ValueId) (c : Nat) : Prop :=
  c < a.allChunks.length ∧ (S.valueType v).extent ≤ a.size c

/-- Chunks do not shrink. -/
theorem Fits.mono {freed : Nat → Prop} (h : Fits S a v c) (hev : a.Evolves stream freed a') :
    Fits S a' v c :=
  ⟨Nat.lt_of_lt_of_le h.1 hev.length, h.2.trans (hev.size c)⟩

def BindingsFit (S : Schedule) (a : ChunkAllocator) (bs : List ValueBinding) : Prop :=
  ∀ b ∈ bs, ∀ c, b.place = .chunk c → Fits S a b.value c

theorem BindingsFit.mono {freed : Nat → Prop} {bs : List ValueBinding} (h : BindingsFit S a bs)
    (hev : a.Evolves stream freed a') : BindingsFit S a' bs :=
  fun b hb c hc => (h b hb c hc).mono hev

theorem BindingsFit.concat {bs : List ValueBinding} {b : ValueBinding} (h : BindingsFit S a bs)
    (hb : ∀ c, b.place = .chunk c → Fits S a b.value c) : BindingsFit S a (bs ++ [b]) := by
  intro x hx
  rcases List.mem_append.mp hx with hx | hx
  · exact h x hx
  · rw [List.mem_singleton.mp hx]
    exact hb

/-- Every value placed in a chunk, copied to one or bound to one by a step fits. -/
structure Roomy (S : Schedule) (st : SchedState) : Prop where
  places : ∀ v c, st.value2place v = some (.chunk c) → Fits S st.allocator v c
  copies : ∀ v t r c, st.valueOnTier v t = some r → r.place = .chunk c → Fits S st.allocator v c
  steps : ∀ step ∈ st.steps, BindingsFit S st.allocator step.bindings

instance (env : SchedEnv) (st : SchedState) (tier : MemoryTier) (v : ValueId) (p : AllocPlace) :
    Decidable (NeedsCopy env st tier v p) :=
  inferInstanceAs (Decidable (_ ∧ _))

/-- The size of the chunk in which a turn finds an input: of the chunk that the value is placed in
or that its copy is, and the value's own size when the turn makes the copy. -/
def chunkBytes (env : SchedEnv) (st : SchedState) (tier : MemoryTier) (x : ValueId) : Option Nat :=
  match st.value2place x with
  | none => none
  | some p =>
      if NeedsCopy env st tier x p then
        match st.valueOnTier x tier with
        | none => some (env.schedule.valueByteSize x)
        | some r =>
            match r.place with
            | .chunk c => some (st.allocator.size c)
            | _ => none
      else
        match p with
        | .chunk c => some (st.allocator.size c)
        | _ => none

theorem chunkBytes_direct {x : ValueId} (hp : st.value2place x = some (.chunk c))
    (hno : ¬ NeedsCopy env st tier x (.chunk c)) :
    chunkBytes env st tier x = some (st.allocator.size c) := by
  rw [chunkBytes, hp]
  dsimp only
  rw [if_neg hno]

theorem chunkBytes_cached {x : ValueId} {p : AllocPlace} {r : TransferRecord}
    (hp : st.value2place x = some p) (hneeds : NeedsCopy env st tier x p)
    (hr : st.valueOnTier x tier = some r) (hc : r.place = .chunk c) :
    chunkBytes env st tier x = some (st.allocator.size c) := by
  rw [chunkBytes, hp]
  dsimp only
  rw [if_pos hneeds, hr]
  dsimp only
  rw [hc]

theorem chunkBytes_copied {x : ValueId} {p : AllocPlace} (hp : st.value2place x = some p)
    (hneeds : NeedsCopy env st tier x p) (hr : st.valueOnTier x tier = none) :
    chunkBytes env st tier x = some (env.schedule.valueByteSize x) := by
  rw [chunkBytes, hp]
  dsimp only
  rw [if_pos hneeds, hr]

/-- The value's strides touch no byte past its size. -/
def StridesInSize (S : Schedule) (v : ValueId) : Prop :=
  (S.valueType v).extent ≤ S.valueByteSize v

instance (S : Schedule) (v : ValueId) : Decidable (StridesInSize S v) :=
  inferInstanceAs (Decidable (_ ≤ _))

/-- The kernel takes over the place in which it finds its input `x`. -/
def TakesOver (env : SchedEnv) (st : SchedState) (kid : KernelId) (x : ValueId) : Prop :=
  InPlaceInput env.schedule kid x ∧
    (chunkBytes env st (env.placement kid).tier x = none ∨
      ((env.schedule.kernel kid).isForward = true → st.valueRemainingUses x = 1))

/-- What a turn needs for its values to stay inside their chunks.  A value that a chunk is allocated
for, be it a workspace, a copied input or an output that takes over no place and is written to no
caller's buffer, touches no byte past its own size.  An output that takes over the chunk of an
input touches no byte past that chunk. -/
structure StridesFit (env : SchedEnv) (st : SchedState) (kid : KernelId) : Prop where
  workspace : ∀ v ∈ (env.schedule.kernel kid).presentInputs, env.schedule.isScratch v = true →
    StridesInSize env.schedule v
  copy : ∀ v ∈ (env.schedule.kernel kid).presentInputs,
    Copies env st (env.placement kid).tier v → st.valueOnTier v (env.placement kid).tier = none →
    StridesInSize env.schedule v
  output : ∀ o ∈ (env.schedule.kernel kid).outputs, (∀ x, ¬ TakesOver env st kid x) →
    env.schedule.outputAliases o = none ∨ (env.placement kid).tier ≠ .hostArena →
    StridesInSize env.schedule o
  inPlace : ∀ x, TakesOver env st kid x →
    ∀ n ∈ chunkBytes env st (env.placement kid).tier x, ∀ o ∈ (env.schedule.kernel kid).outputs,
      (env.schedule.valueType o).extent ≤ n

/-- What the input loop keeps: the values stay inside their chunks, and a chunk in which an input is
bound has at least the size that the turn started from. -/
structure InputsFit (env : SchedEnv) (st₀ : SchedState) (tier : MemoryTier) (st : SchedState)
    (bs : List ValueBinding) : Prop where
  roomy : Roomy env.schedule st
  bound : BindingsFit env.schedule st.allocator bs
  copied : ∀ v r c, st.valueOnTier v tier = some r → r.place = .chunk c →
    st₀.valueOnTier v tier = none → env.schedule.valueByteSize v ≤ st.allocator.size c
  bytes : ∀ b ∈ bs, b.role = .input → ∀ c, b.place = .chunk c →
    ∃ n ∈ chunkBytes env st₀ tier b.value, n ≤ st.allocator.size c

/-- The values stay inside their chunks when the allocator only grows and the new entries fit. -/
theorem Roomy.grow {freed : Nat → Prop} (h : Roomy S st)
    (hev : st.allocator.Evolves stream freed st'.allocator)
    (hplaces : ∀ v c, st'.value2place v = some (.chunk c) →
      st.value2place v = some (.chunk c) ∨ Fits S st'.allocator v c)
    (hcopies : ∀ v t r c, st'.valueOnTier v t = some r → r.place = .chunk c →
      st.valueOnTier v t = some r ∨ Fits S st'.allocator v c)
    (hsteps : ∀ step ∈ st'.steps, step ∈ st.steps ∨
      BindingsFit S st'.allocator step.bindings) : Roomy S st' where
  places := fun v c hc => (hplaces v c hc).elim (fun h' => (h.places v c h').mono hev) id
  copies := fun v t r c hr hc =>
    (hcopies v t r c hr hc).elim (fun h' => (h.copies v t r c h' hc).mono hev) id
  steps := fun step hs => (hsteps step hs).elim (fun h' => (h.steps step h').mono hev) id

/-- One turn of the input loop. -/
theorem InputsFit.step {st₀ st' : SchedState} {b : ValueBinding} {ns : Nat} {done : List Nat}
    {bs : List ValueBinding} (hb : InputsBound env tier stream st₀ done st bs)
    (hinv : st₀.allocator.Inv ns none)
    (hplaced : ∀ v c, st₀.value2place v = some (.chunk c) → c < st₀.allocator.allChunks.length)
    (hws : env.schedule.isScratch v = true → StridesInSize env.schedule v)
    (hcopy : Copies env st₀ tier v → st₀.valueOnTier v tier = none → StridesInSize env.schedule v)
    (h : InputCase env tier stream st v st' b) (hfit : InputsFit env st₀ tier st bs) :
    InputsFit env st₀ tier st' (bs ++ [b]) := by
  have hev := h.evolves
  have hbytes : ∀ x ∈ bs, x.role = .input → ∀ c, x.place = .chunk c →
      ∃ n ∈ chunkBytes env st₀ tier x.value, n ≤ st'.allocator.size c := by
    intro x hx hrole c hc
    obtain ⟨n, hn, hle⟩ := hfit.bytes x hx hrole c hc
    exact ⟨n, hn, hle.trans (hev.size c)⟩
  have hcopied : ∀ w r c, st.valueOnTier w tier = some r → r.place = .chunk c →
      st₀.valueOnTier w tier = none → env.schedule.valueByteSize w ≤ st'.allocator.size c :=
    fun w r c hr hc hnone => (hfit.copied w r c hr hc hnone).trans (hev.size c)
  -- the place and the copies of a value that carries one, seen from the start of the turn
  have hstart : env.schedule.isScratch v = false → ∀ p, st.value2place v = some p →
      st₀.value2place v = some p ∧ (NeedsCopy env st tier v p ↔ NeedsCopy env st₀ tier v p) := by
    intro hdef p hp
    have hp₀ := (hb.frame v (Or.inl hdef)).symm.trans hp
    exact ⟨hp₀, hb.needsCopy_iff hinv fun c hc => hplaced v c (hc ▸ hp₀)⟩
  have hlast : ∀ {x : ValueBinding}, (x.role = .input → ∀ c, x.place = .chunk c →
      ∃ n ∈ chunkBytes env st₀ tier x.value, n ≤ st'.allocator.size c) → ∀ y ∈ bs ++ [x],
      y.role = .input → ∀ c, y.place = .chunk c →
      ∃ n ∈ chunkBytes env st₀ tier y.value, n ≤ st'.allocator.size c := by
    intro x hx y hy
    rcases List.mem_append.mp hy with hy | hy
    · exact hbytes y hy
    · rw [List.mem_singleton.mp hy]
      exact hx
  cases h with
  | initializer hinit =>
      exact
        { roomy := hfit.roomy, bound := hfit.bound.concat (by simp), copied := hfit.copied,
          bytes := hlast (by simp) }
  | workspace c a first hscratch hzero hsource hev' hsize hlt =>
      have hc : Fits env.schedule a v c := ⟨hlt, (hws hscratch).trans hsize⟩
      refine
        { roomy := hfit.roomy.grow hev' ?_ (fun _ _ _ _ hr _ => Or.inl hr) fun _ hs => Or.inl hs,
          bound := (hfit.bound.mono hev').concat ?_, copied := hcopied, bytes := hlast (by simp) }
      · intro w d hd
        by_cases hw : w = v
        · subst hw
          obtain rfl : c = d := by simpa using hd
          exact Or.inr hc
        · exact Or.inl (by simpa [Function.update_of_ne hw] using hd)
      · intro d hd
        obtain rfl : c = d := by simpa using hd
        exact hc
  | direct p a first hinit hdef hplace hno hev' =>
      refine
        { roomy := hfit.roomy.grow hev' (fun _ _ hd => Or.inl hd) (fun _ _ _ _ hr _ => Or.inl hr)
            fun _ hs => Or.inl hs,
          bound := (hfit.bound.mono hev').concat ?_, copied := hcopied, bytes := hlast ?_ }
      · rintro c rfl
        exact (hfit.roomy.places v c hplace).mono hev'
      · rintro - c rfl
        obtain ⟨hp₀, hneeds⟩ := hstart hdef _ hplace
        exact ⟨st₀.allocator.size c, chunkBytes_direct hp₀ (mt hneeds.mpr hno),
          (hb.evolves.size c).trans (hev'.size c)⟩
  | cached p r a first hinit hdef hplace hneeds hr hchunk hev' =>
      refine
        { roomy := hfit.roomy.grow hev' (fun _ _ hd => Or.inl hd) (fun _ _ _ _ hr _ => Or.inl hr)
            fun s hs => ?_,
          bound := (hfit.bound.mono hev').concat ?_, copied := hcopied, bytes := hlast ?_ }
      · refine (List.mem_append.mp hs).imp_right fun hs => ?_
        unfold copyWait at hs
        split at hs
        · rw [List.mem_singleton.mp hs]
          simp [BindingsFit, Step.bindings]
        · cases hs
      · intro c hc
        exact (hfit.roomy.copies v tier r c hr hc).mono hev'
      · intro _ c hc
        obtain ⟨hp₀, hiff⟩ := hstart hdef _ hplace
        cases hr₀ : st₀.valueOnTier v tier with
        | none =>
            exact ⟨env.schedule.valueByteSize v, chunkBytes_copied hp₀ (hiff.mp hneeds) hr₀,
              hcopied v r c hr hc hr₀⟩
        | some r₀ =>
            obtain rfl : r₀ = r := by simpa using (hb.copies v tier r₀ hr₀).symm.trans hr
            exact ⟨st₀.allocator.size c, chunkBytes_cached hp₀ (hiff.mp hneeds) hr₀ hc,
              (hb.evolves.size c).trans (hev'.size c)⟩
  | copied p c a first srcFirst dstFirst hinit hdef hplace hneeds hr hzero hsource hev' hsize hlt =>
      obtain ⟨hp₀, hiff⟩ := hstart hdef _ hplace
      have hr₀ : st₀.valueOnTier v tier = none := by
        cases hr₀ : st₀.valueOnTier v tier with
        | none => rfl
        | some r₀ =>
            rw [hb.copies v tier r₀ hr₀] at hr
            cases hr
      have hc : Fits env.schedule a v c :=
        ⟨hlt, (hcopy ⟨hinit, hdef, p, hp₀, hiff.mp hneeds⟩ hr₀).trans hsize⟩
      have hcopies : ∀ w t r', Function.update st.valueOnTier v (Function.update (st.valueOnTier v)
          tier (some ⟨.chunk c, st.nextEventId, stream⟩)) w t = some r' →
          st.valueOnTier w t = some r' ∨ w = v ∧ r'.place = .chunk c := by
        intro w t r' hr'
        by_cases hw : w = v
        · subst hw
          by_cases ht : t = tier
          · subst ht
            simp only [Function.update_self, Option.some.injEq] at hr'
            exact Or.inr ⟨rfl, by rw [← hr']⟩
          · simp only [Function.update_self, Function.update_of_ne ht] at hr'
            exact Or.inl hr'
        · simp only [Function.update_of_ne hw] at hr'
          exact Or.inl hr'
      refine
        { roomy := hfit.roomy.grow hev' (fun _ _ hd => Or.inl hd) ?_ ?_,
          bound := (hfit.bound.mono hev').concat ?_, copied := ?_, bytes := hlast ?_ }
      · intro w t r' d hr' hd
        refine (hcopies w t r' hr').imp_right ?_
        rintro ⟨rfl, hplace'⟩
        obtain rfl : c = d := by simpa using hplace'.symm.trans hd
        exact hc
      · intro s hs
        refine (List.mem_append.mp hs).imp_right fun hs => ?_
        rw [List.mem_singleton.mp hs]
        intro x hx d hd
        simp only [Step.bindings, List.mem_cons, List.not_mem_nil, or_false] at hx
        rcases hx with rfl | rfl
        · obtain rfl : p = .chunk d := hd
          exact (hfit.roomy.places v d hplace).mono hev'
        · obtain rfl : c = d := by simpa using hd
          exact hc
      · intro d hd
        obtain rfl : c = d := by simpa using hd
        exact hc
      · intro w r' d hr' hd hnone
        rcases hcopies w tier r' hr' with hold | ⟨rfl, hplace'⟩
        · exact hcopied w r' d hold hd hnone
        · obtain rfl : c = d := by simpa using hplace'.symm.trans hd
          exact hsize
      · intro _ d hd
        obtain rfl : c = d := by simpa using hd
        exact ⟨env.schedule.valueByteSize v, chunkBytes_copied hp₀ (hiff.mp hneeds) hr₀, hsize⟩

/-- What the output loop keeps. -/
structure OutputsFit (env : SchedEnv) (tier : MemoryTier) (kid : KernelId)
    (inPlace : Option AllocPlace) (st : SchedState) (bs : List ValueBinding) : Prop where
  roomy : Roomy env.schedule st
  bound : BindingsFit env.schedule st.allocator bs
  taken : ∀ c, inPlace = some (.chunk c) → ∀ o ∈ (env.schedule.kernel kid).outputs,
    Fits env.schedule st.allocator o c
  fresh : inPlace = none → ∀ o ∈ (env.schedule.kernel kid).outputs,
    env.schedule.outputAliases o = none ∨ tier ≠ .hostArena → StridesInSize env.schedule o

/-- One turn of the output loop. -/
theorem OutputsFit.step {inPlace : Option AllocPlace} {bs : List ValueBinding} {kid : Nat}
    {o : ValueId} {p : AllocPlace} (first : Bool) (ho : o ∈ (env.schedule.kernel kid).outputs)
    (hcase : OutputCase env tier stream inPlace st o p a)
    (hfit : OutputsFit env tier kid inPlace st bs) :
    OutputsFit env tier kid inPlace
      { st with
        allocator := a
        value2place := Function.update st.value2place o (some p) }
      (bs ++ [⟨o, .output, p, first⟩]) := by
  obtain ⟨freed, hev, hnew⟩ : ∃ freed, st.allocator.Evolves stream freed a ∧
      ∀ c, p = .chunk c → Fits env.schedule a o c := by
    cases hcase with
    | inPlace _ _ hin hev =>
        refine ⟨_, hev, ?_⟩
        rintro c rfl
        exact (hfit.taken c hin o ho).mono hev
    | aliased t => exact ⟨_, .refl stream _, by simp⟩
    | fresh c _ hin hno _ _ hev hsize hlt =>
        refine ⟨_, hev, fun d hd => ?_⟩
        obtain rfl : c = d := by simpa using hd
        exact ⟨hlt, (hfit.fresh hin o ho hno).trans hsize⟩
  refine
    { roomy := hfit.roomy.grow hev ?_ (fun _ _ _ _ hr _ => Or.inl hr) fun _ hs => Or.inl hs,
      bound := (hfit.bound.mono hev).concat hnew,
      taken := fun c hc w hw => (hfit.taken c hc w hw).mono hev, fresh := hfit.fresh }
  intro w c hc
  by_cases hw : w = o
  · subst hw
    exact Or.inr (hnew c (by simpa using hc))
  · exact Or.inl (by simpa [Function.update_of_ne hw] using hc)

end SchedState

namespace MemoryAware

open SchedState

variable {S : Schedule} {numStreams : Nat} {placement : KernelId → Device} {s : Scheduler}
  {env : SchedEnv} {st : SchedState} {kid stream : Nat} {leak : Nat → Nat}

/-- Where the output loop starts, the place taken over has room for the outputs. -/
theorem outputsFit_start {st₁ : SchedState} {ins : List ValueBinding} {inPlace : Option AllocPlace}
    (hS : env.schedule.WellFormed) (hk : kid ∈ env.schedule.kernelIds)
    (hb : InputsBound env (env.placement kid).tier stream (entered env st kid stream)
      (env.schedule.kernel kid).presentInputs st₁ ins)
    (hsource : InPlaceSource env kid st₁ ins inPlace) (hstrides : StridesFit env st kid)
    (hfit : InputsFit env (entered env st kid stream) (env.placement kid).tier st₁ ins) :
    OutputsFit env (env.placement kid).tier kid inPlace st₁ ins := by
  have huses : st₁.valueRemainingUses = st.valueRemainingUses := hb.uses
  have hbytes : ∀ x, chunkBytes env (entered env st kid stream) (env.placement kid).tier x =
      chunkBytes env st (env.placement kid).tier x := fun _ => rfl
  have hrole : ∀ b ∈ ins, env.schedule.isScratch b.value = false → b.role = .input := by
    intro b hmem hdef
    rw [hb.role b hmem, hdef]
    rfl
  refine { roomy := hfit.roomy, bound := hfit.bound, taken := ?_, fresh := ?_ }
  · rintro c rfl o ho
    -- the binding whose chunk is taken over
    have key : ∀ b ∈ ins, b.place = .chunk c → env.schedule.isScratch b.value = false →
        TakesOver env st kid b.value → Fits env.schedule st₁.allocator o c := by
      intro b hmem hplace hdef htakes
      obtain ⟨n, hn, hle⟩ := hfit.bytes b hmem (hrole b hmem hdef) c hplace
      rw [hbytes] at hn
      exact ⟨(hfit.bound b hmem c hplace).1, (hstrides.inPlace b.value htakes n hn o ho).trans hle⟩
    generalize hp : AllocPlace.chunk c = p at hsource
    cases hsource with
    | forward x y b hfwd hin hout hmem hx hlast =>
        subst hx
        have hx' : b.value ∈ (env.schedule.kernel kid).presentInputs := by
          simp [Kernel.presentInputs, hin]
        refine key b hmem hp.symm (hS.copied_defined kid hk (Or.inl hfwd) _ hx')
          ⟨Or.inl ⟨hfwd, by simp [hin]⟩, Or.inr fun _ => ?_⟩
        rw [← huses]
        exact hlast c hp.symm
    | update idx x b hidx hin hmem hx =>
        subst hx
        refine key b hmem hp.symm (hS.cache_defined kid hk idx hidx _ hin)
          ⟨Or.inr ⟨idx, hidx, hin⟩, Or.inr fun hfwd => ?_⟩
        rw [mustInPlaceInput_of_isForward hfwd] at hidx
        cases hidx
  · rintro rfl o ho hno
    refine hstrides.output o ho ?_ hno
    rintro x ⟨hx, htakes⟩
    cases hsource with
    | none hmust hfwd =>
        rcases hx with ⟨hf, hx⟩ | ⟨idx, hidx, -⟩
        · obtain ⟨b, hmem, hinputs, ⟨c, hc⟩, hone⟩ := hfwd hf
          obtain rfl : b.value = x := by
            rw [hinputs] at hx
            simpa using hx
          have hx' : b.value ∈ (env.schedule.kernel kid).presentInputs := by
            simp [Kernel.presentInputs, hinputs]
          obtain ⟨n, hn, -⟩ := hfit.bytes b hmem
            (hrole b hmem (hS.copied_defined kid hk (Or.inl hf) _ hx')) c hc
          rw [hbytes] at hn
          rcases htakes with hnone | hlast
          · rw [hnone] at hn
            cases hn
          · rw [huses] at hone
            exact hone (hlast hf)
        · rw [hidx] at hmust
          cases hmust

/-- A turn whose strides fit keeps the values inside their chunks. -/
theorem emission_roomy (hS : env.schedule.WellFormed) (hp : Planned env st)
    (hl : Ledger env.numStreams (st.slots env.schedule) (pendOf []) leak none st)
    (hready : Ready env st kid) (hpick : pickStream env st kid = some stream)
    (hs : stream < env.numStreams) (hstrides : StridesFit env st kid)
    (hroomy : Roomy env.schedule st) :
    ∃ e : Emission, e.Of env st kid stream leak ∧
      Roomy env.schedule (e.final ⟨env.placement kid, stream⟩) := by
  have hinv : (entered env st kid stream).allocator.Inv env.numStreams none := hl.inv
  have hstart : InputsFit env (entered env st kid stream) (env.placement kid).tier
      (entered env st kid stream) [] :=
    { roomy := hroomy.grow (.refl stream _) (fun _ _ h => Or.inl h) (fun _ _ _ _ h _ => Or.inl h)
        (fun step hstep => (List.mem_append.mp hstep).imp_right fun hwait => by
          obtain ⟨event, rfl⟩ := eq_syncWait_of_mem_waits hwait
          simp [BindingsFit, Step.bindings]),
      bound := by simp [BindingsFit],
      copied := fun v r c hr _ hnone => absurd (hnone.symm.trans hr) (by simp),
      bytes := by simp }
  obtain ⟨e, he, -, hout⟩ := emitKernel_induct hS hp hl hready hpick hs
    (P := fun _ _ st₁ bs =>
      InputsFit env (entered env st kid stream) (env.placement kid).tier st₁ bs)
    (Q := fun _ inPlace _ st₂ bs _ =>
      OutputsFit env (env.placement kid).tier kid inPlace st₂ bs)
    hstart
    (fun leak₁ leak₂ done st₁ st₁' bs v b hv hled hcase hled' hor hbound hfit =>
      hfit.step hbound hinv (fun w c hc => (hroomy.places w c hc).1)
        (hstrides.workspace v hv) (hstrides.copy v hv) hcase)
    (fun leak' inPlace st₁ bs hled hbound hsource hfit =>
      outputsFit_start hS hready.mem hbound hsource hstrides hfit)
    (fun leak' inPlace st₁ ins done st₂ bs posts o p a first hpre hodone hled hnone hcase hb
        hsource hbound hfit =>
      hfit.step first (hpre.subset (by simp)) hcase)
  refine ⟨e, he, hout.roomy.grow he.evolves (fun _ _ h => Or.inl h) (fun _ _ _ _ h _ => Or.inl h)
    fun step hstep => ?_⟩
  have hplaces : ∀ v c, e.placed.value2place v = some (.chunk c) →
      Fits env.schedule e.allocator v c :=
    fun v c hc => (hout.roomy.places v c hc).mono he.evolves
  have hmem : step ∈ e.placed.steps ++
      e.step :: postSteps ⟨env.placement kid, stream⟩ e.placed.nextEventId e.posts := hstep
  simp only [List.mem_append, List.mem_cons] at hmem
  rcases hmem with hold | rfl | hpost
  · exact Or.inl hold
  · right
    have hbound : BindingsFit env.schedule e.allocator e.bindings := hout.bound.mono he.evolves
    rcases bodyStep_cases hS hready.mem he.inputsBound he.outputsBound he.body with
      ⟨-, hstep⟩ | ⟨-, b, d, -, -, -, hbs, hstep⟩
    · rw [hstep]
      exact hbound
    · rw [hstep]
      rw [hbs] at hbound
      exact hbound
  · right
    obtain ⟨pt, hpt, event, rfl⟩ := mem_postSteps hpost
    obtain ⟨o, -, p, t, hplace, -, -, rfl⟩ := he.outputsBound.pending pt hpt
    intro b hb c hc
    simp only [Step.bindings, List.mem_cons, List.not_mem_nil, or_false] at hb
    rcases hb with rfl | rfl
    · obtain rfl : p = .chunk c := hc
      exact hplaces o c hplace
    · cases hc

/-- Before the run no value is in a chunk. -/
theorem roomy_new : Roomy S (Scheduler.new S numStreams placement).toSchedState where
  places := fun _ c hc => absurd rfl (Schedule.sourcePlace_not_chunk hc c)
  copies := by
    intro v t r c hr
    cases hr
  steps := by
    intro step hstep
    cases hstep

theorem Reachable.roomy (hS : S.WellFormed)
    (hC : RunMeets S numStreams placement (StridesFit (MemoryAware.env S numStreams placement)))
    (h : Reachable S numStreams placement s) : Roomy S s.toSchedState := by
  obtain ⟨-, -, -, -, hroomy⟩ := h.induct hS hC (I := fun st _ => Roomy S st) roomy_new
    (fun st kid stream leak hp hl hready hpick hs hstrides hroomy =>
      emission_roomy hS hp hl hready hpick hs hstrides hroomy)
  exact hroomy

/-- Whatever the schedule, the chunks of an arena are laid out apart from each other. -/
theorem plan_layout (hS : S.WellFormed) (numStreams : Nat) (placement : KernelId → Device) :
    ∃ plan, build S numStreams placement = some plan ∧ ArenaLayout plan := by
  obtain ⟨s, hs, -, hbuild⟩ := build_spec hS numStreams placement
  obtain ⟨-, -, leak, hl⟩ := hs.good hS
  exact ⟨_, hbuild, intoPlan_layout hl.inv⟩

/-- In a run whose turns fit their strides, every value stays inside the chunk it is bound to. -/
theorem plan_capacity (hS : S.WellFormed)
    (hC : RunMeets S numStreams placement (StridesFit (MemoryAware.env S numStreams placement))) :
    ∃ plan, build S numStreams placement = some plan ∧ ArenaLayout plan ∧ Capacity S plan := by
  obtain ⟨s, hs, hall, hbuild⟩ := build_spec hS numStreams placement
  obtain ⟨-, -, leak, hl⟩ := hs.good hS
  have hroomy := hs.roomy hS hC
  refine ⟨_, hbuild, intoPlan_layout hl.inv, fun step hstep b hb c hc => ?_⟩
  have hfits : Fits S s.allocator b.value c := by
    rcases List.mem_append.mp hstep with hold | hfin
    · exact hroomy.steps step hold b hb c hc
    · obtain ⟨v, -, p, event, hund, -, -, rfl⟩ := mem_finalSteps hfin
      simp only [Step.bindings, List.mem_cons, List.not_mem_nil, or_false] at hb
      rcases hb with rfl | rfl
      · obtain rfl : p = .chunk c := hc
        unfold undelivered at hund
        split at hund
        · cases hund
        · exact hroomy.places v c (Option.filter_eq_some_iff.mp hund).1
      · cases hc
  obtain ⟨info, hinfo, hid, hsize⟩ := intoPlan_mem (streamsFor S numStreams placement) hl.inv hfits.1
  refine ⟨info, hinfo, hid, (ResolvedTensorType.extent_le_iff _ _).mp ?_⟩
  rw [hsize]
  exact hfits.2

/-- No value touches a byte past its size, and no output that takes a place over touches more than
the input does. -/
def FootprintsFit (S : Schedule) : Prop :=
  (∀ v, StridesInSize S v) ∧ ∀ kid ∈ S.kernelIds, ∀ x, InPlaceInput S kid x →
    ∀ o ∈ (S.kernel kid).outputs, (S.valueType o).extent ≤ (S.valueType x).extent

theorem stridesFit_of_roomy (env : SchedEnv) (hfp : FootprintsFit env.schedule) (hk : kid ∈ env.schedule.kernelIds)
    (hroomy : Roomy env.schedule st) : StridesFit env st kid where
  workspace := fun v _ _ => hfp.1 v
  copy := fun v _ _ _ => hfp.1 v
  output := fun o _ _ _ => hfp.1 o
  inPlace := by
    rintro x ⟨hx, -⟩ n hn o ho
    refine (hfp.2 kid hk x hx o ho).trans ?_
    unfold chunkBytes at hn
    cases hplace : st.value2place x with
    | none => simp [hplace] at hn
    | some p =>
        rw [hplace] at hn
        dsimp only at hn
        split at hn
        · split at hn
          · obtain rfl := Option.some.inj hn
            exact hfp.1 x
          · rename_i r hr
            split at hn
            · rename_i c hc
              obtain rfl := Option.some.inj hn
              exact (hroomy.copies x _ r c hr hc).2
            · cases hn
        · split at hn
          · obtain rfl := Option.some.inj hn
            exact (hroomy.places x _ hplace).2
          · cases hn

/-- Types whose footprints fit make every turn fit, whatever the order of the kernels. -/
theorem runMeets_stridesFit (hS : S.WellFormed) (hfp : FootprintsFit S) (numStreams : Nat)
    (placement : KernelId → Device) :
    RunMeets S numStreams placement (StridesFit (MemoryAware.env S numStreams placement)) := by
  intro s kid hs hpick
  obtain ⟨-, hq, -, -, hroomy⟩ := hs.induct hS (C := fun _ _ => True) (fun _ _ _ _ => trivial)
    (I := fun st _ => Roomy S st) roomy_new
    (fun st kid stream leak hp hl hready hpick hs _ hroomy =>
      emission_roomy hS hp hl hready hpick hs
        (stridesFit_of_roomy (MemoryAware.env S numStreams placement) hfp hready.mem hroomy)
        hroomy)
  exact stridesFit_of_roomy (MemoryAware.env S numStreams placement) hfp
    ((hq.ready kid).mp (minBy?_mem hpick)).mem hroomy

/-- A `Reinterpret` takes over the chunk of its input. -/
def reinterpretInPlace : Schedule where
  inputs := [0]
  outputs := [3]
  initializers := []
  sessionStates := []
  kernels := [.unary .reLU 0 1, .unary (.reinterpret [.reshape [4] [2, 2]]) 1 2,
    .unary (.softmax ⟨-1⟩) 2 3]
  valueType := fun v => .new (.float .F32) (if v = 2 then [2, 2] else [4])

theorem reinterpretInPlace_fits : FootprintsFit reinterpretInPlace := by
  refine ⟨fun v => ResolvedTensorType.new_extent_le _ _, ?_⟩
  intro kid hk x hx o ho
  have hextent : ∀ v, (reinterpretInPlace.valueType v).extent = 16 := by
    intro v
    unfold reinterpretInPlace
    dsimp only
    split <;> rfl
  rw [hextent, hextent]

theorem reinterpretInPlace_capacity : ∃ plan,
    build reinterpretInPlace 1 (fun _ => .CPU) = some plan ∧ ArenaLayout plan ∧
      Capacity reinterpretInPlace plan :=
  plan_capacity (by decide) (runMeets_stridesFit (by decide) reinterpretInPlace_fits 1 fun _ => .CPU)

theorem reinterpretInPlace_layout : ∃ plan,
    build reinterpretInPlace 2 (fun _ => .CUDA) = some plan ∧ ArenaLayout plan :=
  plan_layout (by decide) 2 _

/-- A `Reinterpret` broadcasts one element over four while its input is still to be read. -/
def broadcastOfReLU : Schedule where
  inputs := [0]
  outputs := [3]
  initializers := []
  sessionStates := []
  kernels := [.unary .reLU 0 1, .unary (.reinterpret [.broadcast [1] [4]]) 1 2,
    { inputs := [some 2, some 1], outputs := [3],
      body := .elementWises [(.add, [.input 0, .input 1])] }]
  valueType := fun v =>
    if v = 2 then ⟨.float .F32, [4], [0]⟩
    else .new (.float .F32) (if v = 3 then [4] else [1])

/-- The broadcast value gets a chunk of no bytes. -/
theorem broadcastOfReLU_not_capacity : broadcastOfReLU.WellFormed ∧
    ∃ plan, build broadcastOfReLU 1 (fun _ => .CPU) = some plan ∧
      ¬ Capacity broadcastOfReLU plan := by
  refine ⟨by decide, _, rfl, fun h => ?_⟩
  obtain ⟨info, hinfo, hid, hin⟩ := h (.kernel ⟨1, ⟨.CPU, 0⟩,
    [⟨1, .input, .chunk 0, false⟩, ⟨2, .output, .chunk 1, true⟩], some 1⟩) (by decide)
    ⟨2, .output, .chunk 1, true⟩ (by decide) 1 rfl
  have hsize : ∀ info ∈ ([⟨0, 0, 4, 0⟩, ⟨1, 0, 0, 256⟩] : List ChunkInfo),
      info.id = 1 → info.size = 0 := by decide
  have htouch : (broadcastOfReLU.valueType 2).Touches 0 :=
    ⟨[0], .cons (by decide) .nil, by decide, by decide⟩
  have hlt := hin 0 htouch
  rw [hsize info hinfo hid] at hlt
  exact Nat.lt_irrefl 0 hlt

end MemoryAware

end NnEngine
