import NnEngine.Schedule.Scheduler.Ledger

/-!
# What binding a kernel can do

`InputCase` and `OutputCase` list what one turn of the two loops of `bind_kernel` does to the
scheduler's state; `bindInput_cases` and `bindOutput_cases` prove that the lists are complete and
move the ledger.  `bindInputs_induct`, `bindOutputs_induct`, `postTransfers_induct` and
`consumeInputs_induct` carry an invariant through a whole loop.
-/

namespace NnEngine
namespace SchedState

variable {env : SchedEnv} {st : SchedState} {ns stream : Nat} {slots : List Nat}
  {pend leak : Nat → Nat} {held : Option Nat} {tier : MemoryTier} {v o : ValueId}

/-- The value has to be copied to be read on the tier. -/
def NeedsCopy (env : SchedEnv) (st : SchedState) (tier : MemoryTier) (v : ValueId)
    (p : AllocPlace) : Prop :=
  needsTransfer env st p tier = true ∧ isHostScalar env.schedule v = false

/-- Binding the value on the tier reads or makes a copy. -/
def Copies (env : SchedEnv) (st : SchedState) (tier : MemoryTier) (v : ValueId) : Prop :=
  v ∉ env.schedule.initializers ∧ env.schedule.isScratch v = false ∧
    ∃ p, st.value2place v = some p ∧ NeedsCopy env st tier v p

/-- The wait for a copy that another stream made. -/
def copyWait (tier : MemoryTier) (stream : StreamId) (r : TransferRecord) : List Step :=
  if r.stream ≠ stream then [.syncWait ⟨⟨tierDevice tier, stream⟩, r.event⟩] else []

/-- One turn of the input loop. -/
inductive InputCase (env : SchedEnv) (tier : MemoryTier) (stream : Nat) (st : SchedState)
    (v : ValueId) : SchedState → ValueBinding → Prop
  | initializer (hinit : v ∈ env.schedule.initializers) :
      InputCase env tier stream st v st ⟨v, .input, .initializer v, false⟩
  | workspace (c : Nat) (a : ChunkAllocator) (first : Bool)
      (hscratch : env.schedule.isScratch v = true) (hzero : st.allocator.liveUses c = 0)
      (hsource : (∃ i, c ∈ st.allocator.freeList i stream) ∨ st.allocator.allChunks.length ≤ c)
      (hev : st.allocator.Evolves stream (fun _ => False) a)
      (hsize : env.schedule.valueByteSize v ≤ a.size c) (hlt : c < a.allChunks.length)
      (hnone : st.value2place v = none) :
      InputCase env tier stream st v
        { st with
          allocator := a
          value2place := Function.update st.value2place v (some (.chunk c)) }
        ⟨v, .workspace, .chunk c, first⟩
  | direct (p : AllocPlace) (a : ChunkAllocator) (first : Bool)
      (hinit : v ∉ env.schedule.initializers) (hdef : env.schedule.isScratch v = false)
      (hplace : st.value2place v = some p) (hno : ¬ NeedsCopy env st tier v p)
      (hev : st.allocator.Evolves stream (fun _ => False) a) :
      InputCase env tier stream st v { st with allocator := a } ⟨v, .input, p, first⟩
  | cached (p : AllocPlace) (r : TransferRecord) (a : ChunkAllocator) (first : Bool)
      (hinit : v ∉ env.schedule.initializers) (hdef : env.schedule.isScratch v = false)
      (hplace : st.value2place v = some p) (hcopy : NeedsCopy env st tier v p)
      (hr : st.valueOnTier v tier = some r) (hchunk : ∃ c, r.place = .chunk c)
      (hev : st.allocator.Evolves stream (fun _ => False) a) :
      InputCase env tier stream st v
        { st with
          allocator := a
          steps := st.steps ++ copyWait tier stream r }
        ⟨v, .input, r.place, first⟩
  | copied (p : AllocPlace) (c : Nat) (a : ChunkAllocator) (first srcFirst dstFirst : Bool)
      (hinit : v ∉ env.schedule.initializers) (hdef : env.schedule.isScratch v = false)
      (hplace : st.value2place v = some p) (hcopy : NeedsCopy env st tier v p)
      (hr : st.valueOnTier v tier = none) (hzero : st.allocator.liveUses c = 0)
      (hsource : (∃ i, c ∈ st.allocator.freeList i stream) ∨ st.allocator.allChunks.length ≤ c)
      (hev : st.allocator.Evolves stream (fun _ => False) a)
      (hsize : env.schedule.valueByteSize v ≤ a.size c) (hlt : c < a.allChunks.length) :
      InputCase env tier stream st v
        { st with
          allocator := a
          nextEventId := st.nextEventId + 1
          steps := st.steps ++ [.transfer
            { src := ⟨v, .input, p, srcFirst⟩
              dst := ⟨v, .output, .chunk c, dstFirst⟩
              context := ⟨tierDevice tier, stream⟩
              recordsEvent := some st.nextEventId }]
          valueOnTier := Function.update st.valueOnTier v (Function.update (st.valueOnTier v) tier
            (some ⟨.chunk c, st.nextEventId, stream⟩)) }
        ⟨v, .input, .chunk c, first⟩

/-- Placing a value adds its slots to the count of its chunk. -/
theorem readsAt_place (hnone : st.value2place v = none) (p : AllocPlace) (l : List Nat) (d : Nat) :
    readsAt { st with value2place := Function.update st.value2place v (some p) } l d =
      st.readsAt l d + if p = .chunk d then l.count v else 0 := by
  induction l with
  | nil => simp [readsAt]
  | cons w l ih =>
      simp only [readsAt] at ih ⊢
      rw [List.countP_cons, List.countP_cons, List.count_cons, ih]
      by_cases hw : w = v
      · subst hw
        by_cases hp : p = .chunk d
        · simp [hnone, hp]
          omega
        · simp [hnone, hp]
      · have hbeq : (w == v) = false := by simpa using hw
        simp only [Function.update_of_ne hw, hbeq]
        split <;> simp
        omega

/-- Moving a value from no place to a place that has its uses pending. -/
theorem Ledger.place (p : AllocPlace) (hnone : st.value2place v = none)
    (h : Ledger ns slots (bumpAt pend p (slots.count v)) leak held st) :
    Ledger ns slots pend leak held
      { st with value2place := Function.update st.value2place v (some p) } where
  inv := h.inv
  uses := h.uses
  balance := by
    intro d
    have hbal := h.balance d
    rw [readsAt_place hnone]
    show st.allocator.liveUses d = _
    cases p with
    | chunk c =>
        by_cases hd : d = c
        · subst hd
          simp only [bumpAt, bump_self] at hbal
          simp
          omega
        · have : ¬ AllocPlace.chunk c = .chunk d := by simpa using Ne.symm hd
          simp only [bumpAt, bump_of_ne _ _ hd] at hbal
          simp only [if_neg this]
          omega
    | sessionState _ => simpa [bumpAt] using hbal
    | initializer _ => simpa [bumpAt] using hbal
    | input _ => simpa [bumpAt] using hbal
    | output _ => simpa [bumpAt] using hbal
  copied := h.copied

/-- A fresh chunk for a value that had no place, with the value's uses. -/
theorem Ledger.allocPlace (h : Ledger env.numStreams slots pend leak none st)
    (hs : stream < env.numStreams) (hnone : st.value2place v = none) (tier : MemoryTier)
    (size : Nat) :
    ∃ a c, st.allocChunk env tier size stream (st.valueRemainingUses v) =
        ({ st with allocator := a }, c) ∧
      Allocated tier size stream c st { st with allocator := a } ∧
      Ledger env.numStreams slots pend leak (some c)
        { st with
          allocator := a
          value2place := Function.update st.value2place v (some (.chunk c)) } := by
  obtain ⟨halloc, hled⟩ := h.allocChunk tier size hs (st.valueRemainingUses v)
  generalize st.allocChunk env tier size stream (st.valueRemainingUses v) = r at halloc hled
  obtain ⟨st₁, c⟩ := r
  obtain ⟨a, rfl, -⟩ := halloc.step.exists
  refine ⟨a, c, rfl, halloc, ?_⟩
  rw [h.uses v] at hled
  have hled' : Ledger env.numStreams slots (bumpAt pend (.chunk c) (slots.count v)) leak (some c)
      { st with allocator := a } := hled
  exact Ledger.place (.chunk c) (by exact hnone) hled'

/-- The copying branch of `ensure_value_on_tier`. -/
theorem Ledger.copy (h : Ledger env.numStreams slots pend leak none st)
    (hs : stream < env.numStreams) (tier : MemoryTier) (v : ValueId) (p : AllocPlace)
    (hneeds : NeedsCopy env st tier v p) (hr : st.valueOnTier v tier = none) :
    ∃ a c srcFirst dstFirst, ensureValueOnTier env st v p tier stream =
        ({ st with
            allocator := a
            nextEventId := st.nextEventId + 1
            steps := st.steps ++ [.transfer
              { src := ⟨v, .input, p, srcFirst⟩
                dst := ⟨v, .output, .chunk c, dstFirst⟩
                context := ⟨tierDevice tier, stream⟩
                recordsEvent := some st.nextEventId }]
            valueOnTier := Function.update st.valueOnTier v (Function.update (st.valueOnTier v) tier
              (some ⟨.chunk c, st.nextEventId, stream⟩)) }, .chunk c) ∧
      Allocated tier (env.schedule.valueByteSize v) stream c st { st with allocator := a } ∧
      Ledger env.numStreams slots pend (bump leak c 1) none
        (ensureValueOnTier env st v p tier stream).1 := by
  obtain ⟨halloc, hled⟩ := h.allocChunk tier (env.schedule.valueByteSize v) hs 1
  obtain ⟨hneeds, hscalar⟩ := hneeds
  unfold ensureValueOnTier
  simp only [hneeds, hscalar, Bool.not_true, Bool.false_eq_true, if_false, hr]
  generalize SchedState.allocChunk env st tier (env.schedule.valueByteSize v) stream 1 = r at halloc hled
  obtain ⟨st₁, c⟩ := r
  obtain ⟨a, rfl, -⟩ := halloc.step.exists
  dsimp only at halloc hled ⊢
  have hlive := hled.balance c
  rw [bump_self] at hlive
  have hled₁ := (hled.settle (by omega)).forget
  -- a fresh event, and the two first-use marks
  have hled₂ : Ledger env.numStreams slots pend (bump leak c 1) none
      (freshEvent { st with allocator := a }).1 :=
    hled₁.congr rfl rfl rfl rfl
  obtain ⟨hmark, hled₃, -⟩ := hled₂.markPlace p stream
  have hev₃ : (freshEvent { st with allocator := a }).2 = st.nextEventId := rfl
  generalize hst₂ : (freshEvent { st with allocator := a }).1 = st₂ at *
  generalize SchedState.markPlace st₂ p = r at hmark hled₃
  obtain ⟨st₃, srcFirst⟩ := r
  obtain ⟨a₃, rfl, hev⟩ := hmark.exists
  obtain ⟨hmark', hled₄, -⟩ := hled₃.markPlace (.chunk c) stream
  dsimp only at hmark' hled₄ ⊢
  generalize SchedState.markPlace { st₂ with allocator := a₃ } (.chunk c) = r at hmark' hled₄
  obtain ⟨st₄, dstFirst⟩ := r
  obtain ⟨a₄, rfl, hev'⟩ := hmark'.exists
  subst hst₂
  refine ⟨a₄, c, srcFirst, dstFirst, rfl, ?_, ?_⟩
  · have hall := hev.trans hev'
    have hchunk := hall.chunkTier hled₂.inv halloc.lt
    exact
      { step := ⟨rfl, halloc.step.evolves.trans hall⟩
        zero := halloc.zero
        lt := Nat.lt_of_lt_of_le halloc.lt hall.length
        size := halloc.size.trans (hall.size c)
        tier := hchunk.trans halloc.tier
        source := halloc.source }
  · refine { inv := hled₄.inv, uses := hled₄.uses, balance := hled₄.balance, copied := ?_ }
    intro w t r hr'
    by_cases hw : w = v
    · subst hw
      by_cases ht : t = tier
      · subst ht
        simp only [pushStep, Function.update_self, Option.some.injEq] at hr'
        subst hr'
        exact ⟨c, rfl, by simp⟩
      · simp only [pushStep, Function.update_self, Function.update_of_ne ht] at hr'
        exact hled₄.copied w t r hr'
    · simp only [pushStep, Function.update_of_ne hw] at hr'
      exact hled₄.copied w t r hr'

/-- The input loop does one of five things, and keeps the balance. -/
theorem bindInput_cases {st' : SchedState} {bs bs' : List ValueBinding}
    (h : Ledger env.numStreams slots pend leak none st) (hs : stream < env.numStreams)
    (hv : v ∈ slots) (hscratch : env.schedule.isScratch v = true → st.value2place v = none)
    (heq : bindInput env tier stream (st, bs) v = some (st', bs')) :
    ∃ b leak', bs' = bs ++ [b] ∧ InputCase env tier stream st v st' b ∧
      Ledger env.numStreams slots pend leak' none st' ∧ (∀ c, leak c ≤ leak' c) ∧
      (leak' = leak ∨ Copies env st tier v) := by
  unfold bindInput at heq
  dsimp only at heq
  by_cases hinit : v ∈ env.schedule.initializers
  · have hcontains : env.schedule.initializers.contains v = true := by simpa using hinit
    simp only [hcontains, if_true, Option.some.injEq, Prod.mk.injEq] at heq
    obtain ⟨rfl, rfl⟩ := heq
    exact ⟨_, leak, rfl, .initializer hinit, h, fun _ => Nat.le_refl _, Or.inl rfl⟩
  have hcontains : env.schedule.initializers.contains v = false := by simpa using hinit
  have hscr : env.schedule.isScratch v = env.schedule.isWorkspace v := by
    rw [Schedule.isScratch, hcontains, Bool.not_false, Bool.true_and]
  simp only [hcontains, Bool.false_eq_true, if_false] at heq
  by_cases hws : env.schedule.isWorkspace v = true
  · -- a workspace: a fresh chunk
    obtain ⟨a, c, halloc, hspec, hled⟩ :=
      h.allocPlace hs (hscratch (hscr.trans hws)) tier (env.schedule.valueByteSize v)
    simp only [hws, if_true, halloc] at heq
    have hlive := hled.live_of_slot hv (c := c) (by simp)
    obtain ⟨hmark, hled', -⟩ := (hled.settle hlive).markPlace (.chunk c) stream
    generalize markPlace _ _ = r at heq hmark hled'
    obtain ⟨st₂, first⟩ := r
    obtain ⟨a', rfl, hev⟩ := hmark.exists
    simp only [Option.some.injEq, Prod.mk.injEq] at heq
    obtain ⟨rfl, rfl⟩ := heq
    refine ⟨_, leak, rfl, ?_, hled', fun _ => Nat.le_refl _, Or.inl rfl⟩
    exact .workspace c a' first (hscr.trans hws) hspec.zero hspec.source
      (hspec.step.evolves.trans hev) (hspec.size.trans (hev.size c))
      (Nat.lt_of_lt_of_le hspec.lt hev.length) (hscratch (hscr.trans hws))
  have hws' : env.schedule.isWorkspace v = false := by simpa using hws
  have hdef : env.schedule.isScratch v = false := hscr.trans hws'
  simp only [hws', Bool.false_eq_true, if_false] at heq
  cases hplace : st.value2place v with
  | none => simp [hplace] at heq
  | some p =>
      simp only [hplace] at heq
      by_cases hneeds : NeedsCopy env st tier v p
      · cases hr : st.valueOnTier v tier with
        | some r =>
            obtain ⟨c, hrc, hleak⟩ := h.copied v tier r hr
            obtain ⟨hstep, hled⟩ := h.addUses (Or.inl (h.live_of_copy hr hrc)) 1 stream
            have hensure : ensureValueOnTier env st v p tier stream =
                ({ st with
                    allocator := st.allocator.addUses c 1
                    steps := st.steps ++ copyWait tier stream r }, r.place) := by
              obtain ⟨hn, hscalar⟩ := hneeds
              unfold ensureValueOnTier copyWait
              simp only [hn, hscalar, Bool.not_true, Bool.false_eq_true, if_false, hr, hrc]
              split <;> simp [pushStep]
            rw [hensure] at heq
            have hled₁ : Ledger env.numStreams slots pend (bump leak c 1) none
                { st with
                  allocator := st.allocator.addUses c 1
                  steps := st.steps ++ copyWait tier stream r } :=
              hled.forget.congr rfl rfl rfl rfl
            obtain ⟨hmark, hled₂, -⟩ := hled₁.markPlace r.place stream
            dsimp only at heq
            generalize markPlace _ _ = q at heq hmark hled₂
            obtain ⟨st₂, first⟩ := q
            obtain ⟨a', rfl, hev⟩ := hmark.exists
            simp only [Option.some.injEq, Prod.mk.injEq] at heq
            obtain ⟨rfl, rfl⟩ := heq
            refine ⟨_, _, rfl, ?_, hled₂, le_bump leak c 1, Or.inr ⟨hinit, hdef, p, hplace, hneeds⟩⟩
            exact .cached p r a' first hinit hdef hplace hneeds hr ⟨c, hrc⟩ (hstep.evolves.trans hev)
        | none =>
            obtain ⟨a, c, srcFirst, dstFirst, hensure, hspec, hled⟩ := h.copy hs tier v p hneeds hr
            rw [hensure] at heq hled
            obtain ⟨hmark, hled', -⟩ := hled.markPlace (.chunk c) stream
            dsimp only at heq hmark hled'
            generalize markPlace _ _ = q at heq hmark hled'
            obtain ⟨st₂, first⟩ := q
            obtain ⟨a', rfl, hev⟩ := hmark.exists
            simp only [Option.some.injEq, Prod.mk.injEq] at heq
            obtain ⟨rfl, rfl⟩ := heq
            refine ⟨_, _, rfl, ?_, hled', le_bump leak c 1, Or.inr ⟨hinit, hdef, p, hplace, hneeds⟩⟩
            exact .copied p c a' first srcFirst dstFirst hinit hdef hplace hneeds hr hspec.zero
              hspec.source (hspec.step.evolves.trans hev) (hspec.size.trans (hev.size c))
              (Nat.lt_of_lt_of_le hspec.lt hev.length)
      · have hensure : ensureValueOnTier env st v p tier stream = (st, p) := by
          unfold ensureValueOnTier
          unfold NeedsCopy at hneeds
          cases hn : needsTransfer env st p tier with
          | false => simp
          | true => cases hscalar : isHostScalar env.schedule v <;> simp_all
        rw [hensure] at heq
        obtain ⟨hmark, hled, -⟩ := h.markPlace p stream
        dsimp only at heq
        generalize markPlace _ _ = q at heq hmark hled
        obtain ⟨st₂, first⟩ := q
        obtain ⟨a', rfl, hev⟩ := hmark.exists
        simp only [Option.some.injEq, Prod.mk.injEq] at heq
        obtain ⟨rfl, rfl⟩ := heq
        refine ⟨_, leak, rfl, ?_, hled, fun _ => Nat.le_refl _, Or.inl rfl⟩
        exact .direct p a' first hinit hdef hplace hneeds hev

/-- A workspace has no place before it is bound. -/
theorem InputCase.unplaced {st' : SchedState} {b : ValueBinding}
    (h : InputCase env tier stream st v st' b) (hscr : env.schedule.isScratch v = true) :
    st.value2place v = none := by
  cases h with
  | workspace _ _ _ _ _ _ _ _ _ hnone => exact hnone
  | initializer hinit => simp [Schedule.isScratch, hinit] at hscr
  | direct _ _ _ _ hdef => simp [hdef] at hscr
  | cached _ _ _ _ _ hdef => simp [hdef] at hscr
  | copied _ _ _ _ _ _ _ hdef => simp [hdef] at hscr

/-- Only a workspace changes its own place. -/
theorem InputCase.value2place {st' : SchedState} {b : ValueBinding}
    (h : InputCase env tier stream st v st' b) {w : ValueId}
    (hw : w ≠ v ∨ env.schedule.isScratch v = false) : st'.value2place w = st.value2place w := by
  cases h with
  | workspace c a first hscratch =>
      rcases hw with hw | hw
      · exact Function.update_of_ne hw _ _
      · rw [hscratch] at hw
        cases hw
  | initializer => rfl
  | direct => rfl
  | cached => rfl
  | copied => rfl

/-- The input loop goes on when the input has a place to be read from, or is to be given one. -/
theorem bindInput_total (tier : MemoryTier) (stream : Nat) (bs : List ValueBinding)
    (h : v ∈ env.schedule.initializers ∨ env.schedule.isScratch v = true ∨
      (st.value2place v).isSome = true) :
    ∃ r, bindInput env tier stream (st, bs) v = some r := by
  unfold bindInput
  dsimp only
  split
  · exact ⟨_, rfl⟩
  · rename_i hinit
    split
    · exact ⟨_, rfl⟩
    · rename_i hws
      cases hplace : st.value2place v with
      | some p => exact ⟨_, rfl⟩
      | none =>
          rcases h with h | h | h
          · exact absurd (by simpa using h) hinit
          · simp only [Schedule.isScratch, Bool.and_eq_true] at h
            exact absurd h.2 hws
          · rw [hplace] at h
            cases h

/-- An invariant of the input loop.  It speaks of the inputs that are bound so far. -/
theorem bindInputs_induct {P : (Nat → Nat) → List Nat → SchedState → List ValueBinding → Prop}
    (inputs : List Nat) (hs : stream < env.numStreams) (hmem : ∀ v ∈ inputs, v ∈ slots)
    (hstep : ∀ leak leak' done st st' bs v b, v ∈ inputs →
      Ledger env.numStreams slots pend leak none st →
      InputCase env tier stream st v st' b →
      Ledger env.numStreams slots pend leak' none st' →
      (leak' = leak ∨ Copies env st tier v) →
      P leak done st bs → P leak' (done ++ [v]) st' (bs ++ [b])) :
    ∀ (rest done : List Nat) (leak : Nat → Nat) (st : SchedState) (bs : List ValueBinding),
      (∀ v ∈ rest, v ∈ inputs) →
      (∀ v ∈ rest, env.schedule.isScratch v = true →
        st.value2place v = none ∧ rest.count v = 1) →
      (∀ v ∈ rest, v ∈ env.schedule.initializers ∨ env.schedule.isScratch v = true ∨
        (st.value2place v).isSome = true) →
      Ledger env.numStreams slots pend leak none st → P leak done st bs →
      ∃ st' bs' leak', rest.foldlM (bindInput env tier stream) (st, bs) = some (st', bs') ∧
        Ledger env.numStreams slots pend leak' none st' ∧ (∀ c, leak c ≤ leak' c) ∧
        P leak' (done ++ rest) st' bs' := by
  intro rest
  induction rest with
  | nil =>
      intro done leak st bs _ _ _ hled hP
      exact ⟨st, bs, leak, rfl, hled, fun _ => Nat.le_refl _, by simpa using hP⟩
  | cons v rest ih =>
      intro done leak st bs hin hscr hsome hled hP
      obtain ⟨⟨st₁, bs₁⟩, hfirst⟩ := bindInput_total tier stream bs
        (hsome v List.mem_cons_self)
      have hv := hin v List.mem_cons_self
      obtain ⟨b, leak₁, rfl, hcase, hled₁, hle, hleak⟩ := bindInput_cases hled hs (hmem v hv)
        (fun h => (hscr v List.mem_cons_self h).1) hfirst
      have hscr₁ : ∀ w ∈ rest, env.schedule.isScratch w = true →
          st₁.value2place w = none ∧ rest.count w = 1 := by
        intro w hw hscratch
        obtain ⟨hnone, hcount⟩ := hscr w (List.mem_cons_of_mem _ hw) hscratch
        have hwpos : 0 < rest.count w := List.count_pos_iff.mpr hw
        have hwv : w ≠ v := by
          rintro rfl
          rw [List.count_cons_self] at hcount
          omega
        refine ⟨(hcase.value2place (Or.inl hwv)).trans hnone, ?_⟩
        rwa [List.count_cons_of_ne (Ne.symm hwv)] at hcount
      have hsome₁ : ∀ w ∈ rest, w ∈ env.schedule.initializers ∨
          env.schedule.isScratch w = true ∨ (st₁.value2place w).isSome = true := by
        intro w hw
        rcases hsome w (List.mem_cons_of_mem _ hw) with h | h | h
        · exact Or.inl h
        · exact Or.inr (Or.inl h)
        · by_cases hscratch : env.schedule.isScratch w = true
          · exact Or.inr (Or.inl hscratch)
          · have hkeep : w ≠ v ∨ env.schedule.isScratch v = false := by
              by_cases hwv : w = v
              · rw [← hwv]
                exact Or.inr (by simpa using hscratch)
              · exact Or.inl hwv
            rw [hcase.value2place hkeep]
            exact Or.inr (Or.inr h)
      obtain ⟨st₂, bs₂, leak₂, heq, hled₂, hle₂, hP₂⟩ := ih (done ++ [v]) leak₁ st₁ _
        (fun w hw => hin w (List.mem_cons_of_mem _ hw)) hscr₁ hsome₁ hled₁
        (hstep leak leak₁ done st st₁ bs v b hv hled hcase hled₁ hleak hP)
      refine ⟨st₂, bs₂, leak₂, ?_, hled₂, fun c => (hle c).trans (hle₂ c), by simpa using hP₂⟩
      rw [List.foldlM_cons, hfirst]
      exact heq

/-! ### Outputs -/

/-- One turn of the output loop.  The place is inherited from an input, or it is a caller's output
buffer, or it is a fresh chunk. -/
inductive OutputCase (env : SchedEnv) (tier : MemoryTier) (stream : Nat)
    (inPlace : Option AllocPlace) (st : SchedState) (o : ValueId) :
    AllocPlace → ChunkAllocator → Prop
  | inPlace (p : AllocPlace) (a : ChunkAllocator) (hin : inPlace = some p)
      (hev : st.allocator.Evolves stream (fun _ => False) a) :
      OutputCase env tier stream inPlace st o p a
  | aliased (t : ValueId) (hin : inPlace = none)
      (halias : env.schedule.outputAliases o = some t) (hhost : tier = .hostArena) :
      OutputCase env tier stream inPlace st o (.output t) st.allocator
  | fresh (c : Nat) (a : ChunkAllocator) (hin : inPlace = none)
      (hno : env.schedule.outputAliases o = none ∨ tier ≠ .hostArena)
      (hzero : st.allocator.liveUses c = 0)
      (hsource : (∃ i, c ∈ st.allocator.freeList i stream) ∨ st.allocator.allChunks.length ≤ c)
      (hev : st.allocator.Evolves stream (fun d => d = c) a)
      (hsize : env.schedule.valueByteSize o ≤ a.size c) (hlt : c < a.allChunks.length) :
      OutputCase env tier stream inPlace st o (.chunk c) a

/-- The allocator after `add_uses` at a place. -/
def addedAt (a : ChunkAllocator) (p : AllocPlace) (n : Nat) : ChunkAllocator :=
  match p with
  | .chunk c => a.addUses c n
  | _ => a

theorem addUsesAt_eq (st : SchedState) (p : AllocPlace) (n : Nat) :
    st.addUsesAt p n = { st with allocator := addedAt st.allocator p n } := by
  cases p <;> rfl

/-- Inheriting a place that is in use. -/
theorem Ledger.inherit (h : Ledger ns slots pend leak none st) (hnone : st.value2place o = none)
    (p : AllocPlace) (hlive : ∀ c, p = .chunk c → 0 < st.allocator.liveUses c) (stream : Nat) :
    st.allocator.Evolves stream (fun _ => False)
        (addedAt st.allocator p (st.valueRemainingUses o)) ∧
      Ledger ns slots pend leak none
        { st with
          allocator := addedAt st.allocator p (st.valueRemainingUses o)
          value2place := Function.update st.value2place o (some p) } := by
  obtain ⟨hstep, hled⟩ := h.addUsesAt (p := p) (fun c hc => Or.inl (hlive c hc))
    (st.valueRemainingUses o) stream
  rw [addUsesAt_eq] at hstep hled
  refine ⟨hstep.evolves, ?_⟩
  rw [h.uses o] at hled ⊢
  exact Ledger.place (v := o) p (by exact hnone) hled

/-- Registering the post transfer of an output, its first-use mark, and the release of a dead
chunk. -/
theorem Ledger.finishOutput (h : Ledger ns slots pend leak held st) (hs : stream < ns)
    (p : AllocPlace) (posts : List PostTransfer) (hposts : posts.length ≤ 1)
    (hp : held = none ∧ (∀ c, p = .chunk c → 0 < st.allocator.liveUses c) ∨
      ∃ c, held = some c ∧ p = .chunk c ∧ c < st.allocator.allChunks.length) :
    ∃ a first, SchedState.markPlace (if posts.isEmpty then st else SchedState.addUsesAt st p 1) p =
        ({ st with allocator := a }, first) ∧
      AllocStep stream (fun c => p = .chunk c ∧ held = some c) st
        (SchedState.releaseAt { st with allocator := a } p stream) ∧
      Ledger ns slots (bumpAt pend p posts.length) leak none
        (SchedState.releaseAt { st with allocator := a } p stream) := by
  have hadd : ∃ a₁, (if posts.isEmpty then st else SchedState.addUsesAt st p 1) =
        { st with allocator := a₁ } ∧
      st.allocator.Evolves stream (fun _ => False) a₁ ∧
      Ledger ns slots (bumpAt pend p posts.length) leak held { st with allocator := a₁ } ∧
      ∀ c, 0 < st.allocator.liveUses c → 0 < a₁.liveUses c := by
    cases posts with
    | nil =>
        refine ⟨st.allocator, rfl, .refl _ _, ?_, fun _ hc => hc⟩
        have hzero : bumpAt pend p 0 = pend := by
          cases p <;> simp [bumpAt, bump, funext_iff]
        rw [List.length_nil, hzero]
        exact h
    | cons pt posts =>
        obtain rfl : posts = [] := by
          simp only [List.length_cons] at hposts
          exact List.eq_nil_of_length_eq_zero (by omega)
        obtain ⟨hstep, hled⟩ := h.addUsesAt (p := p) (fun c hc => by
          rcases hp with ⟨-, hlive⟩ | ⟨d, hd, hpd, hlt⟩
          · exact Or.inl (hlive c hc)
          · obtain rfl : d = c := by simpa using hpd.symm.trans hc
            exact Or.inr ⟨hd, hlt⟩) 1 stream
        refine ⟨addedAt st.allocator p 1, by simp [addUsesAt_eq], ?_, ?_, ?_⟩
        · rw [addUsesAt_eq] at hstep
          exact hstep.evolves
        · rw [addUsesAt_eq] at hled
          exact hled
        · intro c hc
          rw [addUsesAt_eq] at hled
          have hold := h.balance c
          have hnew := hled.balance c
          have hreads : readsAt { st with allocator := addedAt st.allocator p 1 } slots c =
            st.readsAt slots c := rfl
          have hmono : pend c ≤ bumpAt pend p 1 c := by
            cases p with
            | chunk d => exact le_bump pend d 1 c
            | _ => exact Nat.le_refl _
          dsimp only at hnew
          omega
  obtain ⟨a₁, heq₁, hev₁, hled₁, hlive₁⟩ := hadd
  rw [heq₁]
  obtain ⟨hmark, hled₂, hlive₂⟩ := hled₁.markPlace p stream
  generalize SchedState.markPlace _ _ = r at hmark hled₂ hlive₂
  obtain ⟨st₂, first⟩ := r
  obtain ⟨a₂, rfl, hev₂⟩ := hmark.exists
  dsimp only at hled₂ hlive₂
  have hp₂ : held = none ∧ (∀ c, p = .chunk c → 0 < a₂.liveUses c) ∨
      ∃ c, held = some c ∧ p = .chunk c ∧ c < a₂.allChunks.length := by
    rcases hp with ⟨hnone, hlive⟩ | ⟨c, hc, hpc, hlt⟩
    · exact Or.inl ⟨hnone, fun c hc => by rw [hlive₂]; exact hlive₁ c (hlive c hc)⟩
    · exact Or.inr ⟨c, hc, hpc, Nat.lt_of_lt_of_le hlt (hev₁.length.trans hev₂.length)⟩
  obtain ⟨hrel, hled₃⟩ := hled₂.releaseAt (p := p) hs hp₂
  refine ⟨a₂, first, rfl, ⟨hrel.eq, ?_⟩, hled₃⟩
  refine ((hev₁.trans hev₂).mono fun _ hf => hf.elim).trans (hrel.evolves.mono ?_)
  rintro c ⟨hc, hzero⟩
  refine ⟨hc, ?_⟩
  rcases hp with ⟨-, hlive⟩ | ⟨d, hd, hpd, -⟩
  · have hpos := hlive₁ c (hlive c hc)
    have hsame := hlive₂ c
    dsimp only at hzero
    omega
  · obtain rfl : d = c := by simpa using hpd.symm.trans hc
    exact hd

theorem length_postTransferOf (S : Schedule) (o : ValueId) (p : AllocPlace) :
    (postTransferOf S o p).length ≤ 1 := by
  unfold postTransferOf
  split
  · split <;> simp
  · simp

/-- A post transfer carries the output from its place to the buffer it is an alias of. -/
theorem mem_postTransferOf {S : Schedule} {o : ValueId} {p : AllocPlace} {pt : PostTransfer} :
    pt ∈ postTransferOf S o p ↔ ∃ t, S.outputAliases o = some t ∧ isOutputPlace p = false ∧
      pt = ⟨⟨o, .input, p, false⟩, ⟨o, .output, .output t, false⟩⟩ := by
  unfold postTransferOf
  cases S.outputAliases o with
  | none => simp
  | some t => cases hp : isOutputPlace p <;> simp

/-- The uses that post transfers still have pending. -/
def pendOf (posts : List PostTransfer) (c : Nat) : Nat :=
  posts.countP fun pt => pt.src.place = .chunk c

theorem pendOf_append_output (posts : List PostTransfer) (S : Schedule) (o : ValueId)
    (p : AllocPlace) : pendOf (posts ++ postTransferOf S o p) =
      bumpAt (pendOf posts) p (postTransferOf S o p).length := by
  funext c
  have hcount : (postTransferOf S o p).countP (fun pt => pt.src.place = .chunk c) =
      if p = .chunk c then (postTransferOf S o p).length else 0 := by
    have hsrc : ∀ pt ∈ postTransferOf S o p, pt.src.place = p := by
      intro pt hpt
      obtain ⟨t, -, -, rfl⟩ := mem_postTransferOf.mp hpt
      rfl
    by_cases hp : p = .chunk c
    · rw [if_pos hp, List.countP_eq_length]
      intro pt hpt
      simp [hsrc pt hpt, hp]
    · rw [if_neg hp, List.countP_eq_zero]
      intro pt hpt
      simp [hsrc pt hpt, hp]
  unfold pendOf
  rw [List.countP_append, hcount]
  cases p with
  | chunk d =>
      by_cases hc : c = d
      · simp [bumpAt, hc]
      · simp [bumpAt, bump_of_ne _ _ hc, Ne.symm hc]
  | sessionState _ => simp [bumpAt]
  | initializer _ => simp [bumpAt]
  | input _ => simp [bumpAt]
  | output _ => simp [bumpAt]

theorem pendOf_cons (pt : PostTransfer) (posts : List PostTransfer) :
    pendOf (pt :: posts) = bumpAt (pendOf posts) pt.src.place 1 := by
  funext c
  unfold pendOf
  rw [List.countP_cons]
  cases hp : pt.src.place with
  | chunk d =>
      by_cases hc : c = d
      · simp [bumpAt, hc]
      · simp [bumpAt, bump_of_ne _ _ hc, Ne.symm hc]
  | sessionState _ => simp [bumpAt]
  | initializer _ => simp [bumpAt]
  | input _ => simp [bumpAt]
  | output _ => simp [bumpAt]

/-- The output loop does one of three things, and keeps the balance. -/
theorem bindOutput_cases (tier : MemoryTier) {inPlace : Option AllocPlace} (bs : List ValueBinding)
    (posts : List PostTransfer) (h : Ledger env.numStreams slots pend leak none st)
    (hs : stream < env.numStreams) (hnone : st.value2place o = none)
    (hlive : ∀ c, inPlace = some (.chunk c) → 0 < st.allocator.liveUses c) :
    ∃ p a first, OutputCase env tier stream inPlace st o p a ∧
      bindOutput env tier stream inPlace (st, bs, posts) o =
        ({ st with
            allocator := a
            value2place := Function.update st.value2place o (some p) },
          bs ++ [⟨o, .output, p, first⟩], posts ++ postTransferOf env.schedule o p) ∧
      Ledger env.numStreams slots (bumpAt pend p (postTransferOf env.schedule o p).length) leak none
        { st with
          allocator := a
          value2place := Function.update st.value2place o (some p) } := by
  have hfresh : inPlace = none → env.schedule.outputAliases o = none ∨ tier ≠ .hostArena →
      ∃ p a first, OutputCase env tier stream inPlace st o p a ∧
      bindOutput env tier stream inPlace (st, bs, posts) o =
        ({ st with
            allocator := a
            value2place := Function.update st.value2place o (some p) },
          bs ++ [⟨o, .output, p, first⟩], posts ++ postTransferOf env.schedule o p) ∧
      Ledger env.numStreams slots (bumpAt pend p (postTransferOf env.schedule o p).length) leak none
        { st with
          allocator := a
          value2place := Function.update st.value2place o (some p) } := by
    intro hin hno
    obtain ⟨a, c, halloc, hspec, hled⟩ :=
      h.allocPlace hs hnone tier (env.schedule.valueByteSize o)
    have hplace : outputPlace env tier stream inPlace st o =
        ({ st with allocator := a }, .chunk c, true) := by
      unfold outputPlace
      rw [halloc, hin]
      dsimp only
      split
      · rename_i t ht
        rcases hno with hno | hno
        · rw [ht] at hno
          cases hno
        · rw [if_neg hno]
      · rfl
    obtain ⟨a', first, hmark, hrel, hled'⟩ := hled.finishOutput hs (.chunk c)
      (postTransferOf env.schedule o (.chunk c)) (length_postTransferOf _ _ _)
      (Or.inr ⟨c, rfl, rfl, hspec.lt⟩)
    obtain ⟨a'', heq, hev⟩ := hrel.exists
    refine ⟨.chunk c, a'', first, ?_, ?_, ?_⟩
    · refine .fresh c a'' hin hno hspec.zero hspec.source ?_ (hspec.size.trans (hev.size c))
        (Nat.lt_of_lt_of_le hspec.lt hev.length)
      refine (hspec.step.evolves.mono fun _ hf => hf.elim).trans (hev.mono ?_)
      rintro d ⟨hd, -⟩
      exact (by simpa using hd : c = d).symm
    · unfold bindOutput
      dsimp only
      rw [hplace]
      dsimp only
      rw [if_pos rfl, hmark]
      dsimp only
      rw [heq]
    · rw [heq] at hled'
      exact hled'
  cases hin : inPlace with
  | some p =>
      subst hin
      obtain ⟨hev, hled⟩ := h.inherit hnone p (fun c hc => hlive c (by rw [hc])) stream
      have hlive' : ∀ c, p = .chunk c →
          0 < (addedAt st.allocator p (st.valueRemainingUses o)).liveUses c := by
        rintro c rfl
        have hpos := hlive c rfl
        show 0 < (st.allocator.addUses c _).liveUses c
        rw [ChunkAllocator.liveUses_addUses (lt_of_liveUses_pos hpos), if_pos rfl]
        omega
      obtain ⟨a', first, hmark, hrel, hled'⟩ := hled.finishOutput hs p
        (postTransferOf env.schedule o p) (length_postTransferOf _ _ _) (Or.inl ⟨rfl, hlive'⟩)
      obtain ⟨a'', heq, hev'⟩ := hrel.exists
      refine ⟨p, a'', first, ?_, ?_, ?_⟩
      · refine .inPlace p a'' rfl (hev.trans (hev'.mono ?_))
        rintro d ⟨-, hd⟩
        cases hd
      · unfold bindOutput outputPlace
        simp only [Bool.false_eq_true, if_false]
        rw [addUsesAt_eq]
        dsimp only
        rw [hmark]
        dsimp only
        rw [heq]
      · rw [heq] at hled'
        exact hled'
  | none =>
      rw [hin] at hfresh
      cases halias : env.schedule.outputAliases o with
      | none => exact hfresh rfl (Or.inl halias)
      | some t =>
          by_cases hhost : tier = .hostArena
          · have hpost : postTransferOf env.schedule o (.output t) = [] := by
              simp [postTransferOf, halias, isOutputPlace]
            refine ⟨.output t, st.allocator, false, .aliased t rfl halias hhost, ?_, ?_⟩
            · simp [bindOutput, outputPlace, halias, hhost, hpost, addUsesAt, markPlace, releaseAt]
            · have hled := Ledger.place (v := o) (.output t) hnone h
              rw [hpost]
              exact hled
          · exact hfresh rfl (Or.inr hhost)

/-- An invariant of the output loop. -/
theorem bindOutputs_induct {P : List Nat → SchedState → List ValueBinding → List PostTransfer → Prop}
    (outputs : List Nat) (inPlace : Option AllocPlace) (hs : stream < env.numStreams)
    (hstep : ∀ done st bs posts o p a first, done ++ [o] <+: outputs → o ∉ done →
      Ledger env.numStreams slots (pendOf posts) leak none st → st.value2place o = none →
      OutputCase env tier stream inPlace st o p a →
      P done st bs posts →
      P (done ++ [o])
        { st with
          allocator := a
          value2place := Function.update st.value2place o (some p) }
        (bs ++ [⟨o, .output, p, first⟩]) (posts ++ postTransferOf env.schedule o p)) :
    ∀ (rest done : List Nat) (st : SchedState) (bs : List ValueBinding) (posts : List PostTransfer),
      done ++ rest = outputs → (done ++ rest).Nodup → (∀ o ∈ rest, st.value2place o = none) →
      (inPlace ≠ none → rest.length ≤ 1) →
      (∀ o ∈ rest, ∀ c, inPlace = some (.chunk c) → 0 < st.allocator.liveUses c) →
      Ledger env.numStreams slots (pendOf posts) leak none st → P done st bs posts →
      ∃ st' bs' posts', rest.foldl (bindOutput env tier stream inPlace) (st, bs, posts) =
          (st', bs', posts') ∧
        Ledger env.numStreams slots (pendOf posts') leak none st' ∧
        P (done ++ rest) st' bs' posts' := by
  intro rest
  induction rest with
  | nil =>
      intro done st bs posts _ _ _ _ _ hled hP
      exact ⟨st, bs, posts, rfl, hled, by simpa using hP⟩
  | cons o rest ih =>
      intro done st bs posts hin hnd hnone hunary hlive hled hP
      have ho : done ++ [o] <+: outputs := ⟨rest, by simpa using hin⟩
      have hodone : o ∉ done := by
        intro hmem
        exact (List.nodup_append.mp hnd).2.2 o hmem o List.mem_cons_self rfl
      have horest : o ∉ rest := by
        have := (List.nodup_append.mp hnd).2.1
        exact (List.nodup_cons.mp this).1
      obtain ⟨p, a, first, hcase, heq, hled₁⟩ := bindOutput_cases tier bs posts hled hs
        (hnone o List.mem_cons_self) (hlive o List.mem_cons_self)
      rw [List.foldl_cons, heq]
      rw [← pendOf_append_output] at hled₁
      obtain ⟨st', bs', posts', heq', hled', hP'⟩ := ih (done ++ [o]) _ _ _
        (by simpa using hin) (by simpa using hnd)
        (by
          intro w hw
          have hwo : w ≠ o := fun h => horest (h ▸ hw)
          simp only [Function.update_of_ne hwo]
          exact hnone w (List.mem_cons_of_mem _ hw))
        (fun h => by have := hunary h; simp at this; simp [this])
        (by
          intro w hw c hc
          have := hunary (by rw [hc]; simp)
          simp only [List.length_cons] at this
          have hnil : rest = [] := List.eq_nil_of_length_eq_zero (by omega)
          rw [hnil] at hw
          cases hw)
        hled₁ (hstep done st bs posts o p a first ho hodone hled (hnone o List.mem_cons_self)
          hcase hP)
      exact ⟨st', bs', posts', heq', hled', by simpa using hP'⟩

/-! ### Post transfers and the uses of the inputs -/

/-- The steps of the post transfers, with their events. -/
def postSteps (context : ExecutionContext) : Nat → List PostTransfer → List Step
  | _, [] => []
  | n, pt :: posts =>
      .transfer ⟨pt.src, pt.dst, context, some n⟩ :: postSteps context (n + 1) posts

/-- The loop over the post transfers pushes their steps and takes back their uses. -/
theorem postTransfers_spec (context : ExecutionContext) (hs : context.stream < ns) :
    ∀ (posts : List PostTransfer) (st : SchedState),
      Ledger ns slots (pendOf posts) leak none st →
      ∃ a, posts.foldl (pushPostTransfer context) st =
          { st with
            allocator := a
            nextEventId := st.nextEventId + posts.length
            steps := st.steps ++ postSteps context st.nextEventId posts } ∧
        st.allocator.Evolves context.stream
          (fun c => (∃ pt ∈ posts, pt.src.place = .chunk c) ∧
            ∀ w ∈ slots, st.value2place w ≠ some (.chunk c)) a ∧
        Ledger ns slots (pendOf []) leak none
          { st with
            allocator := a
            nextEventId := st.nextEventId + posts.length
            steps := st.steps ++ postSteps context st.nextEventId posts } := by
  intro posts
  induction posts with
  | nil =>
      intro st h
      refine ⟨st.allocator, by simp [postSteps], ?_, ?_⟩
      · exact (ChunkAllocator.Evolves.refl _ _).mono fun _ hf => hf.elim
      · exact h.congr rfl rfl rfl rfl
  | cons pt posts ih =>
      intro st h
      rw [pendOf_cons] at h
      let st₁ : SchedState :=
        { st with
          nextEventId := st.nextEventId + 1
          steps := st.steps ++ [.transfer ⟨pt.src, pt.dst, context, some st.nextEventId⟩] }
      have h₁ : Ledger ns slots (bumpAt (pendOf posts) pt.src.place 1) leak none st₁ :=
        h.congr rfl rfl rfl rfl
      obtain ⟨hstep, hled⟩ := h₁.consumeAt hs
      have hpush : pushPostTransfer context st pt = st₁.consumeAt pt.src.place context.stream := rfl
      obtain ⟨a, heq, hev⟩ := hstep.exists
      rw [heq] at hled
      obtain ⟨a', heq', hev', hled'⟩ := ih _ hled
      refine ⟨a', ?_, ?_, ?_⟩
      · rw [List.foldl_cons, hpush, heq, heq']
        simp [st₁, postSteps, Nat.add_assoc, Nat.add_comm 1]
      · refine (hev.mono ?_).trans (hev'.mono ?_)
        · rintro c ⟨hc, hone⟩
          refine ⟨⟨pt, List.mem_cons_self, hc⟩, fun w hw hplace => ?_⟩
          have hbal := h.balance c
          rw [hc] at hbal
          simp only [bumpAt, bump_self] at hbal
          have hreads : 0 < st.readsAt slots c := by
            rw [readsAt, List.countP_pos_iff]
            exact ⟨w, hw, by simp [hplace]⟩
          have : st.allocator.liveUses c = 1 := hone
          omega
        · rintro c ⟨⟨q, hq, hc⟩, hno⟩
          exact ⟨⟨q, List.mem_cons_of_mem _ hq, hc⟩, hno⟩
      · refine hled'.congr rfl rfl rfl rfl

/-- Taking the use of one input slot. -/
theorem consumeInput_spec (hs : stream < ns) (h : Ledger ns (v :: slots) pend leak none st) :
    ∃ a, consumeInput stream st v =
        { st with
          allocator := a
          valueRemainingUses :=
            Function.update st.valueRemainingUses v (st.valueRemainingUses v - 1) } ∧
      st.allocator.Evolves stream
        (fun c => st.value2place v = some (.chunk c) ∧
          ∀ w ∈ slots, st.value2place w ≠ some (.chunk c)) a ∧
      Ledger ns slots pend leak none
        { st with
          allocator := a
          valueRemainingUses :=
            Function.update st.valueRemainingUses v (st.valueRemainingUses v - 1) } := by
  have huses : ∀ w, Function.update st.valueRemainingUses v (st.valueRemainingUses v - 1) w =
      slots.count w := by
    intro w
    have hw := h.uses w
    by_cases hwv : w = v
    · subst hwv
      rw [List.count_cons_self] at hw
      rw [Function.update_self, hw]
      omega
    · rw [List.count_cons_of_ne (Ne.symm hwv)] at hw
      rw [Function.update_of_ne hwv, hw]
  have hreads : ∀ c, st.readsAt (v :: slots) c =
      st.readsAt slots c + if st.value2place v = some (.chunk c) then 1 else 0 := by
    intro c
    simp [readsAt, List.countP_cons]
  let st₁ : SchedState :=
    { st with
      valueRemainingUses :=
        Function.update st.valueRemainingUses v (st.valueRemainingUses v - 1) }
  unfold consumeInput
  dsimp only
  cases hplace : st.value2place v with
  | none =>
      refine ⟨st.allocator, rfl, (ChunkAllocator.Evolves.refl _ _).mono fun _ hf => hf.elim, ?_⟩
      refine { inv := h.inv, uses := huses, balance := ?_, copied := h.copied }
      intro c
      have hc := h.balance c
      rw [hreads c, hplace] at hc
      simp only [reduceCtorEq, if_false, Nat.add_zero] at hc
      exact hc
  | some p =>
      have h₁ : Ledger ns slots (bumpAt pend p 1) leak none st₁ := by
        refine { inv := h.inv, uses := huses, balance := ?_, copied := h.copied }
        intro c
        have hc := h.balance c
        rw [hreads c, hplace] at hc
        show st.allocator.liveUses c = st.readsAt slots c + bumpAt pend p 1 c + leak c
        cases p with
        | chunk d =>
            by_cases hcd : c = d
            · subst hcd
              simp only [bumpAt, bump_self]
              simp at hc
              omega
            · have hne : ¬ d = c := fun h => hcd h.symm
              simp only [bumpAt, bump_of_ne _ _ hcd]
              simp [hne] at hc
              omega
        | sessionState _ => simpa [bumpAt] using hc
        | initializer _ => simpa [bumpAt] using hc
        | input _ => simpa [bumpAt] using hc
        | output _ => simpa [bumpAt] using hc
      obtain ⟨hstep, hled⟩ := h₁.consumeAt hs
      obtain ⟨a, heq, hev⟩ := hstep.exists
      refine ⟨a, heq, hev.mono ?_, ?_⟩
      · rintro c ⟨rfl, hone⟩
        refine ⟨rfl, fun w hw hw' => ?_⟩
        have hbal := h₁.balance c
        simp only [bumpAt, bump_self] at hbal
        have hpos : 0 < st₁.readsAt slots c := by
          rw [readsAt, List.countP_pos_iff]
          exact ⟨w, hw, by simpa using hw'⟩
        omega
      · rw [heq] at hled
        exact hled

/-- The loop over the inputs takes one use for each slot. -/
theorem consumeInputs_spec (hs : stream < ns) :
    ∀ (inputs : List Nat) (st : SchedState), Ledger ns (inputs ++ slots) pend leak none st →
      ∃ a uses, inputs.foldl (consumeInput stream) st =
          { st with
            allocator := a
            valueRemainingUses := uses } ∧
        st.allocator.Evolves stream
          (fun c => ∃ v ∈ inputs, st.value2place v = some (.chunk c) ∧
            ∀ w ∈ slots, st.value2place w ≠ some (.chunk c)) a ∧
        Ledger ns slots pend leak none
          { st with
            allocator := a
            valueRemainingUses := uses } := by
  intro inputs
  induction inputs with
  | nil =>
      intro st h
      exact ⟨st.allocator, st.valueRemainingUses, rfl,
        (ChunkAllocator.Evolves.refl _ _).mono fun _ hf => hf.elim, h⟩
  | cons v inputs ih =>
      intro st h
      obtain ⟨a, heq, hev, hled⟩ := consumeInput_spec hs h
      obtain ⟨a', uses, heq', hev', hled'⟩ := ih _ hled
      refine ⟨a', uses, ?_, ?_, hled'⟩
      · rw [List.foldl_cons, heq, heq']
      · refine (hev.mono ?_).trans (hev'.mono ?_)
        · rintro c ⟨hc, hno⟩
          exact ⟨v, List.mem_cons_self, hc, fun w hw => hno w (List.mem_append_right _ hw)⟩
        · rintro c ⟨w, hw, hc, hno⟩
          exact ⟨w, List.mem_cons_of_mem _ hw, hc, hno⟩

end SchedState
end NnEngine
