import NnEngine.Schedule.Scheduler.Allocator
import NnEngine.Schedule.WellFormed

/-!
# The ledger of chunk uses

The schedulers keep one count of live uses for each chunk.  `Ledger` balances it: a live use is a
read of the chunk still to be scheduled (`slots` lists the input slots that are left), or a use that
is pending inside the kernel being scheduled (`pend`), or the use of a cross-tier copy, which the
scheduler never takes back (`leak`).  Each operation of the shared scheduler state has one lemma
that says how it moves the balance.
-/

namespace NnEngine
namespace SchedState

variable {env : SchedEnv} {st : SchedState} {ns c n stream : Nat} {slots : List Nat}
  {pend leak leak' : Nat → Nat} {held : Option Nat} {p : AllocPlace} {v : ValueId}

/-- A count with `n` more at one chunk. -/
def bump (f : Nat → Nat) (c n : Nat) : Nat → Nat :=
  fun d => if d = c then f d + n else f d

/-- `bump` at a place, which counts only if it is a chunk. -/
def bumpAt (f : Nat → Nat) (p : AllocPlace) (n : Nat) : Nat → Nat :=
  match p with
  | .chunk c => bump f c n
  | _ => f

@[simp] theorem bump_self (f : Nat → Nat) (c n : Nat) : bump f c n c = f c + n := by
  simp [bump]

theorem bump_of_ne (f : Nat → Nat) {c d : Nat} (n : Nat) (h : d ≠ c) : bump f c n d = f d := by
  simp [bump, h]

theorem le_bump (f : Nat → Nat) (c n d : Nat) : f d ≤ bump f c n d := by
  unfold bump
  split <;> omega

/-- How many of the slots hold a value placed in the chunk. -/
def readsAt (st : SchedState) (slots : List Nat) (c : Nat) : Nat :=
  slots.countP fun v => st.value2place v = some (.chunk c)

/-- The balance of the live uses. -/
structure Ledger (ns : Nat) (slots : List Nat) (pend leak : Nat → Nat) (held : Option Nat)
    (st : SchedState) : Prop where
  inv : st.allocator.Inv ns held
  uses : ∀ v, st.valueRemainingUses v = slots.count v
  balance : ∀ c, st.allocator.liveUses c = st.readsAt slots c + pend c + leak c
  copied : ∀ v t r, st.valueOnTier v t = some r → ∃ c, r.place = .chunk c ∧ 0 < leak c

/-- The slots matter only up to their order. -/
theorem Ledger.perm (h : Ledger ns slots pend leak held st) {slots' : List Nat}
    (hp : slots.Perm slots') : Ledger ns slots' pend leak held st where
  inv := h.inv
  uses := fun v => (h.uses v).trans (hp.count_eq v)
  balance := by
    intro c
    rw [h.balance c, readsAt, readsAt, hp.countP_eq]
  copied := h.copied

/-- A chunk with a live use exists. -/
theorem lt_of_liveUses_pos {a : ChunkAllocator} (h : 0 < a.liveUses c) :
    c < a.allChunks.length := by
  by_contra hlt
  have hout := getD_of_length_le a.allChunks (default : ChunkState) (Nat.le_of_not_lt hlt)
  simp only [ChunkAllocator.liveUses, ChunkAllocator.chunk, hout] at h
  exact absurd h (by simp [default])

/-- A slot whose value is placed in a chunk is a live use of the chunk. -/
theorem Ledger.live_of_slot (h : Ledger ns slots pend leak held st) (hv : v ∈ slots)
    (hplace : st.value2place v = some (.chunk c)) : 0 < st.allocator.liveUses c := by
  have hpos : 0 < st.readsAt slots c := by
    rw [readsAt, List.countP_pos_iff]
    exact ⟨v, hv, by simp [hplace]⟩
  have := h.balance c
  omega

/-- A recorded copy keeps its chunk alive. -/
theorem Ledger.live_of_copy (h : Ledger ns slots pend leak held st) {t : MemoryTier}
    {r : TransferRecord} (hr : st.valueOnTier v t = some r) (hplace : r.place = .chunk c) :
    0 < st.allocator.liveUses c := by
  obtain ⟨d, hd, hpos⟩ := h.copied v t r hr
  rw [hplace] at hd
  obtain rfl : c = d := by simpa using hd
  have := h.balance c
  omega

/-- Nothing that is still to be read is placed in a chunk without live uses. -/
theorem Ledger.not_placed (h : Ledger ns slots pend leak held st)
    (hzero : st.allocator.liveUses c = 0) (hv : v ∈ slots) :
    st.value2place v ≠ some (.chunk c) := by
  intro hplace
  have := h.live_of_slot hv hplace
  omega

theorem Ledger.not_copied (h : Ledger ns slots pend leak held st)
    (hzero : st.allocator.liveUses c = 0) {t : MemoryTier} {r : TransferRecord}
    (hr : st.valueOnTier v t = some r) : r.place ≠ .chunk c := by
  intro hplace
  have := h.live_of_copy hr hplace
  omega

theorem Ledger.zero (h : Ledger ns slots pend leak held st) (hzero : st.allocator.liveUses c = 0) :
    st.readsAt slots c = 0 ∧ pend c = 0 ∧ leak c = 0 := by
  have := h.balance c
  omega

/-- Replacing the allocator by one whose counts still balance. -/
theorem Ledger.replace (h : Ledger ns slots pend leak held st) {a : ChunkAllocator}
    {pend' : Nat → Nat} {held' : Option Nat} (hinv : a.Inv ns held')
    (hbal : ∀ c, a.liveUses c = st.readsAt slots c + pend' c + leak c) :
    Ledger ns slots pend' leak held' { st with allocator := a } where
  inv := hinv
  uses := h.uses
  balance := hbal
  copied := h.copied

/-- A change of the fields that the balance does not read. -/
theorem Ledger.congr (h : Ledger ns slots pend leak held st) {st' : SchedState}
    (ha : st'.allocator = st.allocator) (hu : st'.valueRemainingUses = st.valueRemainingUses)
    (hp : st'.value2place = st.value2place) (ht : st'.valueOnTier = st.valueOnTier) :
    Ledger ns slots pend leak held st' where
  inv := by rw [ha]; exact h.inv
  uses := by rw [hu]; exact h.uses
  balance := by
    intro c
    rw [ha, readsAt, hp]
    exact h.balance c
  copied := by rw [ht]; exact h.copied

/-! ### The operations -/

/-- What an operation that only touches the allocator does. -/
structure AllocStep (stream : Nat) (freed : Nat → Prop) (st : SchedState) (st' : SchedState) :
    Prop where
  eq : st' = { st with allocator := st'.allocator }
  evolves : st.allocator.Evolves stream freed st'.allocator

theorem AllocStep.exists {freed : Nat → Prop} {st' : SchedState}
    (h : AllocStep stream freed st st') :
    ∃ a, st' = { st with allocator := a } ∧ st.allocator.Evolves stream freed a :=
  ⟨_, h.eq, h.evolves⟩

theorem Ledger.markPlace (h : Ledger ns slots pend leak held st) (p : AllocPlace) (stream : Nat) :
    AllocStep stream (fun _ => False) st (st.markPlace p).1 ∧
      Ledger ns slots pend leak held (st.markPlace p).1 ∧
      ∀ c, (st.markPlace p).1.allocator.liveUses c = st.allocator.liveUses c := by
  cases p with
  | chunk c =>
      refine ⟨⟨rfl, ChunkAllocator.evolves_markAsFirstUse _ c stream⟩, ?_, ?_⟩
      · refine h.replace (h.inv.markAsFirstUse c) ?_
        intro d
        show (st.allocator.markAsFirstUse c).1.liveUses d = _
        rw [ChunkAllocator.liveUses_markAsFirstUse]
        exact h.balance d
      · exact ChunkAllocator.liveUses_markAsFirstUse _ c
  | sessionState _ => exact ⟨⟨rfl, .refl _ _⟩, h, fun _ => rfl⟩
  | initializer _ => exact ⟨⟨rfl, .refl _ _⟩, h, fun _ => rfl⟩
  | input _ => exact ⟨⟨rfl, .refl _ _⟩, h, fun _ => rfl⟩
  | output _ => exact ⟨⟨rfl, .refl _ _⟩, h, fun _ => rfl⟩

/-- Registering uses of a chunk that is in use or held. -/
theorem Ledger.addUses (h : Ledger ns slots pend leak held st)
    (hlive : 0 < st.allocator.liveUses c ∨ held = some c ∧ c < st.allocator.allChunks.length)
    (n stream : Nat) :
    AllocStep stream (fun _ => False) st { st with allocator := st.allocator.addUses c n } ∧
      Ledger ns slots (bump pend c n) leak held
        { st with allocator := st.allocator.addUses c n } := by
  have hlt : c < st.allocator.allChunks.length := by
    rcases hlive with hlive | ⟨-, hlt⟩
    · exact lt_of_liveUses_pos hlive
    · exact hlt
  refine ⟨⟨rfl, ChunkAllocator.evolves_addUses _ c n stream⟩, ?_⟩
  refine h.replace (h.inv.addUses hlt (hlive.imp_right And.left) n) ?_
  intro d
  rw [ChunkAllocator.liveUses_addUses hlt]
  have := h.balance d
  by_cases hd : d = c
  · subst hd
    rw [if_pos rfl, bump_self]
    omega
  · rw [if_neg hd, bump_of_ne _ _ hd]
    exact this

theorem Ledger.addUsesAt (h : Ledger ns slots pend leak held st)
    (hlive : ∀ c, p = .chunk c →
      0 < st.allocator.liveUses c ∨ held = some c ∧ c < st.allocator.allChunks.length)
    (n stream : Nat) :
    AllocStep stream (fun _ => False) st (st.addUsesAt p n) ∧
      Ledger ns slots (bumpAt pend p n) leak held (st.addUsesAt p n) := by
  cases p with
  | chunk c => exact h.addUses (hlive c rfl) n stream
  | sessionState _ => exact ⟨⟨rfl, .refl _ _⟩, h⟩
  | initializer _ => exact ⟨⟨rfl, .refl _ _⟩, h⟩
  | input _ => exact ⟨⟨rfl, .refl _ _⟩, h⟩
  | output _ => exact ⟨⟨rfl, .refl _ _⟩, h⟩

/-- Releasing the held chunk, or one that is in use. -/
theorem Ledger.releaseAt (h : Ledger ns slots pend leak held st) (hs : stream < ns)
    (hp : held = none ∧ (∀ c, p = .chunk c → 0 < st.allocator.liveUses c) ∨
      ∃ c, held = some c ∧ p = .chunk c ∧ c < st.allocator.allChunks.length) :
    AllocStep stream (fun c => p = .chunk c ∧ st.allocator.liveUses c = 0) st
        (st.releaseAt p stream) ∧
      Ledger ns slots pend leak none (st.releaseAt p stream) := by
  rcases hp with ⟨rfl, hlive⟩ | ⟨c, rfl, rfl, hlt⟩
  · have hsame : st.releaseAt p stream = st := by
      cases p with
      | chunk c => simp [SchedState.releaseAt, ChunkAllocator.releaseIfDead_of_live (hlive c rfl)]
      | sessionState _ => rfl
      | initializer _ => rfl
      | input _ => rfl
      | output _ => rfl
    rw [hsame]
    exact ⟨⟨rfl, (ChunkAllocator.Evolves.refl _ _).mono fun _ hf => hf.elim⟩, h⟩
  · refine ⟨⟨rfl, ?_⟩, ?_⟩
    · refine (ChunkAllocator.evolves_releaseIfDead h.inv hlt hs).mono ?_
      rintro d ⟨rfl, hzero⟩
      exact ⟨rfl, hzero⟩
    · refine h.replace (h.inv.releaseIfDead_held hlt hs) ?_
      intro d
      simp only [ChunkAllocator.liveUses, ChunkAllocator.chunk_releaseIfDead]
      exact h.balance d

/-- Taking a pending use. -/
theorem Ledger.consumeAt (h : Ledger ns slots (bumpAt pend p 1) leak none st) (hs : stream < ns) :
    AllocStep stream (fun c => p = .chunk c ∧ st.allocator.liveUses c = 1) st
        (st.consumeAt p stream) ∧
      Ledger ns slots pend leak none (st.consumeAt p stream) := by
  have hrefl : AllocStep stream (fun c => p = .chunk c ∧ st.allocator.liveUses c = 1) st st :=
    ⟨rfl, (ChunkAllocator.Evolves.refl _ _).mono fun _ hf => hf.elim⟩
  cases p with
  | chunk c =>
      have hbal := h.balance c
      simp only [bumpAt, bump_self] at hbal
      have hlive : 0 < st.allocator.liveUses c := by omega
      have hlt := lt_of_liveUses_pos hlive
      refine ⟨⟨rfl, ?_⟩, ?_⟩
      · refine (ChunkAllocator.evolves_consume h.inv hlt hlive hs).mono ?_
        rintro d ⟨rfl, hone⟩
        exact ⟨rfl, hone⟩
      · refine h.replace (h.inv.consume hlt hlive hs) ?_
        intro d
        rw [ChunkAllocator.liveUses_consume hlt]
        have hd := h.balance d
        by_cases hdc : d = c
        · subst hdc
          rw [if_pos rfl]
          omega
        · simp only [bumpAt, bump_of_ne _ _ hdc] at hd
          rw [if_neg hdc]
          exact hd
  | sessionState _ => exact ⟨hrefl, h⟩
  | initializer _ => exact ⟨hrefl, h⟩
  | input _ => exact ⟨hrefl, h⟩
  | output _ => exact ⟨hrefl, h⟩

/-- What allocating a chunk does: it had no live use, and its uses are pending. -/
structure Allocated (tier : MemoryTier) (size stream c : Nat) (st st' : SchedState) : Prop where
  step : AllocStep stream (fun _ => False) st st'
  zero : st.allocator.liveUses c = 0
  lt : c < st'.allocator.allChunks.length
  size : size ≤ st'.allocator.size c
  tier : st'.allocator.chunkTier c = tier
  source : (∃ i, c ∈ st.allocator.freeList i stream) ∨ st.allocator.allChunks.length ≤ c

theorem Ledger.allocChunk (h : Ledger env.numStreams slots pend leak none st) (tier : MemoryTier)
    (size : Nat) (hs : stream < env.numStreams) (uses : Nat) :
    Allocated tier size stream (st.allocChunk env tier size stream uses).2 st
        (st.allocChunk env tier size stream uses).1 ∧
      Ledger env.numStreams slots (bump pend (st.allocChunk env tier size stream uses).2 uses) leak
        (some (st.allocChunk env tier size stream uses).2)
        (st.allocChunk env tier size stream uses).1 := by
  -- both branches allocate from an arena of the tier in an allocator with the same counts
  obtain ⟨a, i, hi, htier, hinv, hev, hlive, hfl, hlen, heq⟩ : ∃ (a : ChunkAllocator) (i : Nat),
      i < a.arena2chunks.length ∧ (a.arena i).tier = tier ∧ a.Inv env.numStreams none ∧
      st.allocator.Evolves stream (fun _ => False) a ∧
      (∀ d, a.liveUses d = st.allocator.liveUses d) ∧
      (∀ j d, d ∈ a.freeList j stream → d ∈ st.allocator.freeList j stream) ∧
      a.allChunks.length = st.allocator.allChunks.length ∧
      st.allocChunk env tier size stream uses =
        ({ st with allocator := (a.alloc size i stream uses).1 },
          (a.alloc size i stream uses).2) := by
    unfold SchedState.allocChunk
    cases hfind : st.allocator.arena2chunks.findIdx? (fun a => a.tier == tier) with
    | some i =>
        obtain ⟨hi, hp, -⟩ := List.findIdx?_eq_some_iff_getElem.mp hfind
        refine ⟨st.allocator, i, hi, ?_, h.inv, .refl _ _, fun _ => rfl, fun _ _ hd => hd, rfl, rfl⟩
        simpa [ChunkAllocator.arena, List.getD_eq_getElem?_getD, hi] using hp
    | none =>
        have hev := ChunkAllocator.evolves_newArena st.allocator tier env.numStreams stream
        refine ⟨(st.allocator.newArena tier env.numStreams).1, st.allocator.arena2chunks.length,
          ?_, ?_, h.inv.newArena tier, hev, fun _ => rfl, ?_, rfl, rfl⟩
        · simp [ChunkAllocator.newArena]
        · simp [ChunkAllocator.newArena, ChunkAllocator.arena, ArenaChunks.new]
        · intro j d hd
          exact (hev.free j stream d hd).resolve_right fun hf => hf.2
  rw [heq]
  dsimp only
  obtain ⟨htaken, huses, hsize⟩ := ChunkAllocator.alloc_spec hinv hi hs size uses
  have hev' := ChunkAllocator.evolves_alloc hinv hi hs size uses stream
  have hzero : st.allocator.liveUses (a.alloc size i stream uses).2 = 0 := by
    rw [← hlive]
    exact htaken.zero
  refine ⟨?_, ?_⟩
  · exact
      { step := ⟨rfl, hev.trans hev'⟩
        zero := hzero
        lt := (htaken.lt_iff _).mpr (Or.inr rfl)
        size := by rw [hsize, if_pos rfl]; exact Nat.le_max_right _ _
        tier := by
          have harena := htaken.arena_self
          simp only [ChunkAllocator.arenaOf] at harena
          rw [ChunkAllocator.chunkTier, harena, htaken.tier]
          exact htier
        source := by
          rcases htaken.source with hmem | hnew
          · exact Or.inl ⟨i, hfl i _ hmem⟩
          · rw [← hlen]
            exact Or.inr (Nat.le_of_eq hnew.symm) }
  · refine h.replace htaken.inv ?_
    intro d
    rw [huses]
    by_cases hd : d = (a.alloc size i stream uses).2
    · obtain ⟨hreads, hpend, hleak⟩ := h.zero hzero
      rw [if_pos hd, hd, bump_self]
      omega
    · rw [if_neg hd, bump_of_ne _ _ hd, hlive]
      exact h.balance d

/-- A held chunk that is in use need not be held any more. -/
theorem Ledger.settle (h : Ledger ns slots pend leak (some c) st)
    (hlive : 0 < st.allocator.liveUses c) : Ledger ns slots pend leak none st :=
  { h with inv := h.inv.settle hlive }

/-- A pending use that is never taken back. -/
theorem Ledger.forget (h : Ledger ns slots (bump pend c n) leak held st) :
    Ledger ns slots pend (bump leak c n) held st where
  inv := h.inv
  uses := h.uses
  balance := by
    intro d
    have hd := h.balance d
    by_cases hdc : d = c
    · subst hdc
      rw [bump_self] at hd ⊢
      omega
    · rw [bump_of_ne _ _ hdc] at hd ⊢
      exact hd
  copied := by
    intro v t r hr
    obtain ⟨d, hd, hpos⟩ := h.copied v t r hr
    exact ⟨d, hd, Nat.lt_of_lt_of_le hpos (le_bump leak c n d)⟩

end SchedState
end NnEngine
