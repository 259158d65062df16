import NnEngine.Schedule.Scheduler.Common

/-!
# The chunk allocator's invariant

A chunk lies on a free list exactly when it has no live use, on one list of its own arena, and there
once.  Each operation of `ChunkAllocator` gets one specification lemma over the views `liveUses`,
`size`, `arenaId` and `freeList`; later modules never unfold the operations.
-/

namespace NnEngine

/-- Reading a list after `modify`. -/
theorem getD_modify {α : Type*} (l : List α) (i j : Nat) (f : α → α) (d : α) :
    (l.modify i f).getD j d = if i = j ∧ j < l.length then f (l.getD j d) else l.getD j d := by
  simp only [List.getD_eq_getElem?_getD, List.getElem?_modify]
  by_cases hlt : j < l.length
  · by_cases hij : i = j <;> simp [hij, hlt]
  · simp [hlt]

/-- Reading a list after `set`. -/
theorem getD_set {α : Type*} (l : List α) (i j : Nat) (a d : α) :
    (l.set i a).getD j d = if i = j ∧ j < l.length then a else l.getD j d := by
  simp only [List.getD_eq_getElem?_getD, List.getElem?_set]
  by_cases hij : i = j
  · subst hij
    by_cases hlt : i < l.length <;> simp [hlt]
  · simp [hij]

/-- Reading a list after an append of one element. -/
theorem getD_append_singleton {α : Type*} (l : List α) (a d : α) (j : Nat) :
    (l ++ [a]).getD j d = if j = l.length then a else l.getD j d := by
  simp only [List.getD_eq_getElem?_getD, List.getElem?_append]
  by_cases hlt : j < l.length
  · simp [hlt, Nat.ne_of_lt hlt]
  · by_cases heq : j = l.length
    · simp [heq]
    · have hpos : j - l.length ≠ 0 := by omega
      simp [hlt, heq, hpos]

theorem getD_of_length_le {α : Type*} (l : List α) (d : α) {j : Nat} (h : l.length ≤ j) :
    l.getD j d = d := by
  simp [List.getD_eq_getElem?_getD, List.getElem?_eq_none h]

namespace ChunkAllocator

variable {a a' : ChunkAllocator} {c d id i j s t ns : Nat}

/-- The free list of one arena and stream. -/
def freeList (a : ChunkAllocator) (i : Nat) (s : Nat) : List Nat :=
  (a.arena i).freePerStream.getD s []

/-- The chunk lies on some free list. -/
def IsFree (a : ChunkAllocator) (c : Nat) : Prop :=
  ∃ i s, c ∈ a.freeList i s

/-- `self.all_chunks[id].size`. -/
def size (a : ChunkAllocator) (c : Nat) : Nat := (a.chunk c).size

/-- `self.all_chunks[id].arena_id`. -/
def arenaOf (a : ChunkAllocator) (c : Nat) : Nat := (a.chunk c).arenaId

/-- The allocator's invariant.  `held` is a chunk that is taken out of its list and whose uses are
still being registered: it lies on no free list, whatever its count. -/
structure Inv (ns : Nat) (held : Option Nat) (a : ChunkAllocator) : Prop where
  streams : ∀ i : Nat, i < a.arena2chunks.length → (a.arena i).freePerStream.length = ns
  arena_lt : ∀ c : Nat, c < a.allChunks.length → a.arenaOf c < a.arena2chunks.length
  owned : ∀ i : Nat, i < a.arena2chunks.length →
    (a.arena i).owned = (List.range a.allChunks.length).filter fun c => a.arenaOf c = i
  free_nodup : ∀ i s, (a.freeList i s).Nodup
  free_arena : ∀ i s c, c ∈ a.freeList i s → a.arenaOf c = i
  free_stream : ∀ i s t c, c ∈ a.freeList i s → c ∈ a.freeList i t → s = t
  isFree_iff : ∀ c : Nat, a.IsFree c ↔ c < a.allChunks.length ∧ a.liveUses c = 0 ∧ held ≠ some c

theorem Inv.empty (ns : Nat) : Inv ns none {} where
  streams := by simp
  arena_lt := by simp
  owned := by simp
  free_nodup := by intro i s; simp [freeList, arena, default]
  free_arena := by intro i s c; simp [freeList, arena, default]
  free_stream := by intro i s t c; simp [freeList, arena, default]
  isFree_iff := by
    intro c
    simp [IsFree, freeList, arena, default]

/-- A chunk with a live use is on no free list. -/
theorem Inv.not_isFree_of_live {held : Option Nat} (h : Inv ns held a)
    (hlive : 0 < a.liveUses c) : ¬ a.IsFree c := by
  intro hfree
  have hzero := ((h.isFree_iff c).mp hfree).2.1
  omega

/-- A held chunk with a live use needs no exemption any more. -/
theorem Inv.settle (h : Inv ns (some c) a) (hlive : 0 < a.liveUses c) : Inv ns none a :=
  { h with
    isFree_iff := by
      intro d
      rw [h.isFree_iff d]
      constructor
      · rintro ⟨hlt, hzero, -⟩
        exact ⟨hlt, hzero, by simp⟩
      · rintro ⟨hlt, hzero, -⟩
        refine ⟨hlt, hzero, ?_⟩
        rintro ⟨rfl⟩
        omega }

/-- Two free lists that share a chunk are the same list. -/
theorem Inv.free_unique {held : Option Nat} (h : Inv ns held a) (hc : c ∈ a.freeList i s)
    (hc' : c ∈ a.freeList j t) : i = j ∧ s = t := by
  have hij : i = j := (h.free_arena i s c hc).symm.trans (h.free_arena j t c hc')
  subst hij
  exact ⟨rfl, h.free_stream i s t c hc hc'⟩

/-- The views of an allocator whose arenas did not change and whose chunks only changed in their
counts. -/
structure SameFree (a a' : ChunkAllocator) : Prop where
  arenas : a'.arena2chunks = a.arena2chunks
  length : a'.allChunks.length = a.allChunks.length
  arenaOf : ∀ c, a'.arenaOf c = a.arenaOf c

theorem SameFree.freeList (h : SameFree a a') (i : Nat) (s : Nat) :
    a'.freeList i s = a.freeList i s := by
  simp [ChunkAllocator.freeList, arena, h.arenas]

theorem SameFree.isFree (h : SameFree a a') (c : Nat) : a'.IsFree c ↔ a.IsFree c := by
  simp [IsFree, h.freeList]

/-- Counts may change as long as no chunk off the held one crosses zero. -/
theorem Inv.of_sameFree {held held' : Option Nat} (h : Inv ns held a) (hs : SameFree a a')
    (hzero : ∀ c : Nat, c < a.allChunks.length →
      (a'.liveUses c = 0 ∧ held' ≠ some c ↔ a.liveUses c = 0 ∧ held ≠ some c)) :
    Inv ns held' a' where
  streams := by
    intro i hi
    simpa [arena, hs.arenas] using h.streams i (by simpa [hs.arenas] using hi)
  arena_lt := by
    intro c hc
    rw [hs.arenaOf, hs.arenas]
    exact h.arena_lt c (by simpa [hs.length] using hc)
  owned := by
    intro i hi
    have howned := h.owned i (by simpa [hs.arenas] using hi)
    simpa [arena, hs.arenas, hs.length, hs.arenaOf] using howned
  free_nodup := by intro i s; rw [hs.freeList]; exact h.free_nodup i s
  free_arena := by
    intro i s c hc
    rw [hs.freeList] at hc
    rw [hs.arenaOf]
    exact h.free_arena i s c hc
  free_stream := by
    intro i s t c hc hc'
    rw [hs.freeList] at hc hc'
    exact h.free_stream i s t c hc hc'
  isFree_iff := by
    intro c
    rw [hs.isFree, h.isFree_iff c, hs.length]
    constructor
    · rintro ⟨hlt, hc⟩
      exact ⟨hlt, (hzero c hlt).mpr hc⟩
    · rintro ⟨hlt, hc⟩
      exact ⟨hlt, (hzero c hlt).mp hc⟩

/-! ### Changing one chunk's record -/

/-- `all_chunks[id]` changed by `f`. -/
def modifyChunk (a : ChunkAllocator) (id : Nat) (f : ChunkState → ChunkState) :
    ChunkAllocator :=
  { a with allChunks := a.allChunks.modify id f }

theorem chunk_modifyChunk (a : ChunkAllocator) (id c : Nat) (f : ChunkState → ChunkState) :
    (a.modifyChunk id f).chunk c =
      if id = c ∧ c < a.allChunks.length then f (a.chunk c) else a.chunk c := by
  simp only [modifyChunk, chunk]
  exact getD_modify a.allChunks id c f default

theorem sameFree_modifyChunk (a : ChunkAllocator) (id : Nat) (f : ChunkState → ChunkState)
    (hf : ∀ e, (f e).arenaId = e.arenaId) : SameFree a (a.modifyChunk id f) where
  arenas := rfl
  length := by simp [modifyChunk]
  arenaOf := by
    intro c
    simp only [arenaOf, chunk_modifyChunk]
    split <;> simp [hf]

theorem addUses_eq (a : ChunkAllocator) (id : Nat) (uses : Nat) :
    a.addUses id uses = a.modifyChunk id fun e => { e with liveUses := e.liveUses + uses } := rfl

theorem markAsFirstUse_eq (a : ChunkAllocator) (id : Nat) :
    (a.markAsFirstUse id).1 = a.modifyChunk id fun e => { e with firstUse := true } := rfl

theorem sameFree_addUses (a : ChunkAllocator) (id : Nat) (uses : Nat) :
    SameFree a (a.addUses id uses) :=
  sameFree_modifyChunk a id _ fun _ => rfl

theorem sameFree_markAsFirstUse (a : ChunkAllocator) (id : Nat) :
    SameFree a (a.markAsFirstUse id).1 :=
  sameFree_modifyChunk a id _ fun _ => rfl

theorem liveUses_addUses (hid : id < a.allChunks.length) (uses : Nat) (c : Nat) :
    (a.addUses id uses).liveUses c = if c = id then a.liveUses c + uses else a.liveUses c := by
  simp only [liveUses, addUses_eq, chunk_modifyChunk]
  by_cases hc : c = id
  · subst hc; simp [hid]
  · simp [hc, Ne.symm hc]

@[simp] theorem size_addUses (a : ChunkAllocator) (id : Nat) (uses : Nat) (c : Nat) :
    (a.addUses id uses).size c = a.size c := by
  simp only [size, addUses_eq, chunk_modifyChunk]
  split <;> rfl

@[simp] theorem liveUses_markAsFirstUse (a : ChunkAllocator) (id c : Nat) :
    (a.markAsFirstUse id).1.liveUses c = a.liveUses c := by
  simp only [liveUses, markAsFirstUse_eq, chunk_modifyChunk]
  split <;> rfl

@[simp] theorem size_markAsFirstUse (a : ChunkAllocator) (id c : Nat) :
    (a.markAsFirstUse id).1.size c = a.size c := by
  simp only [size, markAsFirstUse_eq, chunk_modifyChunk]
  split <;> rfl

theorem Inv.markAsFirstUse {held : Option Nat} (h : Inv ns held a) (id : Nat) :
    Inv ns held (a.markAsFirstUse id).1 :=
  h.of_sameFree (sameFree_markAsFirstUse a id) (by simp)

/-- Registering further uses of a chunk that is in use, or of the held chunk. -/
theorem Inv.addUses {held : Option Nat} (h : Inv ns held a) (hid : id < a.allChunks.length)
    (hlive : 0 < a.liveUses id ∨ held = some id) (uses : Nat) :
    Inv ns held (a.addUses id uses) := by
  refine h.of_sameFree (sameFree_addUses a id uses) ?_
  intro c hc
  rw [liveUses_addUses hid]
  by_cases heq : c = id
  · subst heq
    rcases hlive with hpos | rfl
    · simp; omega
    · simp
  · simp [heq]

/-! ### Freeing -/

/-- The free lists after `free`. -/
theorem freeList_free (h : id < a.allChunks.length → a.arenaOf id < a.arena2chunks.length)
    (hid : id < a.allChunks.length)
    (hs : s < ((a.arena (a.arenaOf id)).freePerStream).length) (j : Nat) (t : Nat) :
    (a.free id s).freeList j t =
      if j = a.arenaOf id ∧ t = s then id :: a.freeList j t else a.freeList j t := by
  have harena := h hid
  simp only [freeList, free, arena, getD_modify]
  by_cases hj : j = a.arenaOf id
  · subst hj
    rw [if_pos ⟨rfl, harena⟩]
    by_cases ht : t = s
    · subst ht
      rw [getD_modify, if_pos ⟨rfl, hs⟩, if_pos ⟨rfl, rfl⟩]
    · rw [getD_modify, if_neg (fun hst => ht hst.1.symm), if_neg (fun hst => ht hst.2)]
  · rw [if_neg (fun hst => hj hst.1.symm), if_neg (fun hst => hj hst.1)]

/-- Freeing the held chunk, whose count is zero, restores the invariant. -/
theorem Inv.free_held (h : Inv ns (some id) a) (hid : id < a.allChunks.length)
    (hzero : a.liveUses id = 0) (hs : s < ns) : Inv ns none (a.free id s) := by
  have hfl := freeList_free (h.arena_lt id) hid
    (s := s) (by rw [h.streams _ (h.arena_lt id hid)]; exact hs)
  have hnot : ∀ j t, id ∉ a.freeList j t := fun j t hmem =>
    ((h.isFree_iff id).mp ⟨j, t, hmem⟩).2.2 rfl
  have harenas : ∀ j, (a.free id s).arena j = if a.arenaOf id = j ∧ j < a.arena2chunks.length then
      { a.arena j with freePerStream := (a.arena j).freePerStream.modify s (id :: ·) }
      else a.arena j := fun j => getD_modify a.arena2chunks (a.arenaOf id) j _ default
  exact
    { streams := by
        intro j hj
        have hj' : j < a.arena2chunks.length := by simpa [free] using hj
        rw [harenas]
        split <;> simp [h.streams j hj']
      arena_lt := by
        intro c hc
        have := h.arena_lt c hc
        simpa [free, arenaOf, chunk] using this
      owned := by
        intro j hj
        have hj' : j < a.arena2chunks.length := by simpa [free] using hj
        rw [harenas]
        have := h.owned j hj'
        split <;> simpa [free, arenaOf, chunk] using this
      free_nodup := by
        intro j t
        rw [hfl]
        split
        · exact List.nodup_cons.mpr ⟨hnot j t, h.free_nodup j t⟩
        · exact h.free_nodup j t
      free_arena := by
        intro j t c hc
        rw [hfl] at hc
        split at hc
        · rename_i hjt
          rcases List.mem_cons.mp hc with rfl | hc
          · exact hjt.1.symm
          · exact h.free_arena j t c hc
        · exact h.free_arena j t c hc
      free_stream := by
        intro j t u c hc hc'
        rw [hfl] at hc hc'
        by_cases hcid : c = id
        · subst hcid
          have ht : t = s := by
            by_contra hne
            simp [hne] at hc
            exact hnot j t hc
          have hu : u = s := by
            by_contra hne
            simp [hne] at hc'
            exact hnot j u hc'
          rw [ht, hu]
        · have hmem : ∀ w, c ∈ (if j = a.arenaOf id ∧ w = s then id :: a.freeList j w
              else a.freeList j w) → c ∈ a.freeList j w := by
            intro w hw
            split at hw
            · exact (List.mem_cons.mp hw).resolve_left hcid
            · exact hw
          exact h.free_stream j t u c (hmem t hc) (hmem u hc')
      isFree_iff := by
        intro c
        constructor
        · rintro ⟨j, t, hmem⟩
          rw [hfl] at hmem
          by_cases hcid : c = id
          · subst hcid
            exact ⟨hid, hzero, by simp⟩
          · have hold : c ∈ a.freeList j t := by
              split at hmem
              · exact (List.mem_cons.mp hmem).resolve_left hcid
              · exact hmem
            obtain ⟨hlt, hz, -⟩ := (h.isFree_iff c).mp ⟨j, t, hold⟩
            exact ⟨hlt, hz, by simp⟩
        · rintro ⟨hlt, hz, -⟩
          by_cases hcid : c = id
          · subst hcid
            exact ⟨a.arenaOf c, s, by rw [hfl]; simp⟩
          · obtain ⟨j, t, hmem⟩ := (h.isFree_iff c).mpr ⟨hlt, hz, by simpa using Ne.symm hcid⟩
            refine ⟨j, t, ?_⟩
            rw [hfl]
            split
            · exact List.mem_cons_of_mem _ hmem
            · exact hmem }

@[simp] theorem chunk_free (a : ChunkAllocator) (id c : Nat) (s : Nat) :
    (a.free id s).chunk c = a.chunk c := rfl

@[simp] theorem chunk_releaseIfDead (a : ChunkAllocator) (id c : Nat) (s : Nat) :
    (a.releaseIfDead id s).chunk c = a.chunk c := by
  unfold releaseIfDead; split <;> rfl

/-- `release_if_dead` on the held chunk ends the holding. -/
theorem Inv.releaseIfDead_held (h : Inv ns (some id) a) (hid : id < a.allChunks.length)
    (hs : s < ns) : Inv ns none (a.releaseIfDead id s) := by
  unfold releaseIfDead
  split
  · rename_i hzero
    exact h.free_held hid hzero hs
  · rename_i hpos
    exact h.settle (by omega)

/-- `release_if_dead` on a chunk in use does nothing. -/
theorem releaseIfDead_of_live (hlive : 0 < a.liveUses id) : a.releaseIfDead id s = a := by
  unfold releaseIfDead
  rw [if_neg (by omega)]

/-- The chunk records after `consume`. -/
theorem liveUses_consume (hid : id < a.allChunks.length) (s : Nat) (c : Nat) :
    (a.consume id s).liveUses c = if c = id then a.liveUses c - 1 else a.liveUses c := by
  simp only [consume, liveUses, chunk_releaseIfDead]
  have := chunk_modifyChunk a id c fun e => { e with liveUses := e.liveUses - 1 }
  simp only [modifyChunk] at this
  rw [this]
  by_cases hc : c = id
  · subst hc; simp [hid]
  · simp [hc, Ne.symm hc]

/-- Taking one of the live uses of a chunk. -/
theorem Inv.consume (h : Inv ns none a) (hid : id < a.allChunks.length)
    (hlive : 0 < a.liveUses id) (hs : s < ns) : Inv ns none (a.consume id s) := by
  have hsame := sameFree_modifyChunk a id (fun e => { e with liveUses := e.liveUses - 1 })
    fun _ => rfl
  have hheld : Inv ns (some id)
      (a.modifyChunk id fun e => { e with liveUses := e.liveUses - 1 }) := by
    refine h.of_sameFree hsame ?_
    intro c hc
    simp only [liveUses, chunk_modifyChunk]
    by_cases heq : id = c
    · subst heq
      simp only [liveUses] at hlive
      simp; omega
    · simp [heq]
  exact hheld.releaseIfDead_held (by rw [hsame.length]; exact hid) hs

/-! ### Allocation -/

/-- What taking or allocating chunk `c` from arena `i` for stream `s` changes. -/
structure Taken (ns : Nat) (i : Nat) (s : Nat) (c : Nat)
    (a a' : ChunkAllocator) : Prop where
  inv : Inv ns (some c) a'
  lt_iff : ∀ d : Nat, d < a'.allChunks.length ↔ d < a.allChunks.length ∨ d = c
  zero : a.liveUses c = 0
  source : c ∈ a.freeList i s ∨ c = a.allChunks.length
  arena_self : a'.arenaOf c = i
  arenaOf : ∀ d, d ≠ c → a'.arenaOf d = a.arenaOf d
  arenas : a'.arena2chunks.length = a.arena2chunks.length
  tier : ∀ j, (a'.arena j).tier = (a.arena j).tier
  mem_freeList : ∀ j t d, d ∈ a'.freeList j t ↔ d ∈ a.freeList j t ∧ d ≠ c

/-- The allocator after the free list of arena `i` and stream `s` is cut down to `rest`. -/
def popped (a : ChunkAllocator) (i : Nat) (s : Nat) (rest : List Nat) :
    ChunkAllocator :=
  { a with
    arena2chunks := a.arena2chunks.modify i fun ar =>
      { ar with freePerStream := ar.freePerStream.set s rest } }

/-- The allocator after arena `i` came to own a new empty chunk. -/
def grown (a : ChunkAllocator) (i : Nat) : ChunkAllocator where
  arena2chunks := a.arena2chunks.modify i fun ar =>
    { ar with owned := ar.owned ++ [a.allChunks.length] }
  allChunks := a.allChunks ++ [⟨i, 0, 0, false⟩]

/-- The popping branch of `take_chunk`. -/
theorem taken_pop (h : Inv ns none a) (hi : i < a.arena2chunks.length) (hs : s < ns)
    {rest : List Nat} (hpop : (a.arena i).freePerStream.getD s [] = c :: rest) :
    Taken ns i s c a (a.popped i s rest) := by
  have hmem : c ∈ a.freeList i s := by
    rw [freeList, hpop]
    exact List.mem_cons_self
  obtain ⟨hlt, hzero, -⟩ := (h.isFree_iff c).mp ⟨i, s, hmem⟩
  have harena := h.free_arena i s c hmem
  have hlen : s < (a.arena i).freePerStream.length := by rw [h.streams i hi]; exact hs
  have harenas : ∀ j, (a.popped i s rest).arena j =
      if i = j ∧ j < a.arena2chunks.length then
        { a.arena j with freePerStream := (a.arena j).freePerStream.set s rest }
      else a.arena j := fun j => getD_modify a.arena2chunks i j _ default
  have hnodup := h.free_nodup i s
  rw [freeList, hpop, List.nodup_cons] at hnodup
  have hfl : ∀ j t, (a.popped i s rest).freeList j t =
      if j = i ∧ t = s then rest else a.freeList j t := by
    intro j t
    simp only [freeList, harenas]
    by_cases hj : i = j
    · subst hj
      rw [if_pos ⟨rfl, hi⟩]
      by_cases ht : s = t
      · subst ht
        rw [getD_set, if_pos ⟨rfl, hlen⟩, if_pos ⟨rfl, rfl⟩]
      · rw [getD_set, if_neg (fun hst => ht hst.1), if_neg (fun hst => ht hst.2.symm)]
    · rw [if_neg (fun hst => hj hst.1), if_neg (fun hst => hj hst.1.symm)]
  have hmemFree : ∀ j t d, d ∈ (a.popped i s rest).freeList j t ↔
      d ∈ a.freeList j t ∧ d ≠ c := by
    intro j t d
    rw [hfl]
    by_cases hjt : j = i ∧ t = s
    · obtain ⟨rfl, rfl⟩ := hjt
      rw [if_pos ⟨rfl, rfl⟩, freeList, hpop, List.mem_cons]
      constructor
      · intro hd
        exact ⟨Or.inr hd, fun hdc => hnodup.1 (hdc ▸ hd)⟩
      · rintro ⟨rfl | hd, hne⟩
        · exact absurd rfl hne
        · exact hd
    · rw [if_neg hjt]
      constructor
      · intro hd
        refine ⟨hd, ?_⟩
        rintro rfl
        exact hjt (h.free_unique hd hmem)
      · exact And.left
  refine
    { inv :=
        { streams := ?_, arena_lt := ?_, owned := ?_, free_nodup := ?_, free_arena := ?_,
          free_stream := ?_, isFree_iff := ?_ }
      lt_iff := ?_, zero := hzero, source := Or.inl hmem, arena_self := harena
      arenaOf := fun d _ => rfl, arenas := by simp [popped], tier := ?_, mem_freeList := hmemFree }
  · intro j hj
    have hj' : j < a.arena2chunks.length := by simpa [popped] using hj
    rw [harenas]
    split <;> simp [h.streams j hj']
  · intro d hd
    simpa [popped, ChunkAllocator.arenaOf, chunk] using h.arena_lt d hd
  · intro j hj
    have hj' : j < a.arena2chunks.length := by simpa [popped] using hj
    rw [harenas]
    have howned := h.owned j hj'
    split <;> simpa [popped, ChunkAllocator.arenaOf, chunk] using howned
  · intro j t
    rw [hfl]
    split
    · exact hnodup.2
    · exact h.free_nodup j t
  · intro j t d hd
    exact h.free_arena j t d ((hmemFree j t d).mp hd).1
  · intro j t u d hd hd'
    exact h.free_stream j t u d ((hmemFree j t d).mp hd).1 ((hmemFree j u d).mp hd').1
  · intro d
    constructor
    · rintro ⟨j, t, hd⟩
      obtain ⟨hd, hne⟩ := (hmemFree j t d).mp hd
      obtain ⟨hdlt, hdzero, -⟩ := (h.isFree_iff d).mp ⟨j, t, hd⟩
      exact ⟨hdlt, hdzero, by simpa using Ne.symm hne⟩
    · rintro ⟨hdlt, hdzero, hne⟩
      obtain ⟨j, t, hd⟩ := (h.isFree_iff d).mpr ⟨hdlt, hdzero, by simp⟩
      exact ⟨j, t, (hmemFree j t d).mpr ⟨hd, by simpa using Ne.symm hne⟩⟩
  · intro d
    constructor
    · exact Or.inl
    · rintro (hd | rfl)
      · exact hd
      · exact hlt
  · intro j
    rw [harenas]
    split <;> rfl

/-- The growing branch of `take_chunk`. -/
theorem taken_grow (h : Inv ns none a) (hi : i < a.arena2chunks.length) :
    Taken ns i s a.allChunks.length a (a.grown i) := by
  have hnone : ∀ j t, a.allChunks.length ∉ a.freeList j t := by
    intro j t hmem
    have hlt := ((h.isFree_iff _).mp ⟨j, t, hmem⟩).1
    omega
  have harenas : ∀ j, (a.grown i).arena j =
      if i = j ∧ j < a.arena2chunks.length then
        { a.arena j with owned := (a.arena j).owned ++ [a.allChunks.length] }
      else a.arena j := fun j => getD_modify a.arena2chunks i j _ default
  have hchunk : ∀ d, (a.grown i).chunk d =
      if d = a.allChunks.length then ⟨i, 0, 0, false⟩ else a.chunk d :=
    fun d => getD_append_singleton a.allChunks _ _ d
  have hfl : ∀ j t, (a.grown i).freeList j t = a.freeList j t := by
    intro j t
    simp only [freeList, harenas]
    split <;> rfl
  have hout : a.chunk a.allChunks.length = default :=
    getD_of_length_le a.allChunks default (Nat.le_refl _)
  refine
    { inv :=
        { streams := ?_, arena_lt := ?_, owned := ?_, free_nodup := ?_, free_arena := ?_,
          free_stream := ?_, isFree_iff := ?_ }
      lt_iff := ?_, zero := ?_, source := Or.inr rfl, arena_self := ?_
      arenaOf := ?_, arenas := by simp [grown], tier := ?_, mem_freeList := ?_ }
  · intro j hj
    have hj' : j < a.arena2chunks.length := by simpa [grown] using hj
    rw [harenas]
    split <;> simp [h.streams j hj']
  · intro d hd
    rw [ChunkAllocator.arenaOf, hchunk]
    have harenasLen : (a.grown i).arena2chunks.length = a.arena2chunks.length := by simp [grown]
    rw [harenasLen]
    by_cases hdn : d = a.allChunks.length
    · rw [if_pos hdn]
      exact hi
    · rw [if_neg hdn]
      have hlt : d < a.allChunks.length := by
        simp only [grown, List.length_append, List.length_singleton] at hd
        omega
      exact h.arena_lt d hlt
  · intro j hj
    have hj' : j < a.arena2chunks.length := by simpa [grown] using hj
    have howned := h.owned j hj'
    have harenaOf : ∀ d, (a.grown i).arenaOf d =
        if d = a.allChunks.length then i else a.arenaOf d := by
      intro d
      rw [ChunkAllocator.arenaOf, hchunk]
      split <;> rfl
    have hlen : (a.grown i).allChunks.length = a.allChunks.length + 1 := by simp [grown]
    have hfilter : (List.range a.allChunks.length).filter
          (fun d => decide ((a.grown i).arenaOf d = j)) =
        (List.range a.allChunks.length).filter fun d => decide (a.arenaOf d = j) := by
      apply List.filter_congr
      intro d hd
      have hne : d ≠ a.allChunks.length := by
        have := List.mem_range.mp hd
        omega
      rw [harenaOf, if_neg hne]
    rw [harenas, hlen, List.range_succ, List.filter_append, hfilter]
    by_cases hij : i = j
    · subst hij
      simp [hi, howned, harenaOf]
    · simp [hij, howned, harenaOf]
  · intro j t
    rw [hfl]
    exact h.free_nodup j t
  · intro j t d hd
    rw [hfl] at hd
    have hne : d ≠ a.allChunks.length := by
      rintro rfl
      exact hnone j t hd
    rw [ChunkAllocator.arenaOf, hchunk, if_neg hne]
    exact h.free_arena j t d hd
  · intro j t u d hd hd'
    rw [hfl] at hd hd'
    exact h.free_stream j t u d hd hd'
  · intro d
    have hfree : (a.grown i).IsFree d ↔ a.IsFree d := by
      simp [IsFree, hfl]
    have hlen : (a.grown i).allChunks.length = a.allChunks.length + 1 := by simp [grown]
    have hlive : (a.grown i).liveUses d =
        if d = a.allChunks.length then 0 else a.liveUses d := by
      rw [liveUses, hchunk]
      split <;> rfl
    rw [hfree, h.isFree_iff d, hlen, hlive]
    by_cases hdn : d = a.allChunks.length
    · simp [hdn]
    · have hlt : d < a.allChunks.length + 1 ↔ d < a.allChunks.length := by omega
      simp [hdn, hlt, Ne.symm hdn]
  · intro d
    have hlen : (a.grown i).allChunks.length = a.allChunks.length + 1 := by simp [grown]
    rw [hlen]
    omega
  · rw [liveUses, hout]
    rfl
  · rw [ChunkAllocator.arenaOf, hchunk, if_pos rfl]
  · intro d hd
    rw [ChunkAllocator.arenaOf, hchunk, if_neg hd]
    rfl
  · intro j
    rw [harenas]
    split <;> rfl
  · intro j t d
    rw [hfl]
    constructor
    · intro hd
      refine ⟨hd, ?_⟩
      rintro rfl
      exact hnone j t hd
    · exact And.left

theorem takeChunk_taken (h : Inv ns none a) (hi : i < a.arena2chunks.length) (hs : s < ns) :
    Taken ns i s (a.takeChunk i s).2 a (a.takeChunk i s).1 := by
  unfold takeChunk
  split
  · rename_i c rest hpop
    exact taken_pop h hi hs hpop
  · exact taken_grow h hi

/-- `take_chunk` changes no chunk that existed. -/
theorem chunk_takeChunk (a : ChunkAllocator) (i : Nat) (s : Nat) (d : Nat) :
    (a.takeChunk i s).1.liveUses d = a.liveUses d ∧ (a.takeChunk i s).1.size d = a.size d := by
  unfold takeChunk
  split
  · exact ⟨rfl, rfl⟩
  · simp only [liveUses, size, chunk, getD_append_singleton]
    by_cases hd : d = a.allChunks.length
    · have hout := getD_of_length_le a.allChunks (default : ChunkState) (Nat.le_of_eq hd.symm)
      rw [if_pos hd, hout]
      exact ⟨rfl, rfl⟩
    · rw [if_neg hd]
      exact ⟨rfl, rfl⟩

/-- The specification of `alloc`: a chunk without live uses is taken, gains the uses and grows to
the request. -/
theorem alloc_spec (h : Inv ns none a) (hi : i < a.arena2chunks.length) (hs : s < ns)
    (bytes uses : Nat) :
    Taken ns i s (a.alloc bytes i s uses).2 a (a.alloc bytes i s uses).1 ∧
      (∀ d, (a.alloc bytes i s uses).1.liveUses d =
        if d = (a.alloc bytes i s uses).2 then uses else a.liveUses d) ∧
      (∀ d, (a.alloc bytes i s uses).1.size d =
        if d = (a.alloc bytes i s uses).2 then max (a.size d) bytes else a.size d) := by
  have htaken := takeChunk_taken h hi hs
  have hviews := chunk_takeChunk a i s
  generalize hr : a.takeChunk i s = r at htaken hviews
  obtain ⟨b, c⟩ := r
  have halloc : a.alloc bytes i s uses = (b.modifyChunk c fun e =>
      { e with size := max e.size bytes, liveUses := e.liveUses + uses }, c) := by
    simp [alloc, hr, modifyChunk]
  rw [halloc]
  have hlt : c < b.allChunks.length := (htaken.lt_iff c).mpr (Or.inr rfl)
  have hsame := sameFree_modifyChunk b c (fun e =>
    { e with size := max e.size bytes, liveUses := e.liveUses + uses }) fun _ => rfl
  have hzero : b.liveUses c = 0 := (hviews c).1.trans htaken.zero
  refine ⟨?_, ?_, ?_⟩
  · exact
      { inv := by
          refine htaken.inv.of_sameFree hsame ?_
          intro d hd
          simp only [liveUses, chunk_modifyChunk]
          by_cases hdc : c = d
          · simp [hdc]
          · simp [hdc]
        lt_iff := by
          intro d
          rw [hsame.length]
          exact htaken.lt_iff d
        zero := htaken.zero
        source := htaken.source
        arena_self := by rw [hsame.arenaOf]; exact htaken.arena_self
        arenaOf := by
          intro d hd
          rw [hsame.arenaOf]
          exact htaken.arenaOf d hd
        arenas := htaken.arenas
        tier := htaken.tier
        mem_freeList := by
          intro j t d
          rw [hsame.freeList]
          exact htaken.mem_freeList j t d }
  · intro d
    simp only [liveUses, chunk_modifyChunk]
    by_cases hdc : d = c
    · subst hdc
      simp only [liveUses] at hzero
      simp [hlt, hzero]
    · simp only [if_neg (fun h : c = d ∧ _ => hdc h.1.symm), if_neg hdc]
      exact (hviews d).1
  · intro d
    simp only [size, chunk_modifyChunk]
    by_cases hdc : d = c
    · subst hdc
      have hsize := (hviews d).2
      simp only [size] at hsize
      simp [hlt, hsize]
    · simp only [if_neg (fun h : c = d ∧ _ => hdc h.1.symm), if_neg hdc]
      exact (hviews d).2

/-- A new arena owns no chunk. -/
theorem Inv.newArena (h : Inv ns none a) (tier : MemoryTier) :
    Inv ns none (a.newArena tier ns).1 := by
  have harenas : ∀ j, (a.newArena tier ns).1.arena j =
      if j = a.arena2chunks.length then ArenaChunks.new tier ns else a.arena j :=
    fun j => getD_append_singleton a.arena2chunks _ _ j
  have hfl : ∀ j t, (a.newArena tier ns).1.freeList j t = a.freeList j t := by
    intro j t
    simp only [freeList, harenas]
    by_cases hj : j = a.arena2chunks.length
    · have hout : a.arena j = default :=
        getD_of_length_le a.arena2chunks default (Nat.le_of_eq hj.symm)
      rw [if_pos hj, hout]
      simp only [ArenaChunks.new, List.getD_eq_getElem?_getD, List.getElem?_replicate, default]
      split <;> simp
    · rw [if_neg hj]
  have hfree : ∀ c, (a.newArena tier ns).1.IsFree c ↔ a.IsFree c := by
    intro c
    simp [IsFree, hfl]
  refine
    { streams := ?_, arena_lt := ?_, owned := ?_, free_nodup := ?_, free_arena := ?_,
      free_stream := ?_, isFree_iff := ?_ }
  · intro j hj
    rw [harenas]
    by_cases hjn : j = a.arena2chunks.length
    · simp [hjn, ArenaChunks.new]
    · rw [if_neg hjn]
      exact h.streams j (by simp [ChunkAllocator.newArena] at hj; omega)
  · intro c hc
    have := h.arena_lt c hc
    simp only [ChunkAllocator.newArena, ChunkAllocator.arenaOf, chunk, List.length_append,
      List.length_singleton] at this ⊢
    omega
  · intro j hj
    rw [harenas]
    by_cases hjn : j = a.arena2chunks.length
    · rw [if_pos hjn]
      symm
      simp only [ArenaChunks.new, List.filter_eq_nil_iff, List.mem_range, decide_eq_true_eq]
      intro c hc
      have hlt := h.arena_lt c hc
      have harenaOf : (a.newArena tier ns).1.arenaOf c = a.arenaOf c := rfl
      omega
    · rw [if_neg hjn]
      exact h.owned j (by simp [ChunkAllocator.newArena] at hj; omega)
  · intro j t
    rw [hfl]
    exact h.free_nodup j t
  · intro j t c hc
    rw [hfl] at hc
    exact h.free_arena j t c hc
  · intro j t u c hc hc'
    rw [hfl] at hc hc'
    exact h.free_stream j t u c hc hc'
  · intro c
    rw [hfree]
    exact h.isFree_iff c

/-! ### How the allocator evolves -/

/-- What every operation keeps: chunks never shrink or move to another arena, and a chunk that gets
on a free list is one of `freed` and gets on the list of stream `s`. -/
structure Evolves (s : Nat) (freed : Nat → Prop) (a a' : ChunkAllocator) : Prop where
  length : a.allChunks.length ≤ a'.allChunks.length
  size : ∀ c, a.size c ≤ a'.size c
  arenaOf : ∀ c : Nat, c < a.allChunks.length → a'.arenaOf c = a.arenaOf c
  arenas : a.arena2chunks.length ≤ a'.arena2chunks.length
  tier : ∀ i : Nat, i < a.arena2chunks.length → (a'.arena i).tier = (a.arena i).tier
  free : ∀ i t d, d ∈ a'.freeList i t → d ∈ a.freeList i t ∨ (t = s ∧ freed d)

variable {freed freed' : Nat → Prop}

theorem Evolves.refl (s : Nat) (a : ChunkAllocator) : Evolves s (fun _ => False) a a where
  length := Nat.le_refl _
  size := fun _ => Nat.le_refl _
  arenaOf := fun _ _ => rfl
  arenas := Nat.le_refl _
  tier := fun _ _ => rfl
  free := fun _ _ _ h => Or.inl h

theorem Evolves.mono (h : Evolves s freed a a') (hf : ∀ c, freed c → freed' c) :
    Evolves s freed' a a' :=
  { h with free := fun i t d hd => (h.free i t d hd).imp_right fun ⟨ht, hd⟩ => ⟨ht, hf d hd⟩ }

theorem Evolves.trans {a'' : ChunkAllocator} (h : Evolves s freed a a')
    (h' : Evolves s freed a' a'') : Evolves s freed a a'' where
  length := h.length.trans h'.length
  size := fun c => (h.size c).trans (h'.size c)
  arenaOf := fun c hc => (h'.arenaOf c (Nat.lt_of_lt_of_le hc h.length)).trans (h.arenaOf c hc)
  arenas := h.arenas.trans h'.arenas
  tier := fun i hi => (h'.tier i (Nat.lt_of_lt_of_le hi h.arenas)).trans (h.tier i hi)
  free := by
    intro i t d hd
    rcases h'.free i t d hd with hd | hd
    · exact h.free i t d hd
    · exact Or.inr hd

/-- A chunk stays in the tier it was allocated in. -/
theorem Evolves.chunkTier (h : Evolves s freed a a') {held : Option Nat} (hinv : Inv ns held a)
    (hc : c < a.allChunks.length) : a'.chunkTier c = a.chunkTier c := by
  have harena := h.arenaOf c hc
  simp only [ChunkAllocator.arenaOf] at harena
  rw [ChunkAllocator.chunkTier, harena]
  exact h.tier _ (hinv.arena_lt c hc)

theorem SameFree.evolves (h : SameFree a a') (hsize : ∀ c, a.size c ≤ a'.size c) (s : Nat) :
    Evolves s (fun _ => False) a a' where
  length := Nat.le_of_eq h.length.symm
  size := hsize
  arenaOf := fun c _ => h.arenaOf c
  arenas := by rw [h.arenas]
  tier := fun i _ => by simp [arena, h.arenas]
  free := fun i t d hd => Or.inl (by rwa [h.freeList] at hd)

theorem evolves_addUses (a : ChunkAllocator) (id uses s : Nat) :
    Evolves s (fun _ => False) a (a.addUses id uses) :=
  (sameFree_addUses a id uses).evolves (by simp) s

theorem evolves_markAsFirstUse (a : ChunkAllocator) (id s : Nat) :
    Evolves s (fun _ => False) a (a.markAsFirstUse id).1 :=
  (sameFree_markAsFirstUse a id).evolves (by simp) s

theorem Taken.evolves (h : Taken ns i s c a a') (hsize : ∀ d, a.size d ≤ a'.size d)
    (hc : c < a.allChunks.length → a.arenaOf c = i) (t : Nat) :
    Evolves t (fun _ => False) a a' where
  length := by
    by_contra hlt
    have := (h.lt_iff a'.allChunks.length).mpr (Or.inl (by omega))
    omega
  size := hsize
  arenaOf := by
    intro d hd
    by_cases hdc : d = c
    · subst hdc
      rw [h.arena_self, hc hd]
    · exact h.arenaOf d hdc
  arenas := Nat.le_of_eq h.arenas.symm
  tier := fun j _ => h.tier j
  free := fun j t d hd => Or.inl ((h.mem_freeList j t d).mp hd).1

theorem evolves_alloc (h : Inv ns none a) (hi : i < a.arena2chunks.length) (hs : s < ns)
    (bytes uses t : Nat) : Evolves t (fun _ => False) a (a.alloc bytes i s uses).1 := by
  obtain ⟨htaken, -, hsize⟩ := alloc_spec h hi hs bytes uses
  refine htaken.evolves ?_ ?_ t
  · intro d
    rw [hsize d]
    split
    · exact Nat.le_max_left _ _
    · exact Nat.le_refl _
  · intro hlt
    rcases htaken.source with hmem | hnew
    · exact h.free_arena i s _ hmem
    · omega

theorem evolves_free (h : Inv ns held a) (hid : id < a.allChunks.length) (hs : s < ns) :
    Evolves s (· = id) a (a.free id s) where
  length := Nat.le_refl _
  size := fun _ => Nat.le_refl _
  arenaOf := fun _ _ => rfl
  arenas := by simp [ChunkAllocator.free]
  tier := by
    intro j hj
    simp only [ChunkAllocator.free, arena, getD_modify]
    split <;> rfl
  free := by
    intro j t d hd
    rw [freeList_free (h.arena_lt id) hid (by rw [h.streams _ (h.arena_lt id hid)]; exact hs)] at hd
    split at hd
    · rename_i hcond
      rcases List.mem_cons.mp hd with rfl | hd
      · exact Or.inr ⟨hcond.2, rfl⟩
      · exact Or.inl hd
    · exact Or.inl hd

theorem evolves_releaseIfDead (h : Inv ns held a) (hid : id < a.allChunks.length) (hs : s < ns) :
    Evolves s (fun d => d = id ∧ a.liveUses id = 0) a (a.releaseIfDead id s) := by
  unfold releaseIfDead
  split
  · rename_i hzero
    exact (evolves_free h hid hs).mono fun c hc => ⟨hc, hzero⟩
  · exact (Evolves.refl s a).mono fun _ hf => hf.elim

theorem evolves_consume (h : Inv ns none a) (hid : id < a.allChunks.length)
    (hlive : 0 < a.liveUses id) (hs : s < ns) :
    Evolves s (fun d => d = id ∧ a.liveUses id = 1) a (a.consume id s) := by
  have hsame := sameFree_modifyChunk a id (fun e => { e with liveUses := e.liveUses - 1 })
    fun _ => rfl
  have hcount : ∀ c, (a.modifyChunk id fun e => { e with liveUses := e.liveUses - 1 }).liveUses c =
      if c = id then a.liveUses c - 1 else a.liveUses c := by
    intro c
    simp only [liveUses, chunk_modifyChunk]
    by_cases hc : c = id
    · subst hc; simp [hid]
    · simp [hc, Ne.symm hc]
  have hheld : Inv ns (some id)
      (a.modifyChunk id fun e => { e with liveUses := e.liveUses - 1 }) := by
    refine h.of_sameFree hsame ?_
    intro c _
    rw [hcount]
    by_cases hc : c = id
    · subst hc; simp; omega
    · simp [hc, Ne.symm hc]
  have hdec : Evolves s (fun d => d = id ∧ a.liveUses id = 1) a
      (a.modifyChunk id fun e => { e with liveUses := e.liveUses - 1 }) := by
    refine (hsame.evolves ?_ s).mono fun _ hf => hf.elim
    intro c
    simp only [size, chunk_modifyChunk]
    split <;> exact Nat.le_refl _
  refine hdec.trans ((evolves_releaseIfDead hheld (by rw [hsame.length]; exact hid) hs).mono ?_)
  rintro d ⟨rfl, hzero⟩
  rw [hcount, if_pos rfl] at hzero
  exact ⟨rfl, by omega⟩

theorem evolves_newArena (a : ChunkAllocator) (tier : MemoryTier) (ns s : Nat) :
    Evolves s (fun _ => False) a (a.newArena tier ns).1 where
  length := Nat.le_refl _
  size := fun _ => Nat.le_refl _
  arenaOf := fun _ _ => rfl
  arenas := by simp [ChunkAllocator.newArena]
  tier := by
    intro i hi
    simp only [ChunkAllocator.newArena, arena, getD_append_singleton]
    rw [if_neg (Nat.ne_of_lt hi)]
  free := by
    intro j t d hd
    left
    simp only [freeList, ChunkAllocator.newArena, arena, getD_append_singleton] at hd ⊢
    split at hd
    · simp only [ArenaChunks.new, List.getD_eq_getElem?_getD, List.getElem?_replicate] at hd
      split at hd <;> simp at hd
    · exact hd

end ChunkAllocator

end NnEngine
