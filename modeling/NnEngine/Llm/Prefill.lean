import NnEngine.Llm.Attention
import NnEngine.Llm.Conversation

/-!
# Prefill

A prefill runs a prompt in padded chunks.  `Holds` is what every step of a session keeps: the
positions below `past_len` hold the tokens of a conversation, and padding lies above.  With the
causal rule of the kernels, the query rows of a prefill then see what they would see in decode steps
over the same tokens.
-/

namespace NnEngine
namespace Llm

open Attention

variable {s : LlmSession} {st st' : State} {conv ids : List Token} {token : Token}
  {prefillLen seqK : Nat} {isCausal : Bool}

/-- What a position of the cache holds: the keys and values of a fed token, or of padding. -/
structure Entry where
  token : Token
  real : Bool
  deriving DecidableEq, Repr

def Entry.ofToken (token : Token) : Entry := { token, real := true }

/-- What a graph run writes at a position. -/
def Feed.entry (f : Feed) (pos : Nat) : Option Entry :=
  (written f pos).map fun token =>
    { token, real := decide (pos - f.inputs.pastLen < f.chunkSize) }

/-- What a position holds after all graph runs. -/
def entryAt (feeds : List Feed) (pos : Nat) : Option Entry :=
  feeds.foldl (fun held f => (f.entry pos).or held) none

/-- The positions below `past_len` hold a conversation. -/
structure Holds (st : State) (conv : List Token) : Prop where
  pastLen : st.pastLen = conv.length
  entry : ∀ pos < conv.length, entryAt st.feeds pos = conv[pos]?.map .ofToken

/-- A query row of a graph run: its token, the cache position it writes, its position id, and the
cache positions it sees with what they hold. -/
structure QueryRow where
  token : Option Token
  slot : Option Nat
  position : Option Nat
  seen : List (Nat × Option Entry)
  deriving DecidableEq, Repr

/-- Query row `r` of a run of a graph whose cache has `seqK` positions.  There is no ring, so that a
rank is a position.  The cache is updated before the attention. -/
def queryRow (isCausal : Bool) (seqK : Nat) (before : List Feed) (f : Feed) (r : Nat) : QueryRow :=
  let active := f.inputs.activeSeqKv.getD seqK
  { token := f.inputs.inputIds[r]?
    slot := (updateSlots f.inputs)[r]?
    position := f.inputs.positions[r]?
    seen := ((List.range active).filter
      (seesColumn isCausal f.inputs.inputIds.length seqK active r)).map fun pos =>
        (pos, entryAt (before ++ [f]) pos) }

/-- The rows of the real tokens of graph runs that come after `before`. -/
def queryRows (isCausal : Bool) (seqK : Nat) : List Feed → List Feed → List QueryRow
  | _, [] => []
  | before, f :: feeds =>
      (List.range f.chunkSize).map (queryRow isCausal seqK before f) ++
        queryRows isCausal seqK (before ++ [f]) feeds

/-- The row of token `i` of a conversation: it is at its own position, and sees itself and the tokens
before it. -/
def tokenRow (conv : List Token) (i : Nat) : QueryRow :=
  { token := conv[i]?
    slot := some i
    position := some i
    seen := (List.range (i + 1)).map fun pos => (pos, conv[pos]?.map .ofToken) }

/-! ### One graph run -/

/-- A graph run over `toks` and padding, from position `start` on. -/
structure Feed.Chunk (f : Feed) (start : Nat) (toks : List Token) : Prop where
  pastLen : f.inputs.pastLen = start
  chunkSize : f.chunkSize = toks.length
  ids : ∃ padding, f.inputs.inputIds = toks ++ padding
  positions : f.inputs.positions = (List.range f.inputs.inputIds.length).map (start + ·)
  active : f.inputs.activeSeqKv = some (start + f.inputs.inputIds.length)
  ring : f.inputs.ring = none

theorem chunk_decode (hkind : s.kind = .llama) (st : State) (token : Token) :
    Feed.Chunk { inputs := s.decodeInputs st token, chunkSize := 1 } st.pastLen [token] where
  pastLen := (s.decodeInputs_spec st token).1
  chunkSize := rfl
  ids := ⟨[], (s.decodeInputs_spec st token).2⟩
  positions := by simp [LlmSession.decodeInputs, hkind]
  active := by simp [LlmSession.decodeInputs, hkind]
  ring := by simp [LlmSession.decodeInputs, hkind]

theorem chunk_prefill (hkind : s.kind = .llama) (st : State) (ids : List Token) (prefillLen : Nat) :
    (s.prefillFeed st ids prefillLen).Chunk st.pastLen (ids.take (min ids.length prefillLen)) := by
  obtain ⟨hpast, hids, hlen, hchunk⟩ := s.prefillFeed_spec st ids prefillLen
  exact
    { pastLen := hpast
      chunkSize := by rw [hchunk, List.length_take, Nat.min_eq_left (Nat.min_le_left _ _)]
      ids := ⟨_, hids⟩
      positions := by
        rw [hlen]
        simp [LlmSession.prefillFeed, LlmSession.prefillInputs, hkind]
      active := by
        rw [hlen]
        simp [LlmSession.prefillFeed, LlmSession.prefillInputs, hkind]
      ring := by simp [LlmSession.prefillFeed, LlmSession.prefillInputs, hkind] }

theorem entryAt_append (feeds : List Feed) (f : Feed) (pos : Nat) :
    entryAt (feeds ++ [f]) pos = (f.entry pos).or (entryAt feeds pos) := by
  simp [entryAt]

theorem entry_of_lt {f : Feed} {pos : Nat} (h : pos < f.inputs.pastLen) : f.entry pos = none := by
  unfold Feed.entry written
  rw [if_neg (by omega), Option.map_none]

theorem Feed.Chunk.entry {f : Feed} {toks : List Token} {pastLen : Nat} (h : f.Chunk pastLen toks)
    {r : Nat} (hr : r < toks.length) : f.entry (pastLen + r) = toks[r]?.map .ofToken := by
  obtain ⟨padding, hids⟩ := h.ids
  unfold Feed.entry written
  rw [h.pastLen, if_pos (Nat.le_add_right _ _), Nat.add_sub_cancel_left, hids,
    List.getElem?_append_left hr, h.chunkSize, decide_eq_true hr]
  rfl

/-- A graph run appends its real tokens; what it writes above them is not held. -/
theorem Holds.feed {f : Feed} {toks : List Token} (h : Holds st conv)
    (hf : f.Chunk st.pastLen toks) :
    Holds { pastLen := st.pastLen + f.chunkSize, feeds := st.feeds ++ [f] } (conv ++ toks) where
  pastLen := by
    rw [h.pastLen, hf.chunkSize, List.length_append]
  entry := by
    intro pos hpos
    rw [List.length_append] at hpos
    show entryAt (st.feeds ++ [f]) pos = _
    rw [entryAt_append]
    by_cases hlt : pos < conv.length
    · rw [entry_of_lt (by rw [hf.pastLen, h.pastLen]; exact hlt), Option.none_or, h.entry pos hlt,
        List.getElem?_append_left hlt]
    · obtain ⟨r, rfl⟩ := Nat.exists_eq_add_of_le (Nat.le_of_not_lt hlt)
      have hr : r < toks.length := by omega
      have hentry := hf.entry hr
      rw [h.pastLen] at hentry
      rw [hentry, List.getElem?_append_right (Nat.le_add_right _ _), Nat.add_sub_cancel_left,
        List.getElem?_eq_getElem hr]
      rfl

/-- A failed graph run leaves the positions below `past_len` alone. -/
theorem Holds.failed {f : Feed} (h : Holds st conv) (hf : f.inputs.pastLen = st.pastLen) :
    Holds (st.feed f) conv where
  pastLen := h.pastLen
  entry := by
    intro pos hpos
    show entryAt (st.feeds ++ [f]) pos = _
    rw [entryAt_append, entry_of_lt (by rw [hf, h.pastLen]; exact hpos), Option.none_or,
      h.entry pos hpos]

theorem Holds.rewind (h : Holds st conv) {n : Nat} (hn : n ≤ st.pastLen) :
    Holds { st with pastLen := n } (conv.take n) where
  pastLen := by
    have := h.pastLen
    rw [List.length_take]
    dsimp only
    omega
  entry := by
    intro pos hpos
    rw [List.length_take] at hpos
    rw [h.entry pos (by omega), List.getElem?_take_of_lt (by omega)]

/-- The rule of the kernels: row `r` of a run at `pastLen` sees the positions up to its own.  A causal
graph whose queries fill the cache is run on the empty cache only. -/
theorem seesColumn_iff {pastLen seqQ r pos : Nat}
    (hmask : if isCausal then seqQ = seqK → pastLen = 0 else seqQ = 1) (hr : r < seqQ)
    (hpos : pos < pastLen + seqQ) :
    seesColumn isCausal seqQ seqK (pastLen + seqQ) r pos = true ↔ pos < pastLen + r + 1 := by
  unfold seesColumn maskedOut qPosOffset
  cases isCausal with
  | false =>
      have hseq : seqQ = 1 := by simpa using hmask
      simp only [Bool.false_and, Bool.not_false, Bool.or_true, Bool.and_true, decide_eq_true_eq]
      omega
  | true =>
      rw [if_pos rfl] at hmask
      simp only [Bool.true_and, Bool.and_eq_true, Bool.or_eq_true, decide_eq_true_eq, Bool.not_eq_true',
        decide_eq_false_iff_not]
      split
      · rename_i heq
        have := hmask heq
        omega
      · omega

/-- A real token's row of a graph run is the row of the token in the conversation. -/
theorem Holds.queryRow {f : Feed} {toks : List Token} (h : Holds st conv)
    (hf : f.Chunk st.pastLen toks) {r : Nat} (hr : r < toks.length)
    (hmask : if isCausal then f.inputs.inputIds.length = seqK → st.pastLen = 0
      else f.inputs.inputIds.length = 1) :
    queryRow isCausal seqK st.feeds f r = tokenRow (conv ++ toks) (conv.length + r) := by
  have hheld := h.feed hf
  obtain ⟨padding, hids⟩ := hf.ids
  have hlen : r < f.inputs.inputIds.length := by
    rw [hids, List.length_append]
    omega
  have hseen : (List.range (st.pastLen + f.inputs.inputIds.length)).filter
      (seesColumn isCausal f.inputs.inputIds.length seqK (st.pastLen + f.inputs.inputIds.length) r) =
        List.range (st.pastLen + r + 1) := by
    rw [List.filter_congr (q := (· < st.pastLen + r + 1)) ?_, SinkRing.filter_lt_range,
      Nat.min_eq_right (by omega)]
    intro pos hpos
    rw [Bool.eq_iff_iff, decide_eq_true_eq]
    exact seesColumn_iff hmask hlen (List.mem_range.mp hpos)
  unfold Llm.queryRow tokenRow
  dsimp only
  rw [hf.active, Option.getD_some, hseen, ← h.pastLen]
  congr 1
  · rw [hids, List.getElem?_append_left hr, h.pastLen, List.getElem?_append_right (Nat.le_add_right _ _),
      Nat.add_sub_cancel_left]
  · unfold updateSlots
    rw [List.getElem?_map, List.getElem?_range hlen, hf.ring, hf.pastLen]
    rfl
  · rw [hf.positions, List.getElem?_map, List.getElem?_range hlen]
    rfl
  · refine List.map_congr_left fun pos hpos => ?_
    have hlt := List.mem_range.mp hpos
    have hpast := h.pastLen
    rw [hheld.entry pos (by rw [List.length_append]; omega)]

/-- The rows of `ids` after `conv`. -/
def tokenRows (conv ids : List Token) : List QueryRow :=
  (List.range ids.length).map fun i => tokenRow (conv ++ ids) (conv.length + i)

theorem tokenRow_append (conv more : List Token) {i : Nat} (hi : i < conv.length) :
    tokenRow (conv ++ more) i = tokenRow conv i := by
  unfold tokenRow
  congr 1
  · exact List.getElem?_append_left hi
  · refine List.map_congr_left fun pos hpos => ?_
    have := List.mem_range.mp hpos
    rw [List.getElem?_append_left (by omega)]

theorem tokenRows_append (conv ids more : List Token) :
    tokenRows conv (ids ++ more) = tokenRows conv ids ++ tokenRows (conv ++ ids) more := by
  unfold tokenRows
  rw [List.length_append, List.range_add, List.map_append, List.map_map]
  congr 1
  · refine List.map_congr_left fun i hi => ?_
    have := List.mem_range.mp hi
    rw [← List.append_assoc, tokenRow_append _ _ (by rw [List.length_append]; omega)]
  · refine List.map_congr_left fun i _ => ?_
    rw [Function.comp_apply, ← List.append_assoc, List.length_append, Nat.add_assoc]

theorem Holds.queryRows {f : Feed} {toks : List Token} (h : Holds st conv)
    (hf : f.Chunk st.pastLen toks)
    (hmask : if isCausal then f.inputs.inputIds.length = seqK → st.pastLen = 0
      else f.inputs.inputIds.length = 1) (feeds : List Feed) :
    queryRows isCausal seqK st.feeds (f :: feeds) =
      tokenRows conv toks ++ queryRows isCausal seqK (st.feeds ++ [f]) feeds := by
  show (List.range f.chunkSize).map _ ++ _ = _
  congr 1
  rw [hf.chunkSize]
  refine List.map_congr_left fun r hr => ?_
  exact h.queryRow hf (List.mem_range.mp hr) hmask

/-! ### Runs -/

/-- Graph runs have fed `ids` after `conv`: `r` is read off the row of the last token. -/
structure Fed (isCausal : Bool) (seqK : Nat) (graph : List Feed → Feed → Except LlmError Logits)
    (st : State) (conv ids : List Token) (r : Except LlmError Token) (st' : State) : Prop where
  pastLen : st'.pastLen = st.pastLen + ids.length
  holds : Holds st' (conv ++ ids)
  rows : ∃ feeds, st'.feeds = st.feeds ++ feeds ∧
    queryRows isCausal seqK st.feeds feeds = tokenRows conv ids
  result : ∃ before f logits row, st'.feeds = before ++ [f] ∧ graph before f = .ok logits ∧
    r = logits row ∧
    queryRow isCausal seqK before f row = tokenRow (conv ++ ids) (conv.length + ids.length - 1)

/-- The last run of a prompt. -/
theorem Fed.single {f : Feed} {graph : List Feed → Feed → Except LlmError Logits} {logits : Logits}
    (h : Holds st conv) (hf : f.Chunk st.pastLen ids) (hne : 0 < ids.length)
    (hmask : if isCausal then f.inputs.inputIds.length = seqK → st.pastLen = 0
      else f.inputs.inputIds.length = 1) (hrun : graph st.feeds f = .ok logits) :
    Fed isCausal seqK graph st conv ids (logits (f.chunkSize - 1))
      { pastLen := st.pastLen + f.chunkSize, feeds := st.feeds ++ [f] } where
  pastLen := by rw [hf.chunkSize]
  holds := h.feed hf
  rows := ⟨[f], rfl, (h.queryRows hf hmask []).trans (List.append_nil _)⟩
  result := by
    refine ⟨st.feeds, f, logits, f.chunkSize - 1, rfl, hrun, rfl, ?_⟩
    rw [h.queryRow hf (by rw [hf.chunkSize]; omega) hmask, hf.chunkSize, Nat.add_sub_assoc hne]

/-- A run before the others. -/
theorem Fed.cons {f : Feed} {graph : List Feed → Feed → Except LlmError Logits} {toks : List Token}
    {r : Except LlmError Token} (h : Holds st conv) (hf : f.Chunk st.pastLen toks)
    (hmask : if isCausal then f.inputs.inputIds.length = seqK → st.pastLen = 0
      else f.inputs.inputIds.length = 1)
    (hfed : Fed isCausal seqK graph
      { pastLen := st.pastLen + f.chunkSize, feeds := st.feeds ++ [f] } (conv ++ toks) ids r st') :
    Fed isCausal seqK graph st conv (toks ++ ids) r st' where
  pastLen := by
    rw [hfed.pastLen, hf.chunkSize, List.length_append, Nat.add_assoc]
  holds := by
    rw [← List.append_assoc]
    exact hfed.holds
  rows := by
    obtain ⟨feeds, hfeeds, hrows⟩ := hfed.rows
    refine ⟨f :: feeds, by rw [hfeeds, List.append_assoc, List.singleton_append], ?_⟩
    rw [h.queryRows hf hmask, hrows, tokenRows_append]
  result := by
    obtain ⟨before, g, logits, row, hfeeds, hrun, hr, hrow⟩ := hfed.result
    refine ⟨before, g, logits, row, hfeeds, hrun, hr, ?_⟩
    rw [hrow, ← List.append_assoc, List.length_append, List.length_append, Nat.add_assoc]

/-- The prefill of a prompt that fits the cache. -/
theorem runPrefillRec_fed (hkind : s.kind = .llama) (hL : 0 < prefillLen) :
    ∀ (fuel : Nat) (st : State) (conv ids : List Token), Holds st conv → 0 < ids.length →
    ids.length < fuel → st.pastLen + (ids.length + prefillLen - 1) / prefillLen * prefillLen ≤ seqK →
    ∃ r st', s.runPrefillRec prefillLen fuel st ids = some (r, st') ∧
      (∃ feeds, st'.feeds = st.feeds ++ feeds ∧
        queryRows true seqK st.feeds feeds <+: tokenRows conv ids) ∧
      ∀ token, r = .ok token → Fed true seqK s.engine.prefill st conv ids r st' := by
  intro fuel
  induction fuel with
  | zero =>
      intro st conv ids _ _ hfuel
      omega
  | succ fuel ih =>
      intro st conv ids h hne hfuel hroom
      have hchunk := chunk_prefill hkind st ids prefillLen
      obtain ⟨-, -, hlen, hsize⟩ := s.prefillFeed_spec st ids prefillLen
      have hceil : prefillLen ≤ (ids.length + prefillLen - 1) / prefillLen * prefillLen := by
        have hone : 1 ≤ (ids.length + prefillLen - 1) / prefillLen :=
          (Nat.le_div_iff_mul_le hL).mpr (by omega)
        have := Nat.mul_le_mul_right prefillLen hone
        omega
      have hmask : if true then (s.prefillFeed st ids prefillLen).inputs.inputIds.length = seqK →
          st.pastLen = 0 else (s.prefillFeed st ids prefillLen).inputs.inputIds.length = 1 := by
        rw [if_pos rfl, hlen]
        omega
      have hsplit := tokenRows_append conv (ids.take (min ids.length prefillLen))
        (ids.drop (min ids.length prefillLen))
      rw [List.take_append_drop] at hsplit
      unfold LlmSession.runPrefillRec
      dsimp only
      rw [if_neg (by rw [List.isEmpty_iff]; rintro rfl; exact absurd hne (by simp))]
      cases hrun : s.engine.prefill st.feeds (s.prefillFeed st ids prefillLen) with
      | error e =>
          refine ⟨_, _, rfl, ⟨[s.prefillFeed st ids prefillLen], rfl, ?_⟩, fun _ h => by cases h⟩
          rw [h.queryRows hchunk hmask, hsplit]
          exact List.prefix_append_right_inj _ |>.mpr List.nil_prefix
      | ok logits =>
          dsimp only
          split
          · rename_i hall
            -- the last chunk
            have htake : ids.take (min ids.length prefillLen) = ids := by
              rw [List.take_of_length_le (by omega)]
            rw [htake] at hchunk
            have hfed := Fed.single h hchunk hne hmask hrun
            obtain ⟨feeds, hfeeds, hrows⟩ := hfed.rows
            exact ⟨_, _, rfl, ⟨feeds, hfeeds, hrows ▸ List.prefix_refl _⟩, fun _ _ => hfed⟩
          · rename_i hrest
            have hlong : prefillLen < ids.length := by omega
            have hnext := ceil_succ hL hlong
            obtain ⟨r, st', hrec, ⟨feeds, hfeeds, hrows⟩, hfed⟩ :=
              ih { pastLen := st.pastLen + (s.prefillFeed st ids prefillLen).chunkSize
                   feeds := st.feeds ++ [s.prefillFeed st ids prefillLen] }
                (conv ++ ids.take (min ids.length prefillLen))
                (ids.drop (min ids.length prefillLen)) (h.feed hchunk)
                (by rw [List.length_drop]; omega) (by rw [List.length_drop]; omega)
                (by rw [List.length_drop, hsize, Nat.min_eq_right (by omega)]; dsimp only; omega)
            rw [hsize] at hrec
            refine ⟨r, st', by rw [hsize]; exact hrec,
              ⟨s.prefillFeed st ids prefillLen :: feeds, ?_, ?_⟩, fun token htoken => ?_⟩
            · rw [hfeeds, List.append_assoc, List.singleton_append]
            · rw [h.queryRows hchunk hmask, hsplit]
              exact (List.prefix_append_right_inj _).mpr hrows
            · have hcons := Fed.cons h hchunk hmask (hfed token htoken)
              rw [List.take_append_drop] at hcons
              exact hcons

theorem decodeStep_run {st : State} {token next : Token} (h : (s.decodeStep st token).1 = .ok next) :
    ∃ logits, s.engine.decode st.feeds { inputs := s.decodeInputs st token, chunkSize := 1 } =
        .ok logits ∧ logits 0 = .ok next ∧
      (s.decodeStep st token).2 =
        { pastLen := st.pastLen + 1
          feeds := st.feeds ++ [{ inputs := s.decodeInputs st token, chunkSize := 1 }] } := by
  unfold LlmSession.decodeStep at h ⊢
  dsimp only at h ⊢
  split at h
  · cases h
  · rename_i logits hrun
    rw [hrun]
    split at h
    · cases h
    · rename_i next' hnext
      exact ⟨logits, rfl, hnext.trans h, rfl⟩

/-- The same prompt in decode steps. -/
theorem decodeAll_fed (hkind : s.kind = .llama) {r : Except LlmError Token} :
    ∀ (ids : List Token) (st : State) (conv : List Token), Holds st conv → AllFed s st ids →
    s.decodeAll st ids = some (r, st') →
    Fed false seqK s.engine.decode st conv ids r st' := by
  intro ids
  induction ids with
  | nil =>
      intro st conv _ _ hrun
      cases hrun
  | cons token rest ih =>
      intro st conv h hfed hrun
      obtain ⟨⟨next, hnext⟩, hrest⟩ := hfed
      obtain ⟨logits, hdecode, hlogits, hstate⟩ := decodeStep_run hnext
      have hchunk := chunk_decode hkind st token
      have hmask : if false then (s.decodeInputs st token).inputIds.length = seqK → st.pastLen = 0
          else (s.decodeInputs st token).inputIds.length = 1 := by
        rw [if_neg (by simp), (s.decodeInputs_spec st token).2]
        rfl
      cases rest with
      | nil =>
          have hpair : s.decodeStep st token = (r, st') := Option.some.inj hrun
          have hr : (s.decodeStep st token).1 = r := congrArg Prod.fst hpair
          obtain rfl : (s.decodeStep st token).2 = st' := congrArg Prod.snd hpair
          rw [hstate, ← hr, hnext, ← hlogits]
          exact Fed.single h hchunk Nat.one_pos hmask hdecode
      | cons token' rest =>
          rw [hstate] at hrest
          have hrun' : s.decodeAll (s.decodeStep st token).2 (token' :: rest) = some (r, st') := hrun
          rw [hstate] at hrun'
          exact Fed.cons h hchunk hmask (ih _ _ (h.feed hchunk) hrest hrun')

/-! ### Later steps -/

/-- What a session does after `st₀`, failed graph runs included: decode steps, prefills, and rewinds
of `past_len` by `truncate_at_stop` and `reset`. -/
inductive Steps (s : LlmSession) (st₀ : State) : State → Prop
  | refl : Steps s st₀ st₀
  | decode (st : State) (token : Token) (h : Steps s st₀ st) : Steps s st₀ (s.decodeStep st token).2
  | prefill (st st' : State) (ids : List Token) (prefillLen : Nat) (r : Except LlmError Token)
      (h : Steps s st₀ st) (hrun : s.runPrefill st ids prefillLen = some (r, st')) : Steps s st₀ st'
  | rewind (st : State) (n : Nat) (h : Steps s st₀ st) (hn : n ≤ st.pastLen) :
      Steps s st₀ { st with pastLen := n }

theorem Steps.trans {st₀ st₁ st₂ : State} (h : Steps s st₀ st₁) (h' : Steps s st₁ st₂) :
    Steps s st₀ st₂ := by
  induction h' with
  | refl => exact h
  | decode st token _ ih => exact .decode st token ih
  | prefill st st' ids prefillLen r _ hrun ih => exact .prefill st st' ids prefillLen r ih hrun
  | rewind st n _ hn ih => exact .rewind st n ih hn

theorem decodeAll_steps {r : Except LlmError Token} : ∀ (ids : List Token) (st : State),
    s.decodeAll st ids = some (r, st') → Steps s st st' := by
  intro ids
  induction ids with
  | nil =>
      intro st hrun
      cases hrun
  | cons token rest ih =>
      intro st hrun
      have hstep : Steps s st (s.decodeStep st token).2 := .decode st token .refl
      cases rest with
      | nil =>
          have hpair : s.decodeStep st token = (r, st') := Option.some.inj hrun
          rw [hpair] at hstep
          exact hstep
      | cons token' rest => exact hstep.trans (ih _ hrun)

theorem truncateLoop_steps (opts : GenerateOptions) : ∀ (fuel : Nat) (st : State) (ids : List Token),
    Steps s st (s.truncateLoop opts fuel st ids).2 := by
  intro fuel
  induction fuel with
  | zero => exact fun st ids => .refl
  | succ fuel ih =>
      intro st ids
      unfold LlmSession.truncateLoop
      split
      · exact .refl
      · split
        · exact .refl
        · exact .refl
        · exact (Steps.rewind st _ .refl (Nat.sub_le _ 1)).trans (ih _ _)

theorem truncateAtStop_steps (opts : GenerateOptions) (st : State) (ids : List Token) :
    Steps s st (s.truncateAtStop opts st ids).2 := by
  unfold LlmSession.truncateAtStop
  split
  · exact .refl
  · exact truncateLoop_steps opts _ _ _

theorem runPrompt_steps {r : Except LlmError Token} {promptIds : List Token}
    (hrun : s.runPrompt st promptIds = some (r, st')) : Steps s st st' := by
  unfold LlmSession.runPrompt at hrun
  split at hrun
  · exact .prefill st st' _ _ r .refl hrun
  · exact decodeAll_steps _ _ hrun

theorem generateLoop_steps {opts : GenerateOptions} {r : Except LlmError (List Token)}
    {promptIds : List Token} : ∀ (n i : Nat) (st : State) (newIds : List Token),
    s.generateLoop promptIds opts n i st newIds = some (r, st') → Steps s st st' := by
  intro n
  induction n with
  | zero =>
      intro i st newIds hrun
      obtain ⟨-, rfl⟩ := Prod.mk.inj (Option.some.inj hrun)
      exact .refl
  | succ n ih =>
      intro i st newIds hrun
      unfold LlmSession.generateLoop at hrun
      split at hrun
      · obtain ⟨-, rfl⟩ := Prod.mk.inj (Option.some.inj hrun)
        exact .refl
      have hturn : ∀ r₁ st₁, (if i = 0 then s.runPrompt st promptIds
          else newIds.getLast?.map (s.decodeStep st)) = some (r₁, st₁) → Steps s st st₁ := by
        intro r₁ st₁ heq
        split at heq
        · exact runPrompt_steps heq
        · obtain ⟨last, -, hlast⟩ := Option.map_eq_some_iff.mp heq
          have hstep : Steps s st (s.decodeStep st last).2 := .decode st last .refl
          rw [hlast] at hstep
          exact hstep
      split at hrun
      · cases hrun
      · rename_i e st₁ heq
        obtain ⟨-, rfl⟩ := Prod.mk.inj (Option.some.inj hrun)
        exact hturn _ _ heq
      · rename_i token st₁ heq
        dsimp only at hrun
        split at hrun
        · obtain ⟨-, rfl⟩ := Prod.mk.inj (Option.some.inj hrun)
          exact hturn _ _ heq
        · have htrunc := truncateAtStop_steps (s := s) opts st₁ (newIds ++ [token])
          rw [Option.some.inj hrun] at htrunc
          exact (hturn _ _ heq).trans htrunc
        · exact (hturn _ _ heq).trans (ih _ _ _ hrun)

/-- A call of `generate` is made of these steps. -/
theorem generateIds_steps {prompt : String} {opts : GenerateOptions}
    {r : Except LlmError (List Token)} (hcall : s.generateIds st prompt opts = some (r, st')) :
    Steps s st st' := by
  have hrefl : some (r, st) = some (r, st') → Steps s st st' := by
    intro heq
    obtain ⟨-, rfl⟩ := Prod.mk.inj (Option.some.inj heq)
    exact .refl
  unfold LlmSession.generateIds at hcall
  split at hcall
  · obtain ⟨-, rfl⟩ := Prod.mk.inj (Option.some.inj hcall)
    exact .refl
  · split at hcall
    · obtain ⟨-, rfl⟩ := Prod.mk.inj (Option.some.inj hcall)
      exact .refl
    · split at hcall
      · cases hcall
      · split at hcall
        · obtain ⟨-, rfl⟩ := Prod.mk.inj (Option.some.inj hcall)
          exact .refl
        · exact generateLoop_steps _ _ _ _ hcall

theorem runPrefillRec_holds (hkind : s.kind = .llama) {r : Except LlmError Token} :
    ∀ (fuel : Nat) (st : State) (conv ids : List Token), Holds st conv →
    s.runPrefillRec prefillLen fuel st ids = some (r, st') → ∃ conv', Holds st' conv' := by
  intro fuel
  induction fuel with
  | zero =>
      intro st conv ids _ hrun
      cases hrun
  | succ fuel ih =>
      intro st conv ids h hrun
      have hchunk := chunk_prefill hkind st ids prefillLen
      unfold LlmSession.runPrefillRec at hrun
      dsimp only at hrun
      split at hrun
      · cases hrun
      · split at hrun
        · obtain ⟨-, rfl⟩ := Prod.mk.inj (Option.some.inj hrun)
          exact ⟨conv, h.failed hchunk.pastLen⟩
        · split at hrun
          · obtain ⟨-, rfl⟩ := Prod.mk.inj (Option.some.inj hrun)
            exact ⟨_, h.feed hchunk⟩
          · exact ih _ _ _ (h.feed hchunk) hrun

/-- Every step keeps a conversation below `past_len`. -/
theorem Steps.holds (hkind : s.kind = .llama) {st₀ : State} (h : Steps s st₀ st)
    (hholds : Holds st₀ conv) : ∃ conv', Holds st conv' := by
  induction h with
  | refl => exact ⟨conv, hholds⟩
  | decode st token _ ih =>
      obtain ⟨conv', h'⟩ := ih
      have hchunk := chunk_decode hkind st token
      unfold LlmSession.decodeStep
      dsimp only
      split
      · exact ⟨conv', h'.failed hchunk.pastLen⟩
      · split
        · exact ⟨conv', h'.failed hchunk.pastLen⟩
        · exact ⟨_, h'.feed hchunk⟩
  | prefill st st' ids prefillLen r _ hrun ih =>
      obtain ⟨conv', h'⟩ := ih
      exact runPrefillRec_holds hkind _ _ _ _ h' hrun
  | rewind st n _ hn ih =>
      obtain ⟨conv', h'⟩ := ih
      exact ⟨_, h'.rewind hn⟩

/-- A prefill of a prompt that passes the length check feeds it as decode steps do, one token at a
time, and no later decode step sees padding. -/
theorem prefill_eq_decode {needed : Nat} (hkind : s.kind = .llama)
    (hprefill : s.prefillLen = some prefillLen) (hL : 1 ≤ prefillLen) (hholds : Holds st conv)
    (hne : ids ≠ []) (hneeded : s.needed st ids = some needed)
    (hfit : needed ≤ s.config.maxSeqLen) :
    ∃ r st', s.runPrefill st ids prefillLen = some (r, st') ∧
      (∃ feeds, st'.feeds = st.feeds ++ feeds ∧
        queryRows true s.config.maxSeqLen st.feeds feeds <+: tokenRows conv ids) ∧
      (∀ token, r = .ok token →
        Fed true s.config.maxSeqLen s.engine.prefill st conv ids r st') ∧
      (∀ r₁ st₁, AllFed s st ids → s.decodeAll st ids = some (r₁, st₁) →
        Fed false s.config.maxSeqLen s.engine.decode st conv ids r₁ st₁) ∧
      ∀ st₂, Steps s st' st₂ → ∃ conv₂, Holds st₂ conv₂ ∧ ∀ token,
        queryRow false s.config.maxSeqLen st₂.feeds
            { inputs := s.decodeInputs st₂ token, chunkSize := 1 } 0 =
          tokenRow (conv₂ ++ [token]) conv₂.length := by
  have hpos : 0 < ids.length := List.length_pos_iff.mpr hne
  have hroom : st.pastLen + (ids.length + prefillLen - 1) / prefillLen * prefillLen ≤
      s.config.maxSeqLen := by
    unfold LlmSession.needed at hneeded
    rw [hprefill] at hneeded
    split at hneeded
    · cases hneeded
    · rename_i heq
      obtain rfl := Option.some.inj heq
      exact (Option.some.inj hneeded).le.trans hfit
    · rename_i heq
      cases heq
  obtain ⟨r, st', hrun, hrows, hfed⟩ := runPrefillRec_fed hkind hL (ids.length + 1) st conv ids hholds
    hpos (Nat.lt_succ_self _) hroom
  refine ⟨r, st', hrun, hrows, hfed, ?_, ?_⟩
  · intro r₁ st₁ hall hdecode
    exact decodeAll_fed hkind ids st conv hholds hall hdecode
  · intro st₂ hsteps
    obtain ⟨conv', hconv'⟩ := runPrefillRec_holds hkind _ _ _ _ hholds hrun
    obtain ⟨conv₂, h₂⟩ := hsteps.holds hkind hconv'
    refine ⟨conv₂, h₂, fun token => ?_⟩
    refine h₂.queryRow (chunk_decode hkind st₂ token) Nat.one_pos ?_
    rw [if_neg (by simp), (s.decodeInputs_spec st₂ token).2]
    rfl

/-- A session with a prefill of two positions, whose graphs answer `3` to every token. -/
def pairSession : LlmSession :=
  { chatSession with kind := .llama, prefillLen := some 2 }

/-- A prompt of three tokens after one: its second chunk has a row of padding. -/
theorem pairSession_prefill_eq_decode : ∃ r st',
    pairSession.runPrefill (pairSession.decodeStep .new 9).2 [5, 6, 7] 2 = some (r, st') ∧
      st'.pastLen = 4 ∧ Holds st' [9, 5, 6, 7] := by
  have hholds : Holds (pairSession.decodeStep .new 9).2 [9] :=
    { pastLen := rfl, entry := by decide }
  have hneeded : pairSession.needed (pairSession.decodeStep .new 9).2 [5, 6, 7] = some 5 := rfl
  obtain ⟨r, st', hrun, -, hfed, -⟩ := prefill_eq_decode rfl rfl (by decide) hholds (by decide)
    hneeded (by decide)
  have hr : r = .ok 3 := by
    have hok : ∃ st, pairSession.runPrefill (pairSession.decodeStep .new 9).2 [5, 6, 7] 2 =
        some (.ok 3, st) := ⟨_, rfl⟩
    obtain ⟨st, hok⟩ := hok
    exact congrArg Prod.fst (Option.some.inj (hrun.symm.trans hok))
  exact ⟨r, st', hrun, (hfed 3 hr).pastLen, (hfed 3 hr).holds⟩

end Llm
end NnEngine
