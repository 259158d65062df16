import NnEngine.SinkRing
import NnEngine.Llm.Session

/-!
# Positions and slots of a streaming session

The inputs of a decode step are computed from the stream position before the write, and read by
kernels that see the cache after it.  Until the ring wraps the two agree.  From then on `ring_start`
is the offset of the token just written and not of the oldest one, and the writer, which indexes the
ring by the absolute position, leaves the slots that the readers walk.
-/

namespace NnEngine
namespace Llm

open SinkRing

variable {sink window maxSeqLen p t s : Nat}

/-! ### Positions -/

/-- The inputs of the decode step that writes token `p` describe the cache as it is after the
write. -/
structure PositionsAgree (sink window p : Nat) (inputs : Inputs) (ring : RingInputs) : Prop where
  ranks : ∀ t, Stored sink window p t →
    ring.kvPosition[slot sink window t]? = some (rank sink window p t)
  distinct : ∀ t t', Stored sink window p t → Stored sink window p t' →
    ring.kvPosition[slot sink window t]? = ring.kvPosition[slot sink window t']? →
    slot sink window t = slot sink window t'
  active : ∀ t, Stored sink window p t → ∃ r n, ring.kvPosition[slot sink window t]? = some r ∧
    inputs.activeSeqKv = some n ∧ r < n
  query : ∃ q, inputs.positions = [q] ∧ ring.kvPosition[slot sink window p]? = some q
  start : sink ≤ p → sink + ring.ringStart = slot sink window (oldest sink window p)

/-- The four inputs of the ring in a decode step. -/
def decodeRing (sink window p maxSeqLen : Nat) : RingInputs :=
  { ringSink := sink
    ringWindow := window
    ringStart := if p < sink + window then 0 else (p - sink) % window
    kvPosition := streamingKvPosition sink window p maxSeqLen }

theorem streamingDecodeInputs_ring (maxSeqLen p : Nat) (token : Token) (sink window : Nat) :
    (streamingDecodeInputs maxSeqLen p token sink window).ring =
      some (decodeRing sink window p maxSeqLen) := rfl

theorem getElem?_streamingKvPosition (h : s < maxSeqLen) :
    (streamingKvPosition sink window p maxSeqLen)[s]? = some
      (if s < sink then s
      else if s < sink + window then
        if (s - sink + window - (decodeRing sink window p maxSeqLen).ringStart) % window <
            min (p - sink) window then
          sink + (s - sink + window - (decodeRing sink window p maxSeqLen).ringStart) % window
        else s
      else s) := by
  unfold streamingKvPosition decodeRing
  rw [List.getElem?_map, List.getElem?_range h]
  rfl

/-- Before the ring wraps, a slot's position is its number. -/
theorem getElem?_of_lt (hp : p < sink + window) (h : s < maxSeqLen) :
    (streamingKvPosition sink window p maxSeqLen)[s]? = some s := by
  rw [getElem?_streamingKvPosition h]
  have hstart : (decodeRing sink window p maxSeqLen).ringStart = 0 := if_pos hp
  rw [hstart, Nat.sub_zero]
  split
  · rfl
  · split
    · rw [Nat.add_mod_right, Nat.mod_eq_of_lt (by omega)]
      split
      · congr 1
        omega
      · rfl
    · rfl

/-- A ring of one slot always has its token at rank `sink`. -/
theorem getElem?_of_window_one (hp : sink < p) (hs : s ≤ sink) (h : s < maxSeqLen) :
    (streamingKvPosition sink 1 p maxSeqLen)[s]? = some s := by
  rw [getElem?_streamingKvPosition h]
  split
  · rfl
  · rw [if_pos (by omega), Nat.mod_one, if_pos (by omega)]
    congr 1
    omega

theorem rank_lt (hw : 0 < window) (h : Stored sink window p t) :
    rank sink window p t < min (p + 1) (sink + window) := by
  have hle := h.1
  have hst := h.2
  rw [count_stored (by omega)]
  unfold oldest
  omega

theorem slot_eq_rank (h : p < sink + window ∨ window = 1) (hst : Stored sink window p t) :
    slot sink window t = rank sink window p t := by
  obtain ⟨hle, hlive⟩ := hst
  rcases h with hp | rfl
  · rw [rank_of_lt hp hle, slot_of_lt (by omega)]
  · rw [count_stored (by omega)]
    unfold oldest
    by_cases ht : t < sink
    · rw [slot_of_lt (by omega)]
      omega
    · rw [slot_of_sink_le (by omega), Nat.mod_one]
      omega

/-- The token that a decode step writes is the last of those stored. -/
theorem stored_self (hw : 0 < window) (p : Nat) : Stored sink window p p :=
  ⟨Nat.le_refl p, Or.inr (by omega)⟩

theorem positionsAgree_of_unwrapped (hw : 0 < window) (hfit : sink + window ≤ maxSeqLen)
    (token : Token) (h : p < sink + window ∨ window = 1) :
    PositionsAgree sink window p (streamingDecodeInputs maxSeqLen p token sink window)
      (decodeRing sink window p maxSeqLen) := by
  have hslot : ∀ t, Stored sink window p t →
      (decodeRing sink window p maxSeqLen).kvPosition[slot sink window t]? =
        some (rank sink window p t) := by
    intro t ht
    have hlt := slot_lt sink hw t
    rw [← slot_eq_rank h ht]
    rcases h with hp | rfl
    · exact getElem?_of_lt hp (by omega)
    · by_cases hp : p < sink + 1
      · exact getElem?_of_lt hp (by omega)
      · exact getElem?_of_window_one (by omega) (by omega) (by omega)
  refine { ranks := hslot, distinct := ?_, active := ?_, query := ?_, start := ?_ }
  · intro t t' ht ht' heq
    rw [hslot t ht, hslot t' ht', ← slot_eq_rank h ht, ← slot_eq_rank h ht'] at heq
    exact Option.some.inj heq
  · intro t ht
    exact ⟨_, _, hslot t ht, rfl, rank_lt hw ht⟩
  · refine ⟨_, rfl, ?_⟩
    rw [hslot p (stored_self hw p), count_stored (Nat.le_succ p)]
    unfold oldest
    congr 1
    omega
  · intro hp
    rw [slot_of_sink_le (show sink ≤ oldest sink window p from Nat.le_max_left _ _)]
    unfold decodeRing oldest
    dsimp only
    rcases h with hlt | rfl
    · rw [if_pos hlt]
      have hzero : max sink (p + 1 - window) - sink = 0 := by omega
      rw [hzero, Nat.zero_mod]
    · rw [Nat.mod_one, Nat.mod_one, ite_self]

/-- Once the ring has wrapped, the token just written has the position of the oldest one. -/
theorem not_positionsAgree_of_wrapped (hw : 1 < window) (hp : sink + window ≤ p)
    (hfit : sink + window ≤ maxSeqLen) (token : Token) :
    ¬ PositionsAgree sink window p (streamingDecodeInputs maxSeqLen p token sink window)
      (decodeRing sink window p maxSeqLen) := by
  intro h
  obtain ⟨q, hq, hslot⟩ := h.query
  obtain rfl : min p (sink + window - 1) = q := by
    have hq' : [min p (sink + window - 1)] = [q] := hq
    simpa using hq'
  have hlt := Nat.mod_lt (p - sink) (show 0 < window by omega)
  have hpos : (decodeRing sink window p maxSeqLen).kvPosition[slot sink window p]? = some sink := by
    show (streamingKvPosition sink window p maxSeqLen)[slot sink window p]? = some sink
    rw [slot_of_sink_le (by omega), getElem?_streamingKvPosition (by omega)]
    have hstart : (decodeRing sink window p maxSeqLen).ringStart = (p - sink) % window :=
      if_neg (by omega)
    have hage : sink + (p - sink) % window - sink + window - (p - sink) % window = window := by
      omega
    rw [if_neg (by omega), if_pos (by omega), hstart, hage, Nat.mod_self, if_pos (by omega),
      Nat.add_zero]
  rw [hpos] at hslot
  have := Option.some.inj hslot
  omega

/-- The inputs of a decode step describe the cache after its write exactly until the ring wraps. -/
theorem decodePositions_iff (hw : 0 < window) (hfit : sink + window ≤ maxSeqLen) (p : Nat)
    (token : Token) :
    (∃ ring, (streamingDecodeInputs maxSeqLen p token sink window).ring = some ring ∧
      PositionsAgree sink window p (streamingDecodeInputs maxSeqLen p token sink window) ring) ↔
    p < sink + window ∨ window = 1 := by
  constructor
  · rintro ⟨ring, hring, h⟩
    rw [streamingDecodeInputs_ring, Option.some.injEq] at hring
    subst hring
    by_contra hnot
    exact not_positionsAgree_of_wrapped (by omega) (by omega) hfit token h
  · intro h
    exact ⟨_, streamingDecodeInputs_ring .., positionsAgree_of_unwrapped hw hfit token h⟩

/-- A ring of two slots, at the first token that wraps. -/
theorem decodePositions_wrapped :
    ¬ ∃ ring, (streamingDecodeInputs 3 3 7 1 2).ring = some ring ∧
      PositionsAgree 1 2 3 (streamingDecodeInputs 3 3 7 1 2) ring := by
  rintro ⟨ring, hring, h⟩
  rw [streamingDecodeInputs_ring, Option.some.injEq] at hring
  subst hring
  obtain ⟨q, hq, hslot⟩ := h.query
  have hq' : [2] = [q] := hq
  have hslot' : some 1 = some q := hslot
  obtain rfl : 2 = q := by simpa using hq'
  cases hslot'

theorem decodePositions_unwrapped :
    (∃ ring, (streamingDecodeInputs 3 2 7 1 2).ring = some ring ∧
      PositionsAgree 1 2 2 (streamingDecodeInputs 3 2 7 1 2) ring) ↔ 2 < 1 + 2 ∨ 2 = 1 :=
  decodePositions_iff (by decide) (by decide) 2 7

/-! ### Slots -/

/-- `ring_phys_index`.  Its `int`s are natural numbers here: none is negative, and a position of the
cache stays below `2 ^ 31`. -/
def ringPhysIndex (rank ringSink ringWindow ringStart : Nat) : Nat :=
  if ringWindow = 0 ∨ rank < ringSink then rank
  else ringSink + (ringStart + (rank - ringSink)) % ringWindow

/-- The slots that `kvcache_update` writes in a graph run. -/
def updateSlots (inputs : Inputs) : List Nat :=
  (List.range inputs.inputIds.length).map fun t =>
    match inputs.ring with
    | some r => ringPhysIndex (inputs.pastLen + t) r.ringSink r.ringWindow r.ringStart
    | none => inputs.pastLen + t

/-- The slots that the attention kernels read in a graph run, by rank. -/
def attentionSlots (inputs : Inputs) : List Nat :=
  (List.range (inputs.activeSeqKv.getD 0)).map fun rank =>
    match inputs.ring with
    | some r => ringPhysIndex rank r.ringSink r.ringWindow r.ringStart
    | none => rank

/-- A run of successful decode steps from an empty cache. -/
inductive Decoded (s : LlmSession) : List Token → State → Prop
  | nil : Decoded s [] .new
  | step (tokens : List Token) (token next : Token) (st st' : State) (h : Decoded s tokens st)
      (hstep : s.decodeStep st token = (.ok next, st')) : Decoded s (tokens ++ [token]) st'

/-- The slots that step `p` of a run writes and reads agree with the layout of the ring: no token
that must stay loses its slot, and the readers find the sink tokens and then the ring tokens from the
oldest on. -/
def SlotsAgree (sink window p : Nat) (feeds : List Feed) : Prop :=
  (∀ t, Stored sink window p t → t ≠ p → ∀ f g, feeds[t]? = some f → feeds[p]? = some g →
    ∀ slot ∈ updateSlots f.inputs, slot ∉ updateSlots g.inputs) ∧
  ∀ g, feeds[p]? = some g → attentionSlots g.inputs =
    (stored sink window p).flatMap fun t => (feeds[t]?).elim [] fun f => updateSlots f.inputs

/-- The slot that the decode step of token `t` writes. -/
def writtenSlot (sink window t : Nat) : Nat :=
  ringPhysIndex t sink window (if t < sink + window then 0 else (t - sink) % window)

variable {session : LlmSession} {tokens : List Token} {st : State}

/-- The session passes the number of tokens before as `past_len`. -/
theorem Decoded.feeds (hkind : session.kind = .llamaStreaming sink window)
    (h : Decoded session tokens st) :
    st.pastLen = tokens.length ∧ st.feeds.length = tokens.length ∧
      ∀ t f, st.feeds[t]? = some f → ∃ token, f.inputs =
        streamingDecodeInputs session.config.maxSeqLen t token sink window := by
  induction h with
  | nil => exact ⟨rfl, rfl, by simp [State.new]⟩
  | step tokens token next st st' h hstep ih =>
      obtain ⟨hpast, hlen, hfeeds⟩ := ih
      rw [LlmSession.decodeStep_ok hstep]
      refine ⟨by simp [hpast], by simp [hlen], ?_⟩
      intro t f hf
      rw [List.getElem?_append] at hf
      split at hf
      · exact hfeeds t f hf
      · rename_i hge
        have ht : t - st.feeds.length = 0 := by
          by_contra hne
          rw [List.getElem?_eq_none (by simp only [List.length_singleton]; omega)] at hf
          cases hf
        have htpast : t = st.pastLen := by omega
        rw [ht] at hf
        obtain rfl := Option.some.inj hf
        refine ⟨token, ?_⟩
        rw [htpast]
        simp only [LlmSession.decodeInputs, hkind]

theorem updateSlots_decode (maxSeqLen t : Nat) (token : Token) (sink window : Nat) :
    updateSlots (streamingDecodeInputs maxSeqLen t token sink window) =
      [writtenSlot sink window t] := rfl

theorem attentionSlots_decode (maxSeqLen p : Nat) (token : Token) (sink window : Nat) :
    attentionSlots (streamingDecodeInputs maxSeqLen p token sink window) =
      (List.range (min (p + 1) (sink + window))).map fun rank =>
        ringPhysIndex rank sink window
          (if p < sink + window then 0 else (p - sink) % window) := rfl

theorem ringPhysIndex_zero (rank sink window : Nat) :
    ringPhysIndex rank sink window 0 = slot sink window rank ∨ window = 0 := by
  unfold ringPhysIndex slot
  by_cases hw : window = 0
  · exact Or.inr hw
  · simp [hw]

/-- In a run, agreement is a statement about the written slots. -/
theorem slotsAgree_iff (hkind : session.kind = .llamaStreaming sink window)
    (h : Decoded session tokens st) (hp : p < tokens.length) :
    SlotsAgree sink window p st.feeds ↔
      (∀ t, Stored sink window p t → t ≠ p →
        writtenSlot sink window t ≠ writtenSlot sink window p) ∧
      ((List.range (min (p + 1) (sink + window))).map fun rank =>
        ringPhysIndex rank sink window (if p < sink + window then 0 else (p - sink) % window)) =
        (stored sink window p).map (writtenSlot sink window) := by
  obtain ⟨-, hlen, hfeeds⟩ := h.feeds hkind
  have hget : ∀ t, t ≤ p → ∃ f, st.feeds[t]? = some f ∧
      updateSlots f.inputs = [writtenSlot sink window t] := by
    intro t ht
    have hlt : t < st.feeds.length := by omega
    obtain ⟨token, hf⟩ := hfeeds t _ (List.getElem?_eq_getElem hlt)
    exact ⟨_, List.getElem?_eq_getElem hlt, by rw [hf, updateSlots_decode]⟩
  have hflat : ((stored sink window p).flatMap fun t =>
      (st.feeds[t]?).elim [] fun f => updateSlots f.inputs) =
        (stored sink window p).map (writtenSlot sink window) := by
    rw [List.map_eq_flatMap]
    apply List.flatMap_congr
    intro t ht
    obtain ⟨f, hf, hslots⟩ := hget t (mem_stored.mp ht).1
    rw [hf]
    exact hslots
  have hread : ∀ g, st.feeds[p]? = some g → attentionSlots g.inputs =
      (List.range (min (p + 1) (sink + window))).map fun rank =>
        ringPhysIndex rank sink window
          (if p < sink + window then 0 else (p - sink) % window) := by
    intro g hg
    obtain ⟨token, hinputs⟩ := hfeeds p g hg
    rw [hinputs, attentionSlots_decode]
  obtain ⟨g, hg, hgslots⟩ := hget p (Nat.le_refl p)
  unfold SlotsAgree
  rw [hflat]
  refine and_congr ⟨fun hall t ht hne => ?_, fun hall t ht hne f g' hf hg' => ?_⟩
    ⟨fun hall => (hread g hg).symm.trans (hall g hg), fun heq g' hg' => (hread g' hg').trans heq⟩
  · obtain ⟨f, hf, hfslots⟩ := hget t ht.1
    have hnot := hall t ht hne f g hf hg
    rw [hfslots, hgslots] at hnot
    simpa using hnot
  · obtain ⟨f', hf', hfslots⟩ := hget t ht.1
    obtain rfl := Option.some.inj (hf'.symm.trans hf)
    obtain rfl := Option.some.inj (hg.symm.trans hg')
    rw [hfslots, hgslots]
    simpa using hall t ht hne

/-- Until the ring wraps, writer and readers use the slots of the layout. -/
theorem writtenSlot_eq_slot (hw : 0 < window) (h : t < sink + window ∨ window = 1) :
    writtenSlot sink window t = slot sink window t := by
  have hstart : (if t < sink + window then 0 else (t - sink) % window) = 0 := by
    rcases h with ht | rfl
    · exact if_pos ht
    · rw [Nat.mod_one, ite_self]
  rw [writtenSlot, hstart]
  exact (ringPhysIndex_zero t sink window).resolve_right (by omega)

theorem reads_eq_of_unwrapped (hw : 0 < window) (h : p < sink + window ∨ window = 1) :
    ((List.range (min (p + 1) (sink + window))).map fun rank =>
      ringPhysIndex rank sink window (if p < sink + window then 0 else (p - sink) % window)) =
      (stored sink window p).map (writtenSlot sink window) := by
  have hstart : (if p < sink + window then 0 else (p - sink) % window) = 0 := by
    rcases h with hp | rfl
    · exact if_pos hp
    · rw [Nat.mod_one, ite_self]
  have hread : ∀ rank, ringPhysIndex rank sink window 0 = slot sink window rank := fun rank =>
    (ringPhysIndex_zero rank sink window).resolve_right (by omega)
  simp only [hstart, hread]
  have hwritten : (stored sink window p).map (writtenSlot sink window) =
      (stored sink window p).map (slot sink window) := by
    apply List.map_congr_left
    intro t ht
    have hle := (mem_stored.mp ht).1
    exact writtenSlot_eq_slot hw (h.imp_left fun hp => by omega)
  rw [hwritten]
  by_cases hp : p < sink + window
  · rw [stored_of_lt hp, Nat.min_eq_left hp]
  · obtain rfl := h.resolve_left hp
    rw [stored_window_one (by omega), Nat.min_eq_right (by omega), List.range_succ, List.map_append,
      List.map_append, List.map_singleton, List.map_singleton, slot_of_sink_le (Nat.le_refl sink),
      slot_of_sink_le (by omega), Nat.mod_one, Nat.mod_one]

/-- Once the ring has wrapped, the two newest tokens cannot both be where the readers look. -/
theorem not_reads_eq_of_wrapped (hw : 1 < window) (hp : sink + window ≤ p) :
    ((List.range (min (p + 1) (sink + window))).map fun rank =>
      ringPhysIndex rank sink window (if p < sink + window then 0 else (p - sink) % window)) ≠
      (stored sink window p).map (writtenSlot sink window) := by
  intro heq
  obtain ⟨q, rfl⟩ : ∃ q, p = q + 1 := ⟨p - 1, by omega⟩
  obtain ⟨w, rfl⟩ : ∃ w, window = w + 2 := ⟨window - 2, by omega⟩
  rw [Nat.min_eq_right (by omega), stored_eq_append hw, if_neg (by omega), ← Nat.add_assoc,
    List.range_succ, List.range_succ] at heq
  simp only [List.map_append, List.map_cons, List.map_nil, List.append_assoc, List.cons_append,
    List.nil_append] at heq
  obtain ⟨-, hlast⟩ := List.append_inj' heq rfl
  simp only [List.cons.injEq, and_true, ringPhysIndex, writtenSlot] at hlast
  obtain ⟨hprev, hnew⟩ := hlast
  rw [if_neg (by omega), if_neg (by omega), if_neg (by omega)] at hnew
  rw [if_neg (by omega), if_neg (by omega)] at hprev
  -- the newest token is at the last rank, so its distance into the ring is `-1`
  have hmod : q + 1 - sink ≡ w + 1 [MOD w + 2] := by
    have hsum : (q + 1 - sink) % (w + 2) + (q + 1 - sink) ≡
        (q + 1 - sink) % (w + 2) + (w + 1) [MOD w + 2] := by
      have h₁ : sink + w + 1 - sink = w + 1 := by omega
      rw [h₁] at hnew
      unfold Nat.ModEq
      omega
    exact Nat.ModEq.add_left_cancel' _ hsum
  have hnewest : (q + 1 - sink) % (w + 2) = w + 1 := by
    rw [hmod]
    exact Nat.mod_eq_of_lt (by omega)
  by_cases hq : q < sink + (w + 2)
  · have hlen : q + 1 - sink = w + 2 := by omega
    rw [hlen, Nat.mod_self] at hnewest
    omega
  · -- and so is the one before it
    have hpred : (q - sink) % (w + 2) = w := by
      have hsplit : q + 1 - sink = (q - sink) + 1 := by omega
      have hdiv := Nat.div_add_mod (q + 1 - sink) (w + 2)
      rw [hnewest, hsplit] at hdiv
      have hq' : q - sink = w + (w + 2) * ((q - sink + 1) / (w + 2)) := by omega
      rw [hq', Nat.add_mul_mod_self_left, Nat.mod_eq_of_lt (by omega)]
    rw [if_neg hq, hpred, hnewest, Nat.add_mod w, hpred, Nat.mod_eq_of_lt (show w < w + 2 by omega)]
      at hprev
    have h₂ : sink + w - sink = w := by omega
    rw [h₂] at hprev
    have hmod' : w + 1 + w ≡ w + w [MOD w + 2] := by
      unfold Nat.ModEq
      omega
    have hone : w + 1 ≡ w [MOD w + 2] := Nat.ModEq.add_right_cancel' w hmod'
    have := hone.eq_of_lt_of_lt (by omega) (by omega)
    omega

/-- The slots agree exactly until the ring wraps. -/
theorem decodeSlots_iff (hkind : session.kind = .llamaStreaming sink window) (hw : 0 < window)
    (h : Decoded session tokens st) (hp : p < tokens.length) :
    SlotsAgree sink window p st.feeds ↔ p < sink + window ∨ window = 1 := by
  rw [slotsAgree_iff hkind h hp]
  constructor
  · rintro ⟨-, heq⟩
    by_contra hnot
    exact not_reads_eq_of_wrapped (by omega) (by omega) heq
  · intro hunwrapped
    refine ⟨fun t ht hne => ?_, reads_eq_of_unwrapped hw hunwrapped⟩
    have hle := ht.1
    rw [writtenSlot_eq_slot hw (hunwrapped.imp_left fun hlt => by omega),
      writtenSlot_eq_slot hw hunwrapped]
    exact fun heq => hne (slot_inj ht (stored_self hw p) heq)

/-- A streaming session with no sink and a ring of two slots. -/
def ringSession : LlmSession where
  engine := { decode := fun _ _ => .ok fun _ => .ok 0, prefill := fun _ _ => .ok fun _ => .ok 0 }
  tokenizer := { encode := fun _ => .ok [1], decode := fun _ => .ok "" }
  config := { maxSeqLen := 4, eosTokenId := 9 }
  kind := .llamaStreaming 0 2
  prefillLen := none

/-- The third token wraps the ring: the readers find it before the older second one. -/
theorem ringSession_slots_disagree : ∃ st, Decoded ringSession [1, 2, 3] st ∧
    ¬ SlotsAgree 0 2 2 st.feeds := by
  refine ⟨_, .step [1, 2] 3 0 _ _ (.step [1] 2 0 _ _ (.step [] 1 0 _ _ .nil rfl) rfl) rfl, ?_⟩
  rintro ⟨-, horder⟩
  have hread := horder _ rfl
  revert hread
  decide

theorem ringSession_slots_agree : ∃ st, Decoded ringSession [1, 2] st ∧
    (SlotsAgree 0 2 1 st.feeds ↔ 1 < 0 + 2 ∨ 2 = 1) :=
  have h : Decoded ringSession [1, 2] _ := .step [1] 2 0 _ _ (.step [] 1 0 _ _ .nil rfl) rfl
  ⟨_, h, decodeSlots_iff rfl (by decide) h (by decide)⟩

end Llm
end NnEngine
