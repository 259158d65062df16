import NnEngine.Llm.Streaming

/-!
# Prefill of a streaming session

A prefill chunk writes `prefill_len` slots of the ring but advances the stream only by its real
tokens.  Padding that stays below `sink + window` lies in slots that are not live yet; padding that
wraps overwrites tokens that are, until the stream reaches it.  `Filled` is what every run keeps:
which slots hold a token and which hold padding.
-/

namespace NnEngine
namespace Llm

open SinkRing

variable {sink window n p q t : Nat} {session : LlmSession} {st st' : State}

/-- What a slot of the cache holds. -/
inductive Cell
  | empty
  | token (t : Nat)
  | padding
  deriving DecidableEq, Repr

/-- What the `i`-th id of a graph run leaves in its slot. -/
def Feed.cell (f : Feed) (i : Nat) : Cell :=
  if i < f.chunkSize then .token (f.inputs.pastLen + i) else .padding

/-- The writes of a graph run, each in the ring slot of its position. -/
def writeFeed (sink window : Nat) (cells : Nat → Cell) (f : Feed) : Nat → Cell :=
  (List.range f.inputs.inputIds.length).foldl
    (fun m i => Function.update m (slot sink window (f.inputs.pastLen + i)) (f.cell i)) cells

/-- The cache after all graph runs. -/
def cells (sink window : Nat) (feeds : List Feed) : Nat → Cell :=
  feeds.foldl (writeFeed sink window) fun _ => .empty

/-- The end of the positions that a graph run writes. -/
def Feed.stop (f : Feed) : Nat := f.inputs.pastLen + f.inputs.inputIds.length

/-- A prompt that is prefilled, or a decode step. -/
inductive StreamOp
  | prompt (ids : List Token)
  | decode (token : Token)
  deriving DecidableEq, Repr

/-- A run of successful prefills and decode steps from an empty cache. -/
inductive Streamed (s : LlmSession) (prefillLen : Nat) : List StreamOp → State → Prop
  | nil : Streamed s prefillLen [] .new
  | prompt (ops : List StreamOp) (ids : List Token) (next : Token) (st st' : State)
      (h : Streamed s prefillLen ops st)
      (hrun : s.runPrefill st ids prefillLen = some (.ok next, st')) :
      Streamed s prefillLen (ops ++ [.prompt ids]) st'
  | decode (ops : List StreamOp) (token next : Token) (st st' : State)
      (h : Streamed s prefillLen ops st) (hstep : s.decodeStep st token = (.ok next, st')) :
      Streamed s prefillLen (ops ++ [.decode token]) st'

/-- The slots that the decode step of token `p` presents as live hold exactly the sink tokens and the
last `window` tokens. -/
def LiveExact (sink window p : Nat) (f : Feed) (cells : Nat → Cell) : Prop :=
  ∀ c, (∃ s ∈ attentionSlots f.inputs, cells s = c) ↔ ∃ t, Stored sink window p t ∧ c = .token t

/-! ### The writes of one run -/

theorem foldl_write_of_ne (f : Feed) (m : Nat → Cell) {s k : Nat}
    (h : ∀ i < k, slot sink window (f.inputs.pastLen + i) ≠ s) :
    (List.range k).foldl (fun m i =>
      Function.update m (slot sink window (f.inputs.pastLen + i)) (f.cell i)) m s = m s := by
  induction k with
  | zero => rfl
  | succ k ih =>
      rw [List.range_succ, List.foldl_append, List.foldl_cons, List.foldl_nil,
        Function.update_of_ne (fun heq => h k (Nat.lt_succ_self k) heq.symm)]
      exact ih fun i hi => h i (by omega)

theorem foldl_write_of_last (sink window : Nat) (f : Feed) (m : Nat → Cell) {i k : Nat} (hi : i < k)
    (h : ∀ j < k, slot sink window (f.inputs.pastLen + j) =
      slot sink window (f.inputs.pastLen + i) → j = i) :
    (List.range k).foldl (fun m i =>
      Function.update m (slot sink window (f.inputs.pastLen + i)) (f.cell i)) m
        (slot sink window (f.inputs.pastLen + i)) = f.cell i := by
  induction k with
  | zero => omega
  | succ k ih =>
      rw [List.range_succ, List.foldl_append, List.foldl_cons, List.foldl_nil]
      by_cases hik : i = k
      · rw [hik, Function.update_self]
      · rw [Function.update_of_ne fun heq => hik (h k (Nat.lt_succ_self k) heq.symm).symm]
        exact ih (by omega) fun j hj => h j (by omega)

/-! ### What a run keeps -/

/-- The slots of a stream of `n` tokens of which the positions up to `stop` have been written, the
ones from `n` on with padding. -/
structure Filled (sink window n stop : Nat) (cells : Nat → Cell) : Prop where
  le : n ≤ stop
  cell : ∀ q < stop, q < sink ∨ stop ≤ q + window →
    cells (slot sink window q) = if q < n then .token q else .padding

/-- A graph run that starts at the end of the stream and reaches past all that was written. -/
theorem Filled.feed {stop stop' : Nat} {m : Nat → Cell} {f : Feed} (h : Filled sink window n stop m)
    (hn : f.inputs.pastLen = n) (hstop : stop' = max stop f.stop)
    (hchunk : f.chunkSize ≤ f.inputs.inputIds.length) (hwin : stop' ≤ n + window)
    (hreal : f.stop < stop → f.chunkSize = f.inputs.inputIds.length) :
    Filled sink window (n + f.chunkSize) stop' (writeFeed sink window m f) where
  le := by
    have := h.le
    unfold Feed.stop at hstop
    omega
  cell := by
    intro q hq hlive
    have hend : f.stop = n + f.inputs.inputIds.length := by rw [Feed.stop, hn]
    -- positions that stay apart from each other in the ring
    have hstored : ∀ j < stop', j < sink ∨ stop' ≤ j + window → Stored sink window (stop' - 1) j :=
      fun j hj hjl => ⟨by omega, by omega⟩
    have hapart : ∀ i < f.inputs.inputIds.length,
        slot sink window (n + i) = slot sink window q → n + i = q := by
      intro i hi heq
      exact slot_inj (hstored (n + i) (by omega) (by omega)) (hstored q hq hlive) heq
    unfold writeFeed
    by_cases hin : n ≤ q ∧ q < n + f.inputs.inputIds.length
    · obtain ⟨i, rfl⟩ : ∃ i, q = n + i := ⟨q - n, by omega⟩
      have hlast := foldl_write_of_last sink window f m
        (show i < f.inputs.inputIds.length by omega) (fun j hj heq => by
          rw [hn] at heq
          have := hapart j hj heq
          omega)
      rw [hn] at hlast
      rw [hn, hlast, Feed.cell, hn]
      by_cases hi : i < f.chunkSize
      · rw [if_pos hi, if_pos (by omega)]
      · rw [if_neg hi, if_neg (by omega)]
    · rw [foldl_write_of_ne f m fun i hi heq => by
        rw [hn] at heq
        have := hapart i hi heq
        omega]
      have hle := h.le
      rw [h.cell q (by omega) (by omega)]
      by_cases hqn : q < n
      · rw [if_pos hqn, if_pos (by omega)]
      · rw [if_neg hqn, if_neg (by omega)]

/-- What a run of the session keeps: `stop` is the end of all positions written so far. -/
structure Streaming (sink window prefillLen : Nat) (st : State) (stop : Nat) : Prop where
  filled : Filled sink window st.pastLen stop (cells sink window st.feeds)
  ahead : stop < st.pastLen + max prefillLen 1
  bound : ∀ f ∈ st.feeds, f.stop ≤ stop
  reached : stop = st.pastLen ∨ ∃ f ∈ st.feeds, f.stop = stop

theorem Streaming.new (prefillLen : Nat) : Streaming sink window prefillLen .new 0 where
  filled := { le := Nat.le_refl 0, cell := fun q hq => absurd hq (Nat.not_lt_zero q) }
  ahead := by
    show 0 < 0 + max prefillLen 1
    omega
  bound := by simp [State.new]
  reached := Or.inl rfl

theorem Streaming.feed {prefillLen stop : Nat} {f : Feed} (h : Streaming sink window prefillLen st stop)
    (hw : 0 < window) (hL : prefillLen ≤ window) (hn : f.inputs.pastLen = st.pastLen)
    (hchunk : f.chunkSize ≤ f.inputs.inputIds.length) (hpos : 0 < f.chunkSize)
    (hlen : f.inputs.inputIds.length = prefillLen ∨ f.inputs.inputIds.length = 1) :
    Streaming sink window prefillLen
      { pastLen := st.pastLen + f.chunkSize, feeds := st.feeds ++ [f] } (max stop f.stop) := by
  have hend : f.stop = st.pastLen + f.inputs.inputIds.length := by rw [Feed.stop, hn]
  have hahead := h.ahead
  refine { filled := ?_, ahead := ?_, bound := ?_, reached := ?_ }
  · show Filled sink window (st.pastLen + f.chunkSize) _ (cells sink window (st.feeds ++ [f]))
    rw [cells, List.foldl_append]
    exact h.filled.feed hn rfl hchunk (by omega) (by omega)
  · dsimp only
    omega
  · intro g hg
    rcases List.mem_append.mp hg with hg | hg
    · exact (h.bound g hg).trans (Nat.le_max_left _ _)
    · rw [List.mem_singleton.mp hg]
      exact Nat.le_max_right _ _
  · by_cases hle : stop ≤ f.stop
    · exact Or.inr ⟨f, by simp, by omega⟩
    · rcases h.reached with hst | ⟨g, hg, hgs⟩
      · omega
      · exact Or.inr ⟨g, by simp [hg], by omega⟩

/-! ### The operations of a session -/

theorem Streaming.prefill {prefillLen : Nat} (hw : 0 < window) (hL : prefillLen ≤ window)
    {next : Token} : ∀ (fuel : Nat) (st : State) (ids : List Token) (stop : Nat),
      Streaming sink window prefillLen st stop →
      session.runPrefillRec prefillLen fuel st ids = some (.ok next, st') →
      ∃ stop', Streaming sink window prefillLen st' stop' := by
  intro fuel
  induction fuel with
  | zero =>
      intro st ids stop h hrun
      cases hrun
  | succ fuel ih =>
      intro st ids stop h hrun
      obtain ⟨hpast, -, hlen, hchunk⟩ := session.prefillFeed_spec st ids prefillLen
      unfold LlmSession.runPrefillRec at hrun
      dsimp only at hrun
      split at hrun
      · cases hrun
      rename_i hne
      have hids : 0 < ids.length := by
        cases ids with
        | nil => simp at hne
        | cons => simp
      have hfeed : prefillLen ≠ 0 → Streaming sink window prefillLen
          { pastLen := st.pastLen + (session.prefillFeed st ids prefillLen).chunkSize
            feeds := st.feeds ++ [session.prefillFeed st ids prefillLen] }
          (max stop (session.prefillFeed st ids prefillLen).stop) := fun hzero =>
        h.feed hw hL hpast (by omega) (by omega) (Or.inl hlen)
      split at hrun
      · cases hrun
      · split at hrun
        · rename_i hlast
          obtain ⟨-, rfl⟩ := Prod.mk.inj (Option.some.inj hrun)
          exact ⟨_, hfeed (by omega)⟩
        · by_cases hzero : prefillLen = 0
          · -- nothing is consumed, so that the fuel runs out
            subst hzero
            exfalso
            have hstuck : ∀ (fuel : Nat) (st : State), session.runPrefillRec 0 fuel st ids ≠
                some (.ok next, st') := by
              intro fuel
              induction fuel with
              | zero => intro st hrun; cases hrun
              | succ fuel ih =>
                  intro st hrun
                  have hc := (session.prefillFeed_spec st ids 0).2.2.2
                  rw [Nat.min_zero] at hc
                  unfold LlmSession.runPrefillRec at hrun
                  dsimp only at hrun
                  rw [if_neg hne] at hrun
                  split at hrun
                  · cases hrun
                  · rw [hc, if_neg (by omega), List.drop_zero] at hrun
                    exact ih _ hrun
            rw [hchunk, Nat.min_zero, List.drop_zero] at hrun
            exact hstuck fuel _ hrun
          · exact ih _ _ _ (hfeed hzero) hrun

theorem Streaming.decode {prefillLen stop : Nat} {token next : Token} (hw : 0 < window)
    (hL : prefillLen ≤ window) (h : Streaming sink window prefillLen st stop)
    (hstep : session.decodeStep st token = (.ok next, st')) :
    Streaming sink window prefillLen st' (max stop (st.pastLen + 1)) := by
  obtain ⟨hpast, hids⟩ := session.decodeInputs_spec st token
  have hlen : (session.decodeInputs st token).inputIds.length = 1 := by rw [hids]; rfl
  rw [LlmSession.decodeStep_ok hstep]
  have hfeed := h.feed (f := { inputs := session.decodeInputs st token, chunkSize := 1 }) hw hL hpast
    (Nat.le_of_eq hlen.symm) Nat.one_pos (Or.inr hlen)
  have hstop : Feed.stop { inputs := session.decodeInputs st token, chunkSize := 1 } =
      st.pastLen + 1 := by
    rw [Feed.stop]
    dsimp only
    rw [hpast, hlen]
  rw [hstop] at hfeed
  exact hfeed

/-- Every run keeps track of its padding. -/
theorem Streamed.streaming (sink : Nat) {prefillLen : Nat} {ops : List StreamOp} (hw : 0 < window)
    (hL : prefillLen ≤ window) (h : Streamed session prefillLen ops st) :
    ∃ stop, Streaming sink window prefillLen st stop := by
  induction h with
  | nil => exact ⟨0, .new prefillLen⟩
  | prompt ops ids next st st' _ hrun ih =>
      obtain ⟨stop, hst⟩ := ih
      exact hst.prefill hw hL _ _ _ _ hrun
  | decode ops token next st st' _ hstep ih =>
      obtain ⟨stop, hst⟩ := ih
      exact ⟨_, hst.decode hw hL hstep⟩

/-! ### Live slots -/

theorem slot_le (sink window t : Nat) : slot sink window t ≤ t := by
  unfold slot
  split
  · omega
  · have := Nat.mod_le (t - sink) window
    omega

/-- The readers walk all slots that have been written. -/
theorem mem_attentionSlots (hw : 0 < window) (maxSeqLen p : Nat) (token : Token) {s : Nat} :
    s ∈ attentionSlots (streamingDecodeInputs maxSeqLen p token sink window) ↔
      s < min (p + 1) (sink + window) := by
  rw [attentionSlots_decode, List.mem_map]
  by_cases hp : p < sink + window
  · have hread : ∀ rank, rank < sink + window → ringPhysIndex rank sink window 0 = rank := by
      intro rank hrank
      rw [(ringPhysIndex_zero rank sink window).resolve_right (by omega), slot_of_lt hrank]
    rw [if_pos hp]
    constructor
    · rintro ⟨rank, hrank, rfl⟩
      have hlt := List.mem_range.mp hrank
      rw [hread rank (by omega)]
      exact hlt
    · intro hs
      exact ⟨s, List.mem_range.mpr hs, hread s (by omega)⟩
  · have hstart := Nat.mod_lt (p - sink) hw
    rw [if_neg hp, Nat.min_eq_right (by omega)]
    generalize (p - sink) % window = start at hstart
    constructor
    · rintro ⟨rank, hrank, rfl⟩
      have hlt := List.mem_range.mp hrank
      have hmod := Nat.mod_lt (start + (rank - sink)) hw
      unfold ringPhysIndex
      split <;> omega
    · intro hs
      by_cases hsink : s < sink
      · exact ⟨s, List.mem_range.mpr hs, if_pos (Or.inr hsink)⟩
      · -- the rank at which slot `s` comes up
        have hmod := Nat.mod_lt (s - sink + (window - start)) hw
        refine ⟨sink + (s - sink + (window - start)) % window, List.mem_range.mpr (by omega), ?_⟩
        rw [ringPhysIndex, if_neg (by omega), Nat.add_sub_cancel_left, Nat.add_mod_mod]
        have hsum : start + (s - sink + (window - start)) = s - sink + window := by omega
        rw [hsum, Nat.add_mod_right, Nat.mod_eq_of_lt (by omega)]
        omega

/-- A decode step finds exactly the tokens of the stream in its live slots if and only if no earlier
run has written past both the position of the step and the end of the ring. -/
theorem decode_live_iff {prefillLen : Nat} {ops : List StreamOp} {token next : Token}
    (hkind : session.kind = .llamaStreaming sink window) (hw : 0 < window)
    (hL : prefillLen ≤ window) (h : Streamed session prefillLen ops st)
    (hstep : session.decodeStep st token = (.ok next, st')) :
    LiveExact sink window st.pastLen { inputs := session.decodeInputs st token, chunkSize := 1 }
        (cells sink window st'.feeds) ↔
      ∀ f ∈ st.feeds, f.stop ≤ max (st.pastLen + 1) (sink + window) := by
  obtain ⟨stop, hst⟩ := h.streaming sink hw hL
  have hfilled := (hst.decode hw hL hstep).filled
  have hahead := hst.ahead
  have hpast : st'.pastLen = st.pastLen + 1 := by rw [LlmSession.decodeStep_ok hstep]
  rw [hpast] at hfilled
  have hinputs : session.decodeInputs st token =
      streamingDecodeInputs session.config.maxSeqLen st.pastLen token sink window := by
    simp only [LlmSession.decodeInputs, hkind]
  have hmem : ∀ s, s ∈ attentionSlots (session.decodeInputs st token) ↔
      s < min (st.pastLen + 1) (sink + window) := by
    intro s
    rw [hinputs]
    exact mem_attentionSlots hw _ _ _
  generalize hcells : cells sink window st'.feeds = m at hfilled
  constructor
  · intro hlive f hf
    by_contra hnot
    have hbound := hst.bound f hf
    -- a padding position whose slot is live
    obtain ⟨q, hq, hpad, hwin, hslot⟩ : ∃ q, q < max stop (st.pastLen + 1) ∧ st.pastLen + 1 ≤ q ∧
        max stop (st.pastLen + 1) ≤ q + window ∧ slot sink window q < st.pastLen + 1 := by
      by_cases hp : st.pastLen + 1 < sink + window
      · refine ⟨sink + window, by omega, by omega, by omega, ?_⟩
        have hsub : sink + window - sink = window := by omega
        rw [slot_of_sink_le (by omega), hsub, Nat.mod_self]
        omega
      · have hlt := slot_lt sink hw (stop - 1)
        exact ⟨stop - 1, by omega, by omega, by omega, by omega⟩
    have hcell := hfilled.cell q hq (Or.inr hwin)
    rw [if_neg (by omega)] at hcell
    have hlt := slot_lt sink hw q
    obtain ⟨t, -, ht⟩ := (hlive .padding).mp ⟨_, (hmem _).mpr (by omega), hcell⟩
    cases ht
  · intro hall
    have hstop : max stop (st.pastLen + 1) ≤ max (st.pastLen + 1) (sink + window) := by
      rcases hst.reached with hst | ⟨f, hf, hfs⟩
      · omega
      · have := hall f hf
        omega
    have htoken : ∀ t, Stored sink window st.pastLen t → m (slot sink window t) = .token t := by
      intro t ht
      obtain ⟨hle, hlive⟩ := ht
      rw [hfilled.cell t (by omega) (by omega), if_pos (by omega)]
    intro c
    constructor
    · rintro ⟨s, hs, rfl⟩
      have hlt := (hmem s).mp hs
      obtain ⟨t, ht, rfl⟩ : ∃ t, Stored sink window st.pastLen t ∧ slot sink window t = s :=
        exists_stored (by omega) (by omega)
      exact ⟨t, ht, htoken t ht⟩
    · rintro ⟨t, ht, rfl⟩
      have hle := slot_le sink window t
      have hlt := slot_lt sink hw t
      have htp := ht.1
      exact ⟨_, (hmem _).mpr (by omega), htoken t ht⟩

/-- A streaming session with a ring of four slots that prefills four tokens at a time. -/
def chunkSession : LlmSession where
  engine := { decode := fun _ _ => .ok fun _ => .ok 0, prefill := fun _ _ => .ok fun _ => .ok 0 }
  tokenizer := { encode := fun _ => .ok [1], decode := fun _ => .ok "" }
  config := { maxSeqLen := 4, eosTokenId := 9 }
  kind := .llamaStreaming 0 4
  prefillLen := some 4

/-- Five tokens take two chunks; the padding of the second overwrites tokens 2 and 3, which are live
when token 5 is decoded. -/
theorem chunkSession_not_live : ∃ st st', Streamed chunkSession 4 [.prompt [1, 1, 1, 1, 1]] st ∧
    chunkSession.decodeStep st 1 = (.ok 0, st') ∧
    ¬ LiveExact 0 4 st.pastLen { inputs := chunkSession.decodeInputs st 1, chunkSize := 1 }
      (cells 0 4 st'.feeds) := by
  refine ⟨_, _, .prompt [] [1, 1, 1, 1, 1] 0 _ _ .nil rfl, rfl, fun hlive => ?_⟩
  obtain ⟨t, -, ht⟩ := (hlive .padding).mp ⟨2, by decide, by decide⟩
  cases ht

theorem chunkSession_live_iff : ∃ st st', Streamed chunkSession 4 [.prompt [1, 1, 1]] st ∧
    chunkSession.decodeStep st 1 = (.ok 0, st') ∧
    (LiveExact 0 4 st.pastLen { inputs := chunkSession.decodeInputs st 1, chunkSize := 1 }
      (cells 0 4 st'.feeds) ↔ ∀ f ∈ st.feeds, f.stop ≤ max (st.pastLen + 1) (0 + 4)) :=
  have h : Streamed chunkSession 4 [.prompt [1, 1, 1]] _ := .prompt [] [1, 1, 1] 0 _ _ .nil rfl
  ⟨_, _, h, rfl, decode_live_iff rfl (by decide) (by decide) h rfl⟩

end Llm
end NnEngine
