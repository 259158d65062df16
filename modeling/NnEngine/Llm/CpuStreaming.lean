import NnEngine.Llm.Prefill
import NnEngine.Llm.StreamingPrefill
import NnEngine.Tensor.Contiguity

/-!
# Streaming on the CPU

The lowering of `KVCacheUpdate` and `Attention` in `codegen/cpu/translator.rs` beside the CUDA kernels,
on the graph runs of a streaming session.  The lowering does not see the ring inputs: `offset` is the
first slot that is written, and a rank is its own slot.  `cpuStreaming_iff` says on which runs this is
what the kernels do.
-/

namespace NnEngine
namespace Llm

open SinkRing

variable {sink window maxSeqLen rank : Nat} {s : LlmSession} {st : State} {f : Feed} {inputs : Inputs}

/-! ### Addresses -/

/-! ### Slots -/

/-- The slots that the CPU lowering of `KVCacheUpdate` writes in a graph run. -/
def cpuUpdateSlots (inputs : Inputs) : List Nat :=
  (List.range inputs.inputIds.length).map (inputs.pastLen + ·)

/-- The slots that the CPU lowering of `Attention` reads in a graph run, by rank: a rank is its own slot, and
the bound of its loop is clamped to the length of the cache. -/
def cpuAttentionSlots (seqK : Nat) (inputs : Inputs) : List Nat :=
  List.range (min (inputs.activeSeqKv.getD seqK) seqK)

/-- The CPU lowering writes and reads the slots of the CUDA kernels, and they are all in the cache. -/
structure CpuRefines (maxSeqLen : Nat) (inputs : Inputs) : Prop where
  writes : cpuUpdateSlots inputs = updateSlots inputs
  reads : cpuAttentionSlots maxSeqLen inputs = attentionSlots inputs
  inCache : ∀ slot ∈ cpuUpdateSlots inputs ++ cpuAttentionSlots maxSeqLen inputs, slot < maxSeqLen

/-- The ring inputs of a graph run that ends at position `stop`. -/
structure RingFed (sink window : Nat) (f : Feed) (r : RingInputs) : Prop where
  ring : f.inputs.ring = some r
  sinkEq : r.ringSink = sink
  windowEq : r.ringWindow = window
  active : f.inputs.activeSeqKv = some (min f.stop (sink + window))
  start : if f.stop ≤ sink + window then r.ringStart = 0 else r.ringStart < window

theorem ringPhysIndex_lt {ringStart : Nat} (hw : 0 < window) :
    ringPhysIndex rank sink window ringStart < sink + window := by
  unfold ringPhysIndex
  split
  · omega
  · have hlt := Nat.mod_lt (ringStart + (rank - sink)) hw
    omega

theorem ringPhysIndex_of_lt (h : rank < sink + window) : ringPhysIndex rank sink window 0 = rank := by
  unfold ringPhysIndex
  split
  · rfl
  · rw [Nat.zero_add, Nat.mod_eq_of_lt (by omega)]
    omega

namespace RingFed

variable {r : RingInputs}

theorem updateSlots (h : RingFed sink window f r) :
    updateSlots f.inputs = (List.range f.inputs.inputIds.length).map fun t =>
      ringPhysIndex (f.inputs.pastLen + t) sink window r.ringStart := by
  unfold Llm.updateSlots
  rw [h.ring, ← h.sinkEq, ← h.windowEq]

theorem attentionSlots (h : RingFed sink window f r) :
    attentionSlots f.inputs = (List.range (min f.stop (sink + window))).map fun rank =>
      ringPhysIndex rank sink window r.ringStart := by
  unfold Llm.attentionSlots
  rw [h.ring, h.active, Option.getD_some]
  dsimp only
  rw [h.sinkEq, h.windowEq]

theorem cpuAttentionSlots (h : RingFed sink window f r) (hfit : sink + window ≤ maxSeqLen) :
    cpuAttentionSlots maxSeqLen f.inputs = List.range (min f.stop (sink + window)) := by
  rw [Llm.cpuAttentionSlots, h.active, Option.getD_some, Nat.min_eq_left (by omega)]

/-- With the start of the ring at 0 the lowering reads what the kernels read. -/
theorem reads (h : RingFed sink window f r) (hfit : sink + window ≤ maxSeqLen) (hstart : r.ringStart = 0) :
    Llm.cpuAttentionSlots maxSeqLen f.inputs = Llm.attentionSlots f.inputs := by
  rw [h.cpuAttentionSlots hfit, h.attentionSlots, hstart]
  refine (List.map_id _).symm.trans (List.map_congr_left fun rank hrank => ?_)
  have hlt := List.mem_range.mp hrank
  have hrank : rank < sink + window := by omega
  exact (ringPhysIndex_of_lt hrank).symm

/-- One graph run.  A run without ids has nothing to write. -/
theorem cpuRefines_iff (h : RingFed sink window f r) (hw : 0 < window) (hfit : sink + window ≤ maxSeqLen) :
    CpuRefines maxSeqLen f.inputs ↔
      f.stop ≤ sink + window ∨ f.inputs.inputIds = [] ∧ r.ringStart = 0 := by
  have hstop : f.stop = f.inputs.pastLen + f.inputs.inputIds.length := rfl
  constructor
  · rintro ⟨hwrites, hreads, -⟩
    by_contra hnot
    obtain ⟨hlt, hids⟩ := not_or.mp hnot
    by_cases hnil : f.inputs.inputIds = []
    · -- The first rank past the sink is read at the start of the ring.
      refine hids ⟨hnil, ?_⟩
      have hstart := h.start
      rw [if_neg hlt] at hstart
      rw [h.cpuAttentionSlots hfit, h.attentionSlots] at hreads
      have hmin : sink < min f.stop (sink + window) := by omega
      have hrank := congrArg (fun l => l[sink]?) hreads
      simp only [List.getElem?_map, List.getElem?_range hmin, Option.map_some, Option.some_inj] at hrank
      rw [ringPhysIndex, if_neg (by omega), Nat.sub_self, Nat.add_zero, Nat.mod_eq_of_lt hstart] at hrank
      omega
    · -- The last token is written past the ring.
      have hlen := List.length_pos_of_ne_nil hnil
      rw [h.updateSlots] at hwrites
      have hin : f.inputs.inputIds.length - 1 < f.inputs.inputIds.length := by omega
      have hlast := congrArg (fun l => l[f.inputs.inputIds.length - 1]?) hwrites
      simp only [cpuUpdateSlots, List.getElem?_map, List.getElem?_range hin, Option.map_some,
        Option.some_inj] at hlast
      have hring := @ringPhysIndex_lt sink window (f.inputs.pastLen + (f.inputs.inputIds.length - 1)) r.ringStart hw
      omega
  · intro hcond
    have hstart : r.ringStart = 0 := by
      obtain hle | ⟨-, hzero⟩ := hcond
      · have hstart := h.start
        rwa [if_pos hle] at hstart
      · exact hzero
    have hid : ∀ t < f.inputs.inputIds.length, f.inputs.pastLen + t < sink + window := by
      intro t ht
      obtain hle | ⟨hnil, -⟩ := hcond
      · omega
      · rw [hnil] at ht
        exact absurd ht (Nat.not_lt_zero t)
    refine ⟨?_, h.reads hfit hstart, fun slot hslot => ?_⟩
    · rw [h.updateSlots, hstart]
      refine List.map_congr_left fun t ht => ?_
      exact (ringPhysIndex_of_lt (hid t (List.mem_range.mp ht))).symm
    · obtain hslot | hslot := List.mem_append.mp hslot
      · obtain ⟨t, ht, rfl⟩ := List.mem_map.mp hslot
        exact (hid t (List.mem_range.mp ht)).trans_le hfit
      · rw [h.cpuAttentionSlots hfit] at hslot
        have hlt := List.mem_range.mp hslot
        omega

end RingFed

/-! ### Runs -/

theorem ringFed_decode (hkind : s.kind = .llamaStreaming sink window) (hw : 0 < window) (st : State) (token : Token) :
    ∃ r, RingFed sink window { inputs := s.decodeInputs st token, chunkSize := 1 } r := by
  unfold LlmSession.decodeInputs
  rw [hkind]
  refine ⟨_, ⟨rfl, rfl, rfl, rfl, ?_⟩⟩
  have hlt := Nat.mod_lt (st.pastLen - sink) hw
  show if st.pastLen + 1 ≤ sink + window then
    (if st.pastLen < sink + window then 0 else (st.pastLen - sink) % window) = 0 else
      (if st.pastLen < sink + window then 0 else (st.pastLen - sink) % window) < window
  split <;> split <;> omega

theorem ringFed_prefill (hkind : s.kind = .llamaStreaming sink window) (hw : 0 < window) (st : State)
    (ids : List Token) (prefillLen : Nat) : ∃ r, RingFed sink window (s.prefillFeed st ids prefillLen) r := by
  obtain ⟨hpast, -, hlen, -⟩ := s.prefillFeed_spec st ids prefillLen
  have hstop : (s.prefillFeed st ids prefillLen).stop = st.pastLen + prefillLen := by rw [Feed.stop, hpast, hlen]
  have hinputs : (s.prefillFeed st ids prefillLen).inputs = streamingPrefillInputs s.config.maxSeqLen st.pastLen
      (s.prefillFeed st ids prefillLen).inputs.inputIds prefillLen sink window := by
    simp only [LlmSession.prefillFeed, LlmSession.prefillInputs, hkind, streamingPrefillInputs]
  have hlt := Nat.mod_lt (st.pastLen + prefillLen - sink) hw
  refine ⟨_, ⟨by rw [hinputs]; rfl, rfl, rfl, by rw [hstop, hinputs]; rfl, ?_⟩⟩
  rw [hstop]
  split
  · rfl
  · exact hlt

/-- Every run feeds ring inputs. -/
def AllRingFed (sink window : Nat) (st : State) : Prop := ∀ f ∈ st.feeds, ∃ r, RingFed sink window f r

theorem AllRingFed.feed {n : Nat} (h : AllRingFed sink window st) (hf : ∃ r, RingFed sink window f r) :
    AllRingFed sink window { pastLen := n, feeds := st.feeds ++ [f] } := by
  intro g hg
  rcases List.mem_append.mp hg with hg | hg
  · exact h g hg
  · rw [List.mem_singleton.mp hg]
    exact hf

theorem AllRingFed.prefill (hkind : s.kind = .llamaStreaming sink window) (hw : 0 < window) {prefillLen : Nat}
    {result : Except LlmError Token} {st' : State} : ∀ (fuel : Nat) (st : State) (ids : List Token),
      AllRingFed sink window st → s.runPrefillRec prefillLen fuel st ids = some (result, st') →
      AllRingFed sink window st' := by
  intro fuel
  induction fuel with
  | zero =>
      intro st ids _ hrun
      cases hrun
  | succ fuel ih =>
      intro st ids h hrun
      have hfed := ringFed_prefill hkind hw st ids prefillLen
      unfold LlmSession.runPrefillRec at hrun
      dsimp only at hrun
      split at hrun
      · cases hrun
      · split at hrun
        · obtain ⟨-, rfl⟩ := Prod.mk.inj (Option.some.inj hrun)
          exact h.feed hfed
        · split at hrun
          · obtain ⟨-, rfl⟩ := Prod.mk.inj (Option.some.inj hrun)
            exact h.feed hfed
          · exact ih _ _ (h.feed hfed) hrun

theorem Steps.allRingFed (hkind : s.kind = .llamaStreaming sink window) (hw : 0 < window) (h : Steps s .new st) :
    AllRingFed sink window st := by
  induction h with
  | refl => exact nofun
  | decode st token _ ih =>
      have hfeeds : AllRingFed sink window
          { pastLen := 0, feeds := st.feeds ++ [{ inputs := s.decodeInputs st token, chunkSize := 1 }] } :=
        ih.feed (ringFed_decode hkind hw st token)
      unfold AllRingFed at hfeeds ⊢
      rwa [(decodeStep_feeds s st token).1]
  | prefill st st' ids prefillLen result _ hrun ih => exact ih.prefill hkind hw _ _ _ hrun
  | rewind st n _ _ ih => exact ih

/-- In every run of a streaming session the CPU lowering keeps to the slots of the CUDA kernels, and to the
cache, exactly in the graph runs that end before the ring wraps. -/
theorem cpuStreaming_iff (hkind : s.kind = .llamaStreaming sink window) (hw : 0 < window)
    (hfit : sink + window ≤ s.config.maxSeqLen) (h : Steps s .new st) :
    ∀ f ∈ st.feeds, CpuRefines s.config.maxSeqLen f.inputs ↔
      f.inputs.pastLen + f.inputs.inputIds.length ≤ sink + window ∨
        f.inputs.inputIds = [] ∧ f.inputs.ring.map RingInputs.ringStart = some 0 := by
  intro f hf
  obtain ⟨r, hr⟩ := h.allRingFed hkind hw f hf
  rw [hr.cpuRefines_iff hw hfit, hr.ring, Option.map_some, Option.some_inj]
  rfl

theorem chunkSession_cpuStreaming : ∃ st, Steps chunkSession .new st ∧ ∀ f ∈ st.feeds,
    CpuRefines 4 f.inputs ↔ f.inputs.pastLen + f.inputs.inputIds.length ≤ 0 + 4 ∨
      f.inputs.inputIds = [] ∧ f.inputs.ring.map RingInputs.ringStart = some 0 :=
  have h : Steps chunkSession .new (chunkSession.decodeStep .new 1).2 := .decode .new 1 .refl
  ⟨_, h, cpuStreaming_iff rfl (by decide) (by decide) h⟩

/-- The fifth token of a ring of four slots: the lowering writes past the end of the cache. -/
theorem chunkSession_cpu_past_cache : ∃ st, Steps chunkSession .new st ∧ ∃ f ∈ st.feeds,
    cpuUpdateSlots f.inputs = [4] ∧ updateSlots f.inputs = [0] ∧ chunkSession.config.maxSeqLen = 4 ∧
      ¬ CpuRefines chunkSession.config.maxSeqLen f.inputs := by
  have h := Steps.decode _ 1 (.decode _ 1 (.decode _ 1 (.decode _ 1 (.decode .new 1
    (.refl : Steps chunkSession .new .new)))))
  refine ⟨_, h, { inputs := streamingDecodeInputs 4 4 1 0 4, chunkSize := 1 }, by decide, by decide, by decide, rfl,
    fun hcpu => ?_⟩
  exact absurd (hcpu.inCache 4 (by decide)) (by decide)

end Llm
end NnEngine
