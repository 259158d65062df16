import NnEngine.Llm.Attention

/-!
# Fused rotation of the keys

`kv_position` has a row for each slot of the ring.  The graph of an unquantised cache rotates slot
by slot; the kernels that rotate an `INT8` cache look a key up by its rank.  The two agree as long as
ranks are slots, which is while the ring starts at its first slot.
-/

namespace NnEngine
namespace Llm

open SinkRing Attention

variable {sink window p maxSeqLen : Nat}

/-- The two graphs of `build_attention` rotate the key of a slot by the same position, and compute the
same attention: for an `INT8` cache, and for the cache of the same values without scales. -/
structure FusedAgrees (inputs : Inputs) (ring : RingInputs) : Prop where
  positions : ∀ active, inputs.activeSeqKv = some active → ∀ rank < active,
    ring.kvPosition[rank]? =
      ring.kvPosition[ringPhysIndex rank ring.ringSink ring.ringWindow ring.ringStart]?
  results : ∀ active, inputs.activeSeqKv = some active →
    ∀ (α : Type) [Field α] [LinearOrder α] (exp : α → α) (h : Head α)
      (cosTable sinTable : Nat → Nat → α) (c : KvCache α) (q : Nat → Nat → α) (gRow : Nat),
      h.attnOut exp true active ring cosTable sinTable c q gRow =
        h.attnOut exp false active ring cosTable sinTable c.dequantised q gRow

namespace FusedRope

/-- A rotated cache has the keys that the fused kernels compute when the positions agree. -/
theorem sameRows {α : Type} [Field α] [LinearOrder α] (a : Args α) (r : Rope α) (c : KvCache α)
    (hpos : ∀ rank < a.kvActiveSeq, r.pos rank = r.pos (a.phys rank)) :
    SameRows a (some r) none c { c.dequantised with k := rope a.headDim r c.dequantised.k }
      (· < a.kvActiveSeq) where
  key := by
    intro rank hrank i
    show rotated a.headDim (r.cosTable (r.pos rank)) (r.sinTable (r.pos rank))
        (fun i => c.k (a.phys rank) i * c.kScale (a.phys rank)) i =
      rope a.headDim r (fun s i => c.k s i * c.kScale s) (a.phys rank) i * 1
    rw [hpos rank hrank, mul_one]
    unfold rotated rope
    by_cases hi : i < a.headDim / 2
    · simp only [if_pos hi]
      ring
    · simp only [if_neg hi]
      ring
  value := by
    intro rank _ i
    show c.v (a.phys rank) i * c.vScale (a.phys rank) =
      c.v (a.phys rank) i * c.vScale (a.phys rank) * 1
    rw [mul_one]

theorem fusedAgrees_of_positions {inputs : Inputs} {ring : RingInputs}
    (h : ∀ active, inputs.activeSeqKv = some active → ∀ rank < active,
      ring.kvPosition[rank]? =
        ring.kvPosition[ringPhysIndex rank ring.ringSink ring.ringWindow ring.ringStart]?) :
    FusedAgrees inputs ring where
  positions := h
  results := by
    intro active hactive α _ _ exp head cosTable sinTable c q gRow
    refine ((sameRows (head.args active ring)
      { cosTable, sinTable, kvPosition := ring.kvPosition } c ?_).mono fun _ h => h.1).launch exp q
    intro rank hrank
    unfold Rope.pos
    rw [List.getD_eq_getElem?_getD, List.getD_eq_getElem?_getD]
    exact congrArg (Option.getD · 0) (h active hactive rank hrank)

/-! ### The inputs of a session -/

/-- The inputs of a graph run whose table is built for the stream position `p`. -/
structure At (sink window maxSeqLen p : Nat) (inputs : Inputs) (ring : RingInputs) : Prop where
  ring : ring = decodeRing sink window p maxSeqLen
  active_le : ∀ active, inputs.activeSeqKv = some active → active ≤ sink + window
  active_eq : sink + window ≤ p → inputs.activeSeqKv = some (sink + window)

theorem at_decode (token : Token) {ring : RingInputs}
    (hring : (streamingDecodeInputs maxSeqLen p token sink window).ring = some ring) :
    At sink window maxSeqLen p (streamingDecodeInputs maxSeqLen p token sink window) ring where
  ring := (Option.some.inj hring).symm
  active_le := by
    intro active hactive
    obtain rfl : min (p + 1) (sink + window) = active := Option.some.inj hactive
    exact Nat.min_le_right _ _
  active_eq := by
    intro hp
    show some (min (p + 1) (sink + window)) = _
    rw [Nat.min_eq_right (by omega)]

theorem at_prefill (padded : List Token) (prefillLen : Nat) {ring : RingInputs}
    (hring : (streamingPrefillInputs maxSeqLen p padded prefillLen sink window).ring = some ring) :
    At sink window maxSeqLen (p + prefillLen)
      (streamingPrefillInputs maxSeqLen p padded prefillLen sink window) ring where
  ring := by
    rw [← Option.some.inj hring]
    unfold decodeRing
    congr 1
    -- at `sink + window` the two comparisons differ, and both starts are zero
    by_cases heq : p + prefillLen = sink + window
    · rw [if_pos (by omega), if_neg (by omega), heq, Nat.add_sub_cancel_left, Nat.mod_self]
    · exact if_congr (by omega) rfl rfl
  active_le := by
    intro active hactive
    obtain rfl : min (p + prefillLen) (sink + window) = active := Option.some.inj hactive
    exact Nat.min_le_right _ _
  active_eq := by
    intro hp
    show some (min (p + prefillLen) (sink + window)) = _
    rw [Nat.min_eq_right hp]

/-- Where the ring starts at its first slot, a rank is a slot. -/
theorem ringPhysIndex_of_start {rank ringStart : Nat} (hstart : ringStart = 0)
    (hrank : rank < sink + window) : ringPhysIndex rank sink window ringStart = rank := by
  unfold ringPhysIndex
  split
  · rfl
  · rw [hstart, Nat.zero_add, Nat.mod_eq_of_lt (by omega)]
    omega

/-- Where it does not, the first ring rank and its slot have different positions. -/
theorem positions_of_start {k : Nat} (hk : (decodeRing sink window p maxSeqLen).ringStart = k)
    (hpos : 0 < k) (hlt : k < window) (hp : sink + window ≤ p) (hfit : sink + window ≤ maxSeqLen) :
    (streamingKvPosition sink window p maxSeqLen)[sink]? = some (sink + (window - k)) ∧
      (streamingKvPosition sink window p maxSeqLen)[sink + k]? = some sink := by
  constructor
  · have hage : (sink - sink + window - k) % window = window - k := by
      rw [Nat.sub_self, Nat.zero_add, Nat.mod_eq_of_lt (by omega)]
    rw [getElem?_streamingKvPosition (by omega), hk, if_neg (by omega), if_pos (by omega), hage,
      if_pos (by omega)]
  · have hage : (sink + k - sink + window - k) % window = 0 := by
      rw [show sink + k - sink + window - k = window by omega, Nat.mod_self]
    rw [getElem?_streamingKvPosition (by omega), hk, if_neg (by omega), if_pos (by omega), hage,
      if_pos (by omega), Nat.add_zero]

theorem At.agrees_ring_iff {inputs : Inputs} {ring : RingInputs} (h : At sink window maxSeqLen p inputs ring)
    (hw : 0 < window) (hfit : sink + window ≤ maxSeqLen) :
    FusedAgrees inputs ring ↔ p < sink + window ∨ window ∣ p - sink := by
  obtain ⟨rfl, hle, heq⟩ := h
  constructor
  · intro hagrees
    by_contra hnot
    have hp : sink + window ≤ p := by omega
    have hmod : 0 < (p - sink) % window :=
      Nat.pos_of_ne_zero fun hzero => hnot (Or.inr (Nat.dvd_of_mod_eq_zero hzero))
    have hlt : (p - sink) % window < window := Nat.mod_lt _ hw
    have hstart : (decodeRing sink window p maxSeqLen).ringStart = (p - sink) % window :=
      if_neg (by omega)
    obtain ⟨hfirst, hslot⟩ := positions_of_start hstart hmod hlt hp hfit
    have hphys : ringPhysIndex sink sink window ((p - sink) % window) =
        sink + (p - sink) % window := by
      unfold ringPhysIndex
      rw [if_neg (by omega), Nat.sub_self, Nat.add_zero, Nat.mod_mod]
    have hpos : (streamingKvPosition sink window p maxSeqLen)[sink]? =
        (streamingKvPosition sink window p maxSeqLen)[ringPhysIndex sink sink window
          (decodeRing sink window p maxSeqLen).ringStart]? :=
      hagrees.positions _ (heq hp) sink (by omega)
    rw [hstart, hphys, hfirst, hslot] at hpos
    have := Option.some.inj hpos
    omega
  · intro hcond
    have hstart : (decodeRing sink window p maxSeqLen).ringStart = 0 := by
      by_cases hp : p < sink + window
      · exact if_pos hp
      · have hdvd := hcond.resolve_left hp
        exact (if_neg hp).trans (Nat.mod_eq_zero_of_dvd hdvd)
    refine fusedAgrees_of_positions fun active hactive rank hrank => ?_
    have hphys : ringPhysIndex rank sink window (decodeRing sink window p maxSeqLen).ringStart =
        rank := by
      have hactiveLe := hle active hactive
      exact ringPhysIndex_of_start hstart (by omega)
    exact congrArg ((streamingKvPosition sink window p maxSeqLen)[·]?) hphys.symm

/-- The fused and the unfused graph agree exactly on the inputs whose ring starts at its first
slot. -/
theorem fusedAgrees_iff (s : LlmSession) (hkind : s.kind = .llamaStreaming sink window)
    (hw : 0 < window) (hfit : sink + window ≤ s.config.maxSeqLen) (st : State) :
    (∀ token ring, (s.decodeInputs st token).ring = some ring →
      (FusedAgrees (s.decodeInputs st token) ring ↔
        st.pastLen < sink + window ∨ window ∣ st.pastLen - sink)) ∧
    ∀ padded prefillLen ring, (s.prefillInputs st padded prefillLen).ring = some ring →
      (FusedAgrees (s.prefillInputs st padded prefillLen) ring ↔
        st.pastLen + prefillLen < sink + window ∨ window ∣ st.pastLen + prefillLen - sink) := by
  have hdecode : ∀ token, s.decodeInputs st token =
      streamingDecodeInputs s.config.maxSeqLen st.pastLen token sink window := by
    intro token
    simp only [LlmSession.decodeInputs, hkind]
  have hprefill : ∀ padded prefillLen, s.prefillInputs st padded prefillLen =
      streamingPrefillInputs s.config.maxSeqLen st.pastLen padded prefillLen sink window := by
    intro padded prefillLen
    simp only [LlmSession.prefillInputs, hkind]
  constructor
  · intro token ring hring
    rw [hdecode] at hring ⊢
    exact (at_decode token hring).agrees_ring_iff hw hfit
  · intro padded prefillLen ring hring
    rw [hprefill] at hring ⊢
    exact (at_prefill padded prefillLen hring).agrees_ring_iff hw hfit

/-- The fourth token starts the ring of `ringSession` at its second slot.  The key at rank 0 is rotated
by position 1 in the fused kernels and by position 0 before the unfused ones. -/
theorem ringSession_rotations_differ : ∃ st, Decoded ringSession [1, 2, 3] st ∧
    ∃ ring, (ringSession.decodeInputs st 4).ring = some ring ∧
      ¬ FusedAgrees (ringSession.decodeInputs st 4) ring := by
  refine ⟨_, .step [1, 2] 3 0 _ _ (.step [1] 2 0 _ _ (.step [] 1 0 _ _ .nil rfl) rfl) rfl, _, rfl, ?_⟩
  intro hagrees
  have hpos := hagrees.positions 2 rfl 0 (by decide)
  revert hpos
  decide

theorem ringSession_rotations_agree :
    FusedAgrees (ringSession.decodeInputs .new 7) (decodeRing 0 2 0 4) ↔ 0 < 0 + 2 ∨ 2 ∣ 0 - 0 :=
  (fusedAgrees_iff ringSession rfl (by decide) (by decide) .new).1 7 _ rfl

end FusedRope
end Llm
end NnEngine
