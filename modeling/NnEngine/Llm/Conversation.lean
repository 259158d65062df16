import NnEngine.Llm.Session

/-!
# Conversations

What `generate` does to the cache of a session that does not stream.  `writes_in_bounds` shows that
no run writes past `max_seq_len`.  `conversation_iff` shows what the cache holds after a call: the
tokens before it, the prompt, and all returned tokens but the last one fed; a stop string that ends
the very first token takes the last prompt token with it.
-/

namespace NnEngine
namespace Llm

variable {s : LlmSession} {st st' : State} {ids promptIds : List Token} {token next : Token}
  {maxSeqLen : Nat}

/-! ### Writes in bounds -/

/-- Every graph run so far wrote its positions below `maxSeqLen`. -/
def InBounds (maxSeqLen : Nat) (st : State) : Prop :=
  ∀ f ∈ st.feeds, f.inputs.pastLen + f.inputs.inputIds.length ≤ maxSeqLen

/-- The states of a session that is used by `generate` and `reset`, failed calls included. -/
inductive Called (s : LlmSession) : State → Prop
  | new : Called s .new
  | generate (st st' : State) (prompt : String) (opts : GenerateOptions)
      (r : Except LlmError (List Token)) (h : Called s st)
      (hcall : s.generateIds st prompt opts = some (r, st')) : Called s st'
  | reset (st : State) (h : Called s st) : Called s st.reset

theorem InBounds.feed (h : InBounds maxSeqLen st) {f : Feed} {n : Nat}
    (hf : f.inputs.pastLen + f.inputs.inputIds.length ≤ maxSeqLen) :
    InBounds maxSeqLen { pastLen := n, feeds := st.feeds ++ [f] } := by
  intro g hg
  rcases List.mem_append.mp hg with hg | hg
  · exact h g hg
  · rw [List.mem_singleton.mp hg]
    exact hf

/-- A decode step writes one position, whether it succeeds or not. -/
theorem decodeStep_feeds (s : LlmSession) (st : State) (token : Token) :
    (s.decodeStep st token).2.feeds =
        st.feeds ++ [{ inputs := s.decodeInputs st token, chunkSize := 1 }] ∧
      (s.decodeStep st token).2.pastLen ≤ st.pastLen + 1 := by
  unfold LlmSession.decodeStep
  dsimp only
  split
  · exact ⟨rfl, Nat.le_succ _⟩
  · split
    · exact ⟨rfl, Nat.le_succ _⟩
    · exact ⟨rfl, Nat.le_refl _⟩

theorem InBounds.decodeStep (h : InBounds maxSeqLen st) (hroom : st.pastLen + 1 ≤ maxSeqLen)
    (token : Token) : InBounds maxSeqLen (s.decodeStep st token).2 := by
  obtain ⟨hfeeds, -⟩ := decodeStep_feeds s st token
  obtain ⟨hpast, hids⟩ := s.decodeInputs_spec st token
  intro f hf
  rw [hfeeds] at hf
  exact h.feed (n := 0) (by rw [hpast, hids]; exact hroom) f hf

theorem InBounds.decodeAll {r : Except LlmError Token} : ∀ (ids : List Token) (st : State),
    InBounds maxSeqLen st → st.pastLen + ids.length ≤ maxSeqLen →
    s.decodeAll st ids = some (r, st') → InBounds maxSeqLen st' := by
  intro ids
  induction ids with
  | nil =>
      intro st _ _ hrun
      cases hrun
  | cons token rest ih =>
      intro st h hroom hrun
      simp only [List.length_cons] at hroom
      have hstep := h.decodeStep (s := s) (by omega) token
      cases rest with
      | nil =>
          obtain rfl : (s.decodeStep st token).2 = st' := by
            simpa [LlmSession.decodeAll] using congrArg (Option.map Prod.snd) hrun
          exact hstep
      | cons token' rest =>
          have hpast := (decodeStep_feeds s st token).2
          exact ih _ hstep (by omega) hrun

/-- The chunks of a prompt end at the multiple of `prefill_len` that covers it. -/
theorem ceil_succ {n L : Nat} (hL : 0 < L) (hn : L < n) :
    (n + L - 1) / L * L = (n - L + L - 1) / L * L + L := by
  have hsplit : n + L - 1 = (n - L + L - 1) + L := by omega
  rw [hsplit, Nat.add_div_right _ hL, Nat.succ_mul]

theorem le_ceil {n L : Nat} (hL : 0 < L) : n ≤ (n + L - 1) / L * L := by
  have hmod := Nat.mod_lt (n + L - 1) hL
  have hdiv := Nat.div_add_mod (n + L - 1) L
  rw [Nat.mul_comm] at hdiv
  omega

theorem InBounds.runPrefillRec {prefillLen : Nat} {r : Except LlmError Token}
    (hL : 0 < prefillLen) : ∀ (fuel : Nat) (st : State) (ids : List Token),
    InBounds maxSeqLen st →
    st.pastLen + (ids.length + prefillLen - 1) / prefillLen * prefillLen ≤ maxSeqLen →
    s.runPrefillRec prefillLen fuel st ids = some (r, st') → InBounds maxSeqLen st' := by
  intro fuel
  induction fuel with
  | zero =>
      intro st ids _ _ hrun
      cases hrun
  | succ fuel ih =>
      intro st ids h hroom hrun
      obtain ⟨hpast, -, hlen, hchunk⟩ := s.prefillFeed_spec st ids prefillLen
      unfold LlmSession.runPrefillRec at hrun
      dsimp only at hrun
      split at hrun
      · cases hrun
      rename_i hne
      have hids : 0 < ids.length := List.length_pos_iff.mpr fun hnil => hne (by rw [hnil]; rfl)
      have hceil : prefillLen ≤ (ids.length + prefillLen - 1) / prefillLen * prefillLen := by
        have hone : 1 ≤ (ids.length + prefillLen - 1) / prefillLen :=
          (Nat.le_div_iff_mul_le hL).mpr (by omega)
        have := Nat.mul_le_mul_right prefillLen hone
        omega
      have hfeed : ∀ n, InBounds maxSeqLen
          { pastLen := n, feeds := st.feeds ++ [s.prefillFeed st ids prefillLen] } :=
        fun n => h.feed (by rw [hpast, hlen]; omega)
      split at hrun
      · obtain ⟨-, rfl⟩ := Prod.mk.inj (Option.some.inj hrun)
        exact hfeed _
      · split at hrun
        · obtain ⟨-, rfl⟩ := Prod.mk.inj (Option.some.inj hrun)
          exact hfeed _
        · rename_i hrest
          refine ih _ _ (hfeed _) ?_ hrun
          have hceil' := ceil_succ hL (show prefillLen < ids.length by omega)
          rw [List.length_drop, hchunk, Nat.min_eq_right (by omega)]
          dsimp only
          omega

/-- The prompt is fed below the positions that were checked for it. -/
theorem InBounds.runPrompt {needed : Nat} {r : Except LlmError Token} (h : InBounds maxSeqLen st)
    (hneeded : s.needed st promptIds = some needed) (hle : needed ≤ maxSeqLen)
    (hrun : s.runPrompt st promptIds = some (r, st')) : InBounds maxSeqLen st' := by
  unfold LlmSession.needed at hneeded
  unfold LlmSession.runPrompt at hrun
  split at hneeded
  · cases hneeded
  · rename_i prefillLen hpos hlen
    obtain rfl := Option.some.inj hneeded
    rw [hlen] at hrun
    have hL : 0 < prefillLen := Nat.pos_of_ne_zero hpos
    exact InBounds.runPrefillRec hL _ _ _ h hle hrun
  · rename_i hnone
    obtain rfl := Option.some.inj hneeded
    rw [hnone] at hrun
    exact InBounds.decodeAll _ _ h hle hrun

theorem truncateLoop_feeds (opts : GenerateOptions) : ∀ (fuel : Nat) (st : State) (ids : List Token),
    (s.truncateLoop opts fuel st ids).2.feeds = st.feeds := by
  intro fuel
  induction fuel with
  | zero => intro st ids; rfl
  | succ fuel ih =>
      intro st ids
      unfold LlmSession.truncateLoop
      split
      · rfl
      · split
        · rfl
        · rfl
        · exact ih _ _

theorem truncateAtStop_feeds (opts : GenerateOptions) (st : State) (ids : List Token) :
    (s.truncateAtStop opts st ids).2.feeds = st.feeds := by
  unfold LlmSession.truncateAtStop
  split
  · rfl
  · exact truncateLoop_feeds opts _ _ _

theorem InBounds.generateLoop {opts : GenerateOptions} {r : Except LlmError (List Token)}
    (hkind : s.kind.isStreaming = false) : ∀ (n i : Nat) (st : State) (newIds : List Token),
    InBounds s.config.maxSeqLen st →
    (i = 0 → ∃ needed, s.needed st promptIds = some needed ∧ needed ≤ s.config.maxSeqLen) →
    s.generateLoop promptIds opts n i st newIds = some (r, st') →
    InBounds s.config.maxSeqLen st' := by
  intro n
  induction n with
  | zero =>
      intro i st newIds h _ hrun
      obtain ⟨-, rfl⟩ := Prod.mk.inj (Option.some.inj hrun)
      exact h
  | succ n ih =>
      intro i st newIds h hneeded hrun
      unfold LlmSession.generateLoop at hrun
      split at hrun
      · obtain ⟨-, rfl⟩ := Prod.mk.inj (Option.some.inj hrun)
        exact h
      rename_i hbudget
      have hroom : st.pastLen + 1 ≤ s.config.maxSeqLen := by
        simp only [hkind, Bool.not_false, Bool.true_and, decide_eq_true_eq] at hbudget
        omega
      -- the run of this turn
      have hturn : ∀ r₁ st₁, (if i = 0 then s.runPrompt st promptIds
          else newIds.getLast?.map (s.decodeStep st)) = some (r₁, st₁) →
          InBounds s.config.maxSeqLen st₁ := by
        intro r₁ st₁ heq
        split at heq
        · rename_i hi
          obtain ⟨needed, hn, hle⟩ := hneeded hi
          exact h.runPrompt hn hle heq
        · obtain ⟨last, -, hlast⟩ := Option.map_eq_some_iff.mp heq
          have hstep := h.decodeStep (s := s) hroom last
          rw [hlast] at hstep
          exact hstep
      split at hrun
      · cases hrun
      · rename_i e st₁ heq
        obtain ⟨-, rfl⟩ := Prod.mk.inj (Option.some.inj hrun)
        exact hturn _ _ heq
      · rename_i token st₁ heq
        have hst₁ := hturn _ _ heq
        dsimp only at hrun
        split at hrun
        · obtain ⟨-, rfl⟩ := Prod.mk.inj (Option.some.inj hrun)
          exact hst₁
        · have hfeeds := truncateAtStop_feeds (s := s) opts st₁ (newIds ++ [token])
          rw [Option.some.inj hrun] at hfeeds
          intro f hf
          rw [hfeeds] at hf
          exact hst₁ f hf
        · exact ih _ _ _ hst₁ (fun hi => by omega) hrun

/-- A session with room for eight positions whose graph answers `3` to every token.  The tokenizer
has one token for each character. -/
def chatSession : LlmSession where
  engine :=
    { decode := fun _ _ => .ok fun _ => .ok 3
      prefill := fun _ _ => .ok fun _ => .ok 3 }
  tokenizer :=
    { encode := fun text => .ok (text.toList.map fun c => c.toNat - 'a'.toNat)
      decode := fun ids => .ok (String.ofList (ids.map fun id => Char.ofNat ('a'.toNat + id))) }
  config := { maxSeqLen := 8, eosTokenId := 25 }
  kind := .mock
  prefillLen := none

/-- A session that does not stream writes below `max_seq_len` only, and refuses a prompt that does
not fit before it writes anything. -/
theorem writes_in_bounds (hkind : s.kind.isStreaming = false) (h : Called s st) :
    InBounds s.config.maxSeqLen st ∧
      ∀ prompt opts promptIds needed, s.tokenizer.encode prompt = .ok promptIds →
        promptIds ≠ [] → s.needed st promptIds = some needed → s.config.maxSeqLen < needed →
        s.generateIds st prompt opts =
          some (.error (.promptTooLong needed s.config.maxSeqLen st.pastLen), st) := by
  constructor
  · induction h with
    | new => simp [InBounds, State.new]
    | generate st st' prompt opts r _ hcall ih =>
        unfold LlmSession.generateIds at hcall
        split at hcall
        · obtain ⟨-, rfl⟩ := Prod.mk.inj (Option.some.inj hcall)
          exact ih
        · split at hcall
          · obtain ⟨-, rfl⟩ := Prod.mk.inj (Option.some.inj hcall)
            exact ih
          · split at hcall
            · cases hcall
            · rename_i needed hneeded
              split at hcall
              · obtain ⟨-, rfl⟩ := Prod.mk.inj (Option.some.inj hcall)
                exact ih
              · rename_i hfit
                simp only [hkind, Bool.not_false, Bool.true_and, decide_eq_true_eq] at hfit
                exact InBounds.generateLoop hkind _ _ _ _ ih
                  (fun _ => ⟨needed, hneeded, by omega⟩) hcall
    | reset st _ ih => exact ih
  · intro prompt opts promptIds needed hencode hne hneeded hlt
    unfold LlmSession.generateIds
    rw [hencode]
    dsimp only
    rw [if_neg (by simpa using hne), hneeded]
    dsimp only
    rw [if_pos (by simp [hkind, hlt])]

/-- A prompt of two tokens leaves room for six decode steps, whatever is asked for. -/
theorem chatSession_writes_in_bounds :
    ∃ ids st, chatSession.generateIds .new "bc" { maxNewTokens := 9, stopStrings := [] } =
        some (.ok ids, st) ∧ st.feeds.length = 8 ∧ InBounds 8 st := by
  have hcall : ∃ ids st, chatSession.generateIds .new "bc" { maxNewTokens := 9, stopStrings := [] } =
      some (.ok ids, st) ∧ st.feeds.length = 8 := ⟨_, _, rfl, rfl⟩
  obtain ⟨ids, st, hcall, hlen⟩ := hcall
  have hcalled : Called chatSession st := .generate .new st "bc" _ (.ok ids) .new hcall
  exact ⟨ids, st, hcall, hlen, (writes_in_bounds rfl hcalled).1⟩

/-! ### What the cache holds -/

/-- The token that a run writes at a position. -/
def written (f : Feed) (pos : Nat) : Option Token :=
  if f.inputs.pastLen ≤ pos then f.inputs.inputIds[pos - f.inputs.pastLen]? else none

/-- The token whose keys and values a position holds: the last run that covers it wrote them. -/
def cacheAt (feeds : List Feed) (pos : Nat) : Option Token :=
  feeds.foldl (fun held f => (written f pos).or held) none

/-- The first `past_len` positions of the cache. -/
def contents (st : State) : List (Option Token) := (List.range st.pastLen).map (cacheAt st.feeds)

@[simp] theorem contents_length (st : State) : (contents st).length = st.pastLen := by
  simp [contents]

theorem cacheAt_append (feeds : List Feed) (f : Feed) (pos : Nat) :
    cacheAt (feeds ++ [f]) pos = (written f pos).or (cacheAt feeds pos) := by
  simp [cacheAt]

/-- A run at `past_len` appends the ids that are counted and leaves the positions below alone. -/
theorem contents_feed (st : State) {f : Feed} {c : Nat} (hpast : f.inputs.pastLen = st.pastLen)
    (hc : c ≤ f.inputs.inputIds.length) :
    contents { pastLen := st.pastLen + c, feeds := st.feeds ++ [f] } =
      contents st ++ (f.inputs.inputIds.take c).map some := by
  unfold contents
  rw [List.range_add, List.map_append]
  congr 1
  · refine List.map_congr_left fun pos hpos => ?_
    rw [List.mem_range] at hpos
    have hnone : written f pos = none := if_neg (by omega)
    rw [cacheAt_append, hnone, Option.none_or]
  · apply List.ext_getElem
    · simp [Nat.min_eq_left hc]
    · intro i h₁ h₂
      simp only [List.length_map, List.length_range] at h₁
      have hi : i < f.inputs.inputIds.length := by omega
      have hsome : written f (st.pastLen + i) = some f.inputs.inputIds[i] := by
        rw [written, hpast, if_pos (Nat.le_add_right _ _), Nat.add_sub_cancel_left,
          List.getElem?_eq_getElem]
      simp [cacheAt_append, hsome]

/-- Rewinding `past_len` forgets the last positions. -/
theorem contents_rewind (st : State) {n : Nat} (hn : n ≤ st.pastLen) :
    contents { st with pastLen := n } = (contents st).take n := by
  unfold contents
  rw [← List.map_take, List.take_range, Nat.min_eq_left hn]

theorem decodeStep_contents (h : s.decodeStep st token = (.ok next, st')) :
    contents st' = contents st ++ [some token] := by
  obtain ⟨hpast, hids⟩ := s.decodeInputs_spec st token
  rw [LlmSession.decodeStep_ok h, contents_feed st hpast (by rw [hids]; rfl), hids]
  rfl

/-! ### The prompt -/

/-- No decode step over the prompt fails.  The code looks at the last result only. -/
def AllFed (s : LlmSession) : State → List Token → Prop
  | _, [] => True
  | st, token :: rest =>
      (∃ next, (s.decodeStep st token).1 = .ok next) ∧ AllFed s (s.decodeStep st token).2 rest

/-- Every graph run over the prompt succeeds. -/
def PromptFed (s : LlmSession) (st : State) (promptIds : List Token) : Prop :=
  s.prefillLen = none → AllFed s st promptIds

theorem decodeAll_contents {r : Except LlmError Token} : ∀ (ids : List Token) (st : State),
    AllFed s st ids → s.decodeAll st ids = some (r, st') →
    contents st' = contents st ++ ids.map some := by
  intro ids
  induction ids with
  | nil =>
      intro st _ hrun
      cases hrun
  | cons token rest ih =>
      intro st ⟨⟨next, hnext⟩, hfed⟩ hrun
      have hstep : s.decodeStep st token = (.ok next, (s.decodeStep st token).2) :=
        Prod.ext hnext rfl
      have hhere := decodeStep_contents hstep
      cases rest with
      | nil =>
          obtain rfl : (s.decodeStep st token).2 = st' := by
            simpa [LlmSession.decodeAll] using congrArg (Option.map Prod.snd) hrun
          exact hhere
      | cons token' rest =>
          rw [ih _ hfed hrun, hhere, List.append_assoc]
          rfl

theorem runPrefillRec_contents {prefillLen : Nat} : ∀ (fuel : Nat) (st : State)
    (ids : List Token), s.runPrefillRec prefillLen fuel st ids = some (.ok token, st') →
    contents st' = contents st ++ ids.map some := by
  intro fuel
  induction fuel with
  | zero =>
      intro st ids hrun
      cases hrun
  | succ fuel ih =>
      intro st ids hrun
      obtain ⟨hpast, hids, hlen, hchunk⟩ := s.prefillFeed_spec st ids prefillLen
      unfold LlmSession.runPrefillRec at hrun
      dsimp only at hrun
      split at hrun
      · cases hrun
      split at hrun
      · cases hrun
      -- the counted ids of the chunk are the prompt's, the padding comes after them
      have htake : ((s.prefillFeed st ids prefillLen).inputs.inputIds).take
          (s.prefillFeed st ids prefillLen).chunkSize =
          ids.take (s.prefillFeed st ids prefillLen).chunkSize := by
        rw [hids, hchunk, List.take_left' (by simp)]
      have hfeed := contents_feed st (c := (s.prefillFeed st ids prefillLen).chunkSize) hpast
        (by rw [hlen, hchunk]; omega)
      rw [htake] at hfeed
      split at hrun
      · rename_i hall
        obtain ⟨-, rfl⟩ := Prod.mk.inj (Option.some.inj hrun)
        rw [hall, List.take_length] at hfeed
        rw [← hfeed, hall]
        rfl
      · rw [ih _ _ hrun]
        simp only [State.feed]
        rw [hfeed, List.append_assoc, ← List.map_append, List.take_append_drop]

/-- The cache holds the whole prompt when the first token is sampled. -/
theorem runPrompt_contents (hfed : PromptFed s st promptIds)
    (hrun : s.runPrompt st promptIds = some (.ok token, st')) :
    contents st' = contents st ++ promptIds.map some := by
  unfold LlmSession.runPrompt at hrun
  split at hrun
  · exact runPrefillRec_contents _ _ _ hrun
  · rename_i hnone
    exact decodeAll_contents _ _ (hfed hnone) hrun

/-! ### The stop string -/

/-- One token has been added to tokens that did not stop: at most that one is popped. -/
theorem truncateAtStop_spec {opts : GenerateOptions} (newIds : List Token)
    (hrun : s.truncateAtStop opts st (newIds ++ [token]) = (.ok ids, st'))
    (hbefore : newIds = [] ∨ s.hitStop newIds opts = .ok false) :
    (s.hitStop (newIds ++ [token]) opts = .ok false ∧ ids = newIds ++ [token] ∧ st' = st) ∨
      (s.hitStop (newIds ++ [token]) opts = .ok true ∧ ids = newIds ∧
        st' = { st with pastLen := st.pastLen - 1 }) := by
  unfold LlmSession.truncateAtStop at hrun
  split at hrun
  · rename_i hempty
    obtain ⟨hids, rfl⟩ := Prod.mk.inj hrun
    exact .inl ⟨if_pos hempty, (Except.ok.inj hids).symm, rfl⟩
  · rw [List.length_append, List.length_singleton] at hrun
    unfold LlmSession.truncateLoop at hrun
    rw [if_neg (by simp)] at hrun
    split at hrun
    · cases hrun
    · rename_i hhit
      obtain ⟨hids, rfl⟩ := Prod.mk.inj hrun
      exact .inl ⟨hhit, (Except.ok.inj hids).symm, rfl⟩
    · rename_i hhit
      rw [List.dropLast_concat] at hrun
      -- the tokens before were checked in the turn before
      have hstop : s.truncateLoop opts newIds.length { st with pastLen := st.pastLen - 1 } newIds =
          (.ok newIds, { st with pastLen := st.pastLen - 1 }) := by
        cases hnew : newIds with
        | nil => rfl
        | cons a as =>
            have hfalse : s.hitStop (a :: as) opts = .ok false := by
              rw [← hnew]
              exact hbefore.resolve_left (by simp [hnew])
            simp [LlmSession.truncateLoop, hfalse]
      rw [hstop] at hrun
      obtain ⟨hids, rfl⟩ := Prod.mk.inj hrun
      exact .inr ⟨hhit, (Except.ok.inj hids).symm, rfl⟩

/-- From the second turn on, the cache holds all tokens but the last one. -/
theorem generateLoop_contents {opts : GenerateOptions} {C : List (Option Token)} :
    ∀ (n i : Nat) (st : State) (newIds : List Token), i ≠ 0 → newIds ≠ [] →
    s.hitStop newIds opts = .ok false → contents st = C ++ newIds.dropLast.map some →
    s.generateLoop promptIds opts n i st newIds = some (.ok ids, st') →
    ∃ pre, pre <+: ids ∧ contents st' = C ++ pre.map some := by
  intro n
  induction n with
  | zero =>
      intro i st newIds _ _ _ hC hrun
      obtain ⟨hids, rfl⟩ := Prod.mk.inj (Option.some.inj hrun)
      rw [← Except.ok.inj hids]
      exact ⟨_, List.dropLast_prefix newIds, hC⟩
  | succ n ih =>
      intro i st newIds hi hne hgo hC hrun
      unfold LlmSession.generateLoop at hrun
      split at hrun
      · obtain ⟨hids, rfl⟩ := Prod.mk.inj (Option.some.inj hrun)
        rw [← Except.ok.inj hids]
        exact ⟨_, List.dropLast_prefix newIds, hC⟩
      rw [List.getLast?_eq_some_getLast hne, Option.map_some] at hrun
      split at hrun
      · cases hrun
      · cases hrun
      · rename_i token st₁ hstep
        -- the last token enters the cache with this step
        have hC₁ : contents st₁ = C ++ newIds.map some := by
          rw [decodeStep_contents (Option.some.inj hstep), hC, List.append_assoc]
          have hlast : newIds.dropLast.map some ++ [some (newIds.getLast hne)] =
              newIds.map some := by
            rw [← List.map_singleton, ← List.map_append, List.dropLast_append_getLast]
          rw [hlast]
        dsimp only at hrun
        split at hrun
        · cases hrun
        · rcases truncateAtStop_spec newIds (Option.some.inj hrun) (.inr hgo) with
            ⟨-, rfl, rfl⟩ | ⟨-, rfl, rfl⟩
          · exact ⟨newIds, List.prefix_append _ _, hC₁⟩
          · refine ⟨ids.dropLast, List.dropLast_prefix _, ?_⟩
            rw [contents_rewind _ (Nat.sub_le _ _), hC₁, ← contents_length, hC₁]
            have hpos : 0 < ids.length := List.length_pos_iff.mpr hne
            rw [List.length_append, List.length_map, Nat.add_sub_assoc hpos, List.take_length_add_append,
              ← List.map_take, List.dropLast_eq_take]
        · rename_i hgo₁
          refine ih (i + 1) st₁ _ (by omega) (by simp) ?_ (by rw [List.dropLast_concat]; exact hC₁) hrun
          split at hgo₁
          · cases hgo₁
          · exact hgo₁

/-! ### Calls in sequence -/

/-- A call of `generate`, with the session before and after it. -/
structure Turn where
  before : State
  prompt : String
  opts : GenerateOptions
  ids : List Token
  after : State

namespace Turn

/-- The call succeeds, with a prompt and with tokens to generate. -/
structure Successful (s : LlmSession) (t : Turn) : Prop where
  returned : s.generateIds t.before t.prompt t.opts = some (.ok t.ids, t.after)
  prompted : ∃ promptIds, s.tokenizer.encode t.prompt = .ok promptIds ∧ promptIds ≠ []
  wanted : 0 < t.opts.maxNewTokens

/-- The cache goes on with the prompt and a prefix of the returned tokens. -/
def Keeps (s : LlmSession) (t : Turn) : Prop :=
  ∃ promptIds pre, s.tokenizer.encode t.prompt = .ok promptIds ∧ pre <+: t.ids ∧
    contents t.after = contents t.before ++ (promptIds ++ pre).map some ∧
    t.before.pastLen + promptIds.length ≤ t.after.pastLen

/-- The text of the token sampled after the prompt has a stop string in it. -/
def FirstTokenStops (s : LlmSession) (t : Turn) : Prop :=
  ∃ promptIds token st, s.tokenizer.encode t.prompt = .ok promptIds ∧
    s.runPrompt t.before promptIds = some (.ok token, st) ∧ s.hitStop [token] t.opts = .ok true

/-- No graph run over the prompt fails. -/
def Fed (s : LlmSession) (t : Turn) : Prop :=
  ∀ promptIds, s.tokenizer.encode t.prompt = .ok promptIds → PromptFed s t.before promptIds

end Turn

/-- Successful calls of a session, one after the other. -/
inductive Conversation (s : LlmSession) : List Turn → State → Prop
  | new : Conversation s [] .new
  | turn (turns : List Turn) (t : Turn) (h : Conversation s turns t.before)
      (hcall : t.Successful s) : Conversation s (turns ++ [t]) t.after

theorem Conversation.successful {turns : List Turn} (h : Conversation s turns st) :
    ∀ t ∈ turns, t.Successful s := by
  induction h with
  | new =>
      intro t ht
      cases ht
  | turn turns last _ hcall ih =>
      intro t ht
      rcases List.mem_append.mp ht with ht | ht
      · exact ih t ht
      · rw [List.mem_singleton.mp ht]
        exact hcall

/-- What is kept is told by the contents alone. -/
theorem Turn.keeps_of_contents {t : Turn} {pre : List Token}
    (hencode : s.tokenizer.encode t.prompt = .ok promptIds) (hpre : pre <+: t.ids)
    (hcontents : contents t.after =
      contents t.before ++ promptIds.map some ++ pre.map some) : t.Keeps s := by
  have hlen := congrArg List.length hcontents
  simp only [contents_length, List.length_append, List.length_map] at hlen
  refine ⟨promptIds, pre, hencode, hpre, ?_, by omega⟩
  rw [hcontents, List.map_append, List.append_assoc]

theorem le_needed {needed : Nat} (h : s.needed st promptIds = some needed) :
    st.pastLen + promptIds.length ≤ needed := by
  unfold LlmSession.needed at h
  split at h
  · cases h
  · rename_i prefillLen hpos _
    rw [← Option.some.inj h]
    exact Nat.add_le_add_left (le_ceil (Nat.pos_of_ne_zero hpos)) _
  · exact (Option.some.inj h).le

/-- One call, from any state of the session. -/
theorem Turn.Successful.keeps_iff {t : Turn} (hkind : s.kind.isStreaming = false)
    (h : t.Successful s) (hfed : t.Fed s) : t.Keeps s ↔ ¬t.FirstTokenStops s := by
  obtain ⟨promptIds, hencode, hne⟩ := h.prompted
  have hcall := h.returned
  unfold LlmSession.generateIds at hcall
  rw [hencode] at hcall
  dsimp only at hcall
  rw [if_neg (by simpa using hne)] at hcall
  split at hcall
  · cases hcall
  rename_i needed hneeded
  split at hcall
  · cases hcall
  rename_i hfit
  -- a prompt that fits leaves room for the first turn of the loop
  have hroom : t.before.pastLen + 1 ≤ s.config.maxSeqLen := by
    have hlen : 0 < promptIds.length := List.length_pos_iff.mpr hne
    have hle := le_needed hneeded
    simp only [hkind, Bool.not_false, Bool.true_and, decide_eq_true_eq] at hfit
    omega
  rw [← Nat.succ_pred_eq_of_pos h.wanted] at hcall
  unfold LlmSession.generateLoop at hcall
  rw [if_neg (by simpa [hkind] using hroom), if_pos rfl] at hcall
  split at hcall
  · cases hcall
  · cases hcall
  · rename_i token st₁ hprompt
    have hC := runPrompt_contents (hfed _ hencode) hprompt
    have hstops : t.FirstTokenStops s ↔ s.hitStop [token] t.opts = .ok true := by
      constructor
      · rintro ⟨promptIds', token', st', hencode', hprompt', hhit⟩
        rw [hencode] at hencode'
        obtain rfl := Except.ok.inj hencode'
        rw [hprompt] at hprompt'
        obtain ⟨htoken, -⟩ := Prod.mk.inj (Option.some.inj hprompt')
        rw [Except.ok.inj htoken]
        exact hhit
      · exact fun hhit => ⟨promptIds, token, st₁, hencode, hprompt, hhit⟩
    rw [hstops]
    dsimp only at hcall
    rw [List.nil_append] at hcall
    split at hcall
    · cases hcall
    · rcases truncateAtStop_spec [] (Option.some.inj hcall) (.inl rfl) with
        ⟨hhit, hids, hafter⟩ | ⟨hhit, hids, hafter⟩
      · rw [List.nil_append] at hhit hids
        refine iff_of_true ?_ (by rw [hhit]; simp)
        refine Turn.keeps_of_contents hencode (List.nil_prefix) ?_
        rw [hafter, hC, List.map_nil, List.append_nil]
      · -- the popped token was never fed, so a position of the prompt is given up
        rw [List.nil_append] at hhit
        refine iff_of_false ?_ (by simp [hhit])
        rintro ⟨promptIds', pre, hencode', -, -, hle⟩
        rw [hencode] at hencode'
        obtain rfl := Except.ok.inj hencode'
        have hlen := congrArg List.length hC
        have hpos : 0 < promptIds.length := List.length_pos_iff.mpr hne
        simp only [contents_length, List.length_append, List.length_map] at hlen
        rw [hafter] at hle
        dsimp only at hle
        omega
    · rename_i hgo
      have hhit : s.hitStop [token] t.opts = .ok false := by
        split at hgo
        · cases hgo
        · exact hgo
      refine iff_of_true ?_ (by rw [hhit]; simp)
      obtain ⟨pre, hpre, hafter⟩ := generateLoop_contents _ _ st₁ [token] (by omega)
        (by simp) hhit (by rw [List.dropLast_singleton, List.map_nil, List.append_nil]) hcall
      refine Turn.keeps_of_contents hencode hpre ?_
      rw [hafter, hC]

/-- After each call of a conversation, the cache holds what it held before, the prompt and a prefix
of the returned tokens, unless the first sampled token is stopped. -/
theorem conversation_iff {turns : List Turn} (hkind : s.kind.isStreaming = false)
    (h : Conversation s turns st) :
    ∀ t ∈ turns, t.Fed s → (t.Keeps s ↔ ¬t.FirstTokenStops s) :=
  fun t ht hfed => (h.successful t ht).keeps_iff hkind hfed

/-- The call of `chatSession` on the prompt `bc`, whose answer is `d` over and over. -/
def chatTurn (stop : String) (ids : List Token) (after : State) : Turn where
  before := .new
  prompt := "bc"
  opts := { maxNewTokens := 3, stopStrings := [stop] }
  ids := ids
  after := after

theorem chatTurn_encode : chatSession.tokenizer.encode "bc" = .ok [1, 2] := by decide

theorem chatTurn_conversation {stop : String} {ids : List Token}
    (hcall : chatSession.generateIds .new "bc" { maxNewTokens := 3, stopStrings := [stop] } =
      some (.ok ids, st)) :
    Conversation chatSession [chatTurn stop ids st] st ∧ (chatTurn stop ids st).Fed chatSession := by
  constructor
  · exact .turn [] (chatTurn stop ids st) .new
      ⟨hcall, ⟨_, chatTurn_encode, List.cons_ne_nil _ _⟩, Nat.succ_pos 2⟩
  · intro promptIds hencode _
    rw [← Except.ok.inj (chatTurn_encode.symm.trans hencode)]
    exact ⟨⟨3, rfl⟩, ⟨3, rfl⟩, trivial⟩

/-- The stop string `d` ends the first token: `past_len` is 1 after a prompt of two tokens. -/
theorem chatSession_forgets : ∃ turns st, Conversation chatSession turns st ∧
    ∃ t ∈ turns, t.Fed chatSession ∧ ¬t.Keeps chatSession := by
  have hcall : ∃ st, chatSession.generateIds .new "bc" { maxNewTokens := 3, stopStrings := ["d"] } =
      some (.ok [], st) ∧ st.pastLen = 1 := ⟨_, rfl, rfl⟩
  obtain ⟨st, hcall, hpast⟩ := hcall
  obtain ⟨hturn, hfed⟩ := chatTurn_conversation hcall
  refine ⟨_, st, hturn, chatTurn "d" [] st, List.mem_singleton.mpr rfl, hfed, ?_⟩
  rintro ⟨promptIds, pre, hencode, -, -, hle⟩
  rw [← Except.ok.inj (chatTurn_encode.symm.trans hencode)] at hle
  have hafter : (chatTurn "d" [] st).after.pastLen = 1 := hpast
  rw [hafter] at hle
  exact absurd (Nat.le_trans (Nat.le_add_left _ _) hle) (by decide)

/-- The stop string `dd` ends the second token, and `d` is kept. -/
theorem chatSession_keeps : ∃ t : Turn, t.ids = [3] ∧ t.after.pastLen = 2 ∧ t.Keeps chatSession := by
  have hcall : ∃ st, chatSession.generateIds .new "bc" { maxNewTokens := 3, stopStrings := ["dd"] } =
      some (.ok [3], st) ∧ st.pastLen = 2 := ⟨_, rfl, rfl⟩
  obtain ⟨st, hcall, hpast⟩ := hcall
  obtain ⟨hturn, hfed⟩ := chatTurn_conversation hcall
  refine ⟨chatTurn "dd" [3] st, rfl, hpast, ?_⟩
  refine (conversation_iff rfl hturn _ (List.mem_singleton.mpr rfl) hfed).mpr ?_
  rintro ⟨promptIds, token, st', hencode, hprompt, hhit⟩
  rw [← Except.ok.inj (chatTurn_encode.symm.trans hencode)] at hprompt
  obtain ⟨htoken, -⟩ := Prod.mk.inj (Option.some.inj hprompt)
  rw [← Except.ok.inj htoken] at hhit
  have hmiss : chatSession.hitStop [3] (chatTurn "dd" [3] st).opts = .ok false := by rfl
  rw [hmiss] at hhit
  exact absurd (Except.ok.inj hhit) (by decide)

end Llm
end NnEngine
