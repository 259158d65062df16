import Mathlib.Tactic

/-!
# LLM sessions

`LlmSession` of `crates/llm/src/session.rs`: the inputs of a prefill chunk and of a decode step, the
prefill recursion, the generate loop and the truncation at a stop string.

The two compiled graphs and the tokenizer are parameters.  What a graph run returns may depend on
everything that was fed before it, which is how the KV cache enters.  A Rust panic that a caller
could reach is `none`.
-/

namespace NnEngine
namespace Llm

/-- A token id, `u32`. -/
abbrev Token := Nat

inductive LlmError
  | session
  | tokenizer
  | invalidOutput (msg : String)
  | promptTooLong (needed maxSeqLen pastLen : Nat)
  deriving DecidableEq, Repr

/-- `LlmConfig`, with the fields that the session reads after its construction. -/
structure LlmConfig where
  maxSeqLen : Nat
  eosTokenId : Token
  deriving DecidableEq, Repr

structure GenerateOptions where
  maxNewTokens : Nat
  stopStrings : List String
  deriving DecidableEq, Repr

inductive DecodeKind
  | mock
  | llama
  | llamaStreaming (sink window : Nat)
  deriving DecidableEq, Repr

/-- `matches!(self.kind, DecodeKind::LlamaStreaming { .. })`. -/
def DecodeKind.isStreaming : DecodeKind → Bool
  | llamaStreaming _ _ => true
  | _ => false

/-- The four inputs that a streaming graph has after the others. -/
structure RingInputs where
  ringSink : Nat
  ringWindow : Nat
  ringStart : Nat
  kvPosition : List Nat
  deriving DecidableEq, Repr

/-- The input tensors of a graph run.  Their elements are `i64`, none of them negative.  A mock graph
has only the ids and `pastLen`. -/
structure Inputs where
  inputIds : List Token
  positions : List Nat
  pastLen : Nat
  activeSeqKv : Option Nat
  ring : Option RingInputs
  deriving DecidableEq, Repr

/-- A graph run, with the number of its ids that are no padding. -/
structure Feed where
  inputs : Inputs
  chunkSize : Nat
  deriving DecidableEq, Repr

/-- What the caller of a graph run reads off the logits: the argmax of a row. -/
abbrev Logits := Nat → Except LlmError Token

/-- The decode and the prefill graph.  A run sees the feeds before it, through the caches. -/
structure Engine where
  decode : List Feed → Feed → Except LlmError Logits
  prefill : List Feed → Feed → Except LlmError Logits

structure Tokenizer where
  encode : String → Except LlmError (List Token)
  decode : List Token → Except LlmError String

/-- What a session keeps for good: its graphs, its tokenizer and its settings. -/
structure LlmSession where
  engine : Engine
  tokenizer : Tokenizer
  config : LlmConfig
  kind : DecodeKind
  /-- `PrefillSession::prefill_len`, when there is a prefill graph. -/
  prefillLen : Option Nat

/-- What a session changes.  `feeds` lists the graph runs so far, the failed ones included. -/
structure State where
  pastLen : Nat
  feeds : List Feed
  deriving DecidableEq, Repr

/-- A new session. -/
def State.new : State := { pastLen := 0, feeds := [] }

/-- `reset`. -/
def State.reset (st : State) : State := { st with pastLen := 0 }

/-- A graph run has started. -/
def State.feed (st : State) (f : Feed) : State := { st with feeds := st.feeds ++ [f] }

/-! ### Inputs -/

/-- `streaming_kv_position`. -/
def streamingKvPosition (sink window streamPos maxSeqLen : Nat) : List Nat :=
  let maxActive := sink + window
  let ringStart := if streamPos < maxActive then 0 else (streamPos - sink) % window
  let activeInRing := min (streamPos - sink) window
  (List.range maxSeqLen).map fun slot =>
    if slot < sink then slot
    else if slot < maxActive then
      let relSlot := slot - sink
      let relAge := (relSlot + window - ringStart) % window
      if relAge < activeInRing then sink + relAge else slot
    else slot

/-- `streaming_decode_inputs`. -/
def streamingDecodeInputs (maxSeqLen streamPos : Nat) (token : Token) (sink window : Nat) : Inputs :=
  let maxActive := sink + window
  let activeAfter := min (streamPos + 1) maxActive
  let qPosition := min streamPos (maxActive - 1)
  let ringStart := if streamPos < maxActive then 0 else (streamPos - sink) % window
  { inputIds := [token]
    positions := [qPosition]
    pastLen := streamPos
    activeSeqKv := some activeAfter
    ring := some
      { ringSink := sink, ringWindow := window, ringStart
        kvPosition := streamingKvPosition sink window streamPos maxSeqLen } }

/-- `streaming_prefill_inputs`. -/
def streamingPrefillInputs (maxSeqLen streamPos : Nat) (padded : List Token)
    (prefillLen sink window : Nat) : Inputs :=
  let maxActive := sink + window
  let after := streamPos + prefillLen
  let ringStart := if after ≤ maxActive then 0 else (after - sink) % window
  { inputIds := padded
    positions := (List.range prefillLen).map fun i => min (streamPos + i) (maxActive - 1)
    pastLen := streamPos
    activeSeqKv := some (min after maxActive)
    ring := some
      { ringSink := sink, ringWindow := window, ringStart
        kvPosition := streamingKvPosition sink window after maxSeqLen } }

namespace LlmSession

/-- The inputs of `decode_step`. -/
def decodeInputs (s : LlmSession) (st : State) (token : Token) : Inputs :=
  match s.kind with
  | .mock =>
      { inputIds := [token], positions := [], pastLen := st.pastLen, activeSeqKv := none
        ring := none }
  | .llama =>
      { inputIds := [token], positions := [st.pastLen], pastLen := st.pastLen
        activeSeqKv := some (st.pastLen + 1), ring := none }
  | .llamaStreaming sink window =>
      streamingDecodeInputs s.config.maxSeqLen st.pastLen token sink window

/-- The inputs of one chunk of `run_prefill_rec`. -/
def prefillInputs (s : LlmSession) (st : State) (padded : List Token) (prefillLen : Nat) : Inputs :=
  match s.kind with
  | .llamaStreaming sink window =>
      streamingPrefillInputs s.config.maxSeqLen st.pastLen padded prefillLen sink window
  | _ =>
      { inputIds := padded, positions := (List.range prefillLen).map (st.pastLen + ·)
        pastLen := st.pastLen, activeSeqKv := some (st.pastLen + prefillLen), ring := none }

/-! ### Runs -/

/-- `decode_step`. -/
def decodeStep (s : LlmSession) (st : State) (token : Token) : Except LlmError Token × State :=
  let feed : Feed := { inputs := s.decodeInputs st token, chunkSize := 1 }
  match s.engine.decode st.feeds feed with
  | .error e => (.error e, st.feed feed)
  | .ok logits =>
      match logits 0 with
      | .error e => (.error e, st.feed feed)
      | .ok next => (.ok next, { st.feed feed with pastLen := st.pastLen + 1 })

/-- The chunk that `run_prefill_rec` feeds first, with its padding. -/
def prefillFeed (s : LlmSession) (st : State) (promptIds : List Token) (prefillLen : Nat) : Feed :=
  let chunkSize := min promptIds.length prefillLen
  let padded := promptIds.take chunkSize ++ List.replicate (prefillLen - chunkSize) 0
  { inputs := s.prefillInputs st padded prefillLen, chunkSize }

/-- `run_prefill_rec`, with fuel for its chunks.  It returns the logits row of the last token. -/
def runPrefillRec (s : LlmSession) (prefillLen : Nat) :
    Nat → State → List Token → Option (Except LlmError Token × State)
  | 0, _, _ => none
  | fuel + 1, st, promptIds =>
      if promptIds.isEmpty then none
      else
        let feed := s.prefillFeed st promptIds prefillLen
        match s.engine.prefill st.feeds feed with
        | .error e => some (.error e, st.feed feed)
        | .ok logits =>
            let st := { st.feed feed with pastLen := st.pastLen + feed.chunkSize }
            if feed.chunkSize = promptIds.length then some (logits (feed.chunkSize - 1), st)
            else runPrefillRec s prefillLen fuel st (promptIds.drop feed.chunkSize)

/-- `run_prefill`.  The recursion needs one turn for each chunk. -/
def runPrefill (s : LlmSession) (st : State) (promptIds : List Token) (prefillLen : Nat) :
    Option (Except LlmError Token × State) :=
  s.runPrefillRec prefillLen (promptIds.length + 1) st promptIds

/-- `prompt_ids.iter().map(decode_step).last().transpose()`: every token is fed, and only the last
result is looked at. -/
def decodeAll (s : LlmSession) :
    State → List Token → Option (Except LlmError Token × State)
  | _, [] => none
  | st, [token] => some (s.decodeStep st token)
  | st, token :: rest => decodeAll s (s.decodeStep st token).2 rest

/-- The token sampled after the prompt. -/
def runPrompt (s : LlmSession) (st : State) (promptIds : List Token) :
    Option (Except LlmError Token × State) :=
  match s.prefillLen with
  | some prefillLen => s.runPrefill st promptIds prefillLen
  | none => s.decodeAll st promptIds

/-- `text.contains(s)`. -/
def contains (text s : String) : Bool := s.toList <:+: text.toList

/-- `hit_stop`. -/
def hitStop (s : LlmSession) (newIds : List Token) (opts : GenerateOptions) :
    Except LlmError Bool :=
  if opts.stopStrings.isEmpty then .ok false
  else (s.tokenizer.decode newIds).map fun text => opts.stopStrings.any (contains text)

/-- The loop of `truncate_at_stop`, with fuel for the tokens it pops. -/
def truncateLoop (s : LlmSession) (opts : GenerateOptions) :
    Nat → State → List Token → Except LlmError (List Token) × State
  | 0, st, newIds => (.ok newIds, st)
  | fuel + 1, st, newIds =>
      if newIds.isEmpty then (.ok newIds, st)
      else
        match s.hitStop newIds opts with
        | .error e => (.error e, st)
        | .ok false => (.ok newIds, st)
        | .ok true => truncateLoop s opts fuel { st with pastLen := st.pastLen - 1 } newIds.dropLast

/-- `truncate_at_stop`. -/
def truncateAtStop (s : LlmSession) (opts : GenerateOptions) (st : State) (newIds : List Token) :
    Except LlmError (List Token) × State :=
  if opts.stopStrings.isEmpty then (.ok newIds, st)
  else s.truncateLoop opts newIds.length st newIds

/-- The loop of `generate_ids_with_callback`, at turn `i`. -/
def generateLoop (s : LlmSession) (promptIds : List Token) (opts : GenerateOptions) :
    Nat → Nat → State → List Token → Option (Except LlmError (List Token) × State)
  | 0, _, st, newIds => some (.ok newIds, st)
  | n + 1, i, st, newIds =>
      if !s.kind.isStreaming && s.config.maxSeqLen < st.pastLen + 1 then some (.ok newIds, st)
      else
        match if i = 0 then s.runPrompt st promptIds
          else newIds.getLast?.map (s.decodeStep st) with
        | none => none
        | some (.error e, st) => some (.error e, st)
        | some (.ok token, st) =>
            let newIds := newIds ++ [token]
            match if token = s.config.eosTokenId then .ok true else s.hitStop newIds opts with
            | .error e => some (.error e, st)
            | .ok true => some (s.truncateAtStop opts st newIds)
            | .ok false => generateLoop s promptIds opts n (i + 1) st newIds

/-- The positions that a prompt needs; `none` is the division by a zero `prefill_len`. -/
def needed (s : LlmSession) (st : State) (promptIds : List Token) : Option Nat :=
  match s.prefillLen with
  | some 0 => none
  | some prefillLen =>
      some (st.pastLen + (promptIds.length + prefillLen - 1) / prefillLen * prefillLen)
  | none => some (st.pastLen + promptIds.length)

/-- `generate_ids_with_callback`. -/
def generateIds (s : LlmSession) (st : State) (prompt : String) (opts : GenerateOptions) :
    Option (Except LlmError (List Token) × State) :=
  match s.tokenizer.encode prompt with
  | .error e => some (.error e, st)
  | .ok promptIds =>
      if promptIds.isEmpty then some (.ok [], st)
      else
        match s.needed st promptIds with
        | none => none
        | some needed =>
            if !s.kind.isStreaming && s.config.maxSeqLen < needed then
              some (.error (.promptTooLong needed s.config.maxSeqLen st.pastLen), st)
            else s.generateLoop promptIds opts opts.maxNewTokens 0 st []

/-- `generate_with`. -/
def generate (s : LlmSession) (st : State) (prompt : String) (opts : GenerateOptions) :
    Option (Except LlmError String × State) :=
  (s.generateIds st prompt opts).map fun (r, st) => (r.bind s.tokenizer.decode, st)

/-! ### What a run feeds -/

theorem decodeInputs_spec (s : LlmSession) (st : State) (token : Token) :
    (s.decodeInputs st token).pastLen = st.pastLen ∧
      (s.decodeInputs st token).inputIds = [token] := by
  unfold decodeInputs
  cases s.kind <;> exact ⟨rfl, rfl⟩

/-- A chunk is padded to the length of the prefill graph. -/
theorem prefillFeed_spec (s : LlmSession) (st : State) (promptIds : List Token) (prefillLen : Nat) :
    (s.prefillFeed st promptIds prefillLen).inputs.pastLen = st.pastLen ∧
      (s.prefillFeed st promptIds prefillLen).inputs.inputIds =
        promptIds.take (min promptIds.length prefillLen) ++
          List.replicate (prefillLen - min promptIds.length prefillLen) 0 ∧
      (s.prefillFeed st promptIds prefillLen).inputs.inputIds.length = prefillLen ∧
      (s.prefillFeed st promptIds prefillLen).chunkSize = min promptIds.length prefillLen := by
  have hids : (s.prefillFeed st promptIds prefillLen).inputs.inputIds =
      promptIds.take (min promptIds.length prefillLen) ++
        List.replicate (prefillLen - min promptIds.length prefillLen) 0 := by
    unfold prefillFeed prefillInputs
    cases s.kind <;> rfl
  refine ⟨?_, hids, ?_, rfl⟩
  · unfold prefillFeed prefillInputs
    cases s.kind <;> rfl
  · rw [hids, List.length_append, List.length_take, List.length_replicate]
    omega

/-- A successful decode step takes one position. -/
theorem decodeStep_ok {s : LlmSession} {st st' : State} {token next : Token}
    (h : s.decodeStep st token = (.ok next, st')) :
    st' = { pastLen := st.pastLen + 1
            feeds := st.feeds ++
              [{ inputs := s.decodeInputs st token, chunkSize := 1 }] } := by
  unfold decodeStep at h
  dsimp only at h
  split at h
  · cases h
  · split at h
    · cases h
    · exact (congrArg Prod.snd h).symm

end LlmSession
end Llm
end NnEngine
