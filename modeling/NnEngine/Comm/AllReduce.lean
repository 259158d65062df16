import NnEngine.Comm.Uds

/-!
# All-reduce

What the ranks of a connected world return from their collectives, in every interleaving of the bytes
they send and receive.  One schedule is enough, since the network is deterministic: the hub gathers
from one rank after the other and broadcasts to one rank after the other (`leads_round`,
`leads_rounds`).  `all_reduce_agreement` is the result for all schedules.
-/

namespace NnEngine
namespace Comm

open ProcessNet

variable {addF32 : F32Bytes → F32Bytes → F32Bytes} {n capacity : Nat}

/-! ### The accept loop -/

theorem readHello_writeHello (rank : Nat) : readHello (writeHello rank) = .ok (rank % 2 ^ 32) := by
  have hlen : (toLeBytes 4 helloMagic).length = 4 := toLeBytes_length 4 helloMagic
  unfold readHello writeHello
  rw [List.take_left' hlen, List.drop_left' hlen, fromLeBytes_toLeBytes, fromLeBytes_toLeBytes]
  rfl

/-- A connected hub has read a rank of its world from every stream. -/
theorem acceptLoop_mem : ∀ (accepted : List (Stream × List UInt8)) (peers peers' : List (Option Stream)),
    acceptLoop n accepted peers = .ok peers' →
    ∀ x ∈ accepted, ∃ rank, readHello x.2 = .ok rank ∧ 1 ≤ rank ∧ rank < n := by
  intro accepted
  induction accepted with
  | nil =>
      intro _ _ _ x hx
      cases hx
  | cons y rest ih =>
      intro peers peers' h x hx
      obtain ⟨stream, hello⟩ := y
      unfold acceptLoop at h
      split at h
      · cases h
      rename_i rank hrank
      split at h
      · cases h
      rename_i hrange
      split at h
      · cases h
      rcases List.mem_cons.mp hx with rfl | hx
      · exact ⟨rank, hrank, not_not.mp hrange⟩
      · exact ih _ _ h x hx

/-- Each stream goes to the index of its rank, in whatever order the streams were accepted. -/
theorem acceptLoop_getElem? : ∀ (order : List Nat) (peers peers' : List (Option Stream)),
    (∀ r ∈ order, 1 ≤ r ∧ r < 2 ^ 32 ∧ r - 1 < peers.length) →
    acceptLoop n (order.map fun r => (r, writeHello r)) peers = .ok peers' →
    ∀ i, peers'[i]? = if i + 1 ∈ order then some (some (i + 1)) else peers[i]? := by
  intro order
  induction order with
  | nil =>
      intro peers peers' _ h i
      rw [← Except.ok.inj h]
      simp
  | cons r order ih =>
      intro peers peers' hranks h i
      obtain ⟨hr, hr32, hrlen⟩ := hranks r List.mem_cons_self
      rw [List.map_cons, acceptLoop, readHello_writeHello, Nat.mod_eq_of_lt hr32] at h
      dsimp only at h
      split at h
      · cases h
      split at h
      · cases h
      have hrest := ih (peers.set (r - 1) (some r)) peers' (by
        intro r' hr'
        rw [List.length_set]
        exact hranks r' (List.mem_cons_of_mem _ hr')) h i
      rw [hrest, List.getElem?_set]
      by_cases hi : i + 1 = r
      · subst hi
        have hlt : i < peers.length := by omega
        simp [hlt]
      · rw [if_neg (show r - 1 ≠ i by omega)]
        simp [hi]

/-- After connecting, the hub's streams are in the order of the ranks. -/
theorem connectHub_peers {order : List Nat} {peers : Option (List Stream)}
    (horder : order.Perm (List.range' 1 (n - 1)))
    (h : connectHub n (order.map fun r => (r, writeHello r)) = .ok peers) :
    peers = some (List.range' 1 (n - 1)) := by
  unfold connectHub at h
  cases hloop : acceptLoop n (order.map fun r => (r, writeHello r))
      (List.replicate (n - 1) none) with
  | error e => rw [hloop] at h; cases h
  | ok found =>
      rw [hloop] at h
      have hmem : ∀ r, r ∈ order ↔ 1 ≤ r ∧ r < n := by
        intro r
        rw [horder.mem_iff, List.mem_range'_1]
        omega
      -- the hello of rank `2 ^ 32` would have been refused
      have hn : n ≤ 2 ^ 32 := by
        by_contra hn
        obtain ⟨rank, hrank, hpos, -⟩ := acceptLoop_mem _ _ _ hloop (2 ^ 32, writeHello (2 ^ 32))
          (List.mem_map.mpr ⟨2 ^ 32, (hmem _).mpr (by omega), rfl⟩)
        rw [readHello_writeHello, Nat.mod_self] at hrank
        cases hrank
        omega
      have hget := acceptLoop_getElem? order (List.replicate (n - 1) none) found (by
        intro r hr
        have hr' := (hmem r).mp hr
        rw [List.length_replicate]
        omega) hloop
      have hfound : found = (List.range' 1 (n - 1)).map some := by
        apply List.ext_getElem?
        intro i
        rw [hget, List.getElem?_map]
        by_cases hi : i < n - 1
        · rw [if_pos ((hmem _).mpr (by omega)), List.getElem?_range' hi, Nat.one_mul, Nat.add_comm]
          rfl
        · rw [if_neg (fun hin => hi (by have := (hmem _).mp hin; omega)),
            List.getElem?_eq_none (by rw [List.length_replicate]; omega),
            List.getElem?_eq_none (by rw [List.length_range']; omega)]
          rfl
      have hall : ∀ l : List Stream, (l.map some).mapM id = some l := by
        intro l
        induction l with
        | nil => rfl
        | cons r l ih => rw [List.map_cons, List.mapM_cons, ih]; rfl
      obtain rfl := Except.ok.inj h
      show found.mapM id = _
      rw [hfound, hall]

/-! ### Frames -/

/-- A spoke writes to the hub and the hub to the spoke, each over its direction of the stream. -/
def wiring (capacity : Nat) : Wiring Nat Chan where
  writer
    | .toHub stream => stream
    | .toSpoke _ => 0
  reader
    | .toHub _ => 0
    | .toSpoke stream => stream
  capacity

variable {f : Nat → Process Chan UInt8 Result Unit} {p q : Nat} {ch : Chan} {tag tag' : UInt8}
  {payload : List UInt8} {len : Nat} {next : RankProg Unit}
  {next' : Except CommError (List UInt8) → RankProg Unit} {outs outs' : List Result}

/-- The header of a frame tells its tag and its length. -/
theorem leads_frameHeader (ch : Chan) (hcap : 0 < capacity)
    (hends : (wiring capacity).writer ch ≠ (wiring capacity).reader ch)
    (hfits : payload.length < 2 ^ 64) (hlen : outs.length = outs'.length)
    (hp : At f ((wiring capacity).writer ch) ((writeFrame ch tag payload).bind fun _ => next) outs)
    (hq : At f ((wiring capacity).reader ch) ((readFrame ch tag' len).bind next') outs') :
    ∃ f', Leads (wiring capacity) f f' ∧
      At f' ((wiring capacity).writer ch) ((Prog.sendAll ch payload).bind fun _ => next) outs ∧
      (if tag ≠ tag' ∨ payload.length ≠ len then
        ∃ e, At f' ((wiring capacity).reader ch) (next' (.error e)) outs'
      else At f' ((wiring capacity).reader ch)
        ((Prog.recvExact ch payload.length).bind fun bytes => next' (.ok bytes)) outs') ∧
      ∀ r, r ≠ (wiring capacity).writer ch → r ≠ (wiring capacity).reader ch → f' r = f r := by
  have hheader : (frameHeader tag payload.length).length = 9 := by
    rw [frameHeader, List.length_cons, toLeBytes_length]
  unfold writeFrame at hp
  unfold readFrame at hq
  rw [Prog.bind_assoc] at hp
  rw [Prog.bind_assoc, ← hheader] at hq
  obtain ⟨f', hf', hp', hq', hframe⟩ := leads_messages hcap hends hlen _ f _ hp hq
  refine ⟨f', hf', hp', ?_, hframe⟩
  have hread : fromLeBytes (toLeBytes 8 payload.length) = payload.length := by
    rw [fromLeBytes_toLeBytes]
    exact Nat.mod_eq_of_lt hfits
  simp only [frameHeader, List.headD_cons, List.tail_cons, hread] at hq'
  split
  · rename_i hdiff
    rw [if_pos hdiff] at hq'
    exact ⟨_, hq'⟩
  · rename_i hsame
    rw [if_neg hsame, Prog.bind_assoc] at hq'
    exact hq'

/-- A frame of the expected tag and length is read whole. -/
theorem leads_frame (ch : Chan) (hcap : 0 < capacity)
    (hends : (wiring capacity).writer ch ≠ (wiring capacity).reader ch)
    (hfits : payload.length < 2 ^ 64) (hlen : outs.length = outs'.length)
    (hp : At f ((wiring capacity).writer ch) ((writeFrame ch tag payload).bind fun _ => next) outs)
    (hq : At f ((wiring capacity).reader ch)
      ((readFrame ch tag payload.length).bind next') outs') :
    ∃ f', Leads (wiring capacity) f f' ∧ At f' ((wiring capacity).writer ch) next outs ∧
      At f' ((wiring capacity).reader ch) (next' (.ok payload)) outs' ∧
      ∀ r, r ≠ (wiring capacity).writer ch → r ≠ (wiring capacity).reader ch → f' r = f r := by
  obtain ⟨f₁, hf₁, hp₁, hq₁, hframe₁⟩ := leads_frameHeader ch hcap hends hfits hlen hp hq
  rw [if_neg (by simp)] at hq₁
  obtain ⟨f₂, hf₂, hp₂, hq₂, hframe₂⟩ := leads_messages hcap hends hlen payload f₁ _ hp₁ hq₁
  exact ⟨f₂, hf₁.trans hf₂, hp₂, hq₂,
    fun r hrp hrq => (hframe₂ r hrp hrq).trans (hframe₁ r hrp hrq)⟩

/-! ### A round -/

section Round

variable (combine : List UInt8 → List UInt8 → List UInt8) (buf : Nat → List UInt8)

/-- The left fold of the contributions of `ranks`. -/
def folded (ranks : List Nat) (acc : List UInt8) : List UInt8 :=
  ranks.foldl (fun acc j => combine acc (buf j)) acc

variable {combine buf} {hubNext : Result → RankProg Unit}

/-- The hub has read the frames of some peers, whose writers have got past them. -/
theorem leads_gather (buf : Nat → List UInt8) (spokeNext : Nat → RankProg Unit)
    (hcap : 0 < capacity) (hfits : len < 2 ^ 64) (rest : List Stream) :
    ∀ (peers : List Nat) (f : Nat → Process Chan UInt8 Result Unit) (acc : List UInt8),
    peers.Nodup → (∀ j ∈ peers, j ≠ 0 ∧ (buf j).length = len) →
    At f 0 ((gather tag len combine (peers ++ rest) acc).bind hubNext) outs →
    (∀ j ∈ peers, At f j ((writeFrame (.toHub j) tag (buf j)).bind fun _ => spokeNext j) outs) →
    ∃ f', Leads (wiring capacity) f f' ∧
      At f' 0 ((gather tag len combine rest (folded combine buf peers acc)).bind hubNext) outs ∧
      (∀ j ∈ peers, At f' j (spokeNext j) outs) ∧ ∀ r, r ≠ 0 → r ∉ peers → f' r = f r := by
  intro peers
  induction peers with
  | nil =>
      intro f acc _ _ hhub _
      exact ⟨f, .refl f, hhub, fun j hj => absurd hj List.not_mem_nil, fun _ _ _ => rfl⟩
  | cons j peers ih =>
      intro f acc hnodup hranks hhub hspokes
      obtain ⟨hnot, hnodup⟩ := List.nodup_cons.mp hnodup
      obtain ⟨hj0, hjlen⟩ := hranks j List.mem_cons_self
      rw [List.cons_append, gather, Prog.bind_assoc, ← hjlen] at hhub
      obtain ⟨f₁, hf₁, hspoke₁, hhub₁, hframe₁⟩ := leads_frame (.toHub j) hcap hj0
        (by rw [hjlen]; exact hfits) rfl (hspokes j List.mem_cons_self) hhub
      rw [hjlen] at hhub₁
      obtain ⟨f₂, hf₂, hhub₂, hspokes₂, hframe₂⟩ := ih f₁ (combine acc (buf j)) hnodup
        (fun i hi => hranks i (List.mem_cons_of_mem _ hi)) hhub₁ (by
          intro i hi
          have hij : i ≠ j := fun h => hnot (h ▸ hi)
          have hi0 := (hranks i (List.mem_cons_of_mem _ hi)).1
          exact (hspokes i (List.mem_cons_of_mem _ hi)).of_eq (hframe₁ i hij hi0))
      refine ⟨f₂, hf₁.trans hf₂, hhub₂, ?_, ?_⟩
      · intro i hi
        rcases List.mem_cons.mp hi with rfl | hi
        · exact At.of_eq hspoke₁ (hframe₂ i hj0 hnot)
        · exact hspokes₂ i hi
      · intro r hr0 hr
        rw [List.mem_cons, not_or] at hr
        exact (hframe₂ r hr0 hr.2).trans (hframe₁ r hr.1 hr0)

/-- The hub has answered its peers. -/
theorem leads_broadcast (hcap : 0 < capacity) {total : List UInt8} (hfits : total.length < 2 ^ 64)
    {hubNext : RankProg Unit} {spokeNext : Nat → Except CommError (List UInt8) → RankProg Unit} :
    ∀ (peers : List Nat) (f : Nat → Process Chan UInt8 Result Unit),
    peers.Nodup → (∀ j ∈ peers, j ≠ 0) →
    At f 0 ((broadcast tag total peers).bind fun _ => hubNext) outs →
    (∀ j ∈ peers, At f j ((readFrame (.toSpoke j) tag total.length).bind (spokeNext j)) outs) →
    ∃ f', Leads (wiring capacity) f f' ∧ At f' 0 hubNext outs ∧
      (∀ j ∈ peers, At f' j (spokeNext j (.ok total)) outs) ∧
      ∀ r, r ≠ 0 → r ∉ peers → f' r = f r := by
  intro peers
  induction peers with
  | nil =>
      intro f _ _ hhub _
      exact ⟨f, .refl f, hhub, fun j hj => absurd hj List.not_mem_nil, fun _ _ _ => rfl⟩
  | cons j peers ih =>
      intro f hnodup hranks hhub hspokes
      obtain ⟨hnot, hnodup⟩ := List.nodup_cons.mp hnodup
      have hj0 := hranks j List.mem_cons_self
      rw [broadcast, Prog.bind_assoc] at hhub
      obtain ⟨f₁, hf₁, hhub₁, hspoke₁, hframe₁⟩ := leads_frame (.toSpoke j) hcap hj0.symm
        hfits rfl hhub (hspokes j List.mem_cons_self)
      obtain ⟨f₂, hf₂, hhub₂, hspokes₂, hframe₂⟩ := ih f₁ hnodup
        (fun i hi => hranks i (List.mem_cons_of_mem _ hi)) hhub₁ (by
          intro i hi
          have hij : i ≠ j := fun h => hnot (h ▸ hi)
          have hi0 := hranks i (List.mem_cons_of_mem _ hi)
          exact (hspokes i (List.mem_cons_of_mem _ hi)).of_eq (hframe₁ i hi0 hij))
      refine ⟨f₂, hf₁.trans hf₂, hhub₂, ?_, ?_⟩
      · intro i hi
        rcases List.mem_cons.mp hi with rfl | hi
        · exact At.of_eq hspoke₁ (hframe₂ i hj0 hnot)
        · exact hspokes₂ i hi
      · intro r hr0 hr
        rw [List.mem_cons, not_or] at hr
        exact (hframe₂ r hr0 hr.2).trans (hframe₁ r hr0 hr.1)

theorem folded_length (buf : Nat → List UInt8)
    (hcombine : ∀ acc other, (combine acc other).length = acc.length) (ranks : List Nat)
    (acc : List UInt8) : (folded combine buf ranks acc).length = acc.length := by
  induction ranks generalizing acc with
  | nil => rfl
  | cons j ranks ih => exact (ih _).trans (hcombine acc (buf j))

/-- A collective that all ranks call alike returns the left fold to each of them. -/
theorem leads_round (hcap : 0 < capacity)
    (hcombine : ∀ acc other, (combine acc other).length = acc.length) {buf₀ : List UInt8}
    (hfits : buf₀.length < 2 ^ 64) {peers : List Nat} (hnodup : peers.Nodup)
    (hranks : ∀ j ∈ peers, j ≠ 0 ∧ (buf j).length = buf₀.length)
    {spokeCombine : Nat → List UInt8 → List UInt8 → List UInt8}
    {spokeNext : Nat → Result → RankProg Unit}
    (hhub : At f 0 ((collective tag combine (.hub peers) buf₀).bind hubNext) outs)
    (hspokes : ∀ j ∈ peers, At f j
      ((collective tag (spokeCombine j) (.spoke j) (buf j)).bind (spokeNext j)) outs) :
    ∃ f', Leads (wiring capacity) f f' ∧
      At f' 0 (hubNext (.ok (), folded combine buf peers buf₀)) outs ∧
      (∀ j ∈ peers, At f' j (spokeNext j (.ok (), folded combine buf peers buf₀)) outs) ∧
      ∀ r, r ≠ 0 → r ∉ peers → f' r = f r := by
  have htotal := folded_length buf hcombine peers buf₀
  rw [collective, Prog.bind_assoc] at hhub
  have hspokes' : ∀ j ∈ peers, At f j ((writeFrame (.toHub j) tag (buf j)).bind fun _ =>
      (readFrame (.toSpoke j) tag buf₀.length).bind fun result =>
        spokeNext j (result.map fun _ => (), result.toOption.getD (buf j))) outs := by
    intro j hj
    have hspoke := hspokes j hj
    rw [collective, Prog.bind_assoc] at hspoke
    simp only [Prog.bind_assoc, (hranks j hj).2] at hspoke
    convert hspoke with _ result
    cases result <;> rfl
  obtain ⟨f₁, hf₁, hhub₁, hspokes₁, hframe₁⟩ := leads_gather buf _ hcap hfits [] peers f buf₀
    hnodup hranks (by rw [List.append_nil]; exact hhub) hspokes'
  simp only [gather, Prog.pure_bind, Prog.bind_assoc] at hhub₁
  simp only [← htotal] at hspokes₁
  obtain ⟨f₂, hf₂, hhub₂, hspokes₂, hframe₂⟩ := leads_broadcast hcap (by rw [htotal]; exact hfits)
    peers f₁ hnodup (fun j hj => (hranks j hj).1) hhub₁ hspokes₁
  exact ⟨f₂, hf₁.trans hf₂, hhub₂, hspokes₂,
    fun r hr0 hr => (hframe₂ r hr0 hr).trans (hframe₁ r hr0 hr)⟩

end Round

/-! ### All rounds -/

variable {calls : Nat → List Call} {k r : Nat}

/-- The collective that a rank calls in round `r`. -/
def callAt (calls : Nat → List Call) (rank r : Nat) : Call := (calls rank).getD r .barrier

/-- All ranks call the same collective in round `r`, on buffers of one length. -/
def Agree (n : Nat) (calls : Nat → List Call) (r : Nat) : Prop :=
  ∀ i < n, r < (calls i).length ∧ (callAt calls i r).shape = (callAt calls 0 r).shape

/-- What the hub holds in round `r` after the contributions of `ranks`. -/
def reduced (addF32 : F32Bytes → F32Bytes → F32Bytes) (calls : Nat → List Call) (r : Nat)
    (ranks : List Nat) : List UInt8 :=
  folded ((callAt calls 0 r).combine addF32) (fun j => (callAt calls j r).buf) ranks
    (callAt calls 0 r).buf

/-- What every rank returns from round `r`: the left fold of all contributions in rank order. -/
def agreed (addF32 : F32Bytes → F32Bytes → F32Bytes) (n : Nat) (calls : Nat → List Call) (r : Nat) :
    Result :=
  (.ok (), reduced addF32 calls r (List.range' 1 (n - 1)))

def endpoint (peers : List Stream) (rank : Nat) : Endpoint :=
  if rank = 0 then .hub peers else .spoke rank

/-- The connected ranks, before their first collective. -/
def world (addF32 : F32Bytes → F32Bytes → F32Bytes) (n : Nat) (peers : List Stream)
    (calls : Nat → List Call) (rank : Nat) : Process Chan UInt8 Result Unit where
  prog := if rank < n then runCalls addF32 (endpoint peers rank) (calls rank) else .pure ()
  outs := []
  seen := []

variable (capacity) in
/-- All ranks return from their collectives. -/
theorem leads_emits {o : Result} (next : Nat → RankProg Unit) :
    ∀ (ranks : List Nat) (f : Nat → Process Chan UInt8 Result Unit), ranks.Nodup →
    (∀ i ∈ ranks, At f i (.emit o (next i)) outs) →
    ∃ f', Leads (wiring capacity) f f' ∧ (∀ i ∈ ranks, At f' i (next i) (outs ++ [o])) ∧
      ∀ i, i ∉ ranks → f' i = f i := by
  intro ranks
  induction ranks with
  | nil =>
      intro f _ _
      exact ⟨f, .refl f, fun i hi => absurd hi List.not_mem_nil, fun _ _ => rfl⟩
  | cons j ranks ih =>
      intro f hnodup hemit
      obtain ⟨hnot, hnodup⟩ := List.nodup_cons.mp hnodup
      obtain ⟨f₁, hf₁, hj, hframe₁⟩ := leads_emit (hemit j List.mem_cons_self)
      obtain ⟨f₂, hf₂, hrest, hframe₂⟩ := ih f₁ hnodup fun i hi =>
        (hemit i (List.mem_cons_of_mem _ hi)).of_eq (hframe₁ i fun h => hnot (h ▸ hi))
      refine ⟨f₂, hf₁.trans hf₂, ?_, ?_⟩
      · intro i hi
        rcases List.mem_cons.mp hi with rfl | hi
        · exact hj.of_eq (hframe₂ i hnot)
        · exact hrest i hi
      · intro i hi
        rw [List.mem_cons, not_or] at hi
        exact (hframe₂ i hi.2).trans (hframe₁ i hi.1)

theorem callAt_eq {i : Nat} (hk : k < (calls i).length) : callAt calls i k = (calls i)[k] := by
  rw [callAt, List.getD_eq_getElem?_getD, List.getElem?_eq_getElem hk, Option.getD_some]

theorem callAt_mem {i : Nat} (hk : k < (calls i).length) : callAt calls i k ∈ calls i := by
  rw [callAt_eq hk]
  exact List.getElem_mem hk

/-- A rank that has come to round `k` calls its collective. -/
theorem At.call {peers : List Stream} {i : Nat} (hvalid : ∀ call ∈ calls i, call.Valid)
    (hk : k < (calls i).length)
    (h : At f i (runCalls addF32 (endpoint peers i) ((calls i).drop k)) outs) :
    At f i ((collective (callAt calls i k).tag ((callAt calls i k).combine addF32)
      (endpoint peers i) (callAt calls i k).buf).bind fun result =>
        .emit result (match result.1 with
          | .error _ => .pure ()
          | .ok _ => runCalls addF32 (endpoint peers i) ((calls i).drop (k + 1)))) outs := by
  rw [List.drop_eq_getElem_cons hk, ← callAt_eq hk, runCalls,
    Call.run_eq (hvalid _ (callAt_mem hk))] at h
  exact h

variable (addF32) in
/-- Rounds in which all ranks agree can be run one after the other. -/
theorem leads_rounds (hcap : 0 < capacity) (hvalid : ∀ i < n, ∀ call ∈ calls i, call.Valid)
    (hn : 0 < n) (hagree : ∀ r < k, Agree n calls r) :
    ∃ f, Leads (wiring capacity) (world addF32 n (List.range' 1 (n - 1)) calls) f ∧
      (∀ i < n, At f i
        (runCalls addF32 (endpoint (List.range' 1 (n - 1)) i) ((calls i).drop k))
        ((List.range k).map (agreed addF32 n calls))) ∧
      ∀ i, n ≤ i → (f i).prog = .pure () := by
  induction k with
  | zero =>
      refine ⟨_, .refl _, fun i hi => ?_, fun i hi => if_neg (by omega)⟩
      constructor
      · exact if_pos hi
      · rfl
      · exact fun x hx => absurd hx List.not_mem_nil
  | succ k ih =>
      obtain ⟨f, hf, hat, hdone⟩ := ih fun r hr => hagree r (by omega)
      have hnow := hagree k (Nat.lt_succ_self k)
      have hcall := fun i hi => At.call (hvalid i hi) (hnow i hi).1 (hat i hi)
      have hranks : ∀ j, j ∈ List.range' 1 (n - 1) → j ≠ 0 ∧ j < n := by
        intro j hj
        rw [List.mem_range'_1] at hj
        omega
      have hspokes : ∀ j ∈ List.range' 1 (n - 1), At f j
          ((collective (callAt calls 0 k).tag ((callAt calls j k).combine addF32) (.spoke j)
            (callAt calls j k).buf).bind fun result => .emit result (match result.1 with
              | .error _ => .pure ()
              | .ok _ => runCalls addF32 (endpoint (List.range' 1 (n - 1)) j)
                  ((calls j).drop (k + 1))))
          ((List.range k).map (agreed addF32 n calls)) := by
        intro j hj
        obtain ⟨hj0, hjn⟩ := hranks j hj
        have hspoke := hcall j hjn
        rw [show endpoint (List.range' 1 (n - 1)) j = .spoke j from if_neg hj0] at hspoke ⊢
        rw [show (callAt calls j k).tag = (callAt calls 0 k).tag from
          congrArg Prod.fst (hnow j hjn).2] at hspoke
        exact hspoke
      have hfits := (hvalid 0 hn _ (callAt_mem (hnow 0 hn).1)).1
      obtain ⟨f₁, hf₁, hhub₁, hspokes₁, hframe₁⟩ := leads_round hcap
        (Call.combine_length (callAt calls 0 k)) hfits List.nodup_range'
        (fun j hj => ⟨(hranks j hj).1, congrArg Prod.snd (hnow j (hranks j hj).2).2⟩)
        (hcall 0 hn) hspokes
      have hemit : ∀ i ∈ List.range n, At f₁ i (.emit (agreed addF32 n calls k)
          (runCalls addF32 (endpoint (List.range' 1 (n - 1)) i) ((calls i).drop (k + 1))))
          ((List.range k).map (agreed addF32 n calls)) := by
        intro i hi
        rw [List.mem_range] at hi
        by_cases hi0 : i = 0
        · subst hi0
          exact hhub₁
        · exact hspokes₁ i (by rw [List.mem_range'_1]; omega)
      obtain ⟨f₂, hf₂, hnext₂, hframe₂⟩ := leads_emits capacity _ _ f₁ List.nodup_range hemit
      refine ⟨f₂, (hf.trans hf₁).trans hf₂, fun i hi => ?_, fun i hi => ?_⟩
      · rw [List.range_succ, List.map_append]
        exact hnext₂ i (List.mem_range.mpr hi)
      · rw [hframe₂ i (by rw [List.mem_range]; omega), hframe₁ i (by omega)
          (by rw [List.mem_range'_1]; omega)]
        exact hdone i hi

/-- In round `r` every rank calls a collective, and some frame has not the header that the hub
expects. -/
def Mismatch (n : Nat) (calls : Nat → List Call) (r : Nat) : Prop :=
  (∀ i < n, r < (calls i).length) ∧
    ∃ i < n, (callAt calls i r).shape ≠ (callAt calls 0 r).shape

variable (addF32) in
/-- The first mismatch makes the hub fail, with the frames of the ranks before the offending one
combined. -/
theorem leads_mismatch (hcap : 0 < capacity) (hvalid : ∀ i < n, ∀ call ∈ calls i, call.Valid)
    (hn : 0 < n) (hagree : ∀ r < k, Agree n calls r) (hmismatch : Mismatch n calls k) :
    ∃ f m e, Leads (wiring capacity) (world addF32 n (List.range' 1 (n - 1)) calls) f ∧
      At f 0 (.pure ()) ((List.range k).map (agreed addF32 n calls) ++
        [(.error e, reduced addF32 calls k (List.range' 1 m))]) ∧
      (∀ j ∈ List.range' 1 m, (callAt calls j k).shape = (callAt calls 0 k).shape) ∧
      m + 1 < n ∧ (callAt calls (m + 1) k).shape ≠ (callAt calls 0 k).shape := by
  obtain ⟨f, hf, hat, -⟩ := leads_rounds addF32 hcap hvalid hn hagree
  obtain ⟨hlong, hdiff⟩ := hmismatch
  -- the first rank whose frame is refused
  obtain ⟨m, hm, hoff, hfirst⟩ : ∃ m, m + 1 < n ∧
      (callAt calls (m + 1) k).shape ≠ (callAt calls 0 k).shape ∧
      ∀ j, 1 ≤ j → j < m + 1 → (callAt calls j k).shape = (callAt calls 0 k).shape := by
    obtain ⟨hlt, hne⟩ := Nat.find_spec hdiff
    obtain ⟨m, hm⟩ : ∃ m, Nat.find hdiff = m + 1 :=
      Nat.exists_eq_succ_of_ne_zero fun h0 => hne (by rw [h0])
    rw [hm] at hlt hne
    refine ⟨m, hlt, hne, fun j _ hj => ?_⟩
    by_contra hdiff'
    have := Nat.find_min' hdiff ⟨show j < n by omega, hdiff'⟩
    omega
  have hsplit : List.range' 1 (n - 1) =
      List.range' 1 m ++ (m + 1) :: List.range' (m + 2) (n - 2 - m) := by
    have hn' : n - 1 = m + (n - 2 - m + 1) := by omega
    rw [hn', ← List.range'_append_1, List.range'_succ, Nat.add_comm 1 m]
  have hranks : ∀ j ∈ List.range' 1 m, j ≠ 0 ∧ j < n ∧
      (callAt calls j k).shape = (callAt calls 0 k).shape := by
    intro j hj
    rw [List.mem_range'_1] at hj
    exact ⟨by omega, by omega, hfirst j hj.1 (by omega)⟩
  have hfits := fun i hi => (hvalid i hi _ (callAt_mem (hlong i hi))).1
  -- what a spoke is about to write
  have hspokes : ∀ j, j ≠ 0 → j < n → ∃ next, At f j
      ((writeFrame (.toHub j) (callAt calls j k).tag (callAt calls j k).buf).bind fun _ => next)
      ((List.range k).map (agreed addF32 n calls)) := by
    intro j hj0 hj
    have hspoke := At.call (hvalid j hj) (hlong j hj) (hat j hj)
    rw [show endpoint (List.range' 1 (n - 1)) j = .spoke j from if_neg hj0, collective,
      Prog.bind_assoc] at hspoke
    exact ⟨_, hspoke⟩
  choose spokeNext hspokes using hspokes
  have hhub := At.call (hvalid 0 hn) (hlong 0 hn) (hat 0 hn)
  rw [show endpoint (List.range' 1 (n - 1)) 0 = .hub (List.range' 1 (n - 1)) from if_pos rfl, hsplit,
    collective, Prog.bind_assoc] at hhub
  obtain ⟨f₁, hf₁, hhub₁, -, hframe₁⟩ := leads_gather (fun j => (callAt calls j k).buf)
    (fun j => if h : j ≠ 0 ∧ j < n then spokeNext j h.1 h.2 else .pure ()) hcap
    (hfits 0 hn) ((m + 1) :: List.range' (m + 2) (n - 2 - m)) (List.range' 1 m) f _
    List.nodup_range' (fun j hj => ⟨(hranks j hj).1, congrArg Prod.snd (hranks j hj).2.2⟩) hhub (by
      intro j hj
      obtain ⟨hj0, hjn, hshape⟩ := hranks j hj
      have hspoke := hspokes j hj0 hjn
      rw [show (callAt calls j k).tag = (callAt calls 0 k).tag from congrArg Prod.fst hshape]
        at hspoke
      rw [dif_pos ⟨hj0, hjn⟩]
      exact hspoke)
  rw [gather, Prog.bind_assoc] at hhub₁
  have hspoke₁ := (hspokes (m + 1) (Nat.succ_ne_zero m) hm).of_eq
    (hframe₁ (m + 1) (Nat.succ_ne_zero m) (by rw [List.mem_range'_1]; omega))
  obtain ⟨f₂, hf₂, -, hhub₂, -⟩ := leads_frameHeader (.toHub (m + 1)) hcap
    (Nat.succ_ne_zero m) (hfits (m + 1) hm) rfl hspoke₁ hhub₁
  rw [if_pos (by
    by_contra hsame
    rw [not_or, not_not, not_not] at hsame
    exact hoff (Prod.ext hsame.1 hsame.2))] at hhub₂
  obtain ⟨e, hhub₂⟩ := hhub₂
  obtain ⟨f₃, hf₃, hhub₃, -⟩ := leads_emit (w := wiring capacity) hhub₂
  exact ⟨f₃, m, e, ((hf.trans hf₁).trans hf₂).trans hf₃, hhub₃, fun j hj => (hranks j hj).2.2,
    hm, hoff⟩

/-! ### Every interleaving -/

theorem agree_of_map_eq (h : ∀ i < n, (calls i).map Call.shape = (calls 0).map Call.shape) :
    ∀ r < (calls 0).length, Agree n calls r := by
  intro r hr i hi
  have hlen := congrArg List.length (h i hi)
  rw [List.length_map, List.length_map] at hlen
  have hget := congrArg (fun l => l[r]?) (h i hi)
  refine ⟨by omega, ?_⟩
  rw [callAt_eq (by omega), callAt_eq hr]
  simpa [hlen, hr] using hget

theorem agree_of_not_mismatch (hlong : ∀ i < n, r < (calls i).length)
    (h : ¬Mismatch n calls r) : Agree n calls r := by
  intro i hi
  refine ⟨hlong i hi, ?_⟩
  by_contra hne
  exact h ⟨hlong, i, hi, hne⟩

instance finite_uint8 : Finite UInt8 := Finite.of_injective UInt8.toFin fun _ _ h => UInt8.toFin_inj.mp h

/-- For ranks that have connected in any order, and for every interleaving of the bytes they send and
receive: every run ends.  If all ranks call the same collectives on buffers of the same lengths, no
rank returns an error, each returns from each round the left fold of the contributions in rank order,
and no rank receives a byte in another round than it was sent in.  If a rank has another tag or length
than the hub in some round, the hub does not return from it successfully, and at the first such round
it returns an error, with the matching frames before it combined only. -/
theorem all_reduce_agreement (hcap : 0 < capacity) (hn : 1 ≤ n) {order : List Nat}
    {peers : List Stream} (horder : order.Perm (List.range' 1 (n - 1)))
    (hconn : connectHub n (order.map fun r => (r, writeHello r)) = .ok (some peers))
    (hvalid : ∀ i < n, ∀ call ∈ calls i, call.Valid) :
    (∃ k, ∀ j net, Run (wiring capacity) j (idle (world addF32 n peers calls)) net → j ≤ k) ∧
    ((∀ i < n, (calls i).map Call.shape = (calls 0).map Call.shape) →
      ∀ j net, Run (wiring capacity) j (idle (world addF32 n peers calls)) net → ∀ i < n,
        (net.process i).outs <+: (List.range (calls 0).length).map (agreed addF32 n calls) ∧
        (∀ x ∈ (net.process i).seen, x.1 = x.2) ∧
        (Stuck (wiring capacity) net →
          (net.process i).outs = (List.range (calls 0).length).map (agreed addF32 n calls))) ∧
    ∀ r, Mismatch n calls r →
      ∀ j net, Run (wiring capacity) j (idle (world addF32 n peers calls)) net →
        (∀ result, (net.process 0).outs[r]? = some result → ∃ e, result.1 = .error e) ∧
        ((∀ r' < r, ¬Mismatch n calls r') → Stuck (wiring capacity) net →
          ∃ e m, (net.process 0).outs[r]? = some (.error e, reduced addF32 calls r (List.range' 1 m)) ∧
            ∀ i ∈ List.range' 1 m, (callAt calls i r).shape = (callAt calls 0 r).shape) := by
  obtain rfl := Option.some.inj (connectHub_peers horder hconn)
  refine ⟨exists_length_le (Finset.range n) fun i hi => ⟨(), if_neg ?_⟩, ?_, ?_⟩
  · simpa using hi
  · intro hsame j net hrun i hi
    obtain ⟨f, ⟨k, hf⟩, hat, hdone⟩ := leads_rounds addF32 hcap hvalid hn
      (agree_of_map_eq hsame)
    have hfin : ∀ i < n, At f i (.pure ())
        ((List.range (calls 0).length).map (agreed addF32 n calls)) := by
      intro i hi
      have hlen := congrArg List.length (hsame i hi)
      rw [List.length_map, List.length_map] at hlen
      have hi' := hat i hi
      rw [← hlen, List.drop_length] at hi'
      rw [← hlen]
      exact hi'
    have hstuck : Stuck (wiring capacity) (idle f) := stuck_of_returned fun i => by
      by_cases hi : i < n
      · exact ⟨(), (hfin i hi).prog⟩
      · exact ⟨(), hdone i (Nat.le_of_not_lt hi)⟩
    obtain ⟨l, hl⟩ := hf.of_stuck hstuck hrun
    obtain ⟨houts, hseen⟩ := hl.grows i
    refine ⟨?_, fun x hx => (hfin i hi).seen x (hseen.subset hx), fun hnet => ?_⟩
    · rw [← (hfin i hi).outs]
      exact houts
    · rw [hnet.run_eq hl]
      exact (hfin i hi).outs
  · intro r hmismatch j net hrun
    classical
    -- the first mismatch, after which the hub has stopped
    have hex : ∃ r₀, Mismatch n calls r₀ := ⟨r, hmismatch⟩
    have hle : Nat.find hex ≤ r := Nat.find_min' hex hmismatch
    have hagree : ∀ r' < Nat.find hex, Agree n calls r' := fun r' hr' =>
      agree_of_not_mismatch (fun i hi => by have := hmismatch.1 i hi; omega) (Nat.find_min hex hr')
    obtain ⟨f, m, e, ⟨k, hf⟩, hhub, hbefore, -⟩ :=
      leads_mismatch addF32 hcap hvalid hn hagree (Nat.find_spec hex)
    obtain ⟨net', i, l, hi, hl⟩ := run_join hrun hf
    have houts : (net'.process 0).outs = (List.range (Nat.find hex)).map (agreed addF32 n calls) ++
        [(.error e, reduced addF32 calls (Nat.find hex) (List.range' 1 m))] := by
      rw [hl.returned hhub.prog]
      exact hhub.outs
    have hlast : (net'.process 0).outs[Nat.find hex]? =
        some (.error e, reduced addF32 calls (Nat.find hex) (List.range' 1 m)) := by
      rw [houts, List.getElem?_append_right (by simp)]
      simp
    constructor
    · intro result hresult
      obtain ⟨more, hmore⟩ := (hi.grows 0).1
      have hr := List.getElem?_eq_some_iff.mp hresult
      have hlen := congrArg List.length houts
      rw [← hmore] at hlen
      simp only [List.length_append, List.length_map, List.length_range, List.length_singleton] at hlen
      have heq : Nat.find hex = r := by
        have := hr.1
        omega
      rw [heq, ← hmore, List.getElem?_append_left hr.1, hresult] at hlast
      exact ⟨e, congrArg Prod.fst (Option.some.inj hlast)⟩
    · intro hfirst hstuck
      have hr : Nat.find hex = r := by
        by_contra hne
        exact hfirst _ (by omega) (Nat.find_spec hex)
      rw [hstuck.run_eq hi, ← hr]
      exact ⟨e, m, hlast, hbefore⟩

/-- Sums with a zero. -/
def addToZero (a b : F32Bytes) : F32Bytes := if a = ⟨0, 0, 0, 0⟩ then b else a

/-- Two ranks reduce `0.0` and `1.0`, and wait for each other. -/
def pairCalls : Nat → List Call
  | 0 => [.allReduce [0, 0, 0, 0] .f32 .sum, .barrier]
  | _ => [.allReduce [0, 0, 0x80, 0x3f] .f32 .sum, .barrier]

theorem pairCalls_valid (i : Nat) : ∀ call ∈ pairCalls i, call.Valid := by
  have hfour : ∀ b₀ b₁ b₂ b₃, (Call.allReduce [b₀, b₁, b₂, b₃] .f32 .sum).Valid := by
    intro b₀ b₁ b₂ b₃
    refine ⟨by simp [Call.buf], fun buf dtype op h => ?_⟩
    cases h
    simp [DataType.sizeOf]
  have hbarrier : Call.barrier.Valid := ⟨by simp [Call.buf], fun _ _ _ h => by cases h⟩
  intro call hcall
  unfold pairCalls at hcall
  split at hcall
  · rcases List.mem_pair.mp hcall with rfl | rfl
    · exact hfour ..
    · exact hbarrier
  · rcases List.mem_pair.mp hcall with rfl | rfl
    · exact hfour ..
    · exact hbarrier

/-- Every run of the two ranks ends, and then both have the sum. -/
theorem pairCalls_agree :
    (∃ k, ∀ j net, Run (wiring 1) j (idle (world addToZero 2 [1] pairCalls)) net → j ≤ k) ∧
    ∀ j net, Run (wiring 1) j (idle (world addToZero 2 [1] pairCalls)) net → Stuck (wiring 1) net →
      ∀ i < 2, (net.process i).outs = [(.ok (), [0, 0, 0x80, 0x3f]), (.ok (), [])] := by
  have hagree := @all_reduce_agreement addToZero 2 1 pairCalls Nat.one_pos (by decide) [1] [1]
    (List.Perm.refl [1]) rfl fun i _ => pairCalls_valid i
  refine ⟨hagree.1, ?_⟩
  intro j net hrun hstuck i hi
  exact (hagree.2.1 (by decide) j net hrun i hi).2.2 hstuck

end Comm
end NnEngine
