import NnEngine.Comm.AllReduce
import NnEngine.Result

/-!
# All-reduce over streams that fail

`all_reduce` once more, for one rank whose streams may fail at any byte.  A stream is told by the bytes that
can be read from it and by how many can be written to it before it fails; what a failing `read_exact` leaves in
its destination is not specified, so it is any bytes.
-/

namespace NnEngine
namespace Comm
namespace Faults

/-! ### Streams -/

/-- One end of a stream.  `scraps` is what a failing read leaves in front of its destination. -/
structure Wire where
  arrives : List UInt8
  room : Nat
  scraps : List UInt8
  deriving DecidableEq, Repr

/-- The bytes `src` written over the front of `dst`. -/
def overwrite (src dst : List UInt8) : List UInt8 := src.take dst.length ++ dst.drop src.length

@[simp] theorem overwrite_length (src dst : List UInt8) : (overwrite src dst).length = dst.length := by
  unfold overwrite
  rw [List.length_append, List.length_take, List.length_drop]
  omega

namespace Wire

/-- `read_exact`, and what it leaves in the destination. -/
def readExact (w : Wire) (dst : List UInt8) : Except CommError Wire × List UInt8 :=
  if dst.length ≤ w.arrives.length then
    (.ok { w with arrives := w.arrives.drop dst.length }, w.arrives.take dst.length)
  else (.error .io, overwrite w.scraps dst)

/-- `write_all`. -/
def writeAll (w : Wire) (bytes : List UInt8) : Except CommError Wire :=
  if bytes.length ≤ w.room then .ok { w with room := w.room - bytes.length } else .error .io

/-- `write_frame`. -/
def writeFrame (w : Wire) (tag : UInt8) (payload : List UInt8) : Except CommError Wire := do
  let w ← w.writeAll (frameHeader tag payload.length)
  w.writeAll payload

/-- `read_frame`, and what it leaves in `out`, which has room for the expected payload. -/
def readFrame (w : Wire) (expectedTag : UInt8) (expectedLen : Nat) (out : List UInt8) :
    Except CommError Wire × List UInt8 :=
  match w.readExact (List.replicate 9 0) with
  | (.error e, _) => (.error e, out)
  | (.ok w, header) =>
      let tag := header.headD 0
      let len := fromLeBytes header.tail
      if tag ≠ expectedTag ∨ len ≠ expectedLen then
        (.error (.protocol ("expected frame (tag " ++ toString expectedTag ++ ", len " ++
          toString expectedLen ++ "), got (tag " ++ toString tag ++ ", len " ++ toString len ++ ")")), out)
      else
        let (r, front) := w.readExact (out.take len)
        (r, front ++ out.drop len)

end Wire

/-! ### The collective -/

/-- The endpoint of a rank with its streams. -/
inductive Ends
  | hub (peers : List Wire)
  | spoke (hub : Wire)
  deriving DecidableEq, Repr

variable (addF32 : F32Bytes → F32Bytes → F32Bytes) (dtype : DataType) (op : ReduceOp)

/-- The first loop of the hub, with `recv` and `buf`. -/
def gather : List Wire → List UInt8 → List UInt8 → Except CommError (List Wire) × List UInt8
  | [], _, buf => (.ok [], buf)
  | peer :: peers, recv, buf =>
      match peer.readFrame tagAllReduce buf.length recv with
      | (.error e, _) => (.error e, buf)
      | (.ok peer, recv) =>
          let (r, buf) := gather peers recv (reduce addF32 dtype op buf recv)
          (r.map (peer :: ·), buf)

/-- The second loop of the hub. -/
def broadcast (peers : List Wire) (buf : List UInt8) : Except CommError (List Wire) :=
  peers.mapM fun peer => peer.writeFrame tagAllReduce buf

/-- `all_reduce`: what it returns, and the buffer as it leaves it. -/
def allReduce (ends : Ends) (buf : List UInt8) : Result :=
  if buf.length % dtype.sizeOf ≠ 0 then
    (.error (.invalidConfig ("buffer of " ++ toString buf.length ++
      " bytes is not a multiple of F32 element size")), buf)
  else
    match ends with
    | .hub peers =>
        match gather addF32 dtype op peers (List.replicate buf.length 0) buf with
        | (.error e, buf) => (.error e, buf)
        | (.ok peers, buf) => ((broadcast peers buf).map fun _ => (), buf)
    | .spoke hub =>
        match hub.writeFrame tagAllReduce buf with
        | .error e => (.error e, buf)
        | .ok hub =>
            let (r, buf) := hub.readFrame tagAllReduce buf.length buf
            (r.map fun _ => (), buf)

/-! ### What comes from a peer -/

/-- The bytes begin with the header of a frame. -/
def Announces (bytes : List UInt8) (tag : UInt8) (len : Nat) : Prop :=
  9 ≤ bytes.length ∧ (bytes.take 9).headD 0 = tag ∧ fromLeBytes (bytes.take 9).tail = len

instance (bytes : List UInt8) (tag : UInt8) (len : Nat) : Decidable (Announces bytes tag len) :=
  inferInstanceAs (Decidable (_ ∧ _))

/-- The payload of the frame that the bytes begin with, when all of it is there. -/
def wholeFrame (tag : UInt8) (len : Nat) (bytes : List UInt8) : Option (List UInt8) :=
  if Announces bytes tag len ∧ 9 + len ≤ bytes.length then some ((bytes.drop 9).take len) else none

/-- The payloads of the peers, up to the first peer without a whole frame. -/
def contributions (len : Nat) : List Wire → List (List UInt8)
  | [] => []
  | peer :: peers =>
      match wholeFrame tagAllReduce len peer.arrives with
      | none => []
      | some payload => payload :: contributions len peers

section Streams

variable {w : Wire} {tag : UInt8} {len : Nat} {out bytes payload : List UInt8}

theorem Wire.writeFrame_eq : w.writeFrame tag payload =
    if 9 + payload.length ≤ w.room then .ok { w with room := w.room - (9 + payload.length) } else .error .io := by
  have hheader : (frameHeader tag payload.length).length = 9 := by simp [frameHeader]
  unfold writeFrame writeAll
  rw [hheader]
  by_cases hnine : 9 ≤ w.room
  · rw [if_pos hnine]
    show (if payload.length ≤ w.room - 9 then _ else _) = _
    simp only [Nat.le_sub_iff_add_le' hnine, Nat.sub_sub]
  · rw [if_neg hnine, if_neg (show ¬9 + payload.length ≤ w.room by omega)]
    rfl

/-- The header of a frame is read first. -/
theorem Wire.readExact_header : w.readExact (List.replicate 9 0) =
    if 9 ≤ w.arrives.length then (.ok { w with arrives := w.arrives.drop 9 }, w.arrives.take 9)
    else (.error .io, overwrite w.scraps (List.replicate 9 0)) := by
  unfold readExact
  rw [List.length_replicate]

/-- A frame that is not announced fails and leaves the destination alone. -/
theorem Wire.readFrame_of_not_announces (h : ¬Announces w.arrives tag len) :
    ∃ e, w.readFrame tag len out = (.error e, out) := by
  unfold readFrame
  rw [readExact_header]
  by_cases hnine : 9 ≤ w.arrives.length
  · rw [if_pos hnine]
    dsimp only
    split
    · exact ⟨_, rfl⟩
    · rename_i hsame
      rw [not_or, not_not, not_not] at hsame
      exact absurd ⟨hnine, hsame⟩ h
  · rw [if_neg hnine]
    exact ⟨_, rfl⟩

/-- After the header the payload is read into the destination. -/
theorem Wire.readFrame_of_announces (h : Announces w.arrives tag len) (hout : out.length = len) :
    w.readFrame tag len out = { w with arrives := w.arrives.drop 9 }.readExact out := by
  obtain ⟨hnine, htag, hlen⟩ := h
  unfold readFrame
  rw [readExact_header, if_pos hnine]
  dsimp only
  rw [htag, hlen, if_neg (by simp), ← hout, List.take_length, List.drop_length]
  simp

/-- A frame that is whole. -/
theorem Wire.readFrame_of_whole (h : wholeFrame tag len w.arrives = some payload) (hout : out.length = len) :
    payload.length = len ∧
      w.readFrame tag len out = (.ok { w with arrives := w.arrives.drop (9 + len) }, payload) := by
  unfold wholeFrame at h
  rw [Option.ite_none_right_eq_some, Option.some_inj] at h
  obtain ⟨⟨hannounces, hlen⟩, rfl⟩ := h
  refine ⟨by rw [List.length_take, List.length_drop]; omega, ?_⟩
  rw [readFrame_of_announces hannounces hout]
  unfold readExact
  have hpayload : out.length ≤ (w.arrives.drop 9).length := by
    rw [List.length_drop]
    omega
  dsimp only
  rw [if_pos hpayload, hout, List.drop_drop]

/-- A frame that breaks off after its header. -/
theorem Wire.readFrame_of_broken (h : Announces w.arrives tag len) (hshort : w.arrives.length < 9 + len)
    (hout : out.length = len) : w.readFrame tag len out = (.error .io, overwrite w.scraps out) := by
  rw [readFrame_of_announces h hout]
  unfold readExact
  have hnine := h.1
  have hpayload : ¬out.length ≤ (w.arrives.drop 9).length := by
    rw [List.length_drop]
    omega
  dsimp only
  rw [if_neg hpayload]

/-- A frame that is not whole fails. -/
theorem Wire.readFrame_of_not_whole (h : wholeFrame tag len w.arrives = none) (hout : out.length = len) :
    ∃ e, (w.readFrame tag len out).1 = .error e := by
  by_cases hannounces : Announces w.arrives tag len
  · have hshort : w.arrives.length < 9 + len := by
      by_contra hle
      unfold wholeFrame at h
      rw [if_pos ⟨hannounces, not_lt.mp hle⟩] at h
      cases h
    exact ⟨_, congrArg Prod.fst (readFrame_of_broken hannounces hshort hout)⟩
  · obtain ⟨e, he⟩ := @readFrame_of_not_announces w tag len out hannounces
    exact ⟨e, congrArg Prod.fst he⟩

end Streams

/-! ### What a failure leaves -/

section Failure

variable {addF32 dtype op} {ends : Ends} {buf : List UInt8}

/-- The loop of the hub takes the contributions in the order of the ranks. -/
theorem gather_spec (peers : List Wire) (recv buf : List UInt8) (hrecv : recv.length = buf.length) :
    (gather addF32 dtype op peers recv buf).2 =
      (contributions buf.length peers).foldl (reduce addF32 dtype op) buf := by
  induction peers generalizing recv buf with
  | nil => rfl
  | cons peer peers ih =>
      unfold gather contributions
      cases hframe : wholeFrame tagAllReduce buf.length peer.arrives with
      | none =>
          obtain ⟨e, he⟩ := peer.readFrame_of_not_whole hframe hrecv
          rw [show peer.readFrame tagAllReduce buf.length recv = (.error e, _) from Prod.ext he rfl]
          rfl
      | some payload =>
          obtain ⟨hlen, hread⟩ := peer.readFrame_of_whole hframe hrecv
          have hbuf := ih payload (reduce addF32 dtype op buf payload) (by rw [hlen, reduce_length])
          rw [reduce_length] at hbuf
          rw [hread]
          exact hbuf

theorem folded_reduce_length (others : List (List UInt8)) (acc : List UInt8) :
    (others.foldl (reduce addF32 dtype op) acc).length = acc.length := by
  induction others generalizing acc with
  | nil => rfl
  | cons other others ih => exact (ih _).trans (reduce_length addF32 dtype op acc other)

/-- What the buffer holds when `all_reduce` has failed. -/
def remains (addF32 : F32Bytes → F32Bytes → F32Bytes) (dtype : DataType) (op : ReduceOp) (ends : Ends)
    (buf : List UInt8) : List UInt8 :=
  if buf.length % dtype.sizeOf ≠ 0 then buf
  else
    match ends with
    | .hub peers => (contributions buf.length peers).foldl (reduce addF32 dtype op) buf
    | .spoke hub =>
        if 9 + buf.length ≤ hub.room ∧ Announces hub.arrives tagAllReduce buf.length then overwrite hub.scraps buf
        else buf

theorem allReduce_fails {e : CommError} (h : (allReduce addF32 dtype op ends buf).1 = .error e) :
    (allReduce addF32 dtype op ends buf).2 = remains addF32 dtype op ends buf := by
  unfold remains
  unfold allReduce at h ⊢
  by_cases hwhole : buf.length % dtype.sizeOf ≠ 0
  · rw [if_pos hwhole, if_pos hwhole]
  · rw [if_neg hwhole] at h ⊢
    rw [if_neg hwhole]
    cases ends with
    | hub peers =>
        have hbuf := @gather_spec addF32 dtype op peers (List.replicate buf.length 0) buf (List.length_replicate ..)
        dsimp only
        rw [← hbuf]
        split
        · rename_i heq
          rw [heq]
        · rename_i heq
          rw [heq]
    | spoke hub =>
        dsimp only at h ⊢
        rw [Wire.writeFrame_eq] at h ⊢
        by_cases hroom : 9 + buf.length ≤ hub.room
        · rw [if_pos hroom] at h ⊢
          dsimp only at h ⊢
          by_cases hannounces : Announces hub.arrives tagAllReduce buf.length
          · rw [if_pos ⟨hroom, hannounces⟩]
            -- a whole reply would have been returned
            have hshort : hub.arrives.length < 9 + buf.length := by
              by_contra hle
              obtain ⟨-, hread⟩ := Wire.readFrame_of_whole (w := { hub with room := hub.room - (9 + buf.length) })
                (if_pos ⟨hannounces, not_lt.mp hle⟩) (rfl : buf.length = _)
              rw [hread] at h
              cases h
            rw [Wire.readFrame_of_broken (w := { hub with room := hub.room - (9 + buf.length) }) hannounces hshort rfl]
          · rw [if_neg fun hc => hannounces hc.2]
            obtain ⟨e', hread⟩ := @Wire.readFrame_of_not_announces { hub with room := hub.room - (9 + buf.length) }
              tagAllReduce buf.length buf hannounces
            rw [hread]
        · rw [if_neg hroom] at h ⊢
          rw [if_neg fun hc => hroom hc.1]

theorem remains_length : (remains addF32 dtype op ends buf).length = buf.length := by
  unfold remains
  split
  · rfl
  · cases ends with
    | hub peers => exact folded_reduce_length _ _
    | spoke hub =>
        dsimp only
        split
        · exact overwrite_length _ _
        · rfl

/-- After a failure the buffer has its length and holds, at the hub, the sum with the contributions of the ranks
before the first that failed, and at a spoke what it held but for what a broken reply has overwritten. -/
theorem allReduce_error {e : CommError} (h : (allReduce addF32 dtype op ends buf).1 = .error e) :
    (allReduce addF32 dtype op ends buf).2 = remains addF32 dtype op ends buf ∧
      (allReduce addF32 dtype op ends buf).2.length = buf.length := by
  have hleft := allReduce_fails h
  exact ⟨hleft, by rw [hleft, remains_length]⟩

/-- Rank 1 adds `1.0` to `0.0`, and rank 2 is in a barrier. -/
def strayPeers : List Wire :=
  [⟨frameHeader tagAllReduce 4 ++ [0, 0, 0x80, 0x3f], 13, []⟩, ⟨frameHeader tagBarrier 0, 13, []⟩]

theorem strayPeers_left : (allReduce addToZero .f32 .sum (.hub strayPeers) [0, 0, 0, 0]).2 = [0, 0, 0x80, 0x3f] ∧
    (allReduce addToZero .f32 .sum (.hub strayPeers) [0, 0, 0, 0]).2.length = 4 := by
  have herror := @allReduce_error addToZero .f32 .sum (.hub strayPeers) [0, 0, 0, 0] _ rfl
  exact ⟨herror.1.trans (by decide), herror.2⟩

theorem strayPeers_change : ¬ ∀ (ends : Ends) (buf : List UInt8) (e : CommError),
    (allReduce addToZero .f32 .sum ends buf).1 = .error e → (allReduce addToZero .f32 .sum ends buf).2 = buf := by
  intro hall
  have hsame := hall (.hub strayPeers) [0, 0, 0, 0] _ rfl
  revert hsame
  decide

end Failure

/-! ### The same collective in the network -/

section Network

open ProcessNet

variable {addF32 dtype op}

/-- A stream with these bytes to be read. -/
def wire (room : Nat) (scraps bytes : List UInt8) : Wire := ⟨bytes, room, scraps⟩

/-- What `read_frame` returns to the two models of a stream. -/
def received (w : Wire) (out : List UInt8) : Except CommError (List UInt8) → Except CommError Wire × List UInt8
  | .error e => (.error e, out)
  | .ok payload => (.ok w, payload)

/-- A frame that a program has read from its channel is read from the stream. -/
theorem readFrame_alone {ch : Chan} {tag : UInt8} {len room : Nat} {scraps out : List UInt8} {q q' : Chan → List UInt8}
    {r : Except CommError (List UInt8)} (h : (Comm.readFrame ch tag len).alone q = some (r, q')) (hout : out.length = len) :
    (∀ c, c ≠ ch → q' c = q c) ∧ (∀ payload, r = .ok payload → payload.length = len) ∧
      (wire room scraps (q ch)).readFrame tag len out = received (wire room scraps (q' ch)) out r := by
  unfold Comm.readFrame at h
  rw [Prog.alone_bind, Prog.alone_recvExact] at h
  unfold Wire.readFrame
  rw [Wire.readExact_header]
  split at h
  · rename_i hnine
    rw [Option.bind_some] at h
    unfold wire
    rw [if_pos hnine]
    dsimp only at h ⊢
    split at h
    · rename_i hbad
      obtain ⟨rfl, rfl⟩ := Prod.mk.inj (Option.some.inj h)
      rw [if_pos hbad]
      exact ⟨fun c hc => Function.update_of_ne hc _ _, nofun, rfl⟩
    · rename_i hgood
      rw [if_neg hgood]
      rw [not_or, not_not, not_not] at hgood
      obtain ⟨-, hlen⟩ := hgood
      rw [Prog.alone_bind, Prog.alone_recvExact, Function.update_self, hlen] at h
      rw [hlen, ← hout, List.take_length, List.drop_length]
      split at h
      · rename_i hpayload
        obtain ⟨rfl, rfl⟩ := Prod.mk.inj (Option.some.inj h)
        refine ⟨fun c hc => ?_, fun payload hr => ?_, ?_⟩
        · dsimp only
          rw [Function.update_of_ne hc, Function.update_of_ne hc]
        · obtain rfl := Except.ok.inj hr
          rw [hout]
          exact List.length_take_of_le hpayload
        · unfold Wire.readExact
          dsimp only
          rw [hout, if_pos hpayload, Function.update_self, List.append_nil]
          rfl
      · cases h
  · cases h

/-- The streams of the hub, with these bytes to be read. -/
def wires (room : Stream → Nat) (scraps : Stream → List UInt8) (q : Chan → List UInt8) (peers : List Stream) :
    List Wire := peers.map fun peer => wire (room peer) (scraps peer) (q (.toHub peer))

theorem wires_cons (room : Stream → Nat) (scraps : Stream → List UInt8) (q : Chan → List UInt8) (peer : Stream)
    (peers : List Stream) : wires room scraps q (peer :: peers) =
      wire (room peer) (scraps peer) (q (.toHub peer)) :: wires room scraps q peers := rfl

theorem wires_congr {room : Stream → Nat} {scraps : Stream → List UInt8} {q q' : Chan → List UInt8}
    {peers : List Stream} (h : ∀ peer ∈ peers, q' (.toHub peer) = q (.toHub peer)) :
    wires room scraps q' peers = wires room scraps q peers :=
  List.map_congr_left fun peer hpeer => by rw [h peer hpeer]

/-- The loop over the streams returns what the loop over the channels does. -/
def Agrees (rooms : List Nat) : Except CommError Unit → Except CommError (List Wire) → Prop
  | .error e, x => x = .error e
  | .ok _, x => ∃ ws, x = .ok ws ∧ ws.map Wire.room = rooms

theorem gather_cons (peer : Wire) (peers : List Wire) (recv buf : List UInt8) :
    gather addF32 dtype op (peer :: peers) recv buf =
      match peer.readFrame tagAllReduce buf.length recv with
      | (.error e, _) => (.error e, buf)
      | (.ok peer, recv) =>
          ((gather addF32 dtype op peers recv (reduce addF32 dtype op buf recv)).1.map (peer :: ·),
            (gather addF32 dtype op peers recv (reduce addF32 dtype op buf recv)).2) := rfl

/-- A loop of the hub that reads from its channels does the same on the streams. -/
theorem gather_alone {room : Stream → Nat} {scraps : Stream → List UInt8} (peers : List Stream) (hnodup : peers.Nodup)
    {recv buf : List UInt8} (hrecv : recv.length = buf.length) {q q' : Chan → List UInt8} {r : Result}
    (h : (Comm.gather tagAllReduce buf.length (reduce addF32 dtype op) peers buf).alone q = some (r, q')) :
    (gather addF32 dtype op (wires room scraps q peers) recv buf).2 = r.2 ∧
      Agrees (peers.map room) r.1 (gather addF32 dtype op (wires room scraps q peers) recv buf).1 := by
  induction peers generalizing recv buf q with
  | nil =>
      obtain ⟨rfl, rfl⟩ := Prod.mk.inj (Option.some.inj h)
      exact ⟨rfl, [], rfl, rfl⟩
  | cons peer peers ih =>
      obtain ⟨hnot, hnodup⟩ := List.nodup_cons.mp hnodup
      unfold Comm.gather at h
      rw [Prog.alone_bind, Option.bind_eq_some_iff] at h
      obtain ⟨⟨frame, q₁⟩, hframe, h⟩ := h
      obtain ⟨hother, hlen, hread⟩ := @readFrame_alone _ _ _ (room peer) (scraps peer) _ _ _ _ hframe hrecv
      rw [wires_cons, gather_cons, hread]
      cases frame with
      | error e =>
          obtain ⟨rfl, rfl⟩ := Prod.mk.inj (Option.some.inj h)
          exact ⟨rfl, rfl⟩
      | ok payload =>
          -- the streams of the other peers hold what they held
          have hsame : wires room scraps q₁ peers = wires room scraps q peers := wires_congr fun other hmem =>
            hother _ fun heq => hnot (Chan.toHub.inj heq ▸ hmem)
          dsimp only at h
          rw [← reduce_length addF32 dtype op buf payload] at h
          have hrest := ih hnodup (by rw [hlen payload rfl, reduce_length]) h
          rw [hsame] at hrest
          refine ⟨hrest.1, ?_⟩
          have hagrees := hrest.2
          cases hr : r.1 with
          | error e =>
              rw [hr] at hagrees
              exact congrArg (Except.map _) hagrees
          | ok _ =>
              rw [hr] at hagrees
              obtain ⟨ws, hws, hrooms⟩ := hagrees
              exact ⟨_, congrArg (Except.map _) hws, congrArg (room peer :: ·) hrooms⟩

theorem broadcast_of_room {ws : List Wire} {buf : List UInt8} (h : ∀ w ∈ ws, 9 + buf.length ≤ w.room) :
    ∃ ws', broadcast ws buf = .ok ws' := by
  refine ⟨ws.map fun w => { w with room := w.room - (9 + buf.length) }, mapM_ok fun w hw => ?_⟩
  rw [Wire.writeFrame_eq, if_pos (h w hw)]

theorem writeFrame_alone (ch : Chan) (tag : UInt8) (payload : List UInt8) (q : Chan → List UInt8) :
    (Comm.writeFrame ch tag payload).alone q = some ((), q) := by
  unfold Comm.writeFrame
  rw [Prog.alone_bind, Prog.alone_sendAll, Option.bind_some, Prog.alone_sendAll]

theorem broadcast_alone (tag : UInt8) (buf : List UInt8) (peers : List Stream) (q : Chan → List UInt8) :
    (Comm.broadcast tag buf peers).alone q = some ((), q) := by
  induction peers with
  | nil => rfl
  | cons peer peers ih =>
      unfold Comm.broadcast
      rw [Prog.alone_bind, writeFrame_alone, Option.bind_some, ih]

/-- The endpoint over the streams of the other model. -/
def Ends.ofEndpoint (room : Stream → Nat) (scraps : Stream → List UInt8) (q : Chan → List UInt8) : Endpoint → Ends
  | Endpoint.hub peers => .hub (wires room scraps q peers)
  | Endpoint.spoke stream => .spoke (wire (room stream) (scraps stream) (q (.toSpoke stream)))

/-- Where no read and no write fails, `all_reduce` over streams is the program of the rank in the network. -/
theorem allReduce_alone {room : Stream → Nat} {scraps : Stream → List UInt8} {endpoint : Endpoint}
    (hnodup : ∀ peers, endpoint = .hub peers → peers.Nodup) {buf : List UInt8}
    (hroom : ∀ stream, 9 + buf.length ≤ room stream) {q q' : Chan → List UInt8} {r : Result}
    (h : (Comm.allReduce addF32 endpoint buf dtype op).alone q = some (r, q')) :
    allReduce addF32 dtype op (.ofEndpoint room scraps q endpoint) buf = r := by
  unfold Comm.allReduce at h
  unfold allReduce
  by_cases hwhole : buf.length % dtype.sizeOf ≠ 0
  · rw [if_pos hwhole] at h ⊢
    exact (Prod.mk.inj (Option.some.inj h)).1
  · rw [if_neg hwhole] at h ⊢
    unfold collective at h
    cases endpoint with
    | hub peers =>
        dsimp only [Ends.ofEndpoint] at h ⊢
        rw [Prog.alone_bind, Option.bind_eq_some_iff] at h
        obtain ⟨⟨⟨x, total⟩, q₁⟩, hgather, h⟩ := h
        have hrecv : (List.replicate buf.length (0 : UInt8)).length = buf.length := List.length_replicate ..
        obtain ⟨htotal, hagrees⟩ := @gather_alone addF32 dtype op room scraps peers (hnodup peers rfl) _ _ hrecv _ _ _
          hgather
        dsimp only at htotal
        cases x with
        | error e =>
            obtain ⟨rfl, rfl⟩ := Prod.mk.inj (Option.some.inj h)
            rw [show gather addF32 dtype op (wires room scraps q peers) (List.replicate buf.length 0) buf =
              (.error e, total) from Prod.ext hagrees htotal]
        | ok _ =>
            obtain ⟨ws, hws, hrooms⟩ := hagrees
            dsimp only at h
            rw [Prog.alone_bind, broadcast_alone] at h
            obtain ⟨rfl, rfl⟩ := Prod.mk.inj (Option.some.inj h)
            have hlen : total.length = buf.length := by
              have hspec := @gather_spec addF32 dtype op (wires room scraps q peers) _ buf hrecv
              rw [htotal] at hspec
              rw [hspec]
              exact folded_reduce_length _ _
            rw [show gather addF32 dtype op (wires room scraps q peers) (List.replicate buf.length 0) buf =
              (.ok ws, total) from Prod.ext hws htotal]
            obtain ⟨ws', hws'⟩ := @broadcast_of_room ws total fun w hw => by
              have hmem : w.room ∈ peers.map room := hrooms ▸ List.mem_map_of_mem hw
              obtain ⟨peer, -, hpeer⟩ := List.mem_map.mp hmem
              rw [hlen, ← hpeer]
              exact hroom peer
            dsimp only
            rw [hws']
            rfl
    | spoke hub =>
        dsimp only [Ends.ofEndpoint] at h ⊢
        rw [Prog.alone_bind, writeFrame_alone, Option.bind_some, Prog.alone_bind, Option.bind_eq_some_iff] at h
        obtain ⟨⟨frame, q₁⟩, hframe, h⟩ := h
        rw [Wire.writeFrame_eq, if_pos (show 9 + buf.length ≤ (wire _ _ _).room from hroom hub)]
        obtain ⟨-, -, hread⟩ := @readFrame_alone _ _ _ (room hub - (9 + buf.length)) (scraps hub) buf _ _ _ hframe rfl
        have hread' : ({ wire (room hub) (scraps hub) (q (.toSpoke hub)) with
            room := (wire (room hub) (scraps hub) (q (.toSpoke hub))).room - (9 + buf.length) } : Wire).readFrame
              tagAllReduce buf.length buf = received _ buf frame := hread
        dsimp only at hread' ⊢
        rw [hread']
        cases frame with
        | error e => exact (Prod.mk.inj (Option.some.inj h)).1
        | ok payload => exact (Prod.mk.inj (Option.some.inj h)).1

/-- A spoke whose reply has come. -/
theorem spoke_alone : allReduce addToZero .f32 .sum (.ofEndpoint (fun _ => 13) (fun _ => [])
      (fun _ => frameHeader tagAllReduce 4 ++ [0, 0, 0x80, 0x3f]) (.spoke 0)) [0, 0, 0, 0] =
    (.ok (), [0, 0, 0x80, 0x3f]) :=
  allReduce_alone (fun _ h => by cases h) (fun _ => Nat.le_refl 13) rfl

end Network

end Faults
end Comm
end NnEngine
