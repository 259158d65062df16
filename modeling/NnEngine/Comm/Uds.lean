import NnEngine.LeBytes
import NnEngine.ProcessNet

/-!
# The communicator over Unix domain sockets

`UdsCommunicator` of `crates/comm/src/uds.rs`: the accept loop of the hub, the frames, and what the
hub and a spoke do in a collective.  The collectives are programs over the two directions of the
spokes' streams, one message a byte, so that a `write_all` or a `read_exact` can be interrupted after
every byte.

The sum of two `f32` is a parameter.  An end of file is not modelled: no rank closes its streams.
-/

namespace NnEngine
namespace Comm

open ProcessNet

inductive DataType
  | f32
  deriving DecidableEq, Repr

/-- `size_of`. -/
def DataType.sizeOf : DataType → Nat
  | f32 => 4

inductive ReduceOp
  | sum
  deriving DecidableEq, Repr

inductive CommError
  | io
  | protocol (msg : String)
  | invalidConfig (msg : String)
  deriving DecidableEq, Repr

def helloMagic : Nat := 0x4d594e43

def tagAllReduce : UInt8 := 1

def tagBarrier : UInt8 := 2

/-! ### Connecting -/

/-- A stream between the hub and a spoke, named by the rank of the spoke that opened it.  The hub
learns that rank from the hello only. -/
abbrev Stream := Nat

/-- What `write_hello` sends.  The rank is cut to a `u32`. -/
def writeHello (rank : Nat) : List UInt8 := toLeBytes 4 helloMagic ++ toLeBytes 4 rank

/-- `read_hello`, on the eight bytes that it reads. -/
def readHello (msg : List UInt8) : Except CommError Nat :=
  let magic := fromLeBytes (msg.take 4)
  if magic ≠ helloMagic then
    .error (.protocol ("bad hello magic 0x" ++ String.ofList (Nat.toDigits 16 magic)))
  else .ok (fromLeBytes (msg.drop 4))

/-- The accept loop of `connect` for rank 0, over the accepted streams with their first bytes. -/
def acceptLoop (worldSize : Nat) :
    List (Stream × List UInt8) → List (Option Stream) → Except CommError (List (Option Stream))
  | [], peers => .ok peers
  | (stream, hello) :: rest, peers =>
      match readHello hello with
      | .error e => .error e
      | .ok peerRank =>
          if ¬(1 ≤ peerRank ∧ peerRank < worldSize) then
            .error (.protocol s!"unexpected rank {peerRank} connected")
          else if (peers.getD (peerRank - 1) none).isSome then
            .error (.protocol s!"rank {peerRank} connected twice")
          else acceptLoop worldSize rest (peers.set (peerRank - 1) (some stream))

/-- The streams of the hub after `connect`: the one at index `i` goes to rank `i + 1`.  An inner
`none` is the panic of an `unwrap`. -/
def connectHub (worldSize : Nat) (accepted : List (Stream × List UInt8)) :
    Except CommError (Option (List Stream)) :=
  (acceptLoop worldSize accepted (List.replicate (worldSize - 1) none)).map fun peers =>
    peers.mapM id

/-! ### Reducing -/

/-- The four bytes of an `f32`, in the byte order of the host. -/
structure F32Bytes where
  b₀ : UInt8
  b₁ : UInt8
  b₂ : UInt8
  b₃ : UInt8
  deriving DecidableEq, Repr

/-- `reduce`: element by element, up to the shorter buffer. -/
def reduce (addF32 : F32Bytes → F32Bytes → F32Bytes) :
    DataType → ReduceOp → List UInt8 → List UInt8 → List UInt8
  | .f32, .sum, a₀ :: a₁ :: a₂ :: a₃ :: acc, b₀ :: b₁ :: b₂ :: b₃ :: other =>
      let sum := addF32 ⟨a₀, a₁, a₂, a₃⟩ ⟨b₀, b₁, b₂, b₃⟩
      sum.b₀ :: sum.b₁ :: sum.b₂ :: sum.b₃ :: reduce addF32 .f32 .sum acc other
  | _, _, acc, _ => acc

theorem reduce_length (addF32 : F32Bytes → F32Bytes → F32Bytes) (dtype : DataType) (op : ReduceOp)
    (acc other : List UInt8) : (reduce addF32 dtype op acc other).length = acc.length := by
  fun_induction reduce addF32 dtype op acc other with
  | case1 => simp_all
  | case2 => rfl

/-! ### Frames -/

/-- The two directions of a stream. -/
inductive Chan
  | toHub (stream : Stream)
  | toSpoke (stream : Stream)
  deriving DecidableEq, Repr

/-- What a collective returns, and the buffer as it leaves it. -/
abbrev Result := Except CommError Unit × List UInt8

/-- A program of a rank.  Its outputs are what its collectives return. -/
abbrev RankProg (α : Type) := Prog Chan UInt8 Result α

def frameHeader (tag : UInt8) (len : Nat) : List UInt8 := tag :: toLeBytes 8 len

/-- `write_frame`. -/
def writeFrame (ch : Chan) (tag : UInt8) (payload : List UInt8) : RankProg Unit :=
  (Prog.sendAll ch (frameHeader tag payload.length)).bind fun _ => Prog.sendAll ch payload

/-- `read_frame`. -/
def readFrame (ch : Chan) (expectedTag : UInt8) (expectedLen : Nat) :
    RankProg (Except CommError (List UInt8)) :=
  (Prog.recvExact ch 9).bind fun header =>
    let tag := header.headD 0
    let len := fromLeBytes header.tail
    if tag ≠ expectedTag ∨ len ≠ expectedLen then
      .pure (.error (.protocol ("expected frame (tag " ++ toString expectedTag ++ ", len " ++
        toString expectedLen ++ "), got (tag " ++ toString tag ++ ", len " ++ toString len ++ ")")))
    else (Prog.recvExact ch len).bind fun payload => .pure (.ok payload)

/-! ### Collectives -/

inductive Endpoint
  | hub (peers : List Stream)
  | spoke (hub : Stream)
  deriving DecidableEq, Repr

/-- The first loop of the hub: one frame from each peer, in the order of the ranks. -/
def gather (tag : UInt8) (len : Nat) (combine : List UInt8 → List UInt8 → List UInt8) :
    List Stream → List UInt8 → RankProg Result
  | [], buf => .pure (.ok (), buf)
  | peer :: peers, buf =>
      (readFrame (.toHub peer) tag len).bind fun
        | .error e => .pure (.error e, buf)
        | .ok recv => gather tag len combine peers (combine buf recv)

/-- The second loop of the hub. -/
def broadcast (tag : UInt8) (buf : List UInt8) : List Stream → RankProg Unit
  | [] => .pure ()
  | peer :: peers => (writeFrame (.toSpoke peer) tag buf).bind fun _ => broadcast tag buf peers

/-- The body that `all_reduce` and `barrier` share. -/
def collective (tag : UInt8) (combine : List UInt8 → List UInt8 → List UInt8) :
    Endpoint → List UInt8 → RankProg Result
  | .hub peers, buf =>
      (gather tag buf.length combine peers buf).bind fun
        | (.error e, buf) => .pure (.error e, buf)
        | (.ok _, buf) => (broadcast tag buf peers).bind fun _ => .pure (.ok (), buf)
  | .spoke hub, buf =>
      (writeFrame (.toHub hub) tag buf).bind fun _ =>
        (readFrame (.toSpoke hub) tag buf.length).bind fun
          | .error e => .pure (.error e, buf)
          | .ok recv => .pure (.ok (), recv)

/-- `all_reduce`. -/
def allReduce (addF32 : F32Bytes → F32Bytes → F32Bytes) (endpoint : Endpoint) (buf : List UInt8)
    (dtype : DataType) (op : ReduceOp) : RankProg Result :=
  if buf.length % dtype.sizeOf ≠ 0 then
    .pure (.error (.invalidConfig ("buffer of " ++ toString buf.length ++
      " bytes is not a multiple of F32 element size")), buf)
  else collective tagAllReduce (reduce addF32 dtype op) endpoint buf

/-- `barrier`. -/
def barrier (endpoint : Endpoint) : RankProg Result :=
  collective tagBarrier (fun buf _ => buf) endpoint []

inductive Call
  | allReduce (buf : List UInt8) (dtype : DataType) (op : ReduceOp)
  | barrier
  deriving DecidableEq, Repr

def Call.run (addF32 : F32Bytes → F32Bytes → F32Bytes) (endpoint : Endpoint) :
    Call → RankProg Result
  | .allReduce buf dtype op => Comm.allReduce addF32 endpoint buf dtype op
  | .barrier => Comm.barrier endpoint

/-- A rank issues its collectives one after the other, up to the first that fails: the kernel that
calls `all_reduce` aborts then. -/
def runCalls (addF32 : F32Bytes → F32Bytes → F32Bytes) (endpoint : Endpoint) :
    List Call → RankProg Unit
  | [] => .pure ()
  | call :: calls =>
      (call.run addF32 endpoint).bind fun result =>
        .emit result (match result.1 with
          | .error _ => .pure ()
          | .ok _ => runCalls addF32 endpoint calls)

/-! ### What a call sends -/

namespace Call

def tag : Call → UInt8
  | allReduce _ _ _ => tagAllReduce
  | barrier => tagBarrier

def buf : Call → List UInt8
  | allReduce buf _ _ => buf
  | barrier => []

def combine (addF32 : F32Bytes → F32Bytes → F32Bytes) :
    Call → List UInt8 → List UInt8 → List UInt8
  | allReduce _ dtype op => reduce addF32 dtype op
  | barrier => fun buf _ => buf

/-- The header of the frame that a rank sends. -/
def shape (call : Call) : UInt8 × Nat := (call.tag, call.buf.length)

/-- The buffer has whole elements, and its length is a `usize`. -/
def Valid (call : Call) : Prop :=
  call.buf.length < 2 ^ 64 ∧
    ∀ buf dtype op, call = .allReduce buf dtype op → buf.length % dtype.sizeOf = 0

theorem run_eq {addF32 : F32Bytes → F32Bytes → F32Bytes} {call : Call} (h : call.Valid) (endpoint : Endpoint) :
    call.run addF32 endpoint = collective call.tag (call.combine addF32) endpoint call.buf := by
  cases call with
  | allReduce buf dtype op =>
      have hwhole := h.2 buf dtype op rfl
      show Comm.allReduce addF32 endpoint buf dtype op = _
      rw [Comm.allReduce, if_neg (not_not.mpr hwhole)]
      rfl
  | barrier => rfl

theorem combine_length {addF32 : F32Bytes → F32Bytes → F32Bytes} (call : Call)
    (acc other : List UInt8) :
    (call.combine addF32 acc other).length = acc.length := by
  cases call with
  | allReduce buf dtype op => exact reduce_length addF32 dtype op acc other
  | barrier => rfl

end Call

end Comm
end NnEngine
