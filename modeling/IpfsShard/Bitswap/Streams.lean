import IpfsShard.Codec.BitswapCodec
import IpfsShard.Lib.Runs
import Mathlib.Data.List.AList

/-! The streams of `SimpleBitswap`: one pooled stream per peer, sends that dial and retry, a
read loop on every stream. An event is what runs between two suspensions. -/

namespace IpfsShard.Bitswap.Streams
open Codec Runs

inductive Direction where
  | outbound
  | inbound
  deriving DecidableEq

structure StreamInfo where
  stream : Nat
  direction : Direction
  closed : Bool := false
  deriving DecidableEq

/-- A stream of libp2p: whether its read loop runs, and whether the node has closed it. -/
structure Stream where
  peer : String
  reading : Bool := true
  closed : Bool := false
  deriving DecidableEq

/-- Where `_sendMessage` is suspended. -/
inductive Phase where
  | dialing
  | gotStream (stream : Nat)
  | failed
  | redialing
  | gotRetryStream (stream : Nat)
  | done
  deriving DecidableEq

structure Send where
  peer : String
  message : Bytes
  phase : Phase
  deriving DecidableEq

structure State where
  streamPool : AList (fun _ : String => StreamInfo) := ∅
  unsupportedPeers : List String := []
  streams : List Stream := []
  sends : List Send := []
  deriving DecidableEq

inductive Event where
  | sendMessage (peer : String) (message : Bytes)
  | dialed (send : Nat)
  | dialFailed (send : Nat) (unsupported : Bool)
  | caught (send : Nat)
  | sent (send : Nat) (throws : Bool)
  | inbound (peer : String)
  | readEnded (stream : Nat)
  | disconnected (peer : String)
  | stop
  | clearUnsupportedPeers

inductive Effect where
  | dial (peer : String)
  | send (stream : Nat) (bytes : Bytes)
  | close (stream : Nat)
  deriving DecidableEq

namespace State

variable (s : State)

def close (stream : Nat) : List Stream :=
  s.streams.modify stream fun st => { st with closed := true }

def cleanupStream (peer : String) : State × List Effect :=
  match s.streamPool.lookup peer with
  | none => (s, [])
  | some info =>
    ({ s with streamPool := s.streamPool.erase peer, streams := s.close info.stream },
      [.close info.stream])

def pool (peer : String) (direction : Direction) : State :=
  { s with
    streamPool := s.streamPool.insert peer ⟨s.streams.length, direction, false⟩
    streams := s.streams ++ [{ peer }] }

def setPhase (i : Nat) (send : Send) (phase : Phase) : State :=
  { s with sends := s.sends.set i { send with phase } }

/-- `_sendMessage`, with `_getOrCreateStream` up to its first suspension. -/
def sendMessage (peer : String) (message : Bytes) : State × List Effect :=
  let dial := ({ s with sends := s.sends ++ [⟨peer, message, .dialing⟩] }, [.dial peer])
  match s.streamPool.lookup peer with
  | some existing =>
    if existing.closed then dial
    else ({ s with sends := s.sends ++ [⟨peer, message, .gotStream existing.stream⟩] }, [])
  | none => dial

/-- `_dialPeer` when `dialProtocol` has given a stream. -/
def dialed (i : Nat) (send : Send) : Option (State × List Effect) :=
  let stream := s.streams.length
  match send.phase with
  | .dialing => some ((s.pool send.peer .outbound).setPhase i send (.gotStream stream), [])
  | .redialing => some ((s.pool send.peer .outbound).setPhase i send (.gotRetryStream stream), [])
  | _ => none

def dialFailed (i : Nat) (send : Send) (unsupported : Bool) : Option (State × List Effect) :=
  let s := if unsupported then { s with unsupportedPeers := send.peer :: s.unsupportedPeers } else s
  match send.phase with
  | .dialing => some (s.setPhase i send .failed, [])
  | .redialing => some (s.setPhase i send .done, [])
  | _ => none

/-- The `catch` of the first attempt: clean up, and dial once more. -/
def retry (i : Nat) (send : Send) : State × List Effect :=
  let (s, effects) := s.cleanupStream send.peer
  (s.setPhase i send .redialing, effects ++ [.dial send.peer])

def sent (i : Nat) (send : Send) (throws : Bool) : Option (State × List Effect) :=
  let done (stream : Nat) := (s.setPhase i send .done,
    if throws then [] else [Effect.send stream (encodeWithLengthPrefix send.message)])
  match send.phase with
  | .gotStream stream => some (if throws then s.retry i send else done stream)
  | .gotRetryStream stream => some (done stream)
  | _ => none

/-- An inbound stream takes the place of another inbound one, but not of an outbound one. -/
def onInboundStream (peer : String) : State :=
  match s.streamPool.lookup peer with
  | some existing =>
    if existing.direction = .outbound then { s with streams := s.streams ++ [{ peer }] }
    else s.pool peer .inbound
  | none => s.pool peer .inbound

/-- The `finally` of `_readLoop`. -/
def readEnded (i : Nat) (stream : Stream) : State × List Effect :=
  { s with streams := s.streams.set i { stream with reading := false } }.cleanupStream stream.peer

def stop : State × List Effect :=
  let pooled := s.streamPool.entries.reverse.map (·.2.stream)
  ({ s with
      streamPool := ∅
      streams := pooled.foldl (fun sts i => sts.modify i fun st => { st with closed := true })
        s.streams },
    pooled.map .close)

def step : Event → Option (State × List Effect)
  | .sendMessage peer message => some (s.sendMessage peer message)
  | .dialed i => s.sends[i]?.bind (s.dialed i)
  | .dialFailed i unsupported => s.sends[i]?.bind (s.dialFailed i · unsupported)
  | .caught i => s.sends[i]?.bind fun send =>
      if send.phase = .failed then some (s.retry i send) else none
  | .sent i throws => s.sends[i]?.bind (s.sent i · throws)
  | .inbound peer => some (s.onInboundStream peer, [])
  | .readEnded i => s.streams[i]?.bind fun stream =>
      if stream.reading then some (s.readEnded i stream) else none
  | .disconnected peer => some (s.cleanupStream peer)
  | .stop => some s.stop
  | .clearUnsupportedPeers => some ({ s with unsupportedPeers := [] }, [])

end State

def streams : System State Event Effect where
  init := {}
  step := State.step

end IpfsShard.Bitswap.Streams
