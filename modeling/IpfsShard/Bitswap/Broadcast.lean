import IpfsShard.Bitswap.Steps
import IpfsShard.Bitswap.StreamSteps

/-! `SimpleBitswap` between `start()` and `stop()`: its wants and its streams together, with
the connections of libp2p. A new want goes to the peers that are connected, a new peer is
sent the wants that are pending. -/

namespace IpfsShard.Bitswap.Broadcast
open Codec Runs

structure Moment where
  time : Nat
  sends : Nat
  unsupportedPeers : List String
  deriving DecidableEq

def later (m m' : Moment) : Moment := if m.time ≤ m'.time then m' else m

/-- `broadcastedTo` holds pairs of a pending want (by its deferred) and a peer, and
`broadcasts` tells for which want a send is made. The last three fields are observed, not
read: the number of steps, when each want was created, and when each peer was connected. -/
structure State where
  wants : Bitswap.State := {}
  streams : Streams.State := {}
  connections : List String := []
  broadcastedTo : List (Nat × String) := []
  broadcasts : List (Nat × Nat) := []
  time : Nat := 0
  created : List Moment := []
  connected : AList (fun _ : String => Moment) := ∅
  deriving DecidableEq

inductive Event where
  | wants (e : Bitswap.Event)
  | streams (e : Streams.Event)
  | connect (peer : String)
  | disconnect (peer : String)

inductive Effect where
  | wants (effect : Bitswap.Effect)
  | streams (effect : Streams.Effect)
  deriving DecidableEq

def forEach {α σ ω : Type} (pass : α → σ → σ × List ω) : List α → σ → σ × List ω
  | [], s => (s, [])
  | a :: l, s =>
    let (s, o) := pass a s
    let (s, o') := forEach pass l s
    (s, o ++ o')

def broadcastCids (effects : List Bitswap.Effect) : List CID :=
  effects.filterMap fun
    | .broadcast cid => some cid
    | _ => none

namespace State

variable (M : Multiformats)

def now (s : State) : Moment := ⟨s.time, s.streams.sends.length, s.streams.unsupportedPeers⟩

def sendMessage (peer : String) (message : Bytes) (s : State) : State × List Effect :=
  let (streams, effects) := s.streams.sendMessage peer message
  ({ s with streams }, effects.map .streams)

/-- The callback of `_broadcastWant` for one connection, up to its first suspension. -/
def broadcastTo (pending : PendingWant) (message : Bytes) (peer : String) (s : State) :
    State × List Effect :=
  if (pending.deferred, peer) ∈ s.broadcastedTo ∨ peer ∈ s.streams.unsupportedPeers then (s, [])
  else
    { s with
      broadcasts := s.broadcasts ++ [(s.streams.sends.length, pending.deferred)] }.sendMessage
      peer message

def broadcastWant (cid : CID) (s : State) : State × List Effect :=
  match s.wants.pendingWants.lookup (M.toString cid) with
  | none => (s, [])
  | some pending => forEach (broadcastTo pending (encodeWantBlock M cid)) s.connections s

def onConnect (peer : String) (s : State) : State × List Effect :=
  if peer ∈ s.streams.unsupportedPeers then (s, [])
  else
    forEach (fun pending => sendMessage peer (encodeWantBlock M pending.cid))
      (s.wants.pendingWants.entries.reverse.map (·.2)) s

def onWants (s : State) (wants : Bitswap.State) (effects : List Bitswap.Effect) :
    State × List Effect :=
  let cids := broadcastCids effects
  let (s, o) := forEach (broadcastWant M) cids
    { s with wants, created := s.created ++ cids.map fun _ => s.now }
  (s, effects.map .wants ++ o)

def onStreams (s : State) (e : Streams.Event) (streams : Streams.State) : State :=
  let broadcastedTo := match e with
    | .sent i false => (s.broadcasts.filter (·.1 = i)).filterMap fun b =>
        s.streams.sends[i]?.map fun send => (b.2, send.peer)
    | _ => []
  { s with streams, broadcastedTo := s.broadcastedTo ++ broadcastedTo }

def connect (peer : String) (s : State) : State × List Effect :=
  let s' := { s with connections := s.connections ++ [peer] }
  -- the topology is told once for each peer
  if peer ∈ s.connections then (s', [])
  else { s' with connected := s.connected.insert peer s.now }.onConnect M peer

def disconnect (peer : String) (s : State) : State × List Effect :=
  let s' := { s with connections := s.connections.erase peer }
  if peer ∈ s'.connections then (s', [])
  else
    let (streams, effects) := s.streams.cleanupStream peer
    ({ s' with streams }, effects.map .streams)

/-- What is sent, and which streams are cleaned up by peer, comes from the other events. -/
def act (s : State) : Event → Option (State × List Effect)
  | .wants .stop => none
  | .wants e => (s.wants.step M e).map fun r => s.onWants M r.1 r.2
  | .streams (.sendMessage ..) | .streams (.disconnected _) | .streams .stop => none
  | .streams e => (s.streams.step e).map fun r => (s.onStreams e r.1, r.2.map .streams)
  | .connect peer => some (s.connect M peer)
  | .disconnect peer => if peer ∈ s.connections then some (s.disconnect peer) else none

def step (s : State) (e : Event) : Option (State × List Effect) :=
  (s.act M e).map fun r => ({ r.1 with time := s.time + 1 }, r.2)

end State

def node (M : Multiformats) (connections : List String) : System State Event Effect where
  init :=
    { connections
      connected := Table.insertAll ∅ (connections.map fun peer => (peer, ⟨0, 0, []⟩))
      time := 1 }
  step := State.step M

end IpfsShard.Bitswap.Broadcast
