import IpfsShard.Codec.BitswapCodec
import IpfsShard.Lib.Runs
import Mathlib.Data.List.AList

/-! The wants of `SimpleBitswap`: callers wait on deferreds, blocks arrive in messages, and
each message is handled concurrently with everything else, suspended at the hash of a block
and at the store. An event is what runs between two suspensions. -/

namespace IpfsShard.Bitswap
open Codec Runs

inductive WantError where
  | aborted
  | stopped
  deriving DecidableEq

def WantError.message : WantError → String
  | aborted => "Aborted"
  | stopped => "Bitswap stopped"

inductive Settlement where
  | pending
  | resolved (data : Bytes)
  | rejected (err : WantError)
  deriving DecidableEq

/-- A deferred, with the arguments of the call of `want` that made it. -/
structure Deferred where
  cid : CID
  signal : Option Nat
  settlement : Settlement := .pending
  deriving DecidableEq

/-- Deferreds are numbered in the order of their creation. -/
structure PendingWant where
  deferred : Nat
  cid : CID
  deriving DecidableEq

/-- What `want` adds to an abort signal. -/
structure Listener where
  signal : Nat
  key : String
  deferred : Nat
  deriving DecidableEq

/-- A call of `want`, and the deferred whose promise it returned. -/
structure Call where
  cid : CID
  signal : Option Nat
  deferred : Nat
  deriving DecidableEq

/-- Where `_handleMessage` is suspended: at the hash of a block, or at the store, with the
want it has taken out. -/
inductive Phase where
  | hashing (block : Block) (rest : List Block)
  | storing (cid : CID) (data : Bytes) (pending : PendingWant) (rest : List Block)
  | finished
  deriving DecidableEq

structure Handler where
  peer : String
  wantBlocks : List CID
  phase : Phase
  deriving DecidableEq

structure State where
  pendingWants : AList (fun _ : String => PendingWant) := ∅
  deferreds : List Deferred := []
  listeners : List Listener := []
  aborted : List Nat := []
  calls : List Call := []
  handlers : List Handler := []
  deriving DecidableEq

inductive Event where
  | want (cid : CID) (signal : Option Nat)
  | abort (signal : Nat)
  | message (peer : String) (bytes : Bytes) (fuel : Nat)
  | hashed (handler : Nat)
  | stored (handler : Nat)
  | stop

/-- What the outside sees. A put names the want it is made for. -/
inductive Effect where
  | broadcast (cid : CID)
  | put (cid : CID) (data : Bytes) (pending : PendingWant)
  | settle (deferred : Nat) (settlement : Settlement)
  | serve (peer : String) (wantBlocks : List CID)
  deriving DecidableEq

def Deferred.settle (d : Deferred) (settlement : Settlement) : Deferred :=
  if d.settlement = .pending then { d with settlement } else d

def settle (deferreds : List Deferred) (deferred : Nat) (settlement : Settlement) :
    List Deferred :=
  deferreds.modify deferred (·.settle settlement)

def Handler.next (h : Handler) : List Block → Handler × List Effect
  -- behind the last block come the wants of the message
  | [] => ({ h with phase := .finished }, [.serve h.peer h.wantBlocks])
  | block :: rest => ({ h with phase := .hashing block rest }, [])

namespace State

variable (M : Multiformats) (s : State)

def want (cid : CID) (signal : Option Nat) : State × List Effect :=
  let key := M.toString cid
  match s.pendingWants.lookup key with
  -- a caller that joins: its signal is not looked at
  | some existing => ({ s with calls := s.calls ++ [⟨cid, signal, existing.deferred⟩] }, [])
  | none =>
    let deferred := s.deferreds.length
    ({ s with
        pendingWants := s.pendingWants.insert key ⟨deferred, cid⟩
        deferreds := s.deferreds ++ [{ cid, signal }]
        listeners := s.listeners ++ signal.toList.map (⟨·, key, deferred⟩)
        calls := s.calls ++ [⟨cid, signal, deferred⟩] },
      [.broadcast cid])

def onAbort (l : Listener) : State :=
  { s with
    -- by key, whatever want is under the key by now
    pendingWants := s.pendingWants.erase l.key
    deferreds := settle s.deferreds l.deferred (.rejected .aborted) }

def abort (signal : Nat) : State × List Effect :=
  let fired := s.listeners.filter (·.signal = signal)
  ({ fired.foldl onAbort s with aborted := signal :: s.aborted },
    fired.map fun l => .settle l.deferred (.rejected .aborted))

def message (peer : String) (decoded : DecodedMessage) : State × List Effect :=
  let (h, effects) := Handler.next ⟨peer, decoded.wantBlocks, .finished⟩ decoded.blocks
  ({ s with handlers := s.handlers ++ [h] }, effects)

def resume (i : Nat) (h : Handler) (rest : List Block) : State × List Effect :=
  let (h, effects) := h.next rest
  ({ s with handlers := s.handlers.set i h }, effects)

def hashed (i : Nat) (h : Handler) (block : Block) (rest : List Block) : State × List Effect :=
  match prefixToCID M block.cidPrefix block.data with
  | none => s.resume i h rest
  | some cid =>
    let key := M.toString cid
    match s.pendingWants.lookup key with
    | none => s.resume i h rest
    | some pending =>
      ({ s with
          -- taken out before the store is waited for
          pendingWants := s.pendingWants.erase key
          handlers := s.handlers.set i { h with phase := .storing cid block.data pending rest } },
        [.put cid block.data pending])

def stored (i : Nat) (h : Handler) (data : Bytes) (pending : PendingWant) (rest : List Block) :
    State × List Effect :=
  -- also where the put has failed, which is only logged
  let s := { s with deferreds := settle s.deferreds pending.deferred (.resolved data) }
  let (s, effects) := s.resume i h rest
  (s, .settle pending.deferred (.resolved data) :: effects)

def stop : State × List Effect :=
  -- an `AList` has its newest entry in front
  let wants := s.pendingWants.entries.reverse.map (·.2.deferred)
  ({ s with
      pendingWants := ∅
      deferreds := wants.foldl (settle · · (.rejected .stopped)) s.deferreds },
    wants.map (.settle · (.rejected .stopped)))

def step : Event → Option (State × List Effect)
  | .want cid signal => some (s.want M cid signal)
  | .abort signal => if signal ∈ s.aborted then none else some (s.abort signal)
  | .message peer bytes fuel => (decodeMessage M fuel bytes).map (s.message peer)
  | .hashed i =>
    match s.handlers[i]? with
    | some h =>
      match h.phase with
      | .hashing block rest => some (s.hashed M i h block rest)
      | _ => none
    | none => none
  | .stored i =>
    match s.handlers[i]? with
    | some h =>
      match h.phase with
      | .storing _ data pending rest => some (s.stored i h data pending rest)
      | _ => none
    | none => none
  | .stop => some s.stop

end State

def wants (M : Multiformats) : System State Event Effect where
  init := {}
  step := State.step M

def emptyBlockMessage : Bytes := [0x1a, 0x08, 0x0a, 0x04, 0x01, 0x55, 0x12, 0x20, 0x12, 0x00]

end IpfsShard.Bitswap
