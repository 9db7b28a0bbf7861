import IpfsShard.Backup.Selector
import IpfsShard.Cid
import IpfsShard.Lib.Async

/-! The bootstrap dial loop and the DHT discovery loop. Every call that they make is one output;
what they write to the log is left out. -/

namespace IpfsShard.Loops
open Backup

inductive Call (α : Type) where
  | pinsLs
  | provide (cid : CID)
  | setStatus (cid : CID)
  | dial (addr : α)
  | dhtPut (key : Bytes)
  | loadBackupPeers
  | saveBackupPeers (stored : List String)
  deriving DecidableEq

/-- The calls that a stopped loop may not start. -/
def Call.Starts {α : Type} : Call α → Prop
  | provide _ | dial _ | dhtPut _ | saveBackupPeers _ => True
  | pinsLs | setStatus _ | loadBackupPeers => False

structure DialLoop where
  started : Bool := false
  stopped : Bool := false
  dialTimer : Bool := false

/-- `connected` are the `remotePeer` texts of the connections at that time. -/
inductive DialEvent where
  | start (connected : List String)
  | tick (connected : List String)
  | stop

/-- A round that waits for a dial, and the position behind the dialled address. -/
structure Dialing where
  connectedPeerIds : List String
  next : Nat

section
variable {α : Type} (M : Multiaddrs α) (bootstrapAddrs : List α)

def dialFrom (stopped : Bool) (connectedPeerIds : List String) :
    List α → Nat → List (Call α) × Option Dialing
  | [], _ => ([], none)
  | bootstrapAddr :: rest, i =>
    if stopped then ([], none)
    else
      match M.peerId bootstrapAddr with
      | none => dialFrom stopped connectedPeerIds rest (i + 1)
      | some peerId =>
        if connectedPeerIds.contains peerId then dialFrom stopped connectedPeerIds rest (i + 1)
        else ([.dial bootstrapAddr], some ⟨connectedPeerIds, i + 1⟩)

def dialBootstrapPeers (stopped : Bool) (connected : List String) :
    List (Call α) × Option Dialing :=
  if stopped then ([], none) else dialFrom M stopped connected bootstrapAddrs 0

/-- Without bootstrap addresses there is no loop, and the stop function does nothing. -/
def bootstrapDialLoop : Async.Program DialLoop DialEvent Dialing Unit (Call α) where
  init := {}
  on s
    | .start connected =>
      if s.started then none
      else if bootstrapAddrs.length = 0 then some ({ s with started := true }, [], [])
      else
        let (calls, round) := dialBootstrapPeers M bootstrapAddrs s.stopped connected
        some ({ s with started := true, dialTimer := true }, calls, round.toList)
    | .tick connected =>
      if s.dialTimer then
        let (calls, round) := dialBootstrapPeers M bootstrapAddrs s.stopped connected
        some (s, calls, round.toList)
      else none
    | .stop =>
      if !s.started then none
      else if bootstrapAddrs.length = 0 ∨ s.stopped then some (s, [], [])
      else some ({ s with stopped := true, dialTimer := false }, [], [])
  -- a dial that fails is caught
  resume s round _ :=
    let (calls, round) := dialFrom M s.stopped round.connectedPeerIds
      (bootstrapAddrs.drop round.next) round.next
    some (s, calls, round)

variable {M bootstrapAddrs}

theorem dialFrom_stopped {stopped : Bool} {addrs : List α} (h : stopped = true ∨ addrs = [])
    (connectedPeerIds : List String) (i : Nat) :
    dialFrom M stopped connectedPeerIds addrs i = ([], none) := by
  cases addrs with
  | nil => rfl
  | cons addr addrs =>
    have hstopped := h.resolve_right (List.cons_ne_nil _ _)
    rw [dialFrom, if_pos hstopped]

theorem dialBootstrapPeers_stopped {stopped : Bool} (h : stopped = true ∨ bootstrapAddrs = [])
    (connected : List String) :
    dialBootstrapPeers M bootstrapAddrs stopped connected = ([], none) := by
  unfold dialBootstrapPeers
  split
  · rfl
  · exact dialFrom_stopped h connected 0

theorem bootstrapDialLoop_stops : (bootstrapDialLoop M bootstrapAddrs).Stops .stop Call.Starts
    (fun s => s.stopped = true ∨ bootstrapAddrs = []) where
  stopped s r h := by
    simp only [bootstrapDialLoop] at h
    split_ifs at h with hstarted hnone
    · cases h
      exact hnone.symm.imp id List.length_eq_zero_iff.mp
    · cases h
      exact Or.inl rfl
  on s e r hs h := by
    cases e with
    | start connected =>
      simp only [bootstrapDialLoop, dialBootstrapPeers_stopped hs] at h
      split_ifs at h with hstarted hnone
      · cases h
        exact ⟨hs, by simp⟩
      · cases h
        exact ⟨hs, by simp⟩
    | tick connected =>
      simp only [bootstrapDialLoop, dialBootstrapPeers_stopped hs] at h
      split_ifs at h
      cases h
      exact ⟨hs, by simp⟩
    | stop =>
      simp only [bootstrapDialLoop] at h
      split_ifs at h
      · cases h
        exact ⟨hs, by simp⟩
      · cases h
        exact ⟨Or.inl rfl, by simp⟩
  resume s round result r hs h := by
    have hrest : s.stopped = true ∨ bootstrapAddrs.drop round.next = [] :=
      hs.imp id fun hnil => by rw [hnil, List.drop_nil]
    simp only [bootstrapDialLoop, dialFrom_stopped hrest] at h
    cases h
    exact ⟨hs, by simp⟩

end

structure DiscoveryLoop where
  started : Bool := false
  stopped : Bool := false
  announceTimer : Bool := false
  announceCounter : Nat := 0

/-- `dhtService` says whether there is one, `announceKey` are the random bytes. -/
inductive DiscoveryEvent where
  | start (dhtService : Bool) (announceKey : Bytes)
  | tick (dhtService : Bool) (announceKey : Bytes)
  | stop

/-- How a put goes on: with an event, to its end, or by throwing. -/
inductive PutResult where
  | event
  | done
  | failed

section
variable {α : Type}

def announceToNetwork (s : DiscoveryLoop) (dhtService : Bool) (announceKey : Bytes) :
    DiscoveryLoop × List (Call α) × List Bytes :=
  if s.stopped then (s, [], [])
  else if !dhtService then (s, [], [])
  else ({ s with announceCounter := s.announceCounter + 1 }, [.dhtPut announceKey], [announceKey])

/-- A suspended call is the key that it puts. -/
def dhtDiscoveryLoop : Async.Program DiscoveryLoop DiscoveryEvent Bytes PutResult (Call α) where
  init := {}
  on s
    | .start dhtService announceKey =>
      if s.started then none
      else some (announceToNetwork { s with started := true, announceTimer := true } dhtService
        announceKey)
    | .tick dhtService announceKey =>
      if s.announceTimer then some (announceToNetwork s dhtService announceKey) else none
    | .stop =>
      if !s.started then none
      else if s.stopped then some (s, [], [])
      else some ({ s with stopped := true, announceTimer := false }, [], [])
  resume s announceKey result :=
    match result with
    | .event => some (s, [], some announceKey)
    | .done | .failed => some (s, [], none)

theorem announceToNetwork_stopped {s : DiscoveryLoop} (h : s.stopped = true) (dhtService : Bool)
    (announceKey : Bytes) : announceToNetwork (α := α) s dhtService announceKey = (s, [], []) :=
  if_pos h

theorem dhtDiscoveryLoop_stops : (dhtDiscoveryLoop (α := α)).Stops .stop Call.Starts
    (fun s => s.stopped = true) where
  stopped s r h := by
    simp only [dhtDiscoveryLoop] at h
    split_ifs at h with hstarted hstopped
    · cases h
      exact hstopped
    · cases h
      rfl
  on s e r hs h := by
    cases e with
    | start dhtService announceKey =>
      have hquiet := announceToNetwork_stopped (α := α)
        (s := { s with started := true, announceTimer := true }) hs dhtService announceKey
      simp only [dhtDiscoveryLoop, hquiet] at h
      split_ifs at h
      cases h
      exact ⟨hs, by simp⟩
    | tick dhtService announceKey =>
      simp only [dhtDiscoveryLoop, announceToNetwork_stopped hs] at h
      split_ifs at h
      cases h
      exact ⟨hs, by simp⟩
    | stop =>
      simp only [dhtDiscoveryLoop] at h
      split_ifs at h
      cases h
      exact ⟨hs, by simp⟩
  resume s announceKey result r hs h := by
    cases result <;> cases h <;> exact ⟨hs, by simp⟩

end

end IpfsShard.Loops
