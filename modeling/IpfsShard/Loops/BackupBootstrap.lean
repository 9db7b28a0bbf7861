import IpfsShard.Backup.SaveRounds
import IpfsShard.Loops.Startup

/-! The backup bootstrap loop: rounds that dial the stored peers, on a timer and when a peer
disconnects, and rounds that save the connected ones. -/

namespace IpfsShard.Loops
open Backup

def minPeerThreshold : Nat := 25

structure BackupLoop (α : Type) where
  started : Bool := false
  stopped : Bool := false
  bootstrapTimer : Bool := false
  saveTimer : Bool := false
  previouslySaved : List α := []

/-- `connections` is the number of connections at that time. -/
inductive BackupEvent (α : Type) where
  | start
  | bootstrapTick (connections : Nat)
  | saveTick (round : Round α)
  | disconnect (connections : Nat)
  | stop

/-- What a suspended call waits for. -/
inductive BackupCall (α : Type) where
  | startup
  | loading
  | dialing (rest : List α)
  | saving (peersToSave : List α)

/-- The stored array that a load has found, or the end of a dial or a save. Both of these go on
in the same way whether they fail or not. -/
inductive BackupResult where
  | loaded (stored : Option (List String))
  | settled

def BackupCall.isRound {α : Type} : BackupCall α → Bool
  | loading | dialing _ => true
  | startup | saving _ => false

def startsRound {α : Type} (s : BackupLoop α) : BackupEvent α → Bool
  | .bootstrapTick connections | .disconnect connections =>
    !s.stopped && decide (connections < minPeerThreshold)
  | .start | .saveTick _ | .stop => false

section
variable {α : Type} [DecidableEq α] (M : Multiaddrs α) (officialBootstrapAddrs : List α)

/-- The first part of a bootstrap round, up to the load of the backup peers. -/
def bootstrapRound (stopped : Bool) (connections : Nat) :
    List (Call α) × Option (BackupCall α) :=
  if stopped then ([], none)
  else if connections ≥ minPeerThreshold then ([], none)
  else ([.loadBackupPeers], some .loading)

def dialBackupPeers (stopped : Bool) : List α → List (Call α) × Option (BackupCall α)
  | [] => ([], none)
  | peerAddr :: rest =>
    if stopped then ([], none)
    else
      match M.peerId peerAddr with
      | none => dialBackupPeers stopped rest
      | some _ => ([.dial peerAddr], some (.dialing rest))

/-- A save round, up to the put; the other half is the end of `saving`. -/
def saveRound (s : BackupLoop α) (round : Round α) :
    Option (List (Call α) × Option (BackupCall α)) :=
  if s.stopped then some ([], none)
  else if round.shuffled.Perm round.connectedAddrs then
    let peersToSave := selectPeersToSave M round.connectedAddrs round.shuffled
      officialBootstrapAddrs s.previouslySaved maxBackupPeers
    some ([.saveBackupPeers (toStored M peersToSave)], some (.saving peersToSave))
  else none

def backupBootstrapLoop :
    Async.Program (BackupLoop α) (BackupEvent α) (BackupCall α) BackupResult (Call α) where
  init := {}
  on s
    | .start =>
      if s.started then none
      else some ({ s with started := true, bootstrapTimer := true, saveTimer := true },
        [.loadBackupPeers], [.startup])
    | .bootstrapTick connections =>
      if s.bootstrapTimer then
        let (calls, round) := bootstrapRound s.stopped connections
        some (s, calls, round.toList)
      else none
    | .saveTick round =>
      if s.saveTimer then
        (saveRound M officialBootstrapAddrs s round).map fun r => (s, r.1, r.2.toList)
      else none
    -- the listener stays registered
    | .disconnect connections =>
      if !s.started then none
      else if connections < minPeerThreshold && !s.stopped then
        let (calls, round) := bootstrapRound s.stopped connections
        some (s, calls, round.toList)
      else some (s, [], [])
    | .stop =>
      if !s.started then none
      else if s.stopped then some (s, [], [])
      else some ({ s with stopped := true, bootstrapTimer := false, saveTimer := false }, [], [])
  resume s call result :=
    match call, result with
    | .startup, .loaded stored =>
      some ({ s with previouslySaved := loadBackupPeers M stored }, [], none)
    | .loading, .loaded stored =>
      let (calls, round) := dialBackupPeers M s.stopped (loadBackupPeers M stored)
      some (s, calls, round)
    | .dialing rest, .settled =>
      let (calls, round) := dialBackupPeers M s.stopped rest
      some (s, calls, round)
    | .saving peersToSave, .settled => some ({ s with previouslySaved := peersToSave }, [], none)
    | _, _ => none

variable {M officialBootstrapAddrs}

omit [DecidableEq α] in
theorem bootstrapRound_stopped {stopped : Bool} (h : stopped = true) (connections : Nat) :
    bootstrapRound (α := α) stopped connections = ([], none) := if_pos h

omit [DecidableEq α] in
theorem dialBackupPeers_stopped {stopped : Bool} (h : stopped = true) (peers : List α) :
    dialBackupPeers M stopped peers = ([], none) := by
  cases peers with
  | nil => rfl
  | cons peerAddr rest => rw [dialBackupPeers, if_pos h]

theorem saveRound_stopped {s : BackupLoop α} (h : s.stopped = true) (round : Round α) :
    saveRound M officialBootstrapAddrs s round = some ([], none) := if_pos h

theorem backupBootstrapLoop_stops : (backupBootstrapLoop M officialBootstrapAddrs).Stops .stop
    Call.Starts (fun s => s.stopped = true) where
  stopped s r h := by
    simp only [backupBootstrapLoop] at h
    split_ifs at h with hstarted hstopped
    · cases h
      exact hstopped
    · cases h
      rfl
  on s e r hs h := by
    cases e with
    | start =>
      simp only [backupBootstrapLoop] at h
      split_ifs at h
      cases h
      exact ⟨hs, by simp [Call.Starts]⟩
    | bootstrapTick connections =>
      simp only [backupBootstrapLoop, bootstrapRound_stopped hs] at h
      split_ifs at h
      cases h
      exact ⟨hs, by simp⟩
    | saveTick round =>
      simp only [backupBootstrapLoop, saveRound_stopped hs] at h
      split_ifs at h
      cases h
      exact ⟨hs, by simp⟩
    | disconnect connections =>
      simp only [backupBootstrapLoop, bootstrapRound_stopped hs] at h
      split_ifs at h
      all_goals
        cases h
        exact ⟨hs, by simp⟩
    | stop =>
      simp only [backupBootstrapLoop] at h
      split_ifs at h
      cases h
      exact ⟨hs, by simp⟩
  resume s call result r hs h := by
    cases call <;> cases result <;>
      simp only [backupBootstrapLoop, dialBackupPeers_stopped hs, reduceCtorEq] at h
    all_goals
      cases h
      exact ⟨hs, by simp⟩

end

end IpfsShard.Loops
