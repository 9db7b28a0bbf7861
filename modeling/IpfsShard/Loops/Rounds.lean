import IpfsShard.Lib.Histories
import IpfsShard.Loops.BackupBootstrap
import IpfsShard.Loops.ReprovideRun

/-! What the background loops do round by round, when rounds overlap and are stopped on their way. -/

namespace IpfsShard.Loops
open Runs Async Backup

variable {α : Type}

section
variable (M : Multiaddrs α) (bootstrapAddrs : List α)

def toDial (connectedPeerIds : List String) (addrs : List α) : List α :=
  addrs.filter fun addr => (M.peerId addr).any fun peerId => !connectedPeerIds.contains peerId

def dialPlan (connectedPeerIds : List String) (addrs : List α) : List (Call α) :=
  (toDial M connectedPeerIds addrs).map .dial

def DialEvent.connected? : DialEvent → Option (List String)
  | start connected | tick connected => some connected
  | stop => none

def startsDials (s : DialLoop) (e : DialEvent) : Bool :=
  !s.stopped && e.connected?.any fun connected => !(dialPlan M connected bootstrapAddrs).isEmpty

def Dialing.plan (round : Dialing) : List (Call α) :=
  dialPlan M round.connectedPeerIds (bootstrapAddrs.drop round.next)

def DialHistory (e : DialEvent) (s : DialLoop) (round : Option Dialing)
    (trace : List (Trace Unit (Call α))) : Prop :=
  ∃ connected, e.connected? = some connected ∧ Progress (dialPlan M connected bootstrapAddrs)
    (s.stopped = true) (round.map (Dialing.plan M bootstrapAddrs)) trace

variable {M bootstrapAddrs}

theorem dialFrom_nextOf {addrs : List α} (connectedPeerIds : List String) {i : Nat}
    (haddrs : bootstrapAddrs.drop i = addrs) :
    (dialFrom M false connectedPeerIds addrs i).1 = (nextOf (dialPlan M connectedPeerIds addrs)).1 ∧
      (dialFrom M false connectedPeerIds addrs i).2.map (Dialing.plan M bootstrapAddrs) =
        (nextOf (dialPlan M connectedPeerIds addrs)).2 := by
  induction addrs generalizing i with
  | nil => exact ⟨rfl, rfl⟩
  | cons addr addrs ih =>
    have hdrop : bootstrapAddrs.drop (i + 1) = addrs := by
      rw [← List.drop_drop, haddrs, List.drop_one, List.tail_cons]
    unfold dialFrom dialPlan toDial
    rw [if_neg Bool.false_ne_true]
    cases hpeer : M.peerId addr with
    | none =>
      rw [List.filter_cons_of_neg (by simp [hpeer])]
      exact ih hdrop
    | some peerId =>
      dsimp only
      cases hconnected : connectedPeerIds.contains peerId with
      | true =>
        rw [if_pos rfl, List.filter_cons_of_neg (by simpa [hpeer] using hconnected)]
        exact ih hdrop
      | false =>
        rw [if_neg Bool.false_ne_true, List.filter_cons_of_pos (by simpa [hpeer] using hconnected)]
        refine ⟨rfl, ?_⟩
        rw [Option.map_some, Dialing.plan, hdrop]
        rfl

theorem dialBootstrapPeers_nextOf (connected : List String) :
    (dialBootstrapPeers M bootstrapAddrs false connected).1 =
        (nextOf (dialPlan M connected bootstrapAddrs)).1 ∧
      (dialBootstrapPeers M bootstrapAddrs false connected).2.map (Dialing.plan M bootstrapAddrs) =
        (nextOf (dialPlan M connected bootstrapAddrs)).2 := by
  unfold dialBootstrapPeers
  exact dialFrom_nextOf connected bootstrapAddrs.drop_zero

theorem dialBootstrapPeers_begins {connected : List String} {e : DialEvent} {s : DialLoop}
    (he : e.connected? = some connected) (hstarts : startsDials M bootstrapAddrs s e = true) :
    ∃ round, (dialBootstrapPeers M bootstrapAddrs s.stopped connected).2 = some round ∧
      DialHistory M bootstrapAddrs e s (some round)
        ((dialBootstrapPeers M bootstrapAddrs s.stopped connected).1.map .started) := by
  obtain ⟨hstopped, hany⟩ := (Bool.and_eq_true _ _).mp hstarts
  rw [Bool.not_eq_true'] at hstopped
  rw [he, Option.any_some, Bool.not_eq_true', List.isEmpty_eq_false_iff] at hany
  obtain ⟨hcalls, hround⟩ := @dialBootstrapPeers_nextOf _ M bootstrapAddrs connected
  obtain ⟨call, rest, hplan⟩ := List.exists_cons_of_ne_nil hany
  have hwaits : (nextOf (dialPlan M connected bootstrapAddrs)).2 = some rest := by rw [hplan]; rfl
  obtain ⟨round, hsome, -⟩ := Option.map_eq_some_iff.mp (hround.trans hwaits)
  rw [hstopped]
  refine ⟨round, hsome, connected, he, ?_⟩
  rw [← hsome, hcalls, hround]
  exact Progress.begin _

theorem dialBootstrapPeers_silent {connected : List String} {e : DialEvent} {s : DialLoop}
    (he : e.connected? = some connected) (hstarts : startsDials M bootstrapAddrs s e = false) :
    dialBootstrapPeers M bootstrapAddrs s.stopped connected = ([], none) := by
  cases hstopped : s.stopped with
  | true => exact dialBootstrapPeers_stopped (Or.inl rfl) connected
  | false =>
    have hempty : dialPlan M connected bootstrapAddrs = [] := by
      simpa [startsDials, hstopped, he] using hstarts
    obtain ⟨hcalls, hround⟩ := @dialBootstrapPeers_nextOf _ M bootstrapAddrs connected
    rw [hempty, nextOf] at hcalls hround
    exact Prod.ext hcalls (Option.map_eq_none_iff.mp hround)

theorem bootstrapDialLoop_keeps : (bootstrapDialLoop M bootstrapAddrs).Keeps
    (startsDials M bootstrapAddrs) (fun s t => s.stopped = true → t.stopped = true)
    (DialHistory M bootstrapAddrs) where
  begins s e r h hstarts := by
    cases e with
    | start connected =>
      simp only [bootstrapDialLoop] at h
      split_ifs at h with hstarted hnone
      · cases h
        obtain rfl := List.length_eq_zero_iff.mp hnone
        simp [startsDials, dialPlan, toDial, DialEvent.connected?] at hstarts
      · cases h
        obtain ⟨round, hround, hhistory⟩ := dialBootstrapPeers_begins rfl hstarts
        refine ⟨round, ?_, hhistory⟩
        dsimp only
        rw [hround]
        rfl
    | tick connected =>
      simp only [bootstrapDialLoop] at h
      split_ifs at h
      cases h
      obtain ⟨round, hround, hhistory⟩ := dialBootstrapPeers_begins rfl hstarts
      refine ⟨round, ?_, hhistory⟩
      dsimp only
      rw [hround]
      rfl
    | stop => simp [startsDials, DialEvent.connected?] at hstarts
  silent s e r h hstarts := by
    cases e with
    | start connected =>
      simp only [bootstrapDialLoop, dialBootstrapPeers_silent rfl hstarts] at h
      split_ifs at h
      · cases h
        exact ⟨rfl, rfl⟩
      · cases h
        exact ⟨rfl, rfl⟩
    | tick connected =>
      simp only [bootstrapDialLoop, dialBootstrapPeers_silent rfl hstarts] at h
      split_ifs at h
      cases h
      exact ⟨rfl, rfl⟩
    | stop =>
      simp only [bootstrapDialLoop] at h
      split_ifs at h
      · cases h
        exact ⟨rfl, rfl⟩
      · cases h
        exact ⟨rfl, rfl⟩
  goes e s round trace result r h hr := by
    obtain ⟨connected, he, hprogress⟩ := h
    refine ⟨connected, he, ?_⟩
    cases hr
    dsimp only
    cases hstopped : s.stopped with
    | true =>
      rw [dialFrom_stopped (Or.inl rfl)]
      rw [hstopped] at hprogress
      exact hprogress.halt rfl result
    | false =>
      obtain ⟨hcalls, hround⟩ :=
        @dialFrom_nextOf _ M bootstrapAddrs _ round.connectedPeerIds round.next rfl
      rw [hcalls, hround]
      rw [hstopped] at hprogress
      exact hprogress.next result
  on s e r h hs := by
    cases e <;> simp only [bootstrapDialLoop] at h <;> split_ifs at h <;> cases h <;>
      first | exact hs | rfl
  resume s round result r h hs := by
    cases h
    exact hs
  stable e s s' round trace hR h := by
    obtain ⟨connected, he, hprogress⟩ := h
    exact ⟨connected, he, hprogress.mono hR⟩

/-- However the rounds overlap, each of them dials in turn. -/
theorem dialHistories_of_run {es : List (Async.Event DialEvent Unit)} {s : State DialLoop Dialing}
    {out : List (Nat × Entry DialEvent Unit (Call α))}
    (h : ((bootstrapDialLoop M bootstrapAddrs).traced (startsDials M bootstrapAddrs)).Run System.any
      es s out) : Program.Histories (DialHistory M bootstrapAddrs) s out :=
  bootstrapDialLoop_keeps.histories h

theorem dialHistories_twoRounds : ∃ s out,
    ((bootstrapDialLoop onTwoAddrs [oneAddr, otherAddr]).traced
      (startsDials onTwoAddrs [oneAddr, otherAddr])).Run System.any
      [.on (.start []), .on (.tick []), .resume 1 (), .on .stop, .resume 0 ()] s out ∧
    ((traceOf 0 out).filterMap Trace.call? = [.dial oneAddr] ∧
      (traceOf 1 out).filterMap Trace.call? = [.dial oneAddr, .dial otherAddr]) ∧
    Program.Histories (DialHistory onTwoAddrs [oneAddr, otherAddr]) s out := by
  obtain ⟨s, out, hrun, hcalls⟩ := System.exists_run
    (T := (bootstrapDialLoop onTwoAddrs [oneAddr, otherAddr]).traced
      (startsDials onTwoAddrs [oneAddr, otherAddr]))
    [.on (.start []), .on (.tick []), .resume 1 (), .on .stop, .resume 0 ()]
    (p := fun r => (traceOf 0 r.2).filterMap Trace.call? = [.dial oneAddr] ∧
      (traceOf 1 r.2).filterMap Trace.call? = [.dial oneAddr, .dial otherAddr]) (by decide +kernel)
  exact ⟨s, out, hrun, hcalls, dialHistories_of_run hrun⟩

end

section
variable [DecidableEq α] (M : Multiaddrs α) (officialBootstrapAddrs : List α)

def backupPlan (peers : List α) : List (Call α) :=
  (peers.filter fun peerAddr => (M.peerId peerAddr).isSome).map .dial

def BackupEvent.connections? : BackupEvent α → Option Nat
  | bootstrapTick connections | disconnect connections => some connections
  | start | saveTick _ | stop => none

def startsCall (s : BackupLoop α) : BackupEvent α → Bool
  | .start => true
  | .saveTick _ => !s.stopped
  | e => startsRound s e

/-- What each call of the loop has done: the load at the start, a save, or a round of dials. A round
below the threshold loads the backup peers and dials in turn those with a peer id; only a stop ends
it early. -/
inductive BackupHistory (e : BackupEvent α) (s : BackupLoop α) :
    Option (BackupCall α) → List (Trace BackupResult (Call α)) → Prop where
  | startup : e = .start → BackupHistory e s (some .startup) [.started .loadBackupPeers]
  | started (stored : Option (List String)) : e = .start →
      BackupHistory e s none [.started .loadBackupPeers, .ended (.loaded stored)]
  | saving {round : Round α} (peers : List α) : e = .saveTick round →
      BackupHistory e s (some (.saving peers)) [.started (.saveBackupPeers (toStored M peers))]
  | saved {round : Round α} (peers : List α) : e = .saveTick round → BackupHistory e s none
      [.started (.saveBackupPeers (toStored M peers)), .ended .settled]
  | loading {connections : Nat} : e.connections? = some connections →
      connections < minPeerThreshold →
      BackupHistory e s (some .loading) [.started .loadBackupPeers]
  | dialing {connections : Nat} (stored : Option (List String)) {rest : Option (List α)}
      {trace : List (Trace BackupResult (Call α))} : e.connections? = some connections →
      connections < minPeerThreshold →
      Progress (backupPlan M (loadBackupPeers M stored)) (s.stopped = true)
        (rest.map (backupPlan M)) trace →
      BackupHistory e s (rest.map .dialing)
        (.started .loadBackupPeers :: .ended (.loaded stored) :: trace)

variable {M officialBootstrapAddrs}

omit [DecidableEq α] in
theorem dialBackupPeers_nextOf (peers : List α) : ∃ rest : Option (List α),
    dialBackupPeers M false peers = ((nextOf (backupPlan M peers)).1, rest.map .dialing) ∧
      rest.map (backupPlan M) = (nextOf (backupPlan M peers)).2 := by
  induction peers with
  | nil => exact ⟨none, rfl, rfl⟩
  | cons peerAddr peers ih =>
    unfold dialBackupPeers
    rw [if_neg Bool.false_ne_true, backupPlan]
    cases hpeer : M.peerId peerAddr with
    | none =>
      rw [List.filter_cons_of_neg (by simp [hpeer])]
      exact ih
    | some peerId =>
      rw [List.filter_cons_of_pos (by simp [hpeer])]
      exact ⟨some peers, rfl, rfl⟩

omit [DecidableEq α] in
theorem bootstrapRound_begins {stopped : Bool} {connections : Nat}
    (h : (!stopped && decide (connections < minPeerThreshold)) = true) :
    connections < minPeerThreshold ∧
      bootstrapRound (α := α) stopped connections = ([.loadBackupPeers], some .loading) := by
  obtain ⟨hstopped, hfew⟩ := (Bool.and_eq_true _ _).mp h
  rw [Bool.not_eq_true'] at hstopped
  have hfew' := of_decide_eq_true hfew
  unfold bootstrapRound
  rw [hstopped, if_neg Bool.false_ne_true, if_neg (Nat.not_le_of_lt hfew')]
  exact ⟨hfew', rfl⟩

omit [DecidableEq α] in
theorem bootstrapRound_silent {stopped : Bool} {connections : Nat}
    (h : (!stopped && decide (connections < minPeerThreshold)) = false) :
    bootstrapRound (α := α) stopped connections = ([], none) := by
  cases hstopped : stopped with
  | true => exact bootstrapRound_stopped rfl connections
  | false =>
    have hmany : ¬ connections < minPeerThreshold := by simpa [hstopped] using h
    unfold bootstrapRound
    rw [if_neg Bool.false_ne_true, if_pos (Nat.le_of_not_lt hmany)]

theorem saveRound_begins {s : BackupLoop α} {round : Round α}
    {r : List (Call α) × Option (BackupCall α)} (hstopped : s.stopped = false)
    (h : saveRound M officialBootstrapAddrs s round = some r) :
    ∃ peers, r = ([.saveBackupPeers (toStored M peers)], some (.saving peers)) := by
  unfold saveRound at h
  rw [hstopped, if_neg Bool.false_ne_true] at h
  split_ifs at h
  cases h
  exact ⟨_, rfl⟩

omit [DecidableEq α] in
theorem backupHistory_dialing {e : BackupEvent α} {s : BackupLoop α} {peers : List α}
    {connections : Nat} {stored : Option (List String)}
    (trace : List (Trace BackupResult (Call α))) (he : e.connections? = some connections)
    (hfew : connections < minPeerThreshold)
    (hnext : Progress (backupPlan M (loadBackupPeers M stored)) (s.stopped = true)
      (nextOf (backupPlan M peers)).2 (trace ++ (nextOf (backupPlan M peers)).1.map .started))
    (hhalt : s.stopped = true →
      Progress (backupPlan M (loadBackupPeers M stored)) (s.stopped = true) none trace) :
    BackupHistory M e s (dialBackupPeers M s.stopped peers).2
      (.started .loadBackupPeers :: .ended (.loaded stored) :: (trace ++
        (dialBackupPeers M s.stopped peers).1.map .started)) := by
  cases hstopped : s.stopped with
  | true =>
    rw [dialBackupPeers_stopped rfl, List.map_nil, List.append_nil]
    have hhalted : Progress (backupPlan M (loadBackupPeers M stored)) (s.stopped = true)
        ((none : Option (List α)).map (backupPlan M)) trace := hhalt hstopped
    exact .dialing stored he hfew hhalted
  | false =>
    obtain ⟨rest, hdial, hrest⟩ := @dialBackupPeers_nextOf _ M peers
    rw [hdial]
    rw [← hrest] at hnext
    exact .dialing stored he hfew hnext

theorem backupBootstrapLoop_keeps : (backupBootstrapLoop M officialBootstrapAddrs).Keeps startsCall
    (fun s t => s.stopped = true → t.stopped = true) (BackupHistory M) where
  begins s e r h hstarts := by
    cases e with
    | start =>
      simp only [backupBootstrapLoop] at h
      split_ifs at h
      cases h
      exact ⟨_, rfl, .startup rfl⟩
    | bootstrapTick connections =>
      obtain ⟨hfew, hround⟩ := bootstrapRound_begins (α := α) hstarts
      simp only [backupBootstrapLoop, hround] at h
      split_ifs at h
      cases h
      exact ⟨_, rfl, .loading rfl hfew⟩
    | saveTick round =>
      simp only [backupBootstrapLoop] at h
      split_ifs at h
      obtain ⟨r', hr', rfl⟩ := Option.map_eq_some_iff.mp h
      obtain ⟨peers, rfl⟩ := saveRound_begins ((Bool.not_eq_true' _).mp hstarts) hr'
      exact ⟨_, rfl, .saving peers rfl⟩
    | disconnect connections =>
      obtain ⟨hfew, hround⟩ := bootstrapRound_begins (α := α) hstarts
      simp only [backupBootstrapLoop, hround] at h
      split_ifs at h with hstarted hcond
      · cases h
        exact ⟨_, rfl, .loading rfl hfew⟩
      · exact absurd (Bool.and_comm _ _ ▸ hstarts) hcond
    | stop => cases hstarts
  silent s e r h hstarts := by
    cases e with
    | start => cases hstarts
    | bootstrapTick connections =>
      simp only [backupBootstrapLoop, bootstrapRound_silent (α := α) hstarts] at h
      split_ifs at h
      cases h
      exact ⟨rfl, rfl⟩
    | saveTick round =>
      simp only [backupBootstrapLoop, saveRound_stopped ((Bool.not_eq_false' _).mp hstarts)] at h
      split_ifs at h
      cases h
      exact ⟨rfl, rfl⟩
    | disconnect connections =>
      simp only [backupBootstrapLoop, bootstrapRound_silent (α := α) hstarts] at h
      split_ifs at h
      · cases h
        exact ⟨rfl, rfl⟩
      · cases h
        exact ⟨rfl, rfl⟩
    | stop =>
      simp only [backupBootstrapLoop] at h
      split_ifs at h
      · cases h
        exact ⟨rfl, rfl⟩
      · cases h
        exact ⟨rfl, rfl⟩
  goes e s call trace result r h hr := by
    generalize hcall : some call = q at h
    cases h with
    | startup he =>
      obtain rfl := Option.some.inj hcall
      cases result with
      | loaded stored =>
        cases hr
        exact .started stored he
      | settled => cases hr
    | saving peers he =>
      obtain rfl := Option.some.inj hcall
      cases result with
      | loaded stored => cases hr
      | settled =>
        cases hr
        exact .saved peers he
    | loading he hfew =>
      obtain rfl := Option.some.inj hcall
      cases result with
      | loaded stored =>
        cases hr
        refine backupHistory_dialing [] he hfew (Progress.begin _) fun hstopped => ?_
        have hnone : ([] : List (Call α × BackupResult)).map Prod.fst <+:
            backupPlan M (loadBackupPeers M stored) := List.nil_prefix
        exact .halted hstopped hnone
      | settled => cases hr
    | dialing stored he hfew hprogress =>
      obtain ⟨rest, rfl, rfl⟩ := Option.map_eq_some_iff.mp hcall.symm
      cases result with
      | loaded stored => cases hr
      | settled =>
        cases hr
        have hnext := hprogress.next .settled
        rw [goesOn, List.append_cons] at hnext
        rw [goesOn, List.cons_append, List.cons_append, List.append_cons]
        exact backupHistory_dialing _ he hfew hnext fun hstopped => hprogress.halt hstopped .settled
    | started stored he => cases hcall
    | saved peers he => cases hcall
  on s e r h hs := by
    cases e with
    | saveTick round =>
      simp only [backupBootstrapLoop, saveRound_stopped hs] at h
      split_ifs at h
      cases h
      exact hs
    | start | bootstrapTick | disconnect | stop =>
      simp only [backupBootstrapLoop] at h
      split_ifs at h
      all_goals
        cases h
        exact hs
  resume s call result r h hs := by
    cases call <;> cases result <;> simp only [backupBootstrapLoop, reduceCtorEq] at h
    all_goals
      cases h
      exact hs
  stable e s s' call trace hR h := by
    cases h with
    | startup he => exact .startup he
    | started stored he => exact .started stored he
    | saving peers he => exact .saving peers he
    | saved peers he => exact .saved peers he
    | loading he hfew => exact .loading he hfew
    | dialing stored he hfew hprogress => exact .dialing stored he hfew (hprogress.mono hR)

/-- However the rounds overlap, each of them dials in turn the backup peers that it has loaded. -/
theorem backupHistories_of_run {es : List (Async.Event (BackupEvent α) BackupResult)}
    {s : State (BackupLoop α) (BackupCall α)}
    {out : List (Nat × Entry (BackupEvent α) BackupResult (Call α))}
    (h : ((backupBootstrapLoop M officialBootstrapAddrs).traced startsCall).Run System.any es s out) :
    Program.Histories (BackupHistory M) s out := backupBootstrapLoop_keeps.histories h

theorem backupHistories_twoRounds : ∃ s out,
    ((backupBootstrapLoop onTwoAddrs [oneAddr]).traced startsCall).Run System.any
      [.on .start, .on (.bootstrapTick 0), .resume 1 (.loaded (some [oneAddr])),
        .on (.saveTick ⟨[otherAddr], [otherAddr]⟩), .on (.disconnect 0), .resume 2 .settled,
        .resume 3 (.loaded (some [otherAddr])), .resume 1 .settled] s out ∧
    ((traceOf 1 out).filterMap Trace.call? = [.loadBackupPeers, .dial oneAddr] ∧
      (traceOf 3 out).filterMap Trace.call? = [.loadBackupPeers, .dial otherAddr]) ∧
    Program.Histories (BackupHistory onTwoAddrs) s out := by
  obtain ⟨s, out, hrun, hcalls⟩ := System.exists_run
    (T := (backupBootstrapLoop onTwoAddrs [oneAddr]).traced startsCall)
    [.on .start, .on (.bootstrapTick 0), .resume 1 (.loaded (some [oneAddr])),
      .on (.saveTick ⟨[otherAddr], [otherAddr]⟩), .on (.disconnect 0), .resume 2 .settled,
      .resume 3 (.loaded (some [otherAddr])), .resume 1 .settled]
    (p := fun r => (traceOf 1 r.2).filterMap Trace.call? = [.loadBackupPeers, .dial oneAddr] ∧
      (traceOf 3 r.2).filterMap Trace.call? = [.loadBackupPeers, .dial otherAddr])
    (by decide +kernel)
  exact ⟨s, out, hrun, hcalls, backupHistories_of_run hrun⟩

end

section
variable (M : Multiformats) (parse : String → Option CID)

def listed (pins : List CID) : List (Trace ReprovideResult (Call α)) :=
  .started .pinsLs :: pins.map fun cid => .ended (.pin cid)

def providedSoFar (pins : List CID) (outcomes : List (CID × Outcome)) :
    List (Trace ReprovideResult (Call α)) :=
  listed pins ++ .ended .done :: outcomes.flatMap fun o => o.2.trace o.1

/-- What a run has done: it lists the pins, and provides them in turn. Only the failure of the
listing or a stop ends it early. -/
inductive ReprovideHistory (s : ReprovideLoop) :
    Option ReprovideCall → List (Trace ReprovideResult (Call α)) → Prop where
  | listing (pins : List CID) :
      ReprovideHistory s (some (.listing (pins.map M.toString))) (listed pins)
  | unlisted (pins : List CID) : ReprovideHistory s none (listed pins ++ [.ended .failed])
  | providing (outcomes : List (CID × Outcome)) (cid : CID) (rest : List CID) :
      ReprovideHistory s (some (.providing cid (rest.map M.toString)))
        (providedSoFar (outcomes.map Prod.fst ++ cid :: rest) outcomes ++ [.started (.provide cid)])
  | statusSet (outcomes : List (CID × Outcome)) (cid : CID) (rest : List CID) :
      ReprovideHistory s (some (.statusSet (rest.map M.toString)))
        (providedSoFar (outcomes.map Prod.fst ++ cid :: rest) outcomes ++
          [.started (.provide cid), .ended .done, .started (.setStatus cid)])
  | completed (outcomes : List (CID × Outcome)) :
      ReprovideHistory s none (providedSoFar (outcomes.map Prod.fst) outcomes)
  | stopped (outcomes : List (CID × Outcome)) (rest : List CID) : s.stopped = true →
      ReprovideHistory s none (providedSoFar (outcomes.map Prod.fst ++ rest) outcomes)

variable {M parse}

theorem reprovideHistory_provideFrom (hparse : ∀ cid, parse (M.toString cid) = some cid)
    {s : ReprovideLoop} (outcomes : List (CID × Outcome)) (rest : List CID) :
    ReprovideHistory (α := α) M s (provideFrom (α := α) parse s.stopped (rest.map M.toString)).2
      (providedSoFar (outcomes.map Prod.fst ++ rest) outcomes ++
        (provideFrom parse s.stopped (rest.map M.toString)).1.map .started) := by
  cases hstopped : s.stopped with
  | true =>
    rw [provideFrom_stopped rfl, List.map_nil, List.append_nil]
    exact .stopped outcomes rest hstopped
  | false =>
    cases rest with
    | nil =>
      rw [List.map_nil, provideFrom, List.map_nil, List.append_nil, List.append_nil]
      exact .completed outcomes
    | cons cid rest =>
      rw [provideFrom_cons hparse]
      exact .providing outcomes cid rest

theorem providedSoFar_concat (pins : List CID) (outcomes : List (CID × Outcome)) (cid : CID)
    (outcome : Outcome) : providedSoFar (α := α) pins (outcomes ++ [(cid, outcome)]) =
      providedSoFar pins outcomes ++ outcome.trace cid := by
  unfold providedSoFar
  rw [List.flatMap_append, List.flatMap_singleton, List.append_assoc, List.cons_append]

theorem reprovideHistory_outcome (hparse : ∀ cid, parse (M.toString cid) = some cid)
    {s : ReprovideLoop} (outcomes : List (CID × Outcome)) (cid : CID) (rest : List CID)
    (outcome : Outcome) :
    ReprovideHistory (α := α) M s (provideFrom (α := α) parse s.stopped (rest.map M.toString)).2
      (providedSoFar (outcomes.map Prod.fst ++ cid :: rest) outcomes ++ (outcome.trace cid ++
        (provideFrom parse s.stopped (rest.map M.toString)).1.map .started)) := by
  have hnext := reprovideHistory_provideFrom (α := α) (s := s) hparse
    (outcomes ++ [(cid, outcome)]) rest
  rw [List.map_append, List.append_assoc, providedSoFar_concat, List.append_assoc] at hnext
  exact hnext

theorem reprovideLoop_begins {s : ReprovideLoop} {e : ReprovideEvent}
    {r : ReprovideLoop × List (Call α) × List ReprovideCall}
    (h : (reprovideLoop M parse).on s e = some r) (hstarts : startsRun s e = true) :
    r.2 = ([.pinsLs], [.listing []]) := by
  cases e with
  | timeout =>
    have hstopped : s.stopped = false := (Bool.not_eq_true' _).mp hstarts
    simp only [reprovideLoop, runReprovideLoop, hstopped, Bool.false_eq_true, if_false] at h
    split_ifs at h
    cases h
    rfl
  | tick =>
    have hstopped : s.stopped = false := (Bool.not_eq_true' _).mp hstarts
    simp only [reprovideLoop, runReprovideLoop, hstopped, Bool.false_eq_true, if_false] at h
    split_ifs at h
    cases h
    rfl
  | start | stop => cases hstarts

theorem reprovideLoop_silent {s : ReprovideLoop} {e : ReprovideEvent}
    {r : ReprovideLoop × List (Call α) × List ReprovideCall}
    (h : (reprovideLoop M parse).on s e = some r) (hstarts : startsRun s e = false) :
    r.2.1 = [] ∧ r.2.2 = [] := by
  cases e with
  | timeout =>
    have hstopped : s.stopped = true := (Bool.not_eq_false' _).mp hstarts
    simp only [reprovideLoop, runReprovideLoop_stopped hstopped] at h
    split_ifs at h
    cases h
    exact ⟨rfl, rfl⟩
  | tick =>
    have hstopped : s.stopped = true := (Bool.not_eq_false' _).mp hstarts
    simp only [reprovideLoop, runReprovideLoop_stopped hstopped] at h
    split_ifs at h
    cases h
    exact ⟨rfl, rfl⟩
  | start | stop =>
    simp only [reprovideLoop] at h
    split_ifs at h
    all_goals
      cases h
      exact ⟨rfl, rfl⟩

theorem reprovideLoop_keeps (hparse : ∀ cid, parse (M.toString cid) = some cid) :
    (reprovideLoop (α := α) M parse).Keeps startsRun
      (fun s t => s.stopped = true → t.stopped = true) (fun _ => ReprovideHistory M) where
  begins s e r h hstarts := by
    have hr := reprovideLoop_begins h hstarts
    rw [hr]
    exact ⟨_, rfl, .listing []⟩
  silent s e r h hstarts := reprovideLoop_silent h hstarts
  goes e s call trace result r h hr := by
    generalize hcall : some call = q at h
    cases h with
    | listing pins =>
      obtain rfl := Option.some.inj hcall
      cases result with
      | pin cid =>
        cases hr
        have hlisting := ReprovideHistory.listing (α := α) (M := M) (s := s) (pins ++ [cid])
        rw [List.map_append, listed, List.map_append] at hlisting
        exact hlisting
      | done =>
        cases hr
        have hnext := reprovideHistory_provideFrom (α := α) (s := s) hparse [] pins
        rw [List.map_nil, List.nil_append, providedSoFar, List.append_assoc] at hnext
        exact hnext
      | failed =>
        cases hr
        exact .unlisted pins
    | providing outcomes cid rest =>
      obtain rfl := Option.some.inj hcall
      cases result with
      | pin cid => cases hr
      | done =>
        cases hr
        rw [List.append_assoc]
        exact .statusSet outcomes cid rest
      | failed =>
        cases hr
        rw [List.append_assoc]
        exact reprovideHistory_outcome hparse outcomes cid rest .failed
    | statusSet outcomes cid rest =>
      obtain rfl := Option.some.inj hcall
      cases result with
      | pin cid => cases hr
      | done =>
        cases hr
        rw [List.append_assoc]
        exact reprovideHistory_outcome hparse outcomes cid rest (.provided true)
      | failed =>
        cases hr
        rw [List.append_assoc]
        exact reprovideHistory_outcome hparse outcomes cid rest (.provided false)
    | unlisted pins => cases hcall
    | completed outcomes => cases hcall
    | stopped outcomes rest hstopped => cases hcall
  on s e r h hs := by
    cases e with
    | start | timeout | tick | stop =>
      simp only [reprovideLoop] at h
      split_ifs at h
      all_goals
        cases h
        exact hs
  resume s call result r h hs := by
    cases call <;> cases result <;> simp only [reprovideLoop, reduceCtorEq] at h
    all_goals
      cases h
      exact hs
  stable e s s' call trace hR h := by
    cases h with
    | listing pins => exact .listing pins
    | unlisted pins => exact .unlisted pins
    | providing outcomes cid rest => exact .providing outcomes cid rest
    | statusSet outcomes cid rest => exact .statusSet outcomes cid rest
    | completed outcomes => exact .completed outcomes
    | stopped outcomes rest hstopped => exact .stopped outcomes rest (hR hstopped)

/-- However the runs overlap, each of them provides in turn the pins that it has listed. -/
theorem reprovideHistories_of_run (hparse : ∀ cid, parse (M.toString cid) = some cid)
    {es : List (Async.Event ReprovideEvent ReprovideResult)} {s : State ReprovideLoop ReprovideCall}
    {out : List (Nat × Entry ReprovideEvent ReprovideResult (Call α))}
    (h : ((reprovideLoop M parse).traced startsRun).Run System.any es s out) :
    Program.Histories (fun _ => ReprovideHistory M) s out := (reprovideLoop_keeps hparse).histories h

open Multiformats

theorem reprovideHistories_twoRuns : ∃ s out,
    ((reprovideLoop (α := String) onEmptyBlock cidParse).traced startsRun).Run System.any
      [.on .start, .on .timeout, .resume 0 (.pin emptyRaw), .resume 0 .done, .on .tick,
        .resume 1 (.pin emptyRaw), .resume 0 .done, .resume 1 .done, .resume 1 .failed,
        .resume 0 .failed] s out ∧
    ((traceOf 0 out).filterMap Trace.call? = [.pinsLs, .provide emptyRaw, .setStatus emptyRaw] ∧
      (traceOf 1 out).filterMap Trace.call? = [.pinsLs, .provide emptyRaw]) ∧
    Program.Histories (fun _ => ReprovideHistory onEmptyBlock) s out := by
  obtain ⟨s, out, hrun, hcalls⟩ := System.exists_run
    (T := (reprovideLoop (α := String) onEmptyBlock cidParse).traced startsRun)
    [.on .start, .on .timeout, .resume 0 (.pin emptyRaw), .resume 0 .done, .on .tick,
      .resume 1 (.pin emptyRaw), .resume 0 .done, .resume 1 .done, .resume 1 .failed,
      .resume 0 .failed]
    (p := fun r => (traceOf 0 r.2).filterMap Trace.call? =
        [.pinsLs, .provide emptyRaw, .setStatus emptyRaw] ∧
      (traceOf 1 r.2).filterMap Trace.call? = [.pinsLs, .provide emptyRaw]) (by decide +kernel)
  exact ⟨s, out, hrun, hcalls, reprovideHistories_of_run cidParse_cidText hrun⟩

end

end IpfsShard.Loops
