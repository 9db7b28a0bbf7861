import IpfsShard.Loops.Rounds

/-! The background loops as a whole: what goes on after their stop functions, and rounds that go on
at the same time. The timers and the listener start a round whether or not an earlier one has
ended. -/

namespace IpfsShard.Loops
open Runs Async Backup Calls

variable {α : Type}

def Call.isProvide : Call α → Bool
  | provide _ => true
  | pinsLs | setStatus _ | dial _ | dhtPut _ | loadBackupPeers | saveBackupPeers _ => false

def Call.isDial : Call α → Bool
  | dial _ => true
  | pinsLs | provide _ | setStatus _ | dhtPut _ | loadBackupPeers | saveBackupPeers _ => false

/-- A pin is a part of a listing. -/
def ReprovideResult.ends : ReprovideResult → Bool
  | pin _ => false
  | done | failed => true

def BackupResult.ends : BackupResult → Bool
  | loaded _ | settled => true

def ReprovideCall.Awaits : ReprovideCall → Call α → Prop
  | listing _, call => call = .pinsLs
  | providing cid _, call => call = .provide cid
  | statusSet _, call => ∃ cid, call = .setStatus cid

def BackupCall.Awaits : BackupCall α → Call α → Prop
  | startup, call | loading, call => call = .loadBackupPeers
  | dialing _, call => ∃ addr, call = .dial addr
  | saving _, call => ∃ stored, call = .saveBackupPeers stored

/-- After the stop function of a loop has returned, no CID is provided, no peer dialled, nothing
put into the DHT and no backup list saved. -/
theorem stop_final [DecidableEq α] (M : Multiformats) (parse : String → Option CID)
    (addrs : Multiaddrs α) (bootstrapAddrs : List α) :
    (reprovideLoop (α := α) M parse).Final .stop Call.Starts ∧
      (backupBootstrapLoop addrs bootstrapAddrs).Final .stop Call.Starts ∧
      (bootstrapDialLoop addrs bootstrapAddrs).Final .stop Call.Starts ∧
      (dhtDiscoveryLoop (α := α)).Final .stop Call.Starts :=
  ⟨reprovideLoop_stops.final, backupBootstrapLoop_stops.final, bootstrapDialLoop_stops.final,
    dhtDiscoveryLoop_stops.final⟩

theorem stop_final_dialing :
    ∃ s out, (bootstrapDialLoop onTwoAddrs [oneAddr, otherAddr]).system.Run System.any
        ([.on (.start [])] ++ [.on .stop] ++ [.resume 0 ()]) s out ∧ out = [.dial oneAddr] ∧
      ∃ s' out' out'', (bootstrapDialLoop onTwoAddrs [oneAddr, otherAddr]).system.Run System.any
        ([.on (.start [])] ++ [.on .stop]) s' out' ∧ out = out' ++ out'' ∧
        ∀ call ∈ out'', ¬ call.Starts := by
  obtain ⟨s, out, hrun, hout⟩ :=
    System.exists_run (T := (bootstrapDialLoop onTwoAddrs [oneAddr, otherAddr]).system)
      ([.on (.start [])] ++ [.on .stop] ++ [.resume 0 ()])
      (p := fun r => r.2 = [.dial oneAddr]) (by decide +kernel)
  have hfinal := (stop_final Multiformats.onEmptyBlock (fun _ => none) onTwoAddrs
    [oneAddr, otherAddr]).2.2.1
  exact ⟨s, out, hrun, hout, hfinal _ _ _ _ hrun⟩

example : ∃ s out, (bootstrapDialLoop onTwoAddrs [oneAddr, otherAddr]).system.Run System.any
    [.on (.start []), .resume 0 ()] s out ∧ out = [.dial oneAddr, .dial otherAddr] :=
  System.exists_run (T := (bootstrapDialLoop onTwoAddrs [oneAddr, otherAddr]).system)
    [.on (.start []), .resume 0 ()] (p := fun r => r.2 = [.dial oneAddr, .dial otherAddr])
    (by decide +kernel)

theorem countP_runReprovideLoop (stopped : Bool) :
    (runReprovideLoop (α := α) stopped).2.toList.countP ReprovideCall.isRun =
      if !stopped then 1 else 0 := by
  cases stopped <;> rfl

theorem countP_bootstrapRound (stopped : Bool) (connections : Nat) :
    (bootstrapRound (α := α) stopped connections).2.toList.countP BackupCall.isRound =
      if !stopped && decide (connections < minPeerThreshold) then 1 else 0 := by
  unfold bootstrapRound
  cases stopped with
  | true => rfl
  | false =>
    by_cases hfew : connections < minPeerThreshold
    · rw [if_neg (by simp), if_neg (Nat.not_le_of_lt hfew)]
      simp [hfew, BackupCall.isRound]
    · rw [if_neg (by simp), if_pos (Nat.le_of_not_lt hfew)]
      simp [hfew]

section
variable {M : Multiformats} {parse : String → Option CID}

theorem reprovideLoop_startsOne :
    (reprovideLoop (α := α) M parse).StartsOne ReprovideCall.isRun startsRun where
  on s e r h := by
    cases e with
    | start =>
      simp only [reprovideLoop] at h
      split_ifs at h
      cases h
      rfl
    | timeout =>
      simp only [reprovideLoop] at h
      split_ifs at h
      cases h
      exact countP_runReprovideLoop s.stopped
    | tick =>
      simp only [reprovideLoop] at h
      split_ifs at h
      cases h
      exact countP_runReprovideLoop s.stopped
    | stop =>
      simp only [reprovideLoop] at h
      split_ifs at h
      all_goals
        cases h
        rfl
  resume s q i r h hkind := by
    cases q <;> rfl

end

section
variable [DecidableEq α] {M : Multiaddrs α} {officialBootstrapAddrs : List α}

theorem backupBootstrapLoop_startsOne :
    (backupBootstrapLoop M officialBootstrapAddrs).StartsOne BackupCall.isRound startsRound where
  on s e r h := by
    cases e with
    | start =>
      simp only [backupBootstrapLoop] at h
      split_ifs at h
      cases h
      rfl
    | bootstrapTick connections =>
      simp only [backupBootstrapLoop] at h
      split_ifs at h
      cases h
      exact countP_bootstrapRound s.stopped connections
    | saveTick round =>
      simp only [backupBootstrapLoop] at h
      split_ifs at h
      obtain ⟨r, hr, heq⟩ := Option.map_eq_some_iff.mp h
      cases heq
      simp only [saveRound] at hr
      split_ifs at hr
      all_goals
        cases hr
        rfl
    | disconnect connections =>
      simp only [backupBootstrapLoop] at h
      split_ifs at h with hstarted hfew
      · cases h
        exact countP_bootstrapRound s.stopped connections
      · cases h
        rw [Bool.and_comm] at hfew
        simp [startsRound, hfew]
    | stop =>
      simp only [backupBootstrapLoop] at h
      split_ifs at h
      all_goals
        cases h
        rfl
  resume s q i r h hkind := by
    cases q with
    | startup =>
      cases i <;> cases h
      cases hkind
    | loading => rfl
    | dialing rest => rfl
    | saving peersToSave =>
      cases i <;> cases h
      cases hkind

end

section
variable {M : Multiformats} {parse : String → Option CID}

theorem inTurn_provideFrom {q : ReprovideCall} {trace : List (Trace ReprovideResult (Call α))}
    (h : InTurn ReprovideResult.ends ReprovideCall.Awaits (some q) trace) {result : ReprovideResult}
    (hends : result.ends = true) (stopped : Bool) (cids : List String) :
    InTurn ReprovideResult.ends ReprovideCall.Awaits (provideFrom (α := α) parse stopped cids).2
      (trace ++ goesOn result (provideFrom parse stopped cids).1) := by
  induction cids with
  | nil => exact h.over hends
  | cons cidStr rest ih =>
    unfold provideFrom
    split_ifs
    · exact h.over hends
    · cases parse cidStr with
      | none => exact ih
      | some cid => exact h.goes hends rfl

theorem reprovideLoop_inTurn : (reprovideLoop (α := α) M parse).Keeps startsRun (fun _ _ => True)
    (fun _ _ => InTurn ReprovideResult.ends ReprovideCall.Awaits) where
  begins s e r h hstarts := by
    rw [reprovideLoop_begins h hstarts]
    exact ⟨_, rfl, .waits rfl rfl⟩
  silent s e r h hstarts := reprovideLoop_silent h hstarts
  goes e s q trace result r h hr := by
    cases q with
    | listing cids =>
      cases result with
      | pin cid =>
        cases hr
        exact h.yields rfl fun _ hcall => hcall
      | done =>
        cases hr
        exact inTurn_provideFrom h rfl s.stopped cids
      | failed =>
        cases hr
        exact h.over rfl
    | providing cid rest =>
      cases result with
      | pin cid => cases hr
      | done =>
        cases hr
        exact h.goes rfl ⟨cid, rfl⟩
      | failed =>
        cases hr
        exact inTurn_provideFrom h rfl s.stopped rest
    | statusSet rest =>
      cases result with
      | pin cid => cases hr
      | done =>
        cases hr
        exact inTurn_provideFrom h rfl s.stopped rest
      | failed =>
        cases hr
        exact inTurn_provideFrom h rfl s.stopped rest
  on _ _ _ _ := trivial
  resume _ _ _ _ _ := trivial
  stable _ _ _ _ _ _ h := h

theorem ReprovideCall.isRun_of_provide (q : ReprovideCall) (call : Call α) (_ : q.Awaits call)
    (_ : call.isProvide = true) : q.isRun = true := by
  cases q <;> rfl

end

section
variable {M : Multiaddrs α}

theorem pending_progress {plan : List (Call α)} {halted : Prop} {rest : Option (List (Call α))}
    {trace : List (Trace BackupResult (Call α))} (h : Progress plan halted rest trace) :
    (rest = none ∧ pending BackupResult.ends trace = []) ∨
      ∃ call ∈ plan, rest ≠ none ∧ pending BackupResult.ends trace = [call] := by
  have hends : ∀ result : BackupResult, result.ends = true := by
    intro result
    cases result <;> rfl
  cases h with
  | @waits done call rest hplan =>
    refine Or.inr ⟨call, by simp [hplan], Option.some_ne_none rest, ?_⟩
    rw [pending_started, pending_turns hends, List.nil_append]
  | ended _ => exact Or.inl ⟨rfl, pending_turns hends _⟩
  | halted _ _ => exact Or.inl ⟨rfl, pending_turns hends _⟩

theorem BackupHistory.inTurn {e : BackupEvent α} {s : BackupLoop α} {q : Option (BackupCall α)}
    {trace : List (Trace BackupResult (Call α))} (h : BackupHistory M e s q trace) :
    InTurn BackupResult.ends BackupCall.Awaits q trace := by
  cases h with
  | startup _ => exact .waits rfl rfl
  | started stored _ => exact .ended rfl
  | saving peers _ => exact .waits ⟨_, rfl⟩ rfl
  | saved peers _ => exact .ended rfl
  | loading _ _ => exact .waits rfl rfl
  | @dialing connections stored rest trace _ _ hprogress =>
    -- behind the load only the dials are in flight
    have hdials : pending BackupResult.ends
        (.started .loadBackupPeers :: .ended (.loaded stored) :: trace) =
          pending BackupResult.ends trace := rfl
    rcases pending_progress hprogress with ⟨hrest, hpending⟩ | ⟨call, hcall, hrest, hpending⟩
    · rw [Option.map_eq_none_iff.mp hrest]
      exact .ended (hdials.trans hpending)
    · obtain ⟨addr, -, rfl⟩ := List.mem_map.mp hcall
      cases rest with
      | none => exact absurd rfl hrest
      | some rest => exact .waits ⟨addr, rfl⟩ (hdials.trans hpending)

theorem BackupCall.isRound_of_dial (q : BackupCall α) (call : Call α) (h : q.Awaits call)
    (hdial : call.isDial = true) : q.isRound = true := by
  cases q with
  | dialing rest => rfl
  | loading => rfl
  | startup =>
    cases h
    cases hdial
  | saving peersToSave =>
    obtain ⟨stored, rfl⟩ := h
    cases hdial

end

/-- Each round of these loops has one call in flight at most, so that not more provides, or dials,
are in flight than there are rounds. There is one round of a loop at most at all times, with one
provide, or dial, exactly if no trigger that starts a round comes while another one goes on. -/
theorem rounds_apart_iff [DecidableEq α] (M : Multiformats) (parse : String → Option CID)
    (addrs : Multiaddrs α) (officialBootstrapAddrs : List α) :
    (∀ es s out,
      ((reprovideLoop (α := α) M parse).traced startsRun).Run System.any es s out →
        (∀ i, (own i (inFlight ReprovideResult.ends out)).length ≤ 1) ∧
        (inFlight ReprovideResult.ends out).countP (fun x => x.2.isProvide) ≤
          s.count ReprovideCall.isRun ∧
        (((reprovideLoop (α := α) M parse).traced startsRun).Run
            (Program.Apart ReprovideCall.isRun startsRun) es s out ↔
          ((reprovideLoop (α := α) M parse).traced startsRun).Always (fun s out =>
            s.count ReprovideCall.isRun ≤ 1 ∧
              (inFlight ReprovideResult.ends out).countP (fun x => x.2.isProvide) ≤ 1) es)) ∧
    ∀ es s out,
      ((backupBootstrapLoop addrs officialBootstrapAddrs).traced startsCall).Run System.any
          es s out →
        (∀ i, (own i (inFlight BackupResult.ends out)).length ≤ 1) ∧
        (inFlight BackupResult.ends out).countP (fun x => x.2.isDial) ≤
          s.count BackupCall.isRound ∧
        (((backupBootstrapLoop addrs officialBootstrapAddrs).traced startsCall).Run
            (Program.Apart BackupCall.isRound startsRound) es s out ↔
          ((backupBootstrapLoop addrs officialBootstrapAddrs).traced startsCall).Always
            (fun s out => s.count BackupCall.isRound ≤ 1 ∧
              (inFlight BackupResult.ends out).countP (fun x => x.2.isDial) ≤ 1) es) := by
  constructor
  · intro es s out hrun
    have hturn := reprovideLoop_inTurn.histories hrun
    exact ⟨hturn.length_own_inFlight_le,
      hturn.countP_inFlight_le ReprovideCall.isRun_of_provide,
      reprovideLoop_startsOne.run_iff_always (fun _ _ _ => reprovideLoop_inTurn.histories)
        ReprovideCall.isRun_of_provide hrun⟩
  · intro es s out hrun
    have hhistories : ∀ es s out,
        ((backupBootstrapLoop addrs officialBootstrapAddrs).traced startsCall).Run System.any
            es s out →
          Program.Histories (fun _ _ => InTurn BackupResult.ends BackupCall.Awaits) s out :=
      fun _ _ _ h =>
        (backupBootstrapLoop_keeps.histories h).mono fun _ _ _ _ => BackupHistory.inTurn
    have hturn := hhistories es s out hrun
    exact ⟨hturn.length_own_inFlight_le, hturn.countP_inFlight_le BackupCall.isRound_of_dial,
      backupBootstrapLoop_startsOne.run_iff_always hhistories BackupCall.isRound_of_dial hrun⟩

/-- A tick while the first run waits for its `provide`, and a disconnect while a round waits for
its dial. -/
theorem not_apart_slowCalls :
    (∃ s out, ((reprovideLoop (α := String) Multiformats.onEmptyBlock
        Multiformats.cidParse).traced startsRun).Run System.any
      [.on .start, .on .timeout, .resume 0 (.pin Multiformats.emptyRaw), .resume 0 .done,
        .on .tick, .resume 1 (.pin Multiformats.emptyRaw), .resume 1 .done] s out ∧
      inFlight ReprovideResult.ends out =
        [(0, .provide Multiformats.emptyRaw), (1, .provide Multiformats.emptyRaw)]) ∧
    ∃ s out, ((backupBootstrapLoop onTwoAddrs []).traced startsCall).Run System.any
        [.on .start, .on (.bootstrapTick 0), .resume 1 (.loaded (some [oneAddr])),
          .on (.disconnect 0), .resume 2 (.loaded (some [oneAddr]))] s out ∧
      inFlight BackupResult.ends out =
        [(0, .loadBackupPeers), (1, .dial oneAddr), (2, .dial oneAddr)] := by
  constructor
  · exact System.exists_run
      (T := (reprovideLoop (α := String) Multiformats.onEmptyBlock
        Multiformats.cidParse).traced startsRun) _
      (p := fun r => inFlight ReprovideResult.ends r.2 =
        [(0, .provide Multiformats.emptyRaw), (1, .provide Multiformats.emptyRaw)])
      (by decide +kernel)
  · exact System.exists_run (T := (backupBootstrapLoop onTwoAddrs []).traced startsCall) _
      (p := fun r => inFlight BackupResult.ends r.2 =
        [(0, .loadBackupPeers), (1, .dial oneAddr), (2, .dial oneAddr)])
      (by decide +kernel)

end IpfsShard.Loops
