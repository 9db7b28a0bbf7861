import IpfsShard.Bitswap.StreamSteps
import IpfsShard.Lib.Calls

/-! What one call of `_sendMessage` does up to its end, whatever else happens in between: it dials,
it writes its frame, and it dials once more when either has failed. -/

namespace IpfsShard.Bitswap.Streams
open Codec Runs Calls

def State.running (s : State) : Event → Option Nat
  | .sendMessage _ _ => some s.sends.length
  | .dialed i => some i
  | .dialFailed i _ => some i
  | .caught i => some i
  | .sent i _ => some i
  | _ => none

def traced : System State Event (Option Nat × Effect) :=
  streams.relabel fun s e o => o.map (s.running e, ·)

def Effect.dials : Effect → Bool
  | .dial _ => true
  | _ => false

def Effect.frame? : Effect → Option (Nat × Bytes)
  | .send stream bytes => some (stream, bytes)
  | _ => none

def Event.returns (i : Nat) : Event → Bool
  | .sent j throws => j = i && !throws
  | _ => false

def Event.carries (i : Nat) : Event → Bool
  | .dialed j | .dialFailed j _ | .caught j | .sent j _ => j = i
  | _ => false

def Event.message? : Event → Option (String × Bytes)
  | .sendMessage peer message => some (peer, message)
  | _ => none

def State.peers (s : State) : List String := s.streams.map (·.peer)

def Phase.attempts : Phase → Nat
  | .dialing | .gotStream _ | .failed => 1
  | .redialing | .gotRetryStream _ | .done => 2

def Phase.suspensions : Phase → Nat
  | .dialing => 0
  | .gotStream _ | .failed => 1
  | .redialing => 2
  | .gotRetryStream _ => 3
  | .done => 4

def Phase.stream? : Phase → Option Nat
  | .gotStream stream | .gotRetryStream stream => some stream
  | _ => none

def Phase.ended : Phase → Nat
  | .done => 1
  | _ => 0

inductive Advance (s : State) (i : Nat) (send : Send) : Event → Phase → List Effect → Prop where
  | dialed : send.phase = .dialing →
      Advance s i send (.dialed i) (.gotStream s.streams.length) []
  | redialed : send.phase = .redialing →
      Advance s i send (.dialed i) (.gotRetryStream s.streams.length) []
  | failed (unsupported : Bool) : send.phase = .dialing →
      Advance s i send (.dialFailed i unsupported) .failed []
  | gaveUp (unsupported : Bool) : send.phase = .redialing →
      Advance s i send (.dialFailed i unsupported) .done []
  | caught : send.phase = .failed →
      Advance s i send (.caught i) .redialing ((s.cleanupStream send.peer).2 ++ [.dial send.peer])
  | thrown {stream : Nat} : send.phase = .gotStream stream →
      Advance s i send (.sent i true) .redialing
        ((s.cleanupStream send.peer).2 ++ [.dial send.peer])
  | thrownAgain {stream : Nat} : send.phase = .gotRetryStream stream →
      Advance s i send (.sent i true) .done []
  | written {stream : Nat} : send.phase.stream? = some stream →
      Advance s i send (.sent i false) .done
        [.send stream (encodeWithLengthPrefix send.message)]

structure Account (s : State) (send : Send) (carried returned : Nat) (effects : List Effect) :
    Prop where
  suspensions : carried ≤ send.phase.suspensions
  dials : effects.countP Effect.dials ≤ send.phase.attempts
  once : returned ≤ send.phase.ended
  frames : (effects.filterMap Effect.frame?).map (·.2) =
    List.replicate returned (encodeWithLengthPrefix send.message)
  streams : ∀ frame ∈ effects.filterMap Effect.frame?, s.peers[frame.1]? = some send.peer
  stream : ∀ stream, send.phase.stream? = some stream → s.peers[stream]? = some send.peer

variable {s t u : State} {e : Event} {o : List Effect} {i : Nat} {send : Send}

def PoolServes (s : State) : Prop :=
  ∀ peer info, s.streamPool.lookup peer = some info → s.peers[info.stream]? = some peer

theorem peers_close (stream : Nat) : (s.close stream).map (·.peer) = s.peers := by
  apply List.ext_getElem?
  intro j
  rw [State.close, State.peers, List.getElem?_map, List.getElem?_map, List.getElem?_modify]
  cases s.streams[j]? with
  | none => rfl
  | some st =>
    by_cases hj : stream = j
    · simp [hj]
    · simp [hj]

theorem peers_cleanupStream (s : State) (peer : String) :
    (s.cleanupStream peer).1.peers = s.peers := by
  unfold State.cleanupStream
  split
  · rfl
  · exact peers_close _

theorem peers_pool (s : State) (peer : String) (direction : Direction) :
    (s.pool peer direction).peers = s.peers ++ [peer] := by
  rw [State.peers, State.pool, List.map_append]
  rfl

theorem peers_ended {stream : Stream} (hi : s.streams[i]? = some stream) :
    (s.streams.set i { stream with reading := false }).map (·.peer) = s.peers := by
  exact map_set_of_eq hi rfl

theorem peers_stop (s : State) : s.stop.1.peers = s.peers := by
  have hfold : ∀ (l : List Nat) (u : State),
      (l.foldl (fun sts j => sts.modify j fun st => { st with closed := true }) u.streams).map
        (·.peer) = u.peers := by
    intro l
    induction l with
    | nil => exact fun u => rfl
    | cons j l ih =>
      intro u
      rw [List.foldl_cons]
      exact (ih { u with streams := u.close j }).trans (peers_close j)
  exact hfold _ s

theorem PoolServes.append (h : PoolServes s) (peer q : String) (info : StreamInfo)
    (hq : s.streamPool.lookup q = some info) : (s.peers ++ [peer])[info.stream]? = some q :=
  Calls.getElem?_concat.mpr (Or.inl (h q info hq))

theorem PoolServes.pool (h : PoolServes s) (peer : String) (direction : Direction) :
    PoolServes (s.pool peer direction) := by
  intro q info hq
  rw [peers_pool]
  rcases lookup_pool_iff.mp hq with ⟨rfl, rfl⟩ | ⟨-, hold⟩
  · exact Calls.getElem?_concat.mpr (Or.inr ⟨(List.length_map _).symm, rfl⟩)
  · exact h.append peer q info hold

theorem PoolServes.change (h : PoolServes s) (hc : PoolChange s e u) :
    PoolServes u ∧ s.peers <+: u.peers := by
  have hcleans : ∀ (v : State) (peer : String), PoolServes v →
      PoolServes (v.cleanupStream peer).1 := by
    intro v peer hv q info hq
    rw [peers_cleanupStream]
    exact hv q info (lookup_cleanupStream_iff.mp hq).2
  cases hc with
  | keeps _ => exact ⟨h, List.prefix_rfl⟩
  | cleans peer _ => exact ⟨hcleans s peer h, by rw [peers_cleanupStream]⟩
  | dialed _ => exact ⟨h.pool _ _, by rw [peers_pool]; exact List.prefix_append _ _⟩
  | inbound peer =>
    rcases onInboundStream_cases s peer with ⟨heq, -⟩ | heq <;> rw [heq]
    · exact ⟨h.pool _ _, by rw [peers_pool]; exact List.prefix_append _ _⟩
    · have hpeers : ({ s with streams := s.streams ++ [{ peer }] } : State).peers =
          s.peers ++ [peer] := peers_pool s peer .inbound
      refine ⟨fun q info hq => ?_, by rw [hpeers]; exact List.prefix_append _ _⟩
      rw [hpeers]
      exact h.append peer q info hq
  | @ended i stream hi =>
    refine ⟨hcleans _ _ fun q info hq => ?_, ?_⟩
    · exact (congrArg (·[info.stream]?) (peers_ended hi)).trans (h q info hq)
    · rw [State.readEnded, peers_cleanupStream]
      exact (peers_ended hi).symm ▸ List.prefix_rfl
  | stop => exact ⟨fun q info hq => by simp [State.stop] at hq, by rw [peers_stop]⟩

theorem PoolServes.step (h : PoolServes s) (hs : s.step e = some (t, o)) :
    PoolServes t ∧ s.peers <+: t.peers := by
  obtain ⟨u, hc, hpool, hstreams⟩ := (step_changes hs).pool
  have hpeers : t.peers = u.peers := congrArg (List.map Stream.peer) hstreams
  unfold PoolServes
  rw [hpool, hpeers]
  exact h.change hc

def Starts (s : State) (send : Send) (o : List Effect) : Prop :=
  (send.phase = .dialing ∧ o = [.dial send.peer]) ∨
    ∃ info, s.streamPool.lookup send.peer = some info ∧ send.phase = .gotStream info.stream ∧ o = []

theorem sendMessage_starts (peer : String) (message : Bytes) : ∃ send,
    (s.sendMessage peer message).1 = { s with sends := s.sends ++ [send] } ∧
      (send.peer, send.message) = (peer, message) ∧ Starts s send (s.sendMessage peer message).2 := by
  have hdial : Starts s ⟨peer, message, .dialing⟩ [.dial peer] := Or.inl ⟨rfl, rfl⟩
  unfold State.sendMessage
  cases hlookup : s.streamPool.lookup peer with
  | none => exact ⟨_, rfl, rfl, hdial⟩
  | some info =>
    dsimp only
    split_ifs
    · exact ⟨_, rfl, rfl, hdial⟩
    · exact ⟨⟨peer, message, .gotStream info.stream⟩, rfl, rfl, Or.inr ⟨info, hlookup, rfl, rfl⟩⟩

def CarriesOn (s : State) (i : Nat) (send : Send) (e : Event) (t : State) (o : List Effect) : Prop :=
  ∃ phase, t.sends = s.sends.set i { send with phase } ∧ Advance s i send e phase o

theorem dialed_carriesOn (h : s.dialed i send = some (t, o)) :
    CarriesOn s i send (.dialed i) t o := by
  simp only [State.dialed] at h
  split at h
  · rename_i hphase
    cases h
    exact ⟨_, rfl, .dialed hphase⟩
  · rename_i hphase
    cases h
    exact ⟨_, rfl, .redialed hphase⟩
  · cases h

theorem dialFailed_carriesOn {unsupported : Bool}
    (h : s.dialFailed i send unsupported = some (t, o)) :
    CarriesOn s i send (.dialFailed i unsupported) t o := by
  have hsends : (if unsupported = true then
      { s with unsupportedPeers := send.peer :: s.unsupportedPeers } else s).sends = s.sends := by
    split_ifs <;> rfl
  simp only [State.dialFailed] at h
  split at h
  · rename_i hphase
    cases h
    exact ⟨.failed, by rw [State.setPhase, hsends], .failed unsupported hphase⟩
  · rename_i hphase
    cases h
    exact ⟨.done, by rw [State.setPhase, hsends], .gaveUp unsupported hphase⟩
  · cases h

theorem sends_retry (s : State) (i : Nat) (send : Send) :
    (s.retry i send).1.sends = s.sends.set i { send with phase := .redialing } := by
  change (s.cleanupStream send.peer).1.sends.set i _ = _
  rw [sends_cleanupStream]

theorem sent_carriesOn {throws : Bool} (h : s.sent i send throws = some (t, o)) :
    CarriesOn s i send (.sent i throws) t o := by
  simp only [State.sent] at h
  split at h
  · rename_i stream hphase
    cases throws with
    | true =>
      obtain ⟨rfl, rfl⟩ := Prod.ext_iff.mp (Option.some.inj h)
      exact ⟨.redialing, sends_retry s i send, .thrown hphase⟩
    | false =>
      cases h
      exact ⟨.done, rfl, .written (by rw [hphase]; rfl)⟩
  · rename_i stream hphase
    cases h
    refine ⟨.done, rfl, ?_⟩
    cases throws with
    | true => exact .thrownAgain hphase
    | false => exact .written (by rw [hphase]; rfl)
  · cases h

theorem closes_cleanupStream (s : State) (peer : String) :
    ∀ x ∈ (s.cleanupStream peer).2, ∃ stream, x = .close stream := by
  unfold State.cleanupStream
  split
  · simp
  · simp

inductive Running (s : State) (e : Event) (t : State) (o : List Effect) : Prop where
  | starts (send : Send) : s.running e = some s.sends.length → (∀ i, e.carries i = false) →
      e.message? = some (send.peer, send.message) → t.sends = s.sends ++ [send] →
      Starts s send o → Running s e t o
  | goesOn (i : Nat) (send : Send) : s.running e = some i → e.message? = none →
      s.sends[i]? = some send → CarriesOn s i send e t o → Running s e t o
  | other : s.running e = none → (∀ i, e.carries i = false) → e.message? = none →
      t.sends = s.sends →
      (∀ x ∈ o, ∃ stream, x = .close stream) → Running s e t o

theorem returns_eq_false (h : e.carries i = false) : e.returns i = false := by
  cases e with
  | sent j throws =>
    have hne : ¬ j = i := of_decide_eq_false h
    simp [Event.returns, hne]
  | _ => rfl

theorem step_running (hs : s.step e = some (t, o)) : Running s e t o := by
  cases e with
  | sendMessage peer message =>
    obtain ⟨rfl, rfl⟩ := Prod.ext_iff.mp (Option.some.inj hs)
    obtain ⟨send, heq, hmessage, hstarts⟩ := sendMessage_starts (s := s) peer message
    exact .starts send rfl (fun _ => rfl) (congrArg some hmessage.symm) (by rw [heq]) hstarts
  | dialed i =>
    obtain ⟨send, hi, hs⟩ := Option.bind_eq_some_iff.mp hs
    exact .goesOn i send rfl rfl hi (dialed_carriesOn hs)
  | dialFailed i unsupported =>
    obtain ⟨send, hi, hs⟩ := Option.bind_eq_some_iff.mp hs
    exact .goesOn i send rfl rfl hi (dialFailed_carriesOn hs)
  | caught i =>
    obtain ⟨send, hi, hs⟩ := Option.bind_eq_some_iff.mp hs
    split_ifs at hs with hphase
    obtain ⟨rfl, rfl⟩ := Prod.ext_iff.mp (Option.some.inj hs)
    exact .goesOn i send rfl rfl hi ⟨.redialing, sends_retry s i send, .caught hphase⟩
  | sent i throws =>
    obtain ⟨send, hi, hs⟩ := Option.bind_eq_some_iff.mp hs
    exact .goesOn i send rfl rfl hi (sent_carriesOn hs)
  | inbound peer =>
    cases hs
    exact .other rfl (fun _ => rfl) rfl (sends_onInboundStream s peer) (by simp)
  | readEnded i =>
    obtain ⟨stream, hi, hs⟩ := Option.bind_eq_some_iff.mp hs
    split_ifs at hs
    obtain ⟨rfl, rfl⟩ := Prod.ext_iff.mp (Option.some.inj hs)
    exact .other rfl (fun _ => rfl) rfl (sends_cleanupStream _ _) (closes_cleanupStream _ _)
  | disconnected peer =>
    obtain ⟨rfl, rfl⟩ := Prod.ext_iff.mp (Option.some.inj hs)
    exact .other rfl (fun _ => rfl) rfl (sends_cleanupStream _ _) (closes_cleanupStream _ _)
  | stop =>
    obtain ⟨rfl, rfl⟩ := Prod.ext_iff.mp (Option.some.inj hs)
    refine .other rfl (fun _ => rfl) rfl rfl fun x hx => ?_
    obtain ⟨stream, -, rfl⟩ := List.mem_map.mp hx
    exact ⟨stream, rfl⟩
  | clearUnsupportedPeers =>
    cases hs
    exact .other rfl (fun _ => rfl) rfl rfl (by simp)

section

variable {carried returned : Nat} {effects : List Effect}

theorem peers_mono (hpeers : s.peers <+: t.peers) {stream : Nat} {peer : String}
    (h : s.peers[stream]? = some peer) : t.peers[stream]? = some peer := by
  obtain ⟨opened, heq⟩ := hpeers
  obtain ⟨hlt, hpeer⟩ := List.getElem?_eq_some_iff.mp h
  rw [← heq, List.getElem?_append_left hlt]
  exact h

theorem peers_dialed (hi : s.sends[i]? = some send) (hs : s.step (.dialed i) = some (t, o)) :
    t.peers[s.streams.length]? = some send.peer := by
  obtain ⟨u, hc, -, hstreams⟩ := (step_changes hs).pool
  have hpeers : t.peers = u.peers := congrArg (List.map Stream.peer) hstreams
  cases hc with
  | keeps he => exact absurd rfl (he i)
  | cleans _ he => exact absurd rfl (he i)
  | dialed hi' =>
    obtain rfl := Option.some.inj (hi.symm.trans hi')
    rw [hpeers, peers_pool]
    exact Calls.getElem?_concat.mpr (Or.inr ⟨(List.length_map _).symm, rfl⟩)

theorem Account.mono (h : Account s send carried returned effects) (hpeers : s.peers <+: t.peers) :
    Account t send carried returned effects where
  suspensions := h.suspensions
  dials := h.dials
  once := h.once
  frames := h.frames
  streams frame hframe := peers_mono hpeers (h.streams frame hframe)
  stream stream hstream := peers_mono hpeers (h.stream stream hstream)

theorem Account.start (hpool : PoolServes s) (h : Starts s send o) : Account s send 0 0 o := by
  rcases h with ⟨hphase, rfl⟩ | ⟨info, hinfo, hphase, rfl⟩
  · exact ⟨Nat.zero_le _, by rw [hphase]; exact Nat.le_refl 1, Nat.zero_le _, rfl,
      by simp [Effect.frame?],
      by simp [hphase, Phase.stream?]⟩
  · refine ⟨Nat.zero_le _, Nat.zero_le _, Nat.zero_le _, rfl, by simp, fun stream hstream => ?_⟩
    rw [hphase] at hstream
    obtain rfl := Option.some.inj hstream
    exact hpool _ info hinfo

theorem countP_dials_retry (s : State) (peer q : String) :
    ((s.cleanupStream peer).2 ++ [Effect.dial q]).countP Effect.dials = 1 := by
  have hcloses : (s.cleanupStream peer).2.countP Effect.dials = 0 := by
    refine List.countP_eq_zero.mpr fun x hx => ?_
    obtain ⟨stream, rfl⟩ := closes_cleanupStream s peer x hx
    simp [Effect.dials]
  rw [List.countP_append, hcloses]
  rfl

theorem frames_retry (s : State) (peer q : String) :
    ((s.cleanupStream peer).2 ++ [Effect.dial q]).filterMap Effect.frame? = [] := by
  refine List.filterMap_eq_nil_iff.mpr fun x hx => ?_
  rcases List.mem_append.mp hx with hx | hx
  · obtain ⟨stream, rfl⟩ := closes_cleanupStream s peer x hx
    rfl
  · obtain rfl := List.mem_singleton.mp hx
    rfl

theorem Account.quiet (h : Account s send carried returned effects) {phase : Phase}
    (hnone : send.phase.ended = 0) (hframes : o.filterMap Effect.frame? = [])
    (hsuspensions : send.phase.suspensions < phase.suspensions)
    (hdials : send.phase.attempts + o.countP Effect.dials ≤ phase.attempts)
    (hstream : ∀ stream, phase.stream? = some stream → s.peers[stream]? = some send.peer) :
    Account s { send with phase } (carried + 1) returned (effects ++ o) where
  suspensions := Nat.lt_of_le_of_lt h.suspensions hsuspensions
  dials := by
    rw [List.countP_append]
    exact Nat.le_trans (Nat.add_le_add_right h.dials _) hdials
  once := by
    have hzero := h.once
    rw [hnone] at hzero
    rw [Nat.le_zero.mp hzero]
    exact Nat.zero_le _
  frames := by
    rw [List.filterMap_append, hframes, List.append_nil]
    exact h.frames
  streams := by
    rw [List.filterMap_append, hframes, List.append_nil]
    exact h.streams
  stream := hstream

theorem attempts_le (phase : Phase) : phase.attempts ≤ 2 := by
  cases phase <;> simp [Phase.attempts]

theorem Account.written (h : Account s send carried returned effects) {stream : Nat}
    (hstream : send.phase.stream? = some stream) :
    Account s { send with phase := .done } (carried + 1) (returned + 1)
      (effects ++ [.send stream (encodeWithLengthPrefix send.message)]) := by
  have hopen : send.phase.ended = 0 ∧ send.phase.suspensions < 4 := by
    cases hphase : send.phase with
    | gotStream _ => exact ⟨rfl, show 1 < 4 by decide⟩
    | gotRetryStream _ => exact ⟨rfl, show 3 < 4 by decide⟩
    | _ => simp [hphase, Phase.stream?] at hstream
  have hzero : returned = 0 := Nat.le_zero.mp (hopen.1 ▸ h.once)
  subst hzero
  refine ⟨Nat.lt_of_le_of_lt h.suspensions hopen.2, ?_, Nat.le_refl 1, ?_, ?_, by simp [Phase.stream?]⟩
  · rw [List.countP_append]
    exact Nat.le_trans h.dials (attempts_le _)
  · rw [List.filterMap_append, List.map_append, h.frames]
    rfl
  · rw [List.filterMap_append]
    intro frame hframe
    rcases List.mem_append.mp hframe with hold | hnew
    · exact h.streams frame hold
    · obtain rfl := List.mem_singleton.mp hnew
      exact h.stream stream hstream

theorem Account.advance (h : Account t send carried returned effects) {phase : Phase}
    (ha : Advance s i send e phase o)
    (hdialed : e = .dialed i → t.peers[s.streams.length]? = some send.peer) :
    Account t { send with phase } (carried + 1) (returned + if e.returns i then 1 else 0)
      (effects ++ o) := by
  have hnever : ∀ stream, Phase.stream? .redialing = some stream →
      t.peers[stream]? = some send.peer := by
    intro stream hstream
    cases hstream
  cases ha with
  | dialed hphase =>
    refine h.quiet (by rw [hphase]; rfl) rfl (by rw [hphase]; exact Nat.zero_lt_one)
      (by rw [hphase]; exact Nat.le_refl 1) fun stream hstream => ?_
    obtain rfl := Option.some.inj hstream
    exact hdialed rfl
  | redialed hphase =>
    refine h.quiet (by rw [hphase]; rfl) rfl (by rw [hphase]; exact Nat.lt_succ_self 2)
      (by rw [hphase]; exact Nat.le_refl 2) fun stream hstream => ?_
    obtain rfl := Option.some.inj hstream
    exact hdialed rfl
  | failed _ hphase =>
    exact h.quiet (by rw [hphase]; rfl) rfl (by rw [hphase]; exact Nat.zero_lt_one)
      (by rw [hphase]; exact Nat.le_refl 1) hnever
  | gaveUp _ hphase =>
    exact h.quiet (by rw [hphase]; rfl) rfl (by rw [hphase]; exact (by decide : 2 < 4))
      (by rw [hphase]; exact Nat.le_refl 2) hnever
  | caught hphase =>
    exact h.quiet (by rw [hphase]; rfl) (frames_retry _ _ _)
      (by rw [hphase]; exact Nat.lt_succ_self 1)
      (by rw [hphase, countP_dials_retry]; exact Nat.le_refl 2) hnever
  | thrown hphase =>
    rw [Event.returns, Bool.not_true, Bool.and_false]
    exact h.quiet (by rw [hphase]; rfl) (frames_retry _ _ _)
      (by rw [hphase]; exact Nat.lt_succ_self 1)
      (by rw [hphase, countP_dials_retry]; exact Nat.le_refl 2) hnever
  | thrownAgain hphase =>
    rw [Event.returns, Bool.not_true, Bool.and_false]
    exact h.quiet (by rw [hphase]; rfl) rfl (by rw [hphase]; exact Nat.lt_succ_self 3)
      (by rw [hphase]; exact Nat.le_refl 2) hnever
  | written hstream =>
    have hreturns : (Event.sent i false).returns i = true := by simp [Event.returns]
    rw [hreturns]
    exact h.written hstream

end

structure Accounts (s : State) (es : List Event) (out : List (Option Nat × Effect)) : Prop where
  pool : PoolServes s
  started : s.sends.map (fun send => (send.peer, send.message)) = es.filterMap Event.message?
  sends : ∀ i send, s.sends[i]? = some send → Account s send (es.countP (Event.carries i))
    (es.countP (Event.returns i)) (own (some i) out)
  unstarted : ∀ i, s.sends.length ≤ i → es.countP (Event.carries i) = 0 ∧
    own (some i) out = []
  other : ∀ x ∈ own none out, ∃ stream, x = .close stream

theorem own_step (j k : Option Nat) (out : List (Option Nat × Effect)) (o : List Effect) :
    own j (out ++ o.map (k, ·)) = own j out ++ if k = j then o else [] := by
  rw [own_append, own_map]

theorem countP_concat (p : Event → Bool) (es : List Event) (e : Event) :
    (es ++ [e]).countP p = es.countP p + if p e then 1 else 0 := by
  rw [List.countP_append, List.countP_singleton]

section

variable {es : List Event} {out : List (Option Nat × Effect)}

theorem Accounts.keeps (h : Accounts s es out) (hpeers : s.peers <+: t.peers)
    (hi : s.sends[i]? = some send) (hne : s.running e ≠ some i) (hcarries : e.carries i = false) :
    Account t send ((es ++ [e]).countP (Event.carries i)) ((es ++ [e]).countP (Event.returns i))
      (own (some i) (out ++ o.map (s.running e, ·))) := by
  rw [countP_concat, countP_concat, hcarries, returns_eq_false hcarries, own_step,
    if_neg hne, List.append_nil]
  exact (h.sends i send hi).mono hpeers

theorem Accounts.absent (h : Accounts s es out) (hle : s.sends.length ≤ i)
    (hne : s.running e ≠ some i) (hcarries : e.carries i = false) :
    (es ++ [e]).countP (Event.carries i) = 0 ∧
      own (some i) (out ++ o.map (s.running e, ·)) = [] := by
  rw [countP_concat, hcarries, own_step, if_neg hne, List.append_nil]
  exact h.unstarted i hle

theorem countP_returns_le (i : Nat) (es : List Event) :
    es.countP (Event.returns i) ≤ es.countP (Event.carries i) := by
  refine List.countP_mono_left fun e _ hreturns => ?_
  by_contra hcarries
  rw [returns_eq_false (Bool.eq_false_iff.mpr hcarries)] at hreturns
  cases hreturns

theorem carries_of_running {i j : Nat} (hrunning : s.running e = some i) (hne : i ≠ j) :
    e.carries j = false := by
  cases e with
  | dialed k | dialFailed k _ | caught k | sent k _ =>
    obtain rfl := Option.some.inj hrunning
    exact decide_eq_false hne
  | _ => rfl

theorem carries_self {i : Nat} {phase : Phase} (ha : Advance s i send e phase o) :
    e.carries i = true := by
  cases ha <;> exact decide_eq_true rfl

theorem map_call_set {sends : List Send} {phase : Phase} (hi : sends[i]? = some send) :
    (sends.set i { send with phase }).map (fun send => (send.peer, send.message)) =
      sends.map fun send => (send.peer, send.message) := by
  exact map_set_of_eq hi rfl

theorem Accounts.step (h : Accounts s es out) (hs : s.step e = some (t, o)) :
    Accounts t (es ++ [e]) (out ++ o.map (s.running e, ·)) := by
  obtain ⟨hpool, hpeers⟩ := h.pool.step hs
  cases step_running hs with
  | starts send hrunning hcarries hmessage hsends hstarts =>
    refine ⟨hpool, ?_, fun i x hi => ?_, fun i hle => ?_, ?_⟩
    · rw [hsends, List.map_append, h.started, List.filterMap_append, List.filterMap_cons, hmessage]
      rfl
    · rw [hsends] at hi
      rcases Calls.getElem?_concat.mp hi with hold | ⟨rfl, rfl⟩
      · have hlt := (List.getElem?_eq_some_iff.mp hold).1
        refine h.keeps hpeers hold ?_ (hcarries i)
        rw [hrunning]
        exact fun heq => Nat.ne_of_gt hlt (Option.some.inj heq)
      · obtain ⟨hcount, heffects⟩ := h.unstarted _ (Nat.le_refl _)
        have hreturned := Nat.le_zero.mp (hcount ▸ countP_returns_le s.sends.length es)
        rw [countP_concat, countP_concat, hcarries, returns_eq_false (hcarries _), hcount, hreturned,
          own_step, heffects, if_pos hrunning]
        exact (Account.start h.pool hstarts).mono hpeers
    · rw [hsends, List.length_append, List.length_singleton] at hle
      refine h.absent (Nat.le_of_succ_le hle) ?_ (hcarries i)
      rw [hrunning]
      exact fun heq => Nat.ne_of_lt hle (Option.some.inj heq)
    · rw [own_step, hrunning, if_neg (by simp), List.append_nil]
      exact h.other
  | goesOn i send hrunning hmessage hi hcarries =>
    obtain ⟨phase, hsends, hadvance⟩ := hcarries
    refine ⟨hpool, ?_, fun j x hj => ?_, fun j hle => ?_, ?_⟩
    · rw [hsends, List.filterMap_append, List.filterMap_cons, hmessage, ← h.started]
      exact (map_call_set hi).trans (List.append_nil _).symm
    · rw [hsends] at hj
      by_cases hij : i = j
      · subst hij
        obtain ⟨hlt, -⟩ := List.getElem?_eq_some_iff.mp hi
        rw [List.getElem?_set_self hlt] at hj
        obtain rfl := Option.some.inj hj
        rw [countP_concat, countP_concat, carries_self hadvance, if_pos rfl, own_step,
          if_pos hrunning]
        refine ((h.sends i send hi).mono hpeers).advance hadvance ?_
        rintro rfl
        exact peers_dialed hi hs
      · rw [List.getElem?_set_ne hij] at hj
        refine h.keeps hpeers hj ?_ (carries_of_running hrunning hij)
        rw [hrunning]
        exact fun heq => hij (Option.some.inj heq)
    · rw [hsends, List.length_set] at hle
      have hij : i ≠ j := Nat.ne_of_lt (Nat.lt_of_lt_of_le
        (List.getElem?_eq_some_iff.mp hi).1 hle)
      refine h.absent hle ?_ (carries_of_running hrunning hij)
      rw [hrunning]
      exact fun heq => hij (Option.some.inj heq)
    · rw [own_step, hrunning, if_neg (by simp), List.append_nil]
      exact h.other
  | other hrunning hcarries hmessage hsends hcloses =>
    have hne : ∀ i, s.running e ≠ some i := by
      intro i heq
      rw [hrunning] at heq
      cases heq
    refine ⟨hpool, ?_, fun i x hi => ?_, fun i hle => ?_, ?_⟩
    · rw [hsends, h.started, List.filterMap_append, List.filterMap_cons, hmessage]
      exact (List.append_nil _).symm
    · rw [hsends] at hi
      exact h.keeps hpeers hi (hne i) (hcarries i)
    · rw [hsends] at hle
      exact h.absent hle (hne i) (hcarries i)
    · rw [own_step, if_pos hrunning]
      exact List.forall_mem_append.mpr ⟨h.other, hcloses⟩

end

theorem accounts_of_run {es : List Event} {out : List (Option Nat × Effect)}
    (h : traced.Run System.any es s out) : Accounts s es out := by
  induction h with
  | start =>
    refine ⟨fun peer info hinfo => ?_, rfl, fun i send hi => ?_, fun i _ => ⟨rfl, rfl⟩, ?_⟩
    · cases hinfo
    · cases hi
    · intro x hx
      cases hx
  | step _ _ hs ih =>
    obtain ⟨r, hr, heq⟩ := Option.map_eq_some_iff.mp hs
    obtain ⟨rfl, rfl⟩ := Prod.ext_iff.mp heq
    exact ih.step hr

/-- The sends are the calls of `_sendMessage`. Each goes on at most four times, dials at most
twice, and writes nothing but its own frame, to a stream of its own peer: once if a
`stream.send` of it has returned, and never otherwise. Nothing else dials or writes: what no send
has done closes a stream, and there are no numbers but those of the sends. -/
theorem sendMessage_once {es : List Event} {s : State} {out : List (Option Nat × Effect)}
    (h : traced.Run System.any es s out) :
    s.sends.map (fun send => (send.peer, send.message)) = es.filterMap Event.message? ∧
    (∀ x ∈ own none out, ∃ stream, x = .close stream) ∧
    (∀ i, s.sends.length ≤ i → own (some i) out = []) ∧
    ∀ i send, s.sends[i]? = some send →
      es.countP (Event.carries i) ≤ 4 ∧
      (own (some i) out).countP Effect.dials ≤ 2 ∧
      es.countP (Event.returns i) ≤ 1 ∧
      ((own (some i) out).filterMap Effect.frame?).map (·.2) =
        List.replicate (es.countP (Event.returns i)) (encodeWithLengthPrefix send.message) ∧
      ∀ frame ∈ (own (some i) out).filterMap Effect.frame?,
        s.peers[frame.1]? = some send.peer := by
  have haccounts := accounts_of_run h
  refine ⟨haccounts.started, haccounts.other, fun i hle => (haccounts.unstarted i hle).2,
    fun i send hi => ?_⟩
  have haccount := haccounts.sends i send hi
  have hsuspensions : send.phase.suspensions ≤ 4 := by
    cases send.phase <;> simp [Phase.suspensions]
  have hended : send.phase.ended ≤ 1 := by
    cases send.phase <;> simp [Phase.ended]
  exact ⟨Nat.le_trans haccount.suspensions hsuspensions,
    Nat.le_trans haccount.dials (attempts_le _), Nat.le_trans haccount.once hended,
    haccount.frames, haccount.streams⟩

def retriedOnce : List Event :=
  [.sendMessage "a" [1], .dialed 0, .sent 0 true, .dialed 0, .sent 0 false]

theorem sendMessage_once_retriedOnce : ∃ s out, traced.Run System.any retriedOnce s out ∧
    (own (some 0) out).countP Effect.dials = 2 ∧ retriedOnce.countP (Event.returns 0) = 1 ∧
    ((own (some 0) out).filterMap Effect.frame?).length = 1 := by
  obtain ⟨s, out, hrun, hdials, hlength⟩ := System.exists_run (T := traced) retriedOnce
    (p := fun r => (own (some 0) r.2).countP Effect.dials = 2 ∧ 0 < r.1.sends.length)
    (by decide)
  obtain ⟨-, -, -, hsends⟩ := sendMessage_once hrun
  have hframes := (hsends 0 s.sends[0] (List.getElem?_eq_getElem hlength)).2.2.2.1
  have hreturned : retriedOnce.countP (Event.returns 0) = 1 := by decide
  refine ⟨s, out, hrun, hdials, hreturned, ?_⟩
  simpa [hreturned] using congrArg List.length hframes

end IpfsShard.Bitswap.Streams
