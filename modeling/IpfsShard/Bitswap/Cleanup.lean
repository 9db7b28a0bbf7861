import IpfsShard.Bitswap.StreamSteps

/-! Which stream a cleanup closes. It is called for a stream that failed, but looks the
stream up by peer. -/

namespace IpfsShard.Bitswap.Streams
open Codec Runs

def failing (s : State) : Event → Option (String × Nat)
  | .readEnded i => s.streams[i]?.map fun stream => (stream.peer, i)
  | .sent i true => s.sends[i]?.bind fun send =>
      match send.phase with
      | .gotStream stream => some (send.peer, stream)
      | _ => none
  | _ => none

def CleansOwn (s : State) (e : Event) : Prop :=
  ∀ peer stream, failing s e = some (peer, stream) → ∀ t o, s.step e = some (t, o) →
    (∀ i, Effect.close i ∈ o → i = stream) ∧
    ∀ info, s.streamPool.lookup peer = some info → info.stream ≠ stream →
      t.streamPool.lookup peer = some info ∧
        ∃ st, t.streams[info.stream]? = some st ∧ st.closed = false

/-- When a stream fails, it is the one in the pool, or there is none. -/
def FindsOwn (s : State) (e : Event) : Prop :=
  ∀ peer stream, failing s e = some (peer, stream) → ∀ info,
    s.streamPool.lookup peer = some info → info.stream = stream

variable {s t : State} {e : Event} {o : List Effect}

theorem close_mem_cleanupStream (s : State) (peer : String) (i : Nat) :
    Effect.close i ∈ (s.cleanupStream peer).2 ↔
      ∃ info, s.streamPool.lookup peer = some info ∧ info.stream = i := by
  simp only [State.cleanupStream]
  split <;> simp [*, eq_comm]

theorem close_mem_of_failing {peer : String} {stream i : Nat}
    (hf : failing s e = some (peer, stream)) (hs : s.step e = some (t, o)) :
    Effect.close i ∈ o ↔ ∃ info, s.streamPool.lookup peer = some info ∧ info.stream = i := by
  cases e with
  | readEnded j =>
    obtain ⟨st, hst, he⟩ := Option.map_eq_some_iff.mp hf
    cases he
    simp only [State.step, hst, Option.bind_some] at hs
    split_ifs at hs
    have hclose := close_mem_cleanupStream
      { s with streams := s.streams.set stream { st with reading := false } } st.peer i
    rwa [← State.readEnded, Option.some.inj hs] at hclose
  | sent j throws =>
    cases throws with
    | false => cases hf
    | true =>
      obtain ⟨send, hsend, he⟩ := Option.bind_eq_some_iff.mp hf
      split at he
      · cases he
        simp only [State.step, Option.bind_some, State.sent, *, if_true, Option.some.injEq] at hs
        have hclose := close_mem_cleanupStream s send.peer i
        have ho : o = (s.cleanupStream send.peer).2 ++ [.dial send.peer] := by
          rw [State.retry] at hs
          exact (congrArg Prod.snd hs).symm
        rw [ho, List.mem_append, hclose]
        simp
      · cases he
  | _ => cases hf

theorem cleansOwn_iff (hs : s.step e = some (t, o)) : FindsOwn s e ↔ CleansOwn s e := by
  constructor
  · intro hfind peer stream hf t' o' hs'
    have hown := hfind peer stream hf
    refine ⟨fun i hi => ?_, fun info hinfo hne => absurd (hown info hinfo) hne⟩
    obtain ⟨info, hinfo, rfl⟩ := (close_mem_of_failing hf hs').mp hi
    exact hown info hinfo
  · intro hclean peer stream hf info hinfo
    have hclosed := (close_mem_of_failing hf hs).mpr ⟨info, hinfo, rfl⟩
    exact (hclean peer stream hf t o hs).1 info.stream hclosed

/-- The cleanups of a run spare every other stream exactly when each of them finds the
stream it is made for, or nothing. -/
theorem run_findsOwn_iff {es : List Event} {out : List Effect} :
    streams.Run FindsOwn es s out ↔ streams.Run CleansOwn es s out := by
  refine System.run_congr (I := fun _ => True) (fun _ _ _ _ => trivial) ?_
  intro s e t o _ hs
  exact cleansOwn_iff hs

def retried : List Event :=
  [.sendMessage "peer" [], .dialed 0, .sent 0 true, .dialed 0, .sent 0 false]

/-- When the read loop of the old stream ends then, the new one is closed. -/
theorem not_cleansOwn_retried :
    ∃ s out, streams.Run System.any retried s out ∧ ¬ CleansOwn s (.readEnded 0) := by
  obtain ⟨s, out, hrun, hpool, hstreams⟩ := System.exists_run (T := streams) retried
    (p := fun r => r.1.streamPool.lookup "peer" = some ⟨1, .outbound, false⟩ ∧
      r.1.streams = [⟨"peer", true, true⟩, ⟨"peer", true, false⟩]) (by decide +kernel)
  simp only at hpool hstreams
  refine ⟨s, out, hrun, fun h => ?_⟩
  have hf : failing s (.readEnded 0) = some ("peer", 0) := by simp [failing, hstreams]
  obtain ⟨t, o, hs⟩ : ∃ t o, s.step (.readEnded 0) = some (t, o) :=
    ⟨_, _, by simp only [State.step, hstreams]; rfl⟩
  have hown := (cleansOwn_iff hs).mpr h "peer" 0 hf _ hpool
  cases hown

def InUse (s : State) (peer : String) (i : Nat) : Prop :=
  (∃ st, s.streams[i]? = some st ∧ st.peer = peer ∧ st.reading = true) ∨
    ∃ send ∈ s.sends, send.peer = peer ∧ send.phase = .gotStream i

def Alone (s : State) : Event → Prop
  | .dialed i => ∀ send, s.sends[i]? = some send → ∀ j, ¬ InUse s send.peer j
  | .inbound peer => ∀ j, ¬ InUse s peer j
  | _ => True

structure Single (s : State) : Prop where
  pooled : ∀ peer info, s.streamPool.lookup peer = some info →
    s.streams[info.stream]? = some ⟨peer, true, false⟩
  alone : ∀ peer info, s.streamPool.lookup peer = some info →
    ∀ i, InUse s peer i → info.stream = i

theorem single_init : Single {} := by
  constructor <;> simp

namespace InUse

variable {peer q : String} {i : Nat}

theorem of_cleanupStream (h : InUse (s.cleanupStream peer).1 q i) : InUse s q i := by
  unfold State.cleanupStream at h
  split at h
  · exact h
  · refine h.imp_left ?_
    rintro ⟨st, hst, hpeer, hreading⟩
    rw [State.close, List.getElem?_modify] at hst
    obtain ⟨st', hst', rfl⟩ := Option.map_eq_some_iff.mp hst
    split_ifs at hpeer hreading <;> exact ⟨st', hst', hpeer, hreading⟩

theorem of_pool {direction : Direction} (h : InUse (s.pool peer direction) q i) :
    InUse s q i ∨ i = s.streams.length ∧ q = peer := by
  rcases h with ⟨st, hst, hpeer, hreading⟩ | hsend
  · simp only [State.pool] at hst
    rcases Nat.lt_trichotomy i s.streams.length with hlt | rfl | hgt
    · rw [List.getElem?_append_left hlt] at hst
      exact Or.inl (Or.inl ⟨st, hst, hpeer, hreading⟩)
    · rw [List.getElem?_concat_length, Option.some.injEq] at hst
      subst hst
      exact Or.inr ⟨rfl, hpeer.symm⟩
    · rw [List.getElem?_eq_none (by simp; omega)] at hst
      cases hst
  · exact Or.inl (Or.inr hsend)

theorem of_ended {j : Nat} {stream : Stream} (hj : s.streams[j]? = some stream)
    (h : InUse { s with streams := s.streams.set j { stream with reading := false } } q i) :
    InUse s q i := by
  refine h.imp_left ?_
  rintro ⟨st, hst, hpeer, hreading⟩
  by_cases heq : j = i
  · subst heq
    rw [List.getElem?_set_self (List.getElem?_eq_some_iff.mp hj).1, Option.some.injEq] at hst
    subst hst
    cases hreading
  · exact ⟨st, by rwa [List.getElem?_set_ne heq] at hst, hpeer, hreading⟩

end InUse

namespace Single

theorem cleanupStream (h : Single s) (peer : String) : Single (s.cleanupStream peer).1 where
  pooled := PoolOpen.cleanupStream h.pooled peer
  alone q info hq i hi := h.alone q info (lookup_cleanupStream_iff.mp hq).2 i hi.of_cleanupStream

theorem sends (h : Single s) {sends : List Send}
    (hsends : ∀ send ∈ sends, ∀ i, send.phase = .gotStream i →
      (∃ send' ∈ s.sends, send'.peer = send.peer ∧ send'.phase = .gotStream i) ∨
        ∃ info, s.streamPool.lookup send.peer = some info ∧ info.stream = i) :
    Single { s with sends } where
  pooled := h.pooled
  alone peer info hp i hi := by
    rcases hi with hi | ⟨send, hmem, rfl, hphase⟩
    · exact h.alone peer info hp i (Or.inl hi)
    · rcases hsends send hmem i hphase with hold | ⟨info', hp', hi⟩
      · exact h.alone send.peer info hp i (Or.inr hold)
      · rw [hp] at hp'
        cases hp'
        exact hi

theorem setPhase (h : Single s) {i : Nat} {send : Send} {phase : Phase}
    (hphase : ∀ j, phase = .gotStream j →
      ∃ info, s.streamPool.lookup send.peer = some info ∧ info.stream = j) :
    Single (s.setPhase i send phase) := by
  refine h.sends fun send' hmem j hj => ?_
  rcases List.mem_or_eq_of_mem_set hmem with hmem | rfl
  · exact Or.inl ⟨send', hmem, rfl, hj⟩
  · exact Or.inr (hphase j hj)

theorem pool (h : Single s) {peer : String} (hnone : ∀ i, ¬ InUse s peer i)
    (direction : Direction) : Single (s.pool peer direction) where
  pooled := PoolOpen.pool h.pooled peer direction
  alone q info hq i hi := by
    rcases lookup_pool_iff.mp hq with ⟨rfl, rfl⟩ | ⟨hqp, hq⟩
    · rcases hi.of_pool with hold | ⟨rfl, -⟩
      · exact absurd hold (hnone i)
      · rfl
    · rcases hi.of_pool with hold | ⟨-, rfl⟩
      · exact h.alone q info hq i hold
      · exact absurd rfl hqp

theorem retry (h : Single s) (i : Nat) (send : Send) : Single (s.retry i send).1 :=
  (h.cleanupStream send.peer).setPhase (by simp)

end Single

theorem Single.dialed (h : Single s) {i : Nat} {send : Send}
    (hnone : ∀ j, ¬ InUse s send.peer j) (hs : s.dialed i send = some (t, o)) : Single t := by
  have hpool := h.pool hnone .outbound
  have hlookup : (s.pool send.peer .outbound).streamPool.lookup send.peer =
      some ⟨s.streams.length, .outbound, false⟩ := AList.lookup_insert _
  simp only [State.dialed] at hs
  split at hs
  · cases hs
    exact hpool.setPhase fun j hj => ⟨_, hlookup, Phase.gotStream.inj hj⟩
  · cases hs
    exact hpool.setPhase (by simp)
  · cases hs

theorem Single.onInboundStream (h : Single s) {peer : String} (hnone : ∀ i, ¬ InUse s peer i) :
    Single (s.onInboundStream peer) := by
  simp only [State.onInboundStream]
  split
  · rename_i existing hp
    -- the pooled stream would be in use
    exact absurd (Or.inl ⟨_, h.pooled peer existing hp, rfl, rfl⟩) (hnone existing.stream)
  · exact h.pool hnone .inbound

theorem Single.readEnded (h : Single s) {i : Nat} {stream : Stream}
    (hi : s.streams[i]? = some stream) : Single (s.readEnded i stream).1 where
  pooled := PoolOpen.readEnded h.pooled hi
  alone q info hq j hj :=
    h.alone q info (lookup_cleanupStream_iff.mp hq).2 j (hj.of_cleanupStream.of_ended hi)

theorem Single.sendMessage (h : Single s) (peer : String) (message : Bytes) :
    Single (s.sendMessage peer message).1 := by
  have happend : ∀ phase, (∀ j, phase = .gotStream j →
      ∃ info, s.streamPool.lookup peer = some info ∧ info.stream = j) →
      Single { s with sends := s.sends ++ [⟨peer, message, phase⟩] } := by
    intro phase hphase
    refine h.sends fun send hmem j hj => ?_
    rcases List.mem_append.mp hmem with hmem | hmem
    · exact Or.inl ⟨send, hmem, rfl, hj⟩
    · obtain rfl := List.mem_singleton.mp hmem
      exact Or.inr (hphase j hj)
  have hdial := happend .dialing (by simp)
  simp only [State.sendMessage]
  split
  · rename_i existing hp
    split_ifs
    · exact hdial
    · exact happend _ fun j hj => ⟨existing, hp, Phase.gotStream.inj hj⟩
  · exact hdial

theorem Single.dialFailed (h : Single s) {i : Nat} {send : Send} {unsupported : Bool}
    (hs : s.dialFailed i send unsupported = some (t, o)) : Single t := by
  have hmarked : Single (if unsupported then
      { s with unsupportedPeers := send.peer :: s.unsupportedPeers } else s) := by
    split_ifs
    · exact ⟨h.pooled, h.alone⟩
    · exact h
  simp only [State.dialFailed] at hs
  split at hs
  · cases hs
    exact hmarked.setPhase (by simp)
  · cases hs
    exact hmarked.setPhase (by simp)
  · cases hs

theorem Single.sent (h : Single s) {i : Nat} {send : Send} {throws : Bool}
    (hs : s.sent i send throws = some (t, o)) : Single t := by
  have hdone : Single (s.setPhase i send .done) := h.setPhase (by simp)
  simp only [State.sent] at hs
  split at hs
  · split_ifs at hs
    · obtain rfl := congrArg Prod.fst (Option.some.inj hs)
      exact h.retry i send
    · cases hs
      exact hdone
  · cases hs
    exact hdone
  · cases hs

theorem single_step (h : Single s) (ha : Alone s e) (hs : s.step e = some (t, o)) : Single t := by
  cases e with
  | sendMessage peer message =>
    obtain rfl := congrArg Prod.fst (Option.some.inj hs)
    exact h.sendMessage peer message
  | dialed i =>
    obtain ⟨send, hsend, hs⟩ := Option.bind_eq_some_iff.mp hs
    exact h.dialed (ha send hsend) hs
  | dialFailed i unsupported =>
    obtain ⟨send, -, hs⟩ := Option.bind_eq_some_iff.mp hs
    exact h.dialFailed hs
  | caught i =>
    obtain ⟨send, -, hs⟩ := Option.bind_eq_some_iff.mp hs
    split_ifs at hs
    obtain rfl := congrArg Prod.fst (Option.some.inj hs)
    exact h.retry i send
  | sent i throws =>
    obtain ⟨send, -, hs⟩ := Option.bind_eq_some_iff.mp hs
    exact h.sent hs
  | inbound peer =>
    obtain rfl := congrArg Prod.fst (Option.some.inj hs)
    exact h.onInboundStream ha
  | readEnded i =>
    obtain ⟨stream, hi, hs⟩ := Option.bind_eq_some_iff.mp hs
    split_ifs at hs
    obtain rfl := congrArg Prod.fst (Option.some.inj hs)
    exact h.readEnded hi
  | disconnected peer =>
    obtain rfl := congrArg Prod.fst (Option.some.inj hs)
    exact h.cleanupStream peer
  | stop =>
    obtain rfl := congrArg Prod.fst (Option.some.inj hs)
    constructor <;> simp [State.stop]
  | clearUnsupportedPeers =>
    obtain rfl := congrArg Prod.fst (Option.some.inj hs)
    exact ⟨h.pooled, h.alone⟩

theorem findsOwn_of_single (h : Single s) (hs : s.step e = some (t, o)) : FindsOwn s e := by
  intro peer stream hf info hp
  refine h.alone peer info hp stream ?_
  cases e with
  | readEnded i =>
    obtain ⟨st, hst, he⟩ := Option.map_eq_some_iff.mp hf
    cases he
    simp only [State.step, hst, Option.bind_some] at hs
    split_ifs at hs with hreading
    exact Or.inl ⟨st, hst, rfl, hreading⟩
  | sent i throws =>
    cases throws with
    | false => cases hf
    | true =>
      obtain ⟨send, hsend, he⟩ := Option.bind_eq_some_iff.mp hf
      split at he
      · rename_i hphase
        cases he
        exact Or.inr ⟨send, List.mem_of_getElem? hsend, rfl, hphase⟩
      · cases he
  | _ => cases hf

theorem run_cleansOwn_of_alone {es : List Event} {out : List Effect}
    (h : streams.Run Alone es s out) : streams.Run CleansOwn es s out := by
  refine h.strengthen single_init fun s e t o hsingle ha hs => ?_
  exact ⟨single_step hsingle ha hs, (cleansOwn_iff hs).mp (findsOwn_of_single hsingle hs)⟩

end IpfsShard.Bitswap.Streams
