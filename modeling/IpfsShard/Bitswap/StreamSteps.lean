import IpfsShard.Bitswap.Streams
import IpfsShard.Lib.Table

/-! What a step can do to the streams of `SimpleBitswap`: to the pool and the streams in it on
one side, to the sends on the other. -/

namespace IpfsShard.Bitswap.Streams
open Table

def State.Open (s : State) (i : Nat) (peer : String) : Prop :=
  s.streams[i]? = some ⟨peer, true, false⟩

def PoolOpen (s : State) : Prop :=
  ∀ peer info, s.streamPool.lookup peer = some info → s.Open info.stream peer

section

variable {s : State} {peer q : String} {i : Nat} {info : StreamInfo}

theorem Open.lt (h : s.Open i peer) : i < s.streams.length := (List.getElem?_eq_some_iff.mp h).1

theorem lookup_cleanupStream_iff : (s.cleanupStream peer).1.streamPool.lookup q = some info ↔
    q ≠ peer ∧ s.streamPool.lookup q = some info := by
  unfold State.cleanupStream
  split
  · rename_i hnone
    refine ⟨fun h => ⟨?_, h⟩, And.right⟩
    rintro rfl
    rw [hnone] at h
    cases h
  · exact lookup_erase_iff

theorem getElem?_modify_closed {streams : List Stream} {j : Nat} :
    (streams.modify j fun st => { st with closed := true })[i]? = some ⟨q, true, false⟩ ↔
      streams[i]? = some ⟨q, true, false⟩ ∧ j ≠ i := by
  rw [List.getElem?_modify]
  split_ifs with hj
  · simp [hj]
  · simp [hj]

theorem length_cleanupStream (s : State) (peer : String) :
    (s.cleanupStream peer).1.streams.length = s.streams.length := by
  unfold State.cleanupStream
  split
  · rfl
  · exact List.length_modify _ _ _

theorem open_cleanupStream_iff : (s.cleanupStream peer).1.Open i q ↔
    s.Open i q ∧ ∀ info, s.streamPool.lookup peer = some info → info.stream ≠ i := by
  unfold State.cleanupStream
  split
  · rename_i hnone
    simp [hnone]
  · rename_i info hinfo
    rw [State.Open, State.close, getElem?_modify_closed, hinfo]
    simp [State.Open]

theorem open_pool_iff {direction : Direction} : (s.pool peer direction).Open i q ↔
    s.Open i q ∨ (i = s.streams.length ∧ peer = q) := by
  unfold State.Open State.pool
  rcases Nat.lt_trichotomy i s.streams.length with h | rfl | h
  · rw [List.getElem?_append_left h]
    simp [Nat.ne_of_lt h]
  · simp
  · rw [List.getElem?_eq_none (by simp; omega), List.getElem?_eq_none (by omega)]
    simp [Nat.ne_of_gt h]

theorem lookup_pool_iff {direction : Direction} :
    (s.pool peer direction).streamPool.lookup q = some info ↔
      (q = peer ∧ ⟨s.streams.length, direction, false⟩ = info) ∨
        (q ≠ peer ∧ s.streamPool.lookup q = some info) :=
  lookup_insert_iff

theorem open_ended_iff {stream : Stream} {j : Nat} (hj : s.streams[j]? = some stream) :
    ({ s with streams := s.streams.set j { stream with reading := false } } : State).Open i q ↔
      s.Open i q ∧ i ≠ j := by
  unfold State.Open
  by_cases hij : j = i
  · subst hij
    rw [List.getElem?_set_self (List.getElem?_eq_some_iff.mp hj).1]
    simp
  · rw [List.getElem?_set_ne hij]
    simp [Ne.symm hij]

theorem getElem?_foldl_closed {l : List Nat} {streams : List Stream} :
    (l.foldl (fun sts j => sts.modify j fun st => { st with closed := true }) streams)[i]? =
      some ⟨q, true, false⟩ ↔ streams[i]? = some ⟨q, true, false⟩ ∧ i ∉ l := by
  induction l generalizing streams with
  | nil => simp
  | cons j l ih =>
    rw [List.foldl_cons, ih, getElem?_modify_closed, List.mem_cons, not_or, and_assoc]
    exact and_congr_right fun _ => and_congr_left fun _ => ⟨Ne.symm, Ne.symm⟩

theorem open_stop_iff : s.stop.1.Open i q ↔
    s.Open i q ∧ ∀ peer info, s.streamPool.lookup peer = some info → info.stream ≠ i := by
  unfold State.Open State.stop
  rw [getElem?_foldl_closed]
  refine and_congr_right fun _ => ?_
  simp only [List.mem_map, List.mem_reverse, not_exists, not_and]
  constructor
  · intro h peer info hinfo
    exact h ⟨peer, info⟩ (AList.mem_lookup_iff.mp hinfo)
  · intro h x hx
    exact h x.1 x.2 (AList.mem_lookup_iff.mpr hx)

theorem onInboundStream_cases (s : State) (peer : String) :
    s.onInboundStream peer = s.pool peer .inbound ∧
        (∀ info, s.streamPool.lookup peer = some info → info.direction ≠ .outbound) ∨
      s.onInboundStream peer = { s with streams := s.streams ++ [{ peer }] } := by
  unfold State.onInboundStream
  cases hlookup : s.streamPool.lookup peer with
  | none => exact Or.inl ⟨rfl, by simp⟩
  | some existing =>
    dsimp only
    split_ifs with hdirection
    · exact Or.inr rfl
    · exact Or.inl ⟨rfl, fun info hinfo => Option.some.inj hinfo ▸ hdirection⟩

namespace PoolOpen

theorem apart (h : PoolOpen s) (hopen : s.Open i q) (hne : q ≠ peer) :
    ∀ info, s.streamPool.lookup peer = some info → info.stream ≠ i := by
  rintro info hinfo rfl
  have hpeer := h peer info hinfo
  rw [State.Open, hopen] at hpeer
  exact hne (congrArg Stream.peer (Option.some.inj hpeer))

theorem cleanupStream (h : PoolOpen s) (peer : String) : PoolOpen (s.cleanupStream peer).1 := by
  intro q info hq
  obtain ⟨hne, hq⟩ := lookup_cleanupStream_iff.mp hq
  exact open_cleanupStream_iff.mpr ⟨h q info hq, h.apart (h q info hq) hne⟩

theorem pool (h : PoolOpen s) (peer : String) (direction : Direction) :
    PoolOpen (s.pool peer direction) := by
  intro q info hq
  rcases lookup_pool_iff.mp hq with ⟨rfl, rfl⟩ | ⟨-, hold⟩
  · exact open_pool_iff.mpr (Or.inr ⟨rfl, rfl⟩)
  · exact open_pool_iff.mpr (Or.inl (h q info hold))

theorem readEnded (h : PoolOpen s) {stream : Stream} (hi : s.streams[i]? = some stream) :
    PoolOpen (s.readEnded i stream).1 := by
  intro q info hq
  obtain ⟨hne, hq⟩ := lookup_cleanupStream_iff.mp hq
  have hopen := h q info hq
  refine open_cleanupStream_iff.mpr ⟨(open_ended_iff hi).mpr ⟨hopen, ?_⟩, h.apart hopen hne⟩
  rintro rfl
  rw [State.Open, hi] at hopen
  exact hne (congrArg Stream.peer (Option.some.inj hopen)).symm

end PoolOpen

end

inductive PoolChange (s : State) : Event → State → Prop where
  | keeps {e : Event} : (∀ i, e ≠ .dialed i) → PoolChange s e s
  | cleans {e : Event} (peer : String) : (∀ i, e ≠ .dialed i) →
      PoolChange s e (s.cleanupStream peer).1
  | dialed {i : Nat} {send : Send} : s.sends[i]? = some send →
      PoolChange s (.dialed i) (s.pool send.peer .outbound)
  | inbound (peer : String) : PoolChange s (.inbound peer) (s.onInboundStream peer)
  | ended {i : Nat} {stream : Stream} : s.streams[i]? = some stream →
      PoolChange s (.readEnded i) (s.readEnded i stream).1
  | stop : PoolChange s .stop s.stop.1

inductive SendsChange (sends : List Send) : List Send → Prop where
  | keeps : SendsChange sends sends
  | starts (send : Send) : SendsChange sends (sends ++ [send])
  | phase {i : Nat} {send : Send} (phase : Phase) : sends[i]? = some send →
      SendsChange sends (sends.set i { send with phase })

structure Changes (s : State) (e : Event) (t : State) : Prop where
  pool : ∃ u, PoolChange s e u ∧ t.streamPool = u.streamPool ∧ t.streams = u.streams
  sends : SendsChange s.sends t.sends

variable {s t : State} {e : Event} {o : List Effect}

theorem sends_cleanupStream (s : State) (peer : String) :
    (s.cleanupStream peer).1.sends = s.sends := by
  unfold State.cleanupStream
  split <;> rfl

theorem sends_onInboundStream (s : State) (peer : String) :
    (s.onInboundStream peer).sends = s.sends := by
  unfold State.onInboundStream
  split
  · split_ifs <;> rfl
  · rfl

theorem sendMessage_eq (s : State) (peer : String) (message : Bytes) : ∃ phase,
    (s.sendMessage peer message).1 = { s with sends := s.sends ++ [⟨peer, message, phase⟩] } := by
  unfold State.sendMessage
  split
  · split_ifs <;> exact ⟨_, rfl⟩
  · exact ⟨_, rfl⟩

theorem retry_changes {i : Nat} {send : Send} (hi : s.sends[i]? = some send)
    (he : ∀ j, e ≠ .dialed j) : Changes s e (s.retry i send).1 where
  pool := ⟨_, .cleans send.peer he, rfl, rfl⟩
  sends := by
    show SendsChange s.sends ((s.cleanupStream send.peer).1.sends.set i _)
    rw [sends_cleanupStream]
    exact .phase _ hi

theorem setPhase_changes {i : Nat} {send : Send} (hi : s.sends[i]? = some send)
    (he : ∀ j, e ≠ .dialed j) (phase : Phase) : Changes s e (s.setPhase i send phase) :=
  ⟨⟨s, .keeps he, rfl, rfl⟩, .phase phase hi⟩

theorem dialed_changes {i : Nat} {send : Send} (hi : s.sends[i]? = some send)
    (hs : s.dialed i send = some (t, o)) : Changes s (.dialed i) t := by
  simp only [State.dialed] at hs
  split at hs <;> cases hs <;> exact ⟨⟨_, .dialed hi, rfl, rfl⟩, .phase _ hi⟩

theorem dialFailed_changes {i : Nat} {send : Send} {unsupported : Bool}
    (hi : s.sends[i]? = some send) (hs : s.dialFailed i send unsupported = some (t, o)) :
    Changes s (.dialFailed i unsupported) t := by
  simp only [State.dialFailed] at hs
  have hmarked : ∀ phase, Changes s (.dialFailed i unsupported)
      ((if unsupported then { s with unsupportedPeers := send.peer :: s.unsupportedPeers }
        else s).setPhase i send phase) := by
    intro phase
    split_ifs <;> exact ⟨⟨s, .keeps (by simp), rfl, rfl⟩, .phase phase hi⟩
  split at hs <;> cases hs <;> exact hmarked _

theorem sent_changes {i : Nat} {send : Send} {throws : Bool} (hi : s.sends[i]? = some send)
    (hs : s.sent i send throws = some (t, o)) : Changes s (.sent i throws) t := by
  simp only [State.sent] at hs
  split at hs
  · split_ifs at hs
    · obtain rfl := congrArg Prod.fst (Option.some.inj hs)
      exact retry_changes hi (by simp)
    · cases hs
      exact setPhase_changes hi (by simp) _
  · cases hs
    exact setPhase_changes hi (by simp) _
  · cases hs

theorem step_changes (hs : s.step e = some (t, o)) : Changes s e t := by
  cases e with
  | sendMessage peer message =>
    obtain rfl := congrArg Prod.fst (Option.some.inj hs)
    obtain ⟨phase, heq⟩ := sendMessage_eq s peer message
    rw [heq]
    exact ⟨⟨s, .keeps (by simp), rfl, rfl⟩, .starts _⟩
  | dialed i =>
    obtain ⟨send, hi, hs⟩ := Option.bind_eq_some_iff.mp hs
    exact dialed_changes hi hs
  | dialFailed i unsupported =>
    obtain ⟨send, hi, hs⟩ := Option.bind_eq_some_iff.mp hs
    exact dialFailed_changes hi hs
  | caught i =>
    obtain ⟨send, hi, hs⟩ := Option.bind_eq_some_iff.mp hs
    split_ifs at hs
    obtain rfl := congrArg Prod.fst (Option.some.inj hs)
    exact retry_changes hi (by simp)
  | sent i throws =>
    obtain ⟨send, hi, hs⟩ := Option.bind_eq_some_iff.mp hs
    exact sent_changes hi hs
  | inbound peer =>
    obtain rfl := congrArg Prod.fst (Option.some.inj hs)
    refine ⟨⟨_, .inbound peer, rfl, rfl⟩, ?_⟩
    rw [sends_onInboundStream]
    exact .keeps
  | readEnded i =>
    obtain ⟨stream, hi, hs⟩ := Option.bind_eq_some_iff.mp hs
    split_ifs at hs
    obtain rfl := congrArg Prod.fst (Option.some.inj hs)
    refine ⟨⟨_, .ended hi, rfl, rfl⟩, ?_⟩
    rw [State.readEnded, sends_cleanupStream]
    exact .keeps
  | disconnected peer =>
    obtain rfl := congrArg Prod.fst (Option.some.inj hs)
    refine ⟨⟨_, .cleans peer (by simp), rfl, rfl⟩, ?_⟩
    rw [sends_cleanupStream]
    exact .keeps
  | stop =>
    obtain rfl := congrArg Prod.fst (Option.some.inj hs)
    exact ⟨⟨_, .stop, rfl, rfl⟩, .keeps⟩
  | clearUnsupportedPeers =>
    obtain rfl := congrArg Prod.fst (Option.some.inj hs)
    exact ⟨⟨s, .keeps (by simp), rfl, rfl⟩, .keeps⟩

def State.Started (s : State) (i : Nat) (peer : String) (message : Bytes) : Prop :=
  ∃ send, s.sends[i]? = some send ∧ send.peer = peer ∧ send.message = message

def KeepsSends (s t : State) : Prop :=
  ∀ i peer message, s.Started i peer message → t.Started i peer message

theorem keepsSends_of_change (h : SendsChange s.sends t.sends) : KeepsSends s t := by
  rintro j peer message ⟨x, hx, hrest⟩
  rw [State.Started]
  generalize t.sends = sends at h ⊢
  cases h with
  | keeps => exact ⟨x, hx, hrest⟩
  | starts send =>
    obtain ⟨hlt, -⟩ := List.getElem?_eq_some_iff.mp hx
    exact ⟨x, by rw [List.getElem?_append_left hlt, hx], hrest⟩
  | @phase i send phase hi =>
    by_cases hij : i = j
    · subst hij
      obtain rfl := Option.some.inj (hi.symm.trans hx)
      obtain ⟨hlt, -⟩ := List.getElem?_eq_some_iff.mp hi
      exact ⟨{ send with phase }, by rw [List.getElem?_set_self hlt], hrest⟩
    · exact ⟨x, by rw [List.getElem?_set_ne hij, hx], hrest⟩

end IpfsShard.Bitswap.Streams
