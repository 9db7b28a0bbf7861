import IpfsShard.Bitswap.StreamSteps

/-! Which dialled streams the node can still close. `_getOrCreateStream` looks into the pool
before it dials, `_dialPeer` writes the pool behind the dial, whatever is in it by then. -/

namespace IpfsShard.Bitswap.Streams
open Runs

structure Dialing where
  streams : State := {}
  dialed : List Nat := []

def opened (s : State) : Event → List Nat
  | .dialed _ => [s.streams.length]
  | _ => []

def dialing : System Dialing Event Effect where
  init := {}
  step s e := (s.streams.step e).map fun r => (⟨r.1, s.dialed ++ opened s.streams e⟩, r.2)

def NoLeak (s : Dialing) : Prop := ∀ i ∈ s.dialed, ∀ peer, s.streams.Open i peer →
  ∃ info, s.streams.streamPool.lookup peer = some info ∧ info.stream = i

def DialsFirst (s : Dialing) : Event → Prop
  | .dialed i => ∀ send, s.streams.sends[i]? = some send → ∀ info,
      s.streams.streamPool.lookup send.peer = some info → info.direction ≠ .outbound
  | _ => True

structure Pooled (s : State) (dialed : List Nat) : Prop where
  pooled : ∀ peer info, s.streamPool.lookup peer = some info → s.Open info.stream peer
  outbound : ∀ peer info, s.streamPool.lookup peer = some info →
    (info.direction = .outbound ↔ info.stream ∈ dialed)
  lt : ∀ i ∈ dialed, i < s.streams.length

variable {s t u : State} {peer q : String} {i : Nat} {info : StreamInfo} {dialed : List Nat}

theorem opened_eq_nil {e : Event} (he : ∀ i, e ≠ .dialed i) : opened s e = [] := by
  cases e with
  | dialed i => exact absurd rfl (he i)
  | _ => rfl

namespace Pooled

theorem cleanupStream (h : Pooled s dialed) (peer : String) :
    Pooled (s.cleanupStream peer).1 dialed where
  pooled := PoolOpen.cleanupStream h.pooled peer
  outbound q info hq := h.outbound q info (lookup_cleanupStream_iff.mp hq).2
  lt i hi := by
    rw [length_cleanupStream]
    exact h.lt i hi

theorem dial (h : Pooled s dialed) (peer : String) :
    Pooled (s.pool peer .outbound) (dialed ++ [s.streams.length]) where
  pooled := PoolOpen.pool h.pooled peer .outbound
  outbound q info hq := by
    rcases lookup_pool_iff.mp hq with ⟨rfl, rfl⟩ | ⟨-, hold⟩
    · simp
    · have hlt := Open.lt (h.pooled q info hold)
      rw [h.outbound q info hold, List.mem_append, List.mem_singleton]
      exact ⟨Or.inl, fun hmem => hmem.resolve_right (Nat.ne_of_lt hlt)⟩
  lt i hi := by
    rw [State.pool, List.length_append, List.length_singleton]
    rcases List.mem_append.mp hi with hold | hnew
    · exact Nat.lt_succ_of_lt (h.lt i hold)
    · rw [List.mem_singleton.mp hnew]
      exact Nat.lt_succ_self _

theorem addStream (h : Pooled s dialed) (peer : String) :
    Pooled { s with streams := s.streams ++ [{ peer }] } dialed where
  pooled q info hq := by
    have hopen : (s.pool peer .inbound).Open info.stream q :=
      open_pool_iff.mpr (Or.inl (h.pooled q info hq))
    exact hopen
  outbound := h.outbound
  lt i hi := by
    rw [List.length_append]
    exact Nat.lt_add_right _ (h.lt i hi)

theorem register (h : Pooled s dialed) (peer : String) : Pooled (s.pool peer .inbound) dialed where
  pooled := PoolOpen.pool h.pooled peer .inbound
  outbound q info hq := by
    rcases lookup_pool_iff.mp hq with ⟨rfl, rfl⟩ | ⟨-, hold⟩
    · exact iff_of_false (by simp) fun hmem => Nat.lt_irrefl _ (h.lt _ hmem)
    · exact h.outbound q info hold
  lt := (h.addStream peer).lt

theorem readEnded (h : Pooled s dialed) {stream : Stream} (hi : s.streams[i]? = some stream) :
    Pooled (s.readEnded i stream).1 dialed where
  pooled := PoolOpen.readEnded h.pooled hi
  outbound q info hq := h.outbound q info (lookup_cleanupStream_iff.mp hq).2
  lt j hj := by
    rw [State.readEnded, length_cleanupStream, List.length_set]
    exact h.lt j hj

theorem stop (h : Pooled s dialed) : Pooled s.stop.1 dialed where
  pooled q info hq := by simp [State.stop] at hq
  outbound q info hq := by simp [State.stop] at hq
  lt i hi := by
    have hlength : ∀ (l : List Nat) (streams : List Stream),
        (l.foldl (fun sts j => sts.modify j fun st => { st with closed := true })
          streams).length = streams.length := by
      intro l
      induction l with
      | nil => simp
      | cons j l ih => intro streams; rw [List.foldl_cons, ih, List.length_modify]
    rw [State.stop, hlength]
    exact h.lt i hi

theorem change (h : Pooled s dialed) {e : Event} (hc : PoolChange s e u) :
    Pooled u (dialed ++ opened s e) := by
  cases hc with
  | keeps he => rw [opened_eq_nil he, List.append_nil]; exact h
  | cleans peer he => rw [opened_eq_nil he, List.append_nil]; exact h.cleanupStream peer
  | dialed hi => exact h.dial _
  | inbound peer =>
    rw [opened_eq_nil (by simp), List.append_nil]
    rcases onInboundStream_cases s peer with ⟨heq, -⟩ | heq
    · rw [heq]; exact h.register peer
    · rw [heq]; exact h.addStream peer
  | ended hi => rw [opened_eq_nil (by simp), List.append_nil]; exact h.readEnded hi
  | stop => rw [opened_eq_nil (by simp), List.append_nil]; exact h.stop

end Pooled

namespace NoLeak

theorem cleanupStream (h : NoLeak ⟨s, dialed⟩) (peer : String) :
    NoLeak ⟨(s.cleanupStream peer).1, dialed⟩ := by
  intro i hi q hopen
  obtain ⟨hold, hother⟩ := open_cleanupStream_iff.mp hopen
  obtain ⟨info, hinfo, rfl⟩ := h i hi q hold
  refine ⟨info, lookup_cleanupStream_iff.mpr ⟨?_, hinfo⟩, rfl⟩
  rintro rfl
  exact hother info hinfo rfl

theorem onInboundStream (h : NoLeak ⟨s, dialed⟩) (hp : Pooled s dialed) (peer : String) :
    NoLeak ⟨s.onInboundStream peer, dialed⟩ := by
  intro i hi q hopen
  have hopen' : (s.pool peer .inbound).Open i q := by
    rcases onInboundStream_cases s peer with ⟨heq, -⟩ | heq
    · rwa [heq] at hopen
    · rwa [heq] at hopen
  rcases open_pool_iff.mp hopen' with hold | ⟨rfl, -⟩
  · obtain ⟨info, hinfo, rfl⟩ := h i hi q hold
    refine ⟨info, ?_, rfl⟩
    rcases onInboundStream_cases s peer with ⟨heq, hinbound⟩ | heq
    · rw [heq]
      refine lookup_pool_iff.mpr (Or.inr ⟨?_, hinfo⟩)
      rintro rfl
      exact hinbound info hinfo ((hp.outbound q info hinfo).mpr hi)
    · rw [heq]
      exact hinfo
  · exact absurd (hp.lt _ hi) (Nat.lt_irrefl _)

theorem readEnded (h : NoLeak ⟨s, dialed⟩) {stream : Stream} (hi : s.streams[i]? = some stream) :
    NoLeak ⟨(s.readEnded i stream).1, dialed⟩ := by
  refine cleanupStream (fun j hj q hopen => ?_) stream.peer
  exact h j hj q ((open_ended_iff hi).mp hopen).1

theorem stop (h : NoLeak ⟨s, dialed⟩) : NoLeak ⟨s.stop.1, dialed⟩ := by
  intro i hi q hopen
  obtain ⟨hold, hother⟩ := open_stop_iff.mp hopen
  obtain ⟨info, hinfo, rfl⟩ := h i hi q hold
  exact absurd rfl (hother q info hinfo)

theorem dial_iff (h : NoLeak ⟨s, dialed⟩) (hp : Pooled s dialed) (peer : String) :
    NoLeak ⟨s.pool peer .outbound, dialed ++ [s.streams.length]⟩ ↔
      ∀ info, s.streamPool.lookup peer = some info → info.direction ≠ .outbound := by
  constructor
  · intro hnext info hinfo houtbound
    have hopen := hp.pooled peer info hinfo
    have hmem := (hp.outbound peer info hinfo).mp houtbound
    obtain ⟨info', hinfo', hstream⟩ := hnext info.stream (List.mem_append_left _ hmem) peer
      (open_pool_iff.mpr (Or.inl hopen))
    rcases lookup_pool_iff.mp hinfo' with ⟨-, rfl⟩ | ⟨hne, -⟩
    · exact absurd hstream (Nat.ne_of_gt (Open.lt hopen))
    · exact hne rfl
  · intro hfirst i hi q hopen
    rcases open_pool_iff.mp hopen with hold | ⟨rfl, rfl⟩
    · have hlt := Open.lt hold
      have hmem : i ∈ dialed := by
        rcases List.mem_append.mp hi with hmem | hnew
        · exact hmem
        · exact absurd (List.mem_singleton.mp hnew) (Nat.ne_of_lt hlt)
      obtain ⟨info, hinfo, rfl⟩ := h i hmem q hold
      refine ⟨info, lookup_pool_iff.mpr (Or.inr ⟨?_, hinfo⟩), rfl⟩
      rintro rfl
      exact hfirst info hinfo ((hp.outbound q info hinfo).mpr hmem)
    · exact ⟨_, lookup_pool_iff.mpr (Or.inl ⟨rfl, rfl⟩), rfl⟩

theorem change_iff (h : NoLeak ⟨s, dialed⟩) (hp : Pooled s dialed) {e : Event}
    (hc : PoolChange s e u) :
    DialsFirst ⟨s, dialed⟩ e ↔ NoLeak ⟨u, dialed ++ opened s e⟩ := by
  have hother : ∀ e, (∀ i, e ≠ .dialed i) → DialsFirst ⟨s, dialed⟩ e := by
    intro e he
    cases e with
    | dialed i => exact absurd rfl (he i)
    | _ => trivial
  cases hc with
  | keeps he => rw [opened_eq_nil he, List.append_nil]; exact iff_of_true (hother _ he) h
  | cleans peer he =>
    rw [opened_eq_nil he, List.append_nil]
    exact iff_of_true (hother _ he) (h.cleanupStream peer)
  | @dialed i send hi =>
    refine Iff.trans ?_ (h.dial_iff hp send.peer).symm
    constructor
    · exact fun hfirst => hfirst send hi
    · intro hfirst send' hi'
      obtain rfl := Option.some.inj (hi.symm.trans hi')
      exact hfirst
  | inbound peer =>
    rw [opened_eq_nil (by simp), List.append_nil]
    exact iff_of_true trivial (h.onInboundStream hp peer)
  | ended hi =>
    rw [opened_eq_nil (by simp), List.append_nil]
    exact iff_of_true trivial (h.readEnded hi)
  | stop =>
    rw [opened_eq_nil (by simp), List.append_nil]
    exact iff_of_true trivial h.stop

end NoLeak

variable {es : List Event} {out : List Effect}

theorem Pooled.congr (h : Pooled u dialed) (hpool : t.streamPool = u.streamPool)
    (hstreams : t.streams = u.streams) : Pooled t dialed := by
  constructor
  · intro peer info hinfo
    rw [State.Open, hstreams]
    exact h.pooled peer info (hpool ▸ hinfo)
  · intro peer info hinfo
    exact h.outbound peer info (hpool ▸ hinfo)
  · rw [hstreams]
    exact h.lt

theorem noLeak_congr (hpool : t.streamPool = u.streamPool) (hstreams : t.streams = u.streams) :
    NoLeak ⟨u, dialed⟩ ↔ NoLeak ⟨t, dialed⟩ := by
  simp only [NoLeak, State.Open, hpool, hstreams]

theorem pooled_of_run {s : Dialing} (hrun : dialing.Run System.any es s out) :
    Pooled s.streams s.dialed := by
  refine hrun.invariant (I := fun s _ => Pooled s.streams s.dialed)
    (by constructor <;> simp [dialing])
    ?_
  intro s e t out o h _ hs
  obtain ⟨r, hr, heq⟩ := Option.map_eq_some_iff.mp hs
  obtain rfl := congrArg Prod.fst heq
  obtain ⟨⟨u, hc, hpool, hstreams⟩, -⟩ := step_changes hr
  exact (h.change hc).congr hpool hstreams

/-- No dialled stream is leaked along a run exactly if every dial of it ends while no outbound
stream of the peer is in the pool. -/
theorem run_dialsFirst_iff {s : Dialing} :
    dialing.Run DialsFirst es s out ↔ dialing.Run (dialing.Into NoLeak) es s out := by
  refine System.run_iff_into (I := fun s => Pooled s.streams s.dialed)
    (fun _ _ _ hrun => pooled_of_run hrun) (by simp [NoLeak, dialing]) ?_
  intro s e t o hpooled h hs
  obtain ⟨r, hr, heq⟩ := Option.map_eq_some_iff.mp hs
  obtain rfl := congrArg Prod.fst heq
  obtain ⟨⟨u, hc, hpool, hstreams⟩, -⟩ := step_changes hr
  exact (h.change_iff hpooled hc).trans (noLeak_congr hpool hstreams)

def twoDials : List Event :=
  [.sendMessage "peer" [], .sendMessage "peer" [], .dialed 0, .dialed 1]

/-- The first stream is open, but out of the pool, and `stop()` does not close it. -/
theorem not_noLeak_twoDials :
    (∃ s out, dialing.Run System.any twoDials s out ∧ ¬ NoLeak s) ∧
      ∃ s out, dialing.Run System.any (twoDials ++ [.stop]) s out ∧
        s.streams.streams = [⟨"peer", true, false⟩, ⟨"peer", true, true⟩] := by
  constructor
  · obtain ⟨s, out, hrun, hdialed, hstreams, hpool⟩ := System.exists_run (T := dialing) twoDials
      (p := fun r => r.1.dialed = [0, 1] ∧
        r.1.streams.streams = [⟨"peer", true, false⟩, ⟨"peer", true, false⟩] ∧
        r.1.streams.streamPool.lookup "peer" = some ⟨1, .outbound, false⟩) (by decide +kernel)
    refine ⟨s, out, hrun, fun h => ?_⟩
    obtain ⟨info, hinfo, hstream⟩ := h 0 (by simp [show s.dialed = _ from hdialed]) "peer"
      (by simp [State.Open, show s.streams.streams = _ from hstreams])
    obtain rfl := Option.some.inj (hinfo.symm.trans hpool)
    cases hstream
  · exact System.exists_run (T := dialing) (twoDials ++ [.stop])
      (p := fun r => r.1.streams.streams = [⟨"peer", true, false⟩, ⟨"peer", true, true⟩])
      (by decide +kernel)

end IpfsShard.Bitswap.Streams
