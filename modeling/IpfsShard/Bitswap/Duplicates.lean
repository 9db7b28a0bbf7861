import IpfsShard.Bitswap.Reached

/-! How often the broadcast of a want sends it to a peer. A peer is only noted when a send to it
has ended, and by then the sends for all connections have started. -/

namespace IpfsShard.Bitswap.Broadcast
open Codec Runs Streams

def State.receiver (s : State) (b : Nat × Nat) : Option String :=
  s.streams.sends[b.1]?.map (·.peer)

def State.sendsTo (s : State) (want : Nat) (peer : String) : Nat :=
  s.broadcasts.countP fun b => b.2 = want ∧ s.receiver b = some peer

def OnePerPeer (s : State) : Prop := ∀ want peer, s.sendsTo want peer ≤ 1

/-- A want is only created while no peer has two connections, unless it is known not to support
bitswap. -/
def SingleConnections (M : Multiformats) (s : State) : Event → Prop
  | .wants (.want cid _) => s.wants.pendingWants.lookup (M.toString cid) = none →
      ∀ peer, peer ∉ s.streams.unsupportedPeers → s.connections.count peer ≤ 1
  | _ => True

def Placed (s : State) : Prop := ∀ b ∈ s.broadcasts, b.1 < s.streams.sends.length

structure Quiet (s t : State) : Prop where
  broadcasts : t.broadcasts = s.broadcasts
  started : KeepsSends s.streams t.streams

variable {M : Multiformats} {s t : State}

theorem receiver_of_keeps (hkeep : KeepsSends s.streams t.streams) {b : Nat × Nat}
    (hb : b.1 < s.streams.sends.length) :
    b.1 < t.streams.sends.length ∧ t.receiver b = s.receiver b := by
  have hsend : s.streams.sends[b.1]? = some s.streams.sends[b.1] := List.getElem?_eq_getElem hb
  obtain ⟨send, hsend', hpeer, -⟩ := hkeep b.1 _ _ ⟨_, hsend, rfl, rfl⟩
  refine ⟨(List.getElem?_eq_some_iff.mp hsend').1, ?_⟩
  rw [State.receiver, State.receiver, hsend, hsend', Option.map_some, Option.map_some, hpeer]

namespace Quiet

theorem refl (s : State) : Quiet s s := ⟨rfl, fun _ _ _ h => h⟩

theorem trans (s t u : State) (h : Quiet s t) (h' : Quiet t u) : Quiet s u :=
  ⟨h'.broadcasts.trans h.broadcasts, fun i peer message hs =>
    h'.started i peer message (h.started i peer message hs)⟩

theorem placed (h : Quiet s t) (hplaced : Placed s) : Placed t := by
  intro b hb
  rw [h.broadcasts] at hb
  exact (receiver_of_keeps h.started (hplaced b hb)).1

theorem sendsTo_eq (h : Quiet s t) (hplaced : Placed s) (want : Nat) (peer : String) :
    t.sendsTo want peer = s.sendsTo want peer := by
  rw [State.sendsTo, h.broadcasts]
  refine List.countP_congr fun b hb => ?_
  rw [(receiver_of_keeps h.started (hplaced b hb)).2]

theorem onConnect (peer : String) : Quiet s (s.onConnect M peer).1 := by
  unfold State.onConnect
  split_ifs
  · exact refl s
  · refine forEach_rel refl trans s _ fun pending _ t _ => ⟨rfl, ?_⟩
    exact (OnlySends.sendMessage t peer _).1.started

theorem connect (peer : String) : Quiet s (s.connect M peer).1 := by
  unfold State.connect
  split_ifs
  · exact ⟨rfl, fun _ _ _ h => h⟩
  · have h := onConnect (M := M) (s := { s with
      connections := s.connections ++ [peer]
      connected := s.connected.insert peer s.now }) peer
    exact ⟨h.broadcasts, h.started⟩

theorem disconnect (peer : String) : Quiet s (s.disconnect peer).1 := by
  unfold State.disconnect
  dsimp only
  split_ifs
  · exact ⟨rfl, fun _ _ _ h => h⟩
  · refine ⟨rfl, keepsSends_of_change ?_⟩
    rw [sends_cleanupStream]
    exact .keeps

theorem onStreams {e : Streams.Event} {r : Streams.State × List Streams.Effect}
    (hr : s.streams.step e = some r) : Quiet s (s.onStreams e r.1) :=
  ⟨rfl, keepsSends_of_change (step_changes hr).sends⟩

theorem onWants {wants : Bitswap.State} {effects : List Bitswap.Effect}
    (h : broadcastCids effects = []) : Quiet s (s.onWants M wants effects).1 := by
  unfold State.onWants
  rw [h]
  exact ⟨rfl, fun _ _ _ hs => hs⟩

end Quiet

theorem broadcastTo_sendsTo (pending : PendingWant) (message : Bytes) (q : String)
    (hplaced : Placed s) :
    let t := (s.broadcastTo pending message q).1
    Placed t ∧ t.broadcastedTo = s.broadcastedTo ∧
      t.streams.unsupportedPeers = s.streams.unsupportedPeers ∧
      ∀ want peer, t.sendsTo want peer = s.sendsTo want peer +
        if want = pending.deferred ∧ (pending.deferred, peer) ∉ s.broadcastedTo ∧
          peer ∉ s.streams.unsupportedPeers ∧ peer = q then 1 else 0 := by
  unfold State.broadcastTo
  by_cases hskip : (pending.deferred, q) ∈ s.broadcastedTo ∨ q ∈ s.streams.unsupportedPeers
  · rw [if_pos hskip]
    refine ⟨hplaced, rfl, rfl, fun want peer => ?_⟩
    rw [if_neg, Nat.add_zero]
    rintro ⟨-, hnot, hsupported, rfl⟩
    exact hskip.elim hnot hsupported
  rw [if_neg hskip]
  rw [not_or] at hskip
  obtain ⟨phase, hsend⟩ := sendMessage_eq s.streams q message
  set t : State := (State.sendMessage q message { s with
    broadcasts := s.broadcasts ++ [(s.streams.sends.length, pending.deferred)] }).1
  have hstreams : t.streams =
      { s.streams with sends := s.streams.sends ++ [⟨q, message, phase⟩] } := hsend
  have hkeep : KeepsSends s.streams t.streams := by
    rw [hstreams]
    exact keepsSends_of_change (.starts _)
  have hold : ∀ b ∈ s.broadcasts, b.1 < t.streams.sends.length ∧ t.receiver b = s.receiver b :=
    fun b hb => receiver_of_keeps hkeep (hplaced b hb)
  have hnew : t.receiver (s.streams.sends.length, pending.deferred) = some q := by
    rw [State.receiver, hstreams, List.getElem?_concat_length]
    rfl
  refine ⟨?_, rfl, ?_, fun want peer => ?_⟩
  · refine List.forall_mem_append.mpr ⟨fun b hb => (hold b hb).1, ?_⟩
    rw [List.forall_mem_singleton, hstreams, List.length_append]
    exact Nat.lt_succ_self _
  · rw [hstreams]
  · have hcount : s.broadcasts.countP (fun b => b.2 = want ∧ t.receiver b = some peer) =
        s.sendsTo want peer :=
      List.countP_congr fun b hb => by rw [(hold b hb).2]
    show (s.broadcasts ++ [(s.streams.sends.length, pending.deferred)]).countP _ = _
    rw [List.countP_append, hcount, List.countP_singleton, hnew]
    have hiff : (pending.deferred = want ∧ some q = some peer) ↔ want = pending.deferred ∧
        (pending.deferred, peer) ∉ s.broadcastedTo ∧ peer ∉ s.streams.unsupportedPeers ∧
          peer = q := by
      constructor
      · rintro ⟨rfl, hq⟩
        obtain rfl := Option.some.inj hq
        exact ⟨rfl, hskip.1, hskip.2, rfl⟩
      · rintro ⟨rfl, -, -, rfl⟩
        exact ⟨rfl, rfl⟩
    simp only [hiff, decide_eq_true_eq]

theorem forEach_sendsTo (pending : PendingWant) (message : Bytes) (l : List String)
    (hplaced : Placed s) :
    let t := (forEach (State.broadcastTo pending message) l s).1
    Placed t ∧ ∀ want peer, t.sendsTo want peer = s.sendsTo want peer +
      if want = pending.deferred ∧ (pending.deferred, peer) ∉ s.broadcastedTo ∧
        peer ∉ s.streams.unsupportedPeers then l.count peer else 0 := by
  induction l generalizing s with
  | nil => exact ⟨hplaced, fun want peer => by simp [forEach]⟩
  | cons q l ih =>
    obtain ⟨hplaced', hbroadcastedTo, hunsupported, hfirst⟩ :=
      broadcastTo_sendsTo pending message q hplaced
    obtain ⟨hend, hrest⟩ := ih hplaced'
    refine ⟨hend, fun want peer => ?_⟩
    show (forEach _ l (s.broadcastTo pending message q).1).1.sendsTo want peer = _
    rw [hrest, hfirst, hbroadcastedTo, hunsupported, List.count_cons]
    by_cases hsends : want = pending.deferred ∧ (pending.deferred, peer) ∉ s.broadcastedTo ∧
        peer ∉ s.streams.unsupportedPeers
    · rw [if_pos hsends, if_pos hsends, Nat.add_assoc, Nat.add_comm (List.count peer l)]
      by_cases hq : q = peer
      · simp [hsends.1, hsends.2, hq]
      · simp [hq, Ne.symm hq]
    · rw [if_neg hsends, if_neg hsends, if_neg]
      rintro ⟨hw, hnot, hsupported, -⟩
      exact hsends ⟨hw, hnot, hsupported⟩

def Creates (M : Multiformats) (s : State) (e : Event) (t : State) : Prop :=
  ∃ cid signal wants, e = .wants (.want cid signal) ∧
    s.wants.pendingWants.lookup (M.toString cid) = none ∧
    wants.pendingWants.lookup (M.toString cid) = some ⟨s.wants.deferreds.length, cid⟩ ∧
    t = ({ s with wants, created := s.created ++ [s.now] }.broadcastWant M cid).1

theorem wants_cases {e : Bitswap.Event} {r : Bitswap.State × List Bitswap.Effect}
    (hr : s.wants.step M e = some r) :
    Creates M s (.wants e) (s.onWants M r.1 r.2).1 ∨
      Quiet s (s.onWants M r.1 r.2).1 ∧ SingleConnections M s (.wants e) := by
  have hquiet : (∀ cid signal, e ≠ .want cid signal) → Quiet s (s.onWants M r.1 r.2).1 :=
    fun hwant => Quiet.onWants (broadcastCids_eq_nil hr hwant)
  obtain ⟨wants, effects⟩ := r
  cases e with
  | want cid signal =>
    cases step_cases hr with
    | join hlookup =>
      refine Or.inr ⟨Quiet.onWants rfl, fun hnone => ?_⟩
      rw [hlookup] at hnone
      cases hnone
    | create hnone => exact Or.inl ⟨cid, signal, _, rfl, hnone, AList.lookup_insert _, rfl⟩
    | pass _ _ _ hwant => exact absurd rfl (hwant cid signal)
  | abort => exact Or.inr ⟨hquiet (by simp), trivial⟩
  | message => exact Or.inr ⟨hquiet (by simp), trivial⟩
  | hashed => exact Or.inr ⟨hquiet (by simp), trivial⟩
  | stored => exact Or.inr ⟨hquiet (by simp), trivial⟩
  | stop => exact Or.inr ⟨hquiet (by simp), trivial⟩

theorem act_cases {e : Event} {r : State × List Effect} (h : s.act M e = some r) :
    Creates M s e r.1 ∨ Quiet s r.1 ∧ SingleConnections M s e := by
  unfold State.act at h
  split at h
  · cases h
  · obtain ⟨w, hw, rfl⟩ := Option.map_eq_some_iff.mp h
    exact wants_cases hw
  · cases h
  · cases h
  · cases h
  · obtain ⟨w, hw, rfl⟩ := Option.map_eq_some_iff.mp h
    exact Or.inr ⟨Quiet.onStreams hw, trivial⟩
  · obtain rfl := Option.some.inj h
    exact Or.inr ⟨Quiet.connect _, trivial⟩
  · split_ifs at h
    obtain rfl := Option.some.inj h
    exact Or.inr ⟨Quiet.disconnect _, trivial⟩

theorem Creates.sendsTo {e : Event} (h : Creates M s e t) (hplaced : Placed s)
    (hreached : Reached M s) :
    Placed t ∧ ∀ want peer, t.sendsTo want peer = s.sendsTo want peer +
      if want = s.wants.deferreds.length ∧ peer ∉ s.streams.unsupportedPeers then
        s.connections.count peer else 0 := by
  obtain ⟨cid, signal, wants, rfl, -, hlookup, rfl⟩ := h
  have hfresh : ∀ peer, (s.wants.deferreds.length, peer) ∉ s.broadcastedTo := fun peer hmem =>
    Nat.lt_irrefl _ (hreached.broadcastedTo _ hmem)
  unfold State.broadcastWant
  simp only [hlookup]
  have hsends := forEach_sendsTo (s := { s with wants, created := s.created ++ [s.now] })
    ⟨s.wants.deferreds.length, cid⟩ (encodeWantBlock M cid) s.connections hplaced
  refine ⟨hsends.1, fun want peer => (hsends.2 want peer).trans ?_⟩
  simp only [hfresh peer, not_false_eq_true, true_and]
  rfl

theorem sendsTo_new (hreached : Reached M s) (peer : String) :
    s.sendsTo s.wants.deferreds.length peer = 0 := by
  refine List.countP_eq_zero.mpr fun b hb => ?_
  have hlt := hreached.broadcasts b hb
  simp [Nat.ne_of_lt hlt]

theorem onePerPeer_iff {e : Event} (h : Creates M s e t) (hplaced : Placed s)
    (hreached : Reached M s) (hone : OnePerPeer s) : SingleConnections M s e ↔ OnePerPeer t := by
  obtain ⟨-, hsends⟩ := h.sendsTo hplaced hreached
  obtain ⟨cid, signal, wants, rfl, hnone, -, -⟩ := h
  constructor
  · intro hsingle want peer
    rw [hsends]
    split_ifs with hnew
    · obtain ⟨rfl, hsupported⟩ := hnew
      rw [sendsTo_new hreached, Nat.zero_add]
      exact hsingle hnone peer hsupported
    · exact hone want peer
  · intro hpeers _ peer hsupported
    have hcount := hpeers s.wants.deferreds.length peer
    rwa [hsends, sendsTo_new hreached, Nat.zero_add, if_pos ⟨rfl, hsupported⟩] at hcount

theorem placed_reached {connections : List String} {es : List Event} {out : List Effect}
    (hrun : (node M connections).Run System.any es s out) : Placed s ∧ Reached M s := by
  refine hrun.invariant (I := fun s _ => Placed s ∧ Reached M s) ?_ ?_
  · exact ⟨fun b hb => by simp [node] at hb, reached_init connections⟩
  · rintro s e t out o ⟨hplaced, hreached⟩ _ hstep
    refine ⟨?_, hreached.step hstep⟩
    obtain ⟨r, hact, hr⟩ := Option.map_eq_some_iff.mp hstep
    obtain rfl := congrArg Prod.fst hr
    show Placed r.1
    rcases act_cases hact with hcreates | ⟨hquiet, -⟩
    · exact (hcreates.sendsTo hplaced hreached).1
    · exact hquiet.placed hplaced

/-- In every run, each broadcast starts one send to each peer at most exactly if every want is
created while no peer that supports bitswap has two connections. -/
theorem run_onePerPeer_iff {connections : List String} {es : List Event} {out : List Effect} :
    (node M connections).Run (SingleConnections M) es s out ↔
      (node M connections).Run ((node M connections).Into OnePerPeer) es s out := by
  have hinit : OnePerPeer (node M connections).init := fun want peer => Nat.zero_le 1
  refine System.run_iff_into (fun es s out => placed_reached) hinit ?_
  rintro s e t o ⟨hplaced, hreached⟩ hone hstep
  obtain ⟨r, hact, hr⟩ := Option.map_eq_some_iff.mp hstep
  obtain rfl := congrArg Prod.fst hr
  show SingleConnections M s e ↔ OnePerPeer r.1
  rcases act_cases hact with hcreates | ⟨hquiet, hsingle⟩
  · exact onePerPeer_iff hcreates hplaced hreached hone
  · refine iff_of_true hsingle fun want peer => ?_
    rw [hquiet.sendsTo_eq hplaced]
    exact hone want peer

open Multiformats

/-- A want is sent to a peer twice if it has two connections. -/
theorem not_onePerPeer_twoConnections : ∃ s out,
    (node onEmptyBlock ["peer", "peer"]).Run System.any [.wants (.want emptyRaw none)] s out ∧
      s.sendsTo 0 "peer" = 2 ∧ ¬ OnePerPeer s := by
  obtain ⟨s, out, hrun, htwo⟩ := System.exists_run (T := node onEmptyBlock ["peer", "peer"])
    [.wants (.want emptyRaw none)] (p := fun r => r.1.sendsTo 0 "peer" = 2) (by decide +kernel)
  refine ⟨s, out, hrun, htwo, fun hone => ?_⟩
  have hle := hone 0 "peer"
  rw [show s.sendsTo 0 "peer" = 2 from htwo] at hle
  exact absurd hle (by decide)

end IpfsShard.Bitswap.Broadcast
