import IpfsShard.Bitswap.Reached

/-! Dials of peers that are known not to support bitswap. The callers of `_sendMessage` look
into `unsupportedPeers`, the second attempt inside it does not. -/

namespace IpfsShard.Bitswap.Streams

def retriedSend (s : State) : Event → Option Send
  | .caught i => s.sends[i]?
  | .sent i true => s.sends[i]?.bind fun send =>
      match send.phase with
      | .gotStream _ => some send
      | _ => none
  | _ => none

variable {s t : State} {e : Event} {o : List Effect} {peer : String}

theorem dial_not_mem_cleanupStream (s : State) (peer q : String) :
    Effect.dial peer ∉ (s.cleanupStream q).2 := by
  unfold State.cleanupStream
  split <;> simp

theorem dial_mem_retry {i : Nat} {send : Send} :
    Effect.dial peer ∈ (s.retry i send).2 ↔ send.peer = peer := by
  have hcleanup := dial_not_mem_cleanupStream s peer send.peer
  rw [State.retry, List.mem_append, or_iff_right hcleanup]
  simp [eq_comm]

theorem dial_mem_sendMessage {q : String} {message : Bytes}
    (h : Effect.dial peer ∈ (s.sendMessage q message).2) : peer = q := by
  simp only [State.sendMessage] at h
  split at h
  · split_ifs at h
    · simpa using h
    · cases h
  · simpa using h

theorem dial_mem_iff (he : ∀ q message, e ≠ .sendMessage q message)
    (hs : s.step e = some (t, o)) :
    Effect.dial peer ∈ o ↔ ∃ send, retriedSend s e = some send ∧ send.peer = peer := by
  cases e with
  | sendMessage q message => exact absurd rfl (he q message)
  | dialed i =>
    obtain ⟨send, -, hs⟩ := Option.bind_eq_some_iff.mp hs
    simp only [State.dialed] at hs
    split at hs <;> cases hs <;> simp [retriedSend]
  | dialFailed i unsupported =>
    obtain ⟨send, -, hs⟩ := Option.bind_eq_some_iff.mp hs
    simp only [State.dialFailed] at hs
    split at hs <;> cases hs <;> simp [retriedSend]
  | caught i =>
    obtain ⟨send, hsend, hs⟩ := Option.bind_eq_some_iff.mp hs
    split_ifs at hs
    obtain rfl := congrArg Prod.snd (Option.some.inj hs)
    rw [dial_mem_retry]
    simp [retriedSend, hsend]
  | sent i throws =>
    obtain ⟨send, hsend, hs⟩ := Option.bind_eq_some_iff.mp hs
    simp only [State.sent] at hs
    cases throws with
    | false =>
      split at hs <;> cases hs <;> simp [retriedSend]
    | true =>
      cases hphase : send.phase <;> simp only [hphase, reduceCtorEq, if_true] at hs
      · obtain rfl := congrArg Prod.snd (Option.some.inj hs)
        rw [dial_mem_retry]
        simp [retriedSend, hsend, hphase]
      · cases hs
        simp [retriedSend, hsend, hphase]
  | inbound q =>
    cases hs
    simp [retriedSend]
  | readEnded i =>
    obtain ⟨stream, -, hs⟩ := Option.bind_eq_some_iff.mp hs
    split_ifs at hs
    obtain rfl := congrArg Prod.snd (Option.some.inj hs)
    exact iff_of_false (dial_not_mem_cleanupStream _ _ _) (by simp [retriedSend])
  | disconnected q =>
    obtain rfl := congrArg Prod.snd (Option.some.inj hs)
    exact iff_of_false (dial_not_mem_cleanupStream _ _ _) (by simp [retriedSend])
  | stop =>
    obtain rfl := congrArg Prod.snd (Option.some.inj hs)
    exact iff_of_false (by simp [State.stop]) (by simp [retriedSend])
  | clearUnsupportedPeers =>
    cases hs
    simp [retriedSend]

end IpfsShard.Bitswap.Streams

namespace IpfsShard.Bitswap.Broadcast
open Codec Runs Streams

/-- None of the peers that are marked is dialled. A peer is marked from when it is added to
`unsupportedPeers` until the next `clearUnsupportedPeers()`. -/
def Spares (s : State) (o : List Effect) : Prop :=
  ∀ peer ∈ s.streams.unsupportedPeers, Effect.streams (.dial peer) ∉ o

/-- When the first attempt of a send fails, its peer is not marked. -/
def RetriesSupported (s : State) : Event → Prop
  | .streams e =>
    ∀ send, retriedSend s.streams e = some send → send.peer ∉ s.streams.unsupportedPeers
  | _ => True

variable {M : Multiformats} {s t : State} {e : Event} {o : List Effect} {unsupported : List String}

theorem sendMessage_spares {peer : String} (hpeer : peer ∉ unsupported) (message : Bytes)
    (hs : s.streams.unsupportedPeers = unsupported) :
    (s.sendMessage peer message).1.streams.unsupportedPeers = unsupported ∧
      ∀ x ∈ (s.sendMessage peer message).2, ∀ q ∈ unsupported, x ≠ Effect.streams (.dial q) := by
  refine ⟨(OnlySends.sendMessage s peer message).1.unsupportedPeers.trans hs, ?_⟩
  rintro x hx q hq rfl
  obtain ⟨effect, heffect, heq⟩ := List.mem_map.mp hx
  cases heq
  obtain rfl := dial_mem_sendMessage heffect
  exact hpeer hq

theorem broadcastTo_spares (pending : PendingWant) (message : Bytes) (peer : String)
    (hs : s.streams.unsupportedPeers = unsupported) :
    (s.broadcastTo pending message peer).1.streams.unsupportedPeers = unsupported ∧
      ∀ x ∈ (s.broadcastTo pending message peer).2, ∀ q ∈ unsupported,
        x ≠ Effect.streams (.dial q) := by
  unfold State.broadcastTo
  split_ifs with hskip
  · exact ⟨hs, List.forall_mem_nil _⟩
  · rw [not_or, hs] at hskip
    exact sendMessage_spares hskip.2 message hs

theorem broadcastWant_spares (cid : CID) (hs : s.streams.unsupportedPeers = unsupported) :
    (s.broadcastWant M cid).1.streams.unsupportedPeers = unsupported ∧
      ∀ x ∈ (s.broadcastWant M cid).2, ∀ q ∈ unsupported, x ≠ Effect.streams (.dial q) := by
  unfold State.broadcastWant
  split
  · exact ⟨hs, List.forall_mem_nil _⟩
  · exact forEach_outputs (I := fun s : State => s.streams.unsupportedPeers = unsupported) hs _
      fun peer _ t ht => broadcastTo_spares _ _ peer ht

theorem onWants_spares (wants : Bitswap.State) (effects : List Bitswap.Effect) :
    Spares s (s.onWants M wants effects).2 := by
  intro q hq hmem
  rcases List.mem_append.mp hmem with hown | hbroadcast
  · obtain ⟨effect, -, heq⟩ := List.mem_map.mp hown
    cases heq
  · have hloop := forEach_outputs
      (I := fun t : State => t.streams.unsupportedPeers = s.streams.unsupportedPeers)
      (s := { s with wants, created := s.created ++ (broadcastCids effects).map fun _ => s.now })
      rfl (broadcastCids effects) fun cid _ t ht => broadcastWant_spares (M := M) cid ht
    exact hloop.2 _ hbroadcast q hq rfl

theorem connect_spares (peer : String) : Spares s (s.connect M peer).2 := by
  intro q hq hmem
  unfold State.connect State.onConnect at hmem
  dsimp only at hmem
  split_ifs at hmem with hconnected hmarked
  · cases hmem
  · cases hmem
  · have hloop := forEach_outputs
      (I := fun t : State => t.streams.unsupportedPeers = s.streams.unsupportedPeers)
      (s := { s with
        connections := s.connections ++ [peer]
        connected := s.connected.insert peer s.now })
      rfl (s.wants.pendingWants.entries.reverse.map (·.2))
      fun pending _ t ht => sendMessage_spares hmarked (encodeWantBlock M pending.cid) ht
    exact hloop.2 _ hmem q hq rfl

theorem disconnect_spares (peer : String) : Spares s (s.disconnect peer).2 := by
  intro q _ hmem
  unfold State.disconnect at hmem
  dsimp only at hmem
  split_ifs at hmem
  · cases hmem
  · obtain ⟨effect, heffect, heq⟩ := List.mem_map.mp hmem
    cases heq
    exact dial_not_mem_cleanupStream _ _ _ heffect

theorem streams_spares_iff {e : Streams.Event} {r : Streams.State × List Streams.Effect}
    (he : ∀ q message, e ≠ .sendMessage q message) (hr : s.streams.step e = some r) :
    RetriesSupported s (.streams e) ↔ Spares s (r.2.map .streams) := by
  have hdial : ∀ q, Effect.streams (.dial q) ∈ r.2.map Effect.streams ↔
      ∃ send, retriedSend s.streams e = some send ∧ send.peer = q := by
    intro q
    rw [← dial_mem_iff he hr, List.mem_map]
    exact ⟨fun ⟨effect, hmem, heq⟩ => Effect.streams.inj heq ▸ hmem, fun hmem => ⟨_, hmem, rfl⟩⟩
  constructor
  · intro hok q hq hmem
    obtain ⟨send, hsend, rfl⟩ := (hdial q).mp hmem
    exact hok send hsend hq
  · intro hspares send hsend hmarked
    exact hspares send.peer hmarked ((hdial send.peer).mpr ⟨send, hsend, rfl⟩)

theorem act_spares_iff {r : State × List Effect} (h : s.act M e = some r) :
    RetriesSupported s e ↔ Spares s r.2 := by
  unfold State.act at h
  split at h
  · cases h
  · obtain ⟨w, -, rfl⟩ := Option.map_eq_some_iff.mp h
    exact iff_of_true trivial (onWants_spares w.1 w.2)
  · cases h
  · cases h
  · cases h
  · rename_i hsend _ _
    obtain ⟨w, hw, rfl⟩ := Option.map_eq_some_iff.mp h
    exact streams_spares_iff hsend hw
  · obtain rfl := Option.some.inj h
    exact iff_of_true trivial (connect_spares _)
  · split_ifs at h
    obtain rfl := Option.some.inj h
    exact iff_of_true trivial (disconnect_spares _)

/-- In every run, no marked peer is dialled exactly if no first attempt of a send fails while its
peer is marked. -/
theorem run_spares_iff {connections : List String} {es : List Event} {out : List Effect} :
    (node M connections).Run RetriesSupported es s out ↔
      (node M connections).Run ((node M connections).Emits Spares) es s out := by
  refine System.run_iff_emits (I := fun _ => True) (fun _ _ _ _ => trivial) ?_
  intro s e t o _ hstep
  obtain ⟨r, hact, hr⟩ := Option.map_eq_some_iff.mp hstep
  rw [act_spares_iff hact, show r.2 = o from congrArg Prod.snd hr]

open Multiformats

def markedByDial : List Event :=
  [.wants (.want emptyRaw none), .streams (.dialFailed 0 true)]

/-- The peer is dialled once more right behind the dial that has marked it. -/
theorem not_spares_markedByDial : ∃ s out,
    (node onEmptyBlock ["peer"]).Run System.any markedByDial s out ∧
      s.streams.unsupportedPeers = ["peer"] ∧
      (∃ t, s.step onEmptyBlock (.streams (.caught 0)) = some (t, [.streams (.dial "peer")])) ∧
      ¬ (node onEmptyBlock ["peer"]).Emits Spares s (.streams (.caught 0)) := by
  obtain ⟨s, out, hrun, hmarked, hdial⟩ := System.exists_run (T := node onEmptyBlock ["peer"])
    markedByDial (p := fun r => r.1.streams.unsupportedPeers = ["peer"] ∧
      (r.1.step onEmptyBlock (.streams (.caught 0))).map Prod.snd =
        some [.streams (.dial "peer")]) (by decide +kernel)
  obtain ⟨⟨t, o⟩, hstep, ho⟩ := Option.map_eq_some_iff.mp hdial
  obtain rfl : o = [.streams (.dial "peer")] := ho
  have hpeer : "peer" ∈ s.streams.unsupportedPeers := by
    rw [show s.streams.unsupportedPeers = _ from hmarked]
    exact List.mem_singleton_self _
  refine ⟨s, out, hrun, hmarked, ⟨t, hstep⟩, fun hspares => ?_⟩
  exact hspares t _ hstep _ hpeer (List.mem_singleton_self _)

end IpfsShard.Bitswap.Broadcast
