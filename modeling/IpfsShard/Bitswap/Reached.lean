import IpfsShard.Bitswap.Broadcast

/-! Every pending want reaches every connected peer: what is sent when a want is created and
what is sent when a peer is connected leave no gap between them. -/

namespace IpfsShard.Bitswap.Broadcast
open Codec Runs Streams

section Loops

variable {α σ ω : Type} {pass : α → σ → σ × List ω} {R : σ → σ → Prop}

theorem forEach_rel (hrefl : ∀ s, R s s) (htrans : ∀ s t u, R s t → R t u → R s u) (s : σ)
    (l : List α) (hpass : ∀ a ∈ l, ∀ t, R s t → R t (pass a t).1) : R s (forEach pass l s).1 := by
  induction l generalizing s with
  | nil => exact hrefl s
  | cons a l ih =>
    have ha := hpass a (List.mem_cons_self ..) s (hrefl s)
    exact htrans _ _ _ ha (ih _ fun b hb t ht =>
      hpass b (List.mem_cons_of_mem _ hb) t (htrans _ _ _ ha ht))

theorem forEach_pass (hrefl : ∀ s, R s s) (htrans : ∀ s t u, R s t → R t u → R s u) (s : σ)
    (l : List α) (hpass : ∀ a ∈ l, ∀ t, R s t → R t (pass a t).1) {a : α} (ha : a ∈ l) :
    ∃ t, R s t ∧ R (pass a t).1 (forEach pass l s).1 := by
  induction l generalizing s with
  | nil => cases ha
  | cons b l ih =>
    have hb := hpass b (List.mem_cons_self ..) s (hrefl s)
    have hrest : ∀ c ∈ l, ∀ t, R (pass b s).1 t → R t (pass c t).1 := fun c hc t ht =>
      hpass c (List.mem_cons_of_mem _ hc) t (htrans _ _ _ hb ht)
    rcases List.mem_cons.mp ha with rfl | hmem
    · exact ⟨s, hrefl s, forEach_rel hrefl htrans _ l hrest⟩
    · obtain ⟨t, ht, hend⟩ := ih (pass b s).1 hrest hmem
      exact ⟨t, htrans _ _ _ hb ht, hend⟩

theorem forEach_outputs {I : σ → Prop} {P : ω → Prop} {s : σ} (hs : I s) (l : List α)
    (hpass : ∀ a ∈ l, ∀ t, I t → I (pass a t).1 ∧ ∀ x ∈ (pass a t).2, P x) :
    I (forEach pass l s).1 ∧ ∀ x ∈ (forEach pass l s).2, P x := by
  induction l generalizing s with
  | nil => exact ⟨hs, List.forall_mem_nil _⟩
  | cons a l ih =>
    obtain ⟨hfirst, hout⟩ := hpass a (List.mem_cons_self ..) s hs
    obtain ⟨hend, hrest⟩ := ih hfirst fun b hb => hpass b (List.mem_cons_of_mem _ hb)
    exact ⟨hend, List.forall_mem_append.mpr ⟨hout, hrest⟩⟩

end Loops

structure OnlySends (s t : State) : Prop where
  wants : t.wants = s.wants
  connections : t.connections = s.connections
  broadcastedTo : t.broadcastedTo = s.broadcastedTo
  created : t.created = s.created
  connected : t.connected = s.connected
  unsupportedPeers : t.streams.unsupportedPeers = s.streams.unsupportedPeers
  started : KeepsSends s.streams t.streams
  sends : s.streams.sends.length ≤ t.streams.sends.length
  broadcasts : ∀ b ∈ t.broadcasts, b ∈ s.broadcasts ∨ b.2 < s.wants.deferreds.length

namespace OnlySends

variable {s t u : State}

theorem refl (s : State) : OnlySends s s where
  wants := rfl
  connections := rfl
  broadcastedTo := rfl
  created := rfl
  connected := rfl
  unsupportedPeers := rfl
  started _ _ _ h := h
  sends := Nat.le_refl _
  broadcasts _ h := Or.inl h

theorem trans (s t u : State) (h : OnlySends s t) (h' : OnlySends t u) : OnlySends s u where
  wants := h'.wants.trans h.wants
  connections := h'.connections.trans h.connections
  broadcastedTo := h'.broadcastedTo.trans h.broadcastedTo
  created := h'.created.trans h.created
  connected := h'.connected.trans h.connected
  unsupportedPeers := h'.unsupportedPeers.trans h.unsupportedPeers
  started i peer message hs := h'.started i peer message (h.started i peer message hs)
  sends := Nat.le_trans h.sends h'.sends
  broadcasts b hb := by
    rcases h'.broadcasts b hb with hold | hnew
    · exact h.broadcasts b hold
    · exact Or.inr (h.wants ▸ hnew)

theorem sendMessage (s : State) (peer : String) (message : Bytes) :
    OnlySends s (s.sendMessage peer message).1 ∧
      (s.sendMessage peer message).1.streams.Started s.streams.sends.length peer message := by
  obtain ⟨phase, heq⟩ := sendMessage_eq s.streams peer message
  have hstreams : (s.sendMessage peer message).1.streams =
      { s.streams with sends := s.streams.sends ++ [⟨peer, message, phase⟩] } := heq
  refine ⟨⟨rfl, rfl, rfl, rfl, rfl, ?_, ?_, ?_, fun b hb => Or.inl hb⟩, ?_⟩
  · rw [hstreams]
  · rw [hstreams]
    exact keepsSends_of_change (.starts _)
  · rw [hstreams]
    simp
  · rw [hstreams]
    exact ⟨_, List.getElem?_concat_length, rfl, rfl⟩

theorem broadcastTo {pending : PendingWant} (hpending : pending.deferred < s.wants.deferreds.length)
    (message : Bytes) (peer : String) : OnlySends s (s.broadcastTo pending message peer).1 := by
  unfold State.broadcastTo
  split_ifs
  · exact refl s
  · have hsend := (sendMessage { s with
      broadcasts := s.broadcasts ++ [(s.streams.sends.length, pending.deferred)] } peer message).1
    refine { hsend with broadcasts := fun b hb => ?_ }
    rcases hsend.broadcasts b hb with hold | hnew
    · rcases List.mem_append.mp hold with hold | hlast
      · exact Or.inl hold
      · rw [List.mem_singleton.mp hlast]
        exact Or.inr hpending
    · exact Or.inr hnew

end OnlySends

variable {M : Multiformats} {s t : State}

theorem broadcastWant_sends {cid : CID} {pending : PendingWant}
    (hlookup : s.wants.pendingWants.lookup (M.toString cid) = some pending)
    (hpending : pending.deferred < s.wants.deferreds.length) :
    OnlySends s (s.broadcastWant M cid).1 ∧
      ((∀ b ∈ s.broadcastedTo, b.1 ≠ pending.deferred) → ∀ peer ∈ s.connections,
        peer ∉ s.streams.unsupportedPeers → ∃ i, s.streams.sends.length ≤ i ∧
          (s.broadcastWant M cid).1.streams.Started i peer (encodeWantBlock M cid)) := by
  have hpass : ∀ peer ∈ s.connections, ∀ t, OnlySends s t →
      OnlySends t (t.broadcastTo pending (encodeWantBlock M cid) peer).1 :=
    fun peer _ t ht => OnlySends.broadcastTo (ht.wants ▸ hpending) _ peer
  rw [State.broadcastWant, hlookup]
  refine ⟨forEach_rel OnlySends.refl OnlySends.trans s _ hpass,
    fun hnew peer hpeer hsupported => ?_⟩
  obtain ⟨t, ht, hend⟩ := forEach_pass OnlySends.refl OnlySends.trans s _ hpass hpeer
  have hsends : ¬ ((pending.deferred, peer) ∈ t.broadcastedTo ∨
      peer ∈ t.streams.unsupportedPeers) := by
    rw [ht.broadcastedTo, ht.unsupportedPeers, not_or]
    exact ⟨fun hmem => hnew _ hmem rfl, hsupported⟩
  refine ⟨t.streams.sends.length, ht.sends, hend.started _ _ _ ?_⟩
  rw [State.broadcastTo, if_neg hsends]
  exact (OnlySends.sendMessage _ peer _).2

theorem onConnect_sends (peer : String) : OnlySends s (s.onConnect M peer).1 ∧
    (peer ∉ s.streams.unsupportedPeers → ∀ key pending,
      s.wants.pendingWants.lookup key = some pending → ∃ i, s.streams.sends.length ≤ i ∧
        (s.onConnect M peer).1.streams.Started i peer (encodeWantBlock M pending.cid)) := by
  rw [State.onConnect]
  split_ifs with hunsupported
  · exact ⟨OnlySends.refl s, fun hsupported => absurd hunsupported hsupported⟩
  · have hpass : ∀ pending ∈ s.wants.pendingWants.entries.reverse.map (·.2), ∀ t,
        OnlySends s t →
        OnlySends t (t.sendMessage peer (encodeWantBlock M pending.cid)).1 :=
      fun pending _ t _ => (OnlySends.sendMessage t peer _).1
    refine ⟨forEach_rel OnlySends.refl OnlySends.trans s _ hpass, fun _ key pending hlookup => ?_⟩
    have hmem : pending ∈ s.wants.pendingWants.entries.reverse.map (·.2) :=
      List.mem_map.mpr ⟨⟨key, pending⟩,
        List.mem_reverse.mpr (AList.mem_lookup_iff.mp hlookup), rfl⟩
    obtain ⟨t, ht, hend⟩ := forEach_pass OnlySends.refl OnlySends.trans s _ hpass hmem
    exact ⟨t.streams.sends.length, ht.sends,
      hend.started _ _ _ (OnlySends.sendMessage t peer _).2⟩

theorem length_settleAll (wants : List Nat) (st : Settlement) (ds : List Deferred) :
    (wants.foldl (settle · · st) ds).length = ds.length := by
  induction wants generalizing ds with
  | nil => rfl
  | cons d wants ih =>
    rw [List.foldl_cons, ih]
    exact List.length_modify _ _ _

theorem broadcastCids_next (h : Handler) (rest : List Block) :
    broadcastCids (h.next rest).2 = [] := by
  cases rest <;> rfl

variable {w w' : Bitswap.State} {e : Bitswap.Event} {o : List Bitswap.Effect}

theorem broadcastCids_eq_nil (hw : w.step M e = some (w', o))
    (he : ∀ cid signal, e ≠ .want cid signal) : broadcastCids o = [] := by
  cases e with
  | want cid signal => exact absurd rfl (he cid signal)
  | abort signal =>
    simp only [Bitswap.State.step] at hw
    split_ifs at hw
    obtain rfl := congrArg Prod.snd (Option.some.inj hw)
    simp [Bitswap.State.abort, broadcastCids]
  | message peer bytes fuel =>
    obtain ⟨decoded, -, hd⟩ := Option.map_eq_some_iff.mp hw
    obtain rfl := congrArg Prod.snd hd
    exact broadcastCids_next _ _
  | hashed i =>
    obtain ⟨hd, block, rest, -, -, hr⟩ := step_hashed hw
    obtain rfl := congrArg Prod.snd hr
    unfold Bitswap.State.hashed
    split
    · exact broadcastCids_next _ _
    · dsimp only
      split
      · exact broadcastCids_next _ _
      · rfl
  | stored i =>
    obtain ⟨hd, cid, data, pending, rest, -, -, hr⟩ := step_stored hw
    obtain rfl := congrArg Prod.snd hr
    exact broadcastCids_next _ _
  | stop =>
    obtain rfl := congrArg Prod.snd (Option.some.inj hw)
    simp [Bitswap.State.stop, broadcastCids]

theorem wants_step (hw : w.step M e = some (w', o)) :
    (∃ cid, broadcastCids o = [cid] ∧ w'.deferreds.length = w.deferreds.length + 1 ∧
      w'.pendingWants = w.pendingWants.insert (M.toString cid) ⟨w.deferreds.length, cid⟩) ∨
    (broadcastCids o = [] ∧ w'.deferreds.length = w.deferreds.length ∧
      ∀ key p, w'.pendingWants.lookup key = some p → w.pendingWants.lookup key = some p) := by
  have hnil := broadcastCids_eq_nil hw
  cases step_cases hw with
  | join => exact Or.inr ⟨rfl, rfl, fun _ _ h => h⟩
  | create => exact Or.inl ⟨_, rfl, by simp, rfl⟩
  | abort =>
    refine Or.inr ⟨hnil (by simp), ?_, ?_⟩
    · rw [abort_eq]
      exact length_settleAll _ _ _
    · intro key p h
      rw [abort_eq] at h
      exact (Table.lookup_eraseAll_iff.mp h).2
  | pass _ _ _ hwant => exact Or.inr ⟨hnil hwant, rfl, fun _ _ h => h⟩
  | take => exact Or.inr ⟨rfl, rfl, fun _ _ h => (Table.lookup_erase_iff.mp h).2⟩
  | release => exact Or.inr ⟨hnil (by simp), List.length_modify _ _ _, fun _ _ h => h⟩
  | stop =>
    refine Or.inr ⟨hnil (by simp), ?_, ?_⟩
    · exact length_settleAll _ _ _
    · intro key p h
      simp [Bitswap.State.stop] at h

def SentSince (M : Multiformats) (s : State) (m : Moment) (peer : String) (cid : CID) : Prop :=
  peer ∉ m.unsupportedPeers →
    ∃ i, m.sends ≤ i ∧ s.streams.Started i peer (encodeWantBlock M cid)

/-- Every pending want has been sent to every connected peer since the later of its creation
and the connection of the peer. -/
structure Reached (M : Multiformats) (s : State) : Prop where
  length : s.created.length = s.wants.deferreds.length
  entry : ∀ key p, s.wants.pendingWants.lookup key = some p →
    p.deferred < s.wants.deferreds.length
  broadcastedTo : ∀ b ∈ s.broadcastedTo, b.1 < s.wants.deferreds.length
  broadcasts : ∀ b ∈ s.broadcasts, b.2 < s.wants.deferreds.length
  created : ∀ m ∈ s.created, m.time < s.time
  connected : ∀ peer m, s.connected.lookup peer = some m → m.time < s.time
  known : ∀ peer ∈ s.connections, ∃ m, s.connected.lookup peer = some m
  sent : ∀ key p peer m m', s.wants.pendingWants.lookup key = some p → peer ∈ s.connections →
    s.created[p.deferred]? = some m → s.connected.lookup peer = some m' →
    SentSince M s (later m m') peer p.cid

theorem reached_init (connections : List String) : Reached M (node M connections).init where
  length := rfl
  entry key p hp := by simp [node] at hp
  broadcastedTo b hb := by simp [node] at hb
  broadcasts b hb := by simp [node] at hb
  created m hm := by simp [node] at hm
  connected peer m hm := by
    rcases Table.lookup_of_insertAll hm with hmem | hnone
    · obtain ⟨q, -, heq⟩ := List.mem_map.mp hmem
      cases heq
      exact Nat.one_pos
    · simp at hnone
  known peer hpeer := by
    refine ⟨⟨0, 0, []⟩, Table.lookup_insertAll_of_mem ?_ (List.mem_map.mpr ⟨peer, hpeer, rfl⟩)⟩
    rintro p hp -
    obtain ⟨q, -, rfl⟩ := List.mem_map.mp hp
    rfl
  sent key p peer m m' hp := by simp [node] at hp

theorem SentSince.keep {m : Moment} {peer : String} {cid : CID} (h : SentSince M s m peer cid)
    (hkeep : KeepsSends s.streams t.streams) : SentSince M t m peer cid := by
  intro hsupported
  obtain ⟨i, hi, hstarted⟩ := h hsupported
  exact ⟨i, hi, hkeep i peer _ hstarted⟩

theorem later_of_lt {m m' : Moment} (h : m.time < m'.time) : later m m' = m' ∧ later m' m = m' :=
  ⟨if_pos (Nat.le_of_lt h), if_neg (Nat.not_le.mpr h)⟩

namespace Reached

theorem mono (h : Reached M s) (hcreated : t.created = s.created)
    (hconnected : t.connected = s.connected) (htime : s.time ≤ t.time)
    (hlength : t.wants.deferreds.length = s.wants.deferreds.length)
    (hwants : ∀ key p, t.wants.pendingWants.lookup key = some p →
      s.wants.pendingWants.lookup key = some p)
    (hconnections : ∀ peer ∈ t.connections, peer ∈ s.connections)
    (hbroadcastedTo : ∀ b ∈ t.broadcastedTo, b.1 < s.wants.deferreds.length)
    (hbroadcasts : ∀ b ∈ t.broadcasts, b.2 < s.wants.deferreds.length)
    (hkeep : KeepsSends s.streams t.streams) : Reached M t where
  length := by rw [hcreated, hlength, h.length]
  entry key p hp := by rw [hlength]; exact h.entry key p (hwants key p hp)
  broadcastedTo b hb := by rw [hlength]; exact hbroadcastedTo b hb
  broadcasts b hb := by rw [hlength]; exact hbroadcasts b hb
  created m hm := Nat.lt_of_lt_of_le (h.created m (hcreated ▸ hm)) htime
  connected peer m hm := Nat.lt_of_lt_of_le (h.connected peer m (hconnected ▸ hm)) htime
  known peer hpeer := by rw [hconnected]; exact h.known peer (hconnections peer hpeer)
  sent key p peer m m' hp hpeer hm hm' := by
    rw [hcreated] at hm
    rw [hconnected] at hm'
    exact (h.sent key p peer m m' (hwants key p hp) (hconnections peer hpeer) hm hm').keep hkeep

theorem create (h : Reached M s) {cid : CID} {wants : Bitswap.State}
    (hlength : wants.deferreds.length = s.wants.deferreds.length + 1)
    (hwants : wants.pendingWants =
      s.wants.pendingWants.insert (M.toString cid) ⟨s.wants.deferreds.length, cid⟩)
    {u : State} (hu : u = { s with wants, created := s.created ++ [s.now] })
    (ht : t = (u.broadcastWant M cid).1) : Reached M { t with time := s.time + 1 } := by
  have hlookup : u.wants.pendingWants.lookup (M.toString cid) =
      some ⟨s.wants.deferreds.length, cid⟩ := by
    rw [hu, hwants, AList.lookup_insert]
  obtain ⟨honly, hsent⟩ := broadcastWant_sends hlookup (by rw [hu]; simp [hlength])
  have hcreated : t.created = s.created ++ [s.now] := by rw [ht, honly.created, hu]
  have hconnected : t.connected = s.connected := by rw [ht, honly.connected, hu]
  have hconnections : t.connections = s.connections := by rw [ht, honly.connections, hu]
  have hdeferreds : t.wants.deferreds.length = s.wants.deferreds.length + 1 := by
    rw [ht, honly.wants, hu, hlength]
  have hkeep : KeepsSends s.streams t.streams := by
    rw [ht]
    intro i peer message hs
    refine honly.started i peer message ?_
    rwa [hu]
  -- what is under a key now is the new want or was there before
  have hentry : ∀ key p, t.wants.pendingWants.lookup key = some p →
      p = ⟨s.wants.deferreds.length, cid⟩ ∨ s.wants.pendingWants.lookup key = some p := by
    intro key p hp
    rw [ht, honly.wants, hu, hwants] at hp
    by_cases hk : key = M.toString cid
    · rw [hk, AList.lookup_insert] at hp
      exact Or.inl (Option.some.inj hp).symm
    · rw [AList.lookup_insert_ne hk] at hp
      exact Or.inr hp
  constructor
  case length =>
    simp [hcreated, h.length, hdeferreds]
  case entry =>
    intro key p hp
    rw [hdeferreds]
    rcases hentry key p hp with rfl | hold
    · exact Nat.lt_succ_self _
    · exact Nat.lt_succ_of_lt (h.entry key p hold)
  case broadcastedTo =>
    intro b hb
    rw [hdeferreds]
    rw [show t.broadcastedTo = s.broadcastedTo by rw [ht, honly.broadcastedTo, hu]] at hb
    exact Nat.lt_succ_of_lt (h.broadcastedTo b hb)
  case broadcasts =>
    intro b hb
    rw [hdeferreds]
    rcases honly.broadcasts b (ht ▸ hb) with hold | hnew
    · rw [hu] at hold
      exact Nat.lt_succ_of_lt (h.broadcasts b hold)
    · rw [hu] at hnew
      exact hlength ▸ hnew
  case created =>
    intro m hm
    rw [hcreated] at hm
    rcases List.mem_append.mp hm with hold | hnew
    · exact Nat.lt_succ_of_lt (h.created m hold)
    · rw [List.mem_singleton.mp hnew]
      exact Nat.lt_succ_self _
  case connected =>
    intro peer m hm
    rw [hconnected] at hm
    exact Nat.lt_succ_of_lt (h.connected peer m hm)
  case known =>
    intro peer hpeer
    rw [hconnections] at hpeer
    rw [hconnected]
    exact h.known peer hpeer
  case sent =>
    intro key p peer m m' hp hpeer hm hm'
    rw [hcreated] at hm
    rw [hconnected] at hm'
    rw [hconnections] at hpeer
    rcases hentry key p hp with rfl | hold
    · rw [← h.length, List.getElem?_concat_length] at hm
      obtain rfl := Option.some.inj hm
      rw [(later_of_lt (show m'.time < s.now.time from h.connected peer m' hm')).2]
      intro hsupported
      have hfresh : ∀ b ∈ u.broadcastedTo, b.1 ≠ s.wants.deferreds.length := by
        rw [hu]
        exact fun b hb => Nat.ne_of_lt (h.broadcastedTo b hb)
      have hstarted := hsent hfresh peer (by rw [hu]; exact hpeer) (by rw [hu]; exact hsupported)
      rw [← ht, hu] at hstarted
      exact hstarted
    · rw [List.getElem?_append_left (h.length ▸ h.entry key p hold)] at hm
      exact (h.sent key p peer m m' hold hpeer hm hm').keep hkeep

theorem connectNew (h : Reached M s) {peer : String} {u : State}
    (hu : u = { s with
      connections := s.connections ++ [peer]
      connected := s.connected.insert peer s.now })
    (ht : t = (u.onConnect M peer).1) : Reached M { t with time := s.time + 1 } := by
  obtain ⟨honly, hsent⟩ := onConnect_sends (M := M) (s := u) peer
  have hcreated : t.created = s.created := by rw [ht, honly.created, hu]
  have hconnected : t.connected = s.connected.insert peer s.now := by rw [ht, honly.connected, hu]
  have hconnections : t.connections = s.connections ++ [peer] := by rw [ht, honly.connections, hu]
  have hwants : t.wants = s.wants := by rw [ht, honly.wants, hu]
  have hkeep : KeepsSends s.streams t.streams := by
    rw [ht]
    intro i q message hs
    refine honly.started i q message ?_
    rwa [hu]
  constructor
  case length =>
    simp only [hcreated, hwants, h.length]
  case entry =>
    intro key p hp
    rw [hwants] at hp ⊢
    exact h.entry key p hp
  case broadcastedTo =>
    intro b hb
    rw [show t.broadcastedTo = s.broadcastedTo by rw [ht, honly.broadcastedTo, hu]] at hb
    rw [hwants]
    exact h.broadcastedTo b hb
  case broadcasts =>
    intro b hb
    rw [hwants]
    rcases honly.broadcasts b (ht ▸ hb) with hold | hnew
    · rw [hu] at hold
      exact h.broadcasts b hold
    · rw [hu] at hnew
      exact hnew
  case created =>
    intro m hm
    rw [hcreated] at hm
    exact Nat.lt_succ_of_lt (h.created m hm)
  case connected =>
    intro q m hm
    rw [hconnected] at hm
    by_cases hq : q = peer
    · rw [hq, AList.lookup_insert] at hm
      obtain rfl := Option.some.inj hm
      exact Nat.lt_succ_self _
    · rw [AList.lookup_insert_ne hq] at hm
      exact Nat.lt_succ_of_lt (h.connected q m hm)
  case known =>
    intro q hq
    rw [hconnections] at hq
    rw [hconnected]
    by_cases hqp : q = peer
    · exact ⟨_, by rw [hqp, AList.lookup_insert]⟩
    · rw [AList.lookup_insert_ne hqp]
      refine h.known q ?_
      simpa [hqp] using hq
  case sent =>
    intro key p q m m' hp hq hm hm'
    rw [hwants] at hp
    rw [hcreated] at hm
    rw [hconnected] at hm'
    by_cases hqp : q = peer
    · subst hqp
      rw [AList.lookup_insert] at hm'
      obtain rfl := Option.some.inj hm'
      have hlt : m.time < s.now.time := h.created m (List.mem_of_getElem? hm)
      rw [(later_of_lt hlt).1]
      intro hsupported
      have hstarted := hsent (by rw [hu]; exact hsupported) key p (by rw [hu]; exact hp)
      rw [← ht, hu] at hstarted
      exact hstarted
    · rw [AList.lookup_insert_ne hqp] at hm'
      rw [hconnections] at hq
      exact (h.sent key p q m m' hp (by simpa [hqp] using hq) hm hm').keep hkeep

theorem onWants (h : Reached M s) {e : Bitswap.Event} {r : Bitswap.State × List Bitswap.Effect}
    (hr : s.wants.step M e = some r) :
    Reached M { (s.onWants M r.1 r.2).1 with time := s.time + 1 } := by
  unfold State.onWants
  rcases wants_step hr with ⟨cid, hcids, hlength, hwants⟩ | ⟨hcids, hlength, hwants⟩
  · rw [hcids]
    exact h.create hlength hwants rfl rfl
  · rw [hcids]
    exact h.mono (by simp [forEach]) rfl (Nat.le_succ _) hlength hwants (fun _ hq => hq)
      h.broadcastedTo h.broadcasts fun _ _ _ hs => hs

theorem onStreams (h : Reached M s) {e : Streams.Event}
    {r : Streams.State × List Streams.Effect} (hr : s.streams.step e = some r) :
    Reached M { s.onStreams e r.1 with time := s.time + 1 } := by
  refine h.mono rfl rfl (Nat.le_succ _) rfl (fun _ _ hp => hp) (fun _ hq => hq) ?_ h.broadcasts
    (keepsSends_of_change (step_changes hr).sends)
  intro b hb
  rcases List.mem_append.mp hb with hold | hnew
  · exact h.broadcastedTo b hold
  · split at hnew
    · obtain ⟨b', hb', heq⟩ := List.mem_filterMap.mp hnew
      obtain ⟨send, -, rfl⟩ := Option.map_eq_some_iff.mp heq
      exact h.broadcasts b' (List.mem_filter.mp hb').1
    · cases hnew

theorem connect (h : Reached M s) (peer : String) :
    Reached M { (s.connect M peer).1 with time := s.time + 1 } := by
  unfold State.connect
  split_ifs with hpeer
  · refine h.mono rfl rfl (Nat.le_succ _) rfl (fun _ _ hp => hp) (fun q hq => ?_)
      h.broadcastedTo h.broadcasts fun _ _ _ hs => hs
    rcases List.mem_append.mp hq with hold | hnew
    · exact hold
    · rw [List.mem_singleton.mp hnew]
      exact hpeer
  · exact h.connectNew rfl rfl

theorem disconnect (h : Reached M s) (peer : String) :
    Reached M { (s.disconnect peer).1 with time := s.time + 1 } := by
  unfold State.disconnect
  dsimp only
  split_ifs
  · exact h.mono rfl rfl (Nat.le_succ _) rfl (fun _ _ hp => hp)
      (fun q hq => List.mem_of_mem_erase hq) h.broadcastedTo h.broadcasts fun _ _ _ hs => hs
  · refine h.mono rfl rfl (Nat.le_succ _) rfl (fun _ _ hp => hp)
      (fun q hq => List.mem_of_mem_erase hq) h.broadcastedTo h.broadcasts
      (keepsSends_of_change ?_)
    rw [sends_cleanupStream]
    exact .keeps

theorem step (h : Reached M s) {e : Event} {o : List Effect} (hs : s.step M e = some (t, o)) :
    Reached M t := by
  obtain ⟨r, hact, hr⟩ := Option.map_eq_some_iff.mp hs
  obtain rfl := congrArg Prod.fst hr
  unfold State.act at hact
  split at hact
  · cases hact
  · obtain ⟨w, hw, rfl⟩ := Option.map_eq_some_iff.mp hact
    exact h.onWants hw
  · cases hact
  · cases hact
  · cases hact
  · obtain ⟨w, hw, rfl⟩ := Option.map_eq_some_iff.mp hact
    exact h.onStreams hw
  · obtain rfl := Option.some.inj hact
    exact h.connect _
  · split_ifs at hact
    obtain rfl := Option.some.inj hact
    exact h.disconnect _

end Reached

/-- In every reachable state, a pending want has been sent to a connected peer since the
later of the creation of the want and the connection of the peer, unless the peer was known
at that time not to support bitswap. -/
theorem pending_reaches_connected {connections : List String} {es : List Event}
    {out : List Effect} (hrun : (node M connections).Run System.any es s out) {key : String}
    {pending : PendingWant}
    (hpending : s.wants.pendingWants.lookup key = some pending) {peer : String}
    (hpeer : peer ∈ s.connections) : ∃ created connected,
      s.created[pending.deferred]? = some created ∧ s.connected.lookup peer = some connected ∧
      SentSince M s (later created connected) peer pending.cid := by
  have h : Reached M s := hrun.invariant (I := fun s _ => Reached M s) (reached_init connections)
    fun s e t out o h _ hs => h.step hs
  have hlt := h.entry key pending hpending
  rw [← h.length] at hlt
  obtain ⟨connected, hconnected⟩ := h.known peer hpeer
  exact ⟨_, connected, List.getElem?_eq_getElem hlt, hconnected,
    h.sent key pending peer _ connected hpending hpeer (List.getElem?_eq_getElem hlt) hconnected⟩

open Multiformats

def reconnected : List Event :=
  [.wants (.want emptyRaw none), .connect "peer", .streams (.dialFailed 0 false),
    .disconnect "peer", .connect "peer"]

theorem pending_reaches_reconnected : ∃ s out,
    (node onEmptyBlock ["other"]).Run System.any reconnected s out ∧
      ∃ i, 2 ≤ i ∧ s.streams.Started i "peer" (encodeWantBlock onEmptyBlock emptyRaw) := by
  obtain ⟨s, out, hrun, hpending, hpeer, hcreated, hconnected⟩ := System.exists_run
    (T := node onEmptyBlock ["other"]) reconnected
    (p := fun r => r.1.wants.pendingWants.lookup (cidText emptyRaw) = some ⟨0, emptyRaw⟩ ∧
      "peer" ∈ r.1.connections ∧ r.1.created[0]? = some ⟨1, 0, []⟩ ∧
      r.1.connected.lookup "peer" = some ⟨5, 2, []⟩) (by decide +kernel)
  refine ⟨s, out, hrun, ?_⟩
  obtain ⟨created, connected, hc, hp, hsent⟩ := pending_reaches_connected hrun hpending hpeer
  obtain rfl := Option.some.inj (hcreated.symm.trans hc)
  obtain rfl := Option.some.inj (hconnected.symm.trans hp)
  exact hsent (by decide)

end IpfsShard.Bitswap.Broadcast
