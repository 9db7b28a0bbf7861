import IpfsShard.Bitswap.Completion

/-! A node and its peers, that come and go. Whatever is under way between them can be completed, and
then every want has a block that some peer gives, or no peer that is connected gives one. -/

namespace IpfsShard.Bitswap
open Codec Runs

/-- What the node has with a peer: an `Exchange` but for the client. -/
structure Link where
  peer : String
  sending : List CID := []
  requests : Channel := {}
  server : State := {}
  serving : List CID := []
  responses : Channel := {}
  deriving DecidableEq

def Link.exchange (l : Link) (client : State) : Exchange where
  client := client
  sending := l.sending
  requests := l.requests
  server := l.server
  serving := l.serving
  responses := l.responses

def Link.after (l : Link) (x : Exchange) : Link where
  peer := l.peer
  sending := x.sending
  requests := x.requests
  server := x.server
  serving := x.serving
  responses := x.responses

structure Swarm where
  client : State := {}
  links : List Link := []
  deriving DecidableEq

namespace Swarm

inductive Event where
  | client (e : Bitswap.Event)
  | link (i : Nat) (e : Exchange.Event)
  | connect (peer : String)
  | disconnect (i : Nat)

variable (M : Multiformats) (store : String → CID → Found) (s : Swarm)

def pendingCids : List CID := s.client.pendingWants.entries.reverse.map (·.2.cid)

def step : Event → Option (Swarm × List Effect)
  -- messages come over the streams, and the node is not stopped
  | .client (.message ..) | .client .stop => none
  | .client e => (s.client.step M e).map fun r =>
      ({ client := r.1
         links := s.links.map fun l => l.after ((l.exchange s.client).onClient r).1 }, r.2)
  | .link i e => s.links[i]?.bind fun l =>
      ((l.exchange s.client).step M l.peer (store l.peer) e).map fun r =>
        ({ client := r.1.client, links := s.links.set i (l.after r.1) }, r.2)
  | .connect peer =>
    if peer ∈ s.links.map Link.peer then none
    else some ({ s with links := s.links ++ [{ peer, sending := s.pendingCids }] }, [])
  -- what is under way with the peer is lost
  | .disconnect i =>
    if i < s.links.length then some ({ s with links := s.links.eraseIdx i }, []) else none

end Swarm

def swarm (M : Multiformats) (store : String → CID → Found) :
    System Swarm Swarm.Event Effect where
  init := {}
  step := Swarm.step M store

def Given (store : String → CID → Found) (cid : CID) (data : Bytes) : Prop :=
  ∃ peer, store peer cid = .uint8Array data

namespace Swarm

variable (M : Multiformats) (store : String → CID → Found) (s : Swarm)

/-- What is wanted can be sent, a signal is aborted while the wants under its keys are its own, and
a chunk in which a frame ends does itself end with a frame. -/
def Proper : Event → Prop
  | .client (.want cid _) => Sendable M cid
  | .client e => AbortsOwn s.client e
  | .link i e => ∀ l, s.links[i]? = some l → (l.exchange s.client).Clean e
  | _ => True

def Event.goesOn : Event → Prop
  | .client e => e.goesOn
  | .link .. => True
  | _ => False

structure Quiet : Prop where
  links : ∀ l ∈ s.links, (l.exchange s.client).Quiet
  finished : ∀ h ∈ s.client.handlers, h.phase = .finished

/-- The call has a block that some peer gives for its CID; or it waits, and no peer that is
connected gives one; or the signal of its want was aborted. -/
def Answered (c : Call) : Prop :=
  ∃ w, s.client.deferreds[c.deferred]? = some w ∧
    ((∃ data, Given store c.cid data ∧ w.settlement = .resolved data) ∨
      (w.settlement = .pending ∧ ∀ l ∈ s.links, ∀ data, store l.peer c.cid ≠ .uint8Array data) ∨
      w.settlement = .rejected .aborted ∧
        ∃ signal, w.signal = some signal ∧ signal ∈ s.client.aborted)

def linkWeight (l : Link) : Nat :=
  6 * l.sending.length + 5 * l.requests.messages.length + 4 * l.serving.length +
    3 * l.responses.messages.length

def weight : Nat := (s.links.map linkWeight).sum + s.client.weight

end Swarm

structure Swarming (M : Multiformats) (store : String → CID → Found) (s : Swarm) : Prop where
  wanting : Wanting M (Given store) s.client
  links : ∀ l ∈ s.links, Exchanging M (store l.peer) (Given store) (l.exchange s.client)

variable {M : Multiformats} {store : String → CID → Found} {s t : Swarm} {e : Swarm.Event}
  {o : List Effect} {l : Link} {x : Exchange} {i : Nat}

theorem mem_pendingCids {cid : CID} : cid ∈ s.pendingCids ↔
    ∃ key p, s.client.pendingWants.lookup key = some p ∧ p.cid = cid := by
  rw [Swarm.pendingCids, List.mem_map]
  constructor
  · rintro ⟨⟨key, p⟩, hp, rfl⟩
    exact ⟨key, p, AList.mem_lookup_iff.mpr (List.mem_reverse.mp hp), rfl⟩
  · rintro ⟨key, p, hp, rfl⟩
    exact ⟨⟨key, p⟩, List.mem_reverse.mpr (AList.mem_lookup_iff.mp hp), rfl⟩

theorem Swarming.client (h : Swarming M store s) (hM : Function.Injective M.toString)
    (hgiven : Servable M (Given store)) {e : Event} {client : State}
    (hs : s.client.step M e = some (client, o))
    (hmessage : ∀ peer bytes fuel, e ≠ .message peer bytes fuel) (hstop : e ≠ .stop)
    (hwant : ∀ cid signal, e = .want cid signal → Sendable M cid) (hown : AbortsOwn s.client e) :
    Swarming M store
      ⟨client, s.links.map fun l => l.after ((l.exchange s.client).onClient (client, o)).1⟩ := by
  have hwanting := h.wanting.step hM hgiven hs hmessage hstop hwant hown
  refine ⟨hwanting, fun l hl => ?_⟩
  obtain ⟨l, hold, rfl⟩ := List.mem_map.mp hl
  exact (h.links l hold).client hgiven hs hwanting hwant

theorem Swarming.link (h : Swarming M store s) (hM : Function.Injective M.toString)
    (hgiven : Servable M (Given store)) (hi : s.links[i]? = some l) {e : Exchange.Event}
    (hclean : (l.exchange s.client).Clean e)
    (hs : (l.exchange s.client).step M l.peer (store l.peer) e = some (x, o)) :
    Swarming M store ⟨x.client, s.links.set i (l.after x)⟩ := by
  obtain ⟨hx, handlers, hhandlers⟩ :=
    (h.links l (List.mem_of_getElem? hi)).step hM hgiven hclean hs
  refine ⟨hx.wanting, fun l' hl' => ?_⟩
  rcases List.mem_or_eq_of_mem_set hl' with hold | rfl
  · exact (h.links l' hold).withHandlers hhandlers hx.wanting
  · exact hx

theorem Swarming.connect (h : Swarming M store s) (peer : String) :
    Swarming M store { s with links := s.links ++ [{ peer, sending := s.pendingCids }] } := by
  refine ⟨h.wanting, List.forall_mem_append.mpr ⟨h.links, List.forall_mem_singleton.mpr ?_⟩⟩
  refine ⟨fun cid data hdata => ⟨peer, hdata⟩, h.wanting, fun cid hcid => ?_,
    Channel.sound_empty, List.forall_mem_nil _, Channel.sound_empty, List.forall_mem_nil _,
    fun key p hp => ?_⟩
  · obtain ⟨key, p, hp, rfl⟩ := mem_pendingCids.mp hcid
    exact h.wanting.sendable key p hp
  · exact Or.inl (mem_pendingCids.mpr ⟨key, p, hp, rfl⟩)

theorem Swarming.step (h : Swarming M store s) (hM : Function.Injective M.toString)
    (hgiven : Servable M (Given store)) (hproper : s.Proper M e)
    (hs : s.step M store e = some (t, o)) : Swarming M store t := by
  have hclient : ∀ e : Event, (∀ peer bytes fuel, e ≠ .message peer bytes fuel) → e ≠ .stop →
      (∀ cid signal, e = .want cid signal → Sendable M cid) → AbortsOwn s.client e →
      (s.client.step M e).map (fun r => (Swarm.mk r.1 (s.links.map fun l =>
        l.after ((l.exchange s.client).onClient r).1), r.2)) = some (t, o) →
      Swarming M store t := by
    intro e hmessage hstop hwant hown hs
    obtain ⟨r, hr, heq⟩ := Option.map_eq_some_iff.mp hs
    cases heq
    exact h.client hM hgiven hr hmessage hstop hwant hown
  cases e with
  | client e =>
    cases e with
    | message peer bytes fuel => cases hs
    | stop => cases hs
    | want cid signal =>
      refine hclient (.want cid signal) (by simp) (by simp) (fun c sig heq => ?_) trivial hs
      cases heq
      exact hproper
    | abort signal => exact hclient (.abort signal) (by simp) (by simp) (by simp) hproper hs
    | hashed i => exact hclient (.hashed i) (by simp) (by simp) (by simp) hproper hs
    | stored i => exact hclient (.stored i) (by simp) (by simp) (by simp) hproper hs
  | link i e =>
    obtain ⟨l, hi, hs⟩ := Option.bind_eq_some_iff.mp hs
    obtain ⟨r, hr, heq⟩ := Option.map_eq_some_iff.mp hs
    cases heq
    exact h.link hM hgiven hi (hproper l hi) hr
  | connect peer =>
    simp only [Swarm.step] at hs
    split_ifs at hs
    cases hs
    exact h.connect peer
  | disconnect i =>
    simp only [Swarm.step] at hs
    split_ifs at hs
    cases hs
    exact ⟨h.wanting, fun l hl => h.links l (List.mem_of_mem_eraseIdx hl)⟩

theorem swarming_init : Swarming M store {} :=
  ⟨⟨sound_init, noWantLost_init, ⟨by simp, by simp [State.stores], by simp, by simp⟩,
    fun _ _ h => by cases h⟩, List.forall_mem_nil _⟩

theorem swarming_of_run (hM : Function.Injective M.toString) (hgiven : Servable M (Given store))
    {es : List Swarm.Event} {out : List Effect}
    (h : (swarm M store).Run (Swarm.Proper M) es s out) : Swarming M store s :=
  h.invariant (I := fun s _ => Swarming M store s) swarming_init
    fun _ _ _ _ _ hs hproper hstep => hs.step hM hgiven hproper hstep

theorem Swarming.answered_of_quiet (h : Swarming M store s) (hM : Function.Injective M.toString)
    (hquiet : s.Quiet) : ∀ c ∈ s.client.calls, s.Answered store c := by
  intro c hc
  obtain ⟨cid, signal, horigin, hkey⟩ := h.wanting.sound.call c hc
  obtain ⟨w, hw, heq⟩ := Option.map_eq_some_iff.mp horigin
  have hcid : w.cid = c.cid := (congrArg Prod.fst heq).trans (hM hkey)
  rw [Swarm.Answered, ← hcid]
  refine ⟨w, hw, ?_⟩
  cases hsettlement : w.settlement with
  | pending =>
    refine Or.inr (Or.inl ⟨rfl, fun l hl => ?_⟩)
    rcases h.wanting.kept c.deferred w hw hsettlement with hmap | ⟨i, hi⟩
    · exact (h.links l hl).not_given_of_quiet (hquiet.links l hl) hquiet.finished hmap
    · exact absurd hi (not_inStore_of_finished hquiet.finished w)
  | resolved data =>
    exact Or.inl ⟨data, h.wanting.fromStore.resolved c.deferred w data hw hsettlement, rfl⟩
  | rejected err =>
    obtain ⟨rfl, hsignal⟩ := h.wanting.fromStore.rejected c.deferred w err hw hsettlement
    exact Or.inr (Or.inr ⟨rfl, hsignal⟩)

structure Asked (s : Swarm) (c : Call) (peer : String) : Prop where
  call : c ∈ s.client.calls
  live : ∃ cid signal, s.client.origin c.deferred = some (cid, signal) ∧
    ∀ sig ∈ signal, sig ∉ s.client.aborted
  connected : peer ∈ s.links.map Link.peer

variable {c : Call} {peer : String}

theorem Asked.keeps (h : Asked s c peer) (hcalls : t.client.calls = s.client.calls)
    (haborted : t.client.aborted = s.client.aborted)
    (horigin : ∀ d r, s.client.origin d = some r → t.client.origin d = some r)
    (hpeers : t.links.map Link.peer = s.links.map Link.peer) : Asked t c peer := by
  obtain ⟨cid, signal, hmade, hlive⟩ := h.live
  exact ⟨hcalls ▸ h.call, ⟨cid, signal, horigin _ _ hmade, haborted ▸ hlive⟩, hpeers ▸ h.connected⟩

theorem same_of_goesOn {s t : State} {e : Event} (h : Step M s e t o) (he : e.goesOn) :
    t.calls = s.calls ∧ t.aborted = s.aborted := by
  cases h with
  | pass _ _ _ _ _ _ => exact ⟨rfl, rfl⟩
  | take _ _ _ _ => exact ⟨rfl, rfl⟩
  | release _ _ _ _ => exact ⟨rfl, rfl⟩
  | _ => cases he

theorem Asked.client (h : Asked s c peer) {e : Event} {client : State}
    (hs : Step M s.client e client o) (he : e.goesOn) :
    Asked ⟨client, s.links.map fun l => l.after ((l.exchange s.client).onClient (client, o)).1⟩ c
      peer := by
  obtain ⟨hcalls, haborted⟩ := same_of_goesOn hs he
  refine h.keeps hcalls haborted (fun d r => origin_step hs) ?_
  rw [List.map_map]
  rfl

theorem Asked.step (h : Asked s c peer) (hswarm : Swarming M store s)
    (hM : Function.Injective M.toString) (hgiven : Servable M (Given store))
    (hproper : s.Proper M e) (he : e.goesOn) (hs : s.step M store e = some (t, o)) :
    Asked t c peer := by
  cases e with
  | client e =>
    cases e with
    | hashed i =>
      obtain ⟨r, hr, heq⟩ := Option.map_eq_some_iff.mp hs
      cases heq
      exact h.client (step_cases hr) he
    | stored i =>
      obtain ⟨r, hr, heq⟩ := Option.map_eq_some_iff.mp hs
      cases heq
      exact h.client (step_cases hr) he
    | _ => cases he
  | link i e =>
    obtain ⟨l, hi, hs⟩ := Option.bind_eq_some_iff.mp hs
    obtain ⟨⟨x, effects⟩, hr, heq⟩ := Option.map_eq_some_iff.mp hs
    cases heq
    obtain ⟨-, handlers, hclient⟩ :=
      (hswarm.links l (List.mem_of_getElem? hi)).step hM hgiven (hproper l hi) hr
    have hsame : x.client = { s.client with handlers := s.client.handlers ++ handlers } := hclient
    have hcalls : x.client.calls = s.client.calls := by rw [hsame]
    have haborted : x.client.aborted = s.client.aborted := by rw [hsame]
    refine h.keeps hcalls haborted (fun d r hd => ?_) (Calls.map_set_of_eq hi rfl)
    rw [State.origin, hsame]
    exact hd
  | connect peer => cases he
  | disconnect i => cases he

theorem Asked.resolved_of_quiet (h : Asked s c peer) (hswarm : Swarming M store s)
    (hM : Function.Injective M.toString) (hquiet : s.Quiet) {data : Bytes}
    (hdata : store peer c.cid = .uint8Array data) : ∃ data w, Given store c.cid data ∧
      s.client.deferreds[c.deferred]? = some w ∧ w.settlement = .resolved data := by
  obtain ⟨w, hw, hresolved | ⟨-, hnone⟩ | ⟨-, signal, hsignal, haborted⟩⟩ :=
    hswarm.answered_of_quiet hM hquiet c h.call
  · obtain ⟨data, hgiven, hsettlement⟩ := hresolved
    exact ⟨data, w, hgiven, hw, hsettlement⟩
  · obtain ⟨l, hl, rfl⟩ := List.mem_map.mp h.connected
    exact absurd hdata (hnone l hl data)
  · obtain ⟨cid, made, horigin, hlive⟩ := h.live
    rw [State.origin, hw] at horigin
    obtain rfl : w.signal = made := congrArg Prod.snd (Option.some.inj horigin)
    exact absurd haborted (hlive signal hsignal)

theorem weight_exchange (l : Link) (client : State) :
    (l.exchange client).weight = Swarm.linkWeight l + client.weight := rfl

theorem weight_after (l : Link) (x : Exchange) :
    x.weight = Swarm.linkWeight (l.after x) + x.client.weight := rfl

theorem links_of_goesOn {e : Event} {client : State} (hs : s.client.step M e = some (client, o))
    (he : e.goesOn) :
    (s.links.map fun l => l.after ((l.exchange s.client).onClient (client, o)).1) = s.links := by
  have hwant : ∀ cid signal, e ≠ .want cid signal := by
    rintro cid signal rfl
    exact he
  have hsame : ∀ l ∈ s.links, l.after ((l.exchange s.client).onClient (client, o)).1 = id l := by
    intro l _
    rw [Exchange.onClient, Broadcast.broadcastCids_eq_nil hs hwant, List.append_nil]
    rfl
  rw [List.map_congr_left hsame, List.map_id]

theorem step_goesOn {e : Event} {client : State} (hs : s.client.step M e = some (client, o))
    (he : e.goesOn) : s.step M store (.client e) = some ({ s with client }, o) := by
  have hlinks := links_of_goesOn hs he
  cases e with
  | hashed i =>
    simp only [Swarm.step, hs, Option.map_some, hlinks]
  | stored i =>
    simp only [Swarm.step, hs, Option.map_some, hlinks]
  | _ => cases he

theorem Swarming.nearer (h : Swarming M store s) (hgiven : Servable M (Given store))
    (hquiet : ¬ s.Quiet) : ∃ e t o, s.Proper M e ∧ e.goesOn ∧
      s.step M store e = some (t, o) ∧ t.weight < s.weight := by
  by_cases hfinished : ∀ h ∈ s.client.handlers, h.phase = .finished
  · have hlink : ¬ ∀ l ∈ s.links, (l.exchange s.client).Quiet :=
      fun hlinks => hquiet ⟨hlinks, hfinished⟩
    push Not at hlink
    obtain ⟨l, hl, hbusy⟩ := hlink
    have hnearer : Nearer M l.peer (store l.peer) (l.exchange s.client) :=
      (h.links l hl).nearer hgiven hbusy
    obtain ⟨e, x, o, hclean, hs, hlt⟩ := hnearer
    obtain ⟨i, hi⟩ := List.mem_iff_getElem?.mp hl
    have hstep : s.step M store (.link i e) =
        some (⟨x.client, s.links.set i (l.after x)⟩, o) := by
      simp only [Swarm.step, hi, Option.bind_some, hs, Option.map_some]
    refine ⟨.link i e, _, o, fun l' hl' => ?_, trivial, hstep, ?_⟩
    · obtain rfl := Option.some.inj (hi.symm.trans hl')
      exact hclean
    · have hsum := Table.sum_map_set Swarm.linkWeight hi (l.after x)
      rw [weight_exchange, weight_after l x] at hlt
      unfold Swarm.weight
      dsimp only
      omega
  · push Not at hfinished
    obtain ⟨g, hg, hphase⟩ := hfinished
    obtain ⟨e, client, o, he, hs, hlt⟩ := exists_lighter (M := M) hg hphase
    refine ⟨.client e, _, o, ?_, he, step_goesOn hs he, Nat.add_lt_add_left hlt _⟩
    cases e with
    | hashed i => trivial
    | stored i => trivial
    | _ => cases he

/-- In every proper run of a node and its peers: what is under way can be completed without another
want, abort or change of the peers. When nothing is on its way any more, every call of `want` has a
block that some peer gives, or waits because no peer that is connected gives one, or was aborted. -/
theorem swarm_settles (hM : Function.Injective M.toString) (hgiven : Servable M (Given store))
    {es : List Swarm.Event} {out : List Effect}
    (h : (swarm M store).Run (Swarm.Proper M) es s out) :
    (s.Quiet → ∀ c ∈ s.client.calls, s.Answered store c) ∧
      ∃ es' t out', (swarm M store).Run (Swarm.Proper M) (es ++ es') t out' ∧ t.Quiet ∧
        ∀ e ∈ es', e.goesOn := by
  constructor
  · exact (swarming_of_run hM hgiven h).answered_of_quiet hM
  · obtain ⟨es', t, out', hrun, ⟨hquiet, -⟩, hes'⟩ := h.exists_quiet (I := Swarming M store)
      (J := fun _ => True) Swarm.weight (fun _ _ _ h => swarming_of_run hM hgiven h)
      (fun _ _ _ _ _ _ _ _ _ => trivial) (fun s hs hquiet => hs.nearer hgiven hquiet) trivial
    exact ⟨es', t, out', hrun, hquiet, hes'⟩

open Multiformats

def oneGives (peer : String) (cid : CID) : Found :=
  if peer = "b" ∧ cid = emptyRaw then .uint8Array [] else .asyncGenerator none

theorem servable_oneGives : Servable onEmptyBlock (Given oneGives) := by
  rintro cid data ⟨peer, h⟩
  unfold oneGives at h
  split_ifs at h with hcid
  obtain ⟨-, rfl⟩ := hcid
  cases h
  exact ⟨⟨by decide, by decide⟩, rfl, by decide +kernel⟩

theorem swarm_settles_emptyRaw : ∃ es t out,
    (swarm onEmptyBlock oneGives).Run (Swarm.Proper onEmptyBlock)
      ([.connect "a", .client (.want emptyRaw none), .connect "b", .disconnect 0] ++ es) t out ∧
    t.Quiet ∧ ∀ c ∈ t.client.calls, t.Answered oneGives c := by
  have hsendable : Sendable onEmptyBlock emptyRaw := ⟨by decide +kernel, by decide +kernel⟩
  have hconnect : (swarm onEmptyBlock oneGives).Run (Swarm.Proper onEmptyBlock)
      [.connect "a"] _ _ := System.Run.start.step trivial rfl
  have hwant := hconnect.step (e := Swarm.Event.client (.want emptyRaw none)) hsendable rfl
  have hmore := hwant.step (e := Swarm.Event.connect "b") trivial rfl
  have hless := hmore.step (e := Swarm.Event.disconnect 0) trivial rfl
  obtain ⟨-, es, t, out, hrun, hquiet, -⟩ :=
    swarm_settles cidText_injective servable_oneGives hless
  exact ⟨es, t, out, hrun, hquiet,
    (swarm_settles cidText_injective servable_oneGives hrun).1 hquiet⟩

end IpfsShard.Bitswap
