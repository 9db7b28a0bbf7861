import IpfsShard.Bitswap.Exchange

/-! What a node and a peer do with each other's messages: for every want in the map of the client,
either a request for its block or an answer with it is on its way. -/

namespace IpfsShard.Bitswap
open Codec Runs

variable {M : Multiformats} {store : CID → Found} {given : CID → Bytes → Prop} {peer : String}
  {s t : State} {e : Event} {o : List Effect} {cid : CID} {data : Bytes} {fuel : Nat}

/-- A request for the block or an answer with it is on its way, unless the store does not give
it. -/
def Chased (M : Multiformats) (store : CID → Found) (s : Exchange) (p : PendingWant) : Prop :=
  p.cid ∈ s.sending ∨ encodeWantBlock M p.cid ∈ s.requests.messages ∨ p.cid ∈ s.serving ∨
    ∀ data, store p.cid = .uint8Array data → encodeBlock p.cid data ∈ s.responses.messages ∨
      ∃ i, s.client.Faces i ⟨encodePrefix p.cid, data⟩ (M.toString p.cid) p.deferred

structure Wanting (M : Multiformats) (given : CID → Bytes → Prop) (s : State) : Prop where
  sound : Sound M s
  kept : NoWantLost M s
  fromStore : FromStore given s
  sendable : ∀ key p, s.pendingWants.lookup key = some p → Sendable M p.cid

/-- The blocks that are given may come from other peers, too. -/
structure Exchanging (M : Multiformats) (store : CID → Found) (given : CID → Bytes → Prop)
    (s : Exchange) : Prop where
  gives : ∀ cid data, store cid = .uint8Array data → given cid data
  wanting : Wanting M given s.client
  sending : ∀ cid ∈ s.sending, Sendable M cid
  requests : s.requests.Sound
  asked : ∀ m ∈ s.requests.messages, ∃ cid, Sendable M cid ∧ m = encodeWantBlock M cid
  responses : s.responses.Sound
  answered : ∀ m ∈ s.responses.messages, ∃ cid data, store cid = .uint8Array data ∧
    m = encodeBlock cid data
  chased : ∀ key p, s.client.pendingWants.lookup key = some p → Chased M store s p

theorem lookup_step (hs : s.step M e = some (t, o)) {key : String} {p : PendingWant}
    (hp : t.pendingWants.lookup key = some p) : s.pendingWants.lookup key = some p ∨
      ∃ signal, e = .want p.cid signal ∧ Broadcast.broadcastCids o = [p.cid] := by
  cases step_cases hs with
  | join _ => exact Or.inl hp
  | @create cid signal _ =>
    rcases Table.lookup_insert_iff.mp hp with ⟨-, rfl⟩ | ⟨-, hold⟩
    · exact Or.inr ⟨signal, rfl, rfl⟩
    · exact Or.inl hold
  | abort _ =>
    rw [abort_eq] at hp
    exact Or.inl (Table.lookup_eraseAll_iff.mp hp).2
  | pass _ _ _ _ _ _ => exact Or.inl hp
  | take _ _ _ _ => exact Or.inl (Table.lookup_erase_iff.mp hp).2
  | release _ _ _ _ => exact Or.inl hp
  | stop => cases hp

theorem broadcast_of_step (hs : s.step M e = some (t, o)) (hcid : cid ∈ Broadcast.broadcastCids o) :
    ∃ signal, e = .want cid signal := by
  by_cases hwant : ∃ c signal, e = .want c signal
  · obtain ⟨c, signal, rfl⟩ := hwant
    cases step_cases hs with
    | join _ => cases hcid
    | create _ =>
      obtain rfl := List.mem_singleton.mp hcid
      exact ⟨signal, rfl⟩
    | pass _ _ _ hno _ _ => exact absurd rfl (hno c signal)
  · rw [Broadcast.broadcastCids_eq_nil hs fun c signal he => hwant ⟨c, signal, he⟩] at hcid
    cases hcid

section

variable {x : Exchange}

theorem Exchanging.faces_step (h : Exchanging M store given x) (hgiven : Servable M given)
    {key : String} {p : PendingWant} (hp : x.client.pendingWants.lookup key = some p)
    (hdata : store p.cid = .uint8Array data) {i : Nat} (hs : x.client.step M e = some (t, o))
    (hfaces : x.client.Faces i ⟨encodePrefix p.cid, data⟩ (M.toString p.cid) p.deferred) :
    t.Faces i ⟨encodePrefix p.cid, data⟩ (M.toString p.cid) p.deferred := by
  obtain ⟨-, signal, hx⟩ := h.wanting.sound.entry key p hp
  have horigin : x.client.origin p.deferred = some (p.cid, signal) := by
    rw [State.origin, hx]
    rfl
  obtain ⟨hcodec, hhash, -⟩ := hgiven p.cid data (h.gives p.cid data hdata)
  exact Bitswap.faces_step hfaces horigin (prefixToCID_encodePrefix hcodec hhash) rfl hs

theorem Wanting.step (h : Wanting M given s) (hM : Function.Injective M.toString)
    (hgiven : Servable M given) (hs : s.step M e = some (t, o))
    (hmessage : ∀ peer bytes fuel, e ≠ .message peer bytes fuel) (hstop : e ≠ .stop)
    (hwant : ∀ cid signal, e = .want cid signal → Sendable M cid) (hown : AbortsOwn s e) :
    Wanting M given t where
  sound := h.sound.step (step_cases hs)
  kept := (abortsOwn_iff h.sound h.kept (step_cases hs)).mp hown
  fromStore := h.fromStore.step hM hgiven h.sound hs hstop
    fun peer bytes fuel _ he => absurd he (hmessage peer bytes fuel)
  sendable key p hp := by
    rcases lookup_step hs hp with hold | ⟨signal, he, -⟩
    · exact h.sendable key p hold
    · exact hwant p.cid signal he

theorem Exchanging.client (h : Exchanging M store given x) (hgiven : Servable M given)
    (hs : x.client.step M e = some (t, o)) (ht : Wanting M given t)
    (hwant : ∀ cid signal, e = .want cid signal → Sendable M cid) :
    Exchanging M store given (x.onClient (t, o)).1 := by
  have hcids : ∀ cid ∈ Broadcast.broadcastCids o, Sendable M cid := by
    intro cid hcid
    obtain ⟨signal, he⟩ := broadcast_of_step hs hcid
    exact hwant cid signal he
  refine ⟨h.gives, ht, List.forall_mem_append.mpr ⟨h.sending, hcids⟩, h.requests, h.asked,
    h.responses, h.answered, fun key p hp => ?_⟩
  rcases lookup_step hs hp with hold | ⟨signal, -, hcid⟩
  · rcases h.chased key p hold with hsending | hasked | hserving | hfaced
    · exact Or.inl (List.mem_append_left _ hsending)
    · exact Or.inr (Or.inl hasked)
    · exact Or.inr (Or.inr (Or.inl hserving))
    · refine Or.inr (Or.inr (Or.inr fun data hdata => ?_))
      refine (hfaced data hdata).imp_right fun hfaces => ?_
      obtain ⟨i, hi⟩ := hfaces
      exact ⟨i, h.faces_step hgiven hold hdata hs hi⟩
  · refine Or.inl (List.mem_append_right _ ?_)
    change p.cid ∈ Broadcast.broadcastCids o
    rw [hcid]
    exact List.mem_singleton_self _

theorem mem_or_mem_eraseIdx {l : List CID} {i : Nat} {a b : CID} (hi : l[i]? = some b)
    (ha : a ∈ l) : a = b ∨ a ∈ l.eraseIdx i := by
  obtain ⟨j, hj⟩ := List.mem_iff_getElem?.mp ha
  by_cases hij : j = i
  · subst hij
    exact Or.inl (Option.some.inj (hj.symm.trans hi))
  · exact Or.inr (List.mem_eraseIdx_iff_getElem?.mpr ⟨j, hij, hj⟩)

theorem Exchanging.sent (h : Exchanging M store given x) {i : Nat} (hi : x.sending[i]? = some cid) :
    Exchanging M store given { x with
      sending := x.sending.eraseIdx i
      requests := x.requests.write (encodeWantBlock M cid) } := by
  have hcid := h.sending cid (List.mem_of_getElem? hi)
  refine { h with
    sending := fun c hc => h.sending c (List.mem_of_mem_eraseIdx hc)
    requests := h.requests.write hcid.short
    asked := ?_
    chased := fun key p hp => ?_ }
  · exact List.forall_mem_append.mpr ⟨h.asked, List.forall_mem_singleton.mpr ⟨cid, hcid, rfl⟩⟩
  · rcases h.chased key p hp with hsending | hasked | hrest
    · rcases mem_or_mem_eraseIdx hi hsending with heq | hleft
      · exact Or.inr (Or.inl (List.mem_append_right _ (heq ▸ List.mem_singleton_self _)))
      · exact Or.inl hleft
    · exact Or.inr (Or.inl (List.mem_append_left _ hasked))
    · exact Or.inr (Or.inr hrest)

theorem Exchanging.got (h : Exchanging M store given x) (hgiven : Servable M given) {i : Nat}
    (hi : x.serving[i]? = some cid) : Exchanging M store given { x with
      serving := x.serving.eraseIdx i
      responses := match encodeFound cid (store cid) with
        | none => x.responses
        | some msg => x.responses.write msg } := by
  cases hfound : store cid with
  | asyncGenerator chunks =>
    refine { h with chased := fun key p hp => ?_ }
    rcases h.chased key p hp with hsending | hasked | hserving | hfaced
    · exact Or.inl hsending
    · exact Or.inr (Or.inl hasked)
    · rcases mem_or_mem_eraseIdx hi hserving with heq | hleft
      · refine Or.inr (Or.inr (Or.inr fun data hdata => ?_))
        rw [heq, hfound] at hdata
        cases hdata
      · exact Or.inr (Or.inr (Or.inl hleft))
    · exact Or.inr (Or.inr (Or.inr hfaced))
  | uint8Array data =>
    refine { h with
      responses := h.responses.write (hgiven cid data (h.gives cid data hfound)).2.2
      answered := List.forall_mem_append.mpr
        ⟨h.answered, List.forall_mem_singleton.mpr ⟨cid, data, hfound, rfl⟩⟩
      chased := fun key p hp => ?_ }
    rcases h.chased key p hp with hsending | hasked | hserving | hfaced
    · exact Or.inl hsending
    · exact Or.inr (Or.inl hasked)
    · rcases mem_or_mem_eraseIdx hi hserving with heq | hleft
      · refine Or.inr (Or.inr (Or.inr fun data' hdata => ?_))
        rw [heq, hfound] at hdata
        cases hdata
        rw [heq]
        exact Or.inl (List.mem_append_right _ (List.mem_singleton_self _))
      · exact Or.inr (Or.inr (Or.inl hleft))
    · refine Or.inr (Or.inr (Or.inr fun data' hdata => ?_))
      exact (hfaced data' hdata).imp_left (List.mem_append_left _)

theorem State.Faces.append {i d : Nat} {block : Block} {key : String}
    (hf : s.Faces i block key d) (handlers : List Handler) :
    { s with handlers := s.handlers ++ handlers }.Faces i block key d := by
  refine hf.of_handlers (fun h hi => ⟨h, ?_, rfl⟩) id
  rw [List.getElem?_append_left (List.getElem?_eq_some_iff.mp hi).1]
  exact hi

theorem receive_messages {peer : String} {messages : List Bytes} {out out' : List Effect}
    (h : (wants M).exec (messages.map (.message peer · fuel)) s out = some (t, out')) :
    ∃ decoded : List DecodedMessage,
      List.Forall₂ (fun m d => decodeMessage M fuel m = some d) messages decoded ∧
      t = { s with handlers := s.handlers ++ decoded.map (Handler.start peer) } ∧
      out' = out ++ decoded.flatMap fun d => (({} : State).message peer d).2 := by
  induction messages generalizing s out with
  | nil =>
    obtain ⟨rfl, rfl⟩ := Prod.ext_iff.mp (Option.some.inj h)
    exact ⟨[], .nil, by simp, by simp⟩
  | cons m messages ih =>
    obtain ⟨u, o, hstep, hrest⟩ := System.exec_cons_iff.mp h
    obtain ⟨d, hd, hm⟩ := Option.map_eq_some_iff.mp hstep
    obtain ⟨rfl, rfl⟩ := Prod.ext_iff.mp hm
    obtain ⟨decoded, hdecoded, rfl, rfl⟩ := ih hrest
    refine ⟨d :: decoded, .cons hd hdecoded, ?_, ?_⟩
    · simp [message_fst]
    · rw [List.flatMap_cons, ← List.append_assoc]
      rfl

theorem exists_decoded {messages : List Bytes} {decoded : List DecodedMessage} {m : Bytes}
    {expected : DecodedMessage}
    (h : List.Forall₂ (fun m d => decodeMessage M fuel m = some d) messages decoded)
    (hm : m ∈ messages) (hdecodes : DecodesTo M m expected) : expected ∈ decoded := by
  induction h with
  | nil => cases hm
  | cons hd _ ih =>
    rcases List.mem_cons.mp hm with rfl | hm
    · rw [hdecodes.unique ⟨_, hd⟩]
      exact List.mem_cons_self ..
    · exact List.mem_cons_of_mem _ (ih hm)

theorem Exchanging.requestChunk (h : Exchanging M store given x) {length : Nat} {messages : List Bytes}
    {requests : Channel} {server : State} {effects : List Effect}
    (hclean : x.requests.Clean length)
    (hread : x.requests.read length fuel = some (messages, requests))
    (hserver : Exchange.receive M "client" fuel messages x.server = some (server, effects)) :
    Exchanging M store given { x with
      requests, server
      serving := x.serving ++ (serves effects).flatMap (·.2) } := by
  obtain ⟨hmessages, hrequests⟩ := h.requests.read hclean hread
  obtain ⟨decoded, hdecoded, -, rfl⟩ := receive_messages hserver
  refine { h with
    requests := hrequests
    asked := fun m hm => h.asked m (hmessages ▸ List.mem_append_right _ hm)
    chased := fun key p hp => ?_ }
  rcases h.chased key p hp with hsending | hasked | hserving | hfaced
  · exact Or.inl hsending
  · rw [hmessages] at hasked
    rcases List.mem_append.mp hasked with hhandled | hleft
    · -- the request has been handed over, so the server looks the block up
      refine Or.inr (Or.inr (Or.inl (List.mem_append_right _ ?_)))
      have hmem := exists_decoded hdecoded hhandled (decodesTo_encodeWantBlock
        (h.wanting.sendable key p hp))
      refine List.mem_flatMap.mpr ⟨("client", [p.cid]), ?_, List.mem_singleton_self _⟩
      refine List.mem_filterMap.mpr ⟨.serve "client" [p.cid], ?_, rfl⟩
      exact List.mem_flatMap.mpr ⟨_, hmem, List.mem_singleton_self _⟩
    · exact Or.inr (Or.inl hleft)
  · exact Or.inr (Or.inr (Or.inl (List.mem_append_left _ hserving)))
  · exact Or.inr (Or.inr (Or.inr hfaced))

theorem held_of_answered (hgiven : Servable M given) {m : Bytes} {d : DecodedMessage}
    (hm : ∃ cid data, given cid data ∧ m = encodeBlock cid data)
    (hd : decodeMessage M fuel m = some d) : ∀ block ∈ d.blocks, Held given block := by
  obtain ⟨cid, data, hheld, rfl⟩ := hm
  obtain ⟨-, -, hshort⟩ := hgiven cid data hheld
  obtain rfl := (decodesTo_encodeBlock (M := M) hshort).unique ⟨fuel, hd⟩
  intro block hblock
  exact ⟨cid, data, hheld, List.mem_singleton.mp hblock⟩

theorem broadcastCids_messages (peer : String) (decoded : List DecodedMessage) :
    Broadcast.broadcastCids (decoded.flatMap fun d => (({} : State).message peer d).2) = [] := by
  refine List.filterMap_eq_nil_iff.mpr fun effect heffect => ?_
  obtain ⟨d, -, hd⟩ := List.mem_flatMap.mp heffect
  simp only [State.message, Handler.next] at hd
  split at hd
  · rw [List.mem_singleton.mp hd]
  · cases hd

theorem Wanting.receive (h : Wanting M given s) (hM : Function.Injective M.toString)
    (hgiven : Servable M given) {messages : List Bytes} {effects : List Effect}
    (hmessages : ∀ m ∈ messages, ∃ cid data, given cid data ∧ m = encodeBlock cid data)
    (hs : Exchange.receive M peer fuel messages s = some (t, effects)) : Wanting M given t := by
  have hall : Sound M t ∧ NoWantLost M t ∧ FromStore given t := by
    refine System.exec_invariant (I := fun s => Sound M s ∧ NoWantLost M s ∧ FromStore given s)
      ⟨h.sound, h.kept, h.fromStore⟩ ?_ hs
    rintro e he s t o ⟨hsound, hkept, hfrom⟩ hstep
    obtain ⟨m, hm, rfl⟩ := List.mem_map.mp he
    have hs : s.step M (.message peer m fuel) = some (t, o) := hstep
    refine ⟨hsound.step (step_cases hs), (abortsOwn_iff hsound hkept (step_cases hs)).mp trivial,
      hfrom.step hM hgiven hsound hs (by simp) fun _ _ _ d heq hd => ?_⟩
    cases heq
    exact held_of_answered hgiven (hmessages m hm) hd
  obtain ⟨hsound, hkept, hfrom⟩ := hall
  obtain ⟨decoded, -, rfl, -⟩ := receive_messages hs
  exact ⟨hsound, hkept, hfrom, h.sendable⟩

theorem Exchanging.withHandlers (h : Exchanging M store given x) {handlers : List Handler}
    (ht : t = { x.client with handlers := x.client.handlers ++ handlers })
    (hwanting : Wanting M given t) : Exchanging M store given { x with client := t } := by
  subst ht
  refine { h with wanting := hwanting, chased := fun key p hp => ?_ }
  rcases h.chased key p hp with hsending | hasked | hserving | hfaced
  · exact Or.inl hsending
  · exact Or.inr (Or.inl hasked)
  · exact Or.inr (Or.inr (Or.inl hserving))
  · refine Or.inr (Or.inr (Or.inr fun data hdata => ?_))
    refine (hfaced data hdata).imp_right fun hfaces => ?_
    obtain ⟨i, hi⟩ := hfaces
    exact ⟨i, hi.append handlers⟩

theorem Exchanging.responseChunk (h : Exchanging M store given x)
    (hM : Function.Injective M.toString) (hgiven : Servable M given) {length : Nat}
    {messages : List Bytes} {responses : Channel} {client : State} {effects : List Effect}
    (hclean : x.responses.Clean length)
    (hread : x.responses.read length fuel = some (messages, responses))
    (hclient : Exchange.receive M peer fuel messages x.client = some (client, effects)) :
    Exchanging M store given ({ x with responses }.onClient (client, effects)).1 := by
  obtain ⟨hmessages, hresponses⟩ := h.responses.read hclean hread
  have hanswered : ∀ m ∈ messages, ∃ cid data, given cid data ∧ m = encodeBlock cid data := by
    intro m hm
    obtain ⟨cid, data, hdata, heq⟩ := h.answered m (hmessages ▸ List.mem_append_left _ hm)
    exact ⟨cid, data, h.gives cid data hdata, heq⟩
  have hwanting := h.wanting.receive hM hgiven hanswered hclient
  obtain ⟨decoded, hdecoded, rfl, rfl⟩ := receive_messages hclient
  rw [Exchange.onClient, List.nil_append, broadcastCids_messages, List.append_nil]
  refine ⟨h.gives, hwanting, h.sending, h.requests, h.asked, hresponses,
    fun m hm => h.answered m (hmessages ▸ List.mem_append_right _ hm), fun key p hp => ?_⟩
  rcases h.chased key p hp with hsending | hasked | hserving | hfaced
  · exact Or.inl hsending
  · exact Or.inr (Or.inl hasked)
  · exact Or.inr (Or.inr (Or.inl hserving))
  · refine Or.inr (Or.inr (Or.inr fun data hdata => ?_))
    rcases hfaced data hdata with hanswer | ⟨i, hfaces⟩
    · rw [hmessages] at hanswer
      rcases List.mem_append.mp hanswer with hhandled | hleft
      · -- the answer has been handed over, so a handler has the block
        have hmem := exists_decoded hdecoded hhandled
          (decodesTo_encodeBlock (hgiven p.cid data (h.gives p.cid data hdata)).2.2)
        have hhandler := List.mem_append_right x.client.handlers
          (List.mem_map_of_mem (f := Handler.start peer) hmem)
        obtain ⟨i, hi⟩ := List.mem_iff_getElem?.mp hhandler
        refine Or.inr ⟨i, _, hi, fun _ => ?_⟩
        rw [todo_start]
        exact List.mem_singleton_self _
      · exact Or.inl hleft
    · exact Or.inr ⟨i, hfaces.append _⟩

theorem Exchanging.step (h : Exchanging M store given x) (hM : Function.Injective M.toString)
    (hgiven : Servable M given) {e : Exchange.Event} {y : Exchange}
    (hclean : x.Clean e) (hs : x.step M peer store e = some (y, o)) : Exchanging M store given y ∧
      ∃ handlers, y.client = { x.client with handlers := x.client.handlers ++ handlers } := by
  have hsame : x.client = { x.client with handlers := x.client.handlers ++ [] } := by
    rw [List.append_nil]
  cases e with
  | sent i =>
    obtain ⟨cid, hi, heq⟩ := Option.map_eq_some_iff.mp hs
    cases heq
    exact ⟨h.sent hi, [], hsame⟩
  | requestChunk length fuel =>
    obtain ⟨⟨messages, requests⟩, hread, hs⟩ := Option.bind_eq_some_iff.mp hs
    obtain ⟨⟨server, effects⟩, hserver, heq⟩ := Option.map_eq_some_iff.mp hs
    cases heq
    exact ⟨h.requestChunk hclean hread hserver, [], hsame⟩
  | got i =>
    obtain ⟨cid, hi, heq⟩ := Option.map_eq_some_iff.mp hs
    cases heq
    exact ⟨h.got hgiven hi, [], hsame⟩
  | responseChunk length fuel =>
    obtain ⟨⟨messages, responses⟩, hread, hs⟩ := Option.bind_eq_some_iff.mp hs
    obtain ⟨⟨client, effects⟩, hreceive, heq⟩ := Option.map_eq_some_iff.mp hs
    have hy := h.responseChunk hM hgiven hclean hread hreceive
    obtain ⟨decoded, -, hhandlers, -⟩ := receive_messages hreceive
    rw [heq] at hy
    cases heq
    exact ⟨hy, _, hhandlers⟩

theorem Exchanging.not_given_of_quiet (h : Exchanging M store given x) (hquiet : x.Quiet)
    (hfinished : ∀ h ∈ x.client.handlers, h.phase = .finished) {key : String} {p : PendingWant}
    (hp : x.client.pendingWants.lookup key = some p) (data : Bytes) :
    store p.cid ≠ .uint8Array data := by
  intro hdata
  have hasked := h.requests.incoming_eq_nil_iff.mp hquiet.requests
  have hanswered := h.responses.incoming_eq_nil_iff.mp hquiet.responses
  rcases h.chased key p hp with hmem | hmem | hmem | hfaced
  · rw [hquiet.sending] at hmem
    cases hmem
  · rw [hasked] at hmem
    cases hmem
  · rw [hquiet.serving] at hmem
    cases hmem
  · rcases hfaced data hdata with hmem | ⟨i, hfaces⟩
    · rw [hanswered] at hmem
      cases hmem
    · have hfree := not_waitsFor_of_finished hfaces
        fun g hg => hfinished g (List.mem_of_getElem? hg)
      obtain ⟨hkey, -⟩ := h.wanting.sound.entry key p hp
      exact absurd ⟨p, hkey ▸ hp, rfl⟩ hfree

end
end IpfsShard.Bitswap
