import IpfsShard.Bitswap.Reached
import IpfsShard.Bitswap.Channel
import IpfsShard.Bitswap.Delivery
import IpfsShard.Bitswap.Serve

/-! A node that wants blocks and one of its peers, on a stream that stays open. The peer has a
blockstore that stays as it is. What the stream carries is cut into chunks anywhere, and everything
that waits may go on in any order. -/

namespace IpfsShard.Bitswap
open Codec Runs

/-- `sending` are the wants whose `_sendMessage` waits for the stream of the pool, `serving` those
whose `_serveBlockOnStream` waits for the blockstore. -/
structure Exchange where
  client : State := {}
  sending : List CID := []
  requests : Channel := {}
  server : State := {}
  serving : List CID := []
  responses : Channel := {}
  deriving DecidableEq

namespace Exchange

inductive Event where
  | sent (i : Nat)
  | requestChunk (length fuel : Nat)
  | got (i : Nat)
  | responseChunk (length fuel : Nat)

variable (M : Multiformats) (peer : String) (store : CID → Found) (s : Exchange)

def onClient (r : State × List Effect) : Exchange × List Effect :=
  ({ s with client := r.1, sending := s.sending ++ Broadcast.broadcastCids r.2 }, r.2)

def receive (peer : String) (fuel : Nat) (messages : List Bytes) (node : State) :
    Option (State × List Effect) :=
  (wants M).exec (messages.map (.message peer · fuel)) node []

def step : Event → Option (Exchange × List Effect)
  | .sent i => s.sending[i]?.map fun cid =>
      ({ s with
          sending := s.sending.eraseIdx i
          requests := s.requests.write (encodeWantBlock M cid) }, [])
  | .requestChunk length fuel => (s.requests.read length fuel).bind fun (messages, requests) =>
      (receive M "client" fuel messages s.server).map fun (server, effects) =>
        ({ s with
            requests, server
            serving := s.serving ++ (serves effects).flatMap (·.2) }, [])
  | .got i => s.serving[i]?.map fun cid =>
      ({ s with
          serving := s.serving.eraseIdx i
          responses := match encodeFound cid (store cid) with
            | none => s.responses
            | some msg => s.responses.write msg }, [])
  | .responseChunk length fuel => (s.responses.read length fuel).bind fun (messages, responses) =>
      (receive M peer fuel messages s.client).map fun r =>
        { s with responses }.onClient r

end Exchange

/-- What `encodeWantBlock` can be read back from. -/
structure Sendable (M : Multiformats) (cid : CID) : Prop where
  decode : M.decode (M.bytes cid) = some cid
  short : (encodeWantBlock M cid).length < 2 ^ 31

def Servable (M : Multiformats) (given : CID → Bytes → Prop) : Prop :=
  ∀ cid data, given cid data →
    CodecBelow cid ∧ cid.multihash = M.sha256 data ∧ (encodeBlock cid data).length < 2 ^ 31

def Exchange.Clean (s : Exchange) : Exchange.Event → Prop
  | .requestChunk length _ => s.requests.Clean length
  | .responseChunk length _ => s.responses.Clean length
  | _ => True

structure Exchange.Quiet (s : Exchange) : Prop where
  sending : s.sending = []
  requests : s.requests.incoming = []
  serving : s.serving = []
  responses : s.responses.incoming = []

def Held (given : CID → Bytes → Prop) (block : Block) : Prop :=
  ∃ cid data, given cid data ∧ block = ⟨encodePrefix cid, data⟩

structure FromStore (given : CID → Bytes → Prop) (s : State) : Prop where
  handling : ∀ h ∈ s.handlers, ∀ block ∈ h.todo, Held given block
  storing : ∀ i cid data p, s.stores i = some (cid, data, p) → given cid data
  resolved : ∀ (d : Nat) x data, s.deferreds[d]? = some x → x.settlement = .resolved data →
    given x.cid data
  rejected : ∀ (d : Nat) x err, s.deferreds[d]? = some x → x.settlement = .rejected err →
    err = .aborted ∧ ∃ signal, x.signal = some signal ∧ signal ∈ s.aborted

variable {M : Multiformats} {given : CID → Bytes → Prop} {s t : State} {e : Event} {o : List Effect}
  {cid : CID} {data : Bytes} {fuel : Nat}

theorem decodesTo_encodeWantBlock (h : Sendable M cid) :
    DecodesTo M (encodeWantBlock M cid) ⟨[cid], []⟩ := by
  obtain ⟨hencode, hbelow, -, -⟩ := encodeWantBlock_eq h.short
  have hcarries : Carries M 5 ((Item.want cid).field M) (Item.want cid).wants
      (Item.want cid).blocks := carries_want h.decode h.short (by decide)
  have hdecoded := decodeMessage_fields (l := [Item.want cid]) (Item.field M) Item.wants
    Item.blocks (by simpa using hbelow) (by simpa using hcarries) (by simp)
  refine ⟨5, ?_⟩
  rw [hencode]
  simpa [Wire.encode, Item.wants, Item.blocks] using hdecoded

theorem decodesTo_encodeBlock (h : (encodeBlock cid data).length < 2 ^ 31) :
    DecodesTo M (encodeBlock cid data) ⟨[], [⟨encodePrefix cid, data⟩]⟩ := by
  obtain ⟨hencode, hbelow, -⟩ := encodeBlock_eq (M := M) h
  have hcarries : Carries M 5 ((Item.block cid data).field M) (Item.block cid data).wants
      (Item.block cid data).blocks := carries_block h (by decide)
  have hdecoded := decodeMessage_fields (l := [Item.block cid data]) (Item.field M) Item.wants
    Item.blocks (by simpa using hbelow) (by simpa using hcarries) (by simp)
  refine ⟨5, ?_⟩
  rw [hencode]
  simpa [Wire.encode, Item.wants, Item.blocks] using hdecoded

def Handler.start (peer : String) (decoded : DecodedMessage) : Handler :=
  (Handler.next ⟨peer, decoded.wantBlocks, .finished⟩ decoded.blocks).1

theorem message_fst (s : State) (peer : String) (decoded : DecodedMessage) :
    (s.message peer decoded).1 = { s with handlers := s.handlers ++ [.start peer decoded] } := rfl

theorem todo_start (peer : String) (decoded : DecodedMessage) :
    (Handler.start peer decoded).todo = decoded.blocks := todo_next _ _

namespace FromStore

theorem handling_set (h : FromStore given s) {i : Nat} {hd hd' : Handler} {t : State}
    (hi : s.handlers[i]? = some hd) (hset : t.handlers = s.handlers.set i hd')
    (htodo : ∀ block ∈ hd'.todo, block ∈ hd.todo) :
    ∀ h ∈ t.handlers, ∀ block ∈ h.todo, Held given block := by
  intro g hg block hblock
  rw [hset] at hg
  rcases List.mem_or_eq_of_mem_set hg with hold | rfl
  · exact h.handling g hold block hblock
  · exact h.handling hd (List.mem_of_getElem? hi) block (htodo block hblock)

theorem step_handling (h : FromStore given s) (hs : s.step M e = some (t, o))
    (hmessage : ∀ peer bytes fuel decoded, e = .message peer bytes fuel →
      decodeMessage M fuel bytes = some decoded → ∀ block ∈ decoded.blocks, Held given block) :
    ∀ h ∈ t.handlers, ∀ block ∈ h.todo, Held given block := by
  cases e with
  | want cid signal =>
    obtain rfl : (s.want M cid signal).1 = t := congrArg Prod.fst (Option.some.inj hs)
    rw [handlers_want]
    exact h.handling
  | abort signal =>
    simp only [State.step] at hs
    split_ifs at hs
    obtain rfl : (s.abort signal).1 = t := congrArg Prod.fst (Option.some.inj hs)
    rw [abort_eq]
    exact h.handling
  | message peer bytes fuel =>
    obtain ⟨decoded, hdecoded, hm⟩ := Option.map_eq_some_iff.mp hs
    obtain rfl : (s.message peer decoded).1 = t := congrArg Prod.fst hm
    intro g hg block hblock
    rw [message_fst] at hg
    rcases List.mem_append.mp hg with hold | hnew
    · exact h.handling g hold block hblock
    · obtain rfl := List.mem_singleton.mp hnew
      rw [todo_start] at hblock
      exact hmessage peer bytes fuel decoded rfl hdecoded block hblock
  | hashed i =>
    obtain ⟨hd, block, rest, hi, hp, hr⟩ := step_hashed hs
    obtain rfl : (s.hashed M i hd block rest).1 = t := congrArg Prod.fst hr
    obtain ⟨hd', hset, htodo⟩ := hashed_handlers (M := M) s i hd block rest
    refine h.handling_set hi hset fun b hb => ?_
    rw [Handler.todo, hp]
    exact List.mem_cons_of_mem _ (htodo ▸ hb)
  | stored i =>
    obtain ⟨hd, c, data, pending, rest, hi, hp, hr⟩ := step_stored hs
    obtain rfl : (s.stored i hd data pending rest).1 = t := congrArg Prod.fst hr
    refine @handling_set _ _ h i hd (hd.next rest).1 _ hi rfl fun b hb => ?_
    rw [todo_next] at hb
    rw [Handler.todo, hp]
    exact hb
  | stop =>
    cases hs
    exact h.handling

theorem step_storing (h : FromStore given s) (hgiven : Servable M given)
    (hs : s.step M e = some (t, o)) :
    ∀ i cid data p, t.stores i = some (cid, data, p) → given cid data := by
  cases e with
  | want cid signal =>
    obtain rfl : (s.want M cid signal).1 = t := congrArg Prod.fst (Option.some.inj hs)
    intro i c data p hi
    rw [State.stores, handlers_want] at hi
    exact h.storing i c data p hi
  | abort signal =>
    simp only [State.step] at hs
    split_ifs at hs
    obtain rfl : (s.abort signal).1 = t := congrArg Prod.fst (Option.some.inj hs)
    rw [abort_eq]
    exact h.storing
  | message peer bytes fuel =>
    obtain ⟨decoded, -, hm⟩ := Option.map_eq_some_iff.mp hs
    obtain rfl : (s.message peer decoded).1 = t := congrArg Prod.fst hm
    intro i c data p hi
    exact h.storing i c data p ((stores_append s (next_spec _ _).1 i).symm.trans hi)
  | hashed i =>
    obtain ⟨hd, block, rest, hi, hp, hr⟩ := step_hashed hs
    obtain rfl : (s.hashed M i hd block rest).1 = t := congrArg Prod.fst hr
    obtain ⟨cid, data, hheld, rfl⟩ := h.handling hd (List.mem_of_getElem? hi) block
      (by rw [Handler.todo, hp]; exact List.mem_cons_self ..)
    obtain ⟨hcodec, hhash, -⟩ := hgiven cid data hheld
    have hcid := prefixToCID_encodePrefix hcodec hhash
    have hresume : ∀ j c data p, (s.resume i hd rest).1.stores j = some (c, data, p) →
        given c data := by
      intro j c data p hj
      have hset := @stores_set s i hd (hd.next rest).1 hi j
      rw [(next_spec hd rest).1] at hset
      have hold := hset.symm.trans hj
      split_ifs at hold
      exact h.storing j c data p hold
    simp only [State.hashed, hcid]
    split
    · exact hresume
    · rename_i pending _
      intro j c data' p hj
      have hold := (@stores_set s i hd { hd with phase := .storing cid data pending rest } hi
        j).symm.trans hj
      split_ifs at hold
      · cases hold
        exact hheld
      · exact h.storing j c data' p hold
  | stored i =>
    obtain ⟨hd, c, data, pending, rest, hi, hp, hr⟩ := step_stored hs
    obtain rfl : (s.stored i hd data pending rest).1 = t := congrArg Prod.fst hr
    intro j c' data' p hj
    have hset := @stores_set s i hd (hd.next rest).1 hi j
    rw [(next_spec hd rest).1] at hset
    have hold := hset.symm.trans hj
    split_ifs at hold
    exact h.storing j c' data' p hold
  | stop =>
    cases hs
    exact h.storing

theorem step_resolved (h : FromStore given s) (hM : Function.Injective M.toString)
    (hs : Sound M s) (hstep : Step M s e t o) :
    ∀ (d : Nat) x data, t.deferreds[d]? = some x → x.settlement = .resolved data →
      given x.cid data := by
  have hrejects : ∀ (wants : List Nat) (err : WantError) (d : Nat) x data,
      (wants.foldl (settle · · (.rejected err)) s.deferreds)[d]? = some x →
      x.settlement = .resolved data → given x.cid data := by
    intro wants err d x data hx hresolved
    rw [getElem?_settleAll] at hx
    obtain ⟨y, hy, rfl⟩ := Option.map_eq_some_iff.mp hx
    split_ifs at hresolved ⊢
    · rw [Deferred.settle_settlement] at hresolved
      split_ifs at hresolved
      rw [Deferred.settle_cid]
      exact h.resolved d y data hy hresolved
    · exact h.resolved d y data hy hresolved
  cases hstep with
  | join _ => exact h.resolved
  | create _ =>
    intro d x data hx hresolved
    rcases Calls.getElem?_concat.mp hx with hx | ⟨-, rfl⟩
    · exact h.resolved d x data hx hresolved
    · cases hresolved
  | abort _ =>
    rw [abort_eq]
    exact hrejects _ _
  | pass _ _ _ _ _ _ => exact h.resolved
  | take _ _ _ _ => exact h.resolved
  | @release i handlers cid data pending o hi _ _ _ =>
    intro d x data' hx hresolved
    rw [getElem?_settle] at hx
    obtain ⟨y, hy, rfl⟩ := Option.map_eq_some_iff.mp hx
    split_ifs at hresolved ⊢ with hd
    · -- the block is that of the want, as two CIDs have two texts
      obtain ⟨-, hkey, z, hz, hcid, hnot⟩ := hs.stores i cid data pending hi
      obtain rfl : z = y := Option.some.inj (hz.symm.trans (hd ▸ hy))
      rw [Deferred.settle_settlement] at hresolved
      split_ifs at hresolved
      · cases hresolved
        rw [Deferred.settle_cid, hcid, ← hM hkey]
        exact h.storing i cid data pending hi
      · exact absurd hresolved (hnot data')
    · exact h.resolved d y data' hy hresolved
  | stop => exact hrejects _ _

theorem step_rejected (h : FromStore given s) (hs : Sound M s) (hstop : e ≠ .stop)
    (hstep : Step M s e t o) :
    ∀ (d : Nat) x err, t.deferreds[d]? = some x → x.settlement = .rejected err →
      err = .aborted ∧ ∃ signal, x.signal = some signal ∧ signal ∈ t.aborted := by
  cases hstep with
  | join _ => exact h.rejected
  | create _ =>
    intro d x err hx hrejected
    rcases Calls.getElem?_concat.mp hx with hx | ⟨-, rfl⟩
    · exact h.rejected d x err hx hrejected
    · cases hrejected
  | @abort signal _ =>
    rw [abort_eq]
    intro d x err hx hrejected
    rw [getElem?_settleAll] at hx
    obtain ⟨y, hy, rfl⟩ := Option.map_eq_some_iff.mp hx
    have hold : y.settlement = .rejected err → err = .aborted ∧
        ∃ sig, y.signal = some sig ∧ sig ∈ signal :: s.aborted := by
      intro hy'
      obtain ⟨herr, sig, hsig, hmem⟩ := h.rejected d y err hy hy'
      exact ⟨herr, sig, hsig, List.mem_cons_of_mem _ hmem⟩
    split_ifs at hrejected ⊢ with hd
    · rw [Deferred.settle_settlement] at hrejected
      rw [Deferred.settle_signal]
      split_ifs at hrejected
      · cases hrejected
        obtain ⟨cid, horigin⟩ := origin_of_mem_fired hs hd
        rw [State.origin, hy] at horigin
        exact ⟨rfl, signal, congrArg Prod.snd (Option.some.inj horigin), List.mem_cons_self ..⟩
      · exact hold hrejected
    · exact hold hrejected
  | pass _ _ _ _ _ _ => exact h.rejected
  | take _ _ _ _ => exact h.rejected
  | release _ _ _ _ =>
    intro d x err hx hrejected
    rw [getElem?_settle] at hx
    obtain ⟨y, hy, rfl⟩ := Option.map_eq_some_iff.mp hx
    split_ifs at hrejected ⊢
    · rw [Deferred.settle_settlement] at hrejected
      rw [Deferred.settle_signal]
      split_ifs at hrejected
      exact h.rejected d y err hy hrejected
    · exact h.rejected d y err hy hrejected
  | stop => exact absurd rfl hstop

theorem step (h : FromStore given s) (hM : Function.Injective M.toString)
    (hgiven : Servable M given) (hsound : Sound M s) (hs : s.step M e = some (t, o))
    (hstop : e ≠ .stop)
    (hmessage : ∀ peer bytes fuel decoded, e = .message peer bytes fuel →
      decodeMessage M fuel bytes = some decoded → ∀ block ∈ decoded.blocks, Held given block) :
    FromStore given t where
  handling := h.step_handling hs hmessage
  storing := h.step_storing hgiven hs
  resolved := h.step_resolved hM hsound (step_cases hs)
  rejected := h.step_rejected hsound hstop (step_cases hs)

end FromStore

end IpfsShard.Bitswap
