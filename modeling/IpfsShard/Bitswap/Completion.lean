import IpfsShard.Bitswap.Exchanged
import IpfsShard.Lib.Table

/-! Every exchange with a peer can be completed: what waits can always go on, and brings it nearer
to its end. -/

namespace IpfsShard.Bitswap
open Codec Runs

def Handler.weight (h : Handler) : Nat := 2 * h.todo.length + if h.stores.isSome then 1 else 0

def State.weight (s : State) : Nat := (s.handlers.map Handler.weight).sum

def Exchange.weight (x : Exchange) : Nat :=
  6 * x.sending.length + 5 * x.requests.messages.length + 4 * x.serving.length +
    3 * x.responses.messages.length + x.client.weight

def Event.goesOn : Event → Prop
  | .hashed _ | .stored _ => True
  | _ => False

def Nearer (M : Multiformats) (peer : String) (store : CID → Found) (x : Exchange) : Prop :=
  ∃ e y o, x.Clean e ∧ x.step M peer store e = some (y, o) ∧ y.weight < x.weight

variable {M : Multiformats} {peer : String} {store : CID → Found} {given : CID → Bytes → Prop}
  {s t : State} {x : Exchange} {o : List Effect} {fuel : Nat}

theorem weight_le (h : Handler) : h.weight ≤ 2 * h.todo.length + 1 := by
  unfold Handler.weight
  split_ifs <;> omega

theorem weight_next (h : Handler) (rest : List Block) :
    (h.next rest).1.weight = 2 * rest.length := by
  rw [Handler.weight, todo_next, (next_spec h rest).1]
  rfl

theorem weight_set {i : Nat} {h h' : Handler} (hi : s.handlers[i]? = some h)
    (hset : t.handlers = s.handlers.set i h') (hlt : h'.weight < h.weight) :
    t.weight < s.weight := by
  have hsum := Table.sum_map_set Handler.weight hi h'
  rw [← hset] at hsum
  unfold State.weight
  omega

theorem exists_lighter {h : Handler} (hmem : h ∈ s.handlers) (hphase : h.phase ≠ .finished) :
    ∃ e t o, e.goesOn ∧ s.step M e = some (t, o) ∧ t.weight < s.weight := by
  obtain ⟨i, hi⟩ := List.mem_iff_getElem?.mp hmem
  cases hp : h.phase with
  | finished => exact absurd hp hphase
  | hashing block rest =>
    have hs : s.step M (.hashed i) = some (s.hashed M i h block rest) := by
      simp only [State.step, hi, hp]
    obtain ⟨h', hset, htodo⟩ := hashed_handlers (M := M) s i h block rest
    refine ⟨.hashed i, _, _, trivial, hs, weight_set hi hset ?_⟩
    have hle := weight_le h'
    have hbefore : h.weight = 2 * (rest.length + 1) := by
      rw [Handler.weight, Handler.todo, Handler.stores, hp]
      rfl
    rw [htodo] at hle
    omega
  | storing cid data pending rest =>
    have hs : s.step M (.stored i) = some (s.stored i h data pending rest) := by
      simp only [State.step, hi, hp]
    refine ⟨.stored i, _, _, trivial, hs, @weight_set _ _ _ _ (h.next rest).1 hi rfl ?_⟩
    have hbefore : h.weight = 2 * rest.length + 1 := by
      rw [Handler.weight, Handler.todo, Handler.stores, hp]
      rfl
    rw [weight_next]
    omega

theorem exists_fuel {messages : List Bytes} (h : ∀ m ∈ messages, ∃ d, DecodesTo M m d) :
    ∃ n, ∀ fuel, n ≤ fuel → ∀ m ∈ messages, ∃ d, decodeMessage M fuel m = some d := by
  induction messages with
  | nil => exact ⟨0, fun _ _ m hm => by cases hm⟩
  | cons m messages ih =>
    obtain ⟨d, k, hk⟩ := h m (List.mem_cons_self ..)
    obtain ⟨n, hn⟩ := ih fun m hm => h m (List.mem_cons_of_mem _ hm)
    refine ⟨max k n, fun fuel hle => List.forall_mem_cons.mpr ⟨⟨d, ?_⟩, ?_⟩⟩
    · exact decodeMessage_mono (Nat.le_trans (Nat.le_max_left k n) hle) hk
    · exact hn fuel (Nat.le_trans (Nat.le_max_right k n) hle)

theorem exists_receive {peer : String} {messages : List Bytes} (s : State) (out : List Effect)
    (h : ∀ m ∈ messages, ∃ d, decodeMessage M fuel m = some d) :
    ∃ r, (wants M).exec (messages.map (.message peer · fuel)) s out = some r := by
  induction messages generalizing s out with
  | nil => exact ⟨(s, out), rfl⟩
  | cons m messages ih =>
    obtain ⟨d, hd⟩ := h m (List.mem_cons_self ..)
    have hs : (wants M).step s (.message peer m fuel) = some (s.message peer d) :=
      congrArg (Option.map (s.message peer)) hd
    obtain ⟨r, hr⟩ := ih (s.message peer d).1 (out ++ (s.message peer d).2)
      fun m hm => h m (List.mem_cons_of_mem _ hm)
    exact ⟨r, System.exec_cons_iff.mpr ⟨_, _, hs, hr⟩⟩

theorem nearer_of_sending (hsending : x.sending ≠ []) : Nearer M peer store x := by
  obtain ⟨cid, sending, heq⟩ := List.exists_cons_of_ne_nil hsending
  have hs : x.step M peer store (.sent 0) = some ({ x with
      sending := x.sending.eraseIdx 0
      requests := x.requests.write (encodeWantBlock M cid) }, []) := by
    simp only [Exchange.step, heq]
    rfl
  refine ⟨.sent 0, _, [], trivial, hs, ?_⟩
  simp only [Exchange.weight, Channel.write, heq, List.eraseIdx_cons_zero, List.length_append,
    List.length_cons, List.length_nil]
  omega

theorem step_got {cid : CID} {serving : List CID} (hserving : x.serving = cid :: serving) :
    ∃ responses, x.step M peer store (.got 0) = some ({ x with serving, responses }, []) ∧
      responses.messages.length ≤ x.responses.messages.length + 1 := by
  cases hfound : encodeFound cid (store cid) with
  | none =>
    refine ⟨x.responses, ?_, Nat.le_succ _⟩
    simp only [Exchange.step, hserving, List.getElem?_cons_zero, List.eraseIdx_cons_zero, hfound,
      Option.map_some]
  | some msg =>
    refine ⟨x.responses.write msg, ?_, ?_⟩
    · simp only [Exchange.step, hserving, List.getElem?_cons_zero, List.eraseIdx_cons_zero, hfound,
        Option.map_some]
    · rw [Channel.write, List.length_append, List.length_singleton]

theorem nearer_of_serving (hserving : x.serving ≠ []) : Nearer M peer store x := by
  obtain ⟨cid, serving, heq⟩ := List.exists_cons_of_ne_nil hserving
  obtain ⟨responses, hs, hle⟩ := @step_got M peer store x _ _ heq
  refine ⟨.got 0, _, [], trivial, hs, ?_⟩
  simp only [Exchange.weight, heq, List.length_cons]
  omega

theorem forall_decoded {P : DecodedMessage → Prop} {messages : List Bytes}
    {decoded : List DecodedMessage}
    (h : List.Forall₂ (fun m d => decodeMessage M fuel m = some d) messages decoded)
    (hP : ∀ m ∈ messages, ∃ d, DecodesTo M m d ∧ P d) : ∀ d ∈ decoded, P d := by
  induction h with
  | nil => simp
  | cons hd _ ih =>
    refine List.forall_mem_cons.mpr ⟨?_, ih fun m hm => hP m (List.mem_cons_of_mem _ hm)⟩
    obtain ⟨d, hdecodes, hPd⟩ := hP _ (List.mem_cons_self ..)
    rw [hdecodes.unique ⟨_, hd⟩] at hPd
    exact hPd

theorem length_serves {decoded : List DecodedMessage}
    (h : ∀ d ∈ decoded, ∃ cid, d = ⟨[cid], []⟩) :
    ((serves (decoded.flatMap fun d => (({} : State).message "client" d).2)).flatMap
      (·.2)).length = decoded.length := by
  induction decoded with
  | nil => rfl
  | cons d decoded ih =>
    obtain ⟨cid, rfl⟩ := h d (List.mem_cons_self ..)
    have hrest := ih fun d hd => h d (List.mem_cons_of_mem _ hd)
    rw [List.length_cons, ← hrest]
    rfl

theorem weight_started {decoded : List DecodedMessage} (h : ∀ d ∈ decoded, d.blocks.length = 1) :
    (((decoded.map (Handler.start peer)).map Handler.weight)).sum = 2 * decoded.length := by
  induction decoded with
  | nil => rfl
  | cons d decoded ih =>
    have hrest := ih fun d hd => h d (List.mem_cons_of_mem _ hd)
    have hstart : (Handler.start peer d).weight = 2 * d.blocks.length := weight_next _ _
    rw [List.map_cons, List.map_cons, List.sum_cons, hrest, hstart, h d (List.mem_cons_self ..),
      List.length_cons]
    omega

theorem Exchanging.nearer_of_requests (h : Exchanging M store given x)
    (hrequests : x.requests.incoming ≠ []) : Nearer M peer store x := by
  obtain ⟨hclean, k, requests, hread, hnone⟩ := h.requests.exists_read
  have hdecodes : ∀ m ∈ x.requests.messages, ∃ d, DecodesTo M m d ∧ ∃ cid, d = ⟨[cid], []⟩ := by
    intro m hm
    obtain ⟨cid, hcid, rfl⟩ := h.asked m hm
    exact ⟨_, decodesTo_encodeWantBlock hcid, cid, rfl⟩
  obtain ⟨n, hn⟩ := exists_fuel fun m hm => (hdecodes m hm).imp fun _ hd => hd.1
  obtain ⟨⟨server, effects⟩, hserver⟩ := @exists_receive _ _ "client" _ x.server []
    (hn (max n k) (Nat.le_max_left n k))
  have hs : x.step M peer store (.requestChunk x.requests.incoming.length (max n k)) = some ({ x with
      requests, server
      serving := x.serving ++ (serves effects).flatMap (·.2) }, []) := by
    rw [Exchange.step, hread (max n k) (Nat.le_max_right n k), Option.bind_some]
    exact congrArg (Option.map _) hserver
  refine ⟨.requestChunk x.requests.incoming.length (max n k), _, [], hclean, hs, ?_⟩
  obtain ⟨decoded, hdecoded, -, rfl⟩ := receive_messages hserver
  have hlength := length_serves (forall_decoded hdecoded hdecodes)
  have hmessages := hdecoded.length_eq
  have hpos : 0 < x.requests.messages.length :=
    List.length_pos_iff.mpr (mt h.requests.incoming_eq_nil_iff.mpr hrequests)
  simp only [Exchange.weight, hnone, List.length_append, List.nil_append, hlength, List.length_nil]
  omega

theorem Exchanging.nearer_of_responses (h : Exchanging M store given x) (hgiven : Servable M given)
    (hresponses : x.responses.incoming ≠ []) : Nearer M peer store x := by
  obtain ⟨hclean, k, responses, hread, hnone⟩ := h.responses.exists_read
  have hdecodes : ∀ m ∈ x.responses.messages, ∃ d, DecodesTo M m d ∧ d.blocks.length = 1 := by
    intro m hm
    obtain ⟨cid, data, hdata, rfl⟩ := h.answered m hm
    exact ⟨_, decodesTo_encodeBlock (hgiven cid data (h.gives cid data hdata)).2.2, rfl⟩
  obtain ⟨n, hn⟩ := exists_fuel fun m hm => (hdecodes m hm).imp fun _ hd => hd.1
  obtain ⟨⟨client, effects⟩, hclient⟩ := @exists_receive _ _ peer _ x.client []
    (hn (max n k) (Nat.le_max_left n k))
  obtain ⟨decoded, hdecoded, rfl, rfl⟩ := receive_messages hclient
  have hs : x.step M peer store (.responseChunk x.responses.incoming.length (max n k)) =
      some ({ x with
        responses
        client := { x.client with
          handlers := x.client.handlers ++ decoded.map (Handler.start peer) } },
        decoded.flatMap fun d => (({} : State).message peer d).2) := by
    rw [Exchange.step, hread (max n k) (Nat.le_max_right n k), Option.bind_some]
    refine (congrArg (Option.map _) hclient).trans ?_
    rw [Option.map_some, Exchange.onClient, List.nil_append, broadcastCids_messages,
      List.append_nil]
  refine ⟨.responseChunk x.responses.incoming.length (max n k), _, _, hclean, hs, ?_⟩
  have hweight := @weight_started peer decoded (forall_decoded hdecoded hdecodes)
  have hmessages := hdecoded.length_eq
  have hpos : 0 < x.responses.messages.length :=
    List.length_pos_iff.mpr (mt h.responses.incoming_eq_nil_iff.mpr hresponses)
  simp only [Exchange.weight, State.weight, hnone, List.map_append, List.sum_append, hweight,
    List.length_nil]
  omega

theorem Exchanging.nearer (h : Exchanging M store given x) (hgiven : Servable M given)
    (hquiet : ¬ x.Quiet) : Nearer M peer store x := by
  by_contra hno
  have hempty : ∀ {α : Type} {l : List α}, (l ≠ [] → Nearer M peer store x) → l = [] :=
    fun hl => by_contra fun hne => hno (hl hne)
  exact hquiet ⟨hempty nearer_of_sending, hempty h.nearer_of_requests, hempty nearer_of_serving,
    hempty (h.nearer_of_responses hgiven)⟩

end IpfsShard.Bitswap
