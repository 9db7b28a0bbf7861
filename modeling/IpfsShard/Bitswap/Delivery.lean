import IpfsShard.Bitswap.LostWants

/-! What becomes of a block that has arrived: when its message has been handled, no want that was
there before waits for it any more. -/

namespace IpfsShard.Bitswap
open Codec Runs Calls Table

def Handler.todo (h : Handler) : List Block :=
  match h.phase with
  | .hashing block rest => block :: rest
  | .storing _ _ _ rest => rest
  | .finished => []

def State.WaitsFor (s : State) (key : String) (d : Nat) : Prop :=
  ∃ p, s.pendingWants.lookup key = some p ∧ p.deferred = d

def State.Faces (s : State) (i : Nat) (block : Block) (key : String) (d : Nat) : Prop :=
  ∃ h, s.handlers[i]? = some h ∧ (s.WaitsFor key d → block ∈ h.todo)

theorem todo_next (h : Handler) (rest : List Block) : (h.next rest).1.todo = rest := by
  cases rest <;> rfl

variable {M : Multiformats} {s t : State} {e : Event} {o : List Effect} {key : String} {d i : Nat}
  {block : Block}

theorem hashed_handlers (s : State) (i : Nat) (h : Handler) (b : Block) (rest : List Block) :
    ∃ h', (s.hashed M i h b rest).1.handlers = s.handlers.set i h' ∧ h'.todo = rest := by
  have hresume : ∃ h', (s.resume i h rest).1.handlers = s.handlers.set i h' ∧ h'.todo = rest :=
    ⟨_, rfl, todo_next h rest⟩
  simp only [State.hashed]
  split
  · exact hresume
  · split
    · exact hresume
    · exact ⟨_, rfl, rfl⟩

theorem waitsFor_hashed {h : Handler} {b : Block} {rest : List Block}
    (hw : (s.hashed M i h b rest).1.WaitsFor key d) : s.WaitsFor key d ∧
      ∀ cid, prefixToCID M b.cidPrefix b.data = some cid → M.toString cid ≠ key := by
  obtain ⟨p, hp, hd⟩ := hw
  simp only [State.hashed] at hp
  split at hp
  · rename_i hnone
    refine ⟨⟨p, hp, hd⟩, fun cid hcid => ?_⟩
    rw [hnone] at hcid
    cases hcid
  · rename_i cid hsome
    split at hp
    · rename_i hfree
      refine ⟨⟨p, hp, hd⟩, ?_⟩
      intro cid' hcid' hkey
      rw [hsome] at hcid'
      cases hcid'
      change s.pendingWants.lookup key = some p at hp
      rw [← hkey, hfree] at hp
      cases hp
    · obtain ⟨hne, hp⟩ := lookup_erase_iff.mp hp
      refine ⟨⟨p, hp, hd⟩, ?_⟩
      intro cid' hcid' hkey
      rw [hsome] at hcid'
      cases hcid'
      exact hne hkey.symm

theorem faces_hashed {j : Nat} {h : Handler} {b : Block} {rest : List Block} {cid : CID}
    (hf : s.Faces i block key d) (hj : s.handlers[j]? = some h) (hp : h.phase = .hashing b rest)
    (hcid : prefixToCID M block.cidPrefix block.data = some cid) (hkey : M.toString cid = key) :
    (s.hashed M j h b rest).1.Faces i block key d := by
  obtain ⟨g, hg, htodo⟩ := hf
  obtain ⟨h', hset, hrest⟩ := hashed_handlers (M := M) s j h b rest
  obtain ⟨hlt, -⟩ := List.getElem?_eq_some_iff.mp hj
  by_cases hij : j = i
  · subst hij
    obtain rfl : h = g := Option.some.inj (hj.symm.trans hg)
    refine ⟨h', by rw [hset, List.getElem?_set_self hlt], fun hw => ?_⟩
    obtain ⟨hbefore, hapart⟩ := waitsFor_hashed hw
    have hmem := htodo hbefore
    rw [Handler.todo, hp] at hmem
    rw [hrest]
    -- the block that was looked up is not the one that the want waits for
    refine (List.mem_cons.mp hmem).resolve_left ?_
    rintro rfl
    exact hapart cid hcid hkey
  · refine ⟨g, by rw [hset, List.getElem?_set_ne hij, hg], fun hw => ?_⟩
    exact htodo (waitsFor_hashed hw).1

theorem State.Faces.of_handlers (hf : s.Faces i block key d)
    (hhandlers : ∀ h, s.handlers[i]? = some h → ∃ h', t.handlers[i]? = some h' ∧ h'.todo = h.todo)
    (hwaits : t.WaitsFor key d → s.WaitsFor key d) : t.Faces i block key d := by
  obtain ⟨h, hi, htodo⟩ := hf
  obtain ⟨h', hi', heq⟩ := hhandlers h hi
  exact ⟨h', hi', fun hw => heq ▸ htodo (hwaits hw)⟩

theorem State.Faces.keeps (hf : s.Faces i block key d) (hhandlers : t.handlers = s.handlers)
    (hwaits : t.WaitsFor key d → s.WaitsFor key d) : t.Faces i block key d :=
  hf.of_handlers (fun h hi => ⟨h, by rw [hhandlers, hi], rfl⟩) hwaits

theorem lt_of_origin {r : CID × Option Nat} (h : s.origin d = some r) : d < s.deferreds.length := by
  obtain ⟨x, hx, -⟩ := Option.map_eq_some_iff.mp h
  exact (List.getElem?_eq_some_iff.mp hx).1

theorem origin_step {r : CID × Option Nat} (h : Step M s e t o) (hd : s.origin d = some r) :
    t.origin d = some r := by
  cases h with
  | create _ => exact origin_create.mpr (Or.inl hd)
  | abort _ =>
    rw [abort_eq]
    exact (origin_settleAll _ _ _ _).trans hd
  | stop => exact (origin_settleAll _ _ _ _).trans hd
  | release _ _ _ _ => exact (origin_settle _ _ _ _).trans hd
  | _ => exact hd

theorem waitsFor_want {r : CID × Option Nat} (hd : s.origin d = some r) (cid : CID)
    (signal : Option Nat) (hw : (s.want M cid signal).1.WaitsFor key d) : s.WaitsFor key d := by
  obtain ⟨p, hp, rfl⟩ := hw
  simp only [State.want] at hp
  split at hp
  · exact ⟨p, hp, rfl⟩
  · rcases lookup_insert_iff.mp hp with ⟨-, rfl⟩ | ⟨-, hp⟩
    · exact absurd (lt_of_origin hd) (Nat.lt_irrefl _)
    · exact ⟨p, hp, rfl⟩

theorem handlers_want (cid : CID) (signal : Option Nat) :
    (s.want M cid signal).1.handlers = s.handlers := by
  simp only [State.want]
  split <;> rfl

theorem faces_step {r : CID × Option Nat} {cid : CID} (hf : s.Faces i block key d)
    (hd : s.origin d = some r) (hcid : prefixToCID M block.cidPrefix block.data = some cid)
    (hkey : M.toString cid = key) (hs : s.step M e = some (t, o)) : t.Faces i block key d := by
  cases e with
  | want c signal =>
    obtain rfl : (s.want M c signal).1 = t := congrArg Prod.fst (Option.some.inj hs)
    exact hf.keeps (handlers_want c signal) (waitsFor_want hd c signal)
  | abort signal =>
    simp only [State.step] at hs
    split_ifs at hs
    obtain rfl : (s.abort signal).1 = t := congrArg Prod.fst (Option.some.inj hs)
    rw [abort_eq]
    refine hf.keeps rfl ?_
    rintro ⟨p, hp, hpd⟩
    exact ⟨p, (lookup_eraseAll_iff.mp hp).2, hpd⟩
  | message peer bytes fuel =>
    obtain ⟨decoded, -, hm⟩ := Option.map_eq_some_iff.mp hs
    cases hm
    refine hf.of_handlers (fun h hi => ⟨h, ?_, rfl⟩) id
    rw [List.getElem?_append_left (List.getElem?_eq_some_iff.mp hi).1]
    exact hi
  | hashed j =>
    obtain ⟨h, b, rest, hj, hp, hr⟩ := step_hashed hs
    obtain rfl : (s.hashed M j h b rest).1 = t := congrArg Prod.fst hr
    exact faces_hashed hf hj hp hcid hkey
  | stored j =>
    obtain ⟨h, c, data, pending, rest, hj, hp, hr⟩ := step_stored hs
    cases hr
    refine hf.of_handlers (fun g hg => ?_) id
    obtain ⟨hlt, -⟩ := List.getElem?_eq_some_iff.mp hj
    by_cases hij : j = i
    · subst hij
      obtain rfl : h = g := Option.some.inj (hj.symm.trans hg)
      refine ⟨(h.next rest).1, List.getElem?_set_self hlt, ?_⟩
      rw [todo_next, Handler.todo, hp]
    · exact ⟨g, (List.getElem?_set_ne hij).trans hg, rfl⟩
  | stop =>
    cases hs
    refine hf.keeps rfl ?_
    rintro ⟨p, hp, -⟩
    cases hp

theorem faces_message {peer : String} {decoded : DecodedMessage} (hblock : block ∈ decoded.blocks) :
    (s.message peer decoded).1.Faces s.handlers.length block key d := by
  refine ⟨(Handler.next ⟨peer, decoded.wantBlocks, .finished⟩ decoded.blocks).1,
    List.getElem?_concat_length, fun _ => ?_⟩
  rwa [todo_next]

theorem noWantLost_of_run {es : List Event} {out : List Effect} (hs : Sound M s)
    (hlost : NoWantLost M s) (h : ((wants M).restart s).Run AbortsOwn es t out) :
    Sound M t ∧ NoWantLost M t := by
  refine h.invariant (I := fun s _ => Sound M s ∧ NoWantLost M s) ⟨hs, hlost⟩ ?_
  rintro s e t out o ⟨hsound, hlost⟩ hown hstep
  have hcases := step_cases hstep
  exact ⟨hsound.step hcases, (abortsOwn_iff hsound hlost hcases).mp hown⟩

theorem noWantLost_init : NoWantLost M {} := by
  intro d x hx
  cases hx

structure Arrival (M : Multiformats) (s : State) (d : Nat) (cid : CID) (data : Bytes) (e : Event) :
    Prop where
  wanted : ∃ cid' signal, s.origin d = some (cid', signal) ∧ M.toString cid' = M.toString cid
  message : ∃ peer bytes fuel decoded block, e = .message peer bytes fuel ∧
    decodeMessage M fuel bytes = some decoded ∧ block ∈ decoded.blocks ∧ block.data = data ∧
    prefixToCID M block.cidPrefix block.data = some cid

theorem faces_of_run {ok : State → Event → Prop} {es : List Event} {out : List Effect} {cid : CID}
    {data : Bytes} (ha : Arrival M s d cid data e)
    (h : ((wants M).restart s).Run ok (e :: es) t out) :
    ∃ block r, t.Faces s.handlers.length block (M.toString cid) d ∧ t.origin d = some r ∧
      M.toString r.1 = M.toString cid := by
  obtain ⟨⟨cid', signal, horigin, hkey⟩, peer, bytes, fuel, decoded, block, rfl, hdecode, hblock, -,
    hcid⟩ := ha
  obtain ⟨u, o, out', -, hstep, hrest, -⟩ := System.run_cons_iff.mp h
  have hu : s.message peer decoded = (u, o) := by
    change (decodeMessage M fuel bytes).map _ = _ at hstep
    rw [hdecode] at hstep
    exact Option.some.inj hstep
  obtain rfl : (s.message peer decoded).1 = u := congrArg Prod.fst hu
  refine ⟨block, (cid', signal), ?_⟩
  have hboth := hrest.invariant
    (I := fun t _ => t.Faces s.handlers.length block (M.toString cid) d ∧
      t.origin d = some (cid', signal)) ⟨faces_message hblock, horigin⟩ (by
      rintro s₁ e₁ t₁ out₁ o₁ ⟨hf, ho⟩ - hstep₁
      exact ⟨faces_step hf ho hcid rfl hstep₁, origin_step (step_cases hstep₁) ho⟩)
  exact ⟨hboth.1, hboth.2, hkey⟩

theorem not_waitsFor_of_finished (hf : s.Faces i block key d)
    (hfinished : ∀ h, s.handlers[i]? = some h → h.phase = .finished) : ¬ s.WaitsFor key d := by
  obtain ⟨h, hi, htodo⟩ := hf
  intro hw
  have hmem := htodo hw
  rw [Handler.todo, hfinished h hi] at hmem
  cases hmem

theorem not_inStore_of_finished (hfinished : ∀ h ∈ s.handlers, h.phase = .finished)
    (x : Deferred) : ¬ InStore s i d x := by
  rintro ⟨cid, data, hi⟩
  obtain ⟨h, hh, hs⟩ := Option.bind_eq_some_iff.mp hi
  rw [Handler.stores, hfinished h (List.mem_of_getElem? hh)] at hs
  cases hs

/-- When the message of a block has been handled, no want that was there waits for the block,
whatever the other handlers are at. If the signals were aborted only while the wants under their
keys were their own, such a want is settled unless a block is just being stored for it. -/
theorem settled_of_arrival {ok ok' : State → Event → Prop} {es es' : List Event}
    {out out' : List Effect} {cid : CID} {data : Bytes} (hbefore : (wants M).Run ok es s out)
    (ha : Arrival M s d cid data e) (hafter : ((wants M).restart s).Run ok' (e :: es') t out')
    (hfinished : ∀ h, t.handlers[s.handlers.length]? = some h → h.phase = .finished) :
    ¬ t.WaitsFor (M.toString cid) d ∧
      ((∀ s e, ok s e → AbortsOwn s e) → (∀ s e, ok' s e → AbortsOwn s e) →
        ∃ x, t.deferreds[d]? = some x ∧ ((∀ i, ¬ InStore t i d x) → x.settlement ≠ .pending)) := by
  obtain ⟨block, ⟨cid', signal⟩, hfaces, horigin, hkey⟩ := faces_of_run ha hafter
  have hfree := not_waitsFor_of_finished hfaces hfinished
  refine ⟨hfree, fun hok hok' => ?_⟩
  obtain ⟨x, hx, horigin⟩ := Option.map_eq_some_iff.mp horigin
  have hxcid : x.cid = cid' := congrArg Prod.fst horigin
  obtain ⟨hsound, hlost⟩ := noWantLost_of_run sound_init noWantLost_init (hbefore.mono hok)
  obtain ⟨-, hlost⟩ := noWantLost_of_run hsound hlost (hafter.mono hok')
  refine ⟨x, hx, fun hstore hpending => ?_⟩
  -- it is in the map, where it would wait, or with a handler that stores
  rcases hlost d x hx hpending with hmap | ⟨i, hi⟩
  · rw [InMap, hxcid, hkey] at hmap
    exact hfree ⟨⟨d, cid'⟩, hmap, rfl⟩
  · exact hstore i hi

open Multiformats

def isAbort : Event → Bool
  | .abort _ => true
  | _ => false

def NoAbort (_ : State) (e : Event) : Prop := isAbort e = false

instance (s : State) (e : Event) : Decidable (NoAbort s e) :=
  inferInstanceAs (Decidable (isAbort e = false))

theorem abortsOwn_of_noAbort (s : State) (e : Event) (h : NoAbort s e) : AbortsOwn s e := by
  cases e with
  | abort signal => cases h
  | _ => trivial

def wantsEmpty : State := (({} : State).want onEmptyBlock emptyRaw none).1

theorem wantsEmpty_run :
    (wants onEmptyBlock).Run NoAbort [.want emptyRaw none] wantsEmpty [.broadcast emptyRaw] :=
  System.Run.start.step rfl rfl

theorem arrival_emptyRaw :
    Arrival onEmptyBlock wantsEmpty 0 emptyRaw [] (.message "peer" emptyBlockMessage 9) where
  wanted := ⟨emptyRaw, none, by decide +kernel, rfl⟩
  message := ⟨"peer", emptyBlockMessage, 9, ⟨[], [⟨[0x01, 0x55, 0x12, 0x20], []⟩]⟩, _, rfl,
    by decide +kernel, List.mem_singleton_self _, rfl, by decide +kernel⟩

theorem settled_of_arrival_emptyRaw : ∃ t out,
    ((wants onEmptyBlock).restart wantsEmpty).Run NoAbort
      [.message "peer" emptyBlockMessage 9, .hashed 0, .stored 0] t out ∧
    ∃ x, t.deferreds[0]? = some x ∧ x.settlement ≠ .pending := by
  obtain ⟨t, out, hrun, hfinished⟩ := System.exists_run
    (T := ((wants onEmptyBlock).restart wantsEmpty).guarded NoAbort)
    [.message "peer" emptyBlockMessage 9, .hashed 0, .stored 0]
    (p := fun r => ∀ h ∈ r.1.handlers, h.phase = .finished) (by decide +kernel)
  have hrun' := hrun.of_guarded
  obtain ⟨x, hx, hsettled⟩ := (settled_of_arrival wantsEmpty_run arrival_emptyRaw hrun'
    fun h hi => hfinished h (List.mem_of_getElem? hi)).2 abortsOwn_of_noAbort abortsOwn_of_noAbort
  exact ⟨t, out, hrun', x, hx, hsettled fun _ => not_inStore_of_finished hfinished x⟩

end IpfsShard.Bitswap
