import IpfsShard.Bitswap.Wants
import IpfsShard.Lib.Table

/-! What a step of the wants can do, and what holds in every state of a run: where a want
is (in the map, or with a handler that stores its block), and what settles it. -/

namespace IpfsShard.Bitswap
open Codec Runs Table

def Handler.stores (h : Handler) : Option (CID × Bytes × PendingWant) :=
  match h.phase with
  | .storing cid data pending _ => some (cid, data, pending)
  | _ => none

def State.stores (s : State) (i : Nat) : Option (CID × Bytes × PendingWant) :=
  s.handlers[i]?.bind Handler.stores

def puts (out : List Effect) : List Nat :=
  out.filterMap fun
    | .put _ _ pending => some pending.deferred
    | _ => none

def resolutions (out : List Effect) : List Nat :=
  out.filterMap fun
    | .settle deferred (.resolved _) => some deferred
    | _ => none

@[simp] theorem puts_append (out o : List Effect) : puts (out ++ o) = puts out ++ puts o :=
  List.filterMap_append

@[simp] theorem resolutions_append (out o : List Effect) :
    resolutions (out ++ o) = resolutions out ++ resolutions o := List.filterMap_append

theorem getElem?_settle (ds : List Deferred) (d : Nat) (st : Settlement) (i : Nat) :
    (settle ds d st)[i]? = ds[i]?.map fun x => if d = i then x.settle st else x := by
  rw [settle, List.getElem?_modify]
  rfl

@[simp] theorem Deferred.settle_settle (x : Deferred) (st : Settlement) :
    (x.settle st).settle st = x.settle st := by
  simp only [Deferred.settle]
  split_ifs <;> rfl

@[simp] theorem Deferred.settle_cid (x : Deferred) (st : Settlement) :
    (x.settle st).cid = x.cid := by
  simp only [Deferred.settle]
  split_ifs <;> rfl

@[simp] theorem Deferred.settle_signal (x : Deferred) (st : Settlement) :
    (x.settle st).signal = x.signal := by
  simp only [Deferred.settle]
  split_ifs <;> rfl

theorem Deferred.settle_settlement (x : Deferred) (st : Settlement) :
    (x.settle st).settlement = if x.settlement = .pending then st else x.settlement := by
  simp only [Deferred.settle]
  split_ifs <;> rfl

theorem getElem?_settleAll (wants : List Nat) (st : Settlement) (ds : List Deferred) (i : Nat) :
    (wants.foldl (settle · · st) ds)[i]? =
      ds[i]?.map fun x => if i ∈ wants then x.settle st else x := by
  induction wants generalizing ds with
  | nil => simp
  | cons d wants ih =>
    rw [List.foldl_cons, ih, getElem?_settle, Option.map_map]
    congr 1
    funext x
    by_cases hd : d = i
    · subst hd
      by_cases hi : d ∈ wants <;> simp [hi]
    · by_cases hi : i ∈ wants <;> simp [hd, hi, Ne.symm hd]

def State.fired (s : State) (signal : Nat) : List Listener :=
  s.listeners.filter (·.signal = signal)

theorem foldl_onAbort (fired : List Listener) (s : State) :
    fired.foldl State.onAbort s =
      { s with
        pendingWants := eraseAll s.pendingWants (fired.map (·.key))
        deferreds := (fired.map (·.deferred)).foldl (settle · · (.rejected .aborted))
          s.deferreds } := by
  induction fired generalizing s with
  | nil => rfl
  | cons l fired ih => rw [List.foldl_cons, ih]; rfl

theorem abort_eq (s : State) (signal : Nat) :
    (s.abort signal).1 =
      { s with
        pendingWants := eraseAll s.pendingWants ((s.fired signal).map (·.key))
        deferreds := ((s.fired signal).map (·.deferred)).foldl (settle · · (.rejected .aborted))
          s.deferreds
        aborted := signal :: s.aborted } := by
  rw [State.abort, foldl_onAbort]
  rfl

/-- The kinds of steps. In a `pass` some handlers start, go on or finish, and none of them
begins or ends to store. -/
inductive Step (M : Multiformats) (s : State) : Event → State → List Effect → Prop where
  | join {cid : CID} {signal : Option Nat} {existing : PendingWant} :
      s.pendingWants.lookup (M.toString cid) = some existing →
      Step M s (.want cid signal)
        { s with calls := s.calls ++ [⟨cid, signal, existing.deferred⟩] } []
  | create {cid : CID} {signal : Option Nat} : s.pendingWants.lookup (M.toString cid) = none →
      Step M s (.want cid signal)
        { s with
          pendingWants := s.pendingWants.insert (M.toString cid) ⟨s.deferreds.length, cid⟩
          deferreds := s.deferreds ++ [{ cid, signal }]
          listeners := s.listeners ++
            signal.toList.map (⟨·, M.toString cid, s.deferreds.length⟩)
          calls := s.calls ++ [⟨cid, signal, s.deferreds.length⟩] } [.broadcast cid]
  | abort {signal : Nat} : signal ∉ s.aborted →
      Step M s (.abort signal) (s.abort signal).1 (s.abort signal).2
  | pass {e : Event} {handlers : List Handler} {o : List Effect} :
      (∀ i, ({ s with handlers } : State).stores i = s.stores i) → puts o = [] →
      resolutions o = [] → (∀ cid signal, e ≠ .want cid signal) → (∀ signal, e ≠ .abort signal) →
      e ≠ .stop → Step M s e { s with handlers } o
  | take {i : Nat} {handlers : List Handler} {cid : CID} {block : Block} {pending : PendingWant} :
      prefixToCID M block.cidPrefix block.data = some cid →
      s.pendingWants.lookup (M.toString cid) = some pending → s.stores i = none →
      (∀ j, ({ s with handlers } : State).stores j =
        if i = j then some (cid, block.data, pending) else s.stores j) →
      Step M s (.hashed i)
        { s with pendingWants := s.pendingWants.erase (M.toString cid), handlers }
        [.put cid block.data pending]
  | release {i : Nat} {handlers : List Handler} {cid : CID} {data : Bytes}
      {pending : PendingWant} {o : List Effect} : s.stores i = some (cid, data, pending) →
      (∀ j, ({ s with handlers } : State).stores j = if i = j then none else s.stores j) →
      puts o = [] → resolutions o = [pending.deferred] →
      Step M s (.stored i)
        { s with
          deferreds := settle s.deferreds pending.deferred (.resolved data)
          handlers } o
  | stop : Step M s .stop s.stop.1 s.stop.2

theorem next_spec (h : Handler) (rest : List Block) :
    (h.next rest).1.stores = none ∧ puts (h.next rest).2 = [] ∧
      resolutions (h.next rest).2 = [] := by
  cases rest <;> exact ⟨rfl, rfl, rfl⟩

theorem stores_append (s : State) {h : Handler} (hh : h.stores = none) (i : Nat) :
    ({ s with handlers := s.handlers ++ [h] } : State).stores i = s.stores i := by
  simp only [State.stores, List.getElem?_append]
  split_ifs with hi
  · rfl
  · rw [List.getElem?_eq_none (l := s.handlers) (by omega)]
    cases hk : [h][i - s.handlers.length]? with
    | none => rfl
    | some h' =>
      have := List.mem_singleton.mp (List.mem_of_getElem? hk)
      simp [this, hh]

theorem stores_set (s : State) {i : Nat} {h h' : Handler} (hi : s.handlers[i]? = some h) (j : Nat) :
    ({ s with handlers := s.handlers.set i h' } : State).stores j =
      if i = j then h'.stores else s.stores j := by
  obtain ⟨hlt, -⟩ := List.getElem?_eq_some_iff.mp hi
  simp only [State.stores, List.getElem?_set]
  split_ifs <;> simp

variable {M : Multiformats} {s t : State} {e : Event} {o : List Effect}

theorem stores_of_released {i j : Nat} {handlers : List Handler}
    {r : CID × Bytes × PendingWant}
    (hs : ∀ j, ({ s with handlers } : State).stores j = if i = j then none else s.stores j)
    (hj : ({ s with handlers } : State).stores j = some r) : i ≠ j ∧ s.stores j = some r := by
  rw [hs j] at hj
  split_ifs at hj with hij
  exact ⟨hij, hj⟩

theorem Step.of_some {r : State × List Effect} (hr : Step M s e r.1 r.2)
    (h : some r = some (t, o)) : Step M s e t o := by
  obtain rfl := Option.some.inj h
  exact hr

theorem resume_eq (s : State) (i : Nat) (h : Handler) (rest : List Block) :
    s.resume i h rest =
      ({ s with handlers := s.handlers.set i (h.next rest).1 }, (h.next rest).2) := rfl

theorem want_step (cid : CID) (signal : Option Nat) :
    Step M s (.want cid signal) (s.want M cid signal).1 (s.want M cid signal).2 := by
  simp only [State.want]
  split
  · exact Step.join ‹_›
  · exact Step.create ‹_›

theorem message_step {peer : String} {bytes : Bytes} {fuel : Nat} (decoded : DecodedMessage) :
    Step M s (.message peer bytes fuel) (s.message peer decoded).1 (s.message peer decoded).2 := by
  obtain ⟨hstores, hputs, hres⟩ := next_spec ⟨peer, decoded.wantBlocks, .finished⟩ decoded.blocks
  exact Step.pass (stores_append s hstores) hputs hres (by simp) (by simp) (by simp)

theorem hashed_step {i : Nat} {h : Handler} {block : Block} {rest : List Block}
    (hi : s.handlers[i]? = some h) (hp : h.phase = .hashing block rest) :
    Step M s (.hashed i) (s.hashed M i h block rest).1 (s.hashed M i h block rest).2 := by
  have hnone : s.stores i = none := by simp [State.stores, hi, Handler.stores, hp]
  have hpass : Step M s (.hashed i) (s.resume i h rest).1 (s.resume i h rest).2 := by
    obtain ⟨hstores, hputs, hres⟩ := next_spec h rest
    rw [resume_eq]
    refine Step.pass (fun j => ?_) hputs hres (by simp) (by simp) (by simp)
    simp only [stores_set s hi, hstores]
    split_ifs with hj
    · rw [← hj, hnone]
    · rfl
  simp only [State.hashed]
  split
  · exact hpass
  · split
    · exact hpass
    · exact Step.take ‹_› ‹_› hnone fun j => by rw [stores_set s hi]; rfl

theorem stored_step {i : Nat} {h : Handler} {cid : CID} {data : Bytes} {pending : PendingWant}
    {rest : List Block} (hi : s.handlers[i]? = some h)
    (hp : h.phase = .storing cid data pending rest) :
    Step M s (.stored i) (s.stored i h data pending rest).1 (s.stored i h data pending rest).2 := by
  have hstores : s.stores i = some (cid, data, pending) := by
    simp [State.stores, hi, Handler.stores, hp]
  obtain ⟨hnext, hputs, hres⟩ := next_spec h rest
  simp only [State.stored, resume_eq]
  refine Step.release hstores (fun j => ?_) hputs (congrArg (pending.deferred :: ·) hres)
  simp only [stores_set s hi, hnext]

theorem step_hashed {i : Nat} {r : State × List Effect} (h : s.step M (.hashed i) = some r) :
    ∃ hd block rest, s.handlers[i]? = some hd ∧ hd.phase = .hashing block rest ∧
      s.hashed M i hd block rest = r := by
  simp only [State.step] at h
  split at h
  · split at h
    · exact ⟨_, _, _, ‹_›, ‹_›, Option.some.inj h⟩
    · cases h
  · cases h

theorem step_stored {i : Nat} {r : State × List Effect} (h : s.step M (.stored i) = some r) :
    ∃ hd cid data pending rest, s.handlers[i]? = some hd ∧
      hd.phase = .storing cid data pending rest ∧ s.stored i hd data pending rest = r := by
  simp only [State.step] at h
  split at h
  · split at h
    · exact ⟨_, _, _, _, _, ‹_›, ‹_›, Option.some.inj h⟩
    · cases h
  · cases h

theorem step_cases (h : s.step M e = some (t, o)) : Step M s e t o := by
  cases e with
  | want cid signal => exact (want_step cid signal).of_some h
  | abort signal =>
    simp only [State.step] at h
    split_ifs at h with hs
    exact (Step.abort hs).of_some h
  | message peer bytes fuel =>
    obtain ⟨decoded, -, hd⟩ := Option.map_eq_some_iff.mp h
    exact (message_step decoded).of_some (congrArg some hd)
  | hashed i =>
    obtain ⟨hd, block, rest, hi, hp, hr⟩ := step_hashed h
    exact (hashed_step hi hp).of_some (congrArg some hr)
  | stored i =>
    obtain ⟨hd, cid, data, pending, rest, hi, hp, hr⟩ := step_stored h
    exact (stored_step hi hp).of_some (congrArg some hr)
  | stop => exact Step.stop.of_some h

end IpfsShard.Bitswap
