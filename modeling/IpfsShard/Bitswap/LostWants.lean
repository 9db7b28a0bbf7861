import IpfsShard.Bitswap.Sound

/-! When a want gets lost. An abort listener outlives its want and deletes by key, so it can
delete a later want under the same key; this is the only way for a want to get lost. -/

namespace IpfsShard.Bitswap
open Codec Runs Calls

def InMap (M : Multiformats) (s : State) (d : Nat) (x : Deferred) : Prop :=
  s.pendingWants.lookup (M.toString x.cid) = some ⟨d, x.cid⟩

/-- Handler `i` has taken the want out and waits for the store. -/
def InStore (s : State) (i d : Nat) (x : Deferred) : Prop :=
  ∃ cid data, s.stores i = some (cid, data, ⟨d, x.cid⟩)

def NoWantLost (M : Multiformats) (s : State) : Prop :=
  ∀ (d : Nat) x, s.deferreds[d]? = some x → x.settlement = .pending →
    InMap M s d x ∨ ∃ i, InStore s i d x

/-- A signal is aborted only while the wants under the keys it was used for, if there are
any, were made with this signal. -/
def AbortsOwn (s : State) : Event → Prop
  | .abort signal => ∀ l ∈ s.fired signal, ∀ p, s.pendingWants.lookup l.key = some p →
      ∃ cid, s.origin p.deferred = some (cid, some signal)
  | _ => True

variable {M : Multiformats} {s t : State} {e : Event} {o : List Effect}

theorem pending_settleAll (wants : List Nat) {st : Settlement} (hst : st ≠ .pending)
    {ds : List Deferred} {d : Nat} {x : Deferred}
    (hx : (wants.foldl (settle · · st) ds)[d]? = some x) (hp : x.settlement = .pending) :
    ds[d]? = some x ∧ d ∉ wants := by
  rw [getElem?_settleAll] at hx
  obtain ⟨y, hy, rfl⟩ := Option.map_eq_some_iff.mp hx
  by_cases hd : d ∈ wants
  · rw [if_pos hd, Deferred.settle_settlement] at hp
    split_ifs at hp with hy'
    · exact absurd hp hst
    · exact absurd hp hy'
  · rw [if_neg hd]
    exact ⟨hy, hd⟩

namespace NoWantLost

theorem create (h : NoWantLost M s) {cid : CID} {signal : Option Nat}
    (hn : s.pendingWants.lookup (M.toString cid) = none) (listeners : List Listener)
    (calls : List Call) :
    NoWantLost M { s with
      pendingWants := s.pendingWants.insert (M.toString cid) ⟨s.deferreds.length, cid⟩
      deferreds := s.deferreds ++ [{ cid, signal }]
      listeners
      calls } := by
  intro d x hx hp
  rcases getElem?_concat.mp hx with hx | ⟨rfl, rfl⟩
  · refine (h d x hx hp).imp_left fun hm => ?_
    rw [InMap, AList.lookup_insert_ne]
    · exact hm
    · intro hkey
      rw [InMap, hkey, hn] at hm
      cases hm
  · exact Or.inl (AList.lookup_insert _)

theorem take (h : NoWantLost M s) {i : Nat} {handlers : List Handler} {cid : CID} {data : Bytes}
    {pending : PendingWant} (hp : s.pendingWants.lookup (M.toString cid) = some pending)
    (hi : s.stores i = none)
    (hs : ∀ j, ({ s with handlers } : State).stores j =
      if i = j then some (cid, data, pending) else s.stores j) :
    NoWantLost M
      { s with pendingWants := s.pendingWants.erase (M.toString cid), handlers } := by
  intro d x hx hpend
  rcases h d x hx hpend with hm | ⟨j, c, data', hj⟩
  · by_cases hkey : M.toString x.cid = M.toString cid
    · right
      rw [InMap, hkey, hp, Option.some.injEq] at hm
      exact ⟨i, cid, data, (hs i).trans (by rw [if_pos rfl, hm])⟩
    · left
      rw [InMap, AList.lookup_erase_ne hkey]
      exact hm
  · right
    refine ⟨j, c, data', (hs j).trans ?_⟩
    rw [if_neg (by rintro rfl; rw [hi] at hj; cases hj), hj]

theorem release (h : NoWantLost M s) {i : Nat} {handlers : List Handler} {cid : CID} {data : Bytes}
    {pending : PendingWant} (hi : s.stores i = some (cid, data, pending))
    (hs : ∀ j, ({ s with handlers } : State).stores j = if i = j then none else s.stores j) :
    NoWantLost M { s with
      deferreds := settle s.deferreds pending.deferred (.resolved data)
      handlers } := by
  intro d x hx hp
  obtain ⟨hx, hd⟩ := pending_settleAll [pending.deferred] (by simp) hx hp
  refine (h d x hx hp).imp_right ?_
  rintro ⟨j, c, data', hj⟩
  refine ⟨j, c, data', (hs j).trans ?_⟩
  rw [if_neg, hj]
  rintro rfl
  rw [hi] at hj
  cases hj
  simp at hd

theorem stop (h : NoWantLost M s) : NoWantLost M s.stop.1 := by
  intro d x hx hp
  obtain ⟨hx, hd⟩ := pending_settleAll _ (by simp) hx hp
  rcases h d x hx hp with hm | hi
  · have hmem := List.mem_reverse.mpr (AList.mem_lookup_iff.mp hm)
    exact absurd (List.mem_map_of_mem (f := (·.2.deferred)) hmem) hd
  · exact Or.inr hi

end NoWantLost

theorem abort_iff (hs : Sound M s) (h : NoWantLost M s) (signal : Nat) :
    AbortsOwn s (.abort signal) ↔ NoWantLost M (s.abort signal).1 := by
  rw [abort_eq]
  constructor
  · intro hown d x hx hp
    obtain ⟨hx, hd⟩ := pending_settleAll _ (by simp) hx hp
    refine (h d x hx hp).imp_left fun hm => ?_
    refine Table.lookup_eraseAll_iff.mpr ⟨fun hkey => ?_, hm⟩
    obtain ⟨l, hl, hlk⟩ := List.mem_map.mp hkey
    -- a want under the key was made with the signal, so it is rejected too
    obtain ⟨cid, ho⟩ := hown l hl _ (by rw [hlk]; exact hm)
    obtain ⟨l', hl', hld, -⟩ := mem_fired hs ho
    exact hd (List.mem_map.mpr ⟨l', hl', hld⟩)
  · intro hlost l hl p hp
    obtain ⟨hkey, sig, hx⟩ := hs.entry l.key p hp
    have horigin : s.origin p.deferred = some (p.cid, sig) := by simp [State.origin, hx]
    by_contra hne
    -- the want under the key is not rejected, but it is deleted
    have hd : p.deferred ∉ (s.fired signal).map (·.deferred) :=
      fun hd => hne (origin_of_mem_fired hs hd)
    rcases hlost p.deferred ⟨p.cid, sig, .pending⟩ (by simp [getElem?_settleAll, hx, hd]) rfl with
      hm | ⟨i, cid, data, hi⟩
    · exact (Table.lookup_eraseAll_iff.mp hm).1 (List.mem_map.mpr ⟨l, hl, hkey⟩)
    · exact hs.apart i cid data _ hi l.key p hp rfl

theorem abortsOwn_iff (hs : Sound M s) (h : NoWantLost M s) (hstep : Step M s e t o) :
    AbortsOwn s e ↔ NoWantLost M t := by
  cases hstep with
  | join _ => exact iff_of_true trivial h
  | create hn => exact iff_of_true trivial (h.create hn _ _)
  | abort _ => exact abort_iff hs h _
  | @pass e handlers o hst _ _ _ ha _ =>
    refine iff_of_true ?_ fun d x hx hp => ?_
    · cases e with
      | abort signal => exact absurd rfl (ha signal)
      | _ => trivial
    · simpa only [InMap, InStore, hst] using h d x hx hp
  | take _ hp hi hst => exact iff_of_true trivial (h.take hp hi hst)
  | release hi hst _ _ => exact iff_of_true trivial (h.release hi hst)
  | stop => exact iff_of_true trivial h.stop

def SettledBy (M : Multiformats) (s : State) (e : Event) (d : Nat) : Prop :=
  ∃ t o y, s.step M e = some (t, o) ∧ t.deferreds[d]? = some y ∧ y.settlement ≠ .pending

def Verifying (M : Multiformats) (s : State) (i : Nat) (x : Deferred) : Prop :=
  ∃ h block rest cid, s.handlers[i]? = some h ∧ h.phase = .hashing block rest ∧
    prefixToCID M block.cidPrefix block.data = some cid ∧ M.toString cid = M.toString x.cid

/-- The want is with a handler, and settled as soon as the store answers; or it is the one
under its key, and `stop` settles it, and so does the next verified block, once it is stored. -/
def Recoverable (M : Multiformats) (s : State) (d : Nat) (x : Deferred) : Prop :=
  (∃ i, InStore s i d x ∧ SettledBy M s (.stored i) d) ∨
    InMap M s d x ∧ SettledBy M s .stop d ∧
      ∀ i, Verifying M s i x → ∃ t o, s.step M (.hashed i) = some (t, o) ∧ InStore t i d x ∧
        SettledBy M t (.stored i) d

theorem settle_ne_pending (x : Deferred) {st : Settlement} (hst : st ≠ .pending) :
    (x.settle st).settlement ≠ .pending := by
  rw [Deferred.settle_settlement]
  split_ifs with h
  · exact hst
  · exact h

theorem InStore.settledBy {i d : Nat} {x : Deferred} (h : InStore s i d x)
    (hx : s.deferreds[d]? = some x) : SettledBy M s (.stored i) d := by
  obtain ⟨cid, data, hi⟩ := h
  obtain ⟨h, hh, hstores⟩ := Option.bind_eq_some_iff.mp hi
  obtain ⟨peer, wantBlocks, phase⟩ := h
  cases phase with
  | storing cid' data' pending rest =>
    cases hstores
    refine ⟨_, _, x.settle (.resolved data), by simp only [State.step, hh]; rfl, ?_, ?_⟩
    · simp [getElem?_settle, hx]
    · exact settle_ne_pending x (by simp)
  | hashing _ _ => cases hstores
  | finished => cases hstores

theorem InMap.settledBy {d : Nat} {x : Deferred} (h : InMap M s d x)
    (hx : s.deferreds[d]? = some x) : SettledBy M s .stop d := by
  refine ⟨_, _, x.settle (.rejected .stopped), rfl, ?_, settle_ne_pending x (by simp)⟩
  have hmem := List.mem_reverse.mpr (AList.mem_lookup_iff.mp h)
  have hd := List.mem_map_of_mem (f := fun e : Sigma fun _ : String => PendingWant => e.2.deferred)
    hmem
  simp only [getElem?_settleAll, hx, Option.map_some, if_pos hd]

theorem InMap.take {d i : Nat} {x : Deferred} (h : InMap M s d x) (hx : s.deferreds[d]? = some x)
    (hv : Verifying M s i x) : ∃ t o, s.step M (.hashed i) = some (t, o) ∧ InStore t i d x ∧
      t.deferreds[d]? = some x := by
  obtain ⟨⟨peer, wantBlocks, phase⟩, block, rest, cid, hi, rfl, hcid, hkey⟩ := hv
  refine ⟨_, _, by simp only [State.step, hi]; rfl, ?_⟩
  rw [InMap, ← hkey] at h
  simp only [hcid, h]
  exact ⟨⟨cid, block.data, (stores_set s hi i).trans (if_pos rfl)⟩, hx⟩

theorem recoverable_iff {d : Nat} {x : Deferred} (hx : s.deferreds[d]? = some x) :
    Recoverable M s d x ↔ InMap M s d x ∨ ∃ i, InStore s i d x := by
  constructor
  · rintro (⟨i, hi, -⟩ | ⟨hm, -⟩)
    · exact Or.inr ⟨i, hi⟩
    · exact Or.inl hm
  · rintro (hm | ⟨i, hi⟩)
    · refine Or.inr ⟨hm, hm.settledBy hx, fun i hv => ?_⟩
      obtain ⟨t, o, hstep, hi, hx'⟩ := hm.take hx hv
      exact ⟨t, o, hstep, hi, hi.settledBy hx'⟩
    · exact Or.inl ⟨i, hi, hi.settledBy hx⟩

def AllRecoverable (M : Multiformats) (s : State) : Prop :=
  ∀ (d : Nat) x, s.deferreds[d]? = some x → x.settlement = .pending → Recoverable M s d x

theorem allRecoverable_iff : AllRecoverable M s ↔ NoWantLost M s := by
  refine forall_congr' fun d => forall_congr' fun x => ?_
  constructor
  · exact fun h hx hp => (recoverable_iff hx).mp (h hx hp)
  · exact fun h hx hp => (recoverable_iff hx).mpr (h hx hp)

/-- No want is lost in any state of a run exactly when the signals are aborted only while
the wants under their keys are their own. -/
theorem run_abortsOwn_iff {es : List Event} {out : List Effect} :
    (wants M).Run AbortsOwn es s out ↔
      (wants M).Run ((wants M).Into (AllRecoverable M)) es s out := by
  refine System.run_iff_into (I := Sound M) (fun _ _ _ h => sound_of_run h) ?_ ?_
  · intro d x hx
    simp [wants] at hx
  · intro s e t o hs hP hstep
    rw [allRecoverable_iff] at hP ⊢
    exact abortsOwn_iff hs hP (step_cases hstep)

def abortAfterServed : List Event :=
  [.want Multiformats.emptyRaw (some 0), .message "peer" emptyBlockMessage 9, .hashed 0,
    .stored 0, .want Multiformats.emptyRaw none, .abort 0]

open Multiformats in
/-- The second want is still waited for, and nothing is left that would settle it. -/
theorem not_allRecoverable_abortAfterServed : ∃ s out,
    (wants onEmptyBlock).Run System.any abortAfterServed s out ∧
      ¬ AllRecoverable onEmptyBlock s := by
  obtain ⟨s, out, hrun, hpending, hmap, hstores⟩ :=
    System.exists_run (T := wants onEmptyBlock) abortAfterServed
    (p := fun r => r.1.deferreds[1]? = some { cid := emptyRaw, signal := none } ∧
      r.1.pendingWants.lookup (cidText emptyRaw) = none ∧
      ∀ h ∈ r.1.handlers, h.stores = none) (by decide +kernel)
  refine ⟨s, out, hrun, fun h => ?_⟩
  rcases (recoverable_iff hpending).mp (h 1 _ hpending rfl) with hm | ⟨i, cid, data, hi⟩
  · exact absurd (hmap.symm.trans hm) (by simp)
  · obtain ⟨h, hh, hs⟩ := Option.bind_eq_some_iff.mp hi
    rw [hstores h (List.mem_of_getElem? hh)] at hs
    cases hs

end IpfsShard.Bitswap
