import IpfsShard.Bitswap.Steps
import IpfsShard.Lib.Calls

/-! The invariant of the wants. -/

namespace IpfsShard.Bitswap
open Codec Runs Calls

def State.origin (s : State) (d : Nat) : Option (CID × Option Nat) :=
  s.deferreds[d]?.map fun x => (x.cid, x.signal)

/-- A want under a key of the map is pending and made for a CID with this key; a want that a
handler stores a block for is out of the map, with no other handler, and not resolved; the
listeners of the signals are those of the deferreds; callers share a deferred only under
one key; and what a deferred was resolved with is the data of its key. -/
structure Sound (M : Multiformats) (s : State) : Prop where
  entry : ∀ key p, s.pendingWants.lookup key = some p → key = M.toString p.cid ∧
    ∃ signal, s.deferreds[p.deferred]? = some ⟨p.cid, signal, .pending⟩
  stores : ∀ i cid data p, s.stores i = some (cid, data, p) →
    cid.multihash = M.sha256 data ∧ M.toString cid = M.toString p.cid ∧
    ∃ x, s.deferreds[p.deferred]? = some x ∧ x.cid = p.cid ∧ ∀ d, x.settlement ≠ .resolved d
  apart : ∀ i cid data p, s.stores i = some (cid, data, p) →
    ∀ key q, s.pendingWants.lookup key = some q → q.deferred ≠ p.deferred
  once : ∀ i j cid cid' data data' p q, s.stores i = some (cid, data, p) →
    s.stores j = some (cid', data', q) → p.deferred = q.deferred → i = j
  listener : ∀ l, l ∈ s.listeners ↔
    ∃ cid, s.origin l.deferred = some (cid, some l.signal) ∧ l.key = M.toString cid
  call : ∀ c ∈ s.calls, ∃ cid signal, s.origin c.deferred = some (cid, signal) ∧
    M.toString cid = M.toString c.cid
  resolved : ∀ (d : Nat) x data, s.deferreds[d]? = some x → x.settlement = .resolved data →
    ∃ cid, M.toString cid = M.toString x.cid ∧ cid.multihash = M.sha256 data

variable {M : Multiformats} {s t : State} {e : Event} {o : List Effect}

theorem sound_init : Sound M {} where
  entry := by simp
  stores := by simp [State.stores]
  apart := by simp
  once := by simp [State.stores]
  listener := by simp [State.origin]
  call := by simp
  resolved := by simp

theorem origin_create {ds : List Deferred} {x : Deferred} {d : Nat} {r : CID × Option Nat} :
    ((ds ++ [x])[d]?.map fun x => (x.cid, x.signal)) = some r ↔
      (ds[d]?.map fun x => (x.cid, x.signal)) = some r ∨
        d = ds.length ∧ (x.cid, x.signal) = r := by
  simp only [Option.map_eq_some_iff, getElem?_concat]
  constructor
  · rintro ⟨y, hy | ⟨rfl, rfl⟩, hr⟩
    · exact Or.inl ⟨y, hy, hr⟩
    · exact Or.inr ⟨rfl, hr⟩
  · rintro (⟨y, hy, hr⟩ | ⟨rfl, hr⟩)
    · exact ⟨y, Or.inl hy, hr⟩
    · exact ⟨x, Or.inr ⟨rfl, rfl⟩, hr⟩

theorem origin_settleAll (wants : List Nat) (st : Settlement) (ds : List Deferred) (d : Nat) :
    ((wants.foldl (settle · · st) ds)[d]?.map fun x => (x.cid, x.signal)) =
      ds[d]?.map fun x => (x.cid, x.signal) := by
  rw [getElem?_settleAll, Option.map_map]
  congr 1
  funext x
  simp only [Function.comp_apply]
  split_ifs <;> simp

theorem origin_settle (ds : List Deferred) (i : Nat) (st : Settlement) (d : Nat) :
    ((settle ds i st)[d]?.map fun x => (x.cid, x.signal)) =
      ds[d]?.map fun x => (x.cid, x.signal) := origin_settleAll [i] st ds d

namespace Sound

theorem key_unique (h : Sound M s) {key key' : String} {p q : PendingWant}
    (hp : s.pendingWants.lookup key = some p) (hq : s.pendingWants.lookup key' = some q)
    (hd : p.deferred = q.deferred) : key = key' := by
  obtain ⟨hkey, _, hx⟩ := h.entry key p hp
  obtain ⟨hkey', _, hy⟩ := h.entry key' q hq
  rw [hd, hy, Option.some.injEq, Deferred.mk.injEq] at hx
  rw [hkey, hkey', hx.1]

theorem pass (h : Sound M s) {handlers : List Handler}
    (hs : ∀ i, ({ s with handlers } : State).stores i = s.stores i) :
    Sound M { s with handlers } where
  entry := h.entry
  stores i := by simpa only [hs] using h.stores i
  apart i := by simpa only [hs] using h.apart i
  once i j := by simpa only [hs] using h.once i j
  listener := h.listener
  call := h.call
  resolved := h.resolved

theorem join (h : Sound M s) {cid : CID} {signal : Option Nat} {existing : PendingWant}
    (he : s.pendingWants.lookup (M.toString cid) = some existing) :
    Sound M { s with calls := s.calls ++ [⟨cid, signal, existing.deferred⟩] } where
  entry := h.entry
  stores := h.stores
  apart := h.apart
  once := h.once
  listener := h.listener
  call c hc := by
    rcases List.mem_append.mp hc with hc | hc
    · exact h.call c hc
    · obtain rfl := List.mem_singleton.mp hc
      obtain ⟨hkey, signal, hx⟩ := h.entry _ _ he
      exact ⟨existing.cid, signal, by simp [State.origin, hx], hkey.symm⟩
  resolved := h.resolved

theorem create (h : Sound M s) {cid : CID} {signal : Option Nat} :
    Sound M { s with
      pendingWants := s.pendingWants.insert (M.toString cid) ⟨s.deferreds.length, cid⟩
      deferreds := s.deferreds ++ [{ cid, signal }]
      listeners := s.listeners ++ signal.toList.map (⟨·, M.toString cid, s.deferreds.length⟩)
      calls := s.calls ++ [⟨cid, signal, s.deferreds.length⟩] } where
  entry key p hp := by
    by_cases hk : key = M.toString cid
    · subst hk
      rw [AList.lookup_insert, Option.some.injEq] at hp
      subst hp
      exact ⟨rfl, signal, by simp⟩
    · rw [AList.lookup_insert_ne hk] at hp
      obtain ⟨hkey, signal', hx⟩ := h.entry key p hp
      exact ⟨hkey, signal', getElem?_concat.mpr (Or.inl hx)⟩
  stores i c data p hp := by
    obtain ⟨hhash, hkey, x, hx, hrest⟩ := h.stores i c data p hp
    exact ⟨hhash, hkey, x, getElem?_concat.mpr (Or.inl hx), hrest⟩
  apart i c data p hp key q hq := by
    by_cases hk : key = M.toString cid
    · subst hk
      rw [AList.lookup_insert, Option.some.injEq] at hq
      subst hq
      obtain ⟨-, -, x, hx, -⟩ := h.stores i c data p hp
      obtain ⟨hlt, -⟩ := List.getElem?_eq_some_iff.mp hx
      exact Nat.ne_of_gt hlt
    · rw [AList.lookup_insert_ne hk] at hq
      exact h.apart i c data p hp key q hq
  once := h.once
  listener l := by
    simp only [List.mem_append, List.mem_map, Option.mem_toList, h.listener l, State.origin,
      origin_create, Prod.mk.injEq]
    constructor
    · rintro (⟨c, hc, hkey⟩ | ⟨sig, hsig, rfl⟩)
      · exact ⟨c, Or.inl hc, hkey⟩
      · exact ⟨cid, Or.inr ⟨rfl, rfl, hsig⟩, rfl⟩
    · rintro ⟨c, hc | ⟨hd, rfl, hsig⟩, hkey⟩
      · exact Or.inl ⟨c, hc, hkey⟩
      · exact Or.inr ⟨l.signal, hsig, by rw [← hd, ← hkey]⟩
  call c hc := by
    simp only [State.origin, origin_create]
    rcases List.mem_append.mp hc with hc | hc
    · obtain ⟨c', sig, hx, hkey⟩ := h.call c hc
      exact ⟨c', sig, Or.inl hx, hkey⟩
    · obtain rfl := List.mem_singleton.mp hc
      exact ⟨cid, signal, Or.inr ⟨rfl, rfl⟩, rfl⟩
  resolved d x data hx hr := by
    rcases getElem?_concat.mp hx with hx | ⟨-, rfl⟩
    · exact h.resolved d x data hx hr
    · cases hr

theorem take (h : Sound M s) {i : Nat} {handlers : List Handler} {cid : CID} {block : Block}
    {pending : PendingWant} (hcid : prefixToCID M block.cidPrefix block.data = some cid)
    (hp : s.pendingWants.lookup (M.toString cid) = some pending)
    (hs : ∀ j, ({ s with handlers } : State).stores j =
      if i = j then some (cid, block.data, pending) else s.stores j) :
    Sound M { s with pendingWants := s.pendingWants.erase (M.toString cid), handlers } := by
  obtain ⟨hkey, signal, hx⟩ := h.entry _ _ hp
  constructor
  case entry =>
    intro key q hq
    exact h.entry key q (Table.lookup_erase_iff.mp hq).2
  case stores =>
    intro j c data p hj
    replace hj := (hs j).symm.trans hj
    split_ifs at hj with hij
    · cases hj
      refine ⟨(M.builtFrom_iff _ _).mp (prefixToCID_builtFrom hcid), hkey, _, hx, rfl, ?_⟩
      simp
    · exact h.stores j c data p hj
  case apart =>
    intro j c data p hj key q hq
    obtain ⟨hne, hq⟩ := Table.lookup_erase_iff.mp hq
    replace hj := (hs j).symm.trans hj
    split_ifs at hj with hij
    · cases hj
      exact fun hd => hne (h.key_unique hq hp hd)
    · exact h.apart j c data p hj key q hq
  case once =>
    intro j k c c' data data' p q hj hk hd
    replace hj := (hs j).symm.trans hj
    replace hk := (hs k).symm.trans hk
    split_ifs at hj hk with hij hik hik
    · rw [← hij, ← hik]
    · cases hj
      exact absurd hd (h.apart k c' data' q hk _ _ hp)
    · cases hk
      exact absurd hd.symm (h.apart j c data p hj _ _ hp)
    · exact h.once j k c c' data data' p q hj hk hd
  case listener => exact h.listener
  case call => exact h.call
  case resolved => exact h.resolved

theorem release (h : Sound M s) {i : Nat} {handlers : List Handler} {cid : CID} {data : Bytes}
    {pending : PendingWant} (hi : s.stores i = some (cid, data, pending))
    (hs : ∀ j, ({ s with handlers } : State).stores j = if i = j then none else s.stores j) :
    Sound M { s with
      deferreds := settle s.deferreds pending.deferred (.resolved data)
      handlers } := by
  have hkeep : ∀ d : Nat, d ≠ pending.deferred →
      (settle s.deferreds pending.deferred (.resolved data))[d]? = s.deferreds[d]? := by
    intro d hd
    simp [getElem?_settle, Ne.symm hd]
  constructor
  case entry =>
    intro key q hq
    obtain ⟨hkey, signal, hx⟩ := h.entry key q hq
    exact ⟨hkey, signal, by rw [hkeep _ (h.apart i cid data pending hi key q hq), hx]⟩
  case stores =>
    intro j c data' p hj
    obtain ⟨hij, hj⟩ := stores_of_released hs hj
    obtain ⟨hhash, hkey, x, hx, hrest⟩ := h.stores j c data' p hj
    -- two handlers never store for one want
    have hd : p.deferred ≠ pending.deferred := by
      intro hd
      exact hij (h.once i j cid c data data' pending p hi hj hd.symm)
    exact ⟨hhash, hkey, x, by rw [hkeep _ hd, hx], hrest⟩
  case apart =>
    intro j c data' p hj
    exact h.apart j c data' p (stores_of_released hs hj).2
  case once =>
    intro j k c c' data' data'' p q hj hk
    exact h.once j k c c' data' data'' p q (stores_of_released hs hj).2 (stores_of_released hs hk).2
  case listener =>
    intro l
    simp only [State.origin, origin_settle]
    exact h.listener l
  case call =>
    intro c hc
    simp only [State.origin, origin_settle]
    exact h.call c hc
  case resolved =>
    intro d x data' hx hr
    by_cases hd : d = pending.deferred
    · subst hd
      obtain ⟨hhash, hkey, y, hy, hcid, hnot⟩ := h.stores i cid data pending hi
      simp only [getElem?_settle, hy, Option.map_some, if_true, Option.some.injEq] at hx
      subst hx
      rw [Deferred.settle_settlement] at hr
      split_ifs at hr
      · cases hr
        exact ⟨cid, by rw [Deferred.settle_cid, hcid, hkey], hhash⟩
      · exact absurd hr (hnot data')
    · rw [hkeep d hd] at hx
      exact h.resolved d x data' hx hr

theorem reject (h : Sound M s) {pendingWants : AList (fun _ : String => PendingWant)}
    {wants : List Nat} {err : WantError} (aborted : List Nat)
    (hp : ∀ key p, pendingWants.lookup key = some p →
      s.pendingWants.lookup key = some p ∧ p.deferred ∉ wants) :
    Sound M { s with
      pendingWants
      deferreds := wants.foldl (settle · · (.rejected err)) s.deferreds
      aborted } := by
  constructor
  case entry =>
    intro key p hq
    obtain ⟨hq, hnot⟩ := hp key p hq
    obtain ⟨hkey, signal, hx⟩ := h.entry key p hq
    exact ⟨hkey, signal, by simp [getElem?_settleAll, hx, hnot]⟩
  case stores =>
    intro i cid data p hi
    obtain ⟨hhash, hkey, x, hx, hcid, hnot⟩ := h.stores i cid data p hi
    refine ⟨hhash, hkey, _, by rw [getElem?_settleAll, hx]; rfl, ?_, ?_⟩
    · split_ifs <;> simp [hcid]
    · intro d
      split_ifs
      · rw [Deferred.settle_settlement]
        split_ifs
        · simp
        · exact hnot d
      · exact hnot d
  case apart =>
    intro i cid data p hi key q hq
    exact h.apart i cid data p hi key q (hp key q hq).1
  case listener =>
    intro l
    simp only [State.origin, origin_settleAll]
    exact h.listener l
  case call =>
    intro c hc
    simp only [State.origin, origin_settleAll]
    exact h.call c hc
  case resolved =>
    intro d x data hx hr
    rw [getElem?_settleAll] at hx
    obtain ⟨y, hy, rfl⟩ := Option.map_eq_some_iff.mp hx
    have hcid : (if d ∈ wants then y.settle (.rejected err) else y).cid = y.cid := by
      split_ifs <;> simp
    rw [hcid]
    refine h.resolved d y data hy ?_
    split_ifs at hr
    · rw [Deferred.settle_settlement] at hr
      split_ifs at hr
      exact hr
    · exact hr
  case once => exact h.once

theorem fired_lookup (h : Sound M s) {signal : Nat} {key : String} {p : PendingWant}
    (hp : (Table.eraseAll s.pendingWants ((s.fired signal).map (·.key))).lookup key = some p) :
    s.pendingWants.lookup key = some p ∧ p.deferred ∉ (s.fired signal).map (·.deferred) := by
  obtain ⟨hk, hp⟩ := Table.lookup_eraseAll_iff.mp hp
  refine ⟨hp, fun hd => hk ?_⟩
  obtain ⟨l, hl, hld⟩ := List.mem_map.mp hd
  obtain ⟨cid, hx, hkey⟩ := (h.listener l).mp (List.mem_filter.mp hl).1
  obtain ⟨hkey', signal', hy⟩ := h.entry key p hp
  rw [State.origin, hld, hy, Option.map_some, Option.some.injEq, Prod.mk.injEq] at hx
  obtain ⟨rfl, -⟩ := hx
  exact List.mem_map.mpr ⟨l, hl, by rw [hkey, hkey']⟩

theorem step (h : Sound M s) (hs : Step M s e t o) : Sound M t := by
  cases hs with
  | join he => exact h.join he
  | create _ => exact h.create
  | abort _ =>
    rw [abort_eq]
    exact h.reject _ fun _ _ hp => h.fired_lookup hp
  | pass hs _ _ _ _ _ => exact h.pass hs
  | take hcid hp _ hs => exact h.take hcid hp hs
  | release hi hs _ _ => exact h.release hi hs
  | stop => exact h.reject s.aborted (by simp)

end Sound

theorem mem_fired (hs : Sound M s) {signal d : Nat} {cid : CID}
    (h : s.origin d = some (cid, some signal)) :
    ∃ l ∈ s.fired signal, l.deferred = d ∧ l.key = M.toString cid := by
  refine ⟨⟨signal, M.toString cid, d⟩, List.mem_filter.mpr ⟨?_, by simp⟩, rfl, rfl⟩
  exact (hs.listener _).mpr ⟨cid, h, rfl⟩

theorem origin_of_mem_fired (hs : Sound M s) {signal d : Nat}
    (h : d ∈ (s.fired signal).map (·.deferred)) : ∃ cid, s.origin d = some (cid, some signal) := by
  obtain ⟨l, hl, rfl⟩ := List.mem_map.mp h
  obtain ⟨hmem, hsig⟩ := List.mem_filter.mp hl
  obtain ⟨cid, hx, -⟩ := (hs.listener l).mp hmem
  exact ⟨cid, by rw [hx, of_decide_eq_true hsig]⟩

theorem sound_of_run {ok : State → Event → Prop} {es : List Event} {out : List Effect}
    (h : (wants M).Run ok es s out) : Sound M s :=
  h.invariant (I := fun s _ => Sound M s) sound_init
    fun _ _ _ _ _ hs _ hstep => hs.step (step_cases hstep)

end IpfsShard.Bitswap
