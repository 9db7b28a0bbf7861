import IpfsShard.Cid
import IpfsShard.Lib.Runs
import IpfsShard.Lib.Table

/-! `LRUBlockstore` over a store that is a map from CIDs to bytes, run side by side with the
same store without a cache. Of `lru-cache` only this is used: any entry may be gone at any
time, `set` drops values that are too large, and it throws for a size that is not positive. -/

namespace IpfsShard.Blockstore
open Runs Table

inductive Operation where
  | put (cid : CID) (val : Bytes)
  | get (cid : CID)
  | has (cid : CID)
  | delete (cid : CID)
  | putMany (blocks : List (CID × Bytes))
  | deleteMany (cids : List CID)
  deriving DecidableEq

inductive OpError where
  | notFound (cid : CID)
  | sizeCalculation
  deriving DecidableEq

inductive Value where
  | cid (cid : CID)
  | bytes (bytes : Bytes)
  | bool (held : Bool)
  deriving DecidableEq

/-- What a caller gets: the values that are returned or yielded, and the error if the
operation throws behind them. -/
structure Result where
  values : List Value
  error : Option OpError := none
  deriving DecidableEq

abbrev Blocks := AList fun _ : CID => Bytes

namespace Blocks

variable (store : Blocks) (cid : CID)

def get : List Bytes × Option OpError :=
  match store.lookup cid with
  | some val => ([val], none)
  | none => ([], some (.notFound cid))

def call : Operation → Blocks × Result
  | .put cid val => (store.insert cid val, { values := [.cid cid] })
  | .get cid => (store, ⟨(store.get cid).1.map .bytes, (store.get cid).2⟩)
  | .has cid => (store, { values := [.bool (decide (cid ∈ store))] })
  | .delete cid => (store.erase cid, { values := [] })
  | .putMany blocks => (insertAll store blocks, { values := blocks.map fun b => .cid b.1 })
  | .deleteMany cids => (eraseAll store cids, { values := cids.map .cid })

end Blocks

abbrev LRUCache := AList fun _ : String => Bytes

/-- `cache.set`; `none` where it throws. -/
def LRUCache.set (maxSize : Nat) (cache : LRUCache) (key : String) (val : Bytes) :
    Option LRUCache :=
  if val.length = 0 then none
  else if maxSize < val.length then some (cache.erase key)
  else some (cache.insert key val)

structure LRUBlockstore where
  cache : LRUCache
  innerStore : Blocks

namespace LRUBlockstore

variable (M : Multiformats) (maxSize : Nat) (s : LRUBlockstore) (cid : CID)

def put (val : Bytes) : LRUBlockstore × Result :=
  let innerStore := s.innerStore.insert cid val
  match s.cache.set maxSize (M.toString cid) val with
  | none => ({ s with innerStore }, ⟨[], some .sizeCalculation⟩)
  | some cache => (⟨cache, innerStore⟩, { values := [.cid cid] })

def fetch (key : String) (err : Option OpError) : LRUCache → List Bytes → LRUCache × Result
  | cache, [] => (cache, ⟨[], err⟩)
  | cache, chunk :: chunks =>
    match cache.set maxSize key chunk with
    | none => (cache, ⟨[], some .sizeCalculation⟩)
    | some cache =>
      let (cache, result) := fetch key err cache chunks
      (cache, { result with values := .bytes chunk :: result.values })

def get : LRUBlockstore × Result :=
  let key := M.toString cid
  match s.cache.lookup key with
  | some cached => (s, { values := [.bytes cached] })
  | none =>
    let (chunks, err) := s.innerStore.get cid
    let (cache, result) := fetch maxSize key err s.cache chunks
    ({ s with cache }, result)

def has : Bool := decide (M.toString cid ∈ s.cache) || decide (cid ∈ s.innerStore)

def delete : LRUBlockstore :=
  ⟨s.cache.erase (M.toString cid), s.innerStore.erase cid⟩

/-- From `BaseBlockstore`: each CID is deleted and yielded. -/
def deleteMany (cids : List CID) : LRUBlockstore := cids.foldl (delete M) s

def call : Operation → LRUBlockstore × Result
  | .put cid val => s.put M maxSize cid val
  | .get cid => s.get M maxSize cid
  | .has cid => (s, { values := [.bool (s.has M cid)] })
  | .delete cid => (s.delete M cid, { values := [] })
  -- past the cache
  | .putMany blocks => ({ s with innerStore := (s.innerStore.call (.putMany blocks)).1 },
      (s.innerStore.call (.putMany blocks)).2)
  | .deleteMany cids => (s.deleteMany M cids, { values := cids.map .cid })

def evict (key : String) : LRUBlockstore := { s with cache := s.cache.erase key }

end LRUBlockstore

/-- An eviction inside an operation is one right before or behind it: what it takes out is
not looked at again. -/
inductive CacheEvent where
  | evict (key : String)
  | call (op : Operation)

/-- The wrapper and the bare store. The outputs are their results. -/
def twins (M : Multiformats) (maxSizeMB : Nat) (store : Blocks) :
    System (LRUBlockstore × Blocks) CacheEvent (Result × Result) where
  init := (⟨∅, store⟩, store)
  step s
    | .evict key => some ((s.1.evict key, s.2), [])
    | .call op =>
      let (lru, cached) := s.1.call M (maxSizeMB * 1024 * 1024) op
      let (bare, result) := s.2.call op
      some ((lru, bare), [(cached, result)])

def CacheEvent.Carries (content : CID → Bytes) : CacheEvent → Prop
  | .call (.put cid val) => val = content cid
  | .call (.putMany blocks) => ∀ b ∈ blocks, b.2 = content b.1
  | _ => True

def NoEmptyBlock (s : LRUBlockstore × Blocks) : CacheEvent → Prop
  | .call (.put _ val) => val ≠ []
  | .call (.get cid) => s.2.lookup cid ≠ some []
  | _ => True

/-- The wrapper keeps a part of what the store holds, and no empty block. -/
structure Transparent (M : Multiformats) (content : CID → Bytes) (s : LRUBlockstore × Blocks) :
    Prop where
  inner : s.1.innerStore = s.2
  held : ∀ cid val, s.2.lookup cid = some val → val = content cid
  cached : ∀ cid val, s.1.cache.lookup (M.toString cid) = some val →
    val ≠ [] ∧ s.2.lookup cid = some val

variable {M : Multiformats} {maxSize : Nat} {cache : LRUCache} {key : String} {val : Bytes}

theorem set_eq_none_iff : cache.set maxSize key val = none ↔ val = [] := by
  unfold LRUCache.set
  split_ifs with h <;> simp_all

theorem lookup_of_set {cache' : LRUCache} (h : cache.set maxSize key val = some cache')
    {key' : String} {val' : Bytes} (hl : cache'.lookup key' = some val') :
    (key' = key ∧ val' = val ∧ val ≠ []) ∨ (key' ≠ key ∧ cache.lookup key' = some val') := by
  unfold LRUCache.set at h
  split_ifs at h with h0 hsize <;> obtain rfl := Option.some.inj h
  · exact Or.inr (lookup_erase_iff.mp hl)
  · rcases lookup_insert_iff.mp hl with ⟨hk, rfl⟩ | hold
    · exact Or.inl ⟨hk, rfl, by simpa using h0⟩
    · exact Or.inr hold

theorem Blocks.get_of_lookup {store : Blocks} {cid : CID} (h : store.lookup cid = some val) :
    store.get cid = ([val], none) := by
  rw [Blocks.get, h]

theorem Blocks.get_of_missing {store : Blocks} {cid : CID} (h : store.lookup cid = none) :
    store.get cid = ([], some (.notFound cid)) := by
  rw [Blocks.get, h]

namespace LRUBlockstore

variable {s : LRUBlockstore} {cid : CID}

theorem get_hit (h : s.cache.lookup (M.toString cid) = some val) :
    s.get M maxSize cid = (s, { values := [.bytes val] }) := by
  rw [get, h]

theorem get_miss (h : s.cache.lookup (M.toString cid) = none) :
    s.get M maxSize cid =
      ({ s with cache := (fetch maxSize (M.toString cid) (s.innerStore.get cid).2 s.cache
          (s.innerStore.get cid).1).1 },
        (fetch maxSize (M.toString cid) (s.innerStore.get cid).2 s.cache
          (s.innerStore.get cid).1).2) := by
  rw [get, h]

end LRUBlockstore

namespace Transparent

variable {content : CID → Bytes} {s : LRUBlockstore × Blocks} {cid : CID}

theorem evict (h : Transparent M content s) (key : String) :
    Transparent M content (s.1.evict key, s.2) where
  inner := h.inner
  held := h.held
  cached cid val hl := h.cached cid val (lookup_erase_iff.mp hl).2

theorem insertAll (h : Transparent M content s) {blocks : List (CID × Bytes)}
    (hb : ∀ b ∈ blocks, b.2 = content b.1) :
    Transparent M content
      ({ s.1 with innerStore := Table.insertAll s.2 blocks }, Table.insertAll s.2 blocks) where
  inner := rfl
  held cid val hl := by
    rcases lookup_of_insertAll hl with hmem | hold
    · exact hb _ hmem
    · exact h.held cid val hold
  cached cid val hl := by
    obtain ⟨hne, hheld⟩ := h.cached cid val hl
    refine ⟨hne, lookup_insertAll ?_ hheld⟩
    rintro b hmem rfl
    rw [hb b hmem, h.held _ _ hheld]

theorem set (h : Transparent M content s) (hinj : Function.Injective M.toString)
    (hheld : s.2.lookup cid = some val) {cache : LRUCache}
    (hset : s.1.cache.set maxSize (M.toString cid) val = some cache) :
    Transparent M content ({ s.1 with cache }, s.2) where
  inner := h.inner
  held := h.held
  cached cid' val' hl := by
    rcases lookup_of_set hset hl with ⟨hkey, rfl, hne⟩ | ⟨-, hold⟩
    · rw [hinj hkey]
      exact ⟨hne, hheld⟩
    · exact h.cached cid' val' hold

theorem delete (h : Transparent M content s) (cid : CID) :
    Transparent M content (s.1.delete M cid, s.2.erase cid) where
  inner := by rw [LRUBlockstore.delete, h.inner]
  held cid' val hl := h.held cid' val (lookup_erase_iff.mp hl).2
  cached cid' val hl := by
    obtain ⟨hkey, hold⟩ := lookup_erase_iff.mp hl
    obtain ⟨hne, hheld⟩ := h.cached cid' val hold
    exact ⟨hne, lookup_erase_iff.mpr ⟨fun hcid => hkey (hcid ▸ rfl), hheld⟩⟩

theorem deleteMany (h : Transparent M content s) (cids : List CID) :
    Transparent M content (s.1.deleteMany M cids, eraseAll s.2 cids) := by
  induction cids generalizing s with
  | nil => exact h
  | cons cid cids ih => exact ih (h.delete cid)

theorem has_eq (h : Transparent M content s) (cid : CID) :
    s.1.has M cid = decide (cid ∈ s.2) := by
  have hcached : M.toString cid ∈ s.1.cache → cid ∈ s.2 := by
    intro hkey
    obtain ⟨val, hval⟩ := mem_iff_lookup.mp hkey
    exact mem_iff_lookup.mpr ⟨val, (h.cached cid val hval).2⟩
  rw [LRUBlockstore.has, h.inner, Bool.eq_iff_iff]
  simpa using hcached

theorem put (h : Transparent M content s) (hinj : Function.Injective M.toString)
    (hval : val = content cid) :
    Transparent M content ((s.1.put M maxSize cid val).1, s.2.insert cid val) ∧
      (val ≠ [] ↔ (s.1.put M maxSize cid val).2 = { values := [.cid cid] }) := by
  have hstored := h.insertAll
    (show ∀ b ∈ [(cid, val)], b.2 = content b.1 by simpa using hval)
  have hheld : (s.2.insert cid val).lookup cid = some val := AList.lookup_insert _
  rw [LRUBlockstore.put, h.inner]
  cases hset : s.1.cache.set maxSize (M.toString cid) val with
  | none => exact ⟨hstored, iff_of_false (fun hne => hne (set_eq_none_iff.mp hset)) (by simp)⟩
  | some cache =>
    have hne : val ≠ [] := fun hnil => by simp [set_eq_none_iff.mpr hnil] at hset
    exact ⟨hstored.set hinj hheld hset, iff_of_true hne rfl⟩

theorem get (h : Transparent M content s) (hinj : Function.Injective M.toString) (cid : CID) :
    Transparent M content ((s.1.get M maxSize cid).1, s.2) ∧
      (s.2.lookup cid ≠ some [] ↔
        (s.1.get M maxSize cid).2 = ⟨(s.2.get cid).1.map .bytes, (s.2.get cid).2⟩) := by
  cases hcached : s.1.cache.lookup (M.toString cid) with
  | some cached =>
    obtain ⟨hne, hheld⟩ := h.cached cid cached hcached
    rw [LRUBlockstore.get_hit hcached, Blocks.get_of_lookup hheld, hheld]
    exact ⟨h, iff_of_true (by simpa using hne) rfl⟩
  | none =>
    have hget : s.1.innerStore.get cid = s.2.get cid := by rw [h.inner]
    rw [LRUBlockstore.get_miss hcached, hget]
    cases hheld : s.2.lookup cid with
    | none =>
      rw [Blocks.get_of_missing hheld]
      exact ⟨h, iff_of_true (by simp) rfl⟩
    | some val =>
      rw [Blocks.get_of_lookup hheld]
      cases hset : s.1.cache.set maxSize (M.toString cid) val with
      | none =>
        simp only [LRUBlockstore.fetch, hset]
        exact ⟨h, iff_of_false (by simp [set_eq_none_iff.mp hset]) (by simp)⟩
      | some cache =>
        have hne : val ≠ [] := fun hnil => by simp [set_eq_none_iff.mpr hnil] at hset
        simp only [LRUBlockstore.fetch, hset]
        exact ⟨h.set hinj hheld hset, iff_of_true (by simpa using hne) rfl⟩

theorem call (h : Transparent M content s) (maxSize : Nat)
    (hinj : Function.Injective M.toString) {op : Operation}
    (hop : (CacheEvent.call op).Carries content) :
    Transparent M content ((s.1.call M maxSize op).1, (s.2.call op).1) ∧
      (NoEmptyBlock s (.call op) ↔ (s.1.call M maxSize op).2 = (s.2.call op).2) := by
  cases op with
  | put cid val => exact h.put hinj hop
  | get cid => exact h.get hinj cid
  | has cid =>
    refine ⟨h, iff_of_true trivial ?_⟩
    simp only [LRUBlockstore.call, Blocks.call, h.has_eq]
  | delete cid => exact ⟨h.delete cid, iff_of_true trivial rfl⟩
  | putMany blocks =>
    refine ⟨?_, iff_of_true trivial ?_⟩
    · rw [LRUBlockstore.call, h.inner]
      exact h.insertAll hop
    · rw [LRUBlockstore.call, h.inner]
  | deleteMany cids => exact ⟨h.deleteMany cids, iff_of_true trivial rfl⟩

end Transparent

variable {maxSizeMB : Nat} {store : Blocks} {content : CID → Bytes}
  {es : List CacheEvent} {s : LRUBlockstore × Blocks} {out : List (Result × Result)}

/-- In every run the wrapper answers like the bare store exactly if no empty block is put
and none that is held is asked for. -/
theorem results_eq_iff (hinj : Function.Injective M.toString)
    (hstore : ∀ cid val, store.lookup cid = some val → val = content cid)
    (hes : ∀ e ∈ es, e.Carries content) (hrun : (twins M maxSizeMB store).Run System.any es s out) :
    (∀ r ∈ out, r.1 = r.2) ↔ (twins M maxSizeMB store).Run NoEmptyBlock es s out := by
  have hinit : Transparent M content (twins M maxSizeMB store).init :=
    ⟨rfl, hstore, fun cid val hl => by simp [twins] at hl⟩
  refine (hrun.outputs_iff hinit ?_ hes).symm
  intro s e t o h he hstep
  cases e with
  | evict key =>
    cases hstep
    exact ⟨h.evict key, iff_of_true trivial (by simp)⟩
  | call op =>
    cases hstep
    obtain ⟨hnext, hiff⟩ := h.call (maxSizeMB * 1024 * 1024) hinj he
    refine ⟨hnext, hiff.trans ⟨fun hr r hmem => ?_, fun hr => hr _ (List.mem_singleton_self _)⟩⟩
    rw [List.mem_singleton.mp hmem]
    exact hr

open Multiformats

def pastTheCache : List CacheEvent :=
  [.call (.putMany [(emptyRaw, [])]), .call (.has emptyRaw), .evict (cidText emptyRaw),
    .call (.deleteMany [emptyRaw]), .call (.get emptyRaw)]

theorem results_eq_pastTheCache : ∃ s out, (∀ r ∈ out, r.1 = r.2) ∧
    (twins onEmptyBlock 64 ∅).Run NoEmptyBlock pastTheCache s out := by
  obtain ⟨s, out, hrun, heq⟩ := System.exists_run (T := twins onEmptyBlock 64 ∅) pastTheCache
    (p := fun r => ∀ x ∈ r.2, x.1 = x.2) (by decide +kernel)
  exact ⟨s, out, heq, (@results_eq_iff _ 64 ∅ (fun _ => []) pastTheCache s out
    cidText_injective (by simp) (by simp [pastTheCache, CacheEvent.Carries]) hrun).mp heq⟩

/-- The empty block cannot be put, and once it is stored it cannot be read, although the
store below does both. -/
theorem results_ne_emptyBlock : ∃ s out,
    (twins onEmptyBlock 64 ∅).Run System.any
      [.call (.put emptyRaw []), .call (.get emptyRaw)] s out ∧
    (∀ e ∈ [CacheEvent.call (.put emptyRaw []), .call (.get emptyRaw)],
      e.Carries fun _ => []) ∧
    out = [(⟨[], some .sizeCalculation⟩, ⟨[.cid emptyRaw], none⟩),
      (⟨[], some .sizeCalculation⟩, ⟨[.bytes []], none⟩)] ∧
    ¬ ∀ r ∈ out, r.1 = r.2 := by
  obtain ⟨s, out, hrun, hout⟩ := System.exists_run (T := twins onEmptyBlock 64 ∅)
    [.call (.put emptyRaw []), .call (.get emptyRaw)]
    (p := fun r => r.2 = [(⟨[], some .sizeCalculation⟩, ⟨[.cid emptyRaw], none⟩),
      (⟨[], some .sizeCalculation⟩, ⟨[.bytes []], none⟩)]) (by decide +kernel)
  refine ⟨s, out, hrun, by simp [CacheEvent.Carries], hout, ?_⟩
  rw [show out = _ from hout]
  decide

end IpfsShard.Blockstore
