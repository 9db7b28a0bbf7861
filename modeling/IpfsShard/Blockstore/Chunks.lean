import IpfsShard.Blockstore.Cache
import IpfsShard.Lib.Calls

/-! Reads through `LRUBlockstore` of a store that gives its blocks in chunks, any number of them
in flight. Each chunk takes the place of the one before it in the cache. -/

namespace IpfsShard.Blockstore.Chunks
open Runs Table Calls

structure InnerStore where
  get : CID → List Bytes
  get_ne_nil : ∀ cid, get cid ≠ []
  chunk_ne_nil : ∀ cid, ∀ chunk ∈ get cid, chunk ≠ []

/-- A read of the inner store: the chunks that are still to come, and those that went on to the
caller. -/
structure Read where
  cid : CID
  chunks : List Bytes
  yielded : List Bytes := []
  ended : Bool := false
  deriving DecidableEq

structure State where
  cache : LRUCache := ∅
  reads : List Read := []
  deriving DecidableEq

inductive Event where
  | get (cid : CID)
  | next (read : Nat)
  | evict (key : String)
  deriving DecidableEq

structure Answer where
  cid : CID
  chunks : List Bytes
  error : Option OpError := none
  deriving DecidableEq

namespace State

variable (M : Multiformats) (maxSize : Nat) (inner : InnerStore) (s : State)

def get (cid : CID) : State × List Answer :=
  match s.cache.lookup (M.toString cid) with
  | some cached => (s, [{ cid, chunks := [cached] }])
  | none => ({ s with reads := s.reads ++ [{ cid, chunks := inner.get cid }] }, [])

def next (i : Nat) (r : Read) : Option (State × List Answer) :=
  if r.ended then none
  else
    let ended := s.reads.modify i fun r => { r with ended := true }
    match r.chunks with
    | [] => some ({ s with reads := ended }, [{ cid := r.cid, chunks := r.yielded }])
    | chunk :: chunks =>
      match s.cache.set maxSize (M.toString r.cid) chunk with
      | none => some ({ s with reads := ended }, [⟨r.cid, r.yielded, some .sizeCalculation⟩])
      | some cache =>
        let yielded := r.yielded ++ [chunk]
        some (⟨cache, s.reads.modify i fun r => { r with chunks, yielded }⟩, [])

def step : Event → Option (State × List Answer)
  | .get cid => some (s.get M inner cid)
  | .next i => s.reads[i]?.bind (s.next M maxSize i)
  | .evict key => some ({ s with cache := s.cache.erase key }, [])

end State

def reads (M : Multiformats) (maxSizeMB : Nat) (inner : InnerStore) :
    System State Event Answer where
  init := {}
  step s := s.step M (maxSizeMB * 1024 * 1024) inner

def Answer.Whole (inner : InnerStore) (a : Answer) : Prop :=
  a.error = none ∧ a.chunks.flatten = (inner.get a.cid).flatten

/-- A block of several chunks is only asked for while none of them is cached. -/
def Misses (M : Multiformats) (inner : InnerStore) (s : State) : Event → Prop
  | .get cid => M.toString cid ∉ s.cache ∨ (inner.get cid).length = 1
  | _ => True

structure Partial (M : Multiformats) (inner : InnerStore) (s : State) : Prop where
  cached : ∀ cid val, s.cache.lookup (M.toString cid) = some val → val ∈ inner.get cid
  reading : ∀ (i : Nat) (r : Read), s.reads[i]? = some r → r.yielded ++ r.chunks = inner.get r.cid

variable {M : Multiformats} {maxSize : Nat} {inner : InnerStore} {s : State}

theorem chunk_eq_flatten_iff {chunks : List Bytes} {chunk : Bytes} (hmem : chunk ∈ chunks)
    (hne : ∀ c ∈ chunks, c ≠ []) : chunk = chunks.flatten ↔ chunks.length = 1 := by
  constructor
  · intro heq
    obtain ⟨before, after, rfl⟩ := List.append_of_mem hmem
    have hlength := congrArg List.length heq
    simp only [List.flatten_append, List.flatten_cons, List.length_append] at hlength
    have hbefore : before.flatten = [] := List.eq_nil_of_length_eq_zero (by omega)
    have hafter : after.flatten = [] := List.eq_nil_of_length_eq_zero (by omega)
    have hnil : ∀ l : List Bytes, (∀ c ∈ l, c ≠ []) → l.flatten = [] → l = [] := by
      intro l hl hflat
      exact List.eq_nil_iff_forall_not_mem.mpr fun c hc =>
        hl c hc (List.flatten_eq_nil_iff.mp hflat c hc)
    rw [hnil before (fun c hc => hne c (by simp [hc])) hbefore,
      hnil after (fun c hc => hne c (by simp [hc])) hafter]
    rfl
  · intro hlength
    obtain ⟨c, rfl⟩ := List.length_eq_one_iff.mp hlength
    rw [List.mem_singleton.mp hmem, List.flatten_singleton]

theorem exec_next {i : Nat} {r : Read} (maxSizeMB : Nat) (hr : s.reads[i]? = some r)
    (hended : r.ended = false) (hne : ∀ chunk ∈ r.chunks, chunk ≠ []) (out : List Answer) :
    ∃ t, (reads M maxSizeMB inner).exec (List.replicate (r.chunks.length + 1) (.next i)) s out =
        some (t, out ++ [{ cid := r.cid, chunks := r.yielded ++ r.chunks }]) ∧
      LRUBlockstore.fetch (maxSizeMB * 1024 * 1024) (M.toString r.cid) none s.cache r.chunks =
        (t.cache, { values := r.chunks.map .bytes }) := by
  obtain ⟨cid, chunks, yielded, ended⟩ := r
  obtain rfl : ended = false := hended
  induction chunks generalizing s yielded with
  | nil =>
    refine ⟨{ s with reads := s.reads.modify i fun r => { r with ended := true } }, ?_, rfl⟩
    simp [System.exec, reads, State.step, State.next, hr]
  | cons chunk chunks ih =>
    obtain ⟨hchunk, hrest⟩ := List.forall_mem_cons.mp hne
    obtain ⟨cache, hset⟩ : ∃ cache, s.cache.set (maxSizeMB * 1024 * 1024) (M.toString cid) chunk =
        some cache := Option.ne_none_iff_exists'.mp fun hnone => hchunk (set_eq_none_iff.mp hnone)
    let u : State :=
      ⟨cache, s.reads.modify i fun r => { r with chunks, yielded := yielded ++ [chunk] }⟩
    have hnext : (reads M maxSizeMB inner).step s (.next i) = some (u, []) := by
      simp [reads, State.step, State.next, hr, hset, u]
    have hread : u.reads[i]? = some ⟨cid, chunks, yielded ++ [chunk], false⟩ :=
      (getElem?_modify hr).mpr (Or.inl ⟨rfl, rfl⟩)
    obtain ⟨t, hexec, hfetch⟩ := ih (yielded ++ [chunk]) hread hrest
    refine ⟨t, ?_, ?_⟩
    · rw [List.length_cons, List.replicate_succ, System.exec, hnext]
      simpa using hexec
    · have hrest : LRUBlockstore.fetch (maxSizeMB * 1024 * 1024) (M.toString cid) none cache
          chunks = (t.cache, { values := chunks.map .bytes }) := hfetch
      simp only [LRUBlockstore.fetch, hset, hrest, List.map_cons]

namespace Partial

theorem evict (h : Partial M inner s) (key : String) :
    Partial M inner { s with cache := s.cache.erase key } where
  cached cid val hl := h.cached cid val (lookup_erase_iff.mp hl).2
  reading := h.reading

theorem modify (h : Partial M inner s) {i : Nat} {r : Read} {f : Read → Read}
    (hr : s.reads[i]? = some r) (hf : (f r).yielded ++ (f r).chunks = inner.get (f r).cid) :
    Partial M inner { s with reads := s.reads.modify i f } where
  cached := h.cached
  reading j r' hr' := by
    rcases (getElem?_modify hr).mp hr' with ⟨-, rfl⟩ | ⟨-, hold⟩
    · exact hf
    · exact h.reading j r' hold

theorem set (h : Partial M inner s) (hinj : Function.Injective M.toString) {cid : CID}
    {chunk : Bytes} {cache : LRUCache} (hmem : chunk ∈ inner.get cid)
    (hset : s.cache.set maxSize (M.toString cid) chunk = some cache) :
    Partial M inner { s with cache } where
  cached cid' val hl := by
    rcases lookup_of_set hset hl with ⟨hkey, rfl, -⟩ | ⟨-, hold⟩
    · rwa [hinj hkey]
    · exact h.cached cid' val hold
  reading := h.reading

theorem get (h : Partial M inner s) (cid : CID) :
    Partial M inner (s.get M inner cid).1 ∧
      (Misses M inner s (.get cid) ↔ ∀ a ∈ (s.get M inner cid).2, a.Whole inner) := by
  unfold State.get Misses
  cases hcached : s.cache.lookup (M.toString cid) with
  | some cached =>
    have hkey : M.toString cid ∈ s.cache := mem_iff_lookup.mpr ⟨cached, hcached⟩
    have hwhole := chunk_eq_flatten_iff (h.cached cid cached hcached) (inner.chunk_ne_nil cid)
    refine ⟨h, ?_⟩
    simp only [hkey, not_true_eq_false, false_or, List.forall_mem_singleton, Answer.Whole,
      List.flatten_singleton, true_and]
    exact hwhole.symm
  | none =>
    have hkey : M.toString cid ∉ s.cache := AList.lookup_eq_none.mp hcached
    refine ⟨⟨h.cached, fun i r hr => ?_⟩, iff_of_true (Or.inl hkey) (List.forall_mem_nil _)⟩
    rcases getElem?_concat.mp hr with hold | ⟨-, rfl⟩
    · exact h.reading i r hold
    · rfl

theorem next (h : Partial M inner s) (hinj : Function.Injective M.toString) {i : Nat} {r : Read}
    {t : State} {o : List Answer} (hr : s.reads[i]? = some r)
    (hstep : s.next M maxSize i r = some (t, o)) :
    Partial M inner t ∧ ∀ a ∈ o, a.Whole inner := by
  have hall := h.reading i r hr
  unfold State.next at hstep
  split at hstep
  · cases hstep
  · split at hstep
    · rename_i hchunks
      cases hstep
      rw [hchunks, List.append_nil] at hall
      refine ⟨h.modify hr (by rw [hchunks, List.append_nil, hall]), ?_⟩
      rw [List.forall_mem_singleton]
      exact ⟨rfl, congrArg List.flatten hall⟩
    · rename_i chunk chunks hchunks
      have hmem : chunk ∈ inner.get r.cid := by
        rw [← hall, hchunks]
        simp
      split at hstep
      · rename_i hset
        exact absurd (set_eq_none_iff.mp hset) (inner.chunk_ne_nil r.cid chunk hmem)
      · rename_i cache hset
        cases hstep
        refine ⟨(h.set hinj hmem hset).modify hr ?_, List.forall_mem_nil _⟩
        rw [← hall, hchunks, List.append_assoc]
        rfl

end Partial

variable {maxSizeMB : Nat} {es : List Event} {out : List Answer}

/-- Every read yields the whole block exactly if each block of several chunks is only asked for
while none of them is cached. -/
theorem answers_whole_iff (hinj : Function.Injective M.toString)
    (hrun : (reads M maxSizeMB inner).Run System.any es s out) :
    (∀ a ∈ out, a.Whole inner) ↔ (reads M maxSizeMB inner).Run (Misses M inner) es s out := by
  have hinit : Partial M inner (reads M maxSizeMB inner).init :=
    ⟨fun cid val hl => by simp [reads] at hl, fun i r hr => by simp [reads] at hr⟩
  have hbase : ∀ e ∈ es, (fun _ : Event => True) e := fun _ _ => trivial
  refine (hrun.outputs_iff hinit ?_ hbase).symm
  intro s e t o h _ hstep
  cases e with
  | get cid =>
    have hget : s.get M inner cid = (t, o) := Option.some.inj hstep
    have hboth := h.get cid
    rwa [hget] at hboth
  | next i =>
    obtain ⟨r, hr, hnext⟩ := Option.bind_eq_some_iff.mp hstep
    obtain ⟨hpart, hwhole⟩ := h.next hinj hr hnext
    exact ⟨hpart, iff_of_true trivial hwhole⟩
  | evict key =>
    cases hstep
    exact ⟨h.evict key, iff_of_true trivial (List.forall_mem_nil _)⟩

open Multiformats

def twoBytes : CID := .v1 0x55 ⟨sha256Code,
  [0xa1, 0x28, 0x71, 0xfe, 0xe2, 0x10, 0xfb, 0x86, 0x19, 0x29, 0x1e, 0xae, 0xa1, 0x94, 0x58, 0x1c,
    0xbd, 0x25, 0x31, 0xe4, 0xb2, 0x37, 0x59, 0xd2, 0x25, 0xf6, 0x80, 0x69, 0x23, 0xf6, 0x32, 0x22]⟩

def twoBytesText : CID → String :=
  textNaming twoBytes "bafkreifbfby75yqq7odbski6v2qziwa4xustdzfsg5m5ejpwqbush5rsei"

def onTwoBytes : Multiformats where
  bytes := encodeCid
  decode := decodeCid
  toString := twoBytesText
  hash _ _ := twoBytes.multihash.digest

theorem twoBytesText_injective : Function.Injective twoBytesText :=
  textNaming_injective twoBytes _ (a := 'b') (by decide) (by decide)

def byteByByte : InnerStore where
  get _ := [[1], [2]]
  get_ne_nil _ := by simp
  chunk_ne_nil _ := by simp

def readWhole : List Event := [.get twoBytes, .next 0, .next 0, .next 0]

theorem answers_whole_evicted : ∃ s out, (∀ a ∈ out, a.Whole byteByByte) ∧
    (reads onTwoBytes 64 byteByByte).Run (Misses onTwoBytes byteByByte)
      (readWhole ++ [.evict (twoBytesText twoBytes), .get twoBytes, .next 1, .next 1, .next 1]) s out := by
  obtain ⟨s, out, hrun, hout⟩ := System.exists_run (T := reads onTwoBytes 64 byteByByte)
    (readWhole ++ [.evict (twoBytesText twoBytes), .get twoBytes, .next 1, .next 1, .next 1])
    (p := fun r => r.2 = [⟨twoBytes, [[1], [2]], none⟩, ⟨twoBytes, [[1], [2]], none⟩])
    (by decide +kernel)
  have hwhole : ∀ a ∈ out, a.Whole byteByByte := by
    rw [show out = _ from hout]
    simp [Answer.Whole, byteByByte]
  exact ⟨s, out, hwhole, (answers_whole_iff twoBytesText_injective hrun).mp hwhole⟩

theorem answers_lastChunk : ∃ s out,
    (reads onTwoBytes 64 byteByByte).Run System.any (readWhole ++ [.get twoBytes]) s out ∧
      out = [⟨twoBytes, [[1], [2]], none⟩, ⟨twoBytes, [[2]], none⟩] ∧
      ¬ ∀ a ∈ out, a.Whole byteByByte := by
  obtain ⟨s, out, hrun, hout⟩ := System.exists_run (T := reads onTwoBytes 64 byteByByte)
    (readWhole ++ [.get twoBytes])
    (p := fun r => r.2 = [⟨twoBytes, [[1], [2]], none⟩, ⟨twoBytes, [[2]], none⟩])
    (by decide +kernel)
  refine ⟨s, out, hrun, hout, ?_⟩
  rw [show out = _ from hout]
  simp [Answer.Whole, byteByByte]

end IpfsShard.Blockstore.Chunks
