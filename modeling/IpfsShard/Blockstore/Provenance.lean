import IpfsShard.Blockstore.Coherence

/-! Where the bytes come from that the node holds under a CID: in S3, in the cache and in the calls
that are under way. Nothing is made up on the way, so what holds of all that comes holds of all that
is kept and given out. -/

namespace IpfsShard.Blockstore.Stack
open Runs Table

def Phase.bytes : Phase → List Bytes
  | .chunks rest _ => rest
  | .persisting block | .yielding block => [block]
  | .putting val | .written val => [val]
  | .reading | .searching | .asking | .deleting | .done => []

inductive State.Holds (M : Multiformats) (s : State) (cid : CID) (bytes : Bytes) : Prop where
  | s3 : s.s3.lookup cid = some bytes → Holds M s cid bytes
  | cache : s.cache.lookup (M.toString cid) = some bytes → Holds M s cid bytes
  | call {c : Call} : c ∈ s.calls → c.cid = cid → bytes ∈ c.phase.bytes → Holds M s cid bytes

inductive Brings (s : State) : Event → CID → Bytes → Prop where
  | put {cid : CID} {val : Bytes} : Brings s (.put cid val) cid val
  | bitswapPut {cid : CID} {val : Bytes} : Brings s (.bitswapPut cid val) cid val
  | s3Read {i : Nat} {c : Call} {chunks : List Bytes} {err : Option StoreError} {chunk : Bytes} :
      s.calls[i]? = some c → chunk ∈ chunks → Brings s (.s3Read i chunks err) c.cid chunk
  | found {i : Nat} {c : Call} {block : Bytes} :
      s.calls[i]? = some c → Brings s (.found i (some block)) c.cid block

structure Passes (M : Multiformats) (s : State) (e : Event) (t : State) (o : List Effect) :
    Prop where
  held : ∀ cid bytes, t.Holds M cid bytes → s.Holds M cid bytes ∨ Brings s e cid bytes
  kept : ∀ cid bytes, Brings s e cid bytes → t.Holds M cid bytes
  calls : ∀ (i : Nat) (c : Call), s.calls[i]? = some c →
    ∃ c', t.calls[i]? = some c' ∧ c'.cid = c.cid
  yields : ∀ i bytes, Effect.yielded i bytes ∈ o →
    ∃ c, t.calls[i]? = some c ∧ s.Holds M c.cid bytes

variable {M : Multiformats} {maxSize : Nat} {s s' t : State} {e : Event} {o : List Effect}
  {cid cid' : CID} {i : Nat} {c : Call} {val bytes : Bytes} {phase : Phase}

theorem holds_of_call (hc : s.calls[i]? = some c) (h : bytes ∈ c.phase.bytes) :
    s.Holds M c.cid bytes :=
  .call (List.mem_of_getElem? hc) rfl h

theorem holds_evicted {key : String} (h : State.Holds M { s with cache := s.cache.erase key } cid
    bytes) : s.Holds M cid bytes := by
  cases h with
  | s3 h => exact .s3 h
  | cache h => exact .cache (lookup_erase_iff.mp h).2
  | call hc hcid h => exact .call hc hcid h

theorem holds_removed (h : State.Holds M { s with s3 := s.s3.erase cid' } cid bytes) :
    s.Holds M cid bytes := by
  cases h with
  | s3 h => exact .s3 (lookup_erase_iff.mp h).2
  | cache h => exact .cache h
  | call hc hcid h => exact .call hc hcid h

theorem holds_inserted (h : State.Holds M { s with s3 := s.s3.insert cid' val } cid bytes) :
    s.Holds M cid bytes ∨ cid = cid' ∧ bytes = val := by
  cases h with
  | s3 h =>
    rcases lookup_insert_iff.mp h with ⟨rfl, rfl⟩ | ⟨-, h⟩
    · exact Or.inr ⟨rfl, rfl⟩
    · exact Or.inl (.s3 h)
  | cache h => exact Or.inl (.cache h)
  | call hc hcid h => exact Or.inl (.call hc hcid h)

theorem holds_store (hval : s.Holds M c.cid val) (applied : Bool)
    (h : (s.store c val applied).Holds M cid bytes) : s.Holds M cid bytes := by
  unfold State.store at h
  split_ifs at h
  · rcases holds_inserted h with h | ⟨rfl, rfl⟩
    · exact h
    · exact hval
  · exact h

theorem holds_filled (hinj : Function.Injective M.toString) (hval : s.Holds M c.cid val)
    {cache : LRUCache} (hset : s.cache.set maxSize (M.toString c.cid) val = some cache)
    (h : State.Holds M { s with cache } cid bytes) : s.Holds M cid bytes := by
  cases h with
  | s3 h => exact .s3 h
  | cache h =>
    rcases lookup_of_set hset h with ⟨hkey, rfl, -⟩ | ⟨-, h⟩
    · -- the key is the text of the CID, and no two CIDs have the same
      rw [hinj hkey]
      exact hval
    · exact .cache h
  | call hc hcid h => exact .call hc hcid h

namespace Passes

theorem start (hholds : ∀ cid bytes, s'.Holds M cid bytes → s.Holds M cid bytes)
    (hcalls : s'.calls = s.calls) (hbytes : ∀ bytes ∈ phase.bytes, Brings s e cid bytes)
    (hbrings : ∀ cid' bytes, Brings s e cid' bytes → cid' = cid ∧ bytes ∈ phase.bytes)
    (hyields : ∀ i bytes, Effect.yielded i bytes ∈ o → i = s.calls.length ∧ s.Holds M cid bytes) :
    Passes M s e (s'.start cid phase) o where
  held cid' bytes h := by
    cases h with
    | s3 h => exact Or.inl (hholds _ _ (.s3 h))
    | cache h => exact Or.inl (hholds _ _ (.cache h))
    | call hc hcid h =>
      rcases List.mem_append.mp hc with hold | hnew
      · exact Or.inl (hholds _ _ (.call hold hcid h))
      · obtain rfl := List.mem_singleton.mp hnew
        obtain rfl : cid = cid' := hcid
        exact Or.inr (hbytes bytes h)
  kept cid' bytes h := by
    obtain ⟨rfl, hmem⟩ := hbrings cid' bytes h
    exact .call (c := ⟨cid', phase⟩) (List.mem_append_right _ (List.mem_singleton_self _)) rfl hmem
  calls i c hc := by
    refine ⟨c, ?_, rfl⟩
    rw [State.start, hcalls, List.getElem?_append_left (List.getElem?_eq_some_iff.mp hc).1]
    exact hc
  yields i bytes h := by
    obtain ⟨rfl, hheld⟩ := hyields i bytes h
    refine ⟨⟨cid, phase⟩, ?_, hheld⟩
    rw [State.start, hcalls]
    exact List.getElem?_concat_length

theorem setPhase (hc : s.calls[i]? = some c)
    (hholds : ∀ cid bytes, s'.Holds M cid bytes → s.Holds M cid bytes) (hcalls : s'.calls = s.calls)
    (hbytes : ∀ bytes ∈ phase.bytes, s.Holds M c.cid bytes ∨ Brings s e c.cid bytes)
    (hbrings : ∀ cid' bytes, Brings s e cid' bytes → cid' = c.cid ∧ bytes ∈ phase.bytes)
    (hyields : ∀ j bytes, Effect.yielded j bytes ∈ o → j = i ∧ s.Holds M c.cid bytes) :
    Passes M s e (s'.setPhase i c phase) o := by
  have hi : i < s.calls.length := (List.getElem?_eq_some_iff.mp hc).1
  have hself : (s'.setPhase i c phase).calls[i]? = some { c with phase } := by
    rw [State.setPhase, hcalls]
    exact List.getElem?_set_self hi
  constructor
  case held =>
    intro cid' bytes h
    cases h with
    | s3 h => exact Or.inl (hholds _ _ (.s3 h))
    | cache h => exact Or.inl (hholds _ _ (.cache h))
    | call hmem hcid h =>
      rcases List.mem_or_eq_of_mem_set hmem with hold | rfl
      · exact Or.inl (hholds _ _ (.call hold hcid h))
      · obtain rfl : c.cid = cid' := hcid
        exact hbytes bytes h
  case kept =>
    intro cid' bytes h
    obtain ⟨rfl, hmem⟩ := hbrings cid' bytes h
    exact .call (List.mem_of_getElem? hself) rfl hmem
  case calls =>
    intro j c' hj
    by_cases hij : i = j
    · subst hij
      obtain rfl : c = c' := Option.some.inj (hc.symm.trans hj)
      exact ⟨_, hself, rfl⟩
    · refine ⟨c', ?_, rfl⟩
      rw [State.setPhase, hcalls, List.getElem?_set_ne hij]
      exact hj
  case yields =>
    intro j bytes h
    obtain ⟨rfl, hheld⟩ := hyields j bytes h
    exact ⟨_, hself, hheld⟩

theorem begins (hholds : ∀ cid bytes, s'.Holds M cid bytes → s.Holds M cid bytes)
    (hcalls : s'.calls = s.calls) (hphase : phase.bytes = [])
    (hbrings : ∀ cid' bytes, ¬ Brings s e cid' bytes)
    (hyields : ∀ i bytes, Effect.yielded i bytes ∈ o → i = s.calls.length ∧ s.Holds M cid bytes) :
    Passes M s e (s'.start cid phase) o :=
  start hholds hcalls (fun _ h => absurd h (hphase ▸ List.not_mem_nil))
    (fun _ _ h => absurd h (hbrings _ _)) hyields

theorem ends (hc : s.calls[i]? = some c)
    (hholds : ∀ cid bytes, s'.Holds M cid bytes → s.Holds M cid bytes) (hcalls : s'.calls = s.calls)
    (hphase : phase.bytes = []) (hbrings : ∀ cid' bytes, ¬ Brings s e cid' bytes)
    (hyields : ∀ j bytes, Effect.yielded j bytes ∉ o) : Passes M s e (s'.setPhase i c phase) o :=
  setPhase hc hholds hcalls (fun _ h => absurd h (hphase ▸ List.not_mem_nil))
    (fun _ _ h => absurd h (hbrings _ _)) fun _ _ h => absurd h (hyields _ _)

theorem fill (hinj : Function.Injective M.toString) (hc : s.calls[i]? = some c)
    (hval : val ∈ c.phase.bytes) (hbytes : ∀ bytes ∈ phase.bytes, bytes ∈ c.phase.bytes)
    (hbrings : ∀ cid' bytes, ¬ Brings s e cid' bytes) {effects : List Effect}
    (hyields : ∀ j bytes, Effect.yielded j bytes ∈ effects → j = i ∧ bytes = val)
    (hfill : s.fill M maxSize i c val phase effects = (t, o)) : Passes M s e t o := by
  unfold State.fill at hfill
  cases hset : s.cache.set maxSize (M.toString c.cid) val with
  | none =>
    rw [hset] at hfill
    cases hfill
    exact ends hc (fun _ _ => id) rfl rfl hbrings (by simp)
  | some cache =>
    rw [hset] at hfill
    cases hfill
    refine setPhase hc (fun cid bytes => holds_filled hinj (holds_of_call hc hval) hset) rfl
      (fun bytes h => Or.inl (holds_of_call hc (hbytes bytes h)))
      (fun _ _ h => absurd h (hbrings _ _)) fun j bytes h => ?_
    obtain ⟨rfl, rfl⟩ := hyields j bytes h
    exact ⟨rfl, holds_of_call hc hval⟩

theorem get (cid : CID) : Passes M s (.get cid) (s.get M cid).1 (s.get M cid).2 := by
  unfold State.get
  cases hcached : s.cache.lookup (M.toString cid) with
  | some cached =>
    refine begins (fun _ _ => id) rfl rfl (by rintro _ _ ⟨⟩) fun i bytes h => ?_
    obtain ⟨rfl, rfl⟩ : i = s.calls.length ∧ bytes = cached := by simpa using h
    exact ⟨rfl, .cache hcached⟩
  | none => exact begins (fun _ _ => id) rfl rfl (by rintro _ _ ⟨⟩) (by simp)

theorem put (cid : CID) (val : Bytes) :
    Passes M s (.put cid val) (s.put cid val).1 (s.put cid val).2 := by
  refine start (fun _ _ => id) rfl (fun bytes h => ?_) ?_ (by simp [State.put])
  · obtain rfl := List.mem_singleton.mp h
    exact .put
  · rintro _ _ ⟨⟩
    exact ⟨rfl, List.mem_singleton_self _⟩

theorem hasStart (cid : CID) :
    Passes M s (.has cid) (s.hasStart M cid).1 (s.hasStart M cid).2 := by
  unfold State.hasStart
  split_ifs
  · exact begins (fun _ _ => id) rfl rfl (by rintro _ _ ⟨⟩) (by simp)
  · exact begins (fun _ _ => id) rfl rfl (by rintro _ _ ⟨⟩) (by simp)

theorem delete (cid : CID) : Passes M s (.delete cid) (s.delete M cid).1 (s.delete M cid).2 :=
  begins (fun _ _ => holds_evicted) rfl rfl (by rintro _ _ ⟨⟩) (by simp [State.delete])

theorem s3Read (hc : s.calls[i]? = some c) {chunks : List Bytes} {err : Option StoreError}
    (hr : s.s3Read i c chunks err = some (t, o)) : Passes M s (.s3Read i chunks err) t o := by
  unfold State.s3Read at hr
  split_ifs at hr
  cases hr
  refine setPhase hc (fun _ _ => id) rfl (fun _ h => Or.inr (.s3Read hc h)) ?_ (by simp)
  rintro _ _ ⟨⟩
  rename_i c' hc' hmem
  obtain rfl := Option.some.inj (hc.symm.trans hc')
  exact ⟨rfl, hmem⟩

theorem s3Put (hc : s.calls[i]? = some c) {applied throws : Bool}
    (hr : s.s3Put i c applied throws = some (t, o)) :
    Passes M s (.s3Put i applied throws) t o := by
  have hcalls : ∀ val, (s.store c val applied).calls = s.calls := by
    intro val
    unfold State.store
    split_ifs <;> rfl
  unfold State.s3Put at hr
  split at hr
  · rename_i block hphase
    cases hr
    have hblock : s.Holds M c.cid block := holds_of_call hc (by rw [hphase]; exact .head _)
    refine setPhase hc (fun _ _ => holds_store hblock applied) (hcalls block) (fun bytes h => ?_)
      (by rintro _ _ ⟨⟩) (by simp)
    obtain rfl := List.mem_singleton.mp h
    exact Or.inl hblock
  · rename_i val hphase
    have hval : s.Holds M c.cid val := holds_of_call hc (by rw [hphase]; exact .head _)
    split_ifs at hr <;> cases hr
    · exact ends hc (fun _ _ => holds_store hval applied) (hcalls val) rfl (by rintro _ _ ⟨⟩)
        (by simp)
    · refine setPhase hc (fun _ _ => holds_store hval applied) (hcalls val) (fun bytes h => ?_)
        (by rintro _ _ ⟨⟩) (by simp)
      obtain rfl := List.mem_singleton.mp h
      exact Or.inl hval
  · cases hr

theorem s3Has (hc : s.calls[i]? = some c) {throws : Bool}
    (hr : s.s3Has i c throws = some (t, o)) : Passes M s (.s3Has i throws) t o := by
  unfold State.s3Has at hr
  split_ifs at hr
  cases hr
  exact ends hc (fun _ _ => id) rfl rfl (by rintro _ _ ⟨⟩) (by simp)

theorem s3Delete (hc : s.calls[i]? = some c) {applied throws : Bool}
    (hr : s.s3Delete i c applied throws = some (t, o)) :
    Passes M s (.s3Delete i applied throws) t o := by
  have hremoved : ∀ {o : List Effect}, (∀ j bytes, Effect.yielded j bytes ∉ o) → Passes M s
      (.s3Delete i applied throws) ({ s with s3 := s.s3.erase c.cid }.setPhase i c .done) o :=
    fun ho => ends hc (fun _ _ => holds_removed) rfl rfl (by rintro _ _ ⟨⟩) ho
  have hkept : ∀ {o : List Effect}, (∀ j bytes, Effect.yielded j bytes ∉ o) →
      Passes M s (.s3Delete i applied throws) (s.setPhase i c .done) o :=
    fun ho => ends hc (fun _ _ => id) rfl rfl (by rintro _ _ ⟨⟩) ho
  unfold State.s3Delete at hr
  split_ifs at hr <;> cases hr
  · exact hremoved (by simp)
  · exact hremoved (by simp)
  · exact hkept (by simp)
  · exact hkept (by simp)

theorem found (hc : s.calls[i]? = some c) {block : Option Bytes}
    (hr : s.found i c block = some (t, o)) : Passes M s (.found i block) t o := by
  unfold State.found at hr
  split_ifs at hr
  cases block with
  | some block =>
    cases hr
    refine setPhase hc (fun _ _ => id) rfl (fun bytes h => ?_) ?_ (by simp)
    · obtain rfl := List.mem_singleton.mp h
      exact Or.inr (.found hc)
    · rintro _ _ ⟨⟩
      rename_i c' hc'
      obtain rfl := Option.some.inj (hc.symm.trans hc')
      exact ⟨rfl, List.mem_singleton_self _⟩
  | none =>
    cases hr
    exact ends hc (fun _ _ => id) rfl rfl (by rintro _ _ ⟨⟩) (by simp)

theorem next (hinj : Function.Injective M.toString) (hc : s.calls[i]? = some c)
    (hr : s.next M maxSize i c = some (t, o)) : Passes M s (.next i) t o := by
  have hbrings : ∀ cid bytes, ¬ Brings s (.next i) cid bytes := by rintro _ _ ⟨⟩
  unfold State.next at hr
  split at hr
  · rename_i chunk chunks err hphase
    have hchunk : chunk ∈ c.phase.bytes := by rw [hphase]; exact .head _
    have hrest : ∀ bytes ∈ (Phase.chunks chunks err).bytes, bytes ∈ c.phase.bytes := by
      rw [hphase]
      exact fun _ => List.mem_cons_of_mem _
    exact fill hinj hc hchunk hrest hbrings (by simp) (Option.some.inj hr)
  · cases hr
    exact ends hc (fun _ _ => id) rfl rfl hbrings (by simp)
  · split_ifs at hr <;> cases hr
    · exact ends hc (fun _ _ => id) rfl rfl hbrings (by simp)
    · exact ends hc (fun _ _ => id) rfl rfl hbrings (by simp)
  · rename_i block hphase
    have hblock : block ∈ c.phase.bytes := by rw [hphase]; exact .head _
    exact fill hinj hc hblock (fun _ h => absurd h List.not_mem_nil) hbrings (by simp)
      (Option.some.inj hr)
  · rename_i val hphase
    have hval : val ∈ c.phase.bytes := by rw [hphase]; exact .head _
    exact fill hinj hc hval (fun _ h => absurd h List.not_mem_nil) hbrings (by simp)
      (Option.some.inj hr)
  · cases hr

theorem abandoned (hc : s.calls[i]? = some c) (hr : s.abandoned i c = some (t, o)) :
    Passes M s (.abandoned i) t o := by
  unfold State.abandoned at hr
  split at hr
  · cases hr
    exact ends hc (fun _ _ => id) rfl rfl (by rintro _ _ ⟨⟩) (by simp)
  · cases hr

end Passes

def State.All (M : Multiformats) (Q : CID → Bytes → Prop) (s : State) : Prop :=
  ∀ cid bytes, s.Holds M cid bytes → Q cid bytes

variable {Q : CID → Bytes → Prop} {maxSizeMB : Nat} {store : Blocks} {es : List Event}
  {out : List Effect}

/-- The wants are those of `SimpleBitswap`, in some run. -/
def FromBitswap (M : Multiformats) (net : Network) (cid : CID) : Prop :=
  ∃ es b out, (Bitswap.wants M).Run System.any es b out ∧
    ∀ block, some block ∈ net.wants M cid → ∃ c ∈ b.calls, c.cid = cid ∧
      ∃ x, b.deferreds[c.deferred]? = some x ∧ x.settlement = .resolved block

def foundActions (cid : CID) : Option Bytes → List Action
  | some block => [.put cid block, .yield block]
  | none => []

/-- What the outside does in call `i` is `nets i`. Callers put blocks under their CIDs, S3 gives a
block in one chunk, and `SimpleBitswap` puts what it accepts. -/
def Follows (M : Multiformats) (nets : Nat → Network) (s : State) : Event → Prop
  | .put cid val => HasDigest M cid val
  | .bitswapPut cid val => ∃ es b out pending, (Bitswap.wants M).Run System.any es b out ∧
      Bitswap.Effect.put cid val pending ∈ out
  | .s3Read i chunks _ => ∀ c, s.calls[i]? = some c →
      ∀ chunk ∈ chunks, s.s3.lookup c.cid = some chunk
  | .found i block => ∀ c, s.calls[i]? = some c → FromBitswap M (nets i) c.cid ∧
      (retrieve M (nets i) c.cid).1 = foundActions c.cid block
  | _ => True

variable {nets : Nat → Network}

open Multiformats

end IpfsShard.Blockstore.Stack
