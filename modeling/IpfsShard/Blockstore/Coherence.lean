import IpfsShard.Blockstore.Cache
import IpfsShard.Blockstore.Race

/-! The blockstore of the node: `LRUBlockstore` over `NetworkAwareBlockstore` over S3, with
any number of calls in flight. An event is what runs between two suspensions, or the moment
at which S3 carries out a request. -/

namespace IpfsShard.Blockstore.Stack
open Runs Table

/-- Where a call is suspended. The phases of `get` come first: S3 is asked, its answer is
passed on chunk by chunk, the network is searched, what it gives is put, and yielded. -/
inductive Phase where
  | reading
  | chunks (chunks : List Bytes) (err : Option StoreError)
  | searching
  | persisting (block : Bytes)
  | yielding (block : Bytes)
  | putting (val : Bytes)
  | written (val : Bytes)
  | asking
  | deleting
  | done
  deriving DecidableEq

structure Call where
  cid : CID
  phase : Phase
  deriving DecidableEq

structure State where
  cache : LRUCache := ∅
  s3 : Blocks
  calls : List Call := []
  deriving DecidableEq

/-- A request to S3 may fail, and then it may have been carried out or not. -/
inductive Event where
  | get (cid : CID)
  | put (cid : CID) (val : Bytes)
  | has (cid : CID)
  | delete (cid : CID)
  | s3Read (call : Nat) (chunks : List Bytes) (err : Option StoreError)
  | s3Put (call : Nat) (applied throws : Bool)
  | s3Has (call : Nat) (throws : Bool)
  | s3Delete (call : Nat) (applied throws : Bool)
  | found (call : Nat) (block : Option Bytes)
  | next (call : Nat)
  | abandoned (call : Nat)
  | bitswapPut (cid : CID) (val : Bytes)
  | evict (key : String)

inductive Effect where
  | yielded (call : Nat) (bytes : Bytes)
  | held (call : Nat) (held : Bool)
  | returned (call : Nat)
  | threw (call : Nat)
  deriving DecidableEq

namespace State

variable (M : Multiformats) (maxSize : Nat) (s : State) (cid : CID) (i : Nat) (c : Call)

def start (phase : Phase) : State := { s with calls := s.calls ++ [⟨cid, phase⟩] }

def setPhase (phase : Phase) : State := { s with calls := s.calls.set i { c with phase } }

def get : State × List Effect :=
  let call := s.calls.length
  match s.cache.lookup (M.toString cid) with
  | some cached => (s.start cid .done, [.yielded call cached, .returned call])
  | none => (s.start cid .reading, [])

def put (val : Bytes) : State × List Effect := (s.start cid (.putting val), [])

def hasStart : State × List Effect :=
  if M.toString cid ∈ s.cache then (s.start cid .done, [.held s.calls.length true])
  else (s.start cid .asking, [])

/-- The entry of the cache goes before S3 is asked. -/
def delete : State × List Effect :=
  ({ s with cache := s.cache.erase (M.toString cid) }.start cid .deleting, [])

def fill (val : Bytes) (phase : Phase) (effects : List Effect) : State × List Effect :=
  match s.cache.set maxSize (M.toString c.cid) val with
  | none => (s.setPhase i c .done, [.threw i])
  | some cache => ({ s with cache }.setPhase i c phase, effects)

def s3Read (chunks : List Bytes) (err : Option StoreError) : Option (State × List Effect) :=
  -- chunks, and a regular end, are for what S3 holds
  if c.phase = .reading ∧ (c.cid ∈ s.s3 ∨ (chunks = [] ∧ err ≠ none)) then
    some (s.setPhase i c (.chunks chunks err), [])
  else none

def store (val : Bytes) (applied : Bool) : State :=
  if applied then { s with s3 := s.s3.insert c.cid val } else s

def s3Put (applied throws : Bool) : Option (State × List Effect) :=
  match c.phase with
  -- the network tier ignores that its put has failed
  | .persisting block => some ((s.store c block applied).setPhase i c (.yielding block), [])
  | .putting val =>
    some (if throws then ((s.store c val applied).setPhase i c .done, [.threw i])
      else ((s.store c val applied).setPhase i c (.written val), []))
  | _ => none

def s3Has (throws : Bool) : Option (State × List Effect) :=
  if c.phase = .asking then
    some (s.setPhase i c .done, [.held i (!throws && decide (c.cid ∈ s.s3))])
  else none

def s3Delete (applied throws : Bool) : Option (State × List Effect) :=
  if c.phase = .deleting then
    some ((if applied then { s with s3 := s.s3.erase c.cid } else s).setPhase i c .done,
      [if throws then .threw i else .returned i])
  else none

def found (block : Option Bytes) : Option (State × List Effect) :=
  if c.phase = .searching then
    match block with
    | some block => some (s.setPhase i c (.persisting block), [])
    | none => some (s.setPhase i c .done, [.threw i])
  else none

def next : Option (State × List Effect) :=
  match c.phase with
  | .chunks (chunk :: chunks) err =>
    some (s.fill M maxSize i c chunk (.chunks chunks err) [.yielded i chunk])
  | .chunks [] none => some (s.setPhase i c .done, [.returned i])
  | .chunks [] (some err) =>
    if err.isMiss then some (s.setPhase i c .searching, [])
    else some (s.setPhase i c .done, [.threw i])
  | .yielding block => some (s.fill M maxSize i c block .done [.yielded i block, .returned i])
  | .written val => some (s.fill M maxSize i c val .done [.returned i])
  | _ => none

def abandoned : Option (State × List Effect) :=
  match c.phase with
  | .chunks .. => some (s.setPhase i c .done, [.returned i])
  | _ => none

def step : Event → Option (State × List Effect)
  | .get cid => some (s.get M cid)
  | .put cid val => some (s.put cid val)
  | .has cid => some (s.hasStart M cid)
  | .delete cid => some (s.delete M cid)
  | .s3Read i chunks err => s.calls[i]?.bind (s.s3Read i · chunks err)
  | .s3Put i applied throws =>
    if applied || throws then s.calls[i]?.bind (s.s3Put i · applied throws) else none
  | .s3Has i throws => s.calls[i]?.bind (s.s3Has i · throws)
  | .s3Delete i applied throws =>
    if applied || throws then s.calls[i]?.bind (s.s3Delete i · applied throws) else none
  | .found i block => s.calls[i]?.bind (s.found i · block)
  | .next i => s.calls[i]?.bind (s.next M maxSize i)
  | .abandoned i => s.calls[i]?.bind (s.abandoned i)
  -- `SimpleBitswap` puts what it receives into the same store
  | .bitswapPut cid val => some ({ s with s3 := s.s3.insert cid val }, [])
  | .evict key => some ({ s with cache := s.cache.erase key }, [])

def has : Bool := decide (M.toString cid ∈ s.cache) || decide (cid ∈ s.s3)

def Idle : Prop := ∀ c ∈ s.calls, c.phase = .done

end State

def stack (M : Multiformats) (maxSizeMB : Nat) (store : Blocks) : System State Event Effect where
  init := { s3 := store }
  step s := s.step M (maxSizeMB * 1024 * 1024)

def Call.filling (c : Call) : Option Bytes :=
  match c.phase with
  | .chunks (chunk :: _) _ => some chunk
  | .yielding block => some block
  | .written val => some val
  | _ => none

/-- S3 holds the CID, and no delete of it is still waiting for S3. -/
def State.Settled (s : State) (cid : CID) : Prop :=
  cid ∈ s.s3 ∧ ∀ c ∈ s.calls, c.phase = .deleting → c.cid ≠ cid

/-- The cache takes a value only while S3 holds its CID for good. -/
def FillsSettled (maxSize : Nat) (s : State) : Event → Prop
  | .next i => ∀ c ∈ s.calls[i]?, ∀ val ∈ c.filling, 0 < val.length → val.length ≤ maxSize →
      s.Settled c.cid
  | _ => True

instance (s : State) (cid : CID) : Decidable (s.Settled cid) :=
  inferInstanceAs (Decidable (_ ∧ _))

instance (maxSize : Nat) (s : State) (e : Event) : Decidable (FillsSettled maxSize s e) :=
  match e with
  | .next i => inferInstanceAs (Decidable (∀ c ∈ s.calls[i]?, ∀ val ∈ c.filling, 0 < val.length →
      val.length ≤ maxSize → s.Settled c.cid))
  | .get .. | .put .. | .has .. | .delete .. | .s3Read .. | .s3Put .. | .s3Has .. | .s3Delete ..
  | .found .. | .abandoned .. | .bitswapPut .. | .evict .. => inferInstanceAs (Decidable True)

instance (s : State) : Decidable s.Idle :=
  inferInstanceAs (Decidable (∀ c ∈ s.calls, c.phase = .done))

def Coherent (M : Multiformats) (s : State) : Prop :=
  ∀ cid, M.toString cid ∈ s.cache → s.Settled cid

variable {M : Multiformats} {maxSize : Nat} {s : State} {cid : CID} {i : Nat} {c : Call}
  {val : Bytes} {phase : Phase}

namespace Coherent

theorem start (h : Coherent M s) (hphase : phase ≠ .deleting) : Coherent M (s.start cid phase) := by
  intro cid' hkey
  refine ⟨(h cid' hkey).1, fun c hc hdel => ?_⟩
  rcases List.mem_append.mp hc with hold | hnew
  · exact (h cid' hkey).2 c hold hdel
  · rw [List.mem_singleton.mp hnew] at hdel
    exact absurd hdel hphase

theorem setPhase (h : Coherent M s) (hphase : phase ≠ .deleting) :
    Coherent M (s.setPhase i c phase) := by
  intro cid' hkey
  refine ⟨(h cid' hkey).1, fun c' hc hdel => ?_⟩
  rcases List.mem_or_eq_of_mem_set hc with hold | rfl
  · exact (h cid' hkey).2 c' hold hdel
  · exact absurd hdel hphase

theorem erase (h : Coherent M s) (key : String) :
    Coherent M { s with cache := s.cache.erase key } :=
  fun cid' hkey => h cid' (AList.mem_erase.mp hkey).2

theorem insert (h : Coherent M s) (cid : CID) (val : Bytes) :
    Coherent M { s with s3 := s.s3.insert cid val } :=
  fun cid' hkey => ⟨(AList.mem_insert _).mpr (Or.inr (h cid' hkey).1), (h cid' hkey).2⟩

theorem store (h : Coherent M s) (applied : Bool) : Coherent M (s.store c val applied) := by
  rw [State.store]
  split_ifs
  · exact h.insert c.cid val
  · exact h

theorem delete (h : Coherent M s) : Coherent M (s.delete M cid).1 := by
  intro cid' hkey
  obtain ⟨hne, hold⟩ := AList.mem_erase.mp hkey
  refine ⟨(h cid' hold).1, fun c hc hdel => ?_⟩
  rcases List.mem_append.mp hc with hmem | hnew
  · exact (h cid' hold).2 c hmem hdel
  · rw [List.mem_singleton.mp hnew]
    exact fun hcid => hne (hcid ▸ rfl)

theorem remove (h : Coherent M s) (hc : c ∈ s.calls) (hphase : c.phase = .deleting) :
    Coherent M { s with s3 := s.s3.erase c.cid } := by
  intro cid' hkey
  obtain ⟨hheld, hdel⟩ := h cid' hkey
  exact ⟨AList.mem_erase.mpr ⟨(hdel c hc hphase).symm, hheld⟩, hdel⟩

theorem fill (h : Coherent M s) (hinj : Function.Injective M.toString)
    (hsettled : 0 < val.length → val.length ≤ maxSize → s.Settled c.cid)
    (hphase : phase ≠ .deleting) (effects : List Effect) :
    Coherent M (s.fill M maxSize i c val phase effects).1 := by
  rw [State.fill]
  cases hset : s.cache.set maxSize (M.toString c.cid) val with
  | none => exact h.setPhase (by simp)
  | some cache =>
    refine Coherent.setPhase (s := { s with cache }) ?_ hphase
    unfold LRUCache.set at hset
    split_ifs at hset with hzero hsize <;> obtain rfl := Option.some.inj hset
    · exact h.erase _
    · intro cid' hkey
      rcases (AList.mem_insert _).mp hkey with hnew | hold
      · rw [hinj hnew]
        exact hsettled (by omega) (by omega)
      · exact h cid' hold

theorem next (h : Coherent M s) (hinj : Function.Injective M.toString) (hc : s.calls[i]? = some c)
    (hfills : FillsSettled maxSize s (.next i)) {r} (hr : s.next M maxSize i c = some r) :
    Coherent M r.1 := by
  have hsettled : ∀ val, c.filling = some val → 0 < val.length → val.length ≤ maxSize →
      s.Settled c.cid := fun val hval => hfills c hc val hval
  unfold State.next at hr
  split at hr
  · rename_i chunk chunks err hphase
    obtain rfl := Option.some.inj hr
    exact h.fill hinj (hsettled chunk (by simp [Call.filling, hphase])) (by simp) _
  · obtain rfl := Option.some.inj hr
    exact h.setPhase (by simp)
  · split_ifs at hr <;> obtain rfl := Option.some.inj hr <;> exact h.setPhase (by simp)
  · rename_i block hphase
    obtain rfl := Option.some.inj hr
    exact h.fill hinj (hsettled block (by simp [Call.filling, hphase])) (by simp) _
  · rename_i val hphase
    obtain rfl := Option.some.inj hr
    exact h.fill hinj (hsettled val (by simp [Call.filling, hphase])) (by simp) _
  · cases hr

theorem s3Read (h : Coherent M s) {chunks : List Bytes} {err : Option StoreError} {r}
    (hr : s.s3Read i c chunks err = some r) : Coherent M r.1 := by
  unfold State.s3Read at hr
  split_ifs at hr
  obtain rfl := Option.some.inj hr
  exact h.setPhase (by simp)

theorem s3Put (h : Coherent M s) {applied throws : Bool} {r}
    (hr : s.s3Put i c applied throws = some r) : Coherent M r.1 := by
  unfold State.s3Put at hr
  split at hr
  · obtain rfl := Option.some.inj hr
    exact (h.store applied).setPhase (by simp)
  · obtain rfl := Option.some.inj hr
    split_ifs
    · exact (h.store applied).setPhase (by simp)
    · exact (h.store applied).setPhase (by simp)
  · cases hr

theorem s3Has (h : Coherent M s) {throws : Bool} {r} (hr : s.s3Has i c throws = some r) :
    Coherent M r.1 := by
  unfold State.s3Has at hr
  split_ifs at hr
  obtain rfl := Option.some.inj hr
  exact h.setPhase (by simp)

theorem s3Delete (h : Coherent M s) (hc : s.calls[i]? = some c) {applied throws : Bool} {r}
    (hr : s.s3Delete i c applied throws = some r) : Coherent M r.1 := by
  unfold State.s3Delete at hr
  split at hr
  · rename_i hphase
    obtain rfl := Option.some.inj hr
    refine Coherent.setPhase ?_ (by simp)
    split_ifs
    · exact h.remove (List.mem_of_getElem? hc) hphase
    · exact h
  · cases hr

theorem found (h : Coherent M s) {block : Option Bytes} {r} (hr : s.found i c block = some r) :
    Coherent M r.1 := by
  unfold State.found at hr
  split_ifs at hr
  cases block <;> obtain rfl := Option.some.inj hr <;> exact h.setPhase (by simp)

theorem abandoned (h : Coherent M s) {r} (hr : s.abandoned i c = some r) : Coherent M r.1 := by
  unfold State.abandoned at hr
  split at hr
  · obtain rfl := Option.some.inj hr
    exact h.setPhase (by simp)
  · cases hr

theorem step (h : Coherent M s) (hinj : Function.Injective M.toString) {e : Event}
    (hfills : FillsSettled maxSize s e) {r} (hr : s.step M maxSize e = some r) :
    Coherent M r.1 := by
  cases e with
  | get cid =>
    obtain rfl := Option.some.inj hr
    unfold State.get
    split <;> exact h.start (by simp)
  | put cid val =>
    obtain rfl := Option.some.inj hr
    exact h.start (by simp)
  | has cid =>
    obtain rfl := Option.some.inj hr
    unfold State.hasStart
    split_ifs <;> exact h.start (by simp)
  | delete cid =>
    obtain rfl := Option.some.inj hr
    exact h.delete
  | s3Read i chunks err =>
    obtain ⟨c, -, hr⟩ := Option.bind_eq_some_iff.mp hr
    exact h.s3Read hr
  | s3Put i applied throws =>
    simp only [State.step] at hr
    split_ifs at hr
    obtain ⟨c, -, hr⟩ := Option.bind_eq_some_iff.mp hr
    exact h.s3Put hr
  | s3Has i throws =>
    obtain ⟨c, -, hr⟩ := Option.bind_eq_some_iff.mp hr
    exact h.s3Has hr
  | s3Delete i applied throws =>
    simp only [State.step] at hr
    split_ifs at hr
    obtain ⟨c, hc, hr⟩ := Option.bind_eq_some_iff.mp hr
    exact h.s3Delete hc hr
  | found i block =>
    obtain ⟨c, -, hr⟩ := Option.bind_eq_some_iff.mp hr
    exact h.found hr
  | next i =>
    obtain ⟨c, hc, hr⟩ := Option.bind_eq_some_iff.mp hr
    exact h.next hinj hc hfills hr
  | abandoned i =>
    obtain ⟨c, -, hr⟩ := Option.bind_eq_some_iff.mp hr
    exact h.abandoned hr
  | bitswapPut cid val =>
    obtain rfl := Option.some.inj hr
    exact h.insert cid val
  | evict key =>
    obtain rfl := Option.some.inj hr
    exact h.erase key

end Coherent

variable {maxSizeMB : Nat} {store : Blocks} {es : List Event} {out : List Effect}

/-- In every run in which the cache takes values only while S3 holds their CIDs for good,
nothing is claimed that S3 does not hold, also while calls are in flight. -/
theorem held_of_has (hinj : Function.Injective M.toString)
    (hrun : (stack M maxSizeMB store).Run (FillsSettled (maxSizeMB * 1024 * 1024)) es s out)
    (hhas : s.has M cid = true) : cid ∈ s.s3 := by
  have hcoherent : Coherent M s := by
    refine hrun.invariant (I := fun s _ => Coherent M s) (fun cid' hkey => ?_) ?_
    · simp [stack] at hkey
    · intro s e t out o h hfills hstep
      exact h.step hinj hfills hstep
  rw [State.has, Bool.or_eq_true, decide_eq_true_iff, decide_eq_true_iff] at hhas
  rcases hhas with hkey | hheld
  · exact (hcoherent cid hkey).1
  · exact hheld

open Multiformats

def miss : StoreError := { code := some "NoSuchKey" }

def fetched : List Event :=
  [.get letterA, .s3Read 0 [] miss, .next 0, .found 0 (some [0x61]), .s3Put 0 true false, .next 0]

theorem held_of_has_fetched : ∃ s out,
    (stack onLetterA 64 ∅).Run (FillsSettled (64 * 1024 * 1024)) fetched s out ∧
      s.has onLetterA letterA = true ∧ letterA ∈ s.s3 := by
  obtain ⟨s, out, hrun, hhas⟩ := System.exists_run
    (T := (stack onLetterA 64 ∅).guarded (FillsSettled (64 * 1024 * 1024))) fetched
    (p := fun r => r.1.has onLetterA letterA = true) (by decide +kernel)
  have hrun' := hrun.of_guarded
  exact ⟨s, out, hrun', hhas, held_of_has letterText_injective hrun' hhas⟩

def putFails : List Event :=
  [.get letterA, .s3Read 0 [] miss, .next 0, .found 0 (some [0x61]), .s3Put 0 false true, .next 0]

def deletedBetween : List Event :=
  [.put letterA [0x61], .s3Put 0 true false, .delete letterA, .s3Delete 1 true false, .next 0]

/-- After either run no call is in flight, the cache claims the block, and S3 does not hold
it. -/
theorem not_held_of_has :
    (∃ s out, (stack onLetterA 64 ∅).Run System.any putFails s out ∧
      s.Idle ∧ s.has onLetterA letterA = true ∧ letterA ∉ s.s3) ∧
    ∃ s out, (stack onLetterA 64 ∅).Run System.any deletedBetween s out ∧
      s.Idle ∧ s.has onLetterA letterA = true ∧ letterA ∉ s.s3 := by
  constructor
  · exact System.exists_run (T := stack onLetterA 64 ∅) putFails
      (p := fun r => r.1.Idle ∧ r.1.has onLetterA letterA = true ∧ letterA ∉ r.1.s3)
      (by decide +kernel)
  · exact System.exists_run (T := stack onLetterA 64 ∅) deletedBetween
      (p := fun r => r.1.Idle ∧ r.1.has onLetterA letterA = true ∧ letterA ∉ r.1.s3)
      (by decide +kernel)

end IpfsShard.Blockstore.Stack
