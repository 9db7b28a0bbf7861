import IpfsShard.Bitswap.Sound

/-! Each caller of `want` by itself: what becomes of a call, going by its own signal and by
the blocks that arrive. The code has one deferred for all callers of a CID, and only the
first of them can abort it. -/

namespace IpfsShard.Bitswap
open Codec Runs

inductive Fate where
  | waiting
  | aborted
  | served
  deriving DecidableEq

structure Caller where
  cid : CID
  signal : Option Nat
  fate : Fate := .waiting
  deriving DecidableEq

structure Callers where
  callers : List Caller := []
  aborted : List Nat := []
  deriving DecidableEq

inductive Observation where
  | called (cid : CID) (signal : Option Nat)
  | aborted (signal : Nat)
  | arrived (cid : CID)

def Caller.abort (signal : Nat) (c : Caller) : Caller :=
  if c.fate = .waiting ∧ c.signal = some signal then { c with fate := .aborted } else c

def Caller.serve (cid : CID) (c : Caller) : Caller :=
  if c.fate = .waiting ∧ c.cid = cid then { c with fate := .served } else c

def Callers.observe (a : Callers) : Observation → Callers
  | .called cid signal =>
    let fate := if ∃ x ∈ signal, x ∈ a.aborted then .aborted else .waiting
    { a with callers := a.callers ++ [⟨cid, signal, fate⟩] }
  | .aborted signal =>
    { callers := a.callers.map (Caller.abort signal), aborted := signal :: a.aborted }
  | .arrived cid => { a with callers := a.callers.map (Caller.serve cid) }

/-- A block has arrived when its hash is there and gives a CID. -/
def arrival (M : Multiformats) (s : State) (i : Nat) : Option CID :=
  match s.handlers[i]? with
  | some h =>
    match h.phase with
    | .hashing block _ => prefixToCID M block.cidPrefix block.data
    | _ => none
  | none => none

def observation (M : Multiformats) (s : State) : Event → Option Observation
  | .want cid signal => some (.called cid signal)
  | .abort signal => some (.aborted signal)
  | .hashed i => (arrival M s i).map .arrived
  | _ => none

def Callers.follow (M : Multiformats) (s : State) (a : Callers) (e : Event) : Callers :=
  match observation M s e with
  | some ob => a.observe ob
  | none => a

def observed (M : Multiformats) : System (State × Callers) Event Effect where
  init := ({}, {})
  step s e := (s.1.step M e).map fun r => ((r.1, s.2.follow M s.1 e), r.2)

def Rejected (s : State) (c : Call) : Prop :=
  ∃ x, s.deferreds[c.deferred]? = some x ∧ x.settlement = .rejected .aborted

def OpenUnder (s : State) (signal : Nat) (c : Call) : Prop :=
  ∃ x, s.deferreds[c.deferred]? = some x ∧ x.signal = some signal ∧ x.settlement = .pending

/-- A call is rejected with 'Aborted' exactly when its own signal came first. -/
def Governed (s : State × Callers) : Prop :=
  ∀ p ∈ s.1.calls.zip s.2.callers, Rejected s.1 p.1 ↔ p.2.fate = .aborted

/-- No call is made with a signal that is aborted already; and when a signal is aborted, the
open promises whose deferreds were made with it are those of the callers that wait
with this signal. -/
def OwnSignals (s : State × Callers) : Event → Prop
  | .want _ signal => ∀ x ∈ signal, x ∉ s.1.aborted
  | .abort signal => ∀ p ∈ s.1.calls.zip s.2.callers,
      OpenUnder s.1 signal p.1 ↔ p.2.fate = .waiting ∧ p.2.signal = some signal
  | _ => True

structure Aligned (M : Multiformats) (s : State) (a : Callers) : Prop where
  sound : Sound M s
  length : s.calls.length = a.callers.length
  aborted : s.aborted = a.aborted

variable {M : Multiformats} {s t : State} {a : Callers} {e : Event} {o : List Effect}

theorem abort_fate (signal : Nat) (c : Caller) : (c.abort signal).fate = .aborted ↔
    c.fate = .aborted ∨ c.fate = .waiting ∧ c.signal = some signal := by
  simp only [Caller.abort]
  split_ifs with h <;> simp [h]

theorem serve_fate (cid : CID) (c : Caller) : (c.serve cid).fate = .aborted ↔
    c.fate = .aborted := by
  simp only [Caller.serve]
  split_ifs with h <;> simp [h]

theorem settle_eq_aborted_iff (x : Deferred) {st : Settlement}
    (hst : st ≠ .rejected .aborted) :
    (x.settle st).settlement = .rejected .aborted ↔ x.settlement = .rejected .aborted := by
  rw [Deferred.settle_settlement]
  split_ifs with h
  · simp [h, hst]
  · rfl

theorem rejected_settleAll (s : State) (wants : List Nat) {st : Settlement}
    (hst : st ≠ .rejected .aborted) {t : State}
    (ht : t.deferreds = wants.foldl (settle · · st) s.deferreds) (c : Call) :
    Rejected t c ↔ Rejected s c := by
  simp only [Rejected, ht, getElem?_settleAll, Option.map_eq_some_iff, ↓existsAndEq, and_true]
  refine exists_congr fun x => and_congr_right fun _ => ?_
  split_ifs
  · exact settle_eq_aborted_iff x hst
  · rfl

theorem rejected_abort (hs : Sound M s) (signal : Nat) (c : Call) :
    Rejected (s.abort signal).1 c ↔ Rejected s c ∨ OpenUnder s signal c := by
  simp only [Rejected, OpenUnder, abort_eq, getElem?_settleAll, Option.map_eq_some_iff,
    ↓existsAndEq, and_true, ← exists_or]
  refine exists_congr fun x => ?_
  rw [← and_or_left]
  refine and_congr_right fun hx => ?_
  have horigin : s.origin c.deferred = some (x.cid, x.signal) := by simp [State.origin, hx]
  -- the listeners of the signal reject exactly the deferreds that were made with it
  by_cases hsig : x.signal = some signal
  · obtain ⟨l, hl, hld, -⟩ := mem_fired hs (hsig ▸ horigin)
    rw [if_pos (List.mem_map.mpr ⟨l, hl, hld⟩), Deferred.settle_settlement]
    split_ifs with hp <;> simp [hsig, hp]
  · rw [if_neg]
    · simp [hsig]
    · intro hd
      obtain ⟨cid, ho⟩ := origin_of_mem_fired hs hd
      rw [horigin, Option.some.injEq, Prod.mk.injEq] at ho
      exact hsig ho.2

theorem governed_append {c : Call} {caller : Caller} (hlen : s.calls.length = a.callers.length)
    {aborted : List Nat} (hcalls : t.calls = s.calls ++ [c])
    (hold : ∀ c ∈ s.calls, Rejected t c ↔ Rejected s c) (hnew : ¬ Rejected t c)
    (h : Governed (s, a)) :
    Governed (t, ⟨a.callers ++ [caller], aborted⟩) ↔ caller.fate ≠ .aborted := by
  simp only [Governed, hcalls, List.zip_append hlen, List.forall_mem_append, List.zip_cons_cons,
    List.zip_nil_left, List.forall_mem_singleton, hnew, false_iff, and_iff_right_iff_imp]
  intro _ p hp
  exact (hold p.1 (List.of_mem_zip hp).1).trans (h p hp)

theorem governed_map {f : Caller → Caller} {aborted : List Nat} (hcalls : t.calls = s.calls)
    (hold : ∀ c ∈ s.calls, Rejected t c ↔ Rejected s c)
    (hf : ∀ caller, (f caller).fate = .aborted ↔ caller.fate = .aborted)
    (h : Governed (s, a)) : Governed (t, ⟨a.callers.map f, aborted⟩) := by
  simp only [Governed, hcalls, List.zip_map_right, List.forall_mem_map, Prod.map_fst, Prod.map_snd,
    id_eq]
  intro p hp
  rw [hold p.1 (List.of_mem_zip hp).1, hf]
  exact h p hp

theorem governed_abort_iff (hs : Sound M s) (h : Governed (s, a)) (signal : Nat) :
    Governed ((s.abort signal).1, a.observe (.aborted signal)) ↔
      OwnSignals (s, a) (.abort signal) := by
  have hcalls : (s.abort signal).1.calls = s.calls := by rw [abort_eq]
  simp only [Governed, hcalls, Callers.observe, List.zip_map_right, List.forall_mem_map,
    Prod.map_fst, Prod.map_snd, id_eq, OwnSignals, rejected_abort hs, abort_fate]
  refine forall₂_congr fun p hp => ?_
  have hrej := h p hp
  -- an open promise is not rejected yet
  have hopen : OpenUnder s signal p.1 → ¬ Rejected s p.1 := by
    rintro ⟨x, hx, -, hpend⟩ ⟨y, hy, hr⟩
    rw [hx] at hy
    cases hy
    rw [hpend] at hr
    cases hr
  have hwait : p.2.fate = .waiting → p.2.fate ≠ .aborted := by
    intro hw
    simp [hw]
  tauto

theorem called_fate (a : Callers) (signal : Option Nat) :
    (if ∃ x ∈ signal, x ∈ a.aborted then Fate.aborted else .waiting) ≠ .aborted ↔
      ∀ x ∈ signal, x ∉ a.aborted := by
  split_ifs with h
  · simpa using h
  · simpa using h

theorem rejected_create (hs : Sound M s) {x : Deferred} {c : Call} (hc : c ∈ s.calls) {t : State}
    (ht : t.deferreds = s.deferreds ++ [x]) : Rejected t c ↔ Rejected s c := by
  obtain ⟨cid, signal, ho, -⟩ := hs.call c hc
  have hlt : c.deferred < s.deferreds.length := by
    obtain ⟨y, hy, -⟩ := Option.map_eq_some_iff.mp ho
    exact (List.getElem?_eq_some_iff.mp hy).1
  rw [Rejected, Rejected, ht, List.getElem?_append_left hlt]

theorem follow_want (cid : CID) (signal : Option Nat) : a.follow M s (.want cid signal) =
    ⟨a.callers ++ [⟨cid, signal, if ∃ x ∈ signal, x ∈ a.aborted then .aborted else .waiting⟩],
      a.aborted⟩ := rfl

theorem follow_of_quiet (hw : ∀ cid signal, e ≠ .want cid signal)
    (ha : ∀ signal, e ≠ .abort signal) : ∃ f : Caller → Caller,
      a.follow M s e = ⟨a.callers.map f, a.aborted⟩ ∧
      ∀ caller, (f caller).fate = .aborted ↔ caller.fate = .aborted := by
  cases e with
  | want cid signal => exact absurd rfl (hw cid signal)
  | abort signal => exact absurd rfl (ha signal)
  | hashed i =>
    simp only [Callers.follow, observation]
    cases arrival M s i with
    | none => exact ⟨id, by simp, fun _ => Iff.rfl⟩
    | some cid => exact ⟨Caller.serve cid, rfl, serve_fate cid⟩
  | message peer bytes fuel => exact ⟨id, by simp [Callers.follow, observation], fun _ => Iff.rfl⟩
  | stored i => exact ⟨id, by simp [Callers.follow, observation], fun _ => Iff.rfl⟩
  | stop => exact ⟨id, by simp [Callers.follow, observation], fun _ => Iff.rfl⟩

theorem ownSignals_iff (hs : Aligned M s a) (h : Governed (s, a)) (hstep : Step M s e t o) :
    OwnSignals (s, a) e ↔ Governed (t, a.follow M s e) := by
  obtain ⟨hsound, hlen, haborted⟩ := hs
  cases hstep with
  | @join cid signal existing he =>
    obtain ⟨-, sig, hx⟩ := hsound.entry _ _ he
    have hnew : ¬ Rejected s ⟨cid, signal, existing.deferred⟩ := by
      rintro ⟨x, hx', hr⟩
      rw [hx] at hx'
      cases hx'
      cases hr
    rw [follow_want]
    refine Iff.trans ?_ (governed_append
      (t := { s with calls := s.calls ++ [⟨cid, signal, existing.deferred⟩] })
      hlen rfl (fun _ _ => Iff.rfl) hnew h).symm
    rw [called_fate, ← haborted]
    rfl
  | @create cid signal hn =>
    rw [follow_want]
    refine Iff.trans ?_
      (governed_append hlen rfl (fun c hc => rejected_create hsound hc rfl) ?_ h).symm
    · rw [called_fate, ← haborted]
      rfl
    · rintro ⟨x, hx, hr⟩
      simp only [List.getElem?_concat_length, Option.some.injEq] at hx
      subst hx
      cases hr
  | abort _ => exact (governed_abort_iff hsound h _).symm
  | @pass e handlers o _ _ _ hw ha _ =>
    obtain ⟨f, hf, hfate⟩ := follow_of_quiet (M := M) (s := s) (a := a) hw ha
    rw [hf]
    refine iff_of_true ?_ (governed_map rfl (fun _ _ => Iff.rfl) hfate h)
    cases e with
    | want cid signal => exact absurd rfl (hw cid signal)
    | abort signal => exact absurd rfl (ha signal)
    | _ => trivial
  | take _ _ _ _ =>
    obtain ⟨f, hf, hfate⟩ := follow_of_quiet (M := M) (s := s) (a := a) (e := .hashed _)
      (by simp) (by simp)
    rw [hf]
    exact iff_of_true trivial (governed_map rfl (fun _ _ => Iff.rfl) hfate h)
  | @release i handlers cid data pending _ _ _ _ _ =>
    refine iff_of_true trivial ?_
    rw [show a.follow M s (.stored i) = ⟨a.callers.map id, a.aborted⟩ by
      simp [Callers.follow, observation]]
    refine governed_map (s := s) rfl (fun c _ => ?_) (fun _ => Iff.rfl) h
    exact rejected_settleAll s [pending.deferred] (by simp) rfl c
  | stop =>
    refine iff_of_true trivial ?_
    rw [show a.follow M s .stop = ⟨a.callers.map id, a.aborted⟩ by
      simp [Callers.follow, observation]]
    refine governed_map (s := s) rfl (fun c _ => ?_) (fun _ => Iff.rfl) h
    exact rejected_settleAll s _ (by simp) rfl c

theorem aligned_step (hs : Aligned M s a) (hstep : Step M s e t o) :
    Aligned M t (a.follow M s e) := by
  have hsound := hs.sound.step hstep
  have hquiet : ∀ {e t}, (∀ cid signal, e ≠ .want cid signal) → (∀ signal, e ≠ .abort signal) →
      t.calls = s.calls → t.aborted = s.aborted → Sound M t → Aligned M t (a.follow M s e) := by
    intro e t hw ha hcalls haborted hsound
    obtain ⟨f, hf, -⟩ := follow_of_quiet (M := M) (s := s) (a := a) hw ha
    rw [hf]
    exact ⟨hsound, by simp [hcalls, hs.length], haborted.trans hs.aborted⟩
  cases hstep with
  | join _ => exact ⟨hsound, by simp [follow_want, hs.length], hs.aborted⟩
  | create _ => exact ⟨hsound, by simp [follow_want, hs.length], hs.aborted⟩
  | @abort signal _ =>
    have hfollow : a.follow M s (.abort signal) =
        ⟨a.callers.map (Caller.abort signal), signal :: a.aborted⟩ := rfl
    refine ⟨hsound, ?_, ?_⟩
    · simp [hfollow, abort_eq, hs.length]
    · simp [hfollow, abort_eq, hs.aborted]
  | pass _ _ _ hw ha _ => exact hquiet hw ha rfl rfl hsound
  | take _ _ _ _ => exact hquiet (by simp) (by simp) rfl rfl hsound
  | release _ _ _ _ => exact hquiet (by simp) (by simp) rfl rfl hsound
  | stop => exact hquiet (by simp) (by simp) rfl rfl hsound

theorem observed_step {s : State × Callers} {t : State × Callers}
    (h : (observed M).step s e = some (t, o)) :
    Step M s.1 e t.1 o ∧ t.2 = s.2.follow M s.1 e := by
  obtain ⟨r, hr, he⟩ := Option.map_eq_some_iff.mp h
  cases he
  exact ⟨step_cases hr, rfl⟩

/-- In a run every call is rejected with 'Aborted' exactly when its own signal came first,
in each state, if and only if no call is made with an aborted signal and each signal is
aborted only while it governs the same calls as it does in the code. -/
theorem run_ownSignals_iff {es : List Event} {s : State × Callers} {out : List Effect} :
    (observed M).Run OwnSignals es s out ↔
      (observed M).Run ((observed M).Into Governed) es s out := by
  refine System.run_iff_into (I := fun s => Aligned M s.1 s.2) ?_ ?_ ?_
  · intro es s out h
    refine h.invariant (I := fun s _ => Aligned M s.1 s.2) ⟨sound_init, rfl, rfl⟩ ?_
    intro s e t out o hs _ hstep
    obtain ⟨hcode, hcallers⟩ := observed_step hstep
    rw [hcallers]
    exact aligned_step hs hcode
  · simp [Governed, observed]
  · intro s e t o hs h hstep
    obtain ⟨hcode, hcallers⟩ := observed_step hstep
    have hiff := ownSignals_iff hs h hcode
    rw [← hcallers] at hiff
    exact hiff

def joinThenAbort : List Event :=
  [.want Multiformats.emptyRaw none, .want Multiformats.emptyRaw (some 0), .abort 0]

open Multiformats in
/-- His promise stays open. -/
theorem not_governed_joinThenAbort : ∃ s out,
    (observed onEmptyBlock).Run System.any joinThenAbort s out ∧ ¬ Governed s := by
  obtain ⟨s, out, hrun, hcalls, hcallers, hds⟩ :=
    System.exists_run (T := observed onEmptyBlock) joinThenAbort
    (p := fun r => r.1.1.calls = [⟨emptyRaw, none, 0⟩, ⟨emptyRaw, some 0, 0⟩] ∧
      r.1.2.callers = [⟨emptyRaw, none, .waiting⟩, ⟨emptyRaw, some 0, .aborted⟩] ∧
      r.1.1.deferreds = [⟨emptyRaw, none, .pending⟩]) (by decide +kernel)
  refine ⟨s, out, hrun, fun h => ?_⟩
  simp only at hcalls hcallers hds
  have hiff := h (⟨emptyRaw, some 0, 0⟩, ⟨emptyRaw, some 0, .aborted⟩) (by simp [hcalls, hcallers])
  obtain ⟨x, hx, hr⟩ := hiff.mpr rfl
  rw [hds] at hx
  cases hx
  cases hr

end IpfsShard.Bitswap
