import IpfsShard.Bitswap.Delivery

/-! How long a want stays in the map. Every caller of the repository passes the signal of a
timeout, and the listener of the signal takes the want out again. -/

namespace IpfsShard.Bitswap
open Codec Runs Calls Table

def State.Live (s : State) (signal : Option Nat) : Prop :=
  ∃ sig, signal = some sig ∧ sig ∉ s.aborted

def AllLive (s : State) : Prop :=
  ∀ key p, s.pendingWants.lookup key = some p →
    ∃ cid signal, s.origin p.deferred = some (cid, signal) ∧ s.Live signal

def MakesLive (M : Multiformats) (s : State) : Event → Prop
  | .want cid signal => s.pendingWants.lookup (M.toString cid) = none → s.Live signal
  | _ => True

variable {M : Multiformats} {s t : State} {e : Event} {o : List Effect}

theorem AllLive.mono (h : AllLive s) (haborted : t.aborted = s.aborted)
    (hp : ∀ key p, t.pendingWants.lookup key = some p → s.pendingWants.lookup key = some p ∧
      ∀ r, s.origin p.deferred = some r → t.origin p.deferred = some r) : AllLive t := by
  intro key p hlookup
  obtain ⟨hold, hkeeps⟩ := hp key p hlookup
  obtain ⟨cid, signal, horigin, sig, hsig, hlive⟩ := h key p hold
  exact ⟨cid, signal, hkeeps _ horigin, sig, hsig, by rw [haborted]; exact hlive⟩

theorem allLive_create_iff (h : AllLive s) {cid : CID} {signal : Option Nat} :
    s.Live signal ↔ AllLive { s with
      pendingWants := s.pendingWants.insert (M.toString cid) ⟨s.deferreds.length, cid⟩
      deferreds := s.deferreds ++ [{ cid, signal }]
      listeners := s.listeners ++ signal.toList.map (⟨·, M.toString cid, s.deferreds.length⟩)
      calls := s.calls ++ [⟨cid, signal, s.deferreds.length⟩] } := by
  constructor
  · intro hlive key p hp
    rcases lookup_insert_iff.mp hp with ⟨-, rfl⟩ | ⟨-, hp⟩
    · exact ⟨cid, signal, origin_create.mpr (Or.inr ⟨rfl, rfl⟩), hlive⟩
    · obtain ⟨cid', signal', horigin, hlive'⟩ := h key p hp
      exact ⟨cid', signal', origin_create.mpr (Or.inl horigin), hlive'⟩
  · intro hall
    obtain ⟨cid', signal', horigin, hlive⟩ := hall _ _ (AList.lookup_insert _)
    rcases origin_create.mp horigin with hold | ⟨-, hnew⟩
    · exact absurd (lt_of_origin hold) (Nat.lt_irrefl _)
    · obtain rfl : signal = signal' := congrArg Prod.snd hnew
      exact hlive

theorem AllLive.abort (hs : Sound M s) (h : AllLive s) (signal : Nat) :
    AllLive (s.abort signal).1 := by
  rw [abort_eq]
  intro key p hp
  obtain ⟨hkey, hold⟩ := lookup_eraseAll_iff.mp hp
  obtain ⟨cid, signal', horigin, sig, rfl, hlive⟩ := h key p hold
  refine ⟨cid, some sig, (origin_settleAll _ _ _ _).trans horigin, sig, rfl, ?_⟩
  refine List.not_mem_cons_of_ne_of_not_mem ?_ hlive
  rintro rfl
  obtain ⟨l, hl, -, hlkey⟩ := mem_fired hs horigin
  obtain ⟨hcid, signal'', hx⟩ := hs.entry key p hold
  have hsame : p.cid = cid := by
    rw [State.origin, hx] at horigin
    exact congrArg Prod.fst (Option.some.inj horigin)
  exact hkey (List.mem_map.mpr ⟨l, hl, by rw [hlkey, hcid, hsame]⟩)

theorem makesLive_iff (hs : Sound M s) (h : AllLive s) (hstep : Step M s e t o) :
    MakesLive M s e ↔ AllLive t := by
  cases hstep with
  | join hexisting =>
    refine iff_of_true (fun hnone => ?_) (h.mono rfl fun key p hp => ⟨hp, fun _ => id⟩)
    rw [hexisting] at hnone
    cases hnone
  | create hnone => exact ⟨fun hlive => (allLive_create_iff h).mp (hlive hnone),
      fun hall _ => (allLive_create_iff h).mpr hall⟩
  | abort _ => exact iff_of_true trivial (h.abort hs _)
  | pass _ _ _ hwant _ _ =>
    refine iff_of_true ?_ (h.mono rfl fun key p hp => ⟨hp, fun _ => id⟩)
    cases e with
    | want cid signal => exact absurd rfl (hwant cid signal)
    | _ => trivial
  | take _ _ _ _ =>
    refine iff_of_true trivial (h.mono rfl fun key p hp => ⟨?_, fun _ => id⟩)
    exact (lookup_erase_iff.mp hp).2
  | release _ _ _ _ =>
    refine iff_of_true trivial (h.mono rfl fun key p hp => ⟨hp, fun r hr => ?_⟩)
    exact (origin_settle _ _ _ _).trans hr
  | stop =>
    refine iff_of_true trivial fun key p hp => ?_
    cases hp

/-- A want is in the map only while its own signal is live, exactly if every want is made with a
live signal: then no want outlives its timeout in the map. -/
theorem run_makesLive_iff {es : List Event} {out : List Effect} :
    (wants M).Run (MakesLive M) es s out ↔ (wants M).Run ((wants M).Into AllLive) es s out := by
  refine System.run_iff_into (I := Sound M) (fun _ _ _ h => sound_of_run h) ?_ ?_
  · intro key p hp
    cases hp
  · intro s e t o hs hlive hstep
    exact makesLive_iff hs hlive (step_cases hstep)

end IpfsShard.Bitswap
