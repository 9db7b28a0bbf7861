import IpfsShard.Dht.Announce

/-! The announcement statistics: `POST /announce` counts the calls of `provide`, `/stats` reports
them as successful announcements. -/

namespace IpfsShard.Dht
open Runs Calls Multiformats Pins

def Phase.called : Phase → Bool
  | setting | set => false
  | providing | settling _ | done _ => true

def called (s : State) : Nat := s.announcements.countP fun a => a.requested && a.phase.called

def succeeded (s : State) : Nat :=
  s.announcements.countP fun a => a.requested && decide (a.phase.result = some .success)

def Quiet (s : State) : Prop := ∀ a ∈ s.announcements, a.phase ≠ .providing

def Provided.isFailed : Provided → Bool
  | success => false
  | failed _ => true

def Failed (s : State) : Prop :=
  ∃ a ∈ s.announcements, a.requested = true ∧ a.phase.result.any Provided.isFailed = true

instance (s : State) : Decidable (Quiet s) :=
  inferInstanceAs (Decidable (∀ a ∈ s.announcements, a.phase ≠ .providing))

instance (s : State) : Decidable (Failed s) :=
  inferInstanceAs (Decidable (∃ a ∈ s.announcements,
    a.requested = true ∧ a.phase.result.any Provided.isFailed = true))

def DhtStats.Accurate (dht : DhtStats) (s : State) : Prop :=
  dht.providersAnnounced = succeeded s ∧ (dht.lastAnnouncedAt = none ↔ succeeded s = 0)

variable {M : Multiformats} {parse : String → Option CID} {records : Records} {s t : State}
  {e : Event} {es : List Event} {o out : List Response}

structure Counted (s : State) : Prop where
  total : s.totalProvidersAnnounced = called s
  last : s.lastAnnouncedAt = none ↔ s.totalProvidersAnnounced = 0

theorem written_called (phase : Phase) : phase.written.called = phase.called := by
  cases phase <;> rfl

theorem Counted.resumed (h : Counted s) {call : Nat} {a : Announcement}
    (ha : s.announcements[call]? = some a) (hset : a.phase = .set) (now : Nat) :
    Counted (resumed s call a now) := by
  have hcount := countP_modify (f := fun a : Announcement => { a with phase := .providing })
    (fun a => a.requested && a.phase.called) ha
  have hnot : (a.requested && a.phase.called) = false := by simp [hset, Phase.called]
  have hnow : (a.requested && Phase.providing.called) = a.requested := by simp [Phase.called]
  simp only [hnot, hnow, Bool.false_eq_true, if_false, Nat.add_zero] at hcount
  unfold Dht.resumed
  split_ifs with hrequested
  · rw [if_pos hrequested] at hcount
    refine ⟨?_, by simp⟩
    show s.totalProvidersAnnounced + 1 = _
    rw [h.total]
    exact hcount.symm
  · rw [if_neg hrequested] at hcount
    exact ⟨h.total.trans hcount.symm, h.last⟩

theorem Counted.step (h : Counted s) (hstep : step M parse s e = some (t, o)) : Counted t := by
  rcases step_cases hstep with rfl | ⟨cid, requested, now, rfl⟩ |
    ⟨put, puts, carriedOut, rfl, hputs, rfl⟩ | ⟨call, a, now, ha, hset, rfl⟩ |
    ⟨call, a, result, now, ha, hproviding, rfl⟩
  · exact h
  · refine ⟨h.total.trans ?_, h.last⟩
    simp [called, announceContent, setDHTStatus, Phase.called]
  · refine ⟨h.total.trans (Eq.symm (countP_modify_of_eq _ _ fun a _ => ?_)), h.last⟩
    simp only [written_called]
  · exact h.resumed ha hset now
  · refine ⟨h.total.trans (Eq.symm (countP_modify_of_eq _ _ fun b hb => ?_)), h.last⟩
    obtain rfl := Option.some.inj (ha.symm.trans hb)
    simp [hproviding, Phase.called]

theorem counted_of_run {ok : State → Event → Prop}
    (h : (announcing M parse records).Run ok es s out) : Counted s :=
  h.invariant (I := fun s _ => Counted s) ⟨rfl, by simp [announcing]⟩
    fun _ _ _ _ _ hs _ hstep => hs.step hstep

theorem succeeded_eq (s : State) : succeeded s =
    (s.announcements.filter fun a => a.requested && a.phase.called).countP
      fun a => decide (a.phase.result = some .success) := by
  rw [succeeded, List.countP_filter]
  refine List.countP_congr fun a _ => ?_
  cases hphase : a.phase <;> simp [Phase.result, Phase.called, and_comm]

theorem called_eq_succeeded_iff (hquiet : Quiet s) : called s = succeeded s ↔ ¬ Failed s := by
  rw [called, List.countP_eq_length_filter, succeeded_eq, eq_comm, List.countP_eq_length]
  constructor
  · rintro hall ⟨a, ha, hrequested, hfailed⟩
    have hcalled : a.phase.called = true := by
      cases hphase : a.phase <;> simp [hphase, Phase.result, Phase.called] at hfailed ⊢
    have hsuccess := hall a (List.mem_filter.mpr ⟨ha, by simp [hrequested, hcalled]⟩)
    rw [of_decide_eq_true hsuccess] at hfailed
    cases hfailed
  · intro hnone a hmem
    obtain ⟨ha, hcalled⟩ := List.mem_filter.mp hmem
    obtain ⟨hrequested, hcalled⟩ := (Bool.and_eq_true _ _).mp hcalled
    have hresult : ∃ result, a.phase.result = some result := by
      have hphase := hquiet a ha
      cases ha' : a.phase <;> simp [ha', Phase.result, Phase.called] at hcalled hphase ⊢
    obtain ⟨result, hresult⟩ := hresult
    cases result with
    | success => exact decide_eq_true hresult
    | failed err => exact absurd ⟨a, ha, hrequested, by rw [hresult]; rfl⟩ hnone

/-- What `GET /stats` answers when no `provide` is under way is accurate exactly if none of a
`POST /announce` has failed. -/
theorem stats_accurate_iff {dht : DhtStats}
    (h : (announcing M parse records).Run System.any (es ++ [.stats]) s (out ++ [.stats dht]))
    (hquiet : Quiet s) : dht.Accurate s ↔ ¬ Failed s := by
  obtain ⟨s', out', o, hrun, -, hstep, hout⟩ := h.last
  cases hstep
  obtain rfl : dht = getDhtStats s := by simpa using (List.append_inj' hout rfl).2
  have hcounted := counted_of_run hrun
  have htotal : (getDhtStats s).providersAnnounced = called s := hcounted.total
  have hlast : (getDhtStats s).lastAnnouncedAt = none ↔ called s = 0 := by
    rw [← hcounted.total]
    exact hcounted.last
  rw [DhtStats.Accurate, htotal, hlast, ← called_eq_succeeded_iff hquiet]
  exact and_iff_left_of_imp fun hsame => by rw [hsame]

def announcedOnce (result : Provided) : List Event :=
  [.announce emptyBody 1, .written true, .resumed 0 2, .provided 0 result 3]

theorem stats_announcedOnce : ∃ s,
    (announcing onEmptyBlock cidParse ∅).Run System.any (announcedOnce .success ++ [.stats]) s
      ([.ok] ++ [.stats ⟨1, some 2, 0⟩]) ∧
    succeeded s = 1 ∧ DhtStats.Accurate ⟨1, some 2, 0⟩ s := by
  obtain ⟨s, out, hrun, hend⟩ :=
    System.exists_run (T := announcing onEmptyBlock cidParse ∅)
      (announcedOnce .success ++ [.stats])
      (p := fun r => r.2 = [.ok] ++ [.stats ⟨1, some 2, 0⟩] ∧ Quiet r.1 ∧ succeeded r.1 = 1 ∧
        ¬ Failed r.1) (by decide +kernel)
  obtain ⟨rfl, hquiet, hsucceeded, hfailed⟩ : out = [.ok] ++ [.stats ⟨1, some 2, 0⟩] ∧ Quiet s ∧
    succeeded s = 1 ∧ ¬ Failed s := hend
  exact ⟨s, hrun, hsucceeded, (stats_accurate_iff hrun hquiet).mpr hfailed⟩

theorem stats_announcedFailed : ∃ s,
    (announcing onEmptyBlock cidParse ∅).Run System.any
      (announcedOnce (.failed "timeout") ++ [.stats]) s ([.ok] ++ [.stats ⟨1, some 2, 0⟩]) ∧
    Quiet s ∧ succeeded s = 0 ∧ ¬ DhtStats.Accurate ⟨1, some 2, 0⟩ s := by
  obtain ⟨s, out, hrun, hend⟩ :=
    System.exists_run (T := announcing onEmptyBlock cidParse ∅)
      (announcedOnce (.failed "timeout") ++ [.stats])
      (p := fun r => r.2 = [.ok] ++ [.stats ⟨1, some 2, 0⟩] ∧ Quiet r.1 ∧ succeeded r.1 = 0)
      (by decide +kernel)
  obtain ⟨rfl, hquiet, hsucceeded⟩ : out = [.ok] ++ [.stats ⟨1, some 2, 0⟩] ∧ Quiet s ∧
    succeeded s = 0 := hend
  refine ⟨s, hrun, hquiet, hsucceeded, fun h => ?_⟩
  have htotal : 1 = succeeded s := h.1
  rw [hsucceeded] at htotal
  cases htotal

end IpfsShard.Dht
